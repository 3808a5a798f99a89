/-
ApiStencil/Proofs/Registry/Number.lean

Integers as they are written in C (`Literal`): a magnitude in decimal or hexadecimal
digits, a minus sign in front of it or none, letters for the type behind it, and
parentheses and blanks around all of that.

Main result: an integer whose magnitude fits into 63 bits is read from each of its literals
(`ofText?_literal`).

What is dropped around a number ends where the number starts or ends, as no digit is a
blank, a parenthesis or a letter for a type (`Literal.bare_text`).
-/
import ApiStencil.Proofs.Text.Blank
import ApiStencil.Proofs.Text.Numeral
import ApiStencil.Registry.Number

namespace ApiStencil.Number

open Text

/-! ### Literals -/

/-- The ways to write the number `m` in digits, with any zeros in front of them. -/
inductive Magnitude (m : Nat) : List Char → Prop
  | decimal (zeros : Nat) : Magnitude m (List.replicate zeros '0' ++ Nat.toDigits 10 m)
  | hexadecimal {x : Char} {zeros : Nat} {digits : List Char} (hx : x = 'x' ∨ x = 'X')
      (hdigits : digits.map Char.toLower = List.replicate zeros '0' ++ Nat.toDigits 16 m) :
      Magnitude m ('0' :: x :: digits)

/-- An integer with everything that may stand around it. -/
structure Literal where
  before : List Char
  opening : Nat
  negative : Bool
  magnitude : Nat
  digits : List Char
  suffix : List Char
  closing : Nat
  after : List Char
  before_blank : ∀ c ∈ before, isSpace c = true
  writes : Magnitude magnitude digits
  suffix_letters : ∀ c ∈ suffix, isSuffix c = true
  after_blank : ∀ c ∈ after, isSpace c = true

namespace Literal

/-- The integer that is written. -/
def value (l : Literal) : Int :=
  if l.negative then -l.magnitude else l.magnitude

/-- The digits behind the sign. -/
def signed (l : Literal) : List Char :=
  if l.negative then '-' :: l.digits else l.digits

/-- What stands between the blanks. -/
def inside (l : Literal) : List Char :=
  List.replicate l.opening '(' ++ (l.signed ++ l.suffix ++ List.replicate l.closing ')')

/-- The whole literal. -/
def text (l : Literal) : List Char :=
  l.before ++ (l.inside ++ l.after)

end Literal

variable {m : Nat} {c : Char} {digits : List Char}

/-! ### Digits -/

/-- Whether a character is a digit in some base up to sixteen. -/
def isDigit (c : Char) : Bool :=
  (digitValue? c).isSome

/-- No digit is a blank. -/
theorem isSpace_of_isDigit (h : isDigit c = true) : isSpace c = false := by
  have hrange : 0x30 ≤ c.toNat ∧ c.toNat ≤ 0x66 := by
    rw [isDigit, digitValue?] at h
    split at h
    · next hdigit =>
      have hbounds := Bool.and_eq_true_iff.1 hdigit
      have hlow : 0x30 ≤ c.toNat := of_decide_eq_true hbounds.1
      have hhigh : c.toNat ≤ 0x39 := of_decide_eq_true hbounds.2
      omega
    · split at h
      · next hlower =>
        have hlow : 0x61 ≤ c.toNat := hlower.1
        have hhigh : c.toNat ≤ 0x66 := hlower.2
        omega
      · split at h
        · next hupper =>
          have hlow : 0x41 ≤ c.toNat := hupper.1
          have hhigh : c.toNat ≤ 0x46 := hupper.2
          omega
        · cases h
  exact isSpace_eq_false (by omega) (by omega)

/-- What is read as a number are digits. -/
theorem isDigit_of_readNat? {base : Nat} {s : List Char} (h : readNat? base s = some m) :
    s ≠ [] ∧ ∀ c ∈ s, isDigit c = true := by
  rw [readNat?] at h
  split at h
  · cases h
  · next hne => exact ⟨hne, isSome_digitValue? h⟩

namespace Magnitude

theorem readNat?_hexadecimal {zeros : Nat}
    (h : digits.map Char.toLower = List.replicate zeros '0' ++ Nat.toDigits 16 m) :
    readNat? 16 digits = some m := by
  rw [← readNat?_map_toLower, h]
  exact readNat?_zeros_append (by decide) (by decide) zeros m

theorem readNat?_decimal (zeros m : Nat) :
    readNat? 10 (List.replicate zeros '0' ++ Nat.toDigits 10 m) = some m :=
  readNat?_zeros_append (by decide) (by decide) zeros m

/-- The first and the last character of a number are digits. -/
theorem ends (h : Magnitude m digits) :
    digits ≠ [] ∧ (∀ c ∈ digits.head?, isDigit c = true) ∧
      ∀ c ∈ digits.getLast?, isDigit c = true := by
  cases h with
  | decimal zeros =>
    obtain ⟨hne, hdigits⟩ := isDigit_of_readNat? (readNat?_decimal zeros m)
    exact ⟨hne, fun c hc => hdigits c (List.mem_of_mem_head? hc),
      fun c hc => hdigits c (List.mem_of_getLast? hc)⟩
  | @hexadecimal x zeros digits hx hdigits =>
    obtain ⟨hne, hdigits⟩ := isDigit_of_readNat? (readNat?_hexadecimal hdigits)
    obtain ⟨d, r, rfl⟩ := List.exists_cons_of_ne_nil hne
    refine ⟨List.cons_ne_nil _ _, ?_, ?_⟩
    · rintro c ⟨⟩
      rfl
    · intro c hc
      rw [List.getLast?_cons_cons, List.getLast?_cons_cons] at hc
      exact hdigits c (List.mem_of_getLast? hc)

/-- A number that fits into 63 bits is read from its digits. -/
theorem readMagnitude?_eq (h : Magnitude m digits) (hm : (m : Int) < int64Bound) :
    readMagnitude? digits = some (m : Int) := by
  cases h with
  | decimal zeros =>
    have hread := readNat?_decimal zeros m
    obtain ⟨-, hdigits⟩ := isDigit_of_readNat? hread
    -- no mark of the other base, as that is no digit
    unfold readMagnitude?
    split
    · next he =>
      rw [he] at hdigits
      exact absurd (hdigits 'x' (by simp)) (by decide)
    · next he =>
      rw [he] at hdigits
      exact absurd (hdigits 'X' (by simp)) (by decide)
    · exact readInt?_of_readNat? hread hm
  | hexadecimal hx hdigits =>
    have hread := readInt?_of_readNat? (readNat?_hexadecimal hdigits) hm
    rcases hx with rfl | rfl
    · exact hread
    · exact hread

end Magnitude

/-! ### What stands around the digits -/

theorem isSpace_of_isSuffix (h : isSuffix c = true) : isSpace c = false := by
  simp only [isSuffix, Bool.or_eq_true, decide_eq_true_eq] at h
  rcases h with ((rfl | rfl) | rfl) | rfl <;> rfl

/-- No digit is a letter for a type. Of the letters, only those from A to F count as digits. -/
theorem isSuffix_of_isDigit (h : isDigit c = true) : isSuffix c = false := by
  simp only [isSuffix, Bool.or_eq_false_iff, decide_eq_false_iff_not]
  exact ⟨⟨⟨ne_of_class h rfl, ne_of_class h rfl⟩, ne_of_class h rfl⟩, ne_of_class h rfl⟩

namespace Literal

variable (l : Literal)

/-- A number starts with a digit or its sign. -/
theorem exists_signed_eq_cons :
    ∃ c r, l.signed = c :: r ∧ (isDigit c = true ∨ c = '-') := by
  obtain ⟨hne, hfirst, -⟩ := l.writes.ends
  obtain ⟨c, r, hdigits⟩ := List.exists_cons_of_ne_nil hne
  rw [signed]
  split
  · exact ⟨'-', l.digits, rfl, .inr rfl⟩
  · rw [hdigits] at hfirst ⊢
    exact ⟨c, r, rfl, .inl (hfirst c rfl)⟩

/-- The part from the sign to the last parenthesis starts with a digit or the sign. -/
theorem head?_signed_append {p : Char → Bool} (hdigit : ∀ c, isDigit c = true → p c = false)
    (hsign : p '-' = false) (t : List Char) : ∀ c ∈ (l.signed ++ t).head?, p c = false := by
  obtain ⟨c, r, hsigned, hc⟩ := l.exists_signed_eq_cons
  rw [hsigned, List.cons_append]
  refine head?_cons_stops ?_
  rcases hc with hc | rfl
  · exact hdigit c hc
  · exact hsign

/-- A number ends with a digit. -/
theorem getLast?_signed : ∀ c ∈ l.signed.getLast?, isDigit c = true := by
  obtain ⟨hne, -, hlast⟩ := l.writes.ends
  rw [signed]
  split
  · obtain ⟨d, r, hd⟩ := List.exists_cons_of_ne_nil hne
    rw [hd, List.getLast?_cons_cons, ← hd]
    exact hlast
  · exact hlast

/-- With letters for the type behind it, it ends with a digit or a letter. -/
theorem getLast?_signed_append_suffix {p : Char → Bool}
    (hdigit : ∀ c, isDigit c = true → p c = false)
    (hsuffix : ∀ c, isSuffix c = true → p c = false) :
    ∀ c ∈ (l.signed ++ l.suffix).getLast?, p c = false := by
  refine getLast?_append_stops (fun c hc => hdigit c (l.getLast?_signed c hc)) fun c hc => ?_
  exact hsuffix c (l.suffix_letters c (List.mem_of_getLast? hc))

/-- Trimming takes away the blanks and no parenthesis. -/
theorem trim_text : trim l.text = l.inside := by
  -- neither end of what is left is blank: it begins with a parenthesis, a sign or a digit, and ends
  -- with a parenthesis, a letter or a digit
  refine trim_append_append l.before_blank l.after_blank (head?_append_stops ?_ ?_)
    (getLast?_append_stops ?_ (getLast?_append_stops ?_ ?_))
  · intro c hc
    rw [List.eq_of_mem_replicate (List.mem_of_mem_head? hc)]
    rfl
  · rw [List.append_assoc]
    exact l.head?_signed_append (fun c hc => isSpace_of_isDigit hc) rfl _
  · intro c hc
    rw [List.eq_of_mem_replicate (List.mem_of_getLast? hc)]
    rfl
  · exact l.getLast?_signed_append_suffix (fun c hc => isSpace_of_isDigit hc)
      fun c hc => isSpace_of_isSuffix hc
  · intro c hc
    rw [List.eq_of_mem_replicate (List.mem_of_getLast? hc)]
    rfl

/-- What stands around the sign and the digits is dropped, and nothing else. -/
theorem bare_text : bare l.text = l.signed := by
  have hopening : l.inside.dropWhile (· = '(') =
      l.signed ++ l.suffix ++ List.replicate l.closing ')' := by
    refine dropWhile_append_of_stop (fun c hc => ?_) ?_
    · exact decide_eq_true (List.eq_of_mem_replicate hc)
    · rw [List.append_assoc]
      exact l.head?_signed_append (fun c hc => decide_eq_false (ne_of_class hc rfl)) rfl _
  have hclosing : dropEnd (· = ')') (l.signed ++ l.suffix ++ List.replicate l.closing ')') =
      l.signed ++ l.suffix := by
    refine reverse_dropWhile_append_of_stop ?_ fun c hc => ?_
    · exact l.getLast?_signed_append_suffix (fun c hc => decide_eq_false (ne_of_class hc rfl))
        fun c hc => decide_eq_false (ne_of_class hc rfl)
    · exact decide_eq_true (List.eq_of_mem_replicate hc)
  have hsuffix : dropEnd isSuffix (l.signed ++ l.suffix) = l.signed := by
    refine reverse_dropWhile_append_of_stop (fun c hc => ?_) l.suffix_letters
    exact isSuffix_of_isDigit (l.getLast?_signed c hc)
  rw [bare, l.trim_text, hopening, hclosing, hsuffix]

/-- The sign and the digits are read as the integer. -/
theorem ofText?_eq (h : (l.magnitude : Int) < int64Bound) : ofText? l.text = some l.value := by
  have hread := l.writes.readMagnitude?_eq h
  cases hnegative : l.negative with
  | true =>
    have hsigned : l.signed = '-' :: l.digits := if_pos hnegative
    have hvalue : l.value = -(l.magnitude : Int) := if_pos hnegative
    rw [ofText?, l.bare_text, hsigned, hvalue]
    show (readMagnitude? l.digits).map (fun n => -n) = _
    rw [hread]
    rfl
  | false =>
    have hplain : ¬ l.negative = true := by
      rw [hnegative]
      exact Bool.false_ne_true
    have hsigned : l.signed = l.digits := if_neg hplain
    have hvalue : l.value = (l.magnitude : Int) := if_neg hplain
    unfold ofText?
    rw [l.bare_text, hsigned, hvalue]
    split
    · next he =>
      -- a number does not start with a sign
      have hfirst := l.writes.ends.2.1 '-' (by rw [he]; rfl)
      exact absurd hfirst Bool.false_ne_true
    · exact hread

theorem natAbs_value : l.value.natAbs = l.magnitude := by
  rw [value]
  split
  · rw [Int.natAbs_neg, Int.natAbs_natCast]
  · exact Int.natAbs_natCast _

end Literal

/-- An integer whose magnitude fits into 63 bits is read from each of its literals. -/
theorem ofText?_literal {n : Int} (hn : n.natAbs < int64Bound) {l : Literal} (hl : l.value = n) :
    ofText? l.text = some n := by
  subst hl
  rw [l.natAbs_value] at hn
  exact l.ofText?_eq hn

/-- The smallest of these integers in hexadecimal digits of both cases, behind two zeros. -/
def smallest : Literal where
  before := ['\t', ' ']
  opening := 2
  negative := true
  magnitude := 9223372036854775807
  digits := "0X007fFFffFFffFFffFF".toList
  suffix := ['u', 'L', 'L']
  closing := 1
  after := ['\n']
  before_blank := by simp [isSpace]
  writes := @Magnitude.hexadecimal _ 'X' 2 _ (.inr rfl) (by decide)
  suffix_letters := by simp [isSuffix]
  after_blank := by simp [isSpace]

/-- The smallest of these integers with everything that may stand around it. -/
theorem ofText?_literal_smallest :
    (-9223372036854775807 : Int).natAbs < int64Bound ∧ smallest.value = -9223372036854775807 ∧
      ofText? "\t ((-0X007fFFffFFffFFffFFuLL)\n".toList = some (-9223372036854775807) :=
  ⟨by decide, rfl, ofText?_literal (l := smallest) (by decide) rfl⟩

end ApiStencil.Number
