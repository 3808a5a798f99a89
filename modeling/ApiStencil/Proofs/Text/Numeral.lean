/-
ApiStencil/Proofs/Text/Numeral.lean

Numbers and their digits.  Any run of decimal digits is read as the number that it writes
(`readNat?_ten`), and the digits that a number is written with are such a run
(`readNat?_toString`).

In any base up to sixteen, a number is read from its digits, with any zeros in front of them
(`readNat?_zeros_append`) and in either case (`readNat?_map_toLower`).  An integer that has 64 bits
is read in the same way (`readInt?_of_readNat?`).
-/
import ApiStencil.Text.Numeral

namespace ApiStencil.Text

/-- Decimal digits are read in the way that the library computes their number, with what was read
before. -/
theorem readDigits?_ten {s : List Char} (hd : ∀ x ∈ s, x.isDigit = true) (acc : Nat) :
    readDigits? 10 acc s = some (Nat.ofDigitChars 10 s acc) := by
  induction s generalizing acc with
  | nil => rfl
  | cons c s ih =>
    have hc := hd c List.mem_cons_self
    have hlt : c.toNat - 0x30 < 10 := by
      simp only [Char.isDigit, Bool.and_eq_true, decide_eq_true_eq] at hc
      have : c.toNat ≤ 57 := hc.2
      omega
    rw [readDigits?, digitValue?, if_pos hc, Nat.ofDigitChars_cons, Nat.mul_comm 10 acc]
    dsimp only
    rw [if_pos hlt, ih fun x hx => hd x (List.mem_cons_of_mem c hx)]
    rfl

theorem readNat?_ten {s : List Char} (hs : s ≠ []) (hd : ∀ x ∈ s, x.isDigit = true) :
    readNat? 10 s = some (Nat.ofDigitChars 10 s 0) := by
  rw [readNat?, if_neg hs, readDigits?_ten hd]

/-- A number is written with decimal digits, and they stand for it. -/
theorem digits_toString (n : Nat) : (toString n).toList ≠ [] ∧
    (∀ c ∈ (toString n).toList, c.isDigit = true) ∧
      Nat.ofDigitChars 10 (toString n).toList 0 = n := by
  rw [Nat.toString_eq_repr, Nat.toList_repr]
  exact ⟨Nat.toDigits_ne_nil, fun c => Nat.isDigit_of_mem_toDigits (by decide) (by decide),
    Nat.ofDigitChars_ten_toDigits⟩

theorem readNat?_toString (n : Nat) : readNat? 10 (toString n).toList = some n := by
  obtain ⟨hne, hdigits, hvalue⟩ := digits_toString n
  rw [readNat?_ten hne hdigits, hvalue]

/-! ### Any base -/

variable {base acc n : Nat} {c : Char} {s : List Char}

/-- Digits are read one part after the other, the second on from the number of the first. -/
theorem readDigits?_append (s t : List Char) :
    readDigits? base acc (s ++ t) = (readDigits? base acc s).bind (readDigits? base · t) := by
  induction s generalizing acc with
  | nil => rfl
  | cons c s ih =>
    rw [List.cons_append, readDigits?, readDigits?]
    split
    · split
      · exact ih
      · rfl
    · rfl

/-- What is read as a number has digits only. -/
theorem isSome_digitValue? (h : readDigits? base acc s = some n) :
    ∀ c ∈ s, (digitValue? c).isSome = true := by
  induction s generalizing acc with
  | nil => exact List.forall_mem_nil _
  | cons c s ih =>
    rw [readDigits?] at h
    cases hc : digitValue? c with
    | none =>
      rw [hc] at h
      cases h
    | some d =>
      rw [hc] at h
      dsimp only at h
      split at h
      · exact List.forall_mem_cons.2 ⟨Option.isSome_iff_exists.2 ⟨d, hc⟩, ih h⟩
      · cases h

theorem digitValue?_digitChar {d : Nat} (h : d < 16) : digitValue? d.digitChar = some d := by
  have hall : ∀ d < 16, digitValue? (Nat.digitChar d) = some d := by decide
  exact hall d h

theorem readDigits?_digitChar {d : Nat} (hbase : base ≤ 16) (hd : d < base) :
    readDigits? base acc [d.digitChar] = some (acc * base + d) := by
  rw [readDigits?, digitValue?_digitChar (Nat.lt_of_lt_of_le hd hbase)]
  exact if_pos hd

/-- The digits of a number are read as the number. -/
theorem readDigits?_toDigits (hone : 1 < base) (hbase : base ≤ 16) (n : Nat) :
    readDigits? base 0 (Nat.toDigits base n) = some n := by
  -- on the number without its last digit
  induction n using Nat.strongRecOn with
  | ind n ih =>
    -- a single digit, or the digits of the quotient and one more
    by_cases hn : n < base
    · rw [Nat.toDigits_of_lt_base hn, readDigits?_digitChar hbase hn, Nat.zero_mul, Nat.zero_add]
    · have hle : base ≤ n := Nat.le_of_not_lt hn
      have hless : n / base < n := Nat.div_lt_self (by omega) hone
      rw [Nat.toDigits_of_base_le hone hle, readDigits?_append, ih _ hless, Option.bind_some,
        readDigits?_digitChar hbase (Nat.mod_lt n (by omega)), Nat.mul_comm,
        Nat.div_add_mod]

/-- Zeros alone are read as zero. -/
theorem readDigits?_replicate_zero (hbase : 0 < base) (zeros : Nat) :
    readDigits? base 0 (List.replicate zeros '0') = some 0 := by
  induction zeros with
  | zero => rfl
  | succ zeros ih =>
    have hzero : digitValue? '0' = some 0 := rfl
    rw [List.replicate_succ, readDigits?, hzero]
    dsimp only
    rw [if_pos hbase, Nat.zero_mul, ih]

/-- In every base up to sixteen a number is read from its digits, with any zeros in front. -/
theorem readNat?_zeros_append (hone : 1 < base) (hbase : base ≤ 16) (zeros n : Nat) :
    readNat? base (List.replicate zeros '0' ++ Nat.toDigits base n) = some n := by
  have hne : List.replicate zeros '0' ++ Nat.toDigits base n ≠ [] :=
    List.append_ne_nil_of_right_ne_nil _ Nat.toDigits_ne_nil
  rw [readNat?, if_neg hne, readDigits?_append, readDigits?_replicate_zero (by omega),
    Option.bind_some, readDigits?_toDigits hone hbase]

/-- A digit has the same value in either case. -/
theorem digitValue?_toLower (c : Char) : digitValue? c.toLower = digitValue? c := by
  by_cases hc : c.val ≥ 'A'.val ∧ c.val ≤ 'Z'.val
  -- there are only 26 letters that change
  · have hall : ∀ k < 26, digitValue? (Char.ofNat (65 + k)).toLower =
        digitValue? (Char.ofNat (65 + k)) := by decide
    have hlow : 65 ≤ c.toNat := hc.1
    have hhigh : c.toNat ≤ 90 := hc.2
    have hchar := hall (c.toNat - 65) (by omega)
    rwa [Nat.add_sub_cancel' hlow, Char.ofNat_toNat] at hchar
  · have hsame : c.toLower = c := dif_neg hc
    rw [hsame]

/-- The case of digits makes no difference. -/
theorem readNat?_map_toLower (s : List Char) :
    readNat? base (s.map Char.toLower) = readNat? base s := by
  -- digit by digit, with what was read before
  have hdigits : ∀ acc, readDigits? base acc (s.map Char.toLower) = readDigits? base acc s := by
    induction s with
    | nil => exact fun _ => rfl
    | cons c s ih =>
      intro acc
      rw [List.map_cons, readDigits?, readDigits?, digitValue?_toLower]
      split
      · rw [ih]
      · rfl
  rw [readNat?, readNat?, hdigits]
  simp only [List.map_eq_nil_iff]

/-- A number that has 64 bits with its sign is the integer of the same digits. -/
theorem readInt?_of_readNat? (h : readNat? base s = some n) (hn : (n : Int) < int64Bound) :
    readInt? base s = some (n : Int) := by
  have hfits : fitsInt64 n = true := by
    have hbound : int64Bound = 9223372036854775808 := rfl
    rw [fitsInt64, Bool.and_eq_true, decide_eq_true_eq, decide_eq_true_eq]
    omega
  have hread : readDigits? base 0 s = some n := by
    rw [readNat?] at h
    split at h
    · cases h
    · exact h
  -- a sign is no digit
  have hdigit := isSome_digitValue? hread
  unfold readInt?
  split
  · exact absurd (hdigit '-' List.mem_cons_self) (by decide)
  · exact absurd (hdigit '+' List.mem_cons_self) (by decide)
  · rw [h]
    show (some (n : Int)).filter fitsInt64 = some (n : Int)
    rw [Option.filter_some, if_pos hfits]

end ApiStencil.Text
