/-
ApiStencil/Proofs/Declaration/Latexmath.lean

Lengths in mathematical notation as they are written (`Written`), with every blank and every
operand, and what reading makes of them.

Main statement: a length that is written as a division is read as that division, rounded up
exactly if it is written with the marks for that; no text is written in two ways, and every other
text is refused (`readLatexmath_exact`).

Reading tries the form with the marks first, and never tries the other one once it has found
them.  Nothing is lost: `\lceil{` may as well be a font command, but then the first closing brace
ends the operand, and what follows it is no division (`Division.source_ne_ceiling`).
-/
import ApiStencil.Declaration.Length
import ApiStencil.Proofs.Text.Run
import ApiStencil.Proofs.Text.Search

namespace ApiStencil.Declaration

open Text

/-! ### Lengths as they are written -/

/-- Any number of blanks, also none. -/
@[ext]
structure Blanks where
  text : List Char
  blank : ∀ c ∈ text, isLayout c = true

/-- An operand: a number, or a text in braces behind a font command. -/
inductive Operand where
  | number (digits : List Char) (hne : digits ≠ []) (hdigits : ∀ c ∈ digits, c.isDigit = true)
  | command (font inside : List Char) (hfont : font ≠ []) (hletters : ∀ c ∈ font, c.isAlpha = true)
    (hne : inside ≠ []) (hinside : '}' ∉ inside)

namespace Operand

/-- An operand as it is written. -/
def source : Operand → List Char
  | .number digits _ _ => digits
  | .command font inside _ _ _ _ => '\\' :: font ++ '{' :: inside ++ ['}']

/-- What an operand stands for: the number, or the text with an underscore in place of every
escaped one. -/
def value : Operand → List Char
  | .number digits _ _ => digits
  | .command _ inside _ _ _ _ => ['_'].intercalate (splitAll '\\' ['_'] inside)

end Operand

/-- Two operands and the division sign, with the blanks around them. -/
@[ext]
structure Division where
  first : Blanks
  numerator : Operand
  second : Blanks
  third : Blanks
  denominator : Operand
  last : Blanks

/-- A division as it is written. -/
def Division.source (d : Division) : List Char :=
  d.first.text ++ d.numerator.source ++ d.second.text ++ '\\' :: "over".toList ++ d.third.text ++
    d.denominator.source ++ d.last.text

/-- A division in braces between the marks for rounding up. -/
@[ext]
structure Ceiling where
  opening : Blanks
  division : Division
  closing : Blanks

/-- A division that is rounded up as it is written. -/
def Ceiling.source (c : Ceiling) : List Char :=
  '\\' :: "lceil".toList ++ c.opening.text ++ '{' :: c.division.source ++ '}' :: c.closing.text ++
    '\\' :: "rceil".toList

/-- A length in mathematical notation. -/
inductive Written where
  | plain (d : Division)
  | ceiling (before : Blanks) (c : Ceiling) (after : Blanks)

namespace Written

/-- What is written behind the mark. -/
def body : Written → List Char
  | .plain d => d.source
  | .ceiling before c after => before.text ++ c.source ++ after.text

/-- The mark in front of a length in mathematical notation. -/
def mark : List Char := "latexmath:[".toList

/-- The whole length as it is written in an attribute. -/
def text (w : Written) : List Char :=
  mark ++ w.body ++ [']']

/-- The division of a length, in either form. -/
def division : Written → Division
  | .plain d => d
  | .ceiling _ c _ => c.division

/-- Whether a length has the marks for rounding up. -/
def roundsUp : Written → Bool
  | .plain _ => false
  | .ceiling _ _ _ => true

end Written

/-- What a division stands for. -/
def Division.quotient (d : Division) (roundsUp : Bool) : Quotient :=
  ⟨d.numerator.value, d.denominator.value, roundsUp⟩

/-! ### Blanks -/

variable {r r' s v : List Char}

/-- What an operand, a sign or a brace begins with is not blank. -/
theorem isLayout_eq_false {c : Char} (h : c.isAlphanum = true ∨ c ∈ ['\\', '{', '}']) :
    isLayout c = false := by
  have hne : ∀ d : Char, d.isAlphanum = false → d ∉ ['\\', '{', '}'] → c ≠ d := by
    rintro d hd hmem rfl
    rcases h with h | h
    · exact Bool.false_ne_true (hd.symm.trans h)
    · exact hmem h
  simp [isLayout, hne ' ' rfl (by decide), hne '\t' rfl (by decide), hne '\r' rfl (by decide),
    hne '\n' rfl (by decide)]

namespace Blanks

/-- No blanks. -/
def none : Blanks :=
  ⟨[], List.forall_mem_nil _⟩

/-- Blanks and more of them. -/
def append (a b : Blanks) : Blanks :=
  ⟨a.text ++ b.text, fun c hc => (List.mem_append.1 hc).elim (a.blank c) (b.blank c)⟩

theorem skipBlanks_append (b : Blanks) (hr : ∀ x ∈ r.head?, isLayout x = false) :
    Quotient.skipBlanks (b.text ++ r) = r :=
  dropWhile_append_of_stop b.blank hr

theorem exists_append_skipBlanks (s : List Char) :
    ∃ b : Blanks, s = b.text ++ Quotient.skipBlanks s :=
  ⟨⟨s.takeWhile isLayout, fun _ hc => List.mem_takeWhile_imp hc⟩,
    List.takeWhile_append_dropWhile.symm⟩

theorem append_inj {b b' : Blanks} (hr : ∀ x ∈ r.head?, isLayout x = false)
    (hr' : ∀ x ∈ r'.head?, isLayout x = false) (h : b.text ++ r = b'.text ++ r') :
    b = b' ∧ r = r' := by
  obtain ⟨hb, hrest⟩ := run_unique b.blank b'.blank hr hr' h
  exact ⟨Blanks.ext hb, hrest⟩

/-- A run of another class ends in front of blanks. -/
theorem head?_append_stops (b : Blanks) {p : Char → Bool}
    (hp : ∀ c, isLayout c = true → p c = false) (hr : ∀ x ∈ r.head?, p x = false) :
    ∀ x ∈ (b.text ++ r).head?, p x = false :=
  Text.head?_append_stops (fun x hx => hp x (b.blank x (List.mem_of_mem_head? hx))) hr

theorem skipBlanks_skipBlanks (s : List Char) :
    Quotient.skipBlanks (Quotient.skipBlanks s) = Quotient.skipBlanks s :=
  none.skipBlanks_append (head?_dropWhile_stops s)

theorem isAlphanum_eq_false {c : Char} (h : isLayout c = true) : c.isAlphanum = false := by
  by_contra hc
  rw [isLayout_eq_false (.inl (eq_true_of_ne_false hc))] at h
  cases h

theorem isDigit_eq_false {c : Char} (h : isLayout c = true) : c.isDigit = false :=
  (Bool.or_eq_false_iff.1 (isAlphanum_eq_false h)).2

theorem isAlpha_eq_false {c : Char} (h : isLayout c = true) : c.isAlpha = false :=
  (Bool.or_eq_false_iff.1 (isAlphanum_eq_false h)).1

end Blanks

/-! ### Escaped underscores -/

/-- A character with which no separator begins stays in front of the first piece. -/
theorem intercalate_splitAll_cons {first c : Char} {more : List Char} (separator : List Char)
    (h : (first :: more).isPrefixOf? (c :: s) = none) :
    separator.intercalate (splitAll first more (c :: s)) =
      c :: separator.intercalate (splitAll first more s) := by
  have hfirst : splitFirst (first :: more) (c :: s) =
      (splitFirst (first :: more) s).map (Prod.map (c :: ·) id) := by
    rw [splitFirst, h]
    rfl
  -- the first separator of the longer text is that of the shorter one, one place later
  cases hs : splitFirst (first :: more) s with
  | none =>
    rw [hs] at hfirst
    rw [splitAll_of_eq_none hs, splitAll_of_eq_none hfirst, List.intercalate_singleton,
      List.intercalate_singleton]
  | some parts =>
    obtain ⟨before, after⟩ := parts
    replace hfirst : splitFirst (first :: more) (c :: s) = some (c :: before, after) := by
      rw [hfirst, hs]
      rfl
    obtain ⟨b, pieces, hrest⟩ := List.exists_cons_of_ne_nil (splitAll_ne_nil first more after)
    rw [splitAll_of_eq_some hs, splitAll_of_eq_some hfirst, hrest, List.intercalate_cons_cons,
      List.intercalate_cons_cons]
    rfl

/-- An escaped underscore is one wherever it is found from the left. -/
theorem unescape_eq_intercalate (s : List Char) :
    Quotient.unescape s = ['_'].intercalate (splitAll '\\' ['_'] s) := by
  -- by the recursion of the reader: at the end, at an escaped underscore, at any other character
  fun_induction Quotient.unescape s with
  | case1 =>
    rw [splitAll_of_eq_none rfl]
    rfl
  | case2 r ih =>
    obtain ⟨b, pieces, hrest⟩ := List.exists_cons_of_ne_nil (splitAll_ne_nil '\\' ['_'] r)
    have hfirst : splitFirst ('\\' :: ['_']) ('\\' :: '_' :: r) = some ([], r) :=
      splitFirst_append_self r
    rw [ih, splitAll_of_eq_some hfirst, hrest, List.intercalate_cons_cons]
    rfl
  | case3 c r hno ih =>
    have hprefix : ('\\' :: ['_']).isPrefixOf? (c :: r) = none := by
      rw [Option.eq_none_iff_forall_not_mem]
      intro after hafter
      obtain ⟨rfl, rfl⟩ := List.cons.inj (eq_append_of_isPrefixOf? hafter)
      exact hno after rfl rfl
    rw [ih, intercalate_splitAll_cons ['_'] hprefix]

/-! ### Operands -/

theorem ne_brace_of_not_mem (h : '}' ∉ s) : ∀ c ∈ s, decide (c ≠ '}') = true := fun _ hc =>
  decide_eq_true fun he => h (he ▸ hc)

/-- A text is cut in one way only at the first closing brace. -/
theorem brace_inj {inside inside' : List Char} (h : '}' ∉ inside) (h' : '}' ∉ inside')
    (he : inside ++ '}' :: r = inside' ++ '}' :: r') : inside = inside' ∧ r = r' := by
  obtain ⟨hinside, hrest⟩ := run_unique (ne_brace_of_not_mem h) (ne_brace_of_not_mem h')
    (head?_cons_stops (by rfl)) (head?_cons_stops (by rfl)) he
  exact ⟨hinside, (List.cons.inj hrest).2⟩

/-- A font command is cut in one way only in front of its brace. -/
theorem font_inj {font font' : List Char} (h : ∀ c ∈ font, c.isAlpha = true)
    (h' : ∀ c ∈ font', c.isAlpha = true) (hr : ∀ x ∈ r.head?, x.isAlpha = false)
    (he : font ++ '{' :: s = font' ++ r) : font = font' ∧ '{' :: s = r :=
  run_unique h h' (head?_cons_stops (by rfl)) hr he

namespace Operand

theorem source_command_append (font inside : List Char) (hfont hletters hne hinside) :
    (command font inside hfont hletters hne hinside).source ++ r =
      '\\' :: (font ++ '{' :: (inside ++ '}' :: r)) := by
  simp [source]

/-- An operand begins with a digit or with a backslash. -/
theorem exists_source_eq_cons (o : Operand) :
    ∃ c s, o.source = c :: s ∧ (c.isDigit = true ∨ c = '\\') := by
  cases o with
  | number digits hne hdigits =>
    obtain ⟨c, s, rfl⟩ := List.exists_cons_of_ne_nil hne
    exact ⟨c, s, rfl, .inl (hdigits c List.mem_cons_self)⟩
  | command font inside => exact ⟨'\\', font ++ '{' :: inside ++ ['}'], rfl, .inr rfl⟩

/-- No blank belongs to the operand behind it. -/
theorem head?_source_append (o : Operand) : ∀ x ∈ (o.source ++ r).head?, isLayout x = false := by
  obtain ⟨c, s, hsource, hc⟩ := o.exists_source_eq_cons
  rw [hsource]
  rintro x ⟨⟩
  refine isLayout_eq_false (hc.imp (fun hdigit => ?_) fun hmark => ?_)
  · exact Bool.or_eq_true_iff.2 (.inr hdigit)
  · exact hmark ▸ List.mem_cons_self

/-- A text is cut in one way only into an operand and what follows, as long as a number is not
followed by a digit. -/
theorem append_inj {o o' : Operand} (hr : ∀ x ∈ r.head?, x.isDigit = false)
    (hr' : ∀ x ∈ r'.head?, x.isDigit = false) (h : o.source ++ r = o'.source ++ r') :
    o = o' ∧ r = r' := by
  -- a number does not start with a backslash
  have hapart {digits : List Char} {s s' : List Char} (hne : digits ≠ [])
      (hdigits : ∀ c ∈ digits, c.isDigit = true) : digits ++ s ≠ '\\' :: s' := by
    obtain ⟨c, t, rfl⟩ := List.exists_cons_of_ne_nil hne
    exact fun he => ne_of_class (hdigits c List.mem_cons_self) rfl (List.cons.inj he).1
  cases o with
  | number digits hne hdigits =>
    cases o' with
    | number digits' hne' hdigits' =>
      obtain ⟨rfl, rfl⟩ := run_unique hdigits hdigits' hr hr' h
      exact ⟨rfl, rfl⟩
    | command font inside =>
      rw [source_command_append] at h
      exact absurd h (hapart hne hdigits)
  | command font inside hfont hletters hne hinside =>
    rw [source_command_append] at h
    cases o' with
    | number digits' hne' hdigits' => exact absurd h.symm (hapart hne' hdigits')
    | command font' inside' hfont' hletters' hne' hinside' =>
      rw [source_command_append] at h
      obtain ⟨rfl, hrest⟩ :=
        font_inj hletters hletters' (head?_cons_stops (by rfl)) (List.cons.inj h).2
      obtain ⟨rfl, rfl⟩ := brace_inj hinside hinside' (List.cons.inj hrest).2
      exact ⟨rfl, rfl⟩

/-! ### Reading an operand -/

/-- An operand is read as what it stands for, and the rest is left. -/
theorem readOperand_source (o : Operand) (hr : ∀ x ∈ r.head?, x.isDigit = false) :
    Quotient.readOperand (o.source ++ r) = some (o.value, r) := by
  cases o with
  | number digits hne hdigits =>
    obtain ⟨c, s, rfl⟩ := List.exists_cons_of_ne_nil hne
    -- a number does not begin with a backslash, and it ends where the digits do
    have hc : c ≠ '\\' := ne_of_class (hdigits c List.mem_cons_self) rfl
    have htake := takeWhile_append_of_stop hdigits hr
    have hdrop := dropWhile_append_of_stop hdigits hr
    rw [source, Quotient.readOperand]
    · rw [htake, hdrop]
      rfl
    · intro r' he
      exact hc (List.cons.inj he).1
  | command font inside hfont hletters hne hinside =>
    have hbrace : ∀ x ∈ ('{' :: (inside ++ '}' :: r)).head?, x.isAlpha = false :=
      head?_cons_stops (by rfl)
    have hinside' := ne_brace_of_not_mem hinside
    have hclosing : ∀ x ∈ ('}' :: r).head?, decide (x ≠ '}') = false := head?_cons_stops (by rfl)
    rw [source_command_append]
    obtain ⟨c, font, rfl⟩ := List.exists_cons_of_ne_nil hfont
    obtain ⟨d, inside, rfl⟩ := List.exists_cons_of_ne_nil hne
    show Quotient.readFontCommand _ = _
    rw [Quotient.readFontCommand, takeWhile_append_of_stop hletters hbrace,
      dropWhile_append_of_stop hletters hbrace]
    simp only [takeWhile_append_of_stop hinside' hclosing,
      dropWhile_append_of_stop hinside' hclosing, unescape_eq_intercalate, value]

/-- What is read as a font command is written as one. -/
theorem exists_of_readFontCommand (h : Quotient.readFontCommand s = some (v, r)) :
    ∃ o : Operand, '\\' :: s = o.source ++ r ∧ o.value = v := by
  rw [Quotient.readFontCommand] at h
  split at h
  · next c font rest hfont hrest =>
    split at h
    · next d inside e rest' hinside hrest' =>
      obtain ⟨rfl, rfl⟩ := Prod.mk.inj (Option.some.inj h)
      have hletters : ∀ x ∈ c :: font, x.isAlpha = true := fun x hx =>
        List.mem_takeWhile_imp (hfont ▸ hx)
      have hnot : '}' ∉ d :: inside := fun hm =>
        of_decide_eq_true (List.mem_takeWhile_imp (p := fun x => decide (x ≠ '}')) (hinside ▸ hm))
          rfl
      have he : e = '}' := by
        have := head?_dropWhile_stops (p := fun x => decide (x ≠ '}')) rest e (by rw [hrest']; rfl)
        simpa using this
      refine ⟨.command (c :: font) (d :: inside) (List.cons_ne_nil _ _) hletters
        (List.cons_ne_nil _ _) hnot, ?_, (unescape_eq_intercalate _).symm⟩
      rw [← List.takeWhile_append_dropWhile (p := Char.isAlpha) (l := s), hfont, hrest,
        ← List.takeWhile_append_dropWhile (p := fun x => decide (x ≠ '}')) (l := rest), hinside,
        hrest', he, source_command_append]
    · cases h
  · cases h

/-- What is read as an operand is written as one. -/
theorem exists_of_readOperand (h : Quotient.readOperand s = some (v, r)) :
    ∃ o : Operand, s = o.source ++ r ∧ o.value = v := by
  rw [Quotient.readOperand.eq_def] at h
  split at h
  · exact exists_of_readFontCommand h
  · split at h
    · cases h
    · next hne =>
      obtain ⟨rfl, rfl⟩ := Prod.mk.inj (Option.some.inj h)
      exact ⟨.number (s.takeWhile Char.isDigit) hne fun c hc => List.mem_takeWhile_imp hc,
        List.takeWhile_append_dropWhile.symm, rfl⟩

end Operand

/-! ### Divisions -/

namespace Division

theorem source_append (d : Division) : d.source ++ r =
    d.first.text ++ (d.numerator.source ++ (d.second.text ++ '\\' :: ("over".toList ++
      (d.third.text ++ (d.denominator.source ++ (d.last.text ++ r)))))) := by
  simp only [source, List.append_assoc, List.cons_append]

section

variable {d d' : Division} (hb : ∀ x ∈ r.head?, isLayout x = false)
  (hd : ∀ x ∈ r.head?, x.isDigit = false)

include hb hd

/-- From the division sign on, a division is cut in one way only. -/
theorem sign_inj (hb' : ∀ x ∈ r'.head?, isLayout x = false)
    (hd' : ∀ x ∈ r'.head?, x.isDigit = false)
    (h : d.second.text ++ '\\' :: ("over".toList ++
        (d.third.text ++ (d.denominator.source ++ (d.last.text ++ r)))) =
      d'.second.text ++ '\\' :: ("over".toList ++
        (d'.third.text ++ (d'.denominator.source ++ (d'.last.text ++ r'))))) :
    d.second = d'.second ∧ d.third = d'.third ∧ d.denominator = d'.denominator ∧
      d.last = d'.last ∧ r = r' := by
  obtain ⟨hsecond, h⟩ := Blanks.append_inj (head?_cons_stops (by rfl)) (head?_cons_stops (by rfl)) h
  obtain ⟨hthird, h⟩ := Blanks.append_inj (d.denominator.head?_source_append)
    (d'.denominator.head?_source_append) (List.append_cancel_left (List.cons.inj h).2)
  obtain ⟨hdenominator, h⟩ := Operand.append_inj
    (d.last.head?_append_stops (fun _ => Blanks.isDigit_eq_false) hd)
    (d'.last.head?_append_stops (fun _ => Blanks.isDigit_eq_false) hd') h
  obtain ⟨hlast, h⟩ := Blanks.append_inj hb hb' h
  exact ⟨hsecond, hthird, hdenominator, hlast, h⟩

/-- A text is cut in one way only into a division and what follows, unless a blank or a digit comes
next. -/
theorem append_inj (hb' : ∀ x ∈ r'.head?, isLayout x = false)
    (hd' : ∀ x ∈ r'.head?, x.isDigit = false) (h : d.source ++ r = d'.source ++ r') :
    d = d' ∧ r = r' := by
  rw [source_append, source_append] at h
  obtain ⟨hfirst, h⟩ := Blanks.append_inj d.numerator.head?_source_append
    d'.numerator.head?_source_append h
  obtain ⟨hnumerator, h⟩ := Operand.append_inj
    (d.second.head?_append_stops (fun _ => Blanks.isDigit_eq_false) (head?_cons_stops (by rfl)))
    (d'.second.head?_append_stops (fun _ => Blanks.isDigit_eq_false) (head?_cons_stops (by rfl))) h
  obtain ⟨hsecond, hthird, hdenominator, hlast, h⟩ := sign_inj hb hd hb' hd' h
  exact ⟨Division.ext hfirst hnumerator hsecond hthird hdenominator hlast, h⟩

/-- A division is read as its quotient, and the rest is left. -/
theorem readOperands_source (roundsUp : Bool) :
    Quotient.readOperands roundsUp (d.source ++ r) = some (d.quotient roundsUp, r) := by
  have hsign : ∀ s, "\\over".toList.isPrefixOf? ('\\' :: ("over".toList ++ s)) = some s :=
    isPrefixOf?_append _
  have hsecond : Quotient.skipBlanks (d.second.text ++ '\\' :: ("over".toList ++ (d.third.text ++
      (d.denominator.source ++ (d.last.text ++ r))))) = _ :=
    d.second.skipBlanks_append (head?_cons_stops (by rfl))
  rw [source_append, Quotient.readOperands,
    d.first.skipBlanks_append d.numerator.head?_source_append, d.numerator.readOperand_source
      (d.second.head?_append_stops (fun _ => Blanks.isDigit_eq_false) (head?_cons_stops (by rfl)))]
  simp only [Option.bind_eq_bind, Option.bind_some, hsecond, hsign,
    d.third.skipBlanks_append d.denominator.head?_source_append,
    d.denominator.readOperand_source
      (d.last.head?_append_stops (fun _ => Blanks.isDigit_eq_false) hd),
    d.last.skipBlanks_append hb]
  rfl

end

theorem readOperands_skipBlanks (roundsUp : Bool) (s : List Char) :
    Quotient.readOperands roundsUp (Quotient.skipBlanks s) = Quotient.readOperands roundsUp s := by
  rw [Quotient.readOperands, Blanks.skipBlanks_skipBlanks, Quotient.readOperands]

/-- Blanks around a division belong to it. -/
theorem exists_widened (d : Division) (before after : Blanks) :
    ∃ d' : Division, d'.source = before.text ++ (d.source ++ after.text) := by
  refine ⟨{ d with first := before.append d.first, last := d.last.append after }, ?_⟩
  simp only [source, Blanks.append, List.append_assoc]

/-- What is read as a division is written as one. -/
theorem exists_of_readOperands {roundsUp : Bool} {q : Quotient}
    (h : Quotient.readOperands roundsUp s = some (q, r)) :
    ∃ d : Division, s = d.source ++ r ∧ d.quotient roundsUp = q := by
  rw [Quotient.readOperands] at h
  obtain ⟨⟨x, r₁⟩, hnumerator, h⟩ := Option.bind_eq_some_iff.1 h
  obtain ⟨r₂, hsign, h⟩ := Option.bind_eq_some_iff.1 h
  obtain ⟨⟨y, r₃⟩, hdenominator, h⟩ := Option.bind_eq_some_iff.1 h
  obtain ⟨rfl, rfl⟩ := Prod.mk.inj (Option.some.inj h)
  obtain ⟨first, hfirst⟩ := Blanks.exists_append_skipBlanks s
  obtain ⟨second, hsecond⟩ := Blanks.exists_append_skipBlanks r₁
  obtain ⟨third, hthird⟩ := Blanks.exists_append_skipBlanks r₂
  obtain ⟨last, hlast⟩ := Blanks.exists_append_skipBlanks r₃
  obtain ⟨numerator, hx, rfl⟩ := Operand.exists_of_readOperand hnumerator
  obtain ⟨denominator, hy, rfl⟩ := Operand.exists_of_readOperand hdenominator
  refine ⟨⟨first, numerator, second, third, denominator, last⟩, ?_, rfl⟩
  rw [source]
  have hover : '\\' :: "over".toList ++ r₂ = Quotient.skipBlanks r₁ :=
    (eq_append_of_isPrefixOf? hsign).symm
  simp only [List.append_assoc]
  rw [← hlast, ← hy, ← hthird, hover, ← hsecond, ← hx, ← hfirst]

/-! ### The two forms -/

/-- What stands behind the first closing brace of a braced division: nothing of it, the blanks
behind the second operand, or all from the division sign on. -/
theorem exists_brace (d : Division) (s : List Char) :
    ∃ inside rest, '}' ∉ inside ∧ d.source ++ '}' :: s = inside ++ '}' :: rest ∧
      (rest = s ∨ rest = d.last.text ++ '}' :: s ∨
        rest = d.second.text ++ '\\' :: ("over".toList ++
          (d.third.text ++ (d.denominator.source ++ (d.last.text ++ '}' :: s))))) := by
  have hblanks (b : Blanks) : '}' ∉ b.text := not_mem_of_class b.blank rfl
  obtain ⟨first, numerator, second, third, denominator, last⟩ := d
  -- the first closing brace is in the first operand that is a font command, or behind both
  cases numerator with
  | command font inside hfont hletters hne hinside =>
    have hfont : '}' ∉ font := not_mem_of_class hletters rfl
    refine ⟨first.text ++ '\\' :: (font ++ '{' :: inside), _, ?_, ?_, .inr (.inr rfl)⟩
    · simp [hblanks, hfont, hinside]
    · rw [source_append, Operand.source_command_append]
      simp
  | number digits hne hdigits =>
    have hdigits' : '}' ∉ digits := not_mem_of_class hdigits rfl
    cases denominator with
    | command font inside hfont hletters hne hinside =>
      have hfont : '}' ∉ font := not_mem_of_class hletters rfl
      refine ⟨first.text ++ digits ++ second.text ++ '\\' :: "over".toList ++ third.text ++
        '\\' :: (font ++ '{' :: inside), _, ?_, ?_, .inr (.inl rfl)⟩
      · simp [hblanks, hdigits', hfont, hinside]
      · simp [source, Operand.source]
    | number digits₂ hne₂ hdigits₂ =>
      have hdigits₂' : '}' ∉ digits₂ := not_mem_of_class hdigits₂ rfl
      refine ⟨source _, s, ?_, rfl, .inl rfl⟩
      simp [source, Operand.source, hblanks, hdigits', hdigits₂']

end Division

theorem Ceiling.source_append (c : Ceiling) : c.source ++ r =
    '\\' :: ("lceil".toList ++ (c.opening.text ++ '{' :: (c.division.source ++ '}' ::
      (c.closing.text ++ '\\' :: ("rceil".toList ++ r))))) := by
  simp only [source, List.append_assoc, List.cons_append]

/-- A division is not written with the marks for rounding up, whatever may follow these.  Its first
operand would be the font command `\lceil` up to the first closing brace. -/
theorem Division.source_ne_ceiling (d : Division) (b : Blanks) (c : Ceiling) (r : List Char) :
    d.source ≠ b.text ++ (c.source ++ r) := by
  intro h
  rw [← List.append_nil d.source, source_append, c.source_append] at h
  obtain ⟨-, h⟩ :=
    Blanks.append_inj d.numerator.head?_source_append (head?_cons_stops (by rfl)) h
  cases hnumerator : d.numerator with
  | number digits hne hdigits =>
    obtain ⟨x, digits, rfl⟩ := List.exists_cons_of_ne_nil hne
    rw [hnumerator] at h
    exact ne_of_class (hdigits x List.mem_cons_self) rfl (List.cons.inj h).1
  | command font inside hfont hletters hne hinside =>
    rw [hnumerator, Operand.source_command_append] at h
    obtain ⟨-, h⟩ := font_inj hletters (List.all_eq_true.1 rfl)
      (c.opening.head?_append_stops (fun _ => Blanks.isAlpha_eq_false) (head?_cons_stops (by rfl)))
      (List.cons.inj h).2
    obtain ⟨-, h⟩ := Blanks.append_inj (b := .none) (head?_cons_stops (by rfl))
      (head?_cons_stops (by rfl)) h
    obtain ⟨inside', rest, hinside', hbrace, hrest⟩ := c.division.exists_brace
      (c.closing.text ++ '\\' :: ("rceil".toList ++ r))
    obtain ⟨-, h⟩ := brace_inj hinside hinside' ((List.cons.inj h).2.trans hbrace)
    rcases hrest with rfl | rfl | rfl
    · -- the sign of the division would be the mark at the end
      obtain ⟨-, h⟩ := Blanks.append_inj (head?_cons_stops (by rfl)) (head?_cons_stops (by rfl)) h
      cases (List.cons.inj (List.cons.inj h).2).1
    · -- the sign of the division would be the closing brace
      obtain ⟨-, h⟩ := Blanks.append_inj (head?_cons_stops (by rfl)) (head?_cons_stops (by rfl)) h
      cases (List.cons.inj h).1
    · -- the closing brace would be behind the end of the division
      obtain ⟨-, -, -, -, h⟩ := sign_inj head?_nil_stops head?_nil_stops (head?_cons_stops (by rfl))
        (head?_cons_stops (by rfl)) h
      cases h

/-! ### Reading a length -/

namespace Ceiling

/-- A text is cut in one way only behind the mark that closes a division. -/
theorem append_inj {c c' : Ceiling} (h : c.source ++ r = c'.source ++ r') : c = c' ∧ r = r' := by
  rw [source_append, source_append] at h
  obtain ⟨hopening, h⟩ := Blanks.append_inj (head?_cons_stops (by rfl)) (head?_cons_stops (by rfl))
    (List.append_cancel_left (List.cons.inj h).2)
  obtain ⟨hdivision, h⟩ := Division.append_inj (head?_cons_stops (by rfl))
    (head?_cons_stops (by rfl)) (head?_cons_stops (by rfl)) (head?_cons_stops (by rfl))
    (List.cons.inj h).2
  obtain ⟨hclosing, h⟩ := Blanks.append_inj (head?_cons_stops (by rfl)) (head?_cons_stops (by rfl))
    (List.cons.inj h).2
  exact ⟨Ceiling.ext hopening hdivision hclosing, List.append_cancel_left (List.cons.inj h).2⟩

theorem head?_source_append (c : Ceiling) :
    ∀ x ∈ (c.source ++ r).head?, isLayout x = false := by
  rw [source_append]
  exact head?_cons_stops (by rfl)

/-- A division with the marks for rounding up is read as its quotient, rounded up. -/
theorem readCeiling_source (c : Ceiling) :
    Quotient.readCeiling (c.source ++ r) = some (c.division.quotient true, r) := by
  have hopening : ∀ s, "\\lceil".toList.isPrefixOf? ('\\' :: ("lceil".toList ++ s)) = some s :=
    isPrefixOf?_append _
  have hclosing : ∀ s, "\\rceil".toList.isPrefixOf? ('\\' :: ("rceil".toList ++ s)) = some s :=
    isPrefixOf?_append _
  have hbrace : ∀ (x : Char) (s : List Char), [x].isPrefixOf? (x :: s) = some s :=
    fun x => isPrefixOf?_append [x]
  have hlast : Quotient.skipBlanks (c.closing.text ++ '\\' :: ("rceil".toList ++ r)) = _ :=
    c.closing.skipBlanks_append (head?_cons_stops (by rfl))
  rw [source_append, Quotient.readCeiling]
  simp only [Option.bind_eq_bind, hopening, Option.bind_some,
    c.opening.skipBlanks_append (head?_cons_stops (c := '{') (by rfl)), hbrace,
    c.division.readOperands_source (head?_cons_stops (c := '}') (by rfl))
      (head?_cons_stops (by rfl)), hlast, hclosing]
  rfl

/-- What is read with the marks for rounding up is written with them. -/
theorem exists_of_readCeiling {q : Quotient} (h : Quotient.readCeiling s = some (q, r)) :
    ∃ c : Ceiling, s = c.source ++ r ∧ c.division.quotient true = q := by
  rw [Quotient.readCeiling] at h
  obtain ⟨r₁, hopening, h⟩ := Option.bind_eq_some_iff.1 h
  obtain ⟨r₂, hbrace, h⟩ := Option.bind_eq_some_iff.1 h
  obtain ⟨⟨q, r₃⟩, hdivision, h⟩ := Option.bind_eq_some_iff.1 h
  obtain ⟨r₄, hbrace', h⟩ := Option.bind_eq_some_iff.1 h
  obtain ⟨r₅, hclosing, h⟩ := Option.bind_eq_some_iff.1 h
  obtain ⟨rfl, rfl⟩ := Prod.mk.inj (Option.some.inj h)
  obtain ⟨opening, hblanks⟩ := Blanks.exists_append_skipBlanks r₁
  obtain ⟨closing, hblanks'⟩ := Blanks.exists_append_skipBlanks r₄
  obtain ⟨d, hd, rfl⟩ := Division.exists_of_readOperands hdivision
  have hlceil : '\\' :: ("lceil".toList ++ r₁) = s := (eq_append_of_isPrefixOf? hopening).symm
  have hrceil : '\\' :: ("rceil".toList ++ r₅) = Quotient.skipBlanks r₄ :=
    (eq_append_of_isPrefixOf? hclosing).symm
  refine ⟨⟨opening, d, closing⟩, ?_, rfl⟩
  rw [source_append, hrceil, ← hblanks', ← List.singleton_append (x := '}'),
    ← eq_append_of_isPrefixOf? hbrace', ← hd, ← List.singleton_append (x := '{'),
    ← eq_append_of_isPrefixOf? hbrace, ← hblanks, hlceil]

end Ceiling

namespace Written

/-- What a length stands for. -/
def quotient (w : Written) : Quotient :=
  w.division.quotient w.roundsUp

/-- The mark and the bracket are taken away. -/
theorem body?_text (w : Written) : Quotient.body? w.text = some w.body := by
  have hmark : mark.isPrefixOf? w.text = some (w.body ++ [']']) :=
    List.isPrefixOf?_eq_some_iff_append_eq.2 (List.append_assoc _ _ _).symm
  have hend : [']'].isSuffixOf? (w.body ++ [']']) = some w.body :=
    List.isSuffixOf?_eq_some_iff_append_eq.2 rfl
  exact Option.bind_eq_some_iff.2 ⟨_, hmark, hend⟩

/-- Nothing else is taken away. -/
theorem exists_of_body? {text body : List Char} (h : Quotient.body? text = some body) :
    text = mark ++ body ++ [']'] := by
  obtain ⟨r, hmark, hend⟩ := Option.bind_eq_some_iff.1 h
  rw [eq_append_of_isPrefixOf? hmark, ← List.isSuffixOf?_eq_some_iff_append_eq.1 hend,
    List.append_assoc]
  rfl

/-- The marks for rounding up are found exactly in a text that is written with them, so the form
that is tried first takes nothing away from the other one. -/
theorem read_body (w : Written) :
    ∃ rest, Quotient.read (Quotient.skipBlanks w.body) = some (w.quotient, rest) ∧
      Quotient.skipBlanks rest = [] := by
  cases w with
  | plain d =>
    have hnone : Quotient.readCeiling (Quotient.skipBlanks d.source) = none := by
      rw [Option.eq_none_iff_forall_ne_some]
      rintro ⟨q, r⟩ hread
      obtain ⟨b, hb⟩ := Blanks.exists_append_skipBlanks d.source
      obtain ⟨c, hc, -⟩ := Ceiling.exists_of_readCeiling hread
      exact d.source_ne_ceiling b c r (hc ▸ hb)
    have hread : Quotient.readOperands false (Quotient.skipBlanks d.source) =
        some (d.quotient false, []) := by
      have hsource := d.readOperands_source head?_nil_stops head?_nil_stops false
      rwa [List.append_nil, ← Division.readOperands_skipBlanks] at hsource
    refine ⟨[], ?_, rfl⟩
    rw [body, Quotient.read, hnone]
    exact hread
  | ceiling before c after =>
    have hskip : Quotient.skipBlanks (before.text ++ (c.source ++ after.text)) =
        c.source ++ after.text :=
      before.skipBlanks_append c.head?_source_append
    refine ⟨after.text, ?_, ?_⟩
    · rw [body, List.append_assoc, hskip, Quotient.read, c.readCeiling_source]
      rfl
    · have hafter := after.skipBlanks_append head?_nil_stops
      rwa [List.append_nil] at hafter

/-- A length as it is written is read as what it stands for. -/
theorem ofText?_text (w : Written) : Quotient.ofText? w.text = some w.quotient := by
  obtain ⟨rest, hread, hrest⟩ := w.read_body
  rw [Quotient.ofText?, w.body?_text]
  show (Quotient.read (Quotient.skipBlanks w.body)).bind _ = _
  rw [hread]
  exact if_pos hrest

/-- What is read is written as one of the two forms, with all of the text. -/
theorem exists_of_ofText? {text : List Char} {q : Quotient}
    (h : Quotient.ofText? text = some q) : ∃ w : Written, w.text = text := by
  obtain ⟨body, hbody, h⟩ := Option.bind_eq_some_iff.1 h
  obtain ⟨⟨q, rest⟩, hread, h⟩ := Option.bind_eq_some_iff.1 h
  obtain ⟨before, hbefore⟩ := Blanks.exists_append_skipBlanks body
  obtain ⟨after, hafter⟩ := Blanks.exists_append_skipBlanks rest
  -- nothing but blanks may be left
  have hrest : Quotient.skipBlanks rest = [] := by
    by_contra hne
    cases h.symm.trans (if_neg hne)
  rw [hrest, List.append_nil] at hafter
  have hbody' : ∃ w : Written, w.body = body := by
    rw [Quotient.read] at hread
    cases hceiling : Quotient.readCeiling (Quotient.skipBlanks body) with
    | some found =>
      rw [hceiling] at hread
      obtain rfl := Option.some.inj hread
      obtain ⟨c, hc, -⟩ := Ceiling.exists_of_readCeiling hceiling
      refine ⟨.ceiling before c after, ?_⟩
      rw [Written.body, List.append_assoc, ← hafter, ← hc, ← hbefore]
    | none =>
      rw [hceiling] at hread
      obtain ⟨d, hd, -⟩ := Division.exists_of_readOperands hread
      obtain ⟨d', hd'⟩ := d.exists_widened before after
      refine ⟨.plain d', ?_⟩
      rw [Written.body, hd', ← hafter, ← hd, ← hbefore]
  obtain ⟨w, rfl⟩ := hbody'
  exact ⟨w, (exists_of_body? hbody).symm⟩

/-- No text is written in two ways. -/
theorem text_injective : Function.Injective text := by
  intro w w' h
  have hbody : w.body = w'.body := List.append_cancel_left (List.append_cancel_right h)
  cases w with
  | plain d =>
    cases w' with
    | plain d' =>
      have hd : d.source ++ [] = d'.source ++ [] := congrArg (· ++ []) hbody
      obtain ⟨rfl, -⟩ := Division.append_inj head?_nil_stops head?_nil_stops head?_nil_stops
        head?_nil_stops hd
      rfl
    | ceiling before c after =>
      rw [body, body, List.append_assoc] at hbody
      exact absurd hbody (d.source_ne_ceiling before c after.text)
  | ceiling before c after =>
    cases w' with
    | plain d =>
      rw [body, body, List.append_assoc] at hbody
      exact absurd hbody.symm (d.source_ne_ceiling before c after.text)
    | ceiling before' c' after' =>
      rw [body, body, List.append_assoc, List.append_assoc] at hbody
      obtain ⟨rfl, hrest⟩ := Blanks.append_inj c.head?_source_append c'.head?_source_append hbody
      obtain ⟨rfl, hafter⟩ := Ceiling.append_inj hrest
      rw [Blanks.ext hafter]

end Written

/-! ### The expression for a length -/

/-- The mark for rounding up can be told from what is divided. -/
theorem Quotient.render_ne (x y : List Char) :
    x ++ '/' :: y ++ " + 1".toList ≠ x ++ '/' :: y := by
  intro h
  have hlength := congrArg List.length h
  rw [List.length_append] at hlength
  have hmark : " + 1".toList.length = 4 := rfl
  omega

theorem readLatexmath_text (w : Written) : readLatexmath w.text = .ok w.quotient.render := by
  rw [readLatexmath, w.ofText?_text]

/-- A length has the expression `x/y + 1` exactly if it is written with the marks for rounding up,
and `x/y` exactly if it is written without them, where `x` and `y` are what its operands stand for.
A text is written in one way only, and one that is not written so at all is refused. -/
theorem readLatexmath_exact :
    (∀ w : Written,
      (readLatexmath w.text = .ok (w.division.numerator.value ++ '/' ::
          w.division.denominator.value ++ " + 1".toList) ↔
        ∃ before c after, w = .ceiling before c after) ∧
      (readLatexmath w.text = .ok (w.division.numerator.value ++ '/' ::
          w.division.denominator.value) ↔
        ∃ d, w = .plain d)) ∧
    Function.Injective Written.text ∧
    ∀ text, readLatexmath text = .error (.unsupportedLatexmath (String.ofList text)) ↔
      ∀ w : Written, w.text ≠ text := by
  refine ⟨fun w => ?_, Written.text_injective, fun text => ⟨?_, fun hnone => ?_⟩⟩
  · rw [readLatexmath_text, Except.ok.injEq, Except.ok.injEq]
    cases w with
    | plain d =>
      have hrender : (Written.plain d).quotient.render =
          d.numerator.value ++ '/' :: d.denominator.value := List.append_nil _
      rw [hrender]
      exact ⟨iff_of_false (Quotient.render_ne _ _).symm nofun, iff_of_true rfl ⟨d, rfl⟩⟩
    | ceiling before c after =>
      have hrender : (Written.ceiling before c after).quotient.render =
          c.division.numerator.value ++ '/' :: c.division.denominator.value ++ " + 1".toList := rfl
      rw [hrender]
      exact ⟨iff_of_true rfl ⟨before, c, after, rfl⟩,
        iff_of_false (Quotient.render_ne _ _) nofun⟩
  · rintro herror w rfl
    rw [readLatexmath_text] at herror
    cases herror
  · rw [readLatexmath]
    cases hread : Quotient.ofText? text with
    | none => rfl
    | some q =>
      obtain ⟨w, hw⟩ := Written.exists_of_ofText? hread
      exact absurd hw (hnone w)

/-- A font command called `lceil` is no mark: behind its operand the division goes on. -/
example : readLatexmath "latexmath:[\\lceil\x7ba\\_b\x7d \\over 4]".toList =
    .ok "a_b/4".toList := by
  decide +kernel

end ApiStencil.Declaration
