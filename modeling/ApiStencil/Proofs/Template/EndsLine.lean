/-
ApiStencil/Proofs/Template/EndsLine.lean

Readers on a text that goes on.  No word, gap or keyword goes over a line break, so
behind a text that ends its line anything may follow and the readers find the same
keywords and the same directives in it (`Keyword.find_append_of_eq_some`,
`Directive.read_append`).

There is one exception, which `Directive.read_append` takes as a hypothesis: the
filter of a loop that is opened and never closed (`UnclosedFilter`) is no filter,
until a text follows that closes it.
-/
import ApiStencil.Proofs.Template.Mark

namespace ApiStencil.Template

open Text Segment

/-- The text ends with a line break. -/
def EndsLine (s : List Char) : Prop :=
  s.getLast? = some '\n'

instance : DecidablePred EndsLine := fun s =>
  inferInstanceAs (Decidable (s.getLast? = some '\n'))

/-- The text starts with the opening of a filter that is never closed. -/
def UnclosedFilter (s : List Char) : Prop :=
  ∃ gap gap' body, (∀ c ∈ gap ++ gap', isGap c = true) ∧
    s = gap ++ "where".toList ++ gap' ++ '(' :: body ∧ readCondition ⟨0, none⟩ body = none

/-! ### The opening of a filter -/

/-- What stands after the opening of a filter, if the text starts with one. -/
def filterBody? (s : List Char) : Option (List Char) :=
  match "where".toList.isPrefixOf? (s.dropWhile isGap) with
  | some r =>
    match r.dropWhile isGap with
    | '(' :: body => some body
    | _ => none
  | none => none

/-- A filter is read by its opening and then up to its closing parenthesis. -/
theorem readFilter_eq_bind (s : List Char) :
    readFilter s = (filterBody? s).bind (readCondition ⟨0, none⟩) := by
  unfold readFilter filterBody?
  cases "where".toList.isPrefixOf? (s.dropWhile isGap) with
  | none => rfl
  | some r =>
    dsimp only
    cases r.dropWhile isGap with
    | nil => rfl
    | cons c body =>
      by_cases hc : c = '('
      · rw [hc]
        rfl
      · simp [readParenthesized, hc]

/-- The opening of a filter is found where it is written, with any gaps in it. -/
theorem filterBody?_eq_some_iff {s body : List Char} :
    filterBody? s = some body ↔ ∃ gap gap', (∀ c ∈ gap ++ gap', isGap c = true) ∧
      s = gap ++ "where".toList ++ gap' ++ '(' :: body := by
  constructor
  · intro h
    unfold filterBody? at h
    split at h
    · next r hr =>
      split at h
      · next body' hb =>
        cases h
        refine ⟨s.takeWhile isGap, r.takeWhile isGap, ?_, ?_⟩
        · intro c hc
          rcases List.mem_append.1 hc with hc | hc
          · exact List.mem_takeWhile_imp hc
          · exact List.mem_takeWhile_imp hc
        · rw [← hb, List.append_assoc, List.append_assoc, List.takeWhile_append_dropWhile,
            ← eq_append_of_isPrefixOf? hr, List.takeWhile_append_dropWhile]
      · cases h
    · cases h
  · rintro ⟨gap, gap', hgap, rfl⟩
    have h1 : ∀ c ∈ gap, isGap c = true := fun c hc => hgap c (List.mem_append_left _ hc)
    have h2 : ∀ c ∈ gap', isGap c = true := fun c hc => hgap c (List.mem_append_right _ hc)
    have hword : (gap ++ "where".toList ++ gap' ++ '(' :: body).dropWhile isGap =
        "where".toList ++ (gap' ++ '(' :: body) := by
      rw [List.append_assoc, List.append_assoc, List.dropWhile_append_of_pos h1]
      rfl
    have hopen : (gap' ++ '(' :: body).dropWhile isGap = '(' :: body := by
      rw [List.dropWhile_append_of_pos h2]
      rfl
    unfold filterBody?
    rw [hword]
    show (match (gap' ++ '(' :: body).dropWhile isGap with
      | '(' :: body => some body
      | _ => none) = some body
    rw [hopen]
    rfl

/-- A filter is not closed if its opening is found and nothing is read behind it. -/
theorem unclosedFilter_iff {s : List Char} :
    UnclosedFilter s ↔ ∃ body, filterBody? s = some body ∧ readCondition ⟨0, none⟩ body = none := by
  simp only [filterBody?_eq_some_iff]
  constructor
  · rintro ⟨gap, gap', body, hgap, hs, hb⟩
    exact ⟨body, ⟨gap, gap', hgap, hs⟩, hb⟩
  · rintro ⟨body, ⟨gap, gap', hgap, hs⟩, hb⟩
    exact ⟨gap, gap', body, hgap, hs, hb⟩

instance : DecidablePred UnclosedFilter := fun s =>
  decidable_of_iff ((filterBody? s).any fun body => (readCondition ⟨0, none⟩ body).isNone) (by
    simp [unclosedFilter_iff, Option.any_eq_true])

/-! ### Texts that end their line -/

namespace EndsLine

variable {a s t rest : List Char} {p : Char → Bool}

theorem ne_nil (h : EndsLine s) : s ≠ [] := by
  rintro rfl
  cases h

theorem eq_append (h : EndsLine s) : ∃ a, s = a ++ ['\n'] :=
  List.getLast?_eq_some_iff.1 h

theorem mem (h : EndsLine s) : '\n' ∈ s :=
  List.mem_of_getLast? h

theorem of_append (h : EndsLine (a ++ s)) (hs : s ≠ []) : EndsLine s := by
  rcases List.eq_nil_or_concat s with rfl | ⟨b, c, rfl⟩
  · exact absurd rfl hs
  · simpa [EndsLine] using h

/-- Without its first character, it still ends its line unless that was the break. -/
theorem tail {c : Char} (h : EndsLine (c :: s)) (hc : c ≠ '\n') : EndsLine s := by
  refine of_append (a := [c]) h ?_
  rintro rfl
  exact hc (Option.some.inj h)

/-- A directive ends before the line does. -/
theorem of_endsBefore (h : EndsLine s) (he : EndsBefore rest s) : EndsLine rest := by
  obtain ⟨a, c, hc, rfl⟩ := he
  exact (h.of_append (List.cons_ne_nil c rest)).tail (ne_break_of_isDirectiveEnd hc)

theorem head?_append (h : EndsLine s) (t : List Char) : (s ++ t).head? = s.head? := by
  rw [List.head?_append]
  cases s with
  | nil => exact absurd rfl h.ne_nil
  | cons c s => rfl

theorem dropWhile_ne_nil (h : EndsLine s) (hp : p '\n' = false) : s.dropWhile p ≠ [] := by
  intro hn
  have := List.dropWhile_eq_nil_iff.1 hn _ h.mem
  rw [hp] at this
  cases this

theorem dropWhile (h : EndsLine s) (hp : p '\n' = false) : EndsLine (s.dropWhile p) := by
  refine of_append (a := s.takeWhile p) ?_ (h.dropWhile_ne_nil hp)
  rwa [List.takeWhile_append_dropWhile]

theorem dropWhile_append (h : EndsLine s) (hp : p '\n' = false) :
    (s ++ t).dropWhile p = s.dropWhile p ++ t := by
  rw [List.dropWhile_append, if_neg]
  simpa using h.dropWhile_ne_nil hp

/-- What is taken from the front ends before the break too. -/
theorem takeWhile_append (h : EndsLine s) (hp : p '\n' = false) :
    (s ++ t).takeWhile p = s.takeWhile p := by
  have h1 := List.takeWhile_append_dropWhile (p := p) (l := s ++ t)
  have h2 := List.takeWhile_append_dropWhile (p := p) (l := s)
  rw [h.dropWhile_append hp, ← List.append_assoc] at h1
  refine (List.append_left_inj (s.dropWhile p)).1 ?_
  rw [h2]
  exact List.append_cancel_right h1

theorem firstLine_append (h : EndsLine s) (t : List Char) : firstLine (s ++ t) = firstLine s :=
  h.takeWhile_append (by decide)

/-- What is behind its first break goes on. -/
theorem afterFirstBreak_append (h : EndsLine s) (t : List Char) :
    afterFirstBreak (s ++ t) = afterFirstBreak s ++ t := by
  have hp : (fun c => decide (c ≠ '\n')) '\n' = false := by decide
  rw [afterFirstBreak, afterFirstBreak, h.dropWhile_append hp]
  cases hd : s.dropWhile fun c => decide (c ≠ '\n') with
  | nil => exact absurd hd (h.dropWhile_ne_nil hp)
  | cons c r => rfl

/-- A word without a break starts the text or does not, whatever follows. -/
theorem isPrefixOf?_append {w : List Char} (hw : '\n' ∉ w) (h : EndsLine s) :
    w.isPrefixOf? (s ++ t) = (w.isPrefixOf? s).map (· ++ t) := by
  induction w generalizing s with
  | nil => rfl
  | cons c w ih =>
    obtain ⟨hc, hw⟩ := not_or.1 (List.mem_cons.not.1 hw)
    cases s with
    | nil => exact absurd rfl h.ne_nil
    | cons d s =>
      show (if c == d then w.isPrefixOf? (s ++ t) else none) =
        (if c == d then w.isPrefixOf? s else none).map (· ++ t)
      split
      · next hcd =>
        obtain rfl := eq_of_beq hcd
        exact ih hw (h.tail (Ne.symm hc))
      · rfl

/-- Behind a word without a break, it still ends its line. -/
theorem of_isPrefixOf? {w : List Char} (hw : '\n' ∉ w) (h : EndsLine s)
    (hr : w.isPrefixOf? s = some rest) : EndsLine rest := by
  rw [eq_append_of_isPrefixOf? hr] at h
  refine h.of_append ?_
  rintro rfl
  rw [List.append_nil] at h
  exact hw h.mem

end EndsLine

theorem isGap_break : isGap '\n' = false := by decide

theorem isWordChar_break : isWordChar '\n' = false := by decide

/-! ### Keywords -/

namespace Keyword

variable {s t : List Char}

theorem break_not_mem_word (k : Keyword) : '\n' ∉ k.word := by
  cases k <;> decide

/-- Whether a keyword is at its front does not depend on what follows. -/
theorem after?_append (k : Keyword) (h : EndsLine s) :
    k.after? (s ++ t) = (k.after? s).map (· ++ t) := by
  rw [after?, after?, EndsLine.isPrefixOf?_append k.break_not_mem_word h]
  cases hr : k.word.isPrefixOf? s with
  | none => rfl
  | some rest =>
    have hrest := EndsLine.of_isPrefixOf? k.break_not_mem_word h hr
    simp only [Option.map_some, Option.filter_some, hrest.head?_append]
    split <;> rfl

/-- The keyword at its front does not either. -/
theorem read_append (h : EndsLine s) :
    read (s ++ t) = (read s).map fun (k, after) => (k, after ++ t) := by
  simp only [read, after?_append _ h, List.findSome?_cons, List.findSome?_nil]
  cases after? .foreach s with
  | some after => rfl
  | none =>
    cases after? .cond s with
    | some after => rfl
    | none => cases after? .close s <;> rfl

/-- The keyword at a character, if there is one, does not depend on what follows. -/
theorem keyword?_append {c : Char} (h : EndsLine (c :: s)) :
    Mark.keyword? c (s ++ t) = (Mark.keyword? c s).map fun (k, after) => (k, after ++ t) := by
  unfold Mark.keyword?
  split
  · next hc => exact read_append (h.tail (by rw [hc]; decide))
  · rfl

/-- The first keyword in it is found, whatever follows. -/
theorem find_append_of_eq_some {before after : List Char} {k : Keyword}
    (h : EndsLine s) (hf : find s = some (before, k, after)) :
    find (s ++ t) = some (before, k, after ++ t) := by
  induction s generalizing before with
  | nil => cases hf
  | cons c s ih =>
    rw [Mark.find_cons] at hf
    rw [List.cons_append, Mark.find_cons, keyword?_append h]
    -- a keyword here, or further on in what still ends its line
    cases hk : Mark.keyword? c s with
    | some ka =>
      rw [hk] at hf
      cases hf
      rfl
    | none =>
      rw [hk] at hf
      obtain ⟨⟨b, k', a⟩, hf, he⟩ := Option.map_eq_some_iff.1 hf
      cases he
      have hs : EndsLine s := h.of_append (a := [c]) (by rintro rfl; cases hf)
      simp only [Option.map_none, ih hs hf, Option.map_some]

/-- If there is none in it, the search goes on in what follows. -/
theorem find_append_of_eq_none (h : s = [] ∨ EndsLine s) (hf : find s = none) :
    find (s ++ t) = (find t).map fun (before, k, after) => (s ++ before, k, after) := by
  induction s with
  | nil => simp
  | cons c s ih =>
    have h := h.resolve_left (List.cons_ne_nil c s)
    rw [Mark.find_cons] at hf
    rw [List.cons_append, Mark.find_cons, keyword?_append h]
    cases hk : Mark.keyword? c s with
    | some ka =>
      rw [hk] at hf
      cases hf
    | none =>
      rw [hk] at hf
      -- nothing is left when `c` was the break itself
      have hs : s = [] ∨ EndsLine s := by
        rcases List.eq_nil_or_concat s with rfl | ⟨a, e, rfl⟩
        · exact .inl rfl
        · exact .inr (h.of_append (a := [c]) (by simp))
      simp only [Option.map_none, ih hs (Option.map_eq_none_iff.1 hf)]
      cases find t <;> rfl

end Keyword

/-! ### Directives -/

/-- A condition that is read ends where it ended. -/
theorem readCondition_append {n : Nesting} {s c rest : List Char} (t : List Char)
    (h : readCondition n s = some (c, rest)) :
    readCondition n (s ++ t) = some (c, rest ++ t) := by
  induction s generalizing n c with
  | nil => cases h
  | cons x s ih =>
    rw [readCondition] at h
    rw [List.cons_append, readCondition]
    cases hx : n.step x with
    | none =>
      rw [hx] at h
      obtain ⟨rfl, rfl⟩ := Prod.mk.inj (Option.some.inj h)
      rfl
    | some n' =>
      rw [hx] at h
      obtain ⟨⟨c', rest'⟩, hr, he⟩ := Option.map_eq_some_iff.1 h
      obtain ⟨rfl, rfl⟩ := Prod.mk.inj he
      dsimp only
      rw [ih hr]
      rfl

/-- So does one in parentheses. -/
theorem readParenthesized_append {s c rest : List Char} (t : List Char)
    (h : readParenthesized s = some (c, rest)) :
    readParenthesized (s ++ t) = some (c, rest ++ t) := by
  unfold readParenthesized at h
  split at h
  · exact readCondition_append t h
  · cases h

/-- A word and the gap in front of it end before the break. -/
theorem readSpacedWord_append {s : List Char} (h : EndsLine s) (t : List Char) :
    readSpacedWord (s ++ t) = (readSpacedWord s).map fun (w, rest) => (w, rest ++ t) := by
  have hr := h.dropWhile isGap_break
  simp only [readSpacedWord, h.head?_append, h.dropWhile_append isGap_break, hr.head?_append,
    hr.takeWhile_append isWordChar_break, hr.dropWhile_append isWordChar_break]
  split <;> rfl

/-- So does the opening of a filter. -/
theorem filterBody?_append {s : List Char} (h : EndsLine s) (t : List Char) :
    filterBody? (s ++ t) = (filterBody? s).map (· ++ t) := by
  have hgap := h.dropWhile isGap_break
  have hword : '\n' ∉ "where".toList := by decide
  unfold filterBody?
  rw [h.dropWhile_append isGap_break, EndsLine.isPrefixOf?_append hword hgap]
  cases hr : "where".toList.isPrefixOf? (s.dropWhile isGap) with
  | none => rfl
  | some r =>
    have hr' := EndsLine.of_isPrefixOf? hword hgap hr
    dsimp only [Option.map_some]
    rw [hr'.dropWhile_append isGap_break]
    cases hd : r.dropWhile isGap with
    | nil => exact absurd hd (hr'.dropWhile_ne_nil isGap_break)
    | cons c body =>
      rw [List.cons_append]
      split
      · next he =>
        cases he
        rfl
      · next hc =>
        split
        · next he =>
          cases he
          exact absurd rfl (hc _)
        · rfl

/-- A filter is the same, unless it was none for want of a closing parenthesis. -/
theorem readFilter_append {s : List Char} (h : EndsLine s) (t : List Char)
    (hu : readFilter s = none → ¬ UnclosedFilter s) :
    readFilter (s ++ t) = (readFilter s).map fun (c, rest) => (c, rest ++ t) := by
  rw [unclosedFilter_iff] at hu
  rw [readFilter_eq_bind] at hu ⊢
  rw [readFilter_eq_bind, filterBody?_append h]
  cases hb : filterBody? s with
  | none => rfl
  | some body =>
    rw [hb] at hu
    cases hc : readCondition ⟨0, none⟩ body with
    | some p =>
      simp only [Option.map_some, Option.bind_some, hc, readCondition_append t hc]
    | none =>
      -- a filter that was opened and is not closed, which `hu` excludes
      exact absurd ⟨body, rfl, hc⟩ (hu hc)

/-- A directive is the same, unless it is a loop whose filter was not closed. -/
theorem Directive.read_append {k : Keyword} {s rest : List Char} {d : Directive}
    (h : EndsLine s) (t : List Char) (hr : Directive.read k s = some (d, rest))
    (hu : ∀ subject, d = .foreach subject none → ¬ UnclosedFilter rest) :
    Directive.read k (s ++ t) = some (d, rest ++ t) := by
  cases k with
  | foreach =>
    obtain ⟨⟨w, r⟩, hw, he⟩ := Option.map_eq_some_iff.1 hr
    have hend := h.of_endsBefore (endsBefore_readSpacedWord hw)
    dsimp only at he
    have hfilter := readFilter_append hend t (by
      -- without a filter the loop has read none, so no unclosed one may follow
      intro hn
      rw [hn] at he
      cases he
      exact hu _ rfl)
    simp only [Directive.read, readSpacedWord_append h, hw, Option.map_some, hfilter]
    cases hf : readFilter r with
    | none =>
      rw [hf] at he
      cases he
      rfl
    | some p =>
      rw [hf] at he
      cases he
      rfl
  | cond =>
    obtain ⟨⟨c, r⟩, hc, he⟩ := Option.map_eq_some_iff.1 hr
    cases he
    simp only [Directive.read, h.dropWhile_append isGap_break, readParenthesized_append t hc,
      Option.map_some]
  | close =>
    obtain ⟨⟨w, r⟩, hw, he⟩ := Option.map_eq_some_iff.1 hr
    cases he
    simp only [Directive.read, readSpacedWord_append h, hw, Option.map_some]

end ApiStencil.Template
