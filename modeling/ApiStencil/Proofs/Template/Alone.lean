/-
ApiStencil/Proofs/Template/Alone.lean

The marks of a template stand one after the other (`pairwise_before_all`), and a
directive takes its lines exactly if nothing but blanks, and no other directive,
shares them (`alone_iff`).

That blanks on both sides suffice is the point: a directive that ends on the first
of the lines would leave its last character there, and one that starts on the last
of them its at sign, and neither is a blank.
-/
import ApiStencil.Proofs.Template.Cut

namespace ApiStencil.Template

open Text Segment

/-! ### The text of a mark -/

/-- `s.Before s'`: the site `s'` is in what stands after `s`. -/
def Site.Before (s s' : Site) : Prop :=
  ∃ gap, s'.front = s.front ++ s.own ++ gap ∧ s.rest = gap ++ s'.own ++ s'.rest

/-- What is known of the site of a mark of the text `s` after `front`. -/
structure Mark.In (front s : List Char) (m : Mark) : Prop where
  place : ∃ gap, m.site.front = front ++ gap ∧ s = gap ++ m.site.own ++ m.site.rest
  starts : ∃ r, m.site.own = '@' :: r
  ends : ∃ a c, m.site.own = a ++ [c] ∧ isDirectiveEnd c = true

theorem Mark.In.shift {front gap s t : List Char} {m : Mark} (h : m.In (front ++ gap) s)
    (ht : t = gap ++ s) : m.In front t := by
  obtain ⟨⟨gap', hf, hs⟩, h1, h2⟩ := h
  exact ⟨⟨gap ++ gap', by simp [hf], by simp [ht, hs]⟩, h1, h2⟩

/-- A keyword ends with a character that a directive can end with. -/
theorem Keyword.word_ends (k : Keyword) :
    ∃ a c, '@' :: k.word = a ++ [c] ∧ isDirectiveEnd c = true := by
  cases k with
  | foreach => exact ⟨"@foreac".toList, 'h', by decide, by decide⟩
  | cond => exact ⟨"@i".toList, 'f', by decide, by decide⟩
  | close => exact ⟨"@en".toList, 'd', by decide, by decide⟩

/-- The text of a directive starts with its keyword and ends as directives do. -/
theorem own_of_read {k : Keyword} {after rest : List Char} {d : Directive}
    (h : Directive.read k after = some (d, rest)) :
    ∃ a c, inFrontOf rest ('@' :: k.word ++ after) = '@' :: k.word ++ a ++ [c] ∧
      isDirectiveEnd c = true := by
  obtain ⟨a, c, hc, rfl⟩ := endsBefore_read h
  refine ⟨a, c, ?_, hc⟩
  rw [← inFrontOf_append ('@' :: k.word ++ a ++ [c]) rest]
  simp

/-- The marks of a text are in that text. -/
theorem in_allFrom (front s : List Char) : ∀ m ∈ Mark.allFrom front s, m.In front s := by
  fun_induction Mark.allFrom front s with
  | case1 => simp
  -- no directive starts here
  | case2 front c r hk ih =>
    intro m hm
    exact (ih m hm).shift rfl
  | case3 front c r k after hk hd =>
    intro m hm
    obtain rfl := List.mem_singleton.1 hm
    rw [Mark.keyword?_eq_some hk, inFrontOf_append]
    exact ⟨⟨[], (List.append_nil front).symm, rfl⟩, ⟨k.word, rfl⟩, k.word_ends⟩
  -- a directive, behind which the search goes on
  | case4 front c r k after hk d rest hd own ih =>
    intro m hm
    have hown : own ++ rest = c :: r := by
      have := inFrontOf_read hd
      rwa [← Mark.keyword?_eq_some hk] at this
    rcases List.mem_cons.1 hm with rfl | hm
    · obtain ⟨a, e, he, hc⟩ := own_of_read hd
      rw [← Mark.keyword?_eq_some hk] at he
      exact ⟨⟨[], (List.append_nil front).symm, hown.symm⟩,
        ⟨k.word ++ a ++ [e], by simpa using he⟩, '@' :: k.word ++ a, e, he, hc⟩
    · exact (ih m hm).shift hown.symm

theorem Mark.In.whole {front s : List Char} {m : Mark} (h : m.In front s) :
    m.site.whole = front ++ s := by
  obtain ⟨⟨gap, hf, hs⟩, -, -⟩ := h
  simp [Site.whole, hf, hs]

/-- The marks of a template stand one after the other. -/
theorem pairwise_before_all (front s : List Char) :
    (Mark.allFrom front s).Pairwise fun m m' => m.site.Before m'.site := by
  fun_induction Mark.allFrom front s with
  | case1 => exact .nil
  | case2 front c r hk ih => exact ih
  | case3 front c r k after hk hd => exact List.pairwise_singleton _ _
  | case4 front c r k after hk d rest hd own ih =>
    refine .cons ?_ ih
    intro m hm
    exact (in_allFrom _ rest m hm).place

/-! ### Directives alone on their lines -/

/-- The site does not share the lines of the mark. -/
def Site.Apart (s lines : Site) : Prop :=
  s.stop ≤ lines.start ∨ lines.stop ≤ s.start

/-- Only blanks, and no other directive, share the lines of a mark. -/
structure Mark.Alone (marks : List Mark) (m : Mark) : Prop where
  blankBefore : ∀ c ∈ lastLine m.site.front, isLineBlank c = true
  blankAfter : ∀ c ∈ firstLine m.site.rest, isLineBlank c = true
  noOther : ∀ m' ∈ marks, m' = m ∨ m'.site.Apart m.site.lines

theorem Site.alone_iff (s : Site) :
    s.alone = true ↔ (∀ c ∈ lastLine s.front, isLineBlank c = true) ∧
      ∀ c ∈ firstLine s.rest, isLineBlank c = true := by
  simp only [Site.alone, Bool.and_eq_true, List.all_eq_true]

/-- A directive in front of one that stands alone ends above its lines: on them it would leave its
last character. -/
theorem apart_of_before {s s' : Site} (h : s.Before s')
    (he : ∃ a c, s.own = a ++ [c] ∧ isDirectiveEnd c = true) (ha : s'.alone = true) :
    s.Apart s'.lines := by
  obtain ⟨gap, hf, -⟩ := h
  obtain ⟨a, c, hown, hc⟩ := he
  have hs := throughLastBreak_append_lastLine s'.front
  have hblank := (s'.alone_iff.1 ha).1
  left
  show byteSize s.front + byteSize s.own ≤ byteSize (throughLastBreak s'.front)
  generalize throughLastBreak s'.front = through at hs ⊢
  rw [hf] at hs
  -- either `s` ends where the last line starts, or its end is on that line
  rcases List.append_eq_append_iff.1 hs with ⟨b, hb, hl⟩ | ⟨b, hb, -⟩
  · rcases List.eq_nil_or_concat b with rfl | ⟨b, e, rfl⟩
    · rw [← byteSize_append, hb]
      simp
    · rw [List.concat_eq_append] at hb hl
      have hce : c = e := by
        have := congrArg List.getLast? hb
        simpa [hown] using this
      have hm : c ∈ lastLine s'.front := by
        rw [hf, hl, hce]
        simp
      have := hblank c hm
      rw [not_isLineBlank_of_isDirectiveEnd hc] at this
      cases this
  · rw [hb]
    simp

/-- A directive after one that stands alone starts below its lines: on them it would leave its at
sign. -/
theorem apart_of_after {s s' : Site} (h : s.Before s') (hs : ∃ r, s'.own = '@' :: r)
    (ha : s.alone = true) : s'.Apart s.lines := by
  obtain ⟨gap, hf, hr⟩ := h
  obtain ⟨r, hown⟩ := hs
  have hblank : (firstLine s.rest).all isLineBlank = true := by
    simp only [Site.alone, Bool.and_eq_true] at ha
    exact ha.2
  have hat := at_not_mem_inFrontOf_afterFirstBreak hblank
  have hskip := inFrontOf_afterFirstBreak s.rest
  have hthrough := congrArg byteSize (throughLastBreak_append_lastLine s.front)
  right
  show byteSize (throughLastBreak s.front) +
    byteSize (lastLine s.front ++ s.own ++ inFrontOf (afterFirstBreak s.rest) s.rest) ≤
      byteSize s'.front
  generalize inFrontOf (afterFirstBreak s.rest) s.rest = skipped at hat hskip ⊢
  -- what `s` takes after itself stops short of the at sign of `s'`
  have hle : byteSize skipped ≤ byteSize gap := by
    rw [hr, hown, List.append_assoc] at hskip
    rcases List.append_eq_append_iff.1 hskip with ⟨b, hb, -⟩ | ⟨b, hb, hl⟩
    · rw [hb]
      simp
    · cases b with
      | nil => rw [hb]; simp
      | cons e b =>
        obtain ⟨rfl, -⟩ := List.cons.inj hl
        exact absurd (by rw [hb]; simp) hat
  rw [hf]
  simp only [byteSize_append] at hthrough ⊢
  omega

/-- Two marks of a template are the same, or one stands before the other. -/
theorem eq_or_before {text : List Char} {m m' : Mark} (hm : m ∈ Mark.all text)
    (hm' : m' ∈ Mark.all text) :
    m = m' ∨ m.site.Before m'.site ∨ m'.site.Before m.site := by
  have h := pairwise_before_all [] text
  refine List.Pairwise.forall_of_forall_of_flip
    (R := fun m m' : Mark => m = m' ∨ m.site.Before m'.site ∨ m'.site.Before m.site)
    (fun _ _ => Or.inl rfl) ?_ ?_ hm hm'
  · exact h.imp fun hb => Or.inr (Or.inl hb)
  · exact h.imp fun hb => Or.inr (Or.inr hb)

/-- A mark of a template takes its lines exactly if only blanks, and no other directive, share
them. -/
theorem alone_iff {text : List Char} {m : Mark} (hm : m ∈ Mark.all text) :
    m.site.alone = true ↔ m.Alone (Mark.all text) := by
  constructor
  · intro ha
    obtain ⟨h1, h2⟩ := m.site.alone_iff.1 ha
    refine ⟨h1, h2, ?_⟩
    intro m' hm'
    rcases eq_or_before hm' hm with he | hb | hb
    · exact Or.inl he
    · exact Or.inr (apart_of_before hb (in_allFrom [] text m' hm').ends ha)
    · exact Or.inr (apart_of_after hb (in_allFrom [] text m' hm').starts ha)
  · intro ha
    exact m.site.alone_iff.2 ⟨ha.blankBefore, ha.blankAfter⟩

end ApiStencil.Template
