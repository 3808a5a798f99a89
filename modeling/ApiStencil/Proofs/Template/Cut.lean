/-
ApiStencil/Proofs/Template/Cut.lean

The segments of a template are cut at its marks.

    Cuts front segments marks

says that `segments` are literals and directives in turn, that the directives are
those of `marks`, each on the line of its keyword and with the text that its site
takes, and that a keyword without a directive can only come last.  `front` is what
stands before the first segment.

`cuts_scan` is the one induction over the scan; what the theory says of nesting
and of spans follows from `Cuts`.  The scan looks at the text since the last
directive only, so the induction carries what is known of the line on which that
text starts (`Resumes`).
-/
import ApiStencil.Proofs.Template.Mark

namespace ApiStencil.Template

open Text Segment

/-- How segments and marks go together. -/
inductive Cuts : List Char → List Segment → List Mark → Prop
  | last (front text : List Char) : Cuts front [.literal (lineAfter front) text] []
  | malformed {front before source : List Char} {m : Mark} (hd : m.directive? = none)
      (hf : front ++ before = m.site.front) :
      Cuts front
        [.literal (lineAfter front) before, .malformed m.site.line m.keyword source] [m]
  | directive {front before : List Char} {m : Mark} {d : Directive} {segments : List Segment}
      {marks : List Mark} (hd : m.directive? = some d)
      (hf : front ++ before = m.site.taken.front)
      (hr : Cuts (m.site.taken.front ++ m.site.taken.own) segments marks) :
      Cuts front
        (.literal (lineAfter front) before ::
          .directive m.site.line d m.site.taken.own :: segments)
        (m :: marks)

/-- A directive whose site takes a text is cut so. -/
theorem Cuts.of_taken {front before source next : List Char} {m : Mark} {d : Directive}
    {line here : Nat} {segments : List Segment} {marks : List Mark} (hl : line = lineAfter front)
    (hh : here = m.site.line) (hd : m.directive? = some d)
    (ht : m.site.taken = ⟨front ++ before, source, next⟩)
    (hr : Cuts (front ++ before ++ source) segments marks) :
    Cuts front (.literal line before :: .directive here d source :: segments) (m :: marks) := by
  have hf : front ++ before = m.site.taken.front := by rw [ht]
  have ho : source = m.site.taken.own := by rw [ht]
  rw [hf, ho] at hr
  rw [hl, hh, ho]
  exact .directive hd hf hr

/-! ### The line on which the scan resumes -/

/-- What the scan knows of the line on which `s` starts, after `front`: either it starts there, or
it holds more than blanks already. -/
def Resumes (fresh : Bool) (front s : List Char) : Prop :=
  if fresh then s = [] ∨ lastLine front = [] else (lastLine front).all isLineBlank = false

theorem resumes_top (s : List Char) : Resumes true [] s :=
  Or.inr rfl

/-- The scan decides as the whole text does whether a directive stands alone. -/
theorem standsAlone_eq_alone {fresh : Bool} {front s : List Char} (h : Resumes fresh front s)
    (hs : s ≠ []) (before own rest : List Char) :
    standsAlone fresh before rest = (Site.mk (front ++ before) own rest).alone := by
  unfold standsAlone Site.alone
  -- with a break in the text, what stands in front of the text does not matter
  by_cases hb : '\n' ∈ before
  · rw [lastLine_append_of_mem hb, List.contains_iff_mem.2 hb]
    simp
  · have hc : before.contains '\n' = false := by simpa using hb
    rw [lastLine_append_of_not_mem hb, lastLine_eq_self hb, hc, List.all_append]
    cases fresh with
    | false =>
      have hl : (lastLine front).all isLineBlank = false := h
      rw [hl]
      rfl
    | true =>
      have hl : lastLine front = [] := Or.resolve_left h hs
      rw [hl]
      simp

/-- The lines of a directive that stands alone start after the last break before it, also where
that break is the end of an earlier directive's lines. -/
theorem lastLine_append_of_standsAlone {fresh : Bool} {front s before rest : List Char}
    (h : Resumes fresh front s) (hs : s ≠ []) (ha : standsAlone fresh before rest = true) :
    lastLine (front ++ before) = lastLine before ∧
      throughLastBreak (front ++ before) = front ++ throughLastBreak before := by
  have hlast : lastLine (front ++ before) = lastLine before := by
    by_cases hb : '\n' ∈ before
    · exact lastLine_append_of_mem hb
    · have hf : fresh = true := by
        have hc : before.contains '\n' = false := by simpa using hb
        simp only [standsAlone, hc, Bool.or_false, Bool.and_eq_true] at ha
        exact ha.1.1
      subst hf
      exact lastLine_append_of_eq_nil (Or.resolve_left h hs)
  exact ⟨hlast, throughLastBreak_append hlast⟩

/-- What a directive that stands alone takes, as the scan computes it. -/
theorem taken_of_standsAlone {fresh : Bool} {front s before own rest fromHere : List Char}
    (h : Resumes fresh front s) (hs : s ≠ []) (ha : standsAlone fresh before rest = true)
    (hown : own ++ rest = fromHere) :
    (Site.mk (front ++ before) own rest).taken =
      ⟨front ++ throughLastBreak before,
        lastLine before ++ inFrontOf (afterFirstBreak rest) fromHere, afterFirstBreak rest⟩ := by
  obtain ⟨hlast, hthrough⟩ := lastLine_append_of_standsAlone h hs ha
  have hsource : own ++ inFrontOf (afterFirstBreak rest) rest =
      inFrontOf (afterFirstBreak rest) fromHere := by
    rw [← hown, ← inFrontOf_append (own ++ inFrontOf (afterFirstBreak rest) rest)
      (afterFirstBreak rest), List.append_assoc, inFrontOf_afterFirstBreak]
  rw [Site.taken, ← standsAlone_eq_alone h hs, if_pos ha, Site.lines]
  simp only [hlast, hthrough, List.append_assoc]
  rw [hsource]

theorem firstLine_of_standsAlone {fresh : Bool} {before rest : List Char}
    (h : standsAlone fresh before rest = true) : (firstLine rest).all isLineBlank = true := by
  simp only [standsAlone, Bool.and_eq_true] at h
  exact h.2

/-- After a directive that takes its lines, a line starts. -/
theorem resumes_afterFirstBreak (front rest : List Char) :
    Resumes true (front ++ inFrontOf (afterFirstBreak rest) rest) (afterFirstBreak rest) := by
  by_cases hb : '\n' ∈ rest
  · right
    rw [inFrontOf_afterFirstBreak_of_mem hb, ← List.append_assoc, lastLine_append_break]
  · exact Or.inl (afterFirstBreak_eq_nil hb)

/-- After any other directive, the line holds the end of that directive. -/
theorem resumes_of_endsBefore {front own rest : List Char} (s : List Char)
    (h : EndsBefore rest (own ++ rest)) : Resumes false (front ++ own) s := by
  obtain ⟨a, c, hc, he⟩ := h
  have hown : own = a ++ [c] := by
    refine (List.append_left_inj rest).1 ?_
    rw [he]
    simp
  have hb : '\n' ∉ [c] := by simpa using Ne.symm (ne_break_of_isDirectiveEnd hc)
  show (lastLine (front ++ own)).all isLineBlank = false
  rw [hown, ← List.append_assoc, lastLine_append_of_not_mem hb, List.all_append]
  simp [not_isLineBlank_of_isDirectiveEnd hc]

/-- What a directive that stands alone takes after itself holds no at sign. -/
theorem at_not_mem_inFrontOf_afterFirstBreak {rest : List Char}
    (h : (firstLine rest).all isLineBlank = true) :
    '@' ∉ inFrontOf (afterFirstBreak rest) rest := by
  have hl : '@' ∉ firstLine rest := by
    intro hm
    have := List.all_eq_true.1 h _ hm
    revert this
    decide
  by_cases hb : '\n' ∈ rest
  · rw [inFrontOf_afterFirstBreak_of_mem hb]
    simp [hl]
  · rw [inFrontOf_afterFirstBreak_of_not_mem hb]
    exact hl

/-- After a directive that stands alone, the next mark is below its lines. -/
theorem allFrom_afterFirstBreak {rest : List Char} (front : List Char)
    (h : (firstLine rest).all isLineBlank = true) :
    Mark.allFrom front rest =
      Mark.allFrom (front ++ inFrontOf (afterFirstBreak rest) rest) (afterFirstBreak rest) := by
  rw [← Mark.allFrom_append_of_not_mem (at_not_mem_inFrontOf_afterFirstBreak h),
    inFrontOf_afterFirstBreak]

/-! ### The scan cuts at the marks -/

theorem find_ne_nil {s before after : List Char} {k : Keyword}
    (h : Keyword.find s = some (before, k, after)) : s ≠ [] := by
  rintro rfl
  cases h

theorem inFrontOf_read {k : Keyword} {after rest : List Char} {d : Directive}
    (h : Directive.read k after = some (d, rest)) :
    inFrontOf rest ('@' :: k.word ++ after) ++ rest = '@' :: k.word ++ after := by
  obtain ⟨a, rfl⟩ := Directive.read_suffix h
  exact inFrontOf_suffix ⟨'@' :: k.word ++ a, by simp⟩

/-- The scan cuts a text at its marks, if it knows the line on which the text starts. -/
theorem cuts_scan (line : Nat) (fresh : Bool) (s : List Char) :
    ∀ front, line = lineAfter front → Resumes fresh front s →
      Cuts front (scan line fresh s) (Mark.allFrom front s) := by
  fun_induction scan line fresh s with
  | case1 line fresh s hf =>
    intro front hl h
    rw [Mark.allFrom_of_find_eq_none hf, hl]
    exact .last front s
  | case2 line fresh s before k after hf here fromHere hr =>
    intro front hl h
    rw [Mark.allFrom_of_find_eq_some hf, hr, hl]
    have hline : here = lineAfter (front ++ before) := by
      simp [here, hl, lineAfter, Nat.add_assoc]
    rw [hline]
    exact .malformed (m := ⟨⟨front ++ before, '@' :: k.word, after⟩, k, none⟩) rfl rfl
  | case3 line fresh s before k after hf here fromHere d rest hr halone next source ih =>
    intro front hl h
    have hown := inFrontOf_read hr
    rw [Mark.allFrom_of_find_eq_some hf, hr]
    dsimp only
    generalize inFrontOf rest ('@' :: k.word ++ after) = own at hown ⊢
    have hline : here = lineAfter (front ++ before) := by
      simp [here, hl, lineAfter, Nat.add_assoc]
    have hs := find_ne_nil hf
    -- the directive takes its lines, and the scan goes on below them
    have htaken := taken_of_standsAlone h hs halone hown
    have hnext : front ++ throughLastBreak before ++ source =
        front ++ before ++ own ++ inFrontOf next rest := by
      have := (Site.mk (front ++ before) own rest).whole_taken
      rw [htaken] at this
      refine (List.append_left_inj next).1 ?_
      rw [List.append_assoc _ (inFrontOf next rest), inFrontOf_afterFirstBreak]
      exact this
    rw [allFrom_afterFirstBreak _ (firstLine_of_standsAlone halone), ← hnext]
    refine .of_taken hl hline rfl htaken (ih _ ?_ ?_)
    · simp [hl, lineAfter, Nat.add_assoc]
    · rw [hnext]
      exact resumes_afterFirstBreak _ rest
  | case4 line fresh s before k after hf here fromHere d rest hr halone source ih =>
    intro front hl h
    have hown := inFrontOf_read hr
    have hend := endsBefore_read hr
    rw [Mark.allFrom_of_find_eq_some hf, hr]
    dsimp only
    have hline : here = lineAfter (front ++ before) := by
      simp [here, hl, lineAfter, Nat.add_assoc]
    have hs := find_ne_nil hf
    have htaken : (Site.mk (front ++ before) source rest).taken =
        ⟨front ++ before, source, rest⟩ := by
      rw [Site.taken, ← standsAlone_eq_alone h hs, if_neg halone]
    refine .of_taken hl hline rfl htaken (ih _ ?_ ?_)
    · simp [hl, lineAfter, Nat.add_assoc]
    · -- the line goes on behind a directive that shares it
      apply resumes_of_endsBefore rest
      rw [hown]
      exact hend.append _

/-- The segments of a template are cut at its marks. -/
theorem cuts_ofTemplate (text : List Char) : Cuts [] (ofTemplate text) (Mark.all text) :=
  cuts_scan 1 true text [] rfl (resumes_top text)

end ApiStencil.Template
