/-
ApiStencil/Proofs/Text/Lines.lean

The lines of a text, read one after the other: each ends at the first line break, with which a
carriage return is taken away (`lines_append_break`), and only the last may lack the break
(`lines_of_not_mem`).

Main statement: with a plain break behind each line again, the lines are the text except for the
carriage returns and a missing last break (`withBreaks_lines`), so two texts have the same lines
exactly if they differ in nothing else (`lines_eq_lines_iff`).
-/
import ApiStencil.Text.Lines

namespace ApiStencil.Text

variable {l r s t : List Char} {ls ms : List (List Char)}

/-- A text is a line without a break, or a line with its break and another text behind it. -/
theorem line_induction {motive : List Char → Prop} (last : ∀ l, '\n' ∉ l → motive l)
    (next : ∀ l r, '\n' ∉ l → motive r → motive (l ++ '\n' :: r)) (s : List Char) : motive s := by
  by_cases h : '\n' ∈ s
  · obtain ⟨l, r, hs, hl⟩ := List.eq_append_cons_of_mem h
    have hlt : r.length < s.length := by
      rw [hs, List.length_append, List.length_cons]
      omega
    exact hs ▸ next l r hl (line_induction last next r)
  · exact last s h
termination_by s.length

/-! ### One line -/

/-- Without a break, the rest of the text is the last line, unless it is empty. -/
theorem linesFrom_of_not_mem (line : List Char) (h : '\n' ∉ s) :
    linesFrom line s = if line.reverse ++ s = [] then [] else [line.reverse ++ s] := by
  induction s generalizing line with
  | nil => simp [linesFrom]
  | cons c r ih =>
    obtain ⟨hc, hr⟩ := not_or.1 (mt List.mem_cons.2 h)
    rw [linesFrom, if_neg (Ne.symm hc), ih _ hr]
    simp

/-- The first break ends the line that has been begun. -/
theorem linesFrom_append_break (line : List Char) (h : '\n' ∉ l) :
    linesFrom line (l ++ '\n' :: r) = dropReturn (line.reverse ++ l) :: lines r := by
  induction l generalizing line with
  | nil => simp [linesFrom, lines]
  | cons c l ih =>
    obtain ⟨hc, hl⟩ := not_or.1 (mt List.mem_cons.2 h)
    rw [List.cons_append, linesFrom, if_neg (Ne.symm hc), ih _ hl]
    simp

theorem lines_of_not_mem (h : '\n' ∉ s) : lines s = if s = [] then [] else [s] :=
  linesFrom_of_not_mem [] h

theorem lines_append_break (h : '\n' ∉ l) (r : List Char) :
    lines (l ++ '\n' :: r) = dropReturn l :: lines r :=
  linesFrom_append_break [] h

theorem dropReturn_sublist (l : List Char) : (dropReturn l).Sublist l := by
  unfold dropReturn
  split
  · exact List.dropLast_sublist l
  · exact .refl l

/-- No line holds a break. -/
theorem not_mem_of_mem_lines (h : l ∈ lines s) : '\n' ∉ l := by
  induction s using line_induction with
  | last s hs =>
    rw [lines_of_not_mem hs] at h
    split at h
    · cases h
    · rwa [List.mem_singleton.1 h]
  | next front r hfront ih =>
    rw [lines_append_break hfront] at h
    rcases List.mem_cons.1 h with rfl | h
    · exact fun hm => hfront ((dropReturn_sublist front).subset hm)
    · exact ih h

/-! ### Line breaks -/

/-- The lines with a break behind each. -/
def withBreaks (ls : List (List Char)) : List Char :=
  ls.flatMap (· ++ ['\n'])

theorem withBreaks_cons (l : List Char) (ls : List (List Char)) :
    withBreaks (l :: ls) = l ++ '\n' :: withBreaks ls := by
  simp [withBreaks]

/-- Cut at its breaks, the text of some lines gives them back, with an empty piece at the end. -/
theorem splitOn_withBreaks (h : ∀ l ∈ ls, '\n' ∉ l) :
    (withBreaks ls).splitOn '\n' = ls ++ [[]] := by
  induction ls with
  | nil => rfl
  | cons l ls ih =>
    obtain ⟨hl, hls⟩ := List.forall_mem_cons.1 h
    rw [withBreaks_cons, List.splitOn_append_cons_self_of_not_mem hl, ih hls, List.cons_append]

/-- The text without the carriage return in front of each line break. -/
def plainBreaks : List Char → List Char
  | [] => []
  | c :: r => if c = '\r' ∧ r.head? = some '\n' then plainBreaks r else c :: plainBreaks r

/-- The text with a break behind its last line. -/
def closed (s : List Char) : List Char :=
  if s = [] ∨ s.getLast? = some '\n' then s else s ++ ['\n']

theorem dropReturn_cons_cons (c d : Char) (l : List Char) :
    dropReturn (c :: d :: l) = c :: dropReturn (d :: l) := by
  unfold dropReturn
  rw [List.getLast?_cons_cons, List.dropLast_cons_cons]
  split <;> rfl

/-- Where no line ends, no carriage return is taken away. -/
theorem plainBreaks_of_not_mem (h : '\n' ∉ l) : plainBreaks l = l := by
  induction l with
  | nil => rfl
  | cons c l ih =>
    obtain ⟨-, hl⟩ := not_or.1 (mt List.mem_cons.2 h)
    have hhead : ¬(c = '\r' ∧ l.head? = some '\n') := fun hc => hl (List.mem_of_mem_head? hc.2)
    rw [plainBreaks, if_neg hhead, ih hl]

theorem plainBreaks_break (r : List Char) : plainBreaks ('\n' :: r) = '\n' :: plainBreaks r :=
  if_neg fun h => absurd h.1 (by decide)

/-- Making breaks plain treats a line as reading it does: only the carriage return at its end is
taken away. -/
theorem plainBreaks_append_break (h : '\n' ∉ l) (r : List Char) :
    plainBreaks (l ++ '\n' :: r) = dropReturn l ++ '\n' :: plainBreaks r := by
  induction l with
  | nil => exact plainBreaks_break r
  | cons c l ih =>
    obtain ⟨-, hl⟩ := not_or.1 (mt List.mem_cons.2 h)
    rw [List.cons_append, plainBreaks, ih hl]
    -- of the line, only the last character can be in front of the break
    cases l with
    | nil =>
      -- the last character is left out exactly if it is a carriage return
      by_cases hc : c = '\r'
      · simp [hc, dropReturn]
      · simp [hc, dropReturn]
    | cons d l =>
      have hd : ¬(c = '\r' ∧ (d :: l ++ '\n' :: r).head? = some '\n') := fun hc =>
        hl (List.mem_of_mem_head? hc.2)
      rw [if_neg hd, dropReturn_cons_cons, List.cons_append]

/-- Whether the last line needs a break is decided behind the first break. -/
theorem closed_append_break (l r : List Char) :
    closed (l ++ '\n' :: r) = l ++ '\n' :: closed r := by
  unfold closed
  cases r with
  | nil => simp
  | cons c r =>
    simp only [List.getLast?_append, List.getLast?_cons_cons, List.append_eq_nil_iff, reduceCtorEq]
    split <;> simp_all

/-- A text without breaks gets one, unless it is empty. -/
theorem closed_of_not_mem (h : '\n' ∉ s) : closed s = withBreaks (lines s) := by
  rw [lines_of_not_mem h, closed]
  by_cases hs : s = []
  · simp [hs, withBreaks]
  · have hlast : s.getLast? ≠ some '\n' := fun hn => h (List.mem_of_getLast? hn)
    simp [hs, hlast, withBreaks]

/-- The lines with a break behind each are the text with plain breaks, the last line's included. -/
theorem withBreaks_lines (s : List Char) : withBreaks (lines s) = closed (plainBreaks s) := by
  induction s using line_induction with
  | last s hs => rw [plainBreaks_of_not_mem hs, closed_of_not_mem hs]
  | next l r hl ih =>
    rw [lines_append_break hl, withBreaks_cons, ih, plainBreaks_append_break hl,
      closed_append_break]

theorem withBreaks_inj (hs : ∀ l ∈ ls, '\n' ∉ l) (ht : ∀ l ∈ ms, '\n' ∉ l)
    (h : withBreaks ls = withBreaks ms) : ls = ms := by
  have hsplit := congrArg (List.splitOn '\n') h
  rw [splitOn_withBreaks hs, splitOn_withBreaks ht] at hsplit
  exact List.append_cancel_right hsplit

/-- Two texts have the same lines exactly if they differ in nothing but carriage returns in front
of line breaks and a break behind the last line. -/
theorem lines_eq_lines_iff :
    lines s = lines t ↔ closed (plainBreaks s) = closed (plainBreaks t) := by
  rw [← withBreaks_lines, ← withBreaks_lines]
  exact ⟨congrArg withBreaks,
    withBreaks_inj (fun _ => not_mem_of_mem_lines) (fun _ => not_mem_of_mem_lines)⟩

end ApiStencil.Text
