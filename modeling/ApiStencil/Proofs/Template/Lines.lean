/-
ApiStencil/Proofs/Template/Lines.lean

The last and the first line of a text, over concatenation.  A line break on the
right decides the last line of the whole, and without one the right part is added
to the last line of the left (`lastLine_append_of_mem`,
`lastLine_append_of_not_mem`).
-/
import ApiStencil.Template.Segment
import Mathlib.Data.List.TakeWhile

namespace ApiStencil.Template

open Text

namespace Segment

variable {a b s : List Char}

/-! ### The last line -/

@[simp] theorem lastLine_nil : lastLine [] = [] := rfl

/-- A break on the right decides the last line. -/
theorem lastLine_append_of_mem (h : '\n' ∈ b) : lastLine (a ++ b) = lastLine b := by
  have hb : '\n' ∈ b.reverse := List.mem_reverse.2 h
  -- read from its end, the text meets the break before it has gone through `b`
  have hn : ¬ (b.reverse.takeWhile (· ≠ '\n')).length = b.reverse.length := by
    intro hl
    have hprefix := List.takeWhile_prefix (fun c => decide (c ≠ '\n')) (l := b.reverse)
    have hall := hprefix.eq_of_length hl
    have := List.mem_takeWhile_imp (hall.symm ▸ hb)
    simp at this
  rw [lastLine, lastLine, List.reverse_append, List.takeWhile_append, if_neg hn]

/-- Where the last line is that of the right part, the left part stands above it. -/
theorem throughLastBreak_append (h : lastLine (a ++ b) = lastLine b) :
    throughLastBreak (a ++ b) = a ++ throughLastBreak b := by
  have h1 := throughLastBreak_append_lastLine (a ++ b)
  have h2 := throughLastBreak_append_lastLine b
  rw [h] at h1
  refine (List.append_left_inj (lastLine b)).1 ?_
  rw [h1, List.append_assoc, h2]

/-- Without one, the right part goes on with the last line of the left. -/
theorem lastLine_append_of_not_mem (h : '\n' ∉ b) : lastLine (a ++ b) = lastLine a ++ b := by
  have hb : ∀ c ∈ b.reverse, decide (c ≠ '\n') = true := by
    intro c hc
    rw [List.mem_reverse] at hc
    exact decide_eq_true fun e => h (e ▸ hc)
  rw [lastLine, lastLine, List.reverse_append, List.takeWhile_append_of_pos hb,
    List.reverse_append, List.reverse_reverse]

theorem lastLine_eq_self (h : '\n' ∉ s) : lastLine s = s := by
  have := lastLine_append_of_not_mem (a := []) h
  simpa using this

@[simp] theorem lastLine_append_break (s : List Char) : lastLine (s ++ ['\n']) = [] :=
  lastLine_append_of_mem (b := ['\n']) (by simp)

/-- A line starts after a text exactly if it is empty or ends with a break. -/
theorem lastLine_eq_nil_iff : lastLine s = [] ↔ s = [] ∨ s.getLast? = some '\n' := by
  rcases List.eq_nil_or_concat s with rfl | ⟨t, c, rfl⟩
  · simp
  · by_cases hc : c = '\n'
    · simp [hc]
    · rw [List.concat_eq_append, lastLine_append_of_not_mem (by simpa using fun e => hc e.symm)]
      simp [hc]

theorem lastLine_append_of_eq_nil (h : lastLine a = []) : lastLine (a ++ b) = lastLine b := by
  by_cases hb : '\n' ∈ b
  · exact lastLine_append_of_mem hb
  · rw [lastLine_append_of_not_mem hb, h, lastLine_eq_self hb, List.nil_append]

/-! ### The first line -/

/-- What the first line of a text holds, with its break. -/
theorem inFrontOf_afterFirstBreak (s : List Char) :
    inFrontOf (afterFirstBreak s) s ++ afterFirstBreak s = s :=
  inFrontOf_suffix (afterFirstBreak_suffix s)

theorem afterFirstBreak_eq_nil (h : '\n' ∉ s) : afterFirstBreak s = [] := by
  have hs : ∀ c ∈ s, decide (c ≠ '\n') = true := fun c hc => decide_eq_true fun e => h (e ▸ hc)
  rw [afterFirstBreak, List.dropWhile_eq_nil_iff.2 hs, List.drop_nil]

/-- A text is its first line, the break and what is behind it. -/
theorem firstLine_append_break (h : '\n' ∈ s) :
    s = firstLine s ++ '\n' :: afterFirstBreak s := by
  have hs := List.takeWhile_append_dropWhile (p := fun c => decide (c ≠ '\n')) (l := s)
  rcases hd : s.dropWhile (fun c => decide (c ≠ '\n')) with - | ⟨c, r⟩
  · rw [hd, List.append_nil] at hs
    have := List.mem_takeWhile_imp (hs.symm ▸ h)
    simp at this
  · have hc : c = '\n' := by
      have := List.head?_dropWhile_not (fun c => decide (c ≠ '\n')) s
      rw [hd] at this
      simpa using this
    rw [hd, hc] at hs
    rw [firstLine, afterFirstBreak, hd]
    exact hs.symm

/-- The first line with its break, where it has one. -/
theorem inFrontOf_afterFirstBreak_of_mem (h : '\n' ∈ s) :
    inFrontOf (afterFirstBreak s) s = firstLine s ++ ['\n'] := by
  refine (List.append_left_inj (afterFirstBreak s)).1 ?_
  rw [inFrontOf_afterFirstBreak, List.append_assoc]
  exact firstLine_append_break h

theorem firstLine_eq_self (h : '\n' ∉ s) : firstLine s = s := by
  rw [firstLine, List.takeWhile_eq_self_iff]
  exact fun c hc => decide_eq_true fun e => h (e ▸ hc)

/-- A text without a break is its first line. -/
theorem inFrontOf_afterFirstBreak_of_not_mem (h : '\n' ∉ s) :
    inFrontOf (afterFirstBreak s) s = firstLine s := by
  have := inFrontOf_afterFirstBreak s
  rw [afterFirstBreak_eq_nil h, List.append_nil] at this
  rw [afterFirstBreak_eq_nil h, this, firstLine_eq_self h]

end Segment

end ApiStencil.Template
