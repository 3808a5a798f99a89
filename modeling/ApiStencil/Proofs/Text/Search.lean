/-
ApiStencil/Proofs/Text/Search.lean

What finding and cutting a text come to.  A needle is found exactly if it is an infix
(`occursIn_iff`), and a text in which the separator occurs is cut into two pieces at
least (`exists_splitAll_eq`).

The first occurrence is not behind any other one (`length_le_of_splitFirst`), and an
occurrence behind which no other one begins is the last (`splitLast_of_last`).
-/
import ApiStencil.Text.Search
import Mathlib.Data.List.Infix

namespace ApiStencil.Text

theorem isPrefixOf?_append {α : Type _} [BEq α] [LawfulBEq α] (front back : List α) :
    front.isPrefixOf? (front ++ back) = some back :=
  List.isPrefixOf?_eq_some_iff_append_eq.2 rfl

variable {α : Type _} [DecidableEq α] {needle text : List α}

/-- A needle is found exactly if the text has it as an infix. -/
theorem occursIn_iff : occursIn needle text = true ↔ needle <:+: text := by
  rw [occursIn, Option.isSome_iff_exists]
  constructor
  · rintro ⟨⟨before, after⟩, h⟩
    exact ⟨before, after, (splitFirst_eq_some h).symm⟩
  · intro h
    induction text with
    | nil =>
      rw [splitFirst, if_pos (List.infix_nil.1 h)]
      exact ⟨_, rfl⟩
    | cons c r ih =>
      rw [splitFirst]
      split
      · exact ⟨_, rfl⟩
      · next hnone =>
        -- the needle stands at the front, where it would have been found, or further on
        rcases List.infix_cons_iff.1 h with ⟨after, hp⟩ | hr
        · rw [List.isPrefixOf?_eq_some_iff_append_eq.2 hp] at hnone
          cases hnone
        · obtain ⟨p, hp⟩ := ih hr
          rw [hp]
          exact ⟨_, rfl⟩

/-! ### The first occurrence -/

theorem exists_splitFirst (p needle q : List α) :
    ∃ before after, splitFirst needle (p ++ needle ++ q) = some (before, after) := by
  have hoccurs : occursIn needle (p ++ needle ++ q) = true := occursIn_iff.2 ⟨p, q, rfl⟩
  obtain ⟨⟨before, after⟩, h⟩ := Option.isSome_iff_exists.1 hoccurs
  exact ⟨before, after, h⟩

theorem splitFirst_append_self (q : List α) : splitFirst needle (needle ++ q) = some ([], q) := by
  have hprefix := isPrefixOf?_append needle q
  cases htext : needle ++ q with
  | nil =>
    obtain ⟨rfl, rfl⟩ := List.append_eq_nil_iff.1 htext
    rfl
  | cons x r =>
    rw [htext] at hprefix
    rw [splitFirst, hprefix]

/-- The first occurrence is at or before any place where the needle stands. -/
theorem length_le_of_splitFirst {p q before after : List α}
    (h : splitFirst needle (p ++ needle ++ q) = some (before, after)) :
    before.length ≤ p.length := by
  induction p generalizing before with
  | nil =>
    rw [List.nil_append, splitFirst_append_self] at h
    cases h
    exact Nat.le_refl 0
  | cons x p ih =>
    rw [List.cons_append, List.cons_append, splitFirst] at h
    split at h
    · cases h
      exact Nat.zero_le _
    · obtain ⟨⟨b, a⟩, hs, he⟩ := Option.map_eq_some_iff.1 h
      cases he
      exact Nat.succ_le_succ (ih hs)

/-- Erasing a needle from a text that ends with it takes away its length, wherever it stands. -/
theorem length_eraseFirst_append : (eraseFirst needle (text ++ needle)).length = text.length := by
  obtain ⟨before, after, h⟩ := exists_splitFirst text needle []
  rw [List.append_nil] at h
  have hlength := congrArg List.length (splitFirst_eq_some h)
  rw [eraseFirst, h]
  simp only [List.length_append] at hlength ⊢
  omega

/-! ### The last occurrence -/

/-- A text in front does not change where the last occurrence is. -/
theorem splitLast_append {before after : List α}
    (h : splitLast needle text = some (before, after)) (front : List α) :
    splitLast needle (front ++ text) = some (front ++ before, after) := by
  induction front with
  | nil => exact h
  | cons c r ih =>
    rw [List.cons_append, splitLast, ih]
    rfl

/-- A needle that stands in a text has a last occurrence. -/
theorem exists_splitLast (a needle b : List α) :
    ∃ before after, splitLast needle (a ++ needle ++ b) = some (before, after) := by
  -- it is enough to find one from the given place on
  have h : ∃ before after, splitLast needle (needle ++ b) = some (before, after) := by
    have hp := isPrefixOf?_append needle b
    cases hs : needle ++ b with
    | nil =>
      rw [(List.append_eq_nil_iff.1 hs).1]
      exact ⟨[], [], rfl⟩
    | cons c r =>
      rw [splitLast, ← hs, hp]
      split
      · exact ⟨_, _, rfl⟩
      · exact ⟨_, _, rfl⟩
  obtain ⟨before, after, h⟩ := h
  rw [List.append_assoc]
  exact ⟨_, _, splitLast_append h a⟩

/-- An occurrence is the last one if the needle does not stand further to the right. -/
theorem splitLast_of_last {after : List α}
    (h : ∀ a b, needle ++ after = a ++ needle ++ b → a = []) (front : List α) :
    splitLast needle (front ++ (needle ++ after)) = some (front, after) := by
  obtain ⟨a, b, hs⟩ := exists_splitLast [] needle after
  rw [List.nil_append] at hs
  have he := splitLast_eq_some hs
  obtain rfl := h a b he
  rw [List.nil_append] at he
  obtain rfl := List.append_cancel_left he
  rw [splitLast_append hs front, List.append_nil]

/-! ### Cutting at a separator -/

theorem splitAll_ne_nil (first : α) (more text : List α) : splitAll first more text ≠ [] := by
  rw [splitAll]
  split <;> exact List.cons_ne_nil _ _

/-- A text without the separator is one piece. -/
theorem splitAll_of_eq_none {first : α} {more : List α}
    (h : splitFirst (first :: more) text = none) : splitAll first more text = [text] := by
  rw [splitAll]
  split
  · next hsome =>
    rw [h] at hsome
    cases hsome
  · rfl

/-- Cutting goes on behind the first separator. -/
theorem splitAll_of_eq_some {first : α} {more before after : List α}
    (h : splitFirst (first :: more) text = some (before, after)) :
    splitAll first more text = before :: splitAll first more after := by
  rw [splitAll]
  split
  · next hsome =>
    rw [h] at hsome
    cases hsome
    rfl
  · next hnone =>
    rw [h] at hnone
    cases hnone

/-- A text in which the separator occurs has two pieces at least. -/
theorem exists_splitAll_eq {first : α} {more : List α} (h : first :: more <:+: text) :
    ∃ a b pieces, splitAll first more text = a :: b :: pieces := by
  obtain ⟨⟨before, after⟩, hsplit⟩ := Option.isSome_iff_exists.1 (occursIn_iff.2 h)
  obtain ⟨b, pieces, hrest⟩ := List.exists_cons_of_ne_nil (splitAll_ne_nil first more after)
  exact ⟨before, b, pieces, hrest ▸ splitAll_of_eq_some hsplit⟩

end ApiStencil.Text
