/-
ApiStencil/Proofs/Template/Enclosed.lean

Which text a condition in parentheses is.  `Enclosed s` says that every quote in `s`
is closed by the next one of its kind and that the parentheses outside quotes match.

Main result: behind an opening parenthesis, the reader takes the enclosed text up to
the parenthesis that closes it, and fails exactly if there is no such text
(`readCondition_eq_some_iff`, `readCondition_eq_none_iff`).

The reader counts the parentheses that are open.  What it takes at a depth closes as
many parentheses as were open before (`Closes`), and this is what the induction over
the text carries.
-/
import ApiStencil.Template.Directive
import Mathlib.Data.List.TakeWhile

namespace ApiStencil.Template

/-- Every quote is closed by the next one of its kind, and the parentheses outside quotes match. -/
inductive Enclosed : List Char → Prop
  | nil : Enclosed []
  | char {c : Char} {s : List Char} (hq : c ≠ '\'' ∧ c ≠ '"') (hp : c ≠ '(' ∧ c ≠ ')')
      (hs : Enclosed s) : Enclosed (c :: s)
  | quoted {quote : Char} {content s : List Char} (hq : quote = '\'' ∨ quote = '"')
      (hc : quote ∉ content) (hs : Enclosed s) : Enclosed (quote :: content ++ quote :: s)
  | parentheses {inner s : List Char} (hi : Enclosed inner) (hs : Enclosed s) :
      Enclosed ('(' :: inner ++ ')' :: s)

/-- Two enclosed texts are enclosed together. -/
theorem Enclosed.append {a b : List Char} (ha : Enclosed a) (hb : Enclosed b) :
    Enclosed (a ++ b) := by
  induction ha with
  | nil => exact hb
  | char hq hp _ ih => exact .char hq hp ih
  | @quoted quote content s hq hc _ ih =>
    have h : Enclosed (quote :: content ++ quote :: (s ++ b)) := .quoted hq hc ih
    simpa using h
  | @parentheses inner s hi _ _ ih =>
    have h : Enclosed ('(' :: inner ++ ')' :: (s ++ b)) := .parentheses hi ih
    simpa using h

/-- `Closes d s`: the text closes `d` parentheses that are open in front of it, and is enclosed
otherwise. -/
inductive Closes : Nat → List Char → Prop
  | enclosed {s : List Char} (h : Enclosed s) : Closes 0 s
  | close {d : Nat} {a b : List Char} (ha : Enclosed a) (hb : Closes d b) :
      Closes (d + 1) (a ++ ')' :: b)

namespace Closes

variable {d : Nat} {s : List Char}

/-- Any other character in front changes nothing. -/
theorem char {c : Char} (hq : c ≠ '\'' ∧ c ≠ '"') (hp : c ≠ '(' ∧ c ≠ ')') (h : Closes d s) :
    Closes d (c :: s) := by
  cases h with
  | enclosed h => exact .enclosed (.char hq hp h)
  | close ha hb => exact .close (.char hq hp ha) hb

/-- Neither does a text in quotes. -/
theorem quoted {quote : Char} {content : List Char} (hq : quote = '\'' ∨ quote = '"')
    (hc : quote ∉ content) (h : Closes d s) : Closes d (quote :: content ++ quote :: s) := by
  cases h with
  | enclosed h => exact .enclosed (.quoted hq hc h)
  | @close d a b ha hb =>
    have h : Closes (d + 1) ((quote :: content ++ quote :: a) ++ ')' :: b) :=
      .close (.quoted hq hc ha) hb
    simpa using h

/-- An opening parenthesis is closed by the first of the closing ones. -/
theorem parenthesis (h : Closes (d + 1) s) : Closes d ('(' :: s) := by
  obtain - | ⟨ha, hb⟩ := h
  cases hb with
  | enclosed hb => exact .enclosed (.parentheses ha hb)
  | @close d a' b' ha' hb' =>
    rename_i a
    have h : Closes (d + 1) (('(' :: a ++ ')' :: a') ++ ')' :: b') :=
      .close (.parentheses ha ha') hb'
    simpa using h

end Closes

/-! ### What the reader takes -/

/-- Inside a quote, the reader goes to the next one of its kind. -/
theorem readCondition_quote {quote : Char} {content : List Char} (hc : quote ∉ content) (d : Nat)
    (t : List Char) :
    readCondition ⟨d, some quote⟩ (content ++ quote :: t) =
      (readCondition ⟨d, none⟩ t).map fun p => (content ++ quote :: p.1, p.2) := by
  induction content with
  | nil => simp [readCondition, Nesting.step]
  | cons c content ih =>
    obtain ⟨hne, hc⟩ := not_or.1 (List.mem_cons.not.1 hc)
    rw [List.cons_append, readCondition]
    simp only [Nesting.step, if_neg (Ne.symm hne), ih hc, Option.map_map]
    rfl

/-- Enclosed text is taken whole, and the reader goes on behind it as it was. -/
theorem Enclosed.readCondition_append {c : List Char} (h : Enclosed c) (d : Nat) (t : List Char) :
    readCondition ⟨d, none⟩ (c ++ t) =
      (readCondition ⟨d, none⟩ t).map fun p => (c ++ p.1, p.2) := by
  induction h generalizing d t with
  | nil => simp
  | @char c s hq hp _ ih =>
    have hstep : Nesting.step ⟨d, none⟩ c = some ⟨d, none⟩ := by
      simp [Nesting.step, hq, hp]
    rw [List.cons_append, readCondition, hstep]
    simp only [ih, Option.map_map]
    rfl
  | @quoted quote content s hq hc _ ih =>
    have hstep : Nesting.step ⟨d, none⟩ quote = some ⟨d, some quote⟩ := by
      simp [Nesting.step, hq]
    rw [List.append_assoc, List.cons_append, readCondition, hstep]
    simp only [List.cons_append, readCondition_quote hc, ih, Option.map_map]
    congr
    funext p
    simp
  | @parentheses inner s _ _ ihi ihs =>
    -- one level deeper up to the closing parenthesis, which leads back
    have hopen : Nesting.step ⟨d, none⟩ '(' = some ⟨d + 1, none⟩ := by simp [Nesting.step]
    have hclose : Nesting.step ⟨d + 1, none⟩ ')' = some ⟨d, none⟩ := by simp [Nesting.step]
    rw [List.append_assoc, List.cons_append, readCondition, hopen]
    simp only [List.cons_append, ihi, readCondition, hclose, ihs, Option.map_map]
    congr
    funext p
    simp

/-- A character outside quotes that does not end the condition: the depth behind it, unless it
opens a quote. -/
theorem Nesting.step_eq_some {d : Nat} {c : Char} {n : Nesting}
    (h : Nesting.step ⟨d, none⟩ c = some n) :
    ((c = '\'' ∨ c = '"') ∧ n = ⟨d, some c⟩) ∨ (c = '(' ∧ n = ⟨d + 1, none⟩) ∨
      (c = ')' ∧ d = n.depth + 1 ∧ n.quote = none) ∨
      ((c ≠ '\'' ∧ c ≠ '"') ∧ (c ≠ '(' ∧ c ≠ ')') ∧ n = ⟨d, none⟩) := by
  simp only [Nesting.step] at h
  split at h
  · next hq => exact .inl ⟨hq, (Option.some.inj h).symm⟩
  · next hq =>
    split at h
    · next hc => exact .inr (.inl ⟨hc, (Option.some.inj h).symm⟩)
    · next ho =>
      split at h
      · next hc =>
        split at h
        · cases h
        · cases h
          exact .inr (.inr (.inl ⟨hc, rfl, rfl⟩))
      · next hc => exact .inr (.inr (.inr ⟨not_or.1 hq, ⟨ho, hc⟩, (Option.some.inj h).symm⟩))

/-- The reader stops outside quotes, with no parenthesis open. -/
theorem Nesting.eq_of_step_eq_none {n : Nesting} {c : Char} (h : n.step c = none) :
    n = ⟨0, none⟩ := by
  obtain ⟨d, quote⟩ := n
  -- inside quotes, the reader always goes on
  cases quote with
  | some q => cases h
  | none =>
    simp only [Nesting.step] at h
    split at h
    · cases h
    · split at h
      · cases h
      · split at h
        · split at h
          · rfl
          · cases h
        · cases h

/-- What the reader has to take at a nesting: it closes the quote and the parentheses that are
open. -/
def Nesting.Ends (n : Nesting) (c : List Char) : Prop :=
  match n.quote with
  | none => Closes n.depth c
  | some quote => ∃ content s, c = content ++ quote :: s ∧ quote ∉ content ∧ Closes n.depth s

/-- What the reader takes closes everything that is open. -/
theorem ends_of_readCondition {n : Nesting} {t c rest : List Char}
    (h : readCondition n t = some (c, rest)) : n.Ends c := by
  induction t generalizing n c with
  | nil => cases h
  | cons x t ih =>
    rw [readCondition] at h
    cases hx : n.step x with
    | none =>
      rw [hx] at h
      obtain ⟨rfl, -⟩ := Prod.mk.inj (Option.some.inj h)
      rw [Nesting.eq_of_step_eq_none hx]
      exact .enclosed .nil
    | some n' =>
      rw [hx] at h
      obtain ⟨⟨c', rest'⟩, hr, he⟩ := Option.map_eq_some_iff.1 h
      obtain ⟨rfl, rfl⟩ := Prod.mk.inj he
      have hends := ih hr
      obtain ⟨d, quote⟩ := n
      cases quote with
      | some q =>
        -- the quote ends here, or it goes on and the rest closes it
        cases hx
        by_cases hq : x = q
        · subst hq
          simp only [if_true] at hends
          exact ⟨[], c', rfl, List.not_mem_nil, hends⟩
        · simp only [if_neg hq] at hends
          obtain ⟨content, s, rfl, hc, hs⟩ := hends
          exact ⟨x :: content, s, rfl, by simp [hc, Ne.symm hq], hs⟩
      | none =>
        obtain ⟨hq, rfl⟩ | ⟨rfl, rfl⟩ | ⟨rfl, hd, hn⟩ | ⟨hq, hp, rfl⟩ := Nesting.step_eq_some hx
        · obtain ⟨content, s, rfl, hc, hs⟩ := hends
          exact hs.quoted hq hc
        · exact hends.parenthesis
        · obtain ⟨d', quote⟩ := n'
          dsimp only at hd hn
          subst hd hn
          exact .close .nil hends
        · exact hends.char hq hp

/-- A condition is the enclosed text up to the parenthesis that closes it. -/
theorem readCondition_eq_some_iff {t c rest : List Char} :
    readCondition ⟨0, none⟩ t = some (c, rest) ↔ Enclosed c ∧ t = c ++ ')' :: rest := by
  constructor
  · intro h
    have hends : Closes 0 c := ends_of_readCondition h
    cases hends with
    | enclosed hc => exact ⟨hc, readCondition_eq_some h⟩
  · rintro ⟨hc, rfl⟩
    have hstop : Nesting.step ⟨0, none⟩ ')' = none := by simp [Nesting.step]
    rw [hc.readCondition_append, readCondition, hstop]
    simp

/-- The parenthesis in front of the text is never closed. -/
def Unclosed (t : List Char) : Prop :=
  ∀ c rest, Enclosed c → t ≠ c ++ ')' :: rest

theorem readCondition_eq_none_iff {t : List Char} :
    readCondition ⟨0, none⟩ t = none ↔ Unclosed t := by
  simp only [Option.eq_none_iff_forall_ne_some, ne_eq, Prod.forall, readCondition_eq_some_iff,
    not_and, Unclosed]

instance : DecidablePred Enclosed := fun c =>
  decidable_of_iff (readCondition ⟨0, none⟩ (c ++ [')']) = some (c, [])) (by
    rw [readCondition_eq_some_iff, and_iff_left rfl])

instance : DecidablePred Unclosed := fun t =>
  decidable_of_iff (readCondition ⟨0, none⟩ t = none) readCondition_eq_none_iff

end ApiStencil.Template
