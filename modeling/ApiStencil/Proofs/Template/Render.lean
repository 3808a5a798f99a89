/-
ApiStencil/Proofs/Template/Render.lean

Writing fragments one after the other.  What has been written matters to the rest
in one way only: it tells whether a line starts (`render_append`).
-/
import ApiStencil.Template.Fragment

namespace ApiStencil.Template.Fragment

@[simp] theorem freshAfter_nil (fresh : Bool) : freshAfter fresh [] = fresh := rfl

/-- What is before a text does not matter unless the text is empty. -/
theorem freshAfter_of_ne_nil {s : List Char} (h : s ≠ []) (fresh fresh' : Bool) :
    freshAfter fresh s = freshAfter fresh' s := by
  rw [freshAfter, freshAfter, List.getLast?_eq_some_getLast h]

/-- Whether a line starts after two texts, one after the other. -/
theorem freshAfter_append (fresh : Bool) (s t : List Char) :
    freshAfter fresh (s ++ t) = freshAfter (freshAfter fresh s) t := by
  cases t with
  | nil => simp
  | cons c t =>
    rw [freshAfter_of_ne_nil (List.cons_ne_nil c t) (freshAfter fresh s) fresh, freshAfter,
      freshAfter, List.getLast?_append, List.getLast?_cons]
    rfl

@[simp] theorem freshAfter_append_break (fresh : Bool) (s : List Char) :
    freshAfter fresh (s ++ ['\n']) = true := by
  rw [freshAfter_append]
  rfl

/-! ### Guards -/

/-- Whether the fragment is a line of a guard. -/
def isGuard : Fragment → Bool
  | .text _ => false
  | .guardStart _ => true
  | .guardEnd => true

variable {f : Fragment} {fresh : Bool}

theorem guardLine_ends (h : f.isGuard = true) : ∃ s, f.guardLine = s ++ ['\n'] := by
  cases f with
  | text s => cases h
  | guardStart symbol =>
    refine ⟨"#if defined(".toList ++ symbol.toList ++ [')'], ?_⟩
    rw [List.append_assoc _ [')']]
    rfl
  | guardEnd => exact ⟨"#endif".toList, rfl⟩

/-- A guard starts on a new line, and a line starts after it. -/
theorem render_of_isGuard (h : f.isGuard = true) (r : List Fragment) :
    render fresh (f :: r) = (if fresh then [] else ['\n']) ++ f.guardLine ++ render true r := by
  cases f with
  | text s => cases h
  | guardStart symbol => rfl
  | guardEnd => rfl

/-- What a fragment holds besides guards. -/
def kept : Fragment → List Char
  | .text s => s
  | .guardStart _ => []
  | .guardEnd => []

/-- Without guards, the texts are written one after the other. -/
theorem render_of_isGuard_eq_false {l : List Fragment} (h : ∀ f ∈ l, f.isGuard = false) :
    render fresh l = l.flatMap kept := by
  induction l generalizing fresh with
  | nil => rfl
  | cons f l ih =>
    have hf := h f List.mem_cons_self
    cases f with
    | text s =>
      rw [render, ih fun f hf => h f (List.mem_cons_of_mem _ hf)]
      rfl
    | _ => cases hf

/-! ### Concatenation -/

/-- Fragments are written one after the other. -/
theorem render_append (fresh : Bool) (a b : List Fragment) :
    render fresh (a ++ b) =
      render fresh a ++ render (freshAfter fresh (render fresh a)) b := by
  induction a generalizing fresh with
  | nil => rfl
  | cons f a ih =>
    cases hf : f.isGuard with
    | false =>
      cases f with
      | text s => simp [render, ih, freshAfter_append]
      | _ => cases hf
    | true =>
      -- the line of the guard ends with a break, so both sides go on at the start of a line
      obtain ⟨s, hs⟩ := guardLine_ends hf
      rw [List.cons_append, render_of_isGuard hf, render_of_isGuard hf, ih, hs, ← List.append_assoc,
        ← List.append_assoc, freshAfter_append _ (_ ++ _ ++ ['\n']), freshAfter_append_break]

/-- Two texts are written as one. -/
theorem render_text_append (s t : List Char) (r : List Fragment) :
    render fresh (.text (s ++ t) :: r) = render fresh (.text s :: .text t :: r) := by
  simp only [render, freshAfter_append, List.append_assoc]

end ApiStencil.Template.Fragment
