/-
ApiStencil/Proofs/Text/Run.lean

Runs of characters of a class.  A run goes up to the first character outside of the class, so
there is only one way to cut a text behind it (`run_unique`).  A run at the end of a text goes back
to the last such character (`reverse_dropWhile_append_of_stop`).
-/
import Mathlib.Data.List.TakeWhile

namespace ApiStencil.Text

variable {p : Char → Bool} {s t rest rest' : List Char}

theorem ne_of_class {c d : Char} (hc : p c = true) (hd : p d = false) : c ≠ d := by
  rintro rfl
  rw [hc] at hd
  cases hd

theorem not_mem_of_class {c : Char} (hs : ∀ x ∈ s, p x = true) (hc : p c = false) : c ∉ s :=
  fun hm => ne_of_class (hs c hm) hc rfl

/-- A run is taken up to where it stops. -/
theorem takeWhile_append_of_stop (hs : ∀ x ∈ s, p x = true) (hr : ∀ x ∈ rest.head?, p x = false) :
    (s ++ rest).takeWhile p = s := by
  rw [List.takeWhile_append_of_pos hs]
  cases rest with
  | nil => simp
  | cons x rest => simp [hr x rfl]

/-- What is left behind a run begins where it stops. -/
theorem dropWhile_append_of_stop (hs : ∀ x ∈ s, p x = true) (hr : ∀ x ∈ rest.head?, p x = false) :
    (s ++ rest).dropWhile p = rest := by
  rw [List.dropWhile_append_of_pos hs]
  cases rest with
  | nil => simp
  | cons x rest => simp [hr x rfl]

theorem head?_dropWhile_stops (s : List Char) : ∀ x ∈ (s.dropWhile p).head?, p x = false := by
  intro x hx
  have h := List.head?_dropWhile_not p s
  rw [Option.mem_def.1 hx] at h
  simpa using h

theorem head?_nil_stops : ∀ x ∈ ([] : List Char).head?, p x = false := nofun

theorem head?_cons_stops {c : Char} (h : p c = false) : ∀ x ∈ (c :: s).head?, p x = false := by
  rintro x ⟨⟩
  exact h

theorem head?_append_stops (hs : ∀ x ∈ s.head?, p x = false) (hr : ∀ x ∈ rest.head?, p x = false) :
    ∀ x ∈ (s ++ rest).head?, p x = false := by
  cases s with
  | nil => exact hr
  | cons c s => exact hs

/-- A text is cut behind a run in one way only: two runs that stop where they should are the
same. -/
theorem run_unique (hs : ∀ x ∈ s, p x = true) (ht : ∀ x ∈ t, p x = true)
    (hr : ∀ x ∈ rest.head?, p x = false) (hr' : ∀ x ∈ rest'.head?, p x = false)
    -- both are what is taken of the whole text
    (h : s ++ rest = t ++ rest') : s = t ∧ rest = rest' := by
  constructor
  · rw [← takeWhile_append_of_stop hs hr, h, takeWhile_append_of_stop ht hr']
  · rw [← dropWhile_append_of_stop hs hr, h, dropWhile_append_of_stop ht hr']

theorem getLast?_append_stops (hs : ∀ x ∈ s.getLast?, p x = false)
    (hr : ∀ x ∈ rest.getLast?, p x = false) : ∀ x ∈ (s ++ rest).getLast?, p x = false := by
  rw [List.getLast?_eq_head?_reverse] at hs hr ⊢
  rw [List.reverse_append]
  exact head?_append_stops hr hs

/-- A run at the end is dropped up to the last character outside of the class. -/
theorem reverse_dropWhile_append_of_stop (hs : ∀ x ∈ s.getLast?, p x = false)
    (ht : ∀ x ∈ t, p x = true) : ((s ++ t).reverse.dropWhile p).reverse = s := by
  have hrun : ∀ x ∈ t.reverse, p x = true := fun x hx => ht x (List.mem_reverse.1 hx)
  have hstop : ∀ x ∈ s.reverse.head?, p x = false := by
    rw [List.head?_reverse]
    exact hs
  rw [List.reverse_append, dropWhile_append_of_stop hrun hstop, List.reverse_reverse]

end ApiStencil.Text
