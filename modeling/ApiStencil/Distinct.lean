/-
ApiStencil/Distinct.lean

Keeping the first of several items with the same key.  Registries declare things
more than once, and everywhere the first declaration counts.

`firstPer_sublist`, `nodup_keys_firstPer` and `find?_firstPer` pin the function
down: it keeps the order, keeps no key twice, and keeps for every key the item
that comes first.
-/

namespace ApiStencil

universe u v

variable {α : Type u} {κ : Type v} [DecidableEq κ]

/-- The items whose key is neither in `seen` nor the key of an earlier item. -/
def firstPer (key : α → κ) (seen : List κ) : List α → List α
  | [] => []
  | a :: r => if key a ∈ seen then firstPer key seen r else a :: firstPer key (key a :: seen) r

theorem firstPer_sublist (key : α → κ) (seen : List κ) (l : List α) :
    (firstPer key seen l).Sublist l := by
  induction l generalizing seen with
  | nil => exact List.Sublist.slnil
  | cons a r ih =>
    rw [firstPer]
    split
    · exact (ih seen).cons a
    · exact (ih _).cons_cons a

theorem key_not_mem_of_mem_firstPer {key : α → κ} {seen : List κ} {l : List α} {a : α}
    (h : a ∈ firstPer key seen l) : key a ∉ seen := by
  induction l generalizing seen with
  | nil => simp [firstPer] at h
  | cons b r ih =>
    rw [firstPer] at h
    split at h
    · exact ih h
    · next hb =>
      rcases List.mem_cons.1 h with rfl | h
      · exact hb
      · exact fun hs => ih h (List.mem_cons_of_mem _ hs)

theorem nodup_keys_firstPer (key : α → κ) (seen : List κ) (l : List α) :
    ((firstPer key seen l).map key).Nodup := by
  induction l generalizing seen with
  | nil => exact List.nodup_nil
  | cons a r ih =>
    rw [firstPer]
    split
    · exact ih seen
    · rw [List.map_cons, List.nodup_cons]
      refine ⟨?_, ih _⟩
      intro hm
      obtain ⟨b, hb, hk⟩ := List.mem_map.1 hm
      exact key_not_mem_of_mem_firstPer hb (by simp [hk])

/-- Items that keep their keys when they are changed are kept or left out as before. -/
theorem firstPer_map {β : Type _} {key : α → κ} {key' : β → κ} {f : α → β}
    (h : ∀ a, key' (f a) = key a) (seen : List κ) (l : List α) :
    firstPer key' seen (l.map f) = (firstPer key seen l).map f := by
  induction l generalizing seen with
  | nil => rfl
  | cons a r ih =>
    rw [List.map_cons, firstPer, firstPer, h]
    split
    · exact ih seen
    · rw [List.map_cons, ih]

/-- For every key that is not in `seen` the first item with it is kept. -/
theorem find?_firstPer (key : α → κ) {seen : List κ} (l : List α) {k : κ} (hk : k ∉ seen) :
    (firstPer key seen l).find? (key · = k) = l.find? (key · = k) := by
  induction l generalizing seen with
  | nil => rfl
  | cons a r ih =>
    rw [firstPer]
    by_cases hka : key a = k
    · have : key a ∉ seen := hka ▸ hk
      rw [if_neg this, List.find?_cons, List.find?_cons]
      simp [hka]
    · split
      · rw [ih hk, List.find?_cons]
        simp [hka]
      · have hk' : k ∉ key a :: seen := by
          simp only [List.mem_cons, not_or]
          exact ⟨fun e => hka e.symm, hk⟩
        rw [List.find?_cons, List.find?_cons]
        simp [hka, ih hk']

end ApiStencil
