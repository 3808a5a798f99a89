/-
ApiStencil/Proofs/Distinct.lean

More on keeping the first of several items with the same key: which items are kept
(`mem_firstPer_iff`) and which keys (`mem_keys_firstPer_iff`), how the keys of one list
leave out items of the next (`nodup_append_firstPer`), what happens to a list without
repeated keys (`firstPer_eq_self`), that items whose keys are taken may as well be absent
(`firstPer_append_of_mem`), and that items of two lists that correspond are kept or
left out together (`forall₂_firstPer`).  Adding items one by one, each unless its key is
taken, keeps the first of each key (`foldl_addNew`).
-/
import ApiStencil.Distinct
import Mathlib.Data.List.Forall2
import Mathlib.Data.List.Nodup

namespace ApiStencil

universe u v

variable {α : Type u} {κ : Type v} [DecidableEq κ] {key : α → κ} {seen : List κ} {l : List α}

/-- The first items of new keys bring new keys only, and none of them twice. -/
theorem nodup_append_firstPer (h : seen.Nodup) : (seen ++ (firstPer key seen l).map key).Nodup := by
  refine List.nodup_append.2 ⟨h, nodup_keys_firstPer key seen l, ?_⟩
  rintro k hk k' hk' rfl
  obtain ⟨a, ha, rfl⟩ := List.mem_map.1 hk'
  exact key_not_mem_of_mem_firstPer ha hk

/-- If the key of an item is a function of its name, no name is kept twice. -/
theorem nodup_map_firstPer {σ : Type v} (f : σ → κ) (name : α → σ) (seen : List κ) (l : List α) :
    ((firstPer (fun a => f (name a)) seen l).map name).Nodup := by
  refine List.Nodup.of_map f ?_
  rw [List.map_map]
  exact nodup_keys_firstPer _ seen l

/-- Nothing is left out of a list whose keys are new and all different. -/
theorem firstPer_eq_self (h : (seen ++ l.map key).Nodup) : firstPer key seen l = l := by
  induction l generalizing seen with
  | nil => rfl
  | cons a r ih =>
    have hp : (key a :: seen ++ r.map key).Nodup := List.perm_middle.nodup_iff.1 h
    have ha : key a ∉ seen := fun hs =>
      (List.nodup_cons.1 hp).1 (List.mem_append_left _ hs)
    rw [firstPer, if_neg ha, ih hp]

/-- An item is kept if its key is new and no item in front has it. -/
theorem mem_firstPer_iff {a : α} :
    a ∈ firstPer key seen l ↔ key a ∉ seen ∧ l.find? (key · = key a) = some a := by
  induction l generalizing seen with
  | nil => simp [firstPer]
  | cons b r ih =>
    rw [firstPer, List.find?_cons]
    by_cases hk : key b = key a
    · -- `b` has the key of `a`, so only `b` itself can be kept
      rw [hk, decide_eq_true rfl]
      by_cases hs : key a ∈ seen
      · simp [hs, ih]
      · simp [hs, ih, eq_comm]
    · have hne : a ≠ b := fun h => hk (h ▸ rfl)
      rw [decide_eq_false hk]
      split
      · exact ih
      · rw [List.mem_cons, or_iff_right hne, ih, List.mem_cons, or_iff_right (Ne.symm hk)]

/-- Of the new keys of a list, none is lost. -/
theorem mem_keys_firstPer_iff {k : κ} :
    k ∈ (firstPer key seen l).map key ↔ k ∉ seen ∧ k ∈ l.map key := by
  constructor
  · intro h
    obtain ⟨a, ha, rfl⟩ := List.mem_map.1 h
    exact ⟨key_not_mem_of_mem_firstPer ha,
      List.mem_map_of_mem ((firstPer_sublist key seen l).subset ha)⟩
  · rintro ⟨hk, h⟩
    obtain ⟨a, ha, rfl⟩ := List.mem_map.1 h
    have hfound : (l.find? (key · = key a)).isSome :=
      List.find?_isSome.2 ⟨a, ha, decide_eq_true rfl⟩
    rw [← find?_firstPer key l hk, List.find?_isSome] at hfound
    obtain ⟨b, hb, hkey⟩ := hfound
    exact List.mem_map.2 ⟨b, hb, of_decide_eq_true hkey⟩

/-- If the key of an item is a function of its name, a kept item is the first of its name. -/
theorem find?_of_mem_firstPer {σ : Type v} [DecidableEq σ] {f : σ → κ} {name : α → σ} {a : α}
    (h : a ∈ firstPer (fun a => f (name a)) seen l) : l.find? (name · = name a) = some a := by
  obtain ⟨-, front, back, hl, hfront⟩ := List.find?_eq_some_iff_append.1 (mem_firstPer_iff.1 h).2
  refine List.find?_eq_some_iff_append.2 ⟨decide_eq_true rfl, front, back, hl, fun b hb => ?_⟩
  have hk : f (name b) ≠ f (name a) := by simpa using hfront b hb
  have hn : name b ≠ name a := fun h => hk (congrArg f h)
  rw [decide_eq_false hn, Bool.not_false]

/-- Only which keys are taken matters, not their order. -/
theorem firstPer_congr {seen' : List κ} (h : ∀ k, k ∈ seen ↔ k ∈ seen') :
    firstPer key seen l = firstPer key seen' l := by
  induction l generalizing seen seen' with
  | nil => rfl
  | cons a r ih =>
    have hcons : ∀ k, k ∈ key a :: seen ↔ k ∈ key a :: seen' := by
      intro k
      rw [List.mem_cons, List.mem_cons, h]
    rw [firstPer, firstPer, ih h, ih hcons]
    simp only [h]

/-- Items at the end whose keys are taken by then are left out. -/
theorem firstPer_append_of_mem {l' : List α} (h : ∀ a ∈ l', key a ∈ seen ++ l.map key) :
    firstPer key seen (l ++ l') = firstPer key seen l := by
  -- the keys of `l` are taken one by one, so the induction is for any keys that are taken already
  induction l generalizing seen with
  | nil =>
    rw [List.map_nil, List.append_nil] at h
    induction l' with
    | nil => rfl
    | cons a r ih =>
      obtain ⟨ha, hr⟩ := List.forall_mem_cons.1 h
      show firstPer key seen (a :: r) = []
      rw [firstPer, if_pos ha]
      exact ih hr
  | cons b r ih =>
    rw [List.cons_append, firstPer, firstPer]
    split
    · next hb =>
      refine ih fun a ha => ?_
      rcases List.mem_append.1 (h a ha) with hs | hs
      · exact List.mem_append_left _ hs
      · rw [List.map_cons, List.mem_cons] at hs
        rcases hs with hs | hs
        · exact List.mem_append_left _ (hs ▸ hb)
        · exact List.mem_append_right _ hs
    · refine congrArg _ (ih fun a ha => ?_)
      exact List.perm_middle.mem_iff.1 (h a ha)

/-- In lists that correspond with equal keys, the first items of the keys correspond. -/
theorem forall₂_firstPer {β : Type u} {key' : β → κ} {R : α → β → Prop} {l' : List β}
    (hk : ∀ a b, R a b → key a = key' b) (h : List.Forall₂ R l l') :
    List.Forall₂ R (firstPer key seen l) (firstPer key' seen l') := by
  induction h generalizing seen with
  | nil => exact .nil
  | cons hr _ ih =>
    rw [firstPer, firstPer, hk _ _ hr]
    split
    · exact ih
    · exact .cons hr ih

/-! ### Adding items one by one -/

/-- Adds an item unless its key is taken. -/
def addNew (key : α → κ) (kept : List α) (a : α) : List α :=
  if key a ∈ kept.map key then kept else kept ++ [a]

/-- Adding a list item by item leaves what was kept, and the first item of each new key behind
it. -/
theorem foldl_addNew (kept : List α) :
    l.foldl (addNew key) kept = kept ++ firstPer key (kept.map key) l := by
  induction l generalizing kept with
  | nil => exact (List.append_nil _).symm
  | cons a r ih =>
    rw [List.foldl_cons, ih, addNew, firstPer]
    split
    · rfl
    -- the key comes last among those that are kept and first among those that are taken
    · have hs : ∀ k, k ∈ (kept ++ [a]).map key ↔ k ∈ key a :: kept.map key := by
        intro k
        rw [List.map_append, List.mem_append, List.mem_cons, List.map_singleton,
          List.mem_singleton, or_comm]
      rw [firstPer_congr hs, List.append_assoc, List.singleton_append]

end ApiStencil
