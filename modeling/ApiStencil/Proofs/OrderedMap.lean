/-
ApiStencil/Proofs/OrderedMap.lean

Lookup in a map made from others: each operation has one equation through `get?`.
A map made from a list whose keys are all different has the entries of that list
(`entries_ofList`).  Maps that are made in the same way from related values are related
key by key (`Related`).
-/
import ApiStencil.OrderedMap
import Mathlib.Data.List.Forall2

namespace ApiStencil.OrderedMap

universe u v

variable {α : Type u} {β : Type v} (m : OrderedMap α) (key : String)

/-- Nothing is found under a key that no entry has. -/
theorem find_eq_none {key : String} {l : List (String × α)} (h : key ∉ l.map Prod.fst) :
    find key l = none := by
  induction l with
  | nil => rfl
  | cons e r ih =>
    rw [List.map_cons, List.mem_cons, not_or] at h
    obtain ⟨hk, hr⟩ := h
    rw [find, if_neg (Ne.symm hk), ih hr]

/-- After a list with distinct keys is added, it is looked up before the map is. -/
theorem get?_insertAll {l : List (String × α)} (h : (l.map Prod.fst).Nodup) :
    (m.insertAll l).get? key = (find key l).or (m.get? key) := by
  induction l generalizing m with
  | nil => rfl
  | cons e r ih =>
    obtain ⟨hk, hr⟩ := List.nodup_cons.1 h
    rw [insertAll, List.foldl_cons, ← insertAll, ih _ hr, get?_insert, find]
    split
    -- the key is that of the first entry, which no later one has
    · next he =>
      rw [find_eq_none (he ▸ hk)]
      rfl
    · rfl

/-- The keys after a list is added are those of the map and of the list, repeated or not. -/
theorem mem_keys_insertAll (l : List (String × α)) :
    key ∈ (m.insertAll l).keys ↔ key ∈ m.keys ∨ key ∈ l.map Prod.fst := by
  induction l generalizing m with
  | nil => simp [insertAll]
  | cons e r ih =>
    rw [insertAll, List.foldl_cons, ← insertAll, ih, keys_insert, List.map_cons, List.mem_cons]
    -- a key that is there already keeps its place, a new one comes last
    by_cases h : e.1 ∈ m.keys
    · rw [if_pos h]
      constructor
      · exact Or.imp_right Or.inr
      · rintro (hk | rfl | hk)
        · exact .inl hk
        · exact .inl h
        · exact .inr hk
    · rw [if_neg h, List.mem_append, List.mem_singleton, or_assoc]

theorem mem_keys_ofList {l : List (String × α)} : key ∈ (ofList l).keys ↔ key ∈ l.map Prod.fst :=
  (mem_keys_insertAll ∅ key l).trans (or_iff_right List.not_mem_nil)

/-- What holds of all entries of a list holds of what is found in the map made from it. -/
theorem forall_get?_ofList {P : String → α → Prop} {l : List (String × α)}
    (h : ∀ e ∈ l, P e.1 e.2) : ∀ key a, (ofList l).get? key = some a → P key a := by
  -- on the list, for any map that the entries are inserted into
  have hinsert : ∀ m : OrderedMap α, (∀ key a, m.get? key = some a → P key a) →
      ∀ key a, (m.insertAll l).get? key = some a → P key a := by
    induction l with
    | nil => exact fun _ hm => hm
    | cons e r ih =>
      obtain ⟨he, hr⟩ := List.forall_mem_cons.1 h
      intro m hm
      refine ih hr (m.insert e.1 e.2) fun key a ha => ?_
      rw [get?_insert] at ha
      split at ha
      · next hk =>
        cases ha
        exact hk ▸ he
      · exact hm key a ha
  exact hinsert ∅ nofun

theorem exists_get?_of_mem_values {a : α} (h : a ∈ m.values) : ∃ key, m.get? key = some a := by
  obtain ⟨⟨key, _⟩, hmem, rfl⟩ := List.mem_map.1 h
  exact ⟨key, get?_eq_some_iff_mem.2 hmem⟩

theorem mem_values_of_get? {key : String} {a : α} (h : m.get? key = some a) : a ∈ m.values :=
  List.mem_map.2 ⟨_, get?_eq_some_iff_mem.1 h, rfl⟩

/-- The values of the added map win. -/
theorem get?_union (other : OrderedMap α) :
    (m.union other).get? key = (other.get? key).or (m.get? key) :=
  m.get?_insertAll key other.nodup_keys

/-- Lookup does not depend on the order of the entries. -/
theorem get?_eq_of_perm {m n : OrderedMap α} (h : m.entries.Perm n.entries) (key : String) :
    m.get? key = n.get? key := by
  refine Option.ext fun a => ?_
  rw [get?_eq_some_iff_mem, get?_eq_some_iff_mem, h.mem_iff]

/-- Maps in which the same is found have the same keys. -/
theorem perm_keys_of_get?_eq {m n : OrderedMap α} (h : ∀ key, m.get? key = n.get? key) :
    m.keys.Perm n.keys := by
  refine (List.perm_ext_iff_of_nodup m.nodup_keys n.nodup_keys).2 fun key => ?_
  rw [← keys, ← keys, ← contains_iff_mem_keys, ← contains_iff_mem_keys, contains, contains, h]

theorem size_eq_of_get?_eq {m n : OrderedMap α} (h : ∀ key, m.get? key = n.get? key) :
    m.size = n.size := by
  have hlength := (perm_keys_of_get?_eq h).length_eq
  rwa [keys, keys, List.length_map, List.length_map] at hlength

theorem find_map (f : α → β) (l : List (String × α)) :
    find key (l.map fun e => (e.1, f e.2)) = (find key l).map f := by
  induction l with
  | nil => rfl
  | cons e r ih =>
    rw [List.map_cons, find, find, ih]
    split <;> rfl

theorem get?_map (f : α → β) : (m.map f).get? key = (m.get? key).map f :=
  find_map key f m.entries

theorem bind_get?_map (f : α → β) (key? : Option String) :
    key?.bind (m.map f).get? = (key?.bind m.get?).map f := by
  cases key? with
  | none => rfl
  | some key => exact m.get?_map key f

theorem values_map (f : α → β) : (m.map f).values = m.values.map f := by
  simp [values, map, Function.comp_def]

theorem keys_map (f : α → β) : (m.map f).keys = m.keys := by
  simp [keys, map, Function.comp_def]

/-! ### Lists without repeated keys -/

/-- A new key comes last. -/
theorem put_of_not_mem {key : String} {value : α} {l : List (String × α)}
    (h : key ∉ l.map Prod.fst) : put key value l = l ++ [(key, value)] := by
  induction l with
  | nil => rfl
  | cons e r ih =>
    rw [List.map_cons, List.mem_cons, not_or] at h
    obtain ⟨hk, hr⟩ := h
    rw [put, if_neg (Ne.symm hk), ih hr, List.cons_append]

/-- Entries with new keys are added in their order behind those of the map. -/
theorem entries_insertAll {l : List (String × α)} (h : (m.keys ++ l.map Prod.fst).Nodup) :
    (m.insertAll l).entries = m.entries ++ l := by
  induction l generalizing m with
  | nil => exact (List.append_nil _).symm
  | cons e r ih =>
    have hk : e.1 ∉ m.keys := fun hm =>
      (List.nodup_append.1 h).2.2 e.1 hm e.1 List.mem_cons_self rfl
    have he : (m.insert e.1 e.2).entries = m.entries ++ [e] := put_of_not_mem hk
    have hn : ((m.insert e.1 e.2).keys ++ r.map Prod.fst).Nodup := by
      rw [keys_insert, if_neg hk, List.append_assoc]
      exact h
    rw [insertAll, List.foldl_cons, ← insertAll, ih _ hn, he, List.append_assoc]
    rfl

theorem entries_ofList {l : List (String × α)} (h : (l.map Prod.fst).Nodup) :
    (ofList l).entries = l :=
  (entries_insertAll ∅ h).trans (List.nil_append l)

/-! ### Related maps -/

section

variable {R : α → β → Prop} {m : OrderedMap α} {n : OrderedMap β}

/-- Whether two maps have the same keys in the same order, with related values. -/
def Related (R : α → β → Prop) (m : OrderedMap α) (n : OrderedMap β) : Prop :=
  List.Forall₂ (fun e e' => e'.1 = e.1 ∧ R e.2 e'.2) m.entries n.entries

/-- Putting related values under a key keeps maps related, whether or not the key is there. -/
theorem Related.insert (h : m.Related R n) (key : String) {a : α} {b : β} (hab : R a b) :
    (m.insert key a).Related R (n.insert key b) := by
  -- on the lists of entries, as keys are compared entry by entry
  have hput : ∀ l l', List.Forall₂ (fun e e' => e'.1 = e.1 ∧ R e.2 e'.2) l l' →
      List.Forall₂ (fun e e' => e'.1 = e.1 ∧ R e.2 e'.2) (put key a l) (put key b l') := by
    intro l l' h
    induction h with
    | nil => exact .cons ⟨rfl, hab⟩ .nil
    | @cons e e' r r' he hr ih =>
      rw [put, put, he.1]
      split
      · exact .cons ⟨rfl, hab⟩ hr
      · exact .cons ⟨rfl, he.2⟩ ih
  exact hput _ _ h

/-- Lists that correspond entry by entry make related maps. -/
theorem related_ofList {l : List (String × α)} {l' : List (String × β)}
    (h : List.Forall₂ (fun e e' => e'.1 = e.1 ∧ R e.2 e'.2) l l') :
    (ofList l).Related R (ofList l') := by
  refine List.rel_foldl (fun m n hmn e e' he => ?_) .nil h
  rw [he.1]
  exact hmn.insert e.1 he.2

theorem Related.map {γ : Type _} {δ : Type _} {S : γ → δ → Prop} {f : α → γ} {g : β → δ}
    (h : m.Related R n) (hf : ∀ a b, R a b → S (f a) (g b)) :
    (m.map f).Related S (n.map g) :=
  List.rel_map (fun _ _ he => ⟨he.1, hf _ _ he.2⟩) h

/-- In related maps, what is found under a key is related, or nothing is found in both. -/
theorem Related.get? (h : m.Related R n) (key : String) :
    Option.Rel R (m.get? key) (n.get? key) := by
  -- as for `Related.insert`, on the lists of entries
  have hfind : ∀ l l', List.Forall₂ (fun e e' => e'.1 = e.1 ∧ R e.2 e'.2) l l' →
      Option.Rel R (find key l) (find key l') := by
    intro l l' h
    induction h with
    | nil => exact .none
    | cons he _ ih =>
      rw [find, find, he.1]
      split
      · exact .some he.2
      · exact ih
  exact hfind _ _ h

end

end ApiStencil.OrderedMap
