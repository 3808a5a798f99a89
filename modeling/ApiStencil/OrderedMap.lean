/-
ApiStencil/OrderedMap.lean

Maps from names to values that keep the order in which their keys were first
inserted.  Replacing a value leaves its key where it is.

The type holds the fact that no key occurs twice, so lookup and the list of
entries agree (`get?_eq_some_iff_mem`).  `get?_insert` and `keys_insert` describe
insertion, the one way in which a map changes.
-/

namespace ApiStencil

universe u v

/-- A map whose entries stand in the order of their first insertion. -/
structure OrderedMap (α : Type u) where
  entries : List (String × α)
  nodup_keys : (entries.map Prod.fst).Nodup

namespace OrderedMap

variable {α : Type u} {β : Type v}

/-- The value stored under `key` in a list of entries. -/
def find (key : String) : List (String × α) → Option α
  | [] => none
  | (k, a) :: r => if k = key then some a else find key r

/-- Replaces the value under `key` where it stands, or adds it at the end. -/
def put (key : String) (value : α) : List (String × α) → List (String × α)
  | [] => [(key, value)]
  | (k, a) :: r => if k = key then (k, value) :: r else (k, a) :: put key value r

theorem map_fst_put (key : String) (value : α) (l : List (String × α)) :
    (put key value l).map Prod.fst =
      if key ∈ l.map Prod.fst then l.map Prod.fst else l.map Prod.fst ++ [key] := by
  induction l with
  | nil => simp [put]
  | cons e r ih =>
    obtain ⟨k, a⟩ := e
    by_cases h : k = key
    · simp [put, h]
    · have h' : ¬ key = k := fun e => h e.symm
      simp only [put, h, if_false, List.map_cons, ih, List.mem_cons, h', false_or]
      split <;> simp

theorem nodup_put {key : String} {value : α} {l : List (String × α)}
    (h : (l.map Prod.fst).Nodup) : ((put key value l).map Prod.fst).Nodup := by
  rw [map_fst_put]
  split
  · exact h
  · next hk =>
    rw [List.nodup_append]
    refine ⟨h, by simp, ?_⟩
    intro a ha b hb hab
    simp only [List.mem_singleton] at hb
    exact hk (by rw [← hb, ← hab]; exact ha)

/-! ### Operations -/

protected def empty : OrderedMap α := ⟨[], List.nodup_nil⟩

instance : EmptyCollection (OrderedMap α) := ⟨OrderedMap.empty⟩

instance : Inhabited (OrderedMap α) := ⟨∅⟩

/-- The value of a key. -/
def get? (m : OrderedMap α) (key : String) : Option α :=
  find key m.entries

/-- Sets the value of `key`, which keeps its place if it is there already. -/
def insert (m : OrderedMap α) (key : String) (value : α) : OrderedMap α :=
  ⟨put key value m.entries, nodup_put m.nodup_keys⟩

def contains (m : OrderedMap α) (key : String) : Bool :=
  (m.get? key).isSome

/-- Sets the value of `key` unless it has one. -/
def insertNew (m : OrderedMap α) (key : String) (value : α) : OrderedMap α :=
  if m.contains key then m else m.insert key value

/-- Inserts the entries of a list one after the other. -/
def insertAll (m : OrderedMap α) (l : List (String × α)) : OrderedMap α :=
  l.foldl (fun m e => m.insert e.1 e.2) m

/-- The map with the entries of a list. The last value of a key counts, at the place of the
first. -/
def ofList (l : List (String × α)) : OrderedMap α :=
  (∅ : OrderedMap α).insertAll l

/-- Adds the entries of `other`, whose values win. -/
def union (m other : OrderedMap α) : OrderedMap α :=
  m.insertAll other.entries

def keys (m : OrderedMap α) : List String :=
  m.entries.map Prod.fst

def values (m : OrderedMap α) : List α :=
  m.entries.map Prod.snd

def size (m : OrderedMap α) : Nat :=
  m.entries.length

/-- Applies `f` to every value. -/
def map (f : α → β) (m : OrderedMap α) : OrderedMap β :=
  ⟨m.entries.map fun e => (e.1, f e.2), by
    have : (m.entries.map fun e => (e.1, f e.2)).map Prod.fst = m.entries.map Prod.fst := by
      simp [Function.comp_def]
    rw [this]
    exact m.nodup_keys⟩

/-! ### Lookup and insertion -/

@[ext] theorem ext {m n : OrderedMap α} (h : m.entries = n.entries) : m = n := by
  cases m; cases n; simp_all

@[simp] theorem get?_empty (key : String) : (∅ : OrderedMap α).get? key = none := rfl

theorem find_put (key k : String) (value : α) (l : List (String × α)) :
    find k (put key value l) = if key = k then some value else find k l := by
  induction l with
  | nil => simp [put, find]
  | cons e r ih =>
    obtain ⟨k', a⟩ := e
    by_cases h : k' = key
    · subst h
      by_cases h' : k' = k <;> simp [put, find, h']
    · by_cases h' : k' = k
      · subst h'
        have hk : ¬ key = k' := fun e => h e.symm
        simp [put, find, h, hk]
      · simp [put, find, h, h', ih]

@[simp] theorem get?_insert (m : OrderedMap α) (key k : String) (value : α) :
    (m.insert key value).get? k = if key = k then some value else m.get? k :=
  find_put key k value m.entries

@[simp] theorem keys_insert (m : OrderedMap α) (key : String) (value : α) :
    (m.insert key value).keys = if key ∈ m.keys then m.keys else m.keys ++ [key] :=
  map_fst_put key value m.entries

theorem find_eq_some_iff_mem {key : String} {a : α} {l : List (String × α)}
    (h : (l.map Prod.fst).Nodup) : find key l = some a ↔ (key, a) ∈ l := by
  induction l with
  | nil => simp [find]
  | cons e r ih =>
    obtain ⟨k, b⟩ := e
    simp only [List.map_cons, List.nodup_cons, List.mem_map, not_exists] at h
    by_cases hk : k = key
    · subst hk
      have : ¬ (k, a) ∈ r := fun hm => h.1 (k, a) ⟨hm, rfl⟩
      simp only [find, if_true, Option.some.injEq, List.mem_cons, Prod.mk.injEq, true_and, this,
        or_false]
      exact eq_comm
    · have hk' : ¬ key = k := fun e => hk e.symm
      simp [find, hk, hk', ih h.2]

/-- Lookup finds exactly the entries of the map. -/
theorem get?_eq_some_iff_mem {m : OrderedMap α} {key : String} {a : α} :
    m.get? key = some a ↔ (key, a) ∈ m.entries :=
  find_eq_some_iff_mem m.nodup_keys

theorem contains_iff_mem_keys {m : OrderedMap α} {key : String} :
    m.contains key = true ↔ key ∈ m.keys := by
  rw [contains, Option.isSome_iff_exists]
  simp [get?_eq_some_iff_mem, keys]

end OrderedMap

end ApiStencil
