/-
ApiStencil/Proofs/Place.lean

The places of items in lists of lists.  A place is the list of the indices that lead to
the item, so places are compared from the outermost list inwards and an item comes before
another one exactly if its place is smaller (`Place.InOrder`).

In a list whose items have growing ranks, such as places or indices, what comes first has the
smallest rank: the first item of each key (`mem_firstPer_iff_of_ranked`) and the first result of a
search (`findSome?_eq_some_iff_of_ranked`).
-/
import ApiStencil.Proofs.Distinct
import Mathlib.Data.List.Lex
import Mathlib.Order.Lattice

namespace ApiStencil.Place

variable {α β : Type}

/-- Whether items come in the order of their places. -/
def InOrder (l : List (List Nat × β)) : Prop :=
  l.Pairwise fun x y => x.1 < y.1

/-- A single item, at the empty place. -/
def alone (b : β) : List (List Nat × β) :=
  [([], b)]

/-- The items in each part of a list, at the place of the part and the place in it. -/
def inParts (items : α → List (List Nat × β)) (l : List α) : List (List Nat × β) :=
  l.zipIdx.flatMap fun (a, i) => (items a).map fun (place, b) => (i :: place, b)

theorem mem_alone_iff {place : List Nat} {b b' : β} :
    (place, b) ∈ alone b' ↔ place = [] ∧ b = b' := by
  rw [alone, List.mem_singleton, Prod.mk.injEq]

theorem inOrder_alone (b : β) : InOrder (alone b) :=
  List.pairwise_singleton _ _

/-- The items that are chosen from a list, with their indices. -/
def chosen (f : α → Option β) (l : List α) : List (Nat × β) :=
  l.zipIdx.filterMap fun (a, i) => (f a).map (i, ·)

/-- The items in each part that has an index, at the index and the place in the part. -/
def inIndexed (items : α → List (List Nat × β)) (l : List (Nat × α)) : List (List Nat × β) :=
  l.flatMap fun (i, a) => (items a).map fun (place, b) => (i :: place, b)

section

variable {f : α → Option β} {l : List α}

/-- What is chosen from a list, by the index of the item it is chosen for. -/
theorem mem_chosen_iff {i : Nat} {b : β} :
    (i, b) ∈ chosen f l ↔ ∃ a, l[i]? = some a ∧ f a = some b := by
  rw [chosen, List.mem_filterMap]
  constructor
  · rintro ⟨⟨a, j⟩, ha, hb⟩
    obtain ⟨b', hb', he⟩ := Option.map_eq_some_iff.1 hb
    cases he
    exact ⟨a, List.mk_mem_zipIdx_iff_getElem?.1 ha, hb'⟩
  · rintro ⟨a, ha, hb⟩
    exact ⟨(a, i), List.mk_mem_zipIdx_iff_getElem?.2 ha, Option.map_eq_some_iff.2 ⟨b, hb, rfl⟩⟩

theorem map_snd_chosen : (chosen f l).map Prod.snd = l.filterMap f := by
  conv_rhs => rw [← List.zipIdx_map_fst 0 l, List.filterMap_map]
  rw [chosen, List.map_filterMap]
  simp only [Option.map_map, Function.comp_def, Option.map_id']

/-- Indices grow along a list, also when items are left out. -/
theorem pairwise_chosen : (chosen f l).Pairwise fun x y => x.1 < y.1 := by
  have hindices : (l.zipIdx.map Prod.snd).Pairwise (· < ·) := by
    rw [List.zipIdx_map_snd]
    exact List.pairwise_lt_range'
  refine (List.pairwise_map.1 hindices).filterMap _ ?_
  rintro x y hlt x' hx y' hy
  obtain ⟨b, -, rfl⟩ := Option.map_eq_some_iff.1 hx
  obtain ⟨b', -, rfl⟩ := Option.map_eq_some_iff.1 hy
  exact hlt

end

section

variable {items : α → List (List Nat × β)} {l : List (Nat × α)}

/-- A place in parts with indices is the index of a part followed by a place in it. -/
theorem mem_inIndexed_iff {place : List Nat} {b : β} :
    (place, b) ∈ inIndexed items l ↔
      ∃ i a rest, place = i :: rest ∧ (i, a) ∈ l ∧ (rest, b) ∈ items a := by
  rw [inIndexed, List.mem_flatMap]
  constructor
  · rintro ⟨⟨i, a⟩, ha, hb⟩
    obtain ⟨⟨rest, b⟩, hb, he⟩ := List.mem_map.1 hb
    cases he
    exact ⟨i, a, rest, rfl, ha, hb⟩
  · rintro ⟨i, a, rest, rfl, ha, hb⟩
    exact ⟨(i, a), ha, List.mem_map.2 ⟨(rest, b), hb, rfl⟩⟩

/-- Without the places, the items are those of the parts one after the other. -/
theorem map_snd_inIndexed :
    (inIndexed items l).map Prod.snd =
      (l.map Prod.snd).flatMap fun a => (items a).map Prod.snd := by
  rw [inIndexed, List.map_flatMap, List.flatMap_map]
  simp only [List.map_map]
  rfl

/-- If the indices grow and the items of each part are in order, so are all items. -/
theorem inOrder_inIndexed (hl : l.Pairwise fun x y => x.1 < y.1)
    (h : ∀ x ∈ l, InOrder (items x.2)) : InOrder (inIndexed items l) := by
  refine List.pairwise_flatMap.2 ⟨?_, ?_⟩
  -- two places in one part agree in the index and differ behind it
  · rintro ⟨i, a⟩ ha
    rw [List.pairwise_map]
    refine (h _ ha).imp fun hxy => ?_
    exact List.cons_lt_cons_iff.2 (.inr ⟨rfl, hxy⟩)
  -- places in two parts differ in the index
  · refine hl.imp fun hlt x hx y hy => ?_
    obtain ⟨x', -, rfl⟩ := List.mem_map.1 hx
    obtain ⟨y', -, rfl⟩ := List.mem_map.1 hy
    exact List.cons_lt_cons_iff.2 (.inl hlt)

end

section

variable {items : α → List (List Nat × β)} {l : List α}

theorem inParts_eq_inIndexed : inParts items l = inIndexed items (chosen some l) := by
  rw [inParts, inIndexed, chosen]
  simp only [Option.map_some, List.filterMap_eq_map', List.flatMap_map]

theorem mem_inParts_iff {place : List Nat} {b : β} :
    (place, b) ∈ inParts items l ↔
      ∃ i a rest, place = i :: rest ∧ l[i]? = some a ∧ (rest, b) ∈ items a := by
  simp only [inParts_eq_inIndexed, mem_inIndexed_iff, mem_chosen_iff, Option.some.injEq,
    exists_eq_right]

theorem map_snd_inParts :
    (inParts items l).map Prod.snd = l.flatMap fun a => (items a).map Prod.snd := by
  rw [inParts_eq_inIndexed, map_snd_inIndexed, map_snd_chosen, List.filterMap_some]

/-- If the items of each part are in order, so are all items. -/
theorem inOrder_inParts (h : ∀ a ∈ l, InOrder (items a)) : InOrder (inParts items l) := by
  rw [inParts_eq_inIndexed]
  refine inOrder_inIndexed pairwise_chosen fun x hx => ?_
  obtain ⟨a, ha, hx⟩ := mem_chosen_iff.1 hx
  cases hx
  exact h _ (List.mem_of_getElem? ha)

end

/-! ### What comes first -/

section

variable {ι κ : Type} [LinearOrder ι] [DecidableEq κ] {rank : β → ι} {key : β → κ} {seen : List κ}
  {l : List β}

/-- In a list with growing ranks, in front of an item are those of a smaller rank. -/
theorem mem_front_iff {front back : List β} {b b' : β}
    (h : (front ++ b :: back).Pairwise (rank · < rank ·)) :
    b' ∈ front ↔ b' ∈ front ++ b :: back ∧ rank b' < rank b := by
  obtain ⟨-, hback, hfront⟩ := List.pairwise_append.1 h
  constructor
  · exact fun hb => ⟨List.mem_append_left _ hb, hfront b' hb b List.mem_cons_self⟩
  · rintro ⟨hb, hlt⟩
    rcases List.mem_append.1 hb with hb | hb
    · exact hb
    rcases List.mem_cons.1 hb with rfl | hb
    · exact absurd hlt (lt_irrefl _)
    · exact absurd hlt (List.rel_of_pairwise_cons hback hb).not_gt

/-- The first result of a search is that of the item of least rank that has one. -/
theorem findSome?_eq_some_iff_of_ranked {γ : Type} {f : β → Option γ} {c : γ}
    (h : l.Pairwise (rank · < rank ·)) : l.findSome? f = some c ↔
      ∃ b ∈ l, f b = some c ∧ ∀ b' ∈ l, rank b' < rank b → f b' = none := by
  rw [List.findSome?_eq_some_iff]
  constructor
  · rintro ⟨front, b, back, rfl, hb, hfront⟩
    exact ⟨b, by simp, hb, fun b' hm hlt => hfront b' ((mem_front_iff h).2 ⟨hm, hlt⟩)⟩
  · rintro ⟨b, hm, hb, hfirst⟩
    obtain ⟨front, back, rfl⟩ := List.append_of_mem hm
    exact ⟨front, b, back, rfl, hb, fun b' hb' => and_imp.2 (hfirst b') ((mem_front_iff h).1 hb')⟩

/-- The first item of a key is the one of least rank that has it. -/
theorem mem_firstPer_iff_of_ranked (h : l.Pairwise (rank · < rank ·)) {b : β} :
    b ∈ firstPer key seen l ↔
      key b ∉ seen ∧ b ∈ l ∧ ∀ b' ∈ l, rank b' < rank b → key b' ≠ key b := by
  -- to be the first in the list is to have nothing of the same key in the front part
  rw [mem_firstPer_iff, List.find?_eq_some_iff_append]
  refine and_congr_right fun _ => ?_
  constructor
  · rintro ⟨-, front, back, rfl, hfront⟩
    exact ⟨by simp, fun b' hm hlt => by simpa using hfront b' ((mem_front_iff h).2 ⟨hm, hlt⟩)⟩
  · rintro ⟨hm, hfirst⟩
    obtain ⟨front, back, rfl⟩ := List.append_of_mem hm
    refine ⟨decide_eq_true rfl, front, back, rfl, fun b' hb' => ?_⟩
    simpa using and_imp.2 (hfirst b') ((mem_front_iff h).1 hb')

/-- An item is kept unless one that is kept before it has its key. -/
theorem mem_firstPer_iff_of_kept (h : l.Pairwise (rank · < rank ·)) {b : β} :
    b ∈ firstPer key seen l ↔
      key b ∉ seen ∧ b ∈ l ∧ ∀ b' ∈ firstPer key seen l, rank b' < rank b → key b' ≠ key b := by
  constructor
  · intro hb
    obtain ⟨hseen, hm, hfirst⟩ := (mem_firstPer_iff_of_ranked h).1 hb
    exact ⟨hseen, hm, fun b' hb' => hfirst b' ((firstPer_sublist key seen l).subset hb')⟩
  · rintro ⟨hseen, hm, hfirst⟩
    refine (mem_firstPer_iff_of_ranked h).2 ⟨hseen, hm, fun b' hb' hlt hkey => ?_⟩
    -- if an item before `b` has the key, so has one that is kept, and it is not behind that item
    obtain ⟨c, hc, hkeyc⟩ := List.mem_map.1
      (mem_keys_firstPer_iff.2 ⟨hseen, List.mem_map.2 ⟨b', hb', hkey⟩⟩)
    have hle : rank c ≤ rank b' := le_of_not_gt fun hlt =>
      ((mem_firstPer_iff_of_ranked h).1 hc).2.2 b' hb' hlt (hkey.trans hkeyc.symm)
    exact hfirst c hc (hle.trans_lt hlt) hkeyc

end

/-! ### The first place for a key -/

variable {κ : Type} [DecidableEq κ] {key : List Nat × β → κ} {l : List (List Nat × β)}

theorem InOrder.firstPer (h : InOrder l) : InOrder (firstPer key [] l) :=
  List.Pairwise.sublist (firstPer_sublist key [] l) h

theorem InOrder.place_le (h : InOrder l) {x y : List Nat × β}
    (hx : x ∈ ApiStencil.firstPer key [] l) (hy : y ∈ l) (hkey : key y = key x) : x.1 ≤ y.1 :=
  le_of_not_gt fun hlt => ((mem_firstPer_iff_of_ranked h).1 hx).2.2 y hy hlt hkey

end ApiStencil.Place
