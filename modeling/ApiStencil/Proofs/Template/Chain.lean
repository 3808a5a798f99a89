/-
ApiStencil/Proofs/Template/Chain.lean

The items around a visit, and the values that it sees.  Loops in a record stand inside
each other as they do in the template, so the record itself shows in the turns of which
items a visit is made: `Level top chain level` says that `level` are the visits made in
the turns for the items `chain`, the innermost first, and outside of further loops.

Main result: at every level of every run, also of one that fails, the items of the scope
are those of the chain and the values are those of the innermost item that has them; the
body of a loop over owned items sees the values of the item that owns them; the turns of
a loop are those of the items it is to go through, in their order; and what follows a
loop sees what was seen before it (`consistent_of_level`).

An item pushed onto a scope brings its values with it (`Scope.Agrees.push`), and this
carries the induction over the levels.  The values of an owner are not covered by those
of the items inside it, as no two subjects share a name (`Subject.eq_of_mem_vocabulary`).
-/
import ApiStencil.Proofs.Template.Scoped
import ApiStencil.Proofs.Template.Visit

namespace ApiStencil.Template

/-! ### Vocabularies and owners -/

/-- No name belongs to two vocabularies. -/
theorem Subject.eq_of_mem_vocabulary {s t : Subject} {name : String} (hs : name ∈ s.vocabulary)
    (ht : name ∈ t.vocabulary) : s = t := by
  have h : ∀ s ∈ Subject.all, ∀ t ∈ Subject.all, s = t ∨ ∀ name ∈ s.vocabulary,
      name ∉ t.vocabulary := by
    decide +kernel
  exact (h s (mem_all s) t (mem_all t)).resolve_right fun hn => hn name hs ht

/-- So an item has no value for the placeholders of another subject. -/
theorem Item.get?_placeholders_of_ne {i j : Item} {name : String} (h : i.subject ≠ j.subject)
    (hj : name ∈ j.placeholders.keys) : i.placeholders.get? name = none := by
  rw [Option.eq_none_iff_forall_ne_some]
  intro value hv
  have hi : name ∈ i.placeholders.keys :=
    List.mem_map.2 ⟨_, OrderedMap.get?_eq_some_iff_mem.1 hv, rfl⟩
  exact h (Subject.eq_of_mem_vocabulary (i.mem_keys_placeholders.1 hi)
    (j.mem_keys_placeholders.1 hj))

theorem Subject.not_mem_owners (s : Subject) : s ∉ s.owners := by
  cases s <;> simp [owners]

/-- An item that has items of a subject is one of its owners. -/
theorem Item.subject_mem_owners {s : Subject} {i : Item} {items : List Item}
    (h : i.owned? s = some items) : i.subject ∈ s.owners := by
  unfold owned? at h
  split at h <;> first
    | cases h; done
    | simp [subject, Subject.owners]

/-- `InnermostOwner s chain owner`: among the items of the chain, the innermost that owns items of
the subject `s` is `owner`. -/
def InnermostOwner (s : Subject) (chain : List Item) (owner : Item) : Prop :=
  ∃ inside outside, chain = inside ++ owner :: outside ∧ owner.subject ∈ s.owners ∧
    ∀ i ∈ inside, i.subject ∉ s.owners

/-- The items that a loop over the subject `s` has to go through inside the turns for `chain`. -/
inductive LoopItems (r : Registry) (chain : List Item) (s : Subject) : List Item → Prop
  | collection (h : s.owners = []) : LoopItems r chain s (s.collection r)
  | owned {owner : Item} {items : List Item} (ho : InnermostOwner s chain owner)
      (h : owner.owned? s = some items) : LoopItems r chain s items

/-- And one that has none is not, for whether there are any depends on the subject only. -/
theorem Item.subject_not_mem_owners {s : Subject} {i : Item} (h : i.owned? s = none) :
    i.subject ∉ s.owners := by
  intro hm
  have := isSome_owned? hm
  rw [h] at this
  cases this

/-- The items that a loop gets are those it has to go through: its collection, or what the innermost
owner has. -/
theorem Scope.loopItems_of_itemsOf {r : Registry} {scope : Scope} {s : Subject} {line : Nat}
    {items : List Item} (h : scope.itemsOf r s line = .ok items) :
    LoopItems r scope.items s items := by
  unfold itemsOf at h
  split at h
  · next hn =>
    obtain rfl := Except.ok.inj h
    exact .collection (Subject.owner?_eq_none_iff.1 hn)
  · split at h
    · next hs =>
      obtain rfl := Except.ok.inj h
      obtain ⟨inside, owner, outside, hc, ho, hi⟩ := List.findSome?_eq_some_iff.1 hs
      exact .owned ⟨inside, outside, hc, Item.subject_mem_owners ho,
        fun i him => Item.subject_not_mem_owners (hi i him)⟩ ho
    · cases h

/-- A loop gets no items only if it needs an owner and none is around it. -/
theorem Scope.not_mem_owners_of_itemsOf {r : Registry} {scope : Scope} {s : Subject} {line : Nat}
    {e : Error} (h : scope.itemsOf r s line = .error e) :
    s.owners ≠ [] ∧ ∀ i ∈ scope.items, i.subject ∉ s.owners := by
  unfold itemsOf at h
  split at h
  · cases h
  · next hn =>
    split at h
    · cases h
    · next hs =>
      refine ⟨fun hnone => ?_, fun i hi =>
        Item.subject_not_mem_owners (List.findSome?_eq_none_iff.1 hs i hi)⟩
      rw [Subject.owner?_eq_none_iff.2 hnone] at hn
      cases hn

/-- The items of a loop belong to its subject, and to the innermost owner if they are owned. -/
theorem LoopItems.owner {r : Registry} {chain : List Item} {s : Subject} {items : List Item}
    (h : LoopItems r chain s items) {i : Item} (hi : i ∈ items) :
    i.subject = s ∧ (s.owners ≠ [] →
      ∃ owner, InnermostOwner s chain owner ∧ owner.owned? s = some items) := by
  cases h with
  | collection h => exact ⟨Subject.subject_of_mem_collection hi, fun hs => absurd h hs⟩
  | owned ho h => exact ⟨Item.subject_of_mem_owned? h hi, fun _ => ⟨_, ho, h⟩⟩

/-! ### Values and items -/

/-- Each placeholder has the value that it has for the innermost item that knows it. -/
def Scope.Agrees (scope : Scope) : Prop :=
  ∀ name, scope.values.get? name = scope.items.findSome? fun i => i.placeholders.get? name

theorem Scope.agrees_top : Scope.top.Agrees :=
  fun _ => rfl

/-- An item that is pushed comes first and brings its values, so the agreement stays. -/
theorem Scope.Agrees.push {scope : Scope} (h : scope.Agrees) (i : Item) :
    (scope.push i).Agrees := by
  intro name
  show (scope.values.union i.placeholders).get? name = (i :: scope.items).findSome? _
  rw [OrderedMap.get?_union, h name, List.findSome?_cons]
  cases i.placeholders.get? name <;> rfl

/-- What stands inside an owner, the owned items included, does not cover its values. -/
theorem InnermostOwner.findSome?_placeholders {i owner : Item} {chain : List Item}
    (h : InnermostOwner i.subject chain owner) {name : String}
    (hn : name ∈ owner.placeholders.keys) :
    (i :: chain).findSome? (fun j => j.placeholders.get? name) =
      owner.placeholders.get? name := by
  obtain ⟨inside, outside, rfl, howner, hinside⟩ := h
  have hi : i.placeholders.get? name = none := by
    refine Item.get?_placeholders_of_ne (fun he => ?_) hn
    exact i.subject.not_mem_owners (he ▸ howner)
  have hnone : inside.findSome? (fun j => j.placeholders.get? name) = none := by
    refine List.findSome?_eq_none_iff.2 fun j hj => Item.get?_placeholders_of_ne (fun he => ?_) hn
    exact hinside j hj (he ▸ howner)
  obtain ⟨value, hv⟩ : ∃ value, owner.placeholders.get? name = some value := by
    rw [← Option.isSome_iff_exists]
    exact OrderedMap.contains_iff_mem_keys.2 hn
  rw [List.findSome?_cons, hi, List.findSome?_append, hnone, List.findSome?_cons, hv]
  rfl

/-! ### The levels of a record -/

/-- `Level top chain level`: the visits made in the turns for the items `chain`, the innermost
first, and outside of further loops are `level`, where `top` are those made outside all loops. -/
inductive Level (top : List Visit) : List Item → List Visit → Prop
  | top : Level top [] top
  | turn {chain : List Item} {level visits : List Visit} {scope : Scope} {subject : Subject}
      {line : Nat} {turns : List (Item × List Visit)} {i : Item} (h : Level top chain level)
      (hl : .loop scope subject line turns ∈ level) (ht : (i, visits) ∈ turns) :
      Level top (i :: chain) visits

/-- What holds of the visits `level` in the turns for the items `chain`, where `succeeds` says how
the run ends. -/
structure Consistent (r : Registry) (succeeds : Bool) (chain : List Item) (level : List Visit) :
    Prop where
  /-- The items of the scope are those around the visit. -/
  items : ∀ v ∈ level, v.scope.items = chain
  /-- A placeholder has a value exactly if some item around has it, namely that of the innermost
  such item. -/
  values : ∀ v ∈ level, ∀ name,
    v.scope.values.get? name = chain.findSome? fun i => i.placeholders.get? name
  /-- In the turn for an owned item, the placeholders of its owner have the owner's values. -/
  owner : ∀ i outer, chain = i :: outer → i.subject.owners ≠ [] →
    ∃ owner items, InnermostOwner i.subject outer owner ∧
      owner.owned? i.subject = some items ∧ i ∈ items ∧
      ∀ v ∈ level, ∀ name ∈ owner.placeholders.keys,
        v.scope.values.get? name = owner.placeholders.get? name
  /-- A loop takes a turn for each of its items in their order, up to the first that fails.  A loop
  over owned items that stands inside no owner of such items takes none, and the run fails. -/
  loops : ∀ scope subject line turns, .loop scope subject line turns ∈ level →
    (∃ items, LoopItems r chain subject items ∧ turns.map Prod.fst <+: items ∧
      (succeeds = true → turns.map Prod.fst = items)) ∨
    ((∀ i ∈ chain, i.subject ∉ subject.owners) ∧ turns = [] ∧ succeeds = false)
  /-- What stands behind a loop sees what stands in front of it. -/
  restored : ∀ v ∈ level, ∀ w ∈ level, v.scope = w.scope

/-- The visits of a level are made in one scope, that of its items. -/
theorem Level.exists_scope {r : Registry} {top level : List Visit} {succeeds : Bool}
    {chain : List Item} (h : Level top chain level)
    (htop : ∀ v ∈ top, v.Made r .top succeeds) :
    ∃ scope : Scope, scope.items = chain ∧ scope.Agrees ∧
      ∀ v ∈ level, v.Made r scope succeeds := by
  -- by induction on the loops around the level; the turn of an item pushes it
  induction h with
  | top => exact ⟨.top, rfl, Scope.agrees_top, htop⟩
  | @turn chain level visits scope' subject line turns i _ hl ht ih =>
    obtain ⟨scope, rfl, hagrees, hmade⟩ := ih
    obtain rfl : scope = scope' := (hmade _ hl).scope_eq.symm
    cases hmade _ hl with
    | ownerless => cases ht
    | loop hitems hd hs =>
      obtain ⟨i, hi, he⟩ := List.mem_map.1 ht
      obtain ⟨rfl, rfl⟩ := Prod.mk.inj he
      refine ⟨scope.push i, rfl, hagrees.push i, fun v hv => ?_⟩
      exact (Node.made_of_mem_recordTurn r v hv).mono fun hok => (hs hok).2 i (hd.subset hi)

/-- A turn for an owned item is inside one for the item that owns it. -/
theorem Level.exists_owner {r : Registry} {top level : List Visit} {succeeds : Bool}
    {chain : List Item} {i : Item} (h : Level top (i :: chain) level)
    (htop : ∀ v ∈ top, v.Made r .top succeeds) (hi : i.subject.owners ≠ []) :
    ∃ owner items, InnermostOwner i.subject chain owner ∧
      owner.owned? i.subject = some items ∧ i ∈ items := by
  -- the level of the loop itself knows which owner its items come from
  cases h with
  | turn h hl ht =>
    obtain ⟨scope, rfl, -, hmade⟩ := h.exists_scope htop
    cases hmade _ hl with
    | ownerless => cases ht
    | loop hitems hd _ =>
      obtain ⟨j, hj, he⟩ := List.mem_map.1 ht
      obtain ⟨rfl, -⟩ := Prod.mk.inj he
      have hmem := hd.subset hj
      obtain ⟨rfl, howner⟩ := (Scope.loopItems_of_itemsOf hitems).owner hmem
      obtain ⟨owner, ho, hs⟩ := howner hi
      exact ⟨owner, _, ho, hs, hmem⟩

/-- Values and items agree at every level of every run, and an expansion is such a run. -/
theorem consistent_of_level (r : Registry) (nodes : List Node) :
    (Node.recordAll r .top nodes).result = Node.expandAll r .top nodes ∧
      ∀ chain level, Level (Node.recordAll r .top nodes).visits chain level →
        Consistent r (Node.expandAll r .top nodes).isOk chain level := by
  have hresult := Node.result_recordAll r .top nodes
  refine ⟨hresult, fun chain level h => ?_⟩
  have htop := Node.made_of_mem_recordAll r .top nodes
  rw [hresult] at htop
  obtain ⟨scope, rfl, hagrees, hmade⟩ := h.exists_scope htop
  have hscope : ∀ v ∈ level, v.scope = scope := fun v hv => (hmade v hv).scope_eq
  constructor
  case items => exact fun v hv => by rw [hscope v hv]
  case values => exact fun v hv name => by rw [hscope v hv, hagrees name]
  case owner =>
    intro i outer hc hi
    rw [hc] at h
    obtain ⟨owner, items, ho, hs, hmem⟩ := h.exists_owner htop hi
    refine ⟨owner, items, ho, hs, hmem, fun v hv name hn => ?_⟩
    rw [hscope v hv, hagrees name, hc, ho.findSome?_placeholders hn]
  case loops =>
    intro scope' subject line turns hl
    cases hmade _ hl with
    | ownerless hitems hs =>
      exact .inr ⟨(Scope.not_mem_owners_of_itemsOf hitems).2, rfl, hs⟩
    | loop hitems hd hs =>
      have hturns : ∀ (done : List Item) (visits : Item → List Visit),
          (done.map fun i => (i, visits i)).map Prod.fst = done := by
        intro done visits
        simp [Function.comp_def]
      refine .inl ⟨_, Scope.loopItems_of_itemsOf hitems, ?_, fun hok => ?_⟩
      · rw [hturns]
        exact hd
      · rw [hturns]
        exact (hs hok).1
  case restored => exact fun v hv w hw => (hscope v hv).trans (hscope w hw).symm

/-- A loop over flags inside one over members inside one over structs. -/
def loopsInLoops : List Node :=
  [.block (.loop .struct none) 1 "@foreach struct".toList
    [.block (.loop .member none) 1 "@foreach member".toList
      [.block (.loop .flag none) 1 "@foreach flag".toList [] "@end flag".toList]
      "@end member".toList] "@end struct".toList]

/-- Inside the innermost loop that takes turns, at a member of the one struct. -/
theorem consistent_of_level_member : ∃ member owner level,
    Level (Node.recordAll oneStruct .top loopsInLoops).visits [.member member, .struct owner]
        level ∧
      (∃ v, v ∈ level) ∧
      Consistent oneStruct (Node.expandAll oneStruct .top loopsInLoops).isOk
        [.member member, .struct owner] level := by
  have houter : _ ∈ (Node.recordAll oneStruct .top loopsInLoops).visits := List.mem_cons_self
  have hstruct := Level.turn .top houter List.mem_cons_self
  have hmember := Level.turn hstruct List.mem_cons_self List.mem_cons_self
  exact ⟨_, _, _, hmember, ⟨_, List.mem_cons_self⟩,
    (consistent_of_level oneStruct loopsInLoops).2 _ _ hmember⟩

end ApiStencil.Template
