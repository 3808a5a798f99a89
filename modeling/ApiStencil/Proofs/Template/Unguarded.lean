/-
ApiStencil/Proofs/Template/Unguarded.lean

A registry without its guards.  A template can see a guard in one way, through the
placeholder `extGuard`; if it does not mention it, the trace of its run is the same
without guards, and so are its errors (`traceAll_unguarded`).

The two runs go through scopes that differ in the items that are extensions, and in
what these say of `extGuard` (`Scope.Alike`).
-/
import ApiStencil.Proofs.OrderedMap
import ApiStencil.Proofs.Placeholder.Substitute
import ApiStencil.Proofs.Template.Trace

namespace ApiStencil

/-! ### Taking the guards away -/

/-- The extension without its guard. -/
def Extension.unguarded (e : Extension) : Extension :=
  { e with guard := none }

/-- The registry with the guard of every extension removed. -/
def Registry.unguarded (r : Registry) : Registry :=
  { r with extensions := r.extensions.map Extension.unguarded }

/-- A function is found in the same extension. -/
theorem Registry.extensionForFunction?_unguarded (r : Registry) (name : String) :
    r.unguarded.extensionForFunction? name =
      (r.extensionForFunction? name).map Extension.unguarded :=
  r.extensions.bind_get?_map _ (r.extensionFunctions.get? name)

/-- And so is a type. -/
theorem Registry.extensionForType?_unguarded (r : Registry) (name : String) :
    r.unguarded.extensionForType? name = (r.extensionForType? name).map Extension.unguarded :=
  r.extensions.bind_get?_map _ (r.extensionTypes.get? name)

namespace Template

/-- The item without its guard; only extensions have one. -/
def Item.unguarded : Item → Item
  | .extension e => .extension e.unguarded
  | i => i

namespace Part

mutual
/-- The part with all items in it unguarded. -/
def unguarded : Part → Part
  | .text s => .text s
  | .item i parts => .item i.unguarded (unguardedAll parts)

/-- The same for a sequence of parts. -/
def unguardedAll : List Part → List Part
  | [] => []
  | p :: r => unguarded p :: unguardedAll r
end

theorem unguardedAll_eq_map : unguardedAll = List.map unguarded := by
  funext l
  induction l with
  | nil => rfl
  | cons p l ih => rw [unguardedAll, ih, List.map_cons]

mutual
theorem plain_unguarded (p : Part) : plain (unguarded p) = plain p := by
  cases p with
  | text s => rfl
  | item i parts => exact plainAll_unguarded parts

theorem plainAll_unguarded (parts : List Part) :
    plainAll (unguardedAll parts) = plainAll parts := by
  cases parts with
  | nil => rfl
  | cons p r => rw [unguardedAll, plainAll, plainAll, plain_unguarded p, plainAll_unguarded r]
end

end Part

/-! ### Items -/

namespace Item

variable (i : Item)

theorem name_unguarded : i.unguarded.name = i.name := by
  cases i <;> rfl

/-- An item without its guard has the same values for all other placeholders. -/
theorem get?_placeholders_unguarded {name : String} (h : name ≠ "extGuard") :
    i.unguarded.placeholders.get? name = i.placeholders.get? name := by
  cases i with
  | extension e =>
    -- the guard is the last entry, and the only one that differs
    have h' : ¬ "extGuard" = name := Ne.symm h
    simp [unguarded, placeholders, Extension.placeholders, Extension.unguarded, OrderedMap.ofList,
      OrderedMap.insertAll, h']
  | _ => rfl

theorem owned?_unguarded (subject : Subject) :
    i.unguarded.owned? subject = (i.owned? subject).map (List.map unguarded) := by
  cases subject <;> cases i <;> simp [unguarded, owned?, Function.comp_def]

/-- An item without its guard is in the same extension. -/
theorem extension?_unguarded (r : Registry) :
    i.extension? r.unguarded = (i.extension? r).map Extension.unguarded := by
  unfold extension?
  rw [r.extensionForFunction?_unguarded, r.extensionForType?_unguarded]
  split
  · rfl
  · cases r.extensionForFunction? i.name with
    | some e => rfl
    | none =>
      cases r.extensionForType? i.name with
      | some e => rfl
      | none =>
        cases i with
        | systemType t => exact OrderedMap.get?_map _ _ _
        | _ => rfl

/-- Nothing is guarded in a registry without guards. -/
theorem guard?_unguarded (r : Registry) : i.guard? r.unguarded = none := by
  rw [guard?, extension?_unguarded]
  cases i.extension? r <;> rfl

end Item

theorem Subject.collection_unguarded (subject : Subject) (r : Registry) :
    subject.collection r.unguarded = (subject.collection r).map Item.unguarded := by
  cases subject <;>
    simp [collection, Registry.unguarded, OrderedMap.values_map, Item.unguarded, Function.comp_def]

/-! ### Scopes -/

/-- The name of the placeholder for a guard. -/
def guardName : List Char :=
  "extGuard".toList

/-- The second scope is the first one without guards. -/
structure Scope.Alike (scope scope' : Scope) : Prop where
  items : scope'.items = scope.items.map Item.unguarded
  values : ∀ name, name ≠ "extGuard" → scope'.values.get? name = scope.values.get? name

namespace Scope.Alike

variable {scope scope' : Scope}

theorem top : Alike Scope.top Scope.top :=
  ⟨rfl, fun _ _ => rfl⟩

/-- A turn of a loop keeps the scopes alike. -/
theorem push (h : Alike scope scope') (i : Item) :
    Alike (scope.push i) (scope'.push i.unguarded) := by
  refine ⟨?_, ?_⟩
  · show i.unguarded :: scope'.items = (i :: scope.items).map Item.unguarded
    rw [h.items, List.map_cons]
  · intro name hname
    show (scope'.values.union _).get? name = (scope.values.union _).get? name
    rw [OrderedMap.get?_union, OrderedMap.get?_union, i.get?_placeholders_unguarded hname,
      h.values name hname]

theorem entity? (h : Alike scope scope') : scope'.entity? = scope.entity? := by
  unfold Scope.entity?
  rw [h.items]
  cases scope.items with
  | nil => rfl
  | cons i r => exact congrArg some i.name_unguarded

/-- Only a text that mentions the guard can tell the scopes apart. -/
theorem substitute (h : Alike scope scope') {text : List Char}
    (hn : guardName ∉ Placeholder.namesIn text) :
    Placeholder.substitute scope'.values text = Placeholder.substitute scope.values text := by
  apply Placeholder.substituteFrom_congr
  intro n hm
  apply h.values
  intro he
  have hname : n = guardName := String.toList_ofList.symm.trans (congrArg String.toList he)
  exact hn (hname ▸ hm)

theorem format (h : Alike scope scope') {text : List Char}
    (hn : guardName ∉ Placeholder.namesIn text) (line : Nat) :
    scope'.format line text = scope.format line text := by
  rw [Scope.format, Scope.format, h.substitute hn, h.entity?]

theorem holds (h : Alike scope scope') {condition : Option (List Char)}
    (hn : ∀ c ∈ condition, guardName ∉ Placeholder.namesIn c) (line : Nat) :
    scope'.holds line condition = scope.holds line condition := by
  cases condition with
  | none => rfl
  | some c => rw [Scope.holds, Scope.holds, h.substitute (hn c rfl), h.entity?]

/-- A loop gets the same items in both scopes, without their guards in the second. -/
theorem itemsOf (h : Alike scope scope') (r : Registry) (subject : Subject) (line : Nat) :
    scope'.itemsOf r.unguarded subject line =
      (scope.itemsOf r subject line).map (List.map Item.unguarded) := by
  -- the innermost owner is found at the same place in both
  have howned : scope'.items.findSome? (Item.owned? subject) =
      (scope.items.findSome? (Item.owned? subject)).map (List.map Item.unguarded) := by
    rw [h.items]
    induction scope.items with
    | nil => rfl
    | cons i items ih =>
      rw [List.map_cons, List.findSome?_cons, List.findSome?_cons, i.owned?_unguarded, ih]
      cases i.owned? subject <;> rfl
  unfold Scope.itemsOf
  cases subject.owner? with
  | none => exact congrArg Except.ok (subject.collection_unguarded r)
  | some owner =>
    dsimp only
    rw [howned]
    cases scope.items.findSome? (Item.owned? subject) <;> rfl

end Scope.Alike

/-! ### Templates that do not mention a name -/

namespace Node

mutual
/-- The names of the placeholders in a node. -/
def names : Node → List (List Char)
  | .literal _ text => Placeholder.namesIn text
  | .block head _ _ body _ =>
    head.condition?.toList.flatMap Placeholder.namesIn ++ namesAll body

/-- The names of the placeholders in a sequence of nodes. -/
def namesAll : List Node → List (List Char)
  | [] => []
  | n :: r => names n ++ namesAll r
end

variable (r : Registry)

/-- The turns of a loop for an item and for the item without its guard. -/
theorem turn_unguarded {inner inner' : Scope} {body : List Node} (i : Item)
    {condition : Option (List Char)} {line : Nat}
    (hholds : inner'.holds line condition = inner.holds line condition)
    (hbody : traceAll r.unguarded inner' body = (traceAll r inner body).map Part.unguardedAll) :
    (do if ← inner'.holds line condition then
          return [.item i.unguarded (← traceAll r.unguarded inner' body)]
        else return [] : Except Error (List Part)) =
      (do if ← inner.holds line condition then return [.item i (← traceAll r inner body)]
          else return [] : Except Error (List Part)).map Part.unguardedAll := by
  rw [hholds, map_bind]
  congr
  funext b
  cases b with
  | false => rfl
  | true =>
    simp only [↓reduceIte, hbody, map_bind, bind_map]
    rfl

mutual
/-- Without guards, a node that does not mention them runs in the same way. -/
theorem trace_unguarded {scope scope' : Scope} (h : scope.Alike scope') (n : Node)
    (hn : guardName ∉ names n) :
    trace r.unguarded scope' n = (trace r scope n).map Part.unguardedAll := by
  cases n with
  | literal line text =>
    rw [trace, trace, h.format hn]
    cases scope.format line text <;> rfl
  | block head line opening body closing =>
    rw [names, List.mem_append, not_or] at hn
    obtain ⟨hcond, hbody⟩ := hn
    cases head with
    | cond condition =>
      have hc : ∀ c ∈ some condition, guardName ∉ Placeholder.namesIn c := by
        rintro c ⟨⟩
        simpa [Head.condition?] using hcond
      rw [trace, trace, h.holds hc, map_bind]
      congr
      funext b
      cases b
      · rfl
      · exact traceAll_unguarded h body hbody
    | loop subject filter =>
      have hc : ∀ c ∈ filter, guardName ∉ Placeholder.namesIn c := by
        rintro c ⟨⟩
        simpa [Head.condition?] using hcond
      rw [trace, trace, h.itemsOf, map_bind, bind_map]
      congr
      funext items
      -- the loop over the items without guards takes the same turns
      simp only [List.mapM_map, Function.comp_def, turn_unguarded r _ ((h.push _).holds hc line)
        (traceAll_unguarded (h.push _) body hbody)]
      rw [mapM_map_results, bind_map, map_bind]
      congr
      funext parts
      simp [pure, Except.pure, Except.map, Part.unguardedAll_eq_map, List.map_flatten]

/-- Without guards, a template that does not mention them runs in the same way. -/
theorem traceAll_unguarded {scope scope' : Scope} (h : scope.Alike scope') (nodes : List Node)
    (hn : guardName ∉ namesAll nodes) :
    traceAll r.unguarded scope' nodes = (traceAll r scope nodes).map Part.unguardedAll := by
  cases nodes with
  | nil => rfl
  | cons n rest =>
    rw [namesAll, List.mem_append, not_or] at hn
    rw [traceAll, traceAll, trace_unguarded h n hn.1, traceAll_unguarded h rest hn.2, map_bind,
      bind_map]
    congr
    funext first
    rw [map_bind, bind_map]
    congr
    funext more
    simp [pure, Except.pure, Except.map, Part.unguardedAll_eq_map]
end

end Node

end Template

end ApiStencil
