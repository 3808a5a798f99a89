/-
ApiStencil/Proofs/Template/Visit.lean

What an expansion looks up, and where.  The record of a run (`Node.recordAll`) holds
every text and every condition whose placeholders are replaced, with the scope in which
that happens, and every loop with its turns; a run that fails leaves the record of what
it did up to there.  A record changes nothing: its result is that of the expansion
(`Node.result_recordAll`).

Main lemma: the visits of a sequence of nodes are all made in its scope, and each turn of
a loop is the run of its body in the scope of the loop with the item of the turn pushed
onto it, with the items in their order and up to the first turn that fails (`Visit.Made`,
`Node.made_of_mem_recordAll`).
-/
import ApiStencil.Proofs.Except
import ApiStencil.Template.Expand

namespace ApiStencil.Template

/-! ### Records -/

/-- What an expansion does at a point of a template: it replaces the placeholders of a text or of a
condition, or it takes the turns of a loop, each with the visits made for its item. -/
inductive Visit where
  | text (scope : Scope) (line : Nat) (text : List Char)
  | test (scope : Scope) (line : Nat) (condition : List Char)
  | loop (scope : Scope) (subject : Subject) (line : Nat) (turns : List (Item × List Visit))

/-- The scope in which a visit is made. -/
def Visit.scope : Visit → Scope
  | .text scope _ _ => scope
  | .test scope _ _ => scope
  | .loop scope _ _ _ => scope

/-- A computation with the visits that it makes, whether it fails or not. -/
structure Recorded (α : Type) where
  visits : List Visit
  result : Except Error α

namespace Recorded

variable {α β : Type}

instance : Monad Recorded where
  pure a := ⟨[], .ok a⟩
  bind x f :=
    match x.result with
    | .error e => ⟨x.visits, .error e⟩
    | .ok a => ⟨x.visits ++ (f a).visits, (f a).result⟩

theorem result_bind (x : Recorded α) (f : α → Recorded β) :
    (x >>= f).result = x.result >>= fun a => (f a).result := by
  obtain ⟨visits, result⟩ := x
  cases result <;> rfl

/-- What follows a computation that succeeds adds its visits to those already made. -/
theorem mem_visits_bind {x : Recorded α} {f : α → Recorded β} {v : Visit}
    (h : v ∈ (x >>= f).visits) :
    v ∈ x.visits ∨ ∃ a, x.result = .ok a ∧ v ∈ (f a).visits := by
  obtain ⟨visits, result⟩ := x
  cases result with
  | error e => exact .inl h
  | ok a => exact (List.mem_append.1 h).imp_right fun h => ⟨a, rfl, h⟩

/-- Replaces the placeholders of a text. -/
def text (scope : Scope) (line : Nat) (text : List Char) : Recorded (List Char) :=
  ⟨[.text scope line text], scope.format line text⟩

/-- Asks whether a condition holds. -/
def test (scope : Scope) (line : Nat) (condition : Option (List Char)) : Recorded Bool :=
  ⟨condition.toList.map (.test scope line), scope.holds line condition⟩

/-- The turns of a loop, up to the first that fails, and their results. -/
def turns (f : Item → Recorded α) :
    List Item → List (Item × List Visit) × Except Error (List α)
  | [] => ([], .ok [])
  | i :: rest =>
    match (f i).result with
    | .error e => ([(i, (f i).visits)], .error e)
    | .ok a => ((i, (f i).visits) :: (turns f rest).1, (turns f rest).2.map (a :: ·))

/-- The turns of a loop give the results of its steps. -/
theorem snd_turns (f : Item → Recorded α) (items : List Item) :
    (turns f items).2 = items.mapM fun i => (f i).result := by
  induction items with
  | nil => rfl
  | cons i rest ih =>
    rw [List.mapM_cons, turns]
    cases (f i).result with
    | error e => rfl
    | ok a =>
      show (turns f rest).2.map (a :: ·) = _
      rw [ih]
      cases rest.mapM fun i => (f i).result <;> rfl

/-- The turns are taken in the order of the items, each once, and all of them unless one fails. -/
theorem fst_turns (f : Item → Recorded α) (items : List Item) :
    ∃ done, done <+: items ∧ (turns f items).1 = done.map (fun i => (i, (f i).visits)) ∧
      ((turns f items).2.isOk = true →
        done = items ∧ ∀ i ∈ items, (f i).result.isOk = true) := by
  induction items with
  | nil => exact ⟨[], List.prefix_rfl, rfl, fun _ => ⟨rfl, nofun⟩⟩
  | cons i rest ih =>
    obtain ⟨done, hp, ht, hok⟩ := ih
    rw [turns]
    cases hi : (f i).result with
    -- the turn that fails is the last one that is taken
    | error e => exact ⟨[i], List.prefix_cons_inj i |>.2 List.nil_prefix, rfl, nofun⟩
    | ok a =>
      refine ⟨i :: done, (List.prefix_cons_inj i).2 hp, by simp [ht], fun h => ?_⟩
      have hrest : (turns f rest).2.isOk = true := by
        dsimp only at h
        cases hr : (turns f rest).2 with
        | error e => rw [hr] at h; cases h
        | ok l => rfl
      obtain ⟨rfl, hall⟩ := hok hrest
      refine ⟨rfl, List.forall_mem_cons.2 ⟨by rw [hi]; rfl, hall⟩⟩

end Recorded

/-! ### The record of an expansion -/

namespace Node

mutual
/-- Expands a node and records what is done. -/
def record (r : Registry) (scope : Scope) : Node → Recorded (List Fragment)
  | .literal line text => do return [.text (← Recorded.text scope line text)]
  | .block head line _ body _ =>
    match head with
    | .cond condition => do
      if ← Recorded.test scope line (some condition) then recordAll r scope body else return []
    | .loop subject filter =>
      match scope.itemsOf r subject line with
      | .error e => ⟨[.loop scope subject line []], .error e⟩
      | .ok items =>
        let (turns, parts) := Recorded.turns (fun item => do
          let inner := scope.push item
          if ← Recorded.test inner line filter then
            return guarded (item.guard? r) (← recordAll r inner body)
          else return []) items
        ⟨[.loop scope subject line turns], parts.map List.flatten⟩

/-- Expands a sequence of nodes and records what is done. -/
def recordAll (r : Registry) (scope : Scope) : List Node → Recorded (List Fragment)
  | [] => pure []
  | n :: rest => do
    let first ← record r scope n
    let more ← recordAll r scope rest
    return first ++ more
end

variable (r : Registry)

/-- The turn of a loop for an item, in the scope with that item. -/
def recordTurn (inner : Scope) (line : Nat) (filter : Option (List Char)) (guard : Option String)
    (body : List Node) : Recorded (List Fragment) := do
  if ← Recorded.test inner line filter then return guarded guard (← recordAll r inner body)
  else return []

/-- Recording a turn does not change it, if this is so for the body. -/
theorem result_recordTurn {inner : Scope} {body : List Node}
    (h : (recordAll r inner body).result = expandAll r inner body) (line : Nat)
    (filter : Option (List Char)) (guard : Option String) :
    (recordTurn r inner line filter guard body).result =
      do if ← inner.holds line filter then return guarded guard (← expandAll r inner body)
         else return [] := by
  rw [recordTurn, Recorded.result_bind]
  show inner.holds line filter >>= _ = _
  congr
  funext b
  cases b with
  | false => rfl
  | true =>
    simp only [↓reduceIte, Recorded.result_bind, h]
    rfl

/-- A loop takes its turns one after the other. -/
theorem record_loop {scope : Scope} {subject : Subject} {filter : Option (List Char)} {line : Nat}
    {opening closing : List Char} {body : List Node} {items : List Item}
    (h : scope.itemsOf r subject line = .ok items) :
    record r scope (.block (.loop subject filter) line opening body closing) =
      let taken := Recorded.turns
        (fun i => recordTurn r (scope.push i) line filter (i.guard? r) body) items
      ⟨[.loop scope subject line taken.1], taken.2.map List.flatten⟩ := by
  rw [record, h]
  rfl

mutual
/-- Recording does not change what a node expands to. -/
theorem result_record (scope : Scope) (n : Node) :
    (record r scope n).result = Node.expand r scope n := by
  cases n with
  | literal line text =>
    rw [record, Node.expand, Recorded.result_bind]
    show scope.format line text >>= _ = _
    cases scope.format line text <;> rfl
  | block head line opening body closing =>
    cases head with
    | cond condition =>
      rw [record, Node.expand, Recorded.result_bind]
      show scope.holds line (some condition) >>= _ = _
      congr
      funext b
      cases b
      · rfl
      · exact result_recordAll scope body
    | loop subject filter =>
      rw [Node.expand]
      cases hi : scope.itemsOf r subject line with
      | error e =>
        rw [record, hi]
        rfl
      | ok items =>
        rw [record_loop r hi, ok_bind]
        dsimp only
        rw [Recorded.snd_turns]
        simp only [result_recordTurn r (result_recordAll (scope.push _) body)]
        exact map_eq_bind List.flatten _

/-- Recording what is done does not change the expansion. -/
theorem result_recordAll (scope : Scope) (nodes : List Node) :
    (recordAll r scope nodes).result = expandAll r scope nodes := by
  cases nodes with
  | nil => rfl
  | cons n rest =>
    rw [recordAll, expandAll, Recorded.result_bind, result_record scope n]
    congr
    funext first
    rw [Recorded.result_bind, result_recordAll scope rest]
    rfl
end

end Node

/-! ### How visits are made -/

/-- How a computation in a scope makes a visit, where `succeeds` says how the computation ends: in
this scope; and the turns of a loop are those of its items in their order, up to the first that
fails. -/
inductive Visit.Made (r : Registry) (scope : Scope) (succeeds : Bool) : Visit → Prop
  | text (line : Nat) (text : List Char) : Made r scope succeeds (.text scope line text)
  | test (line : Nat) (condition : List Char) : Made r scope succeeds (.test scope line condition)
  | ownerless {subject : Subject} {line : Nat} {e : Error}
      (h : scope.itemsOf r subject line = .error e) (hs : succeeds = false) :
      Made r scope succeeds (.loop scope subject line [])
  | loop {subject : Subject} {line : Nat} {filter : Option (List Char)} {body : List Node}
      {items done : List Item} (h : scope.itemsOf r subject line = .ok items)
      (hd : done <+: items)
      (hs : succeeds = true → done = items ∧ ∀ i ∈ items,
        (Node.recordTurn r (scope.push i) line filter (i.guard? r) body).result.isOk = true) :
      Made r scope succeeds (.loop scope subject line (done.map fun i =>
        (i, (Node.recordTurn r (scope.push i) line filter (i.guard? r) body).visits)))

namespace Visit.Made

variable {r : Registry} {scope : Scope} {v : Visit}

theorem scope_eq {b : Bool} (h : v.Made r scope b) : v.scope = scope := by
  cases h <;> rfl

/-- If less is said about how the computation ends, the visit is still made so. -/
theorem mono {b b' : Bool} (h : v.Made r scope b) (hb : b' = true → b = true) :
    v.Made r scope b' := by
  cases h with
  | text line text => exact .text line text
  | test line condition => exact .test line condition
  | ownerless h hs =>
    refine .ownerless h (Bool.eq_false_iff.2 fun hb' => ?_)
    rw [hb hb'] at hs
    cases hs
  | loop h hd hs => exact .loop h hd fun hb' => hs (hb hb')

/-- The visits of two computations, one after the other. -/
theorem of_mem_bind {α β : Type} {x : Recorded α} {f : α → Recorded β}
    (hx : ∀ v ∈ x.visits, v.Made r scope x.result.isOk)
    (hf : ∀ a, ∀ v ∈ (f a).visits, v.Made r scope (f a).result.isOk)
    (h : v ∈ (x >>= f).visits) : v.Made r scope (x >>= f).result.isOk := by
  rw [Recorded.result_bind]
  rcases Recorded.mem_visits_bind h with h | ⟨a, ha, h⟩
  · refine (hx v h).mono fun hok => ?_
    cases hr : x.result with
    | error e => rw [hr] at hok; cases hok
    | ok a => rfl
  · rw [ha]
    exact hf a v h

theorem of_mem_test {line : Nat} {condition : Option (List Char)} {b : Bool}
    (h : v ∈ (Recorded.test scope line condition).visits) : v.Made r scope b := by
  obtain ⟨c, -, rfl⟩ := List.mem_map.1 h
  exact .test line c

end Visit.Made

namespace Node

variable (r : Registry)

mutual
/-- All visits of a node are made in its scope. -/
theorem made_of_mem_record (scope : Scope) (n : Node) :
    ∀ v ∈ (record r scope n).visits, v.Made r scope (record r scope n).result.isOk := by
  intro v hv
  cases n with
  | literal line text =>
    rw [record] at hv ⊢
    refine Visit.Made.of_mem_bind ?_ (fun a v h => nomatch h) hv
    intro v hv
    obtain rfl := List.mem_singleton.1 hv
    exact .text line text
  | block head line opening body closing =>
    cases head with
    | cond condition =>
      rw [record] at hv ⊢
      refine Visit.Made.of_mem_bind (fun v h => .of_mem_test h) (fun b v h => ?_) hv
      cases b with
      | false => nomatch h
      | true => exact made_of_mem_recordAll scope body v h
    | loop subject filter =>
      cases hi : scope.itemsOf r subject line with
      | error e =>
        rw [record, hi] at hv ⊢
        obtain rfl := List.mem_singleton.1 hv
        exact .ownerless hi rfl
      | ok items =>
        rw [record_loop r hi] at hv ⊢
        obtain rfl := List.mem_singleton.1 hv
        dsimp only
        rw [isOk_map]
        obtain ⟨done, hd, ht, hok⟩ := Recorded.fst_turns
          (fun i => recordTurn r (scope.push i) line filter (i.guard? r) body) items
        rw [ht]
        exact .loop hi hd hok

/-- All visits of a sequence of nodes are made in its scope. -/
theorem made_of_mem_recordAll (scope : Scope) (nodes : List Node) :
    ∀ v ∈ (recordAll r scope nodes).visits,
      v.Made r scope (recordAll r scope nodes).result.isOk := by
  intro v hv
  cases nodes with
  | nil => nomatch hv
  | cons n rest =>
    rw [recordAll] at hv ⊢
    refine Visit.Made.of_mem_bind (made_of_mem_record scope n) (fun first v h => ?_) hv
    exact Visit.Made.of_mem_bind (made_of_mem_recordAll scope rest) (fun more v h => nomatch h) h
end

/-- The visits of a turn, its filter included, are made in the scope with its item. -/
theorem made_of_mem_recordTurn {inner : Scope} {line : Nat} {filter : Option (List Char)}
    {guard : Option String} {body : List Node} :
    ∀ v ∈ (recordTurn r inner line filter guard body).visits,
      v.Made r inner (recordTurn r inner line filter guard body).result.isOk := by
  intro v hv
  refine Visit.Made.of_mem_bind (fun v h => .of_mem_test h) (fun b v h => ?_) hv
  cases b with
  | false => nomatch h
  | true =>
    exact Visit.Made.of_mem_bind (made_of_mem_recordAll r inner body) (fun _ v h => nomatch h) h

end Node

end ApiStencil.Template
