/-
ApiStencil/Proofs/Template/Reach.lean

What an expansion reaches, and how far it has come there.

    Reaches r p nodes q n

says that the expansion of `nodes` that begins at the point `p` gets to the node `n` at the
point `q`: the nodes and the turns of loops in front of it succeed, and the conditions
around it hold.  A point tells the items of the loops around it, what the template holds in
front of it, and what has been written.

A run that succeeds goes on from what it had written at each node that it reached
(`Reaches.of_ok`), and a run fails exactly if it reaches a node that fails by itself
(`expandAll_eq_error_iff`).
-/
import ApiStencil.Proofs.Template.Concatenation

namespace ApiStencil.Template

open Node

/-! ### Points -/

/-- The scope in the loops over the items, the innermost first. -/
def Scope.within (items : List Item) : Scope :=
  items.foldr (fun i scope => scope.push i) .top

theorem Scope.items_within (items : List Item) : (within items).items = items := by
  induction items with
  | nil => rfl
  | cons i items ih => exact congrArg (i :: ·) ih

/-- Errors name the innermost item. -/
theorem Scope.entity?_within (items : List Item) :
    (within items).entity? = items.head?.map Item.name := by
  rw [entity?, items_within]

/-- How far an expansion has come. -/
structure Point where
  /-- The items of the loops around, the innermost first. -/
  items : List Item
  /-- What the template holds in front. -/
  front : List Char
  written : List Fragment

/-- What the guard of an item writes in front of the item's part. -/
def guardOpening (guard : Option String) : List Fragment :=
  guard.toList.map .guardStart

namespace Point

/-- The point at which an expansion begins. -/
def start : Point := ⟨[], [], []⟩

/-- The scope at a point. -/
def scope (p : Point) : Scope :=
  .within p.items

theorem scope_start : start.scope = .top := rfl

/-- The point behind a node that expands to the fragments `l`. -/
def past (p : Point) (n : Node) (l : List Fragment) : Point :=
  ⟨p.items, p.front ++ n.source, p.written ++ l⟩

/-- The point in front of the body of a condition. -/
def into (p : Point) (opening : List Char) : Point :=
  ⟨p.items, p.front ++ opening, p.written⟩

/-- The point in front of the body of a loop, in the turn for an item with the given guard, where
the turns before it have written `l`. -/
def turn (p : Point) (opening : List Char) (l : List Fragment) (i : Item)
    (guard : Option String) : Point :=
  ⟨i :: p.items, p.front ++ opening, p.written ++ l ++ guardOpening guard⟩

end Point

namespace Node

variable (r : Registry)

/-- The turn of a loop in the scope with its item. -/
def turn (inner : Scope) (line : Nat) (filter : Option (List Char)) (guard : Option String)
    (body : List Node) : Except Error (List Fragment) := do
  if ← inner.holds line filter then return guarded guard (← expandAll r inner body)
  else return []

/-- The turns of a loop for some items. -/
def turns (scope : Scope) (line : Nat) (filter : Option (List Char)) (body : List Node)
    (items : List Item) : Except Error (List (List Fragment)) :=
  items.mapM fun i => turn r (scope.push i) line filter (i.guard? r) body

/-- What an expansion reaches. -/
inductive Reaches : Point → List Node → Point → Node → Prop
  | here (p : Point) (n : Node) (rest : List Node) : Reaches p (n :: rest) p n
  | next {p q : Point} {n m : Node} {rest : List Node} {l : List Fragment}
      (hn : Node.expand r p.scope n = .ok l) (h : Reaches (p.past n l) rest q m) :
      Reaches p (n :: rest) q m
  | cond {p q : Point} {m : Node} {condition opening closing : List Char} {line : Nat}
      {body rest : List Node} (hc : p.scope.holds line (some condition) = .ok true)
      (h : Reaches (p.into opening) body q m) :
      Reaches p (.block (.cond condition) line opening body closing :: rest) q m
  | turn {p q : Point} {m : Node} {subject : Subject} {filter : Option (List Char)}
      {opening closing : List Char} {line : Nat} {body rest : List Node} {done later : List Item}
      {i : Item} {parts : List (List Fragment)}
      (hi : p.scope.itemsOf r subject line = .ok (done ++ i :: later))
      (hd : turns r p.scope line filter body done = .ok parts)
      (hf : (p.scope.push i).holds line filter = .ok true)
      (h : Reaches (p.turn opening parts.flatten i (i.guard? r)) body q m) :
      Reaches p (.block (.loop subject filter) line opening body closing :: rest) q m

/-- The node fails at the point, and not only a part of it. -/
inductive Breaks (p : Point) : Node → Error → Prop
  | literal {line : Nat} {text : List Char} {e : Error} (h : p.scope.format line text = .error e) :
      Breaks p (.literal line text) e
  | cond {condition opening closing : List Char} {line : Nat} {body : List Node} {e : Error}
      (h : p.scope.holds line (some condition) = .error e) :
      Breaks p (.block (.cond condition) line opening body closing) e
  | owner {subject : Subject} {filter : Option (List Char)} {opening closing : List Char}
      {line : Nat} {body : List Node} {e : Error}
      (h : p.scope.itemsOf r subject line = .error e) :
      Breaks p (.block (.loop subject filter) line opening body closing) e
  | filter {subject : Subject} {condition opening closing : List Char} {line : Nat}
      {body : List Node} {done later : List Item} {i : Item} {parts : List (List Fragment)}
      {e : Error} (hi : p.scope.itemsOf r subject line = .ok (done ++ i :: later))
      (hd : turns r p.scope line (some condition) body done = .ok parts)
      (h : (p.scope.push i).holds line (some condition) = .error e) :
      Breaks p (.block (.loop subject (some condition)) line opening body closing) e

variable {r}

/-- A loop expands to what its turns leave, one after the other. -/
theorem expand_loop (scope : Scope) (subject : Subject) (filter : Option (List Char)) (line : Nat)
    (opening closing : List Char) (body : List Node) :
    Node.expand r scope (.block (.loop subject filter) line opening body closing) =
      scope.itemsOf r subject line >>= fun items =>
        turns r scope line filter body items >>= fun parts => .ok parts.flatten := by
  rw [Node.expand]
  rfl

/-- A condition expands to its body if it holds, and to nothing otherwise. -/
theorem expand_cond (scope : Scope) (condition : List Char) (line : Nat)
    (opening closing : List Char) (body : List Node) :
    Node.expand r scope (.block (.cond condition) line opening body closing) =
      scope.holds line (some condition) >>= fun b =>
        if b then expandAll r scope body else .ok [] := by
  rw [Node.expand]
  rfl

/-- A turn for which the filter holds expands the body between the lines of the guard. -/
theorem turn_of_holds {inner : Scope} {line : Nat} {filter : Option (List Char)}
    (h : inner.holds line filter = .ok true) (guard : Option String) (body : List Node) :
    turn r inner line filter guard body =
      expandAll r inner body >>= fun l => .ok (guarded guard l) := by
  rw [turn, h]
  rfl

theorem guarded_eq (guard : Option String) (l : List Fragment) :
    guarded guard l = guardOpening guard ++ l ++ guard.toList.map fun _ => .guardEnd := by
  cases guard with
  | none => simp [guarded, guardOpening]
  | some symbol => rfl

/-! ### Runs that succeed -/

/-- A run that succeeds has written what it had at a node that it reached, then what the node
expands to, and the rest behind it. -/
theorem Reaches.of_ok {p q : Point} {nodes : List Node} {n : Node} {l : List Fragment}
    (h : Reaches r p nodes q n) (hl : expandAll r p.scope nodes = .ok l) :
    ∃ own after, Node.expand r q.scope n = .ok own ∧
      p.written ++ l = q.written ++ own ++ after := by
  -- by induction on the way to the node; each step leaves something behind it
  induction h generalizing l with
  | here p n rest =>
    obtain ⟨x, y, hx, -, rfl⟩ := expandAll_cons_eq_ok_iff.1 hl
    exact ⟨x, y, hx, (List.append_assoc ..).symm⟩
  | @next p q n m rest l' hn _ ih =>
    obtain ⟨x, y, hx, hy, rfl⟩ := expandAll_cons_eq_ok_iff.1 hl
    obtain rfl := Except.ok.inj (hn.symm.trans hx)
    obtain ⟨own, after, hown, hafter⟩ := ih hy
    exact ⟨own, after, hown, by rw [← hafter]; exact (List.append_assoc ..).symm⟩
  | @cond p q m condition opening closing line body rest hc _ ih =>
    obtain ⟨x, y, hx, -, rfl⟩ := expandAll_cons_eq_ok_iff.1 hl
    rw [expand_cond, hc] at hx
    obtain ⟨own, after, hown, hafter⟩ := ih hx
    refine ⟨own, after ++ y, hown, ?_⟩
    rw [← List.append_assoc, ← List.append_assoc, ← hafter]
    rfl
  -- the turns before and after this one have succeeded as well, and stand around it
  | @turn p q m subject filter opening closing line body rest done later i parts hi hd hf _ ih =>
    obtain ⟨x, y, hx, -, rfl⟩ := expandAll_cons_eq_ok_iff.1 hl
    rw [expand_loop, hi, ok_bind] at hx
    obtain ⟨all, hall, hx⟩ := bind_eq_ok_iff.1 hx
    obtain ⟨before, b, behind, hbefore, hb, -, rfl⟩ := mapM_append_cons_eq_ok_iff.1 hall
    obtain rfl := Except.ok.inj (hd.symm.trans hbefore)
    obtain rfl := Except.ok.inj hx
    rw [turn_of_holds hf] at hb
    obtain ⟨inside, hinside, hb⟩ := bind_eq_ok_iff.1 hb
    obtain rfl := Except.ok.inj hb
    obtain ⟨own, after, hown, hafter⟩ := ih hinside
    refine ⟨own, after ++ (((i.guard? r).toList.map fun _ => .guardEnd) ++ behind.flatten ++ y),
      hown, ?_⟩
    calc p.written ++ ((parts ++ guarded (i.guard? r) inside :: behind).flatten ++ y)
        = p.written ++ parts.flatten ++ guardOpening (i.guard? r) ++ inside ++
            (((i.guard? r).toList.map fun _ => .guardEnd) ++ behind.flatten ++ y) := by
          simp [guarded_eq]
      _ = q.written ++ own ++ after ++
            (((i.guard? r).toList.map fun _ => .guardEnd) ++ behind.flatten ++ y) := by
          rw [← hafter]
          rfl
      _ = _ := List.append_assoc ..

/-! ### Runs that fail -/

/-- A turn that fails ends the loop, if those before it succeed. -/
theorem turns_of_error {scope : Scope} {line : Nat} {filter : Option (List Char)}
    {body : List Node} {done : List Item} {i : Item} {parts : List (List Fragment)} {e : Error}
    (hd : turns r scope line filter body done = .ok parts)
    (h : turn r (scope.push i) line filter (i.guard? r) body = .error e) (later : List Item) :
    turns r scope line filter body (done ++ i :: later) = .error e :=
  mapM_eq_error_iff.2 ⟨done, i, later, parts, rfl, hd, h⟩

/-- A node that fails by itself does fail. -/
theorem Breaks.expand_eq_error {p : Point} {n : Node} {e : Error} (h : Breaks r p n e) :
    Node.expand r p.scope n = .error e := by
  cases h with
  | literal h => rw [Node.expand, h]; rfl
  | cond h => rw [expand_cond, h]; rfl
  | owner h => rw [expand_loop, h]; rfl
  | @filter _ condition _ _ line body _ later i _ _ hi hd h =>
    have hturn : turn r (p.scope.push i) line (some condition) (i.guard? r) body = .error e := by
      rw [turn, h]
      rfl
    rw [expand_loop, hi, ok_bind, turns_of_error hd hturn later]
    rfl

/-- And so do the nodes that begin with one that fails. -/
theorem expandAll_cons_of_error {scope : Scope} {n : Node} {e : Error}
    (h : Node.expand r scope n = .error e) (rest : List Node) :
    expandAll r scope (n :: rest) = .error e := by
  rw [expandAll, h]
  rfl

/-- A run fails if it reaches a node that does. -/
theorem Reaches.error {p q : Point} {nodes : List Node} {n : Node} {e : Error}
    (h : Reaches r p nodes q n) (he : Node.expand r q.scope n = .error e) :
    expandAll r p.scope nodes = .error e := by
  -- by induction on the way to the node, the failure of the rest goes back along it
  induction h with
  | here p n rest => exact expandAll_cons_of_error he rest
  | @next p q n m rest l hn _ ih =>
    have hrest : expandAll r p.scope rest = .error e := ih he
    rw [expandAll, hn, hrest]
    rfl
  | @cond p q m condition opening closing line body rest hc _ ih =>
    have hbody : expandAll r p.scope body = .error e := ih he
    refine expandAll_cons_of_error ?_ rest
    rw [expand_cond, hc, ok_bind, if_pos rfl, hbody]
  | @turn p q m subject filter opening closing line body rest done later i parts hi hd hf _ ih =>
    have hbody : expandAll r (p.scope.push i) body = .error e := ih he
    have hturn : Node.turn r (p.scope.push i) line filter (i.guard? r) body = .error e := by
      rw [turn_of_holds hf, hbody]
      rfl
    refine expandAll_cons_of_error ?_ rest
    rw [expand_loop, hi, ok_bind, turns_of_error hd hturn later]
    rfl

mutual
/-- A node that fails does so by itself or at a node inside it. -/
theorem reaches_of_expand_error {p : Point} {e : Error} (n : Node) (rest : List Node)
    (h : Node.expand r p.scope n = .error e) :
    ∃ q m, Reaches r p (n :: rest) q m ∧ Breaks r q m e := by
  match n with
  | .literal line text =>
    rw [Node.expand, map_eq_bind] at h
    rcases bind_eq_error_iff.1 h with h | ⟨_, _, ⟨⟩⟩
    exact ⟨p, _, .here p _ rest, .literal h⟩
  | .block (.cond condition) line opening body closing =>
    rw [expand_cond] at h
    rcases bind_eq_error_iff.1 h with hc | ⟨b, hc, h⟩
    · exact ⟨p, _, .here p _ rest, .cond hc⟩
    · cases b with
      | false => cases h
      | true =>
        obtain ⟨q, m, hr, hb⟩ := reaches_of_expandAll_error (p := p.into opening) body h
        exact ⟨q, m, .cond hc hr, hb⟩
  -- a loop fails for want of an owner, at a filter, or in the body of a turn
  | .block (.loop subject filter) line opening body closing =>
    rw [expand_loop] at h
    rcases bind_eq_error_iff.1 h with hi | ⟨items, hi, h⟩
    · exact ⟨p, _, .here p _ rest, .owner hi⟩
    · rcases bind_eq_error_iff.1 h with h | ⟨_, _, ⟨⟩⟩
      obtain ⟨done, i, later, parts, rfl, hd, hturn⟩ := mapM_eq_error_iff.1 h
      rcases bind_eq_error_iff.1 hturn with hf | ⟨b, hf, hturn⟩
      · cases filter with
        | none => cases hf
        | some condition => exact ⟨p, _, .here p _ rest, .filter hi hd hf⟩
      · cases b with
        | false => cases hturn
        | true =>
          rcases bind_eq_error_iff.1 hturn with hbody | ⟨_, _, ⟨⟩⟩
          obtain ⟨q, m, hr, hb⟩ := reaches_of_expandAll_error
            (p := p.turn opening parts.flatten i (i.guard? r)) body hbody
          exact ⟨q, m, .turn hi hd hf hr, hb⟩

/-- A run that fails reaches the node at fault. -/
theorem reaches_of_expandAll_error {p : Point} {e : Error} (nodes : List Node)
    (h : expandAll r p.scope nodes = .error e) :
    ∃ q n, Reaches r p nodes q n ∧ Breaks r q n e := by
  match nodes with
  | [] => cases h
  | n :: rest =>
    rw [expandAll] at h
    rcases bind_eq_error_iff.1 h with hn | ⟨l, hn, h⟩
    · exact reaches_of_expand_error n rest hn
    · rcases bind_eq_error_iff.1 h with h | ⟨_, _, ⟨⟩⟩
      obtain ⟨q, m, hr, hb⟩ := reaches_of_expandAll_error (p := p.past n l) rest h
      exact ⟨q, m, .next hn hr, hb⟩
end

/-- A run fails exactly if it reaches a node that fails by itself. -/
theorem expandAll_eq_error_iff {p : Point} {nodes : List Node} {e : Error} :
    expandAll r p.scope nodes = .error e ↔ ∃ q n, Reaches r p nodes q n ∧ Breaks r q n e := by
  constructor
  · exact reaches_of_expandAll_error nodes
  · rintro ⟨q, n, hr, hb⟩
    exact hr.error hb.expand_eq_error

end Node

end ApiStencil.Template
