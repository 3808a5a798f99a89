/-
ApiStencil/Proofs/Template/Trace.lean

What an expansion iterates over.  The trace of a run holds the texts of its output
and, around the texts of an item, that item; it knows nothing of guards.  Guards
come in afterwards: `expandAll_eq_map_trace` says that expansion is the trace with
each guarded item wrapped, and fails where the trace does.
-/
import ApiStencil.Proofs.Except
import ApiStencil.Template.Expand

namespace ApiStencil.Template

/-- A part of an output: a text, or what an item of a loop expands to. -/
inductive Part where
  | text (s : List Char)
  | item (i : Item) (parts : List Part)

namespace Part

mutual
/-- The text of a part. -/
def plain : Part → List Char
  | .text s => s
  | .item _ parts => plainAll parts

/-- The text of a sequence of parts. -/
def plainAll : List Part → List Char
  | [] => []
  | p :: r => plain p ++ plainAll r
end

mutual
/-- A part with each guarded item between the lines of its guard. -/
def wrap (r : Registry) : Part → List Fragment
  | .text s => [.text s]
  | .item i parts =>
    match i.guard? r with
    | none => wrapAll r parts
    | some symbol => .guardStart symbol :: wrapAll r parts ++ [.guardEnd]

/-- A sequence of parts with their guards. -/
def wrapAll (r : Registry) : List Part → List Fragment
  | [] => []
  | p :: rest => wrap r p ++ wrapAll r rest
end

theorem wrapAll_append (r : Registry) (a b : List Part) :
    wrapAll r (a ++ b) = wrapAll r a ++ wrapAll r b := by
  induction a with
  | nil => rfl
  | cons p a ih => simp [wrapAll, ih]

theorem wrapAll_flatten (r : Registry) (l : List (List Part)) :
    wrapAll r l.flatten = (l.map (wrapAll r)).flatten := by
  induction l with
  | nil => rfl
  | cons a l ih => simp [wrapAll_append, ih]

/-- An item is wrapped as expansion guards what it writes for it. -/
theorem wrap_item (r : Registry) (i : Item) (parts : List Part) :
    wrap r (.item i parts) = guarded (i.guard? r) (wrapAll r parts) := by
  rw [wrap]
  cases i.guard? r <;> rfl

end Part

namespace Node

mutual
/-- The parts that a node expands to. -/
def trace (r : Registry) (scope : Scope) : Node → Except Error (List Part)
  | .literal line text => (scope.format line text).map fun s => [.text s]
  | .block head line _ body _ =>
    match head with
    | .cond condition => do
      if ← scope.holds line (some condition) then traceAll r scope body else return []
    | .loop subject filter => do
      let items ← scope.itemsOf r subject line
      let parts ← items.mapM fun item => do
        let inner := scope.push item
        if ← inner.holds line filter then return [.item item (← traceAll r inner body)]
        else return []
      return parts.flatten

/-- The parts that a sequence of nodes expands to. -/
def traceAll (r : Registry) (scope : Scope) : List Node → Except Error (List Part)
  | [] => .ok []
  | n :: rest => do
    let first ← trace r scope n
    let more ← traceAll r scope rest
    return first ++ more
end

variable (r : Registry)

/-- What the turn of a loop for one item expands to. -/
theorem turn_eq_map_trace {inner : Scope} {body : List Node}
    (h : expandAll r inner body = (traceAll r inner body).map (Part.wrapAll r))
    (holds : Except Error Bool) (item : Item) :
    (do if ← holds then return guarded (item.guard? r) (← expandAll r inner body)
        else return [] : Except Error (List Fragment)) =
      (do if ← holds then return [Part.item item (← traceAll r inner body)]
          else return [] : Except Error (List Part)).map (Part.wrapAll r) := by
  rw [map_bind]
  congr
  funext b
  cases b with
  | false => rfl
  | true =>
    rw [h]
    simp only [↓reduceIte, map_bind, bind_map]
    congr
    funext parts
    simp [pure, Except.pure, Except.map, Part.wrapAll, Part.wrap_item]

mutual
/-- A node expands to its trace with the guarded items wrapped. -/
theorem expand_eq_map_trace (scope : Scope) (n : Node) :
    Node.expand r scope n = (trace r scope n).map (Part.wrapAll r) := by
  cases n with
  | literal line text =>
    rw [Node.expand, trace]
    cases scope.format line text <;> rfl
  | block head line opening body closing =>
    cases head with
    | cond condition =>
      rw [Node.expand, trace, map_bind]
      congr
      funext b
      cases b
      · rfl
      · exact expandAll_eq_map_trace scope body
    | loop subject filter =>
      rw [Node.expand, trace, map_bind]
      congr
      funext items
      -- first each turn of the loop, then all of them together
      simp only [turn_eq_map_trace r (expandAll_eq_map_trace (scope.push _) body)]
      rw [mapM_map_results, bind_map, map_bind]
      congr
      funext parts
      simp [pure, Except.pure, Except.map, Part.wrapAll_flatten]

/-- Expansion wraps the guarded items of its trace, and does nothing else. -/
theorem expandAll_eq_map_trace (scope : Scope) (nodes : List Node) :
    expandAll r scope nodes = (traceAll r scope nodes).map (Part.wrapAll r) := by
  cases nodes with
  | nil => rfl
  | cons n rest =>
    rw [expandAll, traceAll, expand_eq_map_trace scope n, expandAll_eq_map_trace scope rest,
      map_bind, bind_map]
    congr
    funext first
    rw [map_bind, bind_map]
    congr
    funext more
    simp [pure, Except.pure, Except.map, Part.wrapAll_append]
end

end Node

end ApiStencil.Template
