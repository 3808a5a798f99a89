/-
ApiStencil/Proofs/Template/Shift.lean

A template that stands further down.  With `n` more lines in front of it, the
segments of a text, its nodes and its errors are those of the text alone, `n` lines
further down, and nothing else changes: each stage of reading and of expanding
commutes with the move (`scan_add`, `assemble_shift`, `expandAll_shift`).
-/
import ApiStencil.Proofs.Except
import ApiStencil.Template.Expand

namespace ApiStencil.Template

open Text

/-! ### Moving down -/

/-- The same error `n` lines further down. -/
def Error.shift (n : Nat) : Error → Error
  | .malformed keyword line => .malformed keyword (n + line)
  | .unknownSubject name line => .unknownSubject name (n + line)
  | .mismatchedEnd expected found line => .mismatchedEnd expected found (n + line)
  | .unmatchedEnd word line => .unmatchedEnd word (n + line)
  | .unclosed word line => .unclosed word (n + line)
  | .missingOwner subject owner line => .missingOwner subject owner (n + line)
  | .placeholder line entity error => .placeholder (n + line) entity error
  | .condition line entity error => .condition (n + line) entity error

/-- The same segment `n` lines further down. -/
def Segment.shift (n : Nat) : Segment → Segment
  | .literal line text => .literal (n + line) text
  | .directive line d source => .directive (n + line) d source
  | .malformed line k source => .malformed (n + line) k source

namespace Node

mutual
/-- The same node `n` lines further down. -/
def shift (n : Nat) : Node → Node
  | .literal line text => .literal (n + line) text
  | .block head line opening body closing =>
    .block head (n + line) opening (shiftAll n body) closing

/-- The same nodes `n` lines further down. -/
def shiftAll (n : Nat) : List Node → List Node
  | [] => []
  | x :: r => shift n x :: shiftAll n r
end

/-- Each node is moved by itself. -/
theorem shiftAll_eq_map (n : Nat) : shiftAll n = List.map (shift n) := by
  funext l
  induction l with
  | nil => rfl
  | cons x l ih => rw [shiftAll, ih, List.map_cons]

theorem shiftAll_reverse (n : Nat) (l : List Node) :
    shiftAll n l.reverse = (shiftAll n l).reverse := by
  rw [shiftAll_eq_map, List.map_reverse]

end Node

/-- The same open block `n` lines further down. -/
def Node.Frame.shift (n : Nat) (f : Node.Frame) : Node.Frame :=
  ⟨f.head, n + f.line, f.opening, Node.shiftAll n f.before⟩

/-! ### Reading -/

/-- The segments of a text are the same on any line. -/
theorem Segment.scan_add (n line : Nat) (fresh : Bool) (s : List Char) :
    scan (n + line) fresh s = (scan line fresh s).map (shift n) := by
  -- the line is an argument of the scan, and the induction goes along its calls
  fun_induction scan line fresh s with
  | case1 line fresh s hf =>
    rw [scan_of_find_eq_none hf]
    rfl
  | case2 line fresh s before k after hf here fromHere hr =>
    rw [scan_of_read_eq_none hf hr, Nat.add_assoc]
    rfl
  | case3 line fresh s before k after hf here fromHere d rest hr halone next source ih =>
    rw [scan_of_read hf hr, if_pos halone]
    simp only [Nat.add_assoc n] at ih ⊢
    rw [ih]
    rfl
  | case4 line fresh s before k after hf here fromHere d rest hr halone source ih =>
    rw [scan_of_read hf hr, if_neg halone]
    simp only [Nat.add_assoc n] at ih ⊢
    rw [ih]
    rfl

namespace Node

/-- Segments further down give the same tree further down, or the same error there. -/
theorem assemble_shift (n : Nat) (frames : List Frame) (done : List Node) (l : List Segment) :
    assemble (frames.map (Frame.shift n)) (shiftAll n done) (l.map (Segment.shift n)) =
      ((assemble frames done l).map (shiftAll n)).mapError (Error.shift n) := by
  fun_induction assemble frames done l with
  | case1 done =>
    rw [List.map_nil, List.map_nil, assemble, ← shiftAll_reverse]
    rfl
  | case2 => rfl
  | case3 frames done line text r ih =>
    rw [← ih]
    rfl
  | case4 => rfl
  | case5 frames done line source r word filter hs =>
    simp only [List.map_cons, Segment.shift, assemble, hs]
    rfl
  | case6 frames done line source r word filter subject hs ih =>
    simp only [List.map_cons, Segment.shift, assemble, hs]
    rw [← ih]
    rfl
  | case7 frames done line source r condition ih =>
    rw [← ih]
    rfl
  | case8 => rfl
  | case9 done line source r f frames ih =>
    rw [← ih]
    simp only [List.map_cons, Segment.shift, assemble, Frame.shift, shiftAll, shift,
      shiftAll_reverse]
    rfl
  | case10 done line source r word f frames hw =>
    simp only [List.map_cons, Segment.shift, assemble, Frame.shift, if_neg hw]
    rfl

end Node

/-! ### Expanding -/

namespace Scope

variable (n : Nat) (scope : Scope) (line : Nat)

/-- A text further down fails further down. -/
theorem format_add (text : List Char) :
    scope.format (n + line) text = (scope.format line text).mapError (Error.shift n) := by
  rw [format, format]
  cases Placeholder.substitute scope.values text with
  | error e =>
    show Except.error (Error.placeholder (n + line + _) scope.entity? e) =
      Except.error (Error.placeholder (n + (line + _)) scope.entity? e)
    rw [Nat.add_assoc]
  | ok s => rfl

/-- So does a condition. -/
theorem holds_add (condition : Option (List Char)) :
    scope.holds (n + line) condition = (scope.holds line condition).mapError (Error.shift n) := by
  cases condition with
  | none => rfl
  | some condition =>
    rw [holds, holds]
    cases Placeholder.substitute scope.values condition with
    | error e => rfl
    | ok text =>
      show (Condition.evaluate text).mapError _ = ((Condition.evaluate text).mapError _).mapError _
      cases Condition.evaluate text <;> rfl

/-- And a loop without an owner. -/
theorem itemsOf_add (r : Registry) (subject : Subject) :
    scope.itemsOf r subject (n + line) =
      (scope.itemsOf r subject line).mapError (Error.shift n) := by
  rw [itemsOf, itemsOf]
  split
  · rfl
  · split <;> rfl

end Scope

namespace Node

mutual
/-- A node further down expands to the same fragments, or fails further down. -/
theorem expand_shift (n : Nat) (r : Registry) (scope : Scope) (x : Node) :
    expand r scope (x.shift n) = (expand r scope x).mapError (Error.shift n) := by
  cases x with
  | literal line text =>
    rw [shift, expand, expand, mapError_map, Scope.format_add]
  | block head line opening body closing =>
    cases head with
    | cond condition =>
      simp only [shift, expand, mapError_bind, Scope.holds_add]
      congr
      funext b
      cases b
      · rfl
      · exact expandAll_shift n r scope body
    | loop subject filter =>
      simp only [shift, expand, mapError_bind, Scope.itemsOf_add, mapM_mapError, Scope.holds_add]
      congr
      funext items
      congr
      funext item
      congr
      funext b
      cases b
      · rfl
      · simp only [expandAll_shift n r _ body, ↓reduceIte, mapError_bind]
        rfl

/-- A tree further down expands to the same, and its errors are further down. -/
theorem expandAll_shift (n : Nat) (r : Registry) (scope : Scope) (nodes : List Node) :
    expandAll r scope (shiftAll n nodes) =
      (expandAll r scope nodes).mapError (Error.shift n) := by
  cases nodes with
  | nil => rfl
  | cons x rest =>
    simp only [shiftAll, expandAll, mapError_bind, expand_shift n r scope x,
      expandAll_shift n r scope rest]
    rfl
end

end Node

end ApiStencil.Template
