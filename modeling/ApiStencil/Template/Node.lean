/-
ApiStencil/Template/Node.lean

A template as a tree.  A block is a directive with everything up to its end; it
keeps the texts of both directives, so the tree is the template again
(`sourceAll_assemble`), and the byte ranges of the blocks follow from the sizes of
the texts (`Outline`).
-/
import ApiStencil.Template.Error
import ApiStencil.Template.Segment

namespace ApiStencil.Template

open Text

/-- What opens a block. -/
inductive Head where
  | loop (subject : Subject) (filter : Option (List Char))
  | cond (condition : List Char)
deriving DecidableEq, Repr

namespace Head

/-- The word that the end of the block has to name. -/
def closingWord : Head → String
  | .loop subject _ => subject.name
  | .cond _ => "if"

/-- The condition of a block: that of its loop's filter, or its own. -/
def condition? : Head → Option (List Char)
  | .loop _ filter => filter
  | .cond condition => some condition

/-- Whether a block is a loop. -/
def isLoop : Head → Bool
  | .loop _ _ => true
  | .cond _ => false

end Head

/-- A part of a template: text, or a block.  Lines count from one. -/
inductive Node where
  | literal (line : Nat) (text : List Char)
  | block (head : Head) (line : Nat) (opening : List Char) (body : List Node)
    (closing : List Char)
deriving Repr

namespace Node

mutual
/-- The text that a node was read from. -/
def source : Node → List Char
  | .literal _ text => text
  | .block _ _ opening body closing => opening ++ sourceAll body ++ closing

/-- The text that a sequence of nodes was read from. -/
def sourceAll : List Node → List Char
  | [] => []
  | n :: r => source n ++ sourceAll r
end

theorem sourceAll_append (a b : List Node) : sourceAll (a ++ b) = sourceAll a ++ sourceAll b := by
  induction a with
  | nil => rfl
  | cons n r ih => simp [sourceAll, ih]

/-! ### From segments to the tree -/

/-- A block that is still open, with the nodes in front of it, the last one first. -/
structure Frame where
  head : Head
  line : Nat
  opening : List Char
  before : List Node

/-- Builds the tree of a sequence of segments inside the open blocks `frames`, the innermost one
first.  `done` are the nodes read inside the innermost block, the last one first. -/
def assemble (frames : List Frame) (done : List Node) : List Segment → Except Error (List Node)
  | [] =>
    match frames with
    | [] => .ok done.reverse
    | f :: _ => .error (.unclosed f.head.closingWord f.line)
  | .literal line text :: r => assemble frames (.literal line text :: done) r
  | .malformed line k _ :: _ => .error (.malformed k line)
  | .directive line d source :: r =>
    match d with
    | .foreach word filter =>
      match Subject.ofName? word with
      | none => .error (.unknownSubject word line)
      | some subject => assemble (⟨.loop subject filter, line, source, done⟩ :: frames) [] r
    | .cond condition => assemble (⟨.cond condition, line, source, done⟩ :: frames) [] r
    | .close word =>
      match frames with
      | [] => .error (.unmatchedEnd word line)
      | f :: frames =>
        if f.head.closingWord = word then
          assemble frames (.block f.head f.line f.opening done.reverse source :: f.before) r
        else .error (.mismatchedEnd f.head.closingWord word line)

/-- The text in front of the innermost open block's body. -/
def openSource : List Frame → List Char
  | [] => []
  | f :: r => openSource r ++ sourceAll f.before.reverse ++ f.opening

theorem sourceAll_assemble {frames : List Frame} {done : List Node} {l : List Segment}
    {nodes : List Node} (h : assemble frames done l = .ok nodes) :
    sourceAll nodes = openSource frames ++ sourceAll done.reverse ++ Segment.sourceAll l := by
  fun_induction assemble frames done l with
  | case1 done =>
    cases h
    simp [openSource, Segment.sourceAll]
  | case2 => cases h
  | case3 frames done line text r ih =>
    rw [ih h]
    simp [sourceAll_append, sourceAll, source, Segment.sourceAll, Segment.source]
  | case4 => cases h
  | case5 => cases h
  | case6 frames done line src r word filter subject _ ih =>
    rw [ih h]
    simp [openSource, sourceAll, Segment.sourceAll, Segment.source]
  | case7 frames done line src r condition ih =>
    rw [ih h]
    simp [openSource, sourceAll, Segment.sourceAll, Segment.source]
  | case8 => cases h
  | case9 done line src r f frames ih =>
    rw [ih h]
    simp [openSource, sourceAll_append, sourceAll, source, Segment.sourceAll, Segment.source]
  | case10 => cases h

/-! ### Byte ranges -/

end Node

/-- A range of bytes, from `start` up to but without `stop`. -/
structure Span where
  start : Nat
  stop : Nat
deriving DecidableEq, Repr

/-- Where a block stands in its template. -/
inductive Outline where
  | block (head : Head) (line : Nat) (outer body : Span) (children : List Outline)
deriving Repr

namespace Outline

mutual
/-- The outline of a node that starts at the byte `start`, unless it is a text, and the byte at
which the node stops. -/
def ofNode (start : Nat) : Node → Option Outline × Nat
  | .literal _ text => (none, start + byteSize text)
  | .block head line opening body closing =>
    let bodyStart := start + byteSize opening
    let (children, bodyStop) := ofNodesTo bodyStart body
    let stop := bodyStop + byteSize closing
    (some (.block head line ⟨start, stop⟩ ⟨bodyStart, bodyStop⟩ children), stop)

/-- The outlines of the blocks in a sequence of nodes that starts at the byte `start`, and the byte
at which the sequence stops. -/
def ofNodesTo (start : Nat) : List Node → List Outline × Nat
  | [] => ([], start)
  | n :: r =>
    let (outline, next) := ofNode start n
    let (outlines, stop) := ofNodesTo next r
    (outline.toList ++ outlines, stop)
end

/-- The outlines of the blocks in a sequence of nodes that starts at the byte `start`. -/
def ofNodes (start : Nat) (nodes : List Node) : List Outline :=
  (ofNodesTo start nodes).1

mutual
theorem snd_ofNode (start : Nat) (n : Node) :
    (ofNode start n).2 = start + byteSize n.source := by
  cases n with
  | literal => rfl
  | block head line opening body closing =>
    simp only [ofNode, Node.source, byteSize_append, snd_ofNodesTo]
    omega

theorem snd_ofNodesTo (start : Nat) (nodes : List Node) :
    (ofNodesTo start nodes).2 = start + byteSize (Node.sourceAll nodes) := by
  cases nodes with
  | nil => simp [ofNodesTo, Node.sourceAll]
  | cons n r =>
    simp only [ofNodesTo, Node.sourceAll, byteSize_append, snd_ofNodesTo, snd_ofNode]
    omega
end

end Outline

/-- The nodes of a template. -/
def parse (text : List Char) : Except Error (List Node) :=
  Node.assemble [] [] (Segment.ofTemplate text)

/-- The nodes of a template are cut from it without loss. -/
theorem sourceAll_parse {text : List Char} {nodes : List Node} (h : parse text = .ok nodes) :
    Node.sourceAll nodes = text := by
  rw [Node.sourceAll_assemble h]
  simp [Node.openSource, Node.sourceAll, Segment.ofTemplate, Segment.sourceAll_scan]

end ApiStencil.Template
