/-
ApiStencil/Markup/Node.lean

A marked-up document as a tree of elements.  Elements that are still open at the
end of the document, or at a closing tag that is not theirs, end there.
-/
import ApiStencil.Markup.Token

namespace ApiStencil.Markup

/-- An element or a text. -/
inductive Node where
  | element (name : String) (attributes : List (String × String)) (children : List Node)
  | text (s : List Char)

namespace Node

/-! ### Building the tree -/

/-- An element whose closing tag has not come yet, with the nodes in front of it.  All nodes are
in reverse order. -/
structure Opened where
  name : String
  attributes : List (String × String)
  before : List Node

/-- Closes all open elements.  `children` are the nodes of the innermost. -/
def closeAll (children : List Node) : List Opened → List Node
  | [] => children.reverse
  | o :: outer => closeAll (.element o.name o.attributes children.reverse :: o.before) outer

/-- The nodes that tokens make after those in `children`, which stand in the innermost open
element. -/
def build (children : List Node) (opened : List Opened) : List Token → List Node
  | [] => closeAll children opened
  | .text s :: r => build (.text s :: children) opened r
  | .opening name attributes :: r => build [] (⟨name, attributes, children⟩ :: opened) r
  | .closing name :: r =>
    match opened with
    | o :: outer =>
      if o.name = name then
        build (.element o.name o.attributes children.reverse :: o.before) outer r
      else closeAll children opened
    | [] => closeAll children opened

/-- The nodes of a text. -/
def ofText (s : List Char) : List Node :=
  build [] [] (scan s)

/-! ### Reading the tree -/

/-- The value of an attribute.  The first of several counts. -/
def attribute? (name : String) : Node → Option String
  | .element _ attributes _ => (attributes.find? (·.1 = name)).map Prod.snd
  | .text _ => none

def children : Node → List Node
  | .element _ _ children => children
  | .text _ => []

def isNamed (name : String) : Node → Bool
  | .element n _ _ => n = name
  | .text _ => false

/-- The children of an element that have this name. -/
def childrenNamed (name : String) (n : Node) : List Node :=
  n.children.filter (isNamed name)

mutual
/-- The text of a node, without its tags. -/
def content : Node → List Char
  | .text s => s
  | .element _ _ children => contents children

/-- The texts of nodes one after the other. -/
def contents : List Node → List Char
  | [] => []
  | n :: r => content n ++ contents r
end

/-- The text of a node. -/
def string (n : Node) : String :=
  String.ofList n.content

/-- The text of an element, with that of the child elements whose names are listed. -/
def code (names : List String) (n : Node) : String :=
  String.ofList <| n.children.flatMap fun
    | .text s => s
    | .element name attributes children =>
      if name ∈ names then content (.element name attributes children) else []

end Node

end ApiStencil.Markup
