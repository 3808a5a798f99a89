/-
ApiStencil/Condition/Reader.lean

Reading an expression from tokens.  The levels bind more and more tightly:
`or`, `and`, `not`, one comparison, and primaries.  A level is a `Reader`, which
takes at least one token whenever it succeeds, and is built from the reader of
the level below; only primaries lead back to whole expressions, inside their
brackets, so the depth of brackets bounds the recursion.

Reading never fails half way: an operator without a right operand is left
unread, and `not` without an operand is a name.
-/
import ApiStencil.Condition.Basic
import ApiStencil.Condition.Token

namespace ApiStencil.Condition

/-- Reads an `α` from the front of a list of tokens, of which it takes at least one. -/
structure Reader (α : Type) where
  read : List Token → Option (α × List Token)
  shorter : ∀ {ts a rest}, read ts = some (a, rest) → rest.length < ts.length

namespace Reader

variable {α : Type}

/-- The reader that never succeeds. -/
def fail : Reader α := ⟨fun _ => none, by simp⟩

/-- Reads as many pairs of a separator and an item as there are. -/
def repeated (isSeparator : Token → Bool) (item : Reader α) (ts : List Token) :
    List α × List Token :=
  match ts with
  | [] => ([], [])
  | t :: r =>
    if isSeparator t then
      match _h : item.read r with
      | some (a, rest) =>
        let more := repeated isSeparator item rest
        (a :: more.1, more.2)
      | none => ([], t :: r)
    else ([], t :: r)
termination_by ts.length
decreasing_by
  have := item.shorter _h
  simp
  omega

theorem length_repeated (isSeparator : Token → Bool) (item : Reader α) (ts : List Token) :
    (repeated isSeparator item ts).2.length ≤ ts.length := by
  fun_induction repeated isSeparator item ts with
  | case1 => simp
  | case2 t r _ a rest h more ih =>
    have := item.shorter h
    show more.2.length ≤ r.length + 1
    have : more.2.length ≤ rest.length := ih
    omega
  | case3 => simp
  | case4 => simp

/-- Reads one or more items between separators and joins them from the left. -/
def joined (isSeparator : Token → Bool) (join : α → α → α) (item : Reader α) : Reader α where
  read ts :=
    (item.read ts).map fun (first, r) =>
      let more := repeated isSeparator item r
      (more.1.foldl join first, more.2)
  shorter {ts a rest} h := by
    obtain ⟨⟨first, r⟩, hr, he⟩ := Option.map_eq_some_iff.1 h
    have h1 := item.shorter hr
    have h2 := length_repeated isSeparator item r
    have h3 : (repeated isSeparator item r).2 = rest := (Prod.mk.inj he).2
    rw [h3] at h2
    omega

end Reader

/-! ### Primaries -/

/-- The words that stand for truth values, and all others for names. -/
def Expr.ofWord (s : List Char) : Expr :=
  if s = "True".toList ∨ s = "true".toList then .literal (.bool true)
  else if s = "False".toList ∨ s = "false".toList then .literal (.bool false)
  else .name s

/-- The items of a list after its opening bracket, up to and with its closing bracket.  A comma
may stand before the closing bracket. -/
def readItems (item : Reader Expr) (ts : List Token) : Option (Expr × List Token) :=
  let items : List Expr × List Token :=
    match item.read ts with
    | some (first, r) =>
      let more := Reader.repeated (· = .comma) item r
      (first :: more.1, more.2)
    | none => ([], ts)
  match items.2 with
  | .closeBracket :: rest => some (.list items.1, rest)
  | .comma :: .closeBracket :: rest => some (.list items.1, rest)
  | _ => none

/-- What a primary is, given how the expressions and primaries inside its brackets are read. -/
def readPrimary (expression item : Reader Expr) : List Token → Option (Expr × List Token)
  | .openParen :: ts =>
    match expression.read ts with
    | some (e, .closeParen :: rest) => some (e, rest)
    | _ => none
  | .openBracket :: ts => readItems item ts
  | .quoted s :: ts => some (.literal (.text s), ts)
  | .integer n :: ts => some (.literal (.int n), ts)
  | .word s :: ts => some (.ofWord s, ts)
  | _ => none

theorem length_readItems {item : Reader Expr} {ts rest : List Token} {e : Expr}
    (h : readItems item ts = some (e, rest)) : rest.length < ts.length := by
  have key : ∀ l : List Expr × List Token, l.2.length ≤ ts.length →
      (match l.2 with
        | .closeBracket :: rest => some (Expr.list l.1, rest)
        | .comma :: .closeBracket :: rest => some (Expr.list l.1, rest)
        | _ => none) = some (e, rest) → rest.length < ts.length := by
    intro l hl hm
    split at hm <;> simp_all
    all_goals omega
  unfold readItems at h
  refine key _ ?_ h
  split
  · next first r hr =>
    have h1 := item.shorter hr
    have h2 := Reader.length_repeated (· = .comma) item r
    show (Reader.repeated (· = .comma) item r).2.length ≤ ts.length
    omega
  · exact Nat.le_refl _

theorem length_readPrimary {expression item : Reader Expr} {ts rest : List Token} {e : Expr}
    (h : readPrimary expression item ts = some (e, rest)) : rest.length < ts.length := by
  unfold readPrimary at h
  split at h
  · split at h
    · next hr =>
      have := expression.shorter hr
      simp_all
      omega
    · simp at h
  · have := length_readItems h
    simp
    omega
  all_goals simp_all

def primaryReader (expression item : Reader Expr) : Reader Expr :=
  ⟨readPrimary expression item, length_readPrimary⟩

/-! ### The levels above -/

/-- A comparison operator and what follows it. -/
def readComparison : List Token → Option (Comparison × List Token)
  | .equal :: ts => some (.equal, ts)
  | .notEqual :: ts => some (.notEqual, ts)
  | .word ['n', 'o', 't'] :: .word ['i', 'n'] :: ts => some (.notIn, ts)
  | .word ['i', 'n'] :: ts => some (.isIn, ts)
  | _ => none

theorem length_readComparison {ts rest : List Token} {op : Comparison}
    (h : readComparison ts = some (op, rest)) : rest.length < ts.length := by
  unfold readComparison at h
  split at h
  · simp_all
  · simp_all
  · obtain ⟨-, rfl⟩ : _ ∧ _ = rest := by simpa using h
    exact Nat.lt_add_of_pos_right (by decide : 0 < 2)
  · simp_all
  · simp at h

/-- One primary, or two with a comparison operator between them. -/
def comparisonReader (primary : Reader Expr) : Reader Expr where
  read ts :=
    match primary.read ts with
    | none => none
    | some (a, r) =>
      match readComparison r with
      | none => some (a, r)
      | some (op, r') =>
        match primary.read r' with
        | none => some (a, r)
        | some (b, rest) => some (.compare op a b, rest)
  shorter {ts e rest} h := by
    split at h
    · simp at h
    · next a r h1 =>
      have := primary.shorter h1
      split at h
      · simp_all
      · next op r' h2 =>
        have := length_readComparison h2
        split at h
        · simp_all
        · next b rest' h3 =>
          have := primary.shorter h3
          simp_all
          omega

/-- The spellings of negation. -/
def Token.isNot (t : Token) : Bool :=
  t = .word ['n', 'o', 't'] || t = .bang

/-- Any number of negations in front of a comparison.  A negation with nothing to negate is read
as a comparison itself. -/
def readNegation (comparison : Reader Expr) : List Token → Option (Expr × List Token)
  | [] => none
  | t :: ts =>
    if t.isNot then
      match readNegation comparison ts with
      | some (e, rest) => some (.negate e, rest)
      | none => comparison.read (t :: ts)
    else comparison.read (t :: ts)

theorem length_readNegation {comparison : Reader Expr} {ts rest : List Token} {e : Expr}
    (h : readNegation comparison ts = some (e, rest)) : rest.length < ts.length := by
  induction ts generalizing e rest with
  | nil => simp [readNegation] at h
  | cons t ts ih =>
    unfold readNegation at h
    split at h
    · split at h
      · next e' r hr =>
        have := ih hr
        simp_all
        omega
      · exact comparison.shorter h
    · exact comparison.shorter h

def negationReader (comparison : Reader Expr) : Reader Expr :=
  ⟨readNegation comparison, length_readNegation⟩

/-- The spellings of conjunction. -/
def Token.isAnd (t : Token) : Bool :=
  t = .word ['a', 'n', 'd'] || t = .ampersands

/-- The spellings of disjunction. -/
def Token.isOr (t : Token) : Bool :=
  t = .word ['o', 'r'] || t = .bars

/-- A whole expression over the given primaries. -/
def expressionReader (primary : Reader Expr) : Reader Expr :=
  .joined Token.isOr .either
    (.joined Token.isAnd .both (negationReader (comparisonReader primary)))

/-- Primaries with fewer than `depth` brackets around each other. -/
def primaryUpTo : Nat → Reader Expr
  | 0 => .fail
  | depth + 1 =>
    let inner := primaryUpTo depth
    primaryReader (expressionReader inner) inner

/-- Reads an expression from the front of a list of tokens. -/
def readExpression (ts : List Token) : Option (Expr × List Token) :=
  (expressionReader (primaryUpTo ts.length)).read ts

/-! ### Texts -/

/-- The expression that a text writes.  Reading stops in front of the first token that cannot
belong to it, and when there is no expression at all, in front of the first token. -/
def Expr.ofText (text : List Char) : Except Error Expr :=
  let lexemes := Lexeme.scan 0 text
  let stoppedBefore (unread : Nat) : Error :=
    .malformed text <|
      match lexemes[lexemes.length - unread]? with
      | some lexeme => lexeme.start
      | none => Text.byteSize text
  match readExpression (lexemes.map Lexeme.token) with
  | some (e, []) => .ok e
  | some (_, rest) => .error (stoppedBefore rest.length)
  | none => .error (stoppedBefore lexemes.length)

end ApiStencil.Condition
