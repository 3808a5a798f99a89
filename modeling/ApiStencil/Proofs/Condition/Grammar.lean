/-
ApiStencil/Proofs/Condition/Grammar.lean

The grammar of conditions, over tokens and as texts.  A level of the grammar holds
the levels that bind more tightly; `or` and `and` group to the left, a comparison
has two primaries, and only brackets lead back to the loosest level.

A derivation carries the tokens that follow the expression, as one rule has to see
the next of them: the word `not` in front of an operand is the operator, so that a
name `not` cannot stand there.  Other comparisons are negations as they are
(`Derives.negation_of_ne`), so that what has no such name may do without parentheses
wherever the levels allow it.
-/
import ApiStencil.Condition.Reader
import ApiStencil.Proofs.Condition.Lexis

namespace ApiStencil.Condition

/-! ### Words and operators -/

/-- The words for a truth value. -/
def boolWords : Bool → List (List Char)
  | true => ["True".toList, "true".toList]
  | false => ["False".toList, "false".toList]

/-- A word for a truth value is read as the value. -/
theorem Expr.ofWord_of_mem {b : Bool} {s : List Char} (h : s ∈ boolWords b) :
    Expr.ofWord s = .literal (.bool b) := by
  cases b with
  | true => exact if_pos (by simpa [boolWords] using h)
  | false =>
    have h : s = "False".toList ∨ s = "false".toList := by simpa [boolWords] using h
    have hne : ¬ (s = "True".toList ∨ s = "true".toList) := by
      rcases h with rfl | rfl <;> decide
    rw [Expr.ofWord, if_neg hne, if_pos h]

theorem Expr.ofWord_of_not_mem {s : List Char} (h : ∀ b, s ∉ boolWords b) :
    Expr.ofWord s = .name s := by
  have ht : ¬ (s = "True".toList ∨ s = "true".toList) := by simpa [boolWords] using h true
  have hf : ¬ (s = "False".toList ∨ s = "false".toList) := by simpa [boolWords] using h false
  rw [Expr.ofWord, if_neg ht, if_neg hf]

theorem Token.isNot_iff {t : Token} :
    t.isNot = true ↔ t = .word ['n', 'o', 't'] ∨ t = .bang := by
  simp only [isNot, Bool.or_eq_true, decide_eq_true_eq]

theorem Token.isAnd_iff {t : Token} :
    t.isAnd = true ↔ t = .word ['a', 'n', 'd'] ∨ t = .ampersands := by
  simp only [isAnd, Bool.or_eq_true, decide_eq_true_eq]

theorem Token.isOr_iff {t : Token} :
    t.isOr = true ↔ t = .word ['o', 'r'] ∨ t = .bars := by
  simp only [isOr, Bool.or_eq_true, decide_eq_true_eq]

/-- The tokens of a comparison operator. -/
def Comparison.tokens : Comparison → List Token
  | .equal => [.equal]
  | .notEqual => [.notEqual]
  | .isIn => [.word ['i', 'n']]
  | .notIn => [.word ['n', 'o', 't'], .word ['i', 'n']]

/-- The tokens with which an operand can start. -/
def Token.startsOperand : Token → Bool
  | .word _ => true
  | .integer _ => true
  | .quoted _ => true
  | .bang => true
  | .openParen => true
  | .openBracket => true
  | _ => false

/-- Whether the tokens start with the word `not` and something that it can negate. -/
def startsNegation : List Token → Bool
  | .word ['n', 'o', 't'] :: t :: _ => t.startsOperand
  | _ => false

/-- Only the word `not` can start a negation that is spelled as a word. -/
theorem startsNegation_of_ne {s : List Char} (h : s ≠ ['n', 'o', 't']) (ts : List Token) :
    startsNegation (.word s :: ts) = false := by
  unfold startsNegation
  split
  · next he => exact absurd (Token.word.inj (List.cons.inj he).1) h
  · rfl

/-! ### The rules -/

/-- The end of a list, with an optional comma. -/
inductive Closing : List Token → List Token → Prop
  | bracket (rest : List Token) : Closing (.closeBracket :: rest) rest
  | comma (rest : List Token) : Closing (.comma :: .closeBracket :: rest) rest

/-- What tokens can stand for: an expression of one of the levels, or the items of a list behind
its first one, each with the comma in front of it. -/
inductive Phrase where
  | disjunction (e : Expr)
  | conjunction (e : Expr)
  | negation (e : Expr)
  | comparison (e : Expr)
  | primary (e : Expr)
  | items (es : List Expr)

/-- `Derives p ts rest`: the tokens `ts` up to `rest` are a way to write `p`. -/
inductive Derives : Phrase → List Token → List Token → Prop
  | text (s : List Char) (rest : List Token) :
      Derives (.primary (.literal (.text s))) (.quoted s :: rest) rest
  | integer (n : Int) (rest : List Token) :
      Derives (.primary (.literal (.int n))) (.integer n :: rest) rest
  | bool {b : Bool} {s : List Char} (h : s ∈ boolWords b) (rest : List Token) :
      Derives (.primary (.literal (.bool b))) (.word s :: rest) rest
  | name {s : List Char} (h : ∀ b, s ∉ boolWords b) (rest : List Token) :
      Derives (.primary (.name s)) (.word s :: rest) rest
  | parentheses {e : Expr} {ts rest : List Token}
      (h : Derives (.disjunction e) ts (.closeParen :: rest)) :
      Derives (.primary e) (.openParen :: ts) rest
  | emptyList {ts rest : List Token} (h : Closing ts rest) :
      Derives (.primary (.list [])) (.openBracket :: ts) rest
  | list {e : Expr} {es : List Expr} {ts r r' rest : List Token}
      (he : Derives (.primary e) ts r) (hs : Derives (.items es) r r') (hc : Closing r' rest) :
      Derives (.primary (.list (e :: es))) (.openBracket :: ts) rest
  | noItem (rest : List Token) : Derives (.items []) rest rest
  | item {e : Expr} {es : List Expr} {ts r rest : List Token}
      (he : Derives (.primary e) ts r) (hs : Derives (.items es) r rest) :
      Derives (.items (e :: es)) (.comma :: ts) rest
  | alone {e : Expr} {ts rest : List Token} (h : Derives (.primary e) ts rest) :
      Derives (.comparison e) ts rest
  | compare {op : Comparison} {a b : Expr} {ts r rest : List Token}
      (ha : Derives (.primary a) ts (op.tokens ++ r)) (hb : Derives (.primary b) r rest) :
      Derives (.comparison (.compare op a b)) ts rest
  | negate {t : Token} {e : Expr} {ts rest : List Token} (ht : t.isNot = true)
      (h : Derives (.negation e) ts rest) : Derives (.negation (.negate e)) (t :: ts) rest
  | plain {e : Expr} {ts rest : List Token} (h : Derives (.comparison e) ts rest)
      (hn : startsNegation ts = false) : Derives (.negation e) ts rest
  | both {t : Token} {a b : Expr} {ts r rest : List Token} (ht : t.isAnd = true)
      (ha : Derives (.conjunction a) ts (t :: r)) (hb : Derives (.negation b) r rest) :
      Derives (.conjunction (.both a b)) ts rest
  | oneNegation {e : Expr} {ts rest : List Token} (h : Derives (.negation e) ts rest) :
      Derives (.conjunction e) ts rest
  | either {t : Token} {a b : Expr} {ts r rest : List Token} (ht : t.isOr = true)
      (ha : Derives (.disjunction a) ts (t :: r)) (hb : Derives (.conjunction b) r rest) :
      Derives (.disjunction (.either a b)) ts rest
  | oneConjunction {e : Expr} {ts rest : List Token} (h : Derives (.conjunction e) ts rest) :
      Derives (.disjunction e) ts rest

/-- The text is a way to write the expression. -/
def Renders (e : Expr) (text : List Char) : Prop :=
  ∃ ts, Derives (.disjunction e) ts [] ∧ Dialect.plain.Spells ts text

namespace Derives

/-- Only a comparison that starts with the name `not` can be mistaken for a negation. -/
theorem negation_of_ne {e : Expr} {ts rest : List Token} (h : Derives (.comparison e) ts rest)
    (hn : e ≠ .name ['n', 'o', 't']) (hc : ∀ op b, e ≠ .compare op (.name ['n', 'o', 't']) b) :
    Derives (.negation e) ts rest := by
  -- a primary that starts with the word `not` is the name
  have primary : ∀ {a r}, Derives (.primary a) ts r → a ≠ .name ['n', 'o', 't'] →
      startsNegation ts = false := by
    intro a r ha hne
    cases ha with
    | @bool b s hs =>
      refine startsNegation_of_ne ?_ r
      rintro rfl
      cases b <;> exact absurd hs (by decide)
    | name hs => exact startsNegation_of_ne (fun he => hne (he ▸ rfl)) r
    | _ => rfl
  cases h with
  | alone h => exact .plain (.alone h) (primary h hn)
  | compare ha hb => exact .plain (.compare ha hb) (primary ha fun he => hc _ _ (by rw [he]))

/-- A derivation ends at or behind its beginning. -/
theorem length_le {p : Phrase} {ts rest : List Token} (h : Derives p ts rest) :
    rest.length ≤ ts.length := by
  induction h with
  | text | integer | bool | name => exact Nat.le_succ _
  | parentheses _ ih => exact Nat.le_trans (Nat.le_succ _) (Nat.le_succ_of_le ih)
  | emptyList h => cases h <;> simp only [List.length_cons] <;> omega
  | list _ _ hc ih ih' => cases hc <;> simp only [List.length_cons] at * <;> omega
  | noItem => exact Nat.le_refl _
  | item _ _ ih ih' => exact Nat.le_succ_of_le (Nat.le_trans ih' ih)
  -- the operator takes tokens as well, but that it takes none would be enough
  | compare _ _ ih ih' =>
    rw [List.length_append] at ih
    omega
  | both _ _ _ ih ih' | either _ _ _ ih ih' =>
    rw [List.length_cons] at ih
    omega
  | negate _ _ ih => exact Nat.le_succ_of_le ih
  | alone _ ih | plain _ _ ih | oneNegation _ ih | oneConjunction _ ih => exact ih

end Derives

end ApiStencil.Condition
