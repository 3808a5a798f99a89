/-
ApiStencil/Proofs/Condition/Typing.lean

Conditions that are sure to have a truth value.  What is known about the values of
placeholders beforehand is their form: a number, a truth value, or a text without a
certain quote (`Form`).  The forms alone give a condition its tokens (`tokensIn?`) and
the expression that they write a kind (`Expr.kind?`).

Main statement: if this is the kind of truth values, then the condition has a truth
value, whatever the values are, as long as they have their forms
(`evaluate_of_isSure`).

The tokens stay the same, up to filling, whatever the values are
(`spells_of_tokensIn?`), and a filled expression evaluates to a value of the kind
(`Expr.eval_fill`).
-/
import ApiStencil.Condition.Eval
import ApiStencil.Proofs.Condition.Filling
import ApiStencil.Proofs.Except

namespace ApiStencil.Condition

open Placeholder Text

/-! ### Forms of values -/

/-- What can be known about a value. -/
inductive Form where
  /-- It writes a number. -/
  | integer
  /-- It writes a truth value. -/
  | boolean
  /-- It does not hold this quote. -/
  | quotable (quote : Char)
deriving DecidableEq, Repr

/-- The names about whose values something is known. -/
abbrev Forms := String → Option Form

namespace Form

/-- Whether a value has the form. -/
def Fits : Form → String → Prop
  | .integer, v => ∃ n, (Scalar.int n).token.Spelled v.toList
  | .boolean, v => ∃ b, (Scalar.bool b).token.Spelled v.toList
  | .quotable quote, v => quote ∉ v.toList

/-- The kind of the literal that a value of this form writes. -/
def kind? : Form → Option Kind
  | .integer => some .integer
  | .boolean => some .boolean
  | .quotable _ => none

/-- A value of a form that has a kind writes a literal of the kind. -/
theorem exists_scalar {form : Form} {v : String} {k : Kind} (hv : form.Fits v)
    (hk : form.kind? = some k) :
    ∃ scalar : Scalar, scalar.token.Spelled v.toList ∧ scalar.value.kind = k := by
  cases form with
  | integer =>
    obtain ⟨n, hn⟩ := hv
    exact ⟨.int n, hn, Option.some.inj hk⟩
  | boolean =>
    obtain ⟨b, hb⟩ := hv
    exact ⟨.bool b, hb, Option.some.inj hk⟩
  | quotable quote => cases hk

/-- A number that has 64 bits is written so that it can be read again. -/
theorem fits_ofInt {n : Int} (h : fitsInt64 n = true) : Form.integer.Fits (Values.ofInt n) := by
  refine ⟨n, ?_⟩
  cases n with
  | ofNat n =>
    obtain ⟨hne, hdigits, hvalue⟩ := digits_toString n
    have hspelled := Token.Spelled.natural hne hdigits (by rw [hvalue]; exact h)
    rw [hvalue] at hspelled
    exact hspelled
  -- a negative number is a minus sign and the digits of its magnitude
  | negSucc n =>
    obtain ⟨hne, hdigits, hvalue⟩ := digits_toString (n + 1)
    have hspelled := Token.Spelled.negative hne hdigits (by rw [hvalue]; exact h)
    have hlist : (Values.ofInt (.negSucc n)).toList = '-' :: (toString (n + 1)).toList :=
      String.toList_append
    rw [hvalue, ← hlist] at hspelled
    exact hspelled

/-- A truth value is written so that it can be read again. -/
theorem fits_ofBool (b : Bool) : Form.boolean.Fits (Values.ofBool b) := by
  refine ⟨b, ?_⟩
  cases b <;> exact .word (by decide) (List.all_eq_true.1 rfl)

end Form

/-- Whether every name of a known form has a value, and this has the form. -/
def Forms.Hold (forms : Forms) (values : Values) : Prop :=
  ∀ name form, forms name = some form → ∃ v, values.get? name = some v ∧ form.Fits v

section

variable {forms : Forms} {values : Values} {t : Token} {c : Char} {s rest : List Char}

/-! ### Tokens -/

/-- The kind of the literal for a name. -/
def Forms.kind? (forms : Forms) (n : List Char) : Option Kind :=
  (forms (String.ofList n)).bind Form.kind?

/-- Whether a text is sure to stay between its quotes: the values of the names in it are known not
to hold the quote. -/
def staysQuoted (forms : Forms) (quote : Char) (content : List Char) : Bool :=
  match pieces? content with
  | some pieces =>
    (pieces.filterMap Piece.name?).all fun n => forms (String.ofList n) = some (.quotable quote)
  | none => false

/-- The token with which a condition with placeholders starts, and what follows it. -/
def readIn? (forms : Forms) (c : Char) (s : List Char) : Option (Token × List Char) :=
  if c = '{' then
    match readPiece c s with
    | some (.name n, rest) =>
      if (forms.kind? n).isSome then some (.word (Piece.name n).source, rest) else none
    | _ => none
  else
    match Token.read c s with
    | some (.quoted content, rest) =>
      if staysQuoted forms c content then some (.quoted content, rest) else none
    | read => read

/-- Reading a token takes some of the text. -/
theorem length_readIn? (h : readIn? forms c s = some (t, rest)) : rest.length ≤ s.length := by
  unfold readIn? at h
  split at h
  · split at h
    · next n rest' hp =>
      split at h
      · cases h
        have hlength := congrArg List.length (readPiece_eq_some hp)
        rw [List.length_cons, List.length_append] at hlength
        have := (Piece.name n).length_source_pos
        omega
      · cases h
    · cases h
  · split at h
    · next hread =>
      split at h
      · cases h
        exact Token.length_read hread
      · cases h
    · exact Token.length_read h

/-- The tokens of a condition with placeholders, if the forms say enough about their values. -/
def tokensIn? (forms : Forms) : List Char → Option (List Token)
  | [] => some []
  | c :: s =>
    if isLayout c then tokensIn? forms s
    else match _h : readIn? forms c s with
      | none => none
      | some (t, rest) =>
        if rest.head?.any t.continuedInBy then none else (tokensIn? forms rest).map (t :: ·)
termination_by s => s.length
decreasing_by
  · exact Nat.lt_succ_self _
  · exact Nat.lt_succ_of_le (length_readIn? _h)

/-- A text that is sure to stay between its quotes is one token, whatever the values are. -/
theorem spelledIn_of_staysQuoted (hv : forms.Hold values) {quote : Char} {content : List Char}
    (hquote : quote = '\'' ∨ quote = '"') (hs : quote ∉ content)
    (h : staysQuoted forms quote content = true) :
    Token.SpelledIn values (.quoted content) (quote :: (content ++ [quote])) := by
  unfold staysQuoted at h
  split at h
  · next pieces hpieces =>
    obtain ⟨rfl, hw⟩ := pieces?_eq_some_iff.1 hpieces
    refine .quoted hquote hs hw fun n hn => hv _ (.quotable quote) ?_
    exact of_decide_eq_true (List.all_eq_true.1 h n (List.mem_filterMap.2 ⟨_, hn, rfl⟩))
  · cases h

/-- What is read is written as that token, whatever the values are. -/
theorem exists_spelledIn (hv : forms.Hold values) (h : readIn? forms c s = some (t, rest)) :
    ∃ w, c :: s = w ++ rest ∧ Token.SpelledIn values t w := by
  unfold readIn? at h
  split at h
  -- a brace starts a name, which needs a value of a kind
  · next hc =>
    subst hc
    split at h
    · next n rest' hp =>
      split at h
      · next hk =>
        cases h
        obtain ⟨k, hk⟩ := Option.isSome_iff_exists.1 hk
        obtain ⟨form, hform, hk⟩ := Option.bind_eq_some_iff.1 hk
        obtain ⟨v, hget, hfits⟩ := hv _ form hform
        obtain ⟨scalar, hscalar, -⟩ := Form.exists_scalar hfits hk
        exact ⟨_, readPiece_eq_some hp, .bare (wellFormed_of_readPiece hp) hget hscalar⟩
      · cases h
    · cases h
  · split at h
    · next content rest' hread =>
      split at h
      · next hstays =>
        cases h
        obtain ⟨w, hw, hspelled, -⟩ := Token.read_eq_some_iff.1 hread
        refine ⟨w, hw, ?_⟩
        cases hspelled with
        | quoted hquote hs =>
          obtain ⟨rfl, -⟩ := List.cons.inj hw
          exact spelledIn_of_staysQuoted hv hquote hs hstays
        | symbol h => simp [Token.symbols] at h
      · cases h
    -- any other token is the same in a text with placeholders
    · next hne =>
      obtain ⟨w, hw, hspelled, -⟩ := Token.read_eq_some_iff.1 h
      exact ⟨w, hw, .same hspelled fun content ht => hne content rest (ht ▸ h)⟩

/-- The tokens that the forms give are spelled by the text, whatever the values are. -/
theorem spells_of_tokensIn? (hv : forms.Hold values) {ts : List Token}
    (h : tokensIn? forms s = some ts) : (Dialect.withPlaceholders values).Spells ts s := by
  fun_induction tokensIn? forms s generalizing ts with
  | case1 =>
    cases h
    exact .done
  | case2 c s hc ih => exact .blank hc (ih h)
  | case3 => cases h
  | case4 => cases h
  | case5 c s hc t rest hread hstop ih =>
    obtain ⟨ts, hts, rfl⟩ := Option.map_eq_some_iff.1 h
    obtain ⟨w, hw, hspelled⟩ := exists_spelledIn hv hread
    rw [hw]
    refine .token hspelled (fun x hx => Bool.eq_false_iff.2 fun hx' => hstop ?_) (ih hts)
    rw [Option.mem_def.1 hx]
    exact hx'

/-! ### Kinds -/

/-- Whether an operator compares values of these kinds. -/
def Comparison.takes (op : Comparison) (a b : Kind) : Bool :=
  match op with
  | .equal | .notEqual => a = b
  | .isIn | .notIn => b = .list ∨ a = .string ∧ b = .string

/-- An operator applies to values of kinds that it takes. -/
theorem Comparison.exists_apply {op : Comparison} {a b : Value}
    (h : op.takes a.kind b.kind = true) : ∃ r, op.apply a b = .ok r := by
  cases op with
  | equal | notEqual => exact ⟨_, if_pos (of_decide_eq_true h)⟩
  | isIn | notIn =>
    rcases of_decide_eq_true h with hb | ⟨ha, hb⟩
    · cases b with
      | list items => exact ⟨_, rfl⟩
      | _ => cases hb
    · cases a <;> cases ha
      cases b <;> cases hb
      exact ⟨_, rfl⟩

mutual
/-- The kind of an expression with placeholders, if it is sure to have a value. -/
def Expr.kind? (forms : Forms) : Expr → Option Kind
  | .literal v => some v.kind
  | .list items => if haveKinds forms items then some .list else none
  | .name s => (bareName? s).bind forms.kind?
  | .negate e => if kind? forms e = some .boolean then some .boolean else none
  | .both a b | .either a b =>
    if kind? forms a = some .boolean ∧ kind? forms b = some .boolean then some .boolean else none
  | .compare op a b =>
    match kind? forms a, kind? forms b with
    | some left, some right => if op.takes left right then some .boolean else none
    | _, _ => none

/-- Whether all expressions of a list have a kind. -/
def Expr.haveKinds (forms : Forms) : List Expr → Bool
  | [] => true
  | e :: r => (kind? forms e).isSome && haveKinds forms r
end

/-- A value of the boolean kind is a truth value. -/
theorem Value.exists_bool {v : Value} (h : v.kind = .boolean) : ∃ b, v = .bool b := by
  cases v with
  | bool b => exact ⟨b, rfl⟩
  | _ => cases h

/-- A name in braces is filled with a literal of its kind. -/
theorem eval_fill_name (hv : forms.Hold values) {k : Kind}
    (h : (bareName? s).bind forms.kind? = some k) :
    ∃ v, ((Expr.name s).fill values).eval = .ok v ∧ v.kind = k := by
  obtain ⟨n, hn, h⟩ := Option.bind_eq_some_iff.1 h
  obtain ⟨form, hform, hk⟩ := Option.bind_eq_some_iff.1 h
  obtain ⟨v, hget, hfits⟩ := hv _ form hform
  obtain ⟨scalar, hspelled, hkind⟩ := Form.exists_scalar hfits hk
  have hscalar : scalar? values s = some scalar := by
    rw [scalar?, hn, Option.bind_some, hget, Option.bind_some, Scalar.read?_of_spelled hspelled]
  refine ⟨scalar.value, ?_, hkind⟩
  simp only [Expr.fill, hscalar, Expr.eval]

mutual
/-- An expression with a kind has a value of this kind when its placeholders are filled. -/
theorem Expr.eval_fill (hv : forms.Hold values) {k : Kind} (e : Expr) (h : e.kind? forms = some k) :
    ∃ v, (e.fill values).eval = .ok v ∧ v.kind = k := by
  match e with
  | .literal v => cases v <;> cases h <;> exact ⟨_, rfl, rfl⟩
  | .list items =>
    rw [kind?] at h
    split at h
    · next hitems =>
      cases h
      obtain ⟨vs, hvs⟩ := evalAll_fillAll hv items hitems
      exact ⟨.list vs, by rw [fill, eval, hvs]; rfl, rfl⟩
    · cases h
  | .name s => exact eval_fill_name hv h
  | .negate e =>
    rw [kind?] at h
    split at h
    · next he =>
      cases h
      obtain ⟨v, hv, hk⟩ := eval_fill hv e he
      obtain ⟨b, rfl⟩ := Value.exists_bool hk
      exact ⟨.bool !b, by rw [fill, eval, hv]; rfl, rfl⟩
    · cases h
  | .both a b =>
    rw [kind?] at h
    split at h
    · next hab =>
      cases h
      obtain ⟨v, ha, hk⟩ := eval_fill hv a hab.1
      obtain ⟨x, rfl⟩ := Value.exists_bool hk
      obtain ⟨w, hb, hk⟩ := eval_fill hv b hab.2
      obtain ⟨y, rfl⟩ := Value.exists_bool hk
      -- the second operand is evaluated only if the first does not decide
      cases x
      · exact ⟨.bool false, by rw [fill, eval, ha]; rfl, rfl⟩
      · exact ⟨.bool y, by rw [fill, eval, ha, hb]; rfl, rfl⟩
    · cases h
  | .either a b =>
    rw [kind?] at h
    split at h
    · next hab =>
      cases h
      obtain ⟨v, ha, hk⟩ := eval_fill hv a hab.1
      obtain ⟨x, rfl⟩ := Value.exists_bool hk
      obtain ⟨w, hb, hk⟩ := eval_fill hv b hab.2
      obtain ⟨y, rfl⟩ := Value.exists_bool hk
      cases x
      · exact ⟨.bool y, by rw [fill, eval, ha, hb]; rfl, rfl⟩
      · exact ⟨.bool true, by rw [fill, eval, ha]; rfl, rfl⟩
    · cases h
  | .compare op a b =>
    rw [kind?] at h
    split at h
    · next left right hleft hright =>
      split at h
      · next htakes =>
        cases h
        obtain ⟨v, ha, rfl⟩ := eval_fill hv a hleft
        obtain ⟨w, hb, rfl⟩ := eval_fill hv b hright
        obtain ⟨r, hr⟩ := Comparison.exists_apply htakes
        refine ⟨.bool r, ?_, rfl⟩
        rw [fill, eval, ha, hb, ok_bind, ok_bind, hr]
        rfl
      · cases h
    · cases h

/-- A list of expressions with kinds has values when it is filled. -/
theorem Expr.evalAll_fillAll (hv : forms.Hold values) (es : List Expr)
    (h : haveKinds forms es = true) : ∃ vs, evalAll (fillAll values es) = .ok vs := by
  match es with
  | [] => exact ⟨[], rfl⟩
  | e :: r =>
    rw [haveKinds, Bool.and_eq_true] at h
    obtain ⟨k, hk⟩ := Option.isSome_iff_exists.1 h.1
    obtain ⟨v, hv', -⟩ := eval_fill hv e hk
    obtain ⟨vs, hvs⟩ := evalAll_fillAll hv r h.2
    exact ⟨v :: vs, by rw [fillAll, evalAll, hv', hvs]; rfl⟩
end

/-! ### Conditions -/

/-- Whether the forms of the values make a condition sure to have a truth value. -/
def isSure (forms : Forms) (condition : List Char) : Bool :=
  match (tokensIn? forms condition).bind readExpression with
  | some (e, []) => e.kind? forms = some .boolean
  | _ => false

/-- A condition that is sure to have a truth value has one when its placeholders are replaced by
values of the known forms. -/
theorem evaluate_of_isSure (hv : forms.Hold values) {condition : List Char}
    (h : isSure forms condition = true) :
    ∃ text b, substitute values condition = .ok text ∧ evaluate text = .ok b := by
  unfold isSure at h
  split at h
  · next e hread =>
    obtain ⟨ts, hts, hread⟩ := Option.bind_eq_some_iff.1 hread
    obtain ⟨text, htext, hspells, -⟩ := (spells_of_tokensIn? hv hts).substitute
    -- what the tokens derive before they are filled, they derive filled afterwards
    have hfilled : Expr.ofText text = .ok (e.fill values) :=
      ofText_eq_ok_iff.2 ⟨_, (readExpression_eq_some_iff.1 hread).fill, hspells⟩
    obtain ⟨v, heval, hk⟩ := e.eval_fill hv (of_decide_eq_true h)
    obtain ⟨b, rfl⟩ := Value.exists_bool hk
    refine ⟨text, b, htext, ?_⟩
    rw [evaluate, hfilled, ok_bind, heval]
    rfl
  · cases h

end

end ApiStencil.Condition
