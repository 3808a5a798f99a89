/-
ApiStencil/Proofs/Condition/Filling.lean

Placeholders in conditions.  A condition is read after its placeholders have been
replaced in its text; here the two steps are exchanged.  A text with placeholders
renders an expression with placeholders: inside quotes they are part of a text,
and outside they are names in braces (`RendersIn`).

Main statement: replacing the placeholders and then reading gives the expression
in which every text is the replaced one, and every name in braces a literal
(`ofText_substitute`).  So no value changes the structure of a condition, provided
that it stays between the quotes around it, and is a literal where there are none.

Filling changes neither the operators nor the brackets among the tokens, which
carries derivations over (`Derives.fill`).  Spellings carry over token by token
(`Token.SpelledIn.substitute`), as a replaced token joins no neighbour that it did
not join before (`Dialect.Spells.substitute`).
-/
import ApiStencil.Proofs.Condition.Reading
import ApiStencil.Proofs.Placeholder.Pieces

namespace ApiStencil.Condition

open Placeholder Text

/-! ### What stands for a placeholder -/

/-- A literal that can be written without quotes. -/
inductive Scalar where
  | bool (b : Bool)
  | int (n : Int)

namespace Scalar

/-- The value of a literal. -/
def value : Scalar → Value
  | .bool b => .bool b
  | .int n => .int n

/-- The token that writes a literal. -/
def token : Scalar → Token
  | .bool true => .word "true".toList
  | .bool false => .word "false".toList
  | .int n => .integer n

/-- The literal that a text writes. -/
def read? (s : List Char) : Option Scalar :=
  if s = "true".toList then some (.bool true)
  else if s = "false".toList then some (.bool false)
  else (readInt? 10 s).map .int

end Scalar

/-- The name in a text that is a name in braces. -/
def bareName? : List Char → Option (List Char)
  | '{' :: s =>
    match readName s with
    | some (.name n, []) => some n
    | _ => none
  | _ => none

/-- The literal for a name in braces. -/
def scalar? (values : Values) (s : List Char) : Option Scalar :=
  (bareName? s).bind fun n => (values.get? (String.ofList n)).bind fun v => Scalar.read? v.toList

/-- The text in which placeholders are replaced, if all of them can be. -/
def filledText (values : Values) (s : List Char) : List Char :=
  match substitute values s with
  | .ok s' => s'
  | .error _ => s

mutual
/-- Replaces the placeholders in texts, and the names in braces by literals. -/
def Expr.fill (values : Values) : Expr → Expr
  | .literal (.text s) => .literal (.text (filledText values s))
  | .literal v => .literal v
  | .list items => .list (fillAll values items)
  | .name s =>
    match scalar? values s with
    | some scalar => .literal scalar.value
    | none => .name s
  | .negate e => .negate (fill values e)
  | .both a b => .both (fill values a) (fill values b)
  | .either a b => .either (fill values a) (fill values b)
  | .compare op a b => .compare op (fill values a) (fill values b)

/-- The same for the items of a list. -/
def Expr.fillAll (values : Values) : List Expr → List Expr
  | [] => []
  | e :: es => fill values e :: fillAll values es
end

/-- Filling a phrase fills its expressions. -/
def Phrase.fill (values : Values) : Phrase → Phrase
  | .disjunction e => .disjunction (e.fill values)
  | .conjunction e => .conjunction (e.fill values)
  | .negation e => .negation (e.fill values)
  | .comparison e => .comparison (e.fill values)
  | .primary e => .primary (e.fill values)
  | .items es => .items (Expr.fillAll values es)

/-- Filling a token, which is a quoted text or may be the name of a placeholder. -/
def Token.fill (values : Values) : Token → Token
  | .quoted s => .quoted (filledText values s)
  | .word s =>
    match scalar? values s with
    | some scalar => scalar.token
    | none => .word s
  | t => t

/-! ### Derivations -/

variable {values : Values}

/-- Only a text that starts with a brace stands for a literal. -/
theorem scalar?_of_head {c : Char} (h : c ≠ '{') (s : List Char) :
    scalar? values (c :: s) = none := by
  have : bareName? (c :: s) = none := by
    unfold bareName?
    split
    · next he => exact absurd (List.cons.inj he).1 h
    · rfl
  rw [scalar?, this]
  rfl

/-- The words for truth values are not filled. -/
theorem scalar?_of_mem_boolWords {b : Bool} {s : List Char} (h : s ∈ boolWords b) :
    scalar? values s = none := by
  cases b with
  | true =>
    have h : s = "True".toList ∨ s = "true".toList := by simpa [boolWords] using h
    rcases h with rfl | rfl <;> exact scalar?_of_head (by decide) _
  | false =>
    have h : s = "False".toList ∨ s = "false".toList := by simpa [boolWords] using h
    rcases h with rfl | rfl <;> exact scalar?_of_head (by decide) _

theorem fill_word_of_none {s : List Char} (h : scalar? values s = none) :
    (Token.word s).fill values = .word s := by
  simp only [Token.fill, h]

theorem fill_word_of_some {s : List Char} {scalar : Scalar} (h : scalar? values s = some scalar) :
    (Token.word s).fill values = scalar.token := by
  simp only [Token.fill, h]

theorem fill_word_cons {c : Char} (h : c ≠ '{') (s : List Char) :
    (Token.word (c :: s)).fill values = .word (c :: s) :=
  fill_word_of_none (scalar?_of_head h s)

/-- A literal is not the word `not`. -/
theorem Scalar.startsNegation_token (scalar : Scalar) (ts : List Token) :
    startsNegation (scalar.token :: ts) = false := by
  rcases scalar with (- | -) | n
  · exact startsNegation_of_ne (by decide) ts
  · exact startsNegation_of_ne (by decide) ts
  · rfl

theorem Scalar.startsOperand_token (scalar : Scalar) : scalar.token.startsOperand = true := by
  rcases scalar with (- | -) | n <;> rfl

/-- The token of a literal is derived as the literal. -/
theorem Scalar.derives (scalar : Scalar) (rest : List Token) :
    Derives (.primary (.literal scalar.value)) (scalar.token :: rest) rest := by
  rcases scalar with (- | -) | n
  · exact .bool (b := false) (by decide) rest
  · exact .bool (b := true) (by decide) rest
  · exact .integer n rest

theorem fill_operator {t : Token} (h : t.isNot = true ∨ t.isAnd = true ∨ t.isOr = true) :
    t.fill values = t := by
  rw [Token.isNot_iff, Token.isAnd_iff, Token.isOr_iff] at h
  rcases h with (rfl | rfl) | (rfl | rfl) | (rfl | rfl) <;> rfl

theorem map_fill_tokens (op : Comparison) : op.tokens.map (Token.fill values) = op.tokens := by
  cases op <;> rfl

/-- Filling does not change which tokens an operand can start with. -/
theorem startsOperand_fill (t : Token) : (t.fill values).startsOperand = t.startsOperand := by
  cases t with
  | word s =>
    cases h : scalar? values s with
    | none => rw [fill_word_of_none h]
    | some scalar =>
      rw [fill_word_of_some h]
      exact scalar.startsOperand_token
  | _ => rfl

/-- Filling makes no word `not`, so that it neither adds nor removes a negation. -/
theorem startsNegation_map_fill (ts : List Token) :
    startsNegation (ts.map (Token.fill values)) = startsNegation ts := by
  cases ts with
  | nil => rfl
  | cons t ts =>
    cases t with
    | word s =>
      -- the word `not` has no literal; of any other word only that it is not `not` counts
      by_cases hs : s = ['n', 'o', 't']
      · subst hs
        rw [List.map_cons, fill_word_cons (by decide)]
        cases ts with
        | nil => rfl
        | cons t ts => exact startsOperand_fill t
      · rw [startsNegation_of_ne hs, List.map_cons]
        cases h : scalar? values s with
        | none => rw [fill_word_of_none h, startsNegation_of_ne hs]
        | some scalar =>
          rw [fill_word_of_some h]
          exact scalar.startsNegation_token _
    | _ => rfl

theorem Closing.fill {ts rest : List Token} (h : Closing ts rest) :
    Closing (ts.map (Token.fill values)) (rest.map (Token.fill values)) := by
  cases h with
  | bracket => exact .bracket _
  | comma => exact .comma _

/-- Filling the tokens fills what is derived from them. -/
theorem Derives.fill {p : Phrase} {ts rest : List Token} (h : Derives p ts rest) :
    Derives (p.fill values) (ts.map (Token.fill values)) (rest.map (Token.fill values)) := by
  induction h with
  | text => exact .text _ _
  | integer => exact .integer _ _
  | bool h =>
    rw [List.map_cons, fill_word_of_none (scalar?_of_mem_boolWords h)]
    exact .bool h _
  -- a name is filled where it has a literal, and both are primaries
  | @name s h =>
    cases hs : scalar? values s with
    | none =>
      rw [List.map_cons, fill_word_of_none hs]
      simp only [Phrase.fill, Expr.fill, hs]
      exact .name h _
    | some scalar =>
      rw [List.map_cons, fill_word_of_some hs]
      simp only [Phrase.fill, Expr.fill, hs]
      exact scalar.derives _
  | parentheses _ ih => exact .parentheses ih
  | emptyList h => exact .emptyList h.fill
  | list _ _ hc ih ih' => exact .list ih ih' hc.fill
  | noItem => exact .noItem _
  | item _ _ ih ih' => exact .item ih ih'
  | alone _ ih => exact .alone ih
  | compare _ _ ih ih' =>
    rw [List.map_append, map_fill_tokens] at ih
    exact .compare ih ih'
  | negate ht _ ih =>
    rw [List.map_cons, fill_operator (.inl ht)]
    exact .negate ht ih
  | plain _ hn ih => exact .plain ih ((startsNegation_map_fill _).trans hn)
  | both ht _ _ ih ih' =>
    rw [List.map_cons, fill_operator (.inr (.inl ht))] at ih
    exact .both ht ih ih'
  | oneNegation _ ih => exact .oneNegation ih
  | either ht _ _ ih ih' =>
    rw [List.map_cons, fill_operator (.inr (.inr ht))] at ih
    exact .either ht ih ih'
  | oneConjunction _ ih => exact .oneConjunction ih

/-! ### Spellings -/

/-- The token is written in this way in a text with placeholders.  A quoted text consists of
pieces, and no value in it holds its quote; a name in braces has a literal as value. -/
inductive Token.SpelledIn (values : Values) : Token → List Char → Prop
  | same {t : Token} {w : List Char} (h : t.Spelled w) (ht : ∀ s, t ≠ .quoted s) :
      SpelledIn values t w
  | quoted {quote : Char} {pieces : List Piece} (hq : quote = '\'' ∨ quote = '"')
      (hs : quote ∉ pieces.flatMap Piece.source) (hp : ∀ p ∈ pieces, p.WellFormed)
      (hv : ∀ n, .name n ∈ pieces →
        ∃ v, values.get? (String.ofList n) = some v ∧ quote ∉ v.toList) :
      SpelledIn values (.quoted (pieces.flatMap Piece.source))
        (quote :: (pieces.flatMap Piece.source ++ [quote]))
  | bare {n : List Char} {v : String} {scalar : Scalar} (hn : (Piece.name n).WellFormed)
      (hv : values.get? (String.ofList n) = some v) (hs : scalar.token.Spelled v.toList) :
      SpelledIn values (.word (Piece.name n).source) (Piece.name n).source

/-- In a text with placeholders, words and numbers are not followed by an opening brace either. -/
def Token.continuedInBy : Token → Char → Bool
  | .word _, c => isWordChar c || c = '{'
  | .integer _, c => c.isDigit || c = '{'
  | .bang, c => c = '='
  | _, _ => false

/-- The language of conditions with placeholders for which there are values. -/
def Dialect.withPlaceholders (values : Values) : Dialect :=
  ⟨Token.SpelledIn values, Token.continuedInBy⟩

/-- The text is a way to write the expression with placeholders. -/
def RendersIn (values : Values) (e : Expr) (text : List Char) : Prop :=
  ∃ ts, Derives (.disjunction e) ts [] ∧ (Dialect.withPlaceholders values).Spells ts text

/-- A text without braces is replaced by itself. -/
theorem substitute_of_no_brace {w : List Char} (h : ∀ c ∈ w, c ≠ '{' ∧ c ≠ '}') :
    substitute values w = .ok w := by
  have hp : ∀ p ∈ w.map Piece.char, p.WellFormed ∧ p.HasValue values := by
    intro p hp
    obtain ⟨c, hc, rfl⟩ := List.mem_map.1 hp
    exact ⟨h c hc, nofun⟩
  simpa [List.flatMap_map, Piece.source, Piece.text] using substitute_flatMap_source hp

/-- Only a quoted text can hold a brace. -/
theorem Token.Spelled.no_brace {t : Token} {w : List Char} (h : t.Spelled w)
    (ht : ∀ s, t ≠ .quoted s) : ∀ c ∈ w, c ≠ '{' ∧ c ≠ '}' := by
  cases h with
  | word hc hs =>
    rintro c (- | ⟨-, hm⟩)
    · exact ⟨ne_of_class hc rfl, ne_of_class hc rfl⟩
    · exact ⟨ne_of_class (hs c hm) rfl, ne_of_class (hs c hm) rfl⟩
  | natural _ hd => exact fun c hm => ⟨ne_of_class (hd c hm) rfl, ne_of_class (hd c hm) rfl⟩
  | negative _ hd =>
    rintro c (- | ⟨-, hm⟩)
    · decide
    · exact ⟨ne_of_class (hd c hm) rfl, ne_of_class (hd c hm) rfl⟩
  | quoted => exact absurd rfl (ht _)
  | symbol h =>
    have : ∀ p ∈ symbols, ∀ c ∈ p.2, c ≠ '{' ∧ c ≠ '}' := by simp [symbols]
    exact this _ h

/-- A token without placeholders is not filled. -/
theorem Token.Spelled.fill_eq {t : Token} {w : List Char} (h : t.Spelled w)
    (ht : ∀ s, t ≠ .quoted s) : t.fill values = t := by
  cases t with
  | word s =>
    obtain ⟨hc, -⟩ | - | - | - | hs := h
    · exact fill_word_cons (ne_of_class hc rfl) _
    · simp [symbols] at hs
  | quoted s => exact absurd rfl (ht s)
  | _ => rfl

/-- A literal is read from each of its spellings. -/
theorem Scalar.read?_of_spelled {scalar : Scalar} {w : List Char} (h : scalar.token.Spelled w) :
    read? w = some scalar := by
  rcases scalar with (- | -) | n
  · rw [Token.Spelled.eq_of_word h]
    rfl
  · rw [Token.Spelled.eq_of_word h]
    rfl
  · obtain ⟨hread, c, s, rfl, hc⟩ := Token.Spelled.of_integer h
    -- a number does not start with a letter
    have hne : ∀ d r, d = 't' ∨ d = 'f' → c :: s ≠ d :: r := by
      rintro d r hd he
      obtain ⟨rfl, -⟩ := List.cons.inj he
      rcases hd with rfl | rfl <;> revert hc <;> decide
    have htrue : c :: s ≠ "true".toList := hne 't' "rue".toList (.inl rfl)
    have hfalse : c :: s ≠ "false".toList := hne 'f' "alse".toList (.inr rfl)
    rw [read?, if_neg htrue, if_neg hfalse, hread]
    rfl

/-- No literal starts with `=`, so none continues a `!`. -/
theorem Scalar.head_ne_equal {scalar : Scalar} {c : Char} {s : List Char}
    (h : scalar.token.Spelled (c :: s)) : c ≠ '=' := by
  rcases scalar with (- | -) | n
  · obtain ⟨rfl, -⟩ := List.cons.inj (Token.Spelled.eq_of_word h)
    decide
  · obtain ⟨rfl, -⟩ := List.cons.inj (Token.Spelled.eq_of_word h)
    decide
  · obtain ⟨-, c', s', he, hc⟩ := Token.Spelled.of_integer h
    obtain ⟨rfl, -⟩ := List.cons.inj he
    rintro rfl
    revert hc
    decide

/-- A name in braces stands for the literal that its value writes. -/
theorem scalar?_source {n : List Char} {v : String} {scalar : Scalar}
    (hn : (Piece.name n).WellFormed) (hv : values.get? (String.ofList n) = some v)
    (hs : scalar.token.Spelled v.toList) : scalar? values (Piece.name n).source = some scalar := by
  have hname : bareName? (Piece.name n).source = some n := by
    have := readName_source hn []
    simp only [Piece.source, List.cons_append, bareName?, this]
  simp only [scalar?, hname, Option.bind_some, hv, Scalar.read?_of_spelled hs]

/-- A token with placeholders is replaced by a spelling of the filled token.  If this changes the
first character, then from a brace to that of a literal. -/
theorem Token.SpelledIn.substitute {t : Token} {w : List Char} (h : t.SpelledIn values w) :
    ∃ w', Placeholder.substitute values w = .ok w' ∧ (t.fill values).Spelled w' ∧
      ∃ c c' r r', w = c :: r ∧ w' = c' :: r' ∧ (c = c' ∨ c = '{' ∧ c' ≠ '=') := by
  cases h with
  -- without placeholders nothing is replaced
  | same h ht =>
    obtain ⟨c, r, rfl, -⟩ := h.exists_cons
    refine ⟨c :: r, substitute_of_no_brace (h.no_brace ht), ?_, c, c, r, r, rfl, rfl, .inl rfl⟩
    rwa [h.fill_eq ht]
  | @quoted quote pieces hq hs hp hv =>
    have hquote : Placeholder.substitute values [quote] = .ok [quote] :=
      substitute_of_no_brace (by rcases hq with rfl | rfl <;> simp)
    have hcontent : Placeholder.substitute values (pieces.flatMap Piece.source) =
        .ok (pieces.flatMap (Piece.text values)) := by
      refine substitute_flatMap_source fun p hm => ⟨hp p hm, fun n hn => ?_⟩
      obtain rfl : p = .name n := by cases p <;> cases hn; rfl
      obtain ⟨v, hv, -⟩ := hv n hm
      rw [hv]
      rfl
    -- a quote in the replaced text would come from a piece or from a value
    have hquote' : quote ∉ pieces.flatMap (Piece.text values) := by
      intro hm
      obtain ⟨p, hm, hc⟩ := List.mem_flatMap.1 hm
      cases p with
      | char c =>
        obtain rfl : quote = c := by simpa [Piece.text] using hc
        exact hs (List.mem_flatMap.2 ⟨_, hm, List.mem_cons_self⟩)
      | openBrace | closeBrace => rcases hq with rfl | rfl <;> simp [Piece.text] at hc
      | name n =>
        obtain ⟨v, hv, hn⟩ := hv n hm
        simp [Piece.text, hv, hn] at hc
    refine ⟨quote :: (pieces.flatMap (Piece.text values) ++ [quote]),
      substitute_append hquote (substitute_append hcontent hquote), ?_,
      quote, quote, _, _, rfl, rfl, .inl rfl⟩
    have hfill : filledText values (pieces.flatMap Piece.source) =
        pieces.flatMap (Piece.text values) := by
      rw [filledText, hcontent]
    rw [Token.fill, hfill]
    exact .quoted hq hquote'
  -- the name in braces is replaced by its value, which spells a literal
  | @bare n v scalar hn hv hs =>
    obtain ⟨c', r', hw, -⟩ := hs.exists_cons
    have hp : ∀ p ∈ [Piece.name n], p.WellFormed ∧ p.HasValue values := by
      intro p hp
      obtain rfl := List.mem_singleton.1 hp
      refine ⟨hn, fun n' hn' => ?_⟩
      obtain rfl := Option.some.inj hn'
      rw [hv]
      rfl
    refine ⟨v.toList, ?_, ?_, '{', c', _, r', rfl, hw, .inr ⟨rfl, ?_⟩⟩
    · simpa [Piece.text, hv] using substitute_flatMap_source hp
    · rwa [fill_word_of_some (scalar?_source hn hv hs)]
    · exact Scalar.head_ne_equal (hw ▸ hs)

/-- A character that cannot follow a token cannot follow the filled one. -/
theorem continuedBy_fill {t : Token} {c : Char} (h : t.continuedInBy c = false) :
    (t.fill values).continuedBy c = false := by
  cases t with
  | word s =>
    have hc : isWordChar c = false := (Bool.or_eq_false_iff.1 h).1
    cases hs : scalar? values s with
    | none =>
      rw [fill_word_of_none hs]
      exact hc
    | some scalar =>
      rw [fill_word_of_some hs]
      have hd : c.isDigit = false := by
        simp only [isWordChar, Char.isAlphanum, Bool.or_eq_false_iff] at hc
        exact hc.1.2
      rcases scalar with (- | -) | n
      · exact hc
      · exact hc
      · exact hd
  | integer n => exact (Bool.or_eq_false_iff.1 h).1
  | bang => exact h
  | _ => rfl

/-- Only a `!` can be in front of a brace, and it is not continued by a literal. -/
theorem continuedBy_fill_of_brace {t : Token} (h : t.continuedInBy '{' = false) {c : Char}
    (hc : c ≠ '=') : (t.fill values).continuedBy c = false := by
  cases t with
  | word s => cases h
  | integer n => cases h
  | bang => exact decide_eq_false hc
  | _ => rfl

/-- A text with placeholders is replaced by a spelling of the filled tokens.  What could follow a
token before can follow it afterwards. -/
theorem Dialect.Spells.substitute {ts : List Token} {s : List Char}
    (h : (Dialect.withPlaceholders values).Spells ts s) :
    ∃ s', Placeholder.substitute values s = .ok s' ∧
      Dialect.plain.Spells (ts.map (Token.fill values)) s' ∧
      ∀ t : Token, (∀ x ∈ s.head?, t.continuedInBy x = false) →
        ∀ x ∈ s'.head?, (t.fill values).continuedBy x = false := by
  -- on the spelling, so that the text behind a token is replaced before the token
  induction h with
  | done => exact ⟨[], substitute_of_no_brace nofun, .done, nofun⟩
  | @blank ts c s hc _ ih =>
    obtain ⟨s', hs, hspells, -⟩ := ih
    have hc' : Placeholder.substitute values [c] = .ok [c] := by
      refine substitute_of_no_brace fun x hx => ?_
      obtain rfl := List.mem_singleton.1 hx
      constructor <;> rintro rfl <;> cases hc
    refine ⟨c :: s', substitute_append hc' hs, .blank hc hspells, fun t ht x hx => ?_⟩
    obtain rfl : c = x := by simpa using hx
    exact continuedBy_fill (ht c rfl)
  -- the next token may have changed its first character, but not to one that continues this token
  | @token t ts w s ht hfollow _ ih =>
    obtain ⟨s', hs, hspells, hnext⟩ := ih
    obtain ⟨w', hw, ht', c, c', r, r', rfl, rfl, hc⟩ := Token.SpelledIn.substitute ht
    refine ⟨c' :: r' ++ s', substitute_append hw hs, .token ht' (hnext t hfollow) hspells, ?_⟩
    intro u hu x hx
    obtain rfl : c' = x := by simpa using hx
    rcases hc with rfl | ⟨rfl, hc⟩
    · exact continuedBy_fill (hu c rfl)
    · exact continuedBy_fill_of_brace (hu '{' rfl) hc

/-- Replacing the placeholders of a condition and then reading it gives the condition with its
placeholders filled. -/
theorem ofText_substitute {e : Expr} {text : List Char} (h : RendersIn values e text) :
    ∃ text', substitute values text = .ok text' ∧ Expr.ofText text' = .ok (e.fill values) := by
  obtain ⟨ts, hd, hs⟩ := h
  obtain ⟨text', ht, hs', -⟩ := hs.substitute
  exact ⟨text', ht, ofText_eq_ok_iff.2 ⟨_, hd.fill, hs'⟩⟩

/-- Values with a minus sign, and with a bracket and a quote. -/
def offsetAndKind : Values :=
  .ofList [("offset", "-5"), ("kind", "\" or (")]

/-- A name in braces, compared with a text that holds one. -/
def offsetIsKind : Expr :=
  .compare .equal (.name "\x7boffset\x7d".toList) (.literal (.text "\x7bkind\x7d".toList))

/-- The text holds the quote and the bracket of its value, and the name has become a number. -/
theorem fill_offsetIsKind : offsetIsKind.fill offsetAndKind =
    .compare .equal (.literal (.int (-5))) (.literal (.text "\" or (".toList)) := by
  have hoffset : scalar? offsetAndKind "\x7boffset\x7d".toList = some (.int (-5)) := by
    rfl
  have hkind : filledText offsetAndKind "\x7bkind\x7d".toList = "\" or (".toList := by
    decide +kernel
  simp only [offsetIsKind, Expr.fill, hoffset, hkind]
  rfl

/-- The condition as it is written with placeholders. -/
theorem rendersIn_offsetIsKind :
    RendersIn offsetAndKind offsetIsKind "\x7boffset\x7d =='\x7bkind\x7d'".toList := by
  have offset : Token.SpelledIn offsetAndKind (.word "\x7boffset\x7d".toList)
      "\x7boffset\x7d".toList :=
    @Token.SpelledIn.bare _ "offset".toList "-5" (.int (-5))
      ⟨by decide, List.all_eq_true.1 rfl⟩ rfl
      (@Token.Spelled.negative ['5'] (by decide) (List.all_eq_true.1 rfl) rfl)
  have equal : Token.SpelledIn offsetAndKind .equal "==".toList :=
    .same (.symbol (by decide)) nofun
  have kind : Token.SpelledIn offsetAndKind (.quoted "\x7bkind\x7d".toList)
      "'\x7bkind\x7d'".toList := by
    refine @Token.SpelledIn.quoted _ '\'' [.name "kind".toList] (.inl rfl) (by decide) ?_ ?_
    · intro p hp
      obtain rfl := List.mem_singleton.1 hp
      exact ⟨by decide, List.all_eq_true.1 rfl⟩
    · intro n hn
      obtain rfl := Piece.name.inj (List.mem_singleton.1 hn)
      exact ⟨"\" or (", rfl, by decide⟩
  -- from the end of the text to its start
  have h1 := Dialect.Spells.token (D := .withPlaceholders offsetAndKind) kind (by simp) .done
  have h2 := Dialect.Spells.token (D := .withPlaceholders offsetAndKind) equal
    (fun _ _ => rfl) h1
  have h3 := Dialect.Spells.token (D := .withPlaceholders offsetAndKind) offset
    (by simp [Dialect.withPlaceholders, Token.continuedInBy, isWordChar]) (h2.blank (c := ' ') rfl)
  have derivation : Derives (.comparison offsetIsKind)
      [.word "\x7boffset\x7d".toList, .equal, .quoted "\x7bkind\x7d".toList] [] :=
    .compare (.name (by decide) _) (.text _ _)
  exact ⟨_, .oneConjunction (.oneNegation (.plain derivation rfl)), h3⟩

/-- A value with a quote and a bracket stays a text, and one with a sign a number. -/
theorem ofText_substitute_quote_and_bracket :
    RendersIn offsetAndKind offsetIsKind "\x7boffset\x7d =='\x7bkind\x7d'".toList ∧
      ∃ text', substitute offsetAndKind "\x7boffset\x7d =='\x7bkind\x7d'".toList = .ok text' ∧
        Expr.ofText text' =
          .ok (.compare .equal (.literal (.int (-5))) (.literal (.text "\" or (".toList))) :=
  ⟨rendersIn_offsetIsKind, fill_offsetIsKind ▸ ofText_substitute rendersIn_offsetIsKind⟩

end ApiStencil.Condition
