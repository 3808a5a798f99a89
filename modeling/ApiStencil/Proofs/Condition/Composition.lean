/-
ApiStencil/Proofs/Condition/Composition.lean

Conditions that are put together from the texts of others.  The parts stand in
parentheses, so that whatever they hold stays inside: nothing that an expression can
start with begins with the closing parenthesis, and no token goes over it
(`Derives.append_close`, `Dialect.Spells.enclose`).

`Writes p w` says that the text `w` writes the phrase `p` whatever follows it.  What a
condition writes in parentheses it writes so (`Writes.enclosed`), and each operator has
one lemma that puts two such texts together; a text that writes an expression in this
sense renders it (`Writes.renders`).
-/
import ApiStencil.Proofs.Condition.Grammar
import Mathlib.Data.List.Forall2

namespace ApiStencil.Condition

/-! ### Texts -/

/-- A condition in parentheses. -/
def enclosed (a : List Char) : List Char :=
  '(' :: (a ++ [')'])

/-- The negation of a condition, as a text. -/
def negated (condition : List Char) : List Char :=
  "not (".toList ++ condition ++ [')']

/-- The comparison of two conditions, each in parentheses. -/
def compared (op : Comparison) (a b : List Char) : List Char :=
  enclosed a ++ ' ' :: op.spelling.toList ++ ' ' :: enclosed b

/-- The conjunction of two conditions, each in parentheses. -/
def conjoined (a b : List Char) : List Char :=
  enclosed a ++ " and ".toList ++ enclosed b

/-- The disjunction of two conditions, each in parentheses. -/
def disjoined (a b : List Char) : List Char :=
  enclosed a ++ " or ".toList ++ enclosed b

/-- A list of conditions, each in parentheses. -/
def listed (items : List (List Char)) : List Char :=
  '[' :: ((", ".toList).intercalate (items.map enclosed) ++ [']'])

/-- The question whether a condition is among others. -/
def amongText (x : List Char) (items : List (List Char)) : List Char :=
  enclosed x ++ " in ".toList ++ listed items

/-- The question whether a condition is the first of others, or the second, and so on. -/
def equalsSome (x : List Char) (items : List (List Char)) : List Char :=
  (" or ".toList).intercalate (items.map (compared .equal x))

/-- Joining puts the separator in front of each part but the first. -/
theorem intercalate_cons_eq {α : Type} (sep first : List α) (rest : List (List α)) :
    sep.intercalate (first :: rest) = first ++ rest.flatMap (sep ++ ·) := by
  induction rest generalizing first with
  | nil => simp
  | cons a rest ih =>
    rw [List.intercalate_cons_cons, ih, List.flatMap_cons]
    simp only [List.append_assoc]

/-! ### Behind a closing parenthesis -/

/-- A closing parenthesis behind the tokens gives a `not` nothing to negate. -/
theorem startsNegation_append_close {ts : List Token} (h : startsNegation ts = false)
    (m : List Token) : startsNegation (ts ++ .closeParen :: m) = false := by
  cases ts with
  | nil => rfl
  | cons t ts =>
    by_cases ht : t = .word ['n', 'o', 't']
    · -- behind the word stands what stood there, or the parenthesis, which cannot be negated
      subst ht
      cases ts with
      | nil => rfl
      | cons t ts => exact h
    · cases t with
      | word s => exact startsNegation_of_ne (fun he => ht (by rw [he])) _
      | _ => rfl

theorem Closing.append {ts rest : List Token} (h : Closing ts rest) (m : List Token) :
    Closing (ts ++ m) (rest ++ m) := by
  cases h with
  | bracket rest => exact .bracket _
  | comma rest => exact .comma _

/-- A closing parenthesis behind an expression is not a part of it. -/
theorem Derives.append_close {p : Phrase} {ts rest : List Token} (h : Derives p ts rest)
    (m : List Token) : Derives p (ts ++ .closeParen :: m) (rest ++ .closeParen :: m) := by
  -- every rule leaves its rest alone, so the parenthesis goes behind each
  induction h with
  | text s rest => exact .text s _
  | integer n rest => exact .integer n _
  | bool h rest => exact .bool h _
  | name h rest => exact .name h _
  | parentheses _ ih => exact .parentheses ih
  | emptyList h => exact .emptyList (h.append _)
  | list _ _ hc ihe ihs => exact .list ihe ihs (hc.append _)
  | noItem rest => exact .noItem _
  | item _ _ ihe ihs => exact .item ihe ihs
  | alone _ ih => exact .alone ih
  | compare _ _ iha ihb =>
    rw [List.append_assoc] at iha
    exact .compare iha ihb
  | negate ht _ ih => exact .negate ht ih
  | plain _ hn ih => exact .plain ih (startsNegation_append_close hn m)
  | both ht _ _ iha ihb => exact .both ht iha ihb
  | oneNegation _ ih => exact .oneNegation ih
  | either ht _ _ iha ihb => exact .either ht iha ihb
  | oneConjunction _ ih => exact .oneConjunction ih

section Spelling

variable {t : Token} {ts us : List Token} {w s s' : List Char}

theorem continuedBy_close (t : Token) : t.continuedBy ')' = false := by
  cases t <;> rfl

theorem continuedBy_blank (t : Token) : t.continuedBy ' ' = false := by
  cases t <;> rfl

namespace Dialect.Spells

theorem symbol (hw : (t, w) ∈ Token.symbols) (ht : t ≠ .bang) (h : Dialect.plain.Spells ts s) :
    Dialect.plain.Spells (t :: ts) (w ++ s) := by
  refine .token (.symbol hw) (fun x _ => ?_) h
  cases t <;> first | rfl | exact absurd rfl ht | simp [Token.symbols] at hw

/-- A blank ends every token. -/
theorem spaced (hw : t.Spelled w) (h : Dialect.plain.Spells ts s) :
    Dialect.plain.Spells (t :: ts) (w ++ ' ' :: s) := by
  refine .token hw (fun x hx => ?_) (.blank rfl h)
  obtain rfl := Option.some.inj hx
  exact continuedBy_blank t

/-- A closing parenthesis behind a text is not a part of its last token. -/
theorem enclose (h : Dialect.plain.Spells ts s) (h' : Dialect.plain.Spells us s') :
    Dialect.plain.Spells (ts ++ .closeParen :: us) (s ++ ')' :: s') := by
  induction h with
  | done => exact symbol (w := [')']) (by decide) (by decide) h'
  | blank hc _ ih => exact .blank hc ih
  | @token t ts w s ht hs _ ih =>
    rw [List.append_assoc]
    refine .token ht (fun x hx => ?_) ih
    -- the token is followed by the parenthesis, or by what followed it before
    cases s with
    | nil =>
      obtain rfl := Option.some.inj hx
      exact continuedBy_close t
    | cons y s => exact hs x hx

/-- A comparison operator between blanks. -/
theorem operator (op : Comparison) (h : Dialect.plain.Spells ts s) :
    Dialect.plain.Spells (op.tokens ++ ts) (' ' :: (op.spelling.toList ++ ' ' :: s)) := by
  have hword : ∀ {c r}, Token.startsWord c = true → r.all Text.isWordChar = true →
      Token.Spelled (.word (c :: r)) (c :: r) := fun hc hr => .word hc (List.all_eq_true.1 hr)
  refine .blank rfl ?_
  cases op with
  | equal => exact spaced (.symbol (by decide)) h
  | notEqual => exact spaced (.symbol (by decide)) h
  | isIn => exact spaced (hword (by decide) (by decide)) h
  | notIn =>
    have hin := spaced (hword (c := 'i') (r := ['n']) (by decide) (by decide)) h
    have hnot := spaced (hword (c := 'n') (r := ['o', 't']) (by decide) (by decide)) hin
    exact hnot

end Dialect.Spells

end Spelling

/-! ### Texts that write a phrase whatever follows -/

/-- The text writes the phrase, whatever tokens follow it. -/
def Writes (p : Phrase) (w : List Char) : Prop :=
  ∃ ts, (∀ rest, Derives p (ts ++ rest) rest) ∧
    ∀ us s, Dialect.plain.Spells us s → Dialect.plain.Spells (ts ++ us) (w ++ s)

namespace Writes

variable {e : Expr} {w : List Char}

/-- What is written whatever follows is rendered where nothing follows. -/
theorem renders (h : Writes (.disjunction e) w) : Renders e w := by
  obtain ⟨ts, hd, hs⟩ := h
  have hd := hd []
  have hs := hs [] [] .done
  rw [List.append_nil] at hd hs
  rw [List.append_nil] at hs
  exact ⟨ts, hd, hs⟩

theorem conjunction (h : Writes (.negation e) w) : Writes (.conjunction e) w := by
  obtain ⟨ts, hd, hs⟩ := h
  exact ⟨ts, fun rest => .oneNegation (hd rest), hs⟩

theorem disjunction (h : Writes (.conjunction e) w) : Writes (.disjunction e) w := by
  obtain ⟨ts, hd, hs⟩ := h
  exact ⟨ts, fun rest => .oneConjunction (hd rest), hs⟩

end Writes

/-- What a condition writes it writes in parentheses, as a primary that starts with one. -/
theorem Renders.inParentheses {e : Expr} {a : List Char} (h : Renders e a) :
    ∃ ts, (∀ rest, Derives (.primary e) (.openParen :: ts ++ rest) rest) ∧
      ∀ us s, Dialect.plain.Spells us s →
        Dialect.plain.Spells (.openParen :: ts ++ us) (enclosed a ++ s) := by
  obtain ⟨ts, hd, hs⟩ := h
  refine ⟨ts ++ [.closeParen], fun rest => ?_, fun us s h => ?_⟩
  · rw [List.cons_append, List.append_assoc]
    exact .parentheses (hd.append_close rest)
  · have hinside := hs.enclose h
    have hall := Dialect.Spells.symbol (t := .openParen) (w := ['(']) (by decide) (by decide)
      hinside
    simpa [enclosed] using hall

namespace Writes

variable {e a b : Expr} {v w : List Char}

theorem enclosed (h : Renders e v) : Writes (.primary e) (enclosed v) := by
  obtain ⟨ts, hd, hs⟩ := h.inParentheses
  exact ⟨_, hd, hs⟩

/-- A condition in parentheses is an operand of `not`, `and` and `or`. -/
theorem operand (h : Renders e v) : Writes (.negation e) (Condition.enclosed v) := by
  obtain ⟨ts, hd, hs⟩ := h.inParentheses
  exact ⟨_, fun rest => .plain (.alone (hd rest)) rfl, hs⟩

/-- A condition in parentheses may be compared with a primary. -/
theorem compared (op : Comparison) (ha : Renders a v) (hb : Writes (.primary b) w) :
    Writes (.negation (.compare op a b))
      (Condition.enclosed v ++ ' ' :: op.spelling.toList ++ ' ' :: w) := by
  obtain ⟨ts, hda, hsa⟩ := ha.inParentheses
  obtain ⟨us, hdb, hsb⟩ := hb
  refine ⟨.openParen :: ts ++ (op.tokens ++ us), fun rest => ?_, fun r s h => ?_⟩
  · rw [List.append_assoc, List.append_assoc]
    exact .plain (.compare (hda _) (hdb rest)) rfl
  · have hall := hsa _ _ (.operator op (hsb r s h))
    simpa using hall

/-- The word `not` in front of a condition in parentheses negates it. -/
theorem negate (h : Renders e v) : Writes (.negation (.negate e)) (negated v) := by
  obtain ⟨ts, hd, hs⟩ := operand h
  have hnot : Token.Spelled (.word "not".toList) "not".toList :=
    .word (by decide) (List.all_eq_true.1 (by decide))
  refine ⟨.word "not".toList :: ts, fun rest => .negate rfl (hd rest), fun us s h => ?_⟩
  have hall := Dialect.Spells.spaced hnot (hs us s h)
  simpa [negated, Condition.enclosed] using hall

/-- A word between blanks that joins two texts. -/
theorem join {p q r : Phrase} (hp : Writes p v) (word : List Char) (hq : Writes q w)
    (hword : Token.Spelled (.word word) word)
    (hr : ∀ ts us rest, Derives p ts (.word word :: us) → Derives q us rest → Derives r ts rest) :
    Writes r (v ++ ' ' :: word ++ ' ' :: w) := by
  obtain ⟨ts, hdp, hsp⟩ := hp
  obtain ⟨us, hdq, hsq⟩ := hq
  refine ⟨ts ++ .word word :: us, fun rest => ?_, fun us' s h => ?_⟩
  · rw [List.append_assoc]
    exact hr _ _ rest (hdp _) (hdq rest)
  · have hall := hsp _ _ (.blank (c := ' ') rfl (.spaced hword (hsq us' s h)))
    simpa using hall

theorem both (ha : Writes (.conjunction a) v) (hb : Writes (.negation b) w) :
    Writes (.conjunction (.both a b)) (v ++ " and ".toList ++ w) := by
  have h := ha.join (r := .conjunction (.both a b)) "and".toList hb
    (.word (by decide) (List.all_eq_true.1 (by decide))) fun _ _ _ => .both rfl
  simpa using h

theorem either (ha : Writes (.disjunction a) v) (hb : Writes (.conjunction b) w) :
    Writes (.disjunction (.either a b)) (v ++ " or ".toList ++ w) := by
  have h := ha.join (r := .disjunction (.either a b)) "or".toList hb
    (.word (by decide) (List.all_eq_true.1 (by decide))) fun _ _ _ => .either rfl
  simpa using h

/-- Texts joined by `or` group to the left. -/
theorem eithers {es : List Expr} {ws : List (List Char)}
    (ha : Writes (.disjunction a) v)
    (h : List.Forall₂ (fun e w => Writes (.conjunction e) w) es ws) :
    Writes (.disjunction (es.foldl .either a)) (v ++ ws.flatMap (" or ".toList ++ ·)) := by
  induction h generalizing a v with
  | nil =>
    rw [List.flatMap_nil, List.append_nil]
    exact ha
  | cons hb _ ih =>
    rw [List.flatMap_cons, ← List.append_assoc, ← List.append_assoc]
    exact ih (ha.either hb)

/-- The items of a list behind its first one. -/
theorem items {es : List Expr} {ws : List (List Char)}
    (h : List.Forall₂ (fun e w => Writes (.primary e) w) es ws) :
    Writes (.items es) (ws.flatMap (", ".toList ++ ·)) := by
  induction h with
  | nil => exact ⟨[], fun rest => .noItem rest, fun _ _ h => h⟩
  | cons he _ ih =>
    obtain ⟨ts, hd, hs⟩ := he
    obtain ⟨us, hdr, hsr⟩ := ih
    refine ⟨.comma :: (ts ++ us), fun rest => ?_, fun r s h => ?_⟩
    · rw [List.cons_append, List.append_assoc]
      exact .item (hd _) (hdr rest)
    · have hall := Dialect.Spells.symbol (t := .comma) (w := [',']) (by decide) (by decide)
        (.blank (c := ' ') rfl (hs _ _ (hsr r s h)))
      simpa using hall

/-- Items between brackets, with commas between them, are a list. -/
theorem list {es : List Expr} {ws : List (List Char)}
    (h : List.Forall₂ (fun e w => Writes (.primary e) w) es ws) :
    Writes (.primary (.list es)) ('[' :: ((", ".toList).intercalate ws ++ [']'])) := by
  have hclose : ∀ {us s}, Dialect.plain.Spells us s →
      Dialect.plain.Spells (.closeBracket :: us) (']' :: s) := fun h =>
    .symbol (w := [']']) (by decide) (by decide) h
  have hopen : ∀ {us s}, Dialect.plain.Spells us s →
      Dialect.plain.Spells (.openBracket :: us) ('[' :: s) := fun h =>
    .symbol (w := ['[']) (by decide) (by decide) h
  -- the rules differ for a list without items
  cases h with
  | nil => exact ⟨[.openBracket, .closeBracket], fun rest => .emptyList (.bracket rest),
      fun us s h => hopen (hclose h)⟩
  | cons he hs =>
    obtain ⟨ts, hd, hst⟩ := he
    obtain ⟨us, hdr, hsr⟩ := items hs
    refine ⟨.openBracket :: (ts ++ us ++ [.closeBracket]), fun rest => ?_, fun r s h => ?_⟩
    · rw [List.cons_append, List.append_assoc, List.append_assoc]
      exact .list (hd _) (hdr _) (.bracket rest)
    · have hall := hopen (hst _ _ (hsr _ _ (hclose h)))
      rw [intercalate_cons_eq]
      simpa using hall

end Writes

end ApiStencil.Condition
