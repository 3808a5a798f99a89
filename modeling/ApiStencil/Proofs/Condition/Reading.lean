/-
ApiStencil/Proofs/Condition/Reading.lean

Reading is exact: a text is read as an expression if and only if the grammar
renders it so, and therefore no text renders two expressions (`ofText_exact`).

The reader never takes back a choice, so each direction needs to know where it
stops.

* What the reader takes is a derivation (`primaryUpTo_sound`,
  `expressionsUpTo_sound`).  The one exception is a `not` in front of a bracket or
  a `!` that starts no readable operand: it is taken for a name, and the reader is
  stuck in front of the bracket (`Stuck`).
* What the grammar derives is read to the same end, provided that no operator of
  the level follows (`Derives.read`).  At the two levels that repeat, the reader
  goes on behind the derivation with what it has so far (`Reader.resume`), which
  lets the induction follow the left-nested rules.
-/
import ApiStencil.Proofs.Condition.Grammar
import Mathlib.Data.Set.Subsingleton

namespace ApiStencil.Condition

/-! ### Repeated reading -/

namespace Reader

variable {α : Type} {isSeparator : Token → Bool} {item : Reader α}

theorem repeated_of_stop {ts : List Token} (h : ∀ t ∈ ts.head?, isSeparator t = false) :
    repeated isSeparator item ts = ([], ts) := by
  cases ts with
  | nil => rw [repeated]
  | cons t r => rw [repeated, if_neg (by simp [h t rfl])]

/-- A separator without an item behind it is not taken. -/
theorem repeated_of_fail {t : Token} {r : List Token} (h : item.read r = none) :
    repeated isSeparator item (t :: r) = ([], t :: r) := by
  rw [repeated]
  split
  · split
    · next h' => rw [h] at h'; cases h'
    · rfl
  · rfl

/-- An item behind a separator is taken, and reading goes on behind it. -/
theorem repeated_of_read {t : Token} {r rest : List Token} {a : α} (ht : isSeparator t = true)
    (h : item.read r = some (a, rest)) :
    repeated isSeparator item (t :: r) =
      (a :: (repeated isSeparator item rest).1, (repeated isSeparator item rest).2) := by
  rw [repeated, if_pos ht]
  split
  · next h' =>
    obtain ⟨rfl, rfl⟩ := Prod.mk.inj (Option.some.inj (h.symm.trans h'))
    rfl
  · next h' => rw [h] at h'; cases h'

/-- Reads on behind a first part that has been read already. -/
def resume (isSeparator : Token → Bool) (join : α → α → α) (item : Reader α) (first : α)
    (ts : List Token) : α × List Token :=
  ((repeated isSeparator item ts).1.foldl join first, (repeated isSeparator item ts).2)

variable {join : α → α → α}

theorem joined_read (ts : List Token) :
    (joined isSeparator join item).read ts =
      (item.read ts).map fun p => resume isSeparator join item p.1 p.2 := rfl

theorem resume_of_stop {ts : List Token} (h : ∀ t ∈ ts.head?, isSeparator t = false) (first : α) :
    resume isSeparator join item first ts = (first, ts) := by
  rw [resume, repeated_of_stop h]
  rfl

/-- Behind a separator the next item is joined to what has been read. -/
theorem resume_of_read {t : Token} {r rest : List Token} {a : α} (ht : isSeparator t = true)
    (h : item.read r = some (a, rest)) (first : α) :
    resume isSeparator join item first (t :: r) =
      resume isSeparator join item (join first a) rest := by
  rw [resume, repeated_of_read ht h]
  rfl

end Reader

/-! ### The levels up to a depth -/

/-- The readers of which `expressionReader` is made, with brackets up to a depth. -/
def comparisonsUpTo (depth : Nat) : Reader Expr :=
  comparisonReader (primaryUpTo depth)

/-- Reads a negation or a comparison, with at most so many levels of brackets. -/
def negationsUpTo (depth : Nat) : Reader Expr :=
  negationReader (comparisonsUpTo depth)

/-- Reads negations with `and` between them. -/
def conjunctionsUpTo (depth : Nat) : Reader Expr :=
  .joined Token.isAnd .both (negationsUpTo depth)

/-- Reads conjunctions with `or` between them. -/
def expressionsUpTo (depth : Nat) : Reader Expr :=
  .joined Token.isOr .either (conjunctionsUpTo depth)

/-! ### What is derived is read -/

theorem readComparison_tokens (op : Comparison) (ts : List Token) :
    readComparison (op.tokens ++ ts) = some (op, ts) := by
  cases op <;> rfl

theorem tokens_of_readComparison {op : Comparison} {ts rest : List Token}
    (h : readComparison ts = some (op, rest)) : ts = op.tokens ++ rest := by
  unfold readComparison at h
  split at h <;> cases h <;> rfl

theorem readComparison_of_joins {t : Token} (h : t.isAnd = true ∨ t.isOr = true)
    (ts : List Token) : readComparison (t :: ts) = none := by
  rw [Token.isAnd_iff, Token.isOr_iff] at h
  rcases h with (rfl | rfl) | (rfl | rfl) <;> rfl

theorem isAnd_of_isOr {t : Token} (h : t.isOr = true) : t.isAnd = false := by
  rcases Token.isOr_iff.1 h with rfl | rfl <;> decide

theorem primaryUpTo_read_eq_none {t : Token} (ht : t.startsOperand = false) (depth : Nat)
    (ts : List Token) : (primaryUpTo depth).read (t :: ts) = none := by
  cases depth with
  | zero => rfl
  | succ depth => cases t <;> first | rfl | cases ht

theorem comparisonsUpTo_read_eq_none {depth : Nat} {ts : List Token}
    (h : (primaryUpTo depth).read ts = none) : (comparisonsUpTo depth).read ts = none := by
  simp only [comparisonsUpTo, comparisonReader, h]

theorem comparisonsUpTo_read_alone {depth : Nat} {ts rest : List Token} {e : Expr}
    (h : (primaryUpTo depth).read ts = some (e, rest)) (hrest : readComparison rest = none) :
    (comparisonsUpTo depth).read ts = some (e, rest) := by
  simp only [comparisonsUpTo, comparisonReader, h, hrest]

theorem comparisonsUpTo_read_compare {depth : Nat} {ts r rest : List Token} {op : Comparison}
    {a b : Expr} (ha : (primaryUpTo depth).read ts = some (a, op.tokens ++ r))
    (hb : (primaryUpTo depth).read r = some (b, rest)) :
    (comparisonsUpTo depth).read ts = some (.compare op a b, rest) := by
  simp only [comparisonsUpTo, comparisonReader, ha, readComparison_tokens, hb]

/-- A `not` in front of what can be read is the operator. -/
theorem negationsUpTo_read_negate {depth : Nat} {t : Token} {ts rest : List Token} {e : Expr}
    (ht : t.isNot = true) (h : (negationsUpTo depth).read ts = some (e, rest)) :
    (negationsUpTo depth).read (t :: ts) = some (.negate e, rest) := by
  have h : readNegation (comparisonsUpTo depth) ts = some (e, rest) := h
  show readNegation (comparisonsUpTo depth) (t :: ts) = some (.negate e, rest)
  rw [readNegation, if_pos ht, h]

/-- A token that is no `not`, or one with nothing to negate, starts a comparison. -/
theorem negationsUpTo_read_plain {depth : Nat} {t : Token} {ts : List Token}
    (h : t.isNot = true → (negationsUpTo depth).read ts = none) :
    (negationsUpTo depth).read (t :: ts) = (comparisonsUpTo depth).read (t :: ts) := by
  show readNegation (comparisonsUpTo depth) (t :: ts) = _
  rw [readNegation]
  split
  · next ht =>
    have h : readNegation (comparisonsUpTo depth) ts = none := h ht
    rw [h]
  · rfl

/-- Nothing is negated in front of a token that starts no operand. -/
theorem negationsUpTo_read_eq_none {ts : List Token}
    (h : ∀ t ∈ ts.head?, t.startsOperand = false) (depth : Nat) :
    (negationsUpTo depth).read ts = none := by
  cases ts with
  | nil => rfl
  | cons t ts =>
    have ht := h t rfl
    rw [negationsUpTo_read_plain fun hnot => ?_,
      comparisonsUpTo_read_eq_none (primaryUpTo_read_eq_none ht depth ts)]
    rcases Token.isNot_iff.1 hnot with rfl | rfl <;> cases ht

/-- A comparison is a negation where the word `not` has nothing to negate. -/
theorem negationsUpTo_read_comparison {depth : Nat} {ts rest : List Token} {e : Expr}
    (h : (comparisonsUpTo depth).read ts = some (e, rest)) (hn : startsNegation ts = false) :
    (negationsUpTo depth).read ts = some (e, rest) := by
  cases ts with
  | nil =>
    have := (comparisonsUpTo depth).shorter h
    simp at this
  | cons t ts =>
    refine (negationsUpTo_read_plain fun ht => ?_).trans h
    rcases Token.isNot_iff.1 ht with rfl | rfl
    · refine negationsUpTo_read_eq_none (fun t ht => ?_) depth
      obtain ⟨r, rfl⟩ := List.head?_eq_some_iff.1 (Option.mem_def.1 ht)
      exact hn
    · -- no comparison starts with `!`
      have hp : (primaryUpTo depth).read (.bang :: ts) = none := by cases depth <;> rfl
      rw [comparisonsUpTo_read_eq_none hp] at h
      cases h

/-- How the phrase is read from `ts`, given that it ends in front of `rest`. -/
def Phrase.IsRead (depth : Nat) : Phrase → List Token → List Token → Prop
  | .primary e, ts, rest => (primaryUpTo depth).read ts = some (e, rest)
  | .comparison e, ts, rest =>
    readComparison rest = none → (comparisonsUpTo depth).read ts = some (e, rest)
  | .negation e, ts, rest =>
    readComparison rest = none → (negationsUpTo depth).read ts = some (e, rest)
  | .conjunction e, ts, rest =>
    readComparison rest = none →
      (conjunctionsUpTo depth).read ts =
        some (Reader.resume Token.isAnd .both (negationsUpTo depth) e rest)
  | .disjunction e, ts, rest =>
    readComparison rest = none → (∀ t ∈ rest.head?, t.isAnd = false) →
      (expressionsUpTo depth).read ts =
        some (Reader.resume Token.isOr .either (conjunctionsUpTo depth) e rest)
  | .items es, ts, rest =>
    ∀ after, Closing rest after →
      Reader.repeated (· = .comma) (primaryUpTo depth) ts = (es, rest)

theorem readItems_emptyList {ts rest : List Token} (h : Closing ts rest) (depth : Nat) :
    readItems (primaryUpTo depth) ts = some (.list [], rest) := by
  have hitem : (primaryUpTo depth).read ts = none := by
    cases h <;> exact primaryUpTo_read_eq_none rfl depth _
  cases h <;> simp only [readItems, hitem]

theorem readItems_list {depth : Nat} {ts r r' rest : List Token} {e : Expr} {es : List Expr}
    (he : (primaryUpTo depth).read ts = some (e, r))
    (hs : Reader.repeated (· = .comma) (primaryUpTo depth) r = (es, r'))
    (hc : Closing r' rest) : readItems (primaryUpTo depth) ts = some (.list (e :: es), rest) := by
  cases hc <;> simp only [readItems, he, hs]

/-- No item follows at the end of a list. -/
theorem repeated_of_closing {ts rest : List Token} (h : Closing ts rest) (depth : Nat) :
    Reader.repeated (· = .comma) (primaryUpTo depth) ts = ([], ts) := by
  cases h with
  | bracket => exact Reader.repeated_of_stop (by simp)
  | comma => exact Reader.repeated_of_fail (primaryUpTo_read_eq_none rfl depth _)

/-- The depth left for the tokens inside a bracket. -/
theorem exists_depth_of_length_cons_le {t : Token} {ts : List Token} {depth : Nat}
    (h : (t :: ts).length ≤ depth) : ∃ d, depth = d + 1 ∧ ts.length ≤ d :=
  ⟨depth - 1, by rw [List.length_cons] at h; omega, by rw [List.length_cons] at h; omega⟩

/-- A phrase that the tokens derive is read from them, up to a depth that is large enough. -/
theorem Derives.read {p : Phrase} {ts rest : List Token} (h : Derives p ts rest) {depth : Nat}
    (hd : ts.length ≤ depth) : p.IsRead depth ts rest := by
  -- on the derivation; each pair of brackets takes one level of the depth
  induction h generalizing depth with
  | text | integer =>
    obtain ⟨depth, rfl, -⟩ := exists_depth_of_length_cons_le hd
    rfl
  | bool hs rest =>
    obtain ⟨depth, rfl, -⟩ := exists_depth_of_length_cons_le hd
    exact congrArg (fun e => some (e, rest)) (Expr.ofWord_of_mem hs)
  | name hs rest =>
    obtain ⟨depth, rfl, -⟩ := exists_depth_of_length_cons_le hd
    exact congrArg (fun e => some (e, rest)) (Expr.ofWord_of_not_mem hs)
  | @parentheses e ts rest _ ih =>
    obtain ⟨depth, rfl, hd'⟩ := exists_depth_of_length_cons_le hd
    have hread := ih hd' rfl (by simp [Token.isAnd])
    rw [Reader.resume_of_stop (by simp [Token.isOr])] at hread
    show readPrimary (expressionsUpTo depth) (primaryUpTo depth) (.openParen :: ts) = some (e, rest)
    simp only [readPrimary, hread]
  | emptyList h =>
    obtain ⟨depth, rfl, -⟩ := exists_depth_of_length_cons_le hd
    exact readItems_emptyList h depth
  | list he _ hc ih ih' =>
    obtain ⟨depth, rfl, hd'⟩ := exists_depth_of_length_cons_le hd
    exact readItems_list (ih hd') (ih' (he.length_le.trans hd') _ hc) hc
  | noItem =>
    intro after hc
    exact repeated_of_closing hc depth
  | item he _ ih ih' =>
    intro after hc
    have hd : _ ≤ depth := (Nat.le_succ _).trans hd
    rw [Reader.repeated_of_read (by simp) (ih hd), ih' (he.length_le.trans hd) after hc]
  | alone _ ih =>
    intro hrest
    exact comparisonsUpTo_read_alone (ih hd) hrest
  | compare ha _ ih ih' =>
    intro _
    have hr := ha.length_le
    rw [List.length_append] at hr
    exact comparisonsUpTo_read_compare (ih hd) (ih' (by omega))
  | negate ht _ ih =>
    intro hrest
    exact negationsUpTo_read_negate ht (ih ((Nat.le_succ _).trans hd) hrest)
  | plain _ hn ih =>
    intro hrest
    exact negationsUpTo_read_comparison (ih hd hrest) hn
  | @both t a b ts r rest ht ha _ ih ih' =>
    -- `a` leaves the reader inside its loop, and `b` is the next turn
    intro hrest
    have hr : r.length ≤ depth := (Nat.le_succ _).trans (ha.length_le.trans hd)
    rw [ih hd (readComparison_of_joins (.inl ht) r), Reader.resume_of_read ht (ih' hr hrest)]
  | oneNegation _ ih =>
    intro hrest
    rw [conjunctionsUpTo, Reader.joined_read, ih hd hrest]
    rfl
  | @either t a b ts r rest ht ha _ ih ih' =>
    intro hrest hand
    have hr : r.length ≤ depth := (Nat.le_succ _).trans (ha.length_le.trans hd)
    -- no conjunction goes on behind `b`
    have hread := ih' hr hrest
    rw [Reader.resume_of_stop hand] at hread
    rw [ih hd (readComparison_of_joins (.inr ht) r) (by simp [isAnd_of_isOr ht]),
      Reader.resume_of_read ht hread]
  | oneConjunction _ ih =>
    intro hrest hand
    rw [expressionsUpTo, Reader.joined_read, ih hd hrest, Reader.resume_of_stop hand]
    rfl

/-! ### What is read is derived -/

/-- The tokens at which the reader gives up on an operand that it has begun. -/
def Token.opens : Token → Bool
  | .bang => true
  | .openParen => true
  | .openBracket => true
  | _ => false

/-- Reading stopped in front of an operand that it could not read. -/
def Stuck (rest : List Token) : Prop :=
  ∃ t ∈ rest.head?, t.opens = true

theorem not_stuck_cons {t : Token} (h : t.opens = false) (ts : List Token) : ¬ Stuck (t :: ts) := by
  rintro ⟨t', ht', h'⟩
  obtain rfl : t = t' := by simpa using ht'
  simp [h] at h'

/-- What is read is derived. -/
def Reader.Sound (r : Reader Expr) (phrase : Expr → Phrase) : Prop :=
  ∀ ts e rest, r.read ts = some (e, rest) → Derives (phrase e) ts rest

/-- What is read is derived, unless the reader got stuck behind it. -/
def Reader.SoundUnlessStuck (r : Reader Expr) (phrase : Expr → Phrase) : Prop :=
  ∀ ts e rest, r.read ts = some (e, rest) → ¬ Stuck rest → Derives (phrase e) ts rest

/-- A word is derived as a truth value or as a name. -/
theorem derives_ofWord (s : List Char) (rest : List Token) :
    Derives (.primary (.ofWord s)) (.word s :: rest) rest := by
  by_cases h : ∃ b, s ∈ boolWords b
  · obtain ⟨b, hb⟩ := h
    rw [Expr.ofWord_of_mem hb]
    exact .bool hb rest
  · have h : ∀ b, s ∉ boolWords b := fun b hb => h ⟨b, hb⟩
    rw [Expr.ofWord_of_not_mem h]
    exact .name h rest

variable {depth : Nat}

/-- The items that are read behind commas are derived, however many there are. -/
theorem derives_items_of_repeated
    (hp : (primaryUpTo depth).Sound .primary) (ts : List Token) :
    Derives (.items (Reader.repeated (· = .comma) (primaryUpTo depth) ts).1) ts
      (Reader.repeated (· = .comma) (primaryUpTo depth) ts).2 := by
  fun_induction Reader.repeated (· = .comma) (primaryUpTo depth) ts with
  | case1 => exact .noItem []
  | case2 t r ht a rest h more ih =>
    obtain rfl : t = .comma := by simpa using ht
    exact .item (hp _ _ _ h) ih
  | case3 => exact .noItem _
  | case4 => exact .noItem _

/-- A reader of items between separators follows the rules for them. -/
theorem Reader.SoundUnlessStuck.joined {item : Reader Expr} {inner outer : Expr → Phrase}
    {isSeparator : Token → Bool} {join : Expr → Expr → Expr} (hitem : item.SoundUnlessStuck inner)
    (hsep : ∀ {t}, isSeparator t = true → t.opens = false)
    (one : ∀ {e ts rest}, Derives (inner e) ts rest → Derives (outer e) ts rest)
    (step : ∀ {t a b ts r rest}, isSeparator t = true → Derives (outer a) ts (t :: r) →
      Derives (inner b) r rest → Derives (outer (join a b)) ts rest) :
    (Reader.joined isSeparator join item).SoundUnlessStuck outer := by
  -- what has been read already is derived, unless the reader got stuck behind it
  have resume : ∀ r ts first, (¬ Stuck r → Derives (outer first) ts r) →
      ¬ Stuck (Reader.resume isSeparator join item first r).2 →
      Derives (outer (Reader.resume isSeparator join item first r).1) ts
        (Reader.resume isSeparator join item first r).2 := by
    intro r
    unfold Reader.resume
    fun_induction Reader.repeated isSeparator item r with
    | case1 => exact fun _ _ h hs => h hs
    | case2 t r ht a rest hread more ih =>
      intro ts first h hs
      have ha := h (not_stuck_cons (hsep ht) r)
      exact ih ts _ (fun hrest => step ht ha (hitem _ _ _ hread hrest)) hs
    | case3 => exact fun _ _ h hs => h hs
    | case4 => exact fun _ _ h hs => h hs
  intro ts e rest h hrest
  rw [Reader.joined_read] at h
  obtain ⟨⟨first, r⟩, hfirst, he⟩ := Option.map_eq_some_iff.1 h
  have key := resume r ts first fun hr => one (hitem _ _ _ hfirst hr)
  rw [he] at key
  exact key hrest

/-- A comparison is read by the rules, if primaries are. -/
theorem comparisonsUpTo_sound (hp : (primaryUpTo depth).Sound .primary) :
    (comparisonsUpTo depth).Sound .comparison := by
  intro ts e rest h
  simp only [comparisonsUpTo, comparisonReader] at h
  split at h
  · cases h
  · next a r ha =>
    split at h
    · obtain ⟨rfl, rfl⟩ := Prod.mk.inj (Option.some.inj h)
      exact .alone (hp _ _ _ ha)
    · next op r' hop =>
      split at h
      · obtain ⟨rfl, rfl⟩ := Prod.mk.inj (Option.some.inj h)
        exact .alone (hp _ _ _ ha)
      · next b r'' hb =>
        obtain ⟨rfl, rfl⟩ := Prod.mk.inj (Option.some.inj h)
        rw [tokens_of_readComparison hop] at ha
        exact .compare (hp _ _ _ ha) (hp _ _ _ hb)

/-- Where a primary can be read, so can a negation. -/
theorem isSome_negationsUpTo {ts : List Token}
    (h : ((primaryUpTo depth).read ts).isSome = true) :
    ((negationsUpTo depth).read ts).isSome = true := by
  have hc : ((comparisonsUpTo depth).read ts).isSome = true := by
    obtain ⟨p, hp⟩ := Option.isSome_iff_exists.1 h
    simp only [comparisonsUpTo, comparisonReader, hp]
    split
    · rfl
    · split <;> rfl
  cases ts with
  | nil => cases depth <;> cases h
  | cons t ts =>
    -- behind a `not` either something can be negated, or the `not` is a name
    cases hn : (negationsUpTo depth).read ts with
    | none => rwa [negationsUpTo_read_plain fun _ => hn]
    | some p =>
      obtain ⟨e, rest⟩ := p
      by_cases ht : t.isNot = true
      · rw [negationsUpTo_read_negate ht hn]
        rfl
      · rwa [negationsUpTo_read_plain fun h => absurd h ht]

/-- If the word `not` is read as a name in front of an operand, then that operand cannot be read,
and the reader is stuck in front of it. -/
theorem stuck_of_startsNegation {ts rest : List Token} {e : Expr}
    (hn : startsNegation ts = true) (hnone : (negationsUpTo depth).read ts.tail = none)
    (h : (comparisonsUpTo depth).read ts = some (e, rest)) :
    ts = .word ['n', 'o', 't'] :: rest ∧ e = .name ['n', 'o', 't'] ∧ Stuck rest := by
  unfold startsNegation at hn
  split at hn
  · next t r =>
    cases depth with
    | zero => cases h
    | succ depth =>
      -- words and literals are operands by themselves
      have hopens : t.opens = true := by
        by_contra hopens
        have hsome : ((primaryUpTo (depth + 1)).read (t :: r)).isSome = true := by
          cases t <;> first | rfl | exact absurd rfl hopens | cases hn
        have := isSome_negationsUpTo hsome
        rw [show (negationsUpTo (depth + 1)).read (t :: r) = none from hnone] at this
        cases this
      -- behind the name stands no operator, so the name is the whole comparison
      have hstop : readComparison (t :: r) = none := by
        cases t <;> first | rfl | cases hopens
      have hread : (comparisonsUpTo (depth + 1)).read (.word ['n', 'o', 't'] :: t :: r) =
          some (.ofWord ['n', 'o', 't'], t :: r) := comparisonsUpTo_read_alone rfl hstop
      obtain ⟨rfl, rfl⟩ := Prod.mk.inj (Option.some.inj (hread.symm.trans h))
      exact ⟨rfl, rfl, t, rfl, hopens⟩
  · cases hn

theorem isNot_of_startsNegation {t : Token} {ts : List Token}
    (h : startsNegation (t :: ts) = true) : t.isNot = true := by
  unfold startsNegation at h
  split at h
  · next he =>
    obtain ⟨rfl, -⟩ := List.cons.inj he
    rfl
  · cases h

/-- A negation is read by the rules, unless the reader gets stuck behind a name `not`. -/
theorem negationsUpTo_sound (hp : (primaryUpTo depth).Sound .primary) :
    (negationsUpTo depth).SoundUnlessStuck .negation := by
  -- on the tokens: every negation in front takes one of them
  intro ts
  induction ts with
  | nil => intro e rest h; cases h
  | cons t ts ih =>
    intro e rest h hrest
    by_cases ht : t.isNot = true
    · cases hr : (negationsUpTo depth).read ts with
      | some p =>
        obtain ⟨e', r⟩ := p
        rw [negationsUpTo_read_negate ht hr] at h
        obtain ⟨rfl, rfl⟩ := Prod.mk.inj (Option.some.inj h)
        exact .negate ht (ih _ _ hr hrest)
      | none =>
        -- a name `not`, with nothing to negate or in front of what cannot be read
        rw [negationsUpTo_read_plain fun _ => hr] at h
        refine .plain (comparisonsUpTo_sound hp _ _ _ h) (Bool.eq_false_iff.2 fun hn => ?_)
        exact hrest (stuck_of_startsNegation hn hr h).2.2
    · rw [negationsUpTo_read_plain fun h => absurd h ht] at h
      refine .plain (comparisonsUpTo_sound hp _ _ _ h) (Bool.eq_false_iff.2 fun hn => ht ?_)
      exact isNot_of_startsNegation hn

theorem opens_of_joins {t : Token} (h : t.isAnd = true ∨ t.isOr = true) : t.opens = false := by
  rw [Token.isAnd_iff, Token.isOr_iff] at h
  rcases h with (rfl | rfl) | (rfl | rfl) <;> rfl

/-- A conjunction is read by the rules, unless the reader gets stuck behind it. -/
theorem conjunctionsUpTo_sound (hp : (primaryUpTo depth).Sound .primary) :
    (conjunctionsUpTo depth).SoundUnlessStuck .conjunction :=
  (negationsUpTo_sound hp).joined (fun h => opens_of_joins (.inl h)) .oneNegation .both

/-- A disjunction is read by the rules, unless the reader gets stuck behind it. -/
theorem expressionsUpTo_sound (hp : (primaryUpTo depth).Sound .primary) :
    (expressionsUpTo depth).SoundUnlessStuck .disjunction :=
  (conjunctionsUpTo_sound hp).joined (fun h => opens_of_joins (.inr h)) .oneConjunction .either

/-- A list is read by the rules, if primaries are. -/
theorem derives_of_readItems {ts rest : List Token} {e : Expr}
    (hp : (primaryUpTo depth).Sound .primary)
    (h : readItems (primaryUpTo depth) ts = some (e, rest)) :
    Derives (.primary e) (.openBracket :: ts) rest := by
  cases hitem : (primaryUpTo depth).read ts with
  -- without a first item the list has to be closed at once, with or without a comma
  | none =>
    simp only [readItems, hitem] at h
    split at h <;> cases h
    · exact .emptyList (.bracket _)
    · exact .emptyList (.comma _)
  | some p =>
    obtain ⟨first, r⟩ := p
    have hs := derives_items_of_repeated hp r
    simp only [readItems, hitem] at h
    split at h
    · next hr =>
      obtain ⟨rfl, rfl⟩ := Prod.mk.inj (Option.some.inj h)
      exact .list (hp _ _ _ hitem) hs (hr ▸ .bracket _)
    · next hr =>
      obtain ⟨rfl, rfl⟩ := Prod.mk.inj (Option.some.inj h)
      exact .list (hp _ _ _ hitem) hs (hr ▸ .comma _)
    · cases h

/-- A primary is read by the rules, whatever follows it. -/
theorem primaryUpTo_sound (depth : Nat) : (primaryUpTo depth).Sound .primary := by
  induction depth with
  | zero => intro ts e rest h; cases h
  | succ depth ih =>
    intro ts e rest h
    have h : readPrimary (expressionsUpTo depth) (primaryUpTo depth) ts = some (e, rest) := h
    unfold readPrimary at h
    split at h
    · split at h
      · next hread =>
        obtain ⟨rfl, rfl⟩ := Prod.mk.inj (Option.some.inj h)
        -- the closing bracket shows that the reader did not get stuck inside
        exact .parentheses (expressionsUpTo_sound ih _ _ _ hread (not_stuck_cons rfl _))
      · cases h
    · exact derives_of_readItems ih h
    all_goals cases h
    · exact .text _ _
    · exact .integer _ _
    · exact derives_ofWord _ _

/-! ### Texts -/

/-- The reader takes all tokens as an expression exactly if they derive it. -/
theorem readExpression_eq_some_iff {ts : List Token} {e : Expr} :
    readExpression ts = some (e, []) ↔ Derives (.disjunction e) ts [] := by
  constructor
  · intro h
    exact expressionsUpTo_sound (primaryUpTo_sound _) _ _ _ h (by simp [Stuck])
  · intro h
    have hread := h.read (Nat.le_refl _) rfl (by simp)
    rw [Reader.resume_of_stop (by simp)] at hread
    exact hread

/-- No rule has a place for what is not a token. -/
theorem Derives.mem_of_invalid_mem {p : Phrase} {ts rest : List Token} (h : Derives p ts rest)
    (hm : Token.invalid ∈ ts) : Token.invalid ∈ rest := by
  -- each rule takes tokens that are valid, so the invalid one is handed on to the rest
  induction h with
  | text | integer | bool | name => simpa using hm
  | parentheses _ ih => simpa using ih (by simpa using hm)
  | emptyList h => cases h <;> simpa using hm
  | list _ _ hc ih ih' =>
    have := ih' (ih (by simpa using hm))
    cases hc <;> simpa using this
  | noItem => exact hm
  | item _ _ ih ih' => exact ih' (ih (by simpa using hm))
  | @compare op _ _ _ _ _ _ _ ih ih' =>
    have := ih hm
    cases op <;> exact ih' (by simpa [Comparison.tokens] using this)
  | negate ht _ ih =>
    refine ih (List.mem_of_ne_of_mem ?_ hm)
    rintro rfl
    cases ht
  | both ht _ _ ih ih' | either ht _ _ ih ih' =>
    refine ih' (List.mem_of_ne_of_mem ?_ (ih hm))
    rintro rfl
    cases ht
  | alone _ ih | plain _ _ ih | oneNegation _ ih | oneConjunction _ ih => exact ih hm

/-- A text is read as an expression if the reader takes all of its tokens. -/
theorem ofText_eq_ok_iff_read {text : List Char} {e : Expr} :
    Expr.ofText text = .ok e ↔
      readExpression ((Lexeme.scan 0 text).map Lexeme.token) = some (e, []) := by
  rcases h : readExpression ((Lexeme.scan 0 text).map Lexeme.token) with - | ⟨e', - | ⟨t, rest⟩⟩
  · simp [Expr.ofText, h]
  · simp [Expr.ofText, h]
  · simp [Expr.ofText, h]

/-- A text is read as an expression exactly if the expression is rendered by the text. -/
theorem ofText_eq_ok_iff {text : List Char} {e : Expr} :
    Expr.ofText text = .ok e ↔ Renders e text := by
  rw [ofText_eq_ok_iff_read, readExpression_eq_some_iff]
  constructor
  · intro h
    exact ⟨_, h, (spells_iff_scan 0).2 ⟨rfl, fun hm => by simpa using h.mem_of_invalid_mem hm⟩⟩
  · rintro ⟨ts, h, hs⟩
    rwa [((spells_iff_scan 0).1 hs).1]

/-- Reading is exact: it gives the expression that the grammar renders as the text, and there is
at most one. -/
theorem ofText_exact (text : List Char) :
    (∀ e, Expr.ofText text = .ok e ↔ Renders e text) ∧ {e | Renders e text}.Subsingleton := by
  refine ⟨fun e => ofText_eq_ok_iff, fun e h e' h' => ?_⟩
  exact Except.ok.inj ((ofText_eq_ok_iff.2 h).symm.trans (ofText_eq_ok_iff.2 h'))

/-- The word `not` is the operator in front of the name `or`, and a name in front of `==`. -/
example : (Expr.ofText "not or true".toList).toBool = false ∧
    (Expr.ofText "not == 1".toList).toBool = true := by
  decide +kernel

end ApiStencil.Condition
