/-
ApiStencil/Proofs/Condition/Position.lean

Where a syntax error points.  The reader takes as much of a condition as it can, and the
error stands in front of what is left.  What it has taken is a condition by itself: a
derivation does not depend on the tokens behind it, apart from a name `not`, which needs
them to start no operand (`Derives.cut`), and cutting them off can only help there.

The reader can get stuck behind such a name (`Stuck`), where the tokens up to the end of the
text derive nothing, but those up to the name do (`Reader.Cuts`).

Main result: `ofText_error_position`.
-/
import ApiStencil.Condition.Eval
import ApiStencil.Proofs.Condition.Reading
import ApiStencil.Proofs.Except

namespace ApiStencil.Condition

open Text

/-! ### Cutting derivations -/

/-- Tokens that are cut off behind a `not` can only take away what it would negate. -/
theorem startsNegation_of_append {ts : List Token} {z : List Token}
    (h : startsNegation (ts ++ z) = false) : startsNegation ts = false := by
  refine Bool.eq_false_iff.2 fun hn => ?_
  unfold startsNegation at hn
  split at hn
  · next t r =>
    have hall : startsNegation (.word ['n', 'o', 't'] :: t :: r ++ z) = t.startsOperand := rfl
    rw [hall, hn] at h
    cases h
  · cases hn

theorem Closing.cut {ts rest z : List Token} (h : Closing ts (rest ++ z)) :
    ∃ ts', ts = ts' ++ z ∧ Closing ts' rest := by
  cases h with
  | bracket => exact ⟨.closeBracket :: rest, rfl, .bracket rest⟩
  | comma => exact ⟨.comma :: .closeBracket :: rest, rfl, .comma rest⟩

/-- Tokens behind a phrase can be cut off. -/
theorem Derives.cut {p : Phrase} {ts after : List Token} (h : Derives p ts after) :
    ∀ {rest z}, after = rest ++ z → ∃ ts', ts = ts' ++ z ∧ Derives p ts' rest := by
  -- each rule hands the rest on to its last part, and what that leaves to the part in front of it
  induction h with
  | text s => rintro rest z rfl; exact ⟨_, (List.cons_append ..).symm, .text s rest⟩
  | integer n => rintro rest z rfl; exact ⟨_, (List.cons_append ..).symm, .integer n rest⟩
  | bool h => rintro rest z rfl; exact ⟨_, (List.cons_append ..).symm, .bool h rest⟩
  | name h => rintro rest z rfl; exact ⟨_, (List.cons_append ..).symm, .name h rest⟩
  | noItem => rintro rest z rfl; exact ⟨rest, rfl, .noItem rest⟩
  | emptyList hc =>
    rintro rest z rfl
    obtain ⟨ts', rfl, hc'⟩ := hc.cut
    exact ⟨_, (List.cons_append ..).symm, .emptyList hc'⟩
  | parentheses _ ih =>
    rintro rest z rfl
    obtain ⟨ts', rfl, h⟩ := ih (List.cons_append ..).symm
    exact ⟨_, (List.cons_append ..).symm, .parentheses h⟩
  | list _ _ hc ihe ihs =>
    rintro rest z rfl
    obtain ⟨r', rfl, hc'⟩ := hc.cut
    obtain ⟨r, rfl, hs⟩ := ihs rfl
    obtain ⟨ts', rfl, he⟩ := ihe rfl
    exact ⟨_, (List.cons_append ..).symm, .list he hs hc'⟩
  | item _ _ ihe ihs =>
    rintro rest z rfl
    obtain ⟨r, rfl, hs⟩ := ihs rfl
    obtain ⟨ts', rfl, he⟩ := ihe rfl
    exact ⟨_, (List.cons_append ..).symm, .item he hs⟩
  | compare _ _ iha ihb =>
    rintro rest z rfl
    obtain ⟨r, rfl, hb⟩ := ihb rfl
    obtain ⟨ts', rfl, ha⟩ := iha (List.append_assoc ..).symm
    exact ⟨_, rfl, .compare ha hb⟩
  | negate ht _ ih =>
    rintro rest z rfl
    obtain ⟨ts', rfl, h⟩ := ih rfl
    exact ⟨_, (List.cons_append ..).symm, .negate ht h⟩
  | plain _ hn ih =>
    rintro rest z rfl
    obtain ⟨ts', rfl, h⟩ := ih rfl
    exact ⟨_, rfl, .plain h (startsNegation_of_append hn)⟩
  | both ht _ _ iha ihb =>
    rintro rest z rfl
    obtain ⟨r, rfl, hb⟩ := ihb rfl
    obtain ⟨ts', rfl, ha⟩ := iha (List.cons_append ..).symm
    exact ⟨_, rfl, .both ht ha hb⟩
  | either ht _ _ iha ihb =>
    rintro rest z rfl
    obtain ⟨r, rfl, hb⟩ := ihb rfl
    obtain ⟨ts', rfl, ha⟩ := iha (List.cons_append ..).symm
    exact ⟨_, rfl, .either ht ha hb⟩
  | alone _ ih =>
    rintro rest z rfl
    obtain ⟨ts', rfl, h⟩ := ih rfl
    exact ⟨_, rfl, .alone h⟩
  | oneNegation _ ih =>
    rintro rest z rfl
    obtain ⟨ts', rfl, h⟩ := ih rfl
    exact ⟨_, rfl, .oneNegation h⟩
  | oneConjunction _ ih =>
    rintro rest z rfl
    obtain ⟨ts', rfl, h⟩ := ih rfl
    exact ⟨_, rfl, .oneConjunction h⟩

/-! ### What is read, without what is left -/

/-- The tokens that are read are a phrase by themselves. -/
def Reader.Cuts (r : Reader Expr) (phrase : Expr → Phrase) : Prop :=
  ∀ ts e rest, r.read ts = some (e, rest) → ∃ pre, ts = pre ++ rest ∧ Derives (phrase e) pre []

theorem comparisonsUpTo_cuts (depth : Nat) : (comparisonsUpTo depth).Cuts .comparison := by
  intro ts e rest h
  exact (comparisonsUpTo_sound (primaryUpTo_sound depth) _ _ _ h).cut rfl

/-- The tokens that are read of a negation are one by themselves, even if the reader got stuck. -/
theorem negationsUpTo_cuts (depth : Nat) : (negationsUpTo depth).Cuts .negation := by
  have plain : ∀ ts e rest, (comparisonsUpTo depth).read ts = some (e, rest) →
      startsNegation ts = false → ∃ pre, ts = pre ++ rest ∧ Derives (.negation e) pre [] := by
    -- on the tokens, as every negation in front takes one
    rintro ts e rest h hn
    obtain ⟨pre, rfl, hpre⟩ := comparisonsUpTo_cuts depth _ _ _ h
    exact ⟨pre, rfl, .plain hpre (startsNegation_of_append hn)⟩
  intro ts
  induction ts with
  | nil => intro e rest h; cases h
  | cons t ts ih =>
    intro e rest h
    by_cases ht : t.isNot = true
    · cases hr : (negationsUpTo depth).read ts with
      | some p =>
        obtain ⟨e', r⟩ := p
        rw [negationsUpTo_read_negate ht hr] at h
        obtain ⟨rfl, rfl⟩ := Prod.mk.inj (Option.some.inj h)
        obtain ⟨pre, rfl, hpre⟩ := ih _ _ hr
        exact ⟨_, (List.cons_append ..).symm, .negate ht hpre⟩
      | none =>
        rw [negationsUpTo_read_plain fun _ => hr] at h
        cases hn : startsNegation (t :: ts) with
        | false => exact plain _ _ _ h hn
        | true =>
          -- the reader is stuck behind the name `not`, which is a phrase without the rest
          obtain ⟨he, rfl, -⟩ := stuck_of_startsNegation hn hr h
          refine ⟨[.word ['n', 'o', 't']], he, .plain (.alone (.name ?_ [])) rfl⟩
          intro b
          cases b <;> decide
    · rw [negationsUpTo_read_plain fun h => absurd h ht] at h
      refine plain _ _ _ h (Bool.eq_false_iff.2 fun hn => ht ?_)
      exact isNot_of_startsNegation hn

/-- With items that are phrases by themselves, so is what a reader of items between separators
takes. -/
theorem Reader.Cuts.joined {item : Reader Expr} {inner outer : Expr → Phrase}
    {isSeparator : Token → Bool} {join : Expr → Expr → Expr} (hcut : item.Cuts inner)
    (hitem : item.SoundUnlessStuck inner)
    (hsep : ∀ {t}, isSeparator t = true → t.opens = false)
    (one : ∀ {e ts rest}, Derives (inner e) ts rest → Derives (outer e) ts rest)
    (step : ∀ {t a b ts r rest}, isSeparator t = true → Derives (outer a) ts (t :: r) →
      Derives (inner b) r rest → Derives (outer (join a b)) ts rest) :
    (Reader.joined isSeparator join item).Cuts outer := by
  -- what has been read already is derived with what follows, unless the reader got stuck, and
  -- without it in any case; the first is what the next separator goes behind
  have resume : ∀ r ts first, (¬ Stuck r → Derives (outer first) ts r) →
      (∃ pre, ts = pre ++ r ∧ Derives (outer first) pre []) →
      ∃ pre, ts = pre ++ (Reader.resume isSeparator join item first r).2 ∧
        Derives (outer (Reader.resume isSeparator join item first r).1) pre [] := by
    intro r
    unfold Reader.resume
    fun_induction Reader.repeated isSeparator item r with
    | case1 => exact fun _ _ _ h => h
    | case2 t r ht a rest hread more ih =>
      intro ts first h _
      have ha := h (not_stuck_cons (hsep ht) r)
      refine ih ts _ (fun hrest => step ht ha (hitem _ _ _ hread hrest)) ?_
      obtain ⟨pre, rfl, hpre⟩ := hcut _ _ _ hread
      obtain ⟨ts', rfl, hfirst⟩ := ha.cut (List.cons_append ..).symm
      exact ⟨ts', rfl, step ht hfirst hpre⟩
    | case3 => exact fun _ _ _ h => h
    | case4 => exact fun _ _ _ h => h
  intro ts e rest h
  rw [Reader.joined_read] at h
  obtain ⟨⟨first, r⟩, hfirst, he⟩ := Option.map_eq_some_iff.1 h
  obtain ⟨pre, hts, hpre⟩ := hcut _ _ _ hfirst
  have key := resume r ts first (fun hr => one (hitem _ _ _ hfirst hr)) ⟨pre, hts, one hpre⟩
  rw [he] at key
  exact key

theorem conjunctionsUpTo_cuts (depth : Nat) : (conjunctionsUpTo depth).Cuts .conjunction :=
  (negationsUpTo_cuts depth).joined (negationsUpTo_sound (primaryUpTo_sound depth))
    (fun h => opens_of_joins (.inl h)) .oneNegation .both

theorem expressionsUpTo_cuts (depth : Nat) : (expressionsUpTo depth).Cuts .disjunction :=
  (conjunctionsUpTo_cuts depth).joined (conjunctionsUpTo_sound (primaryUpTo_sound depth))
    (fun h => opens_of_joins (.inr h)) .oneConjunction .either

/-- The tokens that are read of an expression are one by themselves. -/
theorem readExpression_cuts {ts rest : List Token} {e : Expr}
    (h : readExpression ts = some (e, rest)) :
    ∃ pre, ts = pre ++ rest ∧ Derives (.disjunction e) pre [] :=
  expressionsUpTo_cuts _ _ _ _ h

/-! ### Places of tokens -/

/-- What spells no tokens is blank. -/
theorem Dialect.Spells.isLayout_of_nil {s : List Char} (h : Dialect.plain.Spells [] s) :
    ∀ c ∈ s, isLayout c = true := by
  generalize hts : ([] : List Token) = ts at h
  induction h with
  | done => simp
  | blank hc _ ih => exact List.forall_mem_cons.2 ⟨hc, ih hts⟩
  | token => cases hts

/-- A token stands behind the text that spells the tokens in front of it. -/
theorem scan_split {start : Nat} {text : List Char} {front back : List Lexeme} {l : Lexeme}
    (h : Lexeme.scan start text = front ++ l :: back) :
    ∃ a b, text = a ++ b ∧ b ≠ [] ∧ (∀ c ∈ b.head?, isLayout c = false) ∧
      l.start = start + byteSize a ∧ Dialect.plain.Spells (front.map Lexeme.token) a := by
  fun_induction Lexeme.scan start text generalizing front with
  | case1 => simp at h
  | case2 start c s hc ih =>
    obtain ⟨a, b, rfl, hb, hd, hl, hs⟩ := ih h
    refine ⟨c :: a, b, rfl, hb, hd, ?_, .blank hc hs⟩
    rw [hl, byteSize_cons, Nat.add_assoc]
  | case3 start c s hc hread =>
    cases front with
    | nil =>
      obtain ⟨rfl, -⟩ := List.cons.inj h
      exact ⟨[], c :: s, rfl, by simp, by simpa using hc, rfl, .done⟩
    | cons => simp at h
  -- the token that was read is the one that is asked for, or stands in front of it
  | case4 start c s hc t r hread ih =>
    cases front with
    | nil =>
      obtain ⟨rfl, -⟩ := List.cons.inj h
      exact ⟨[], c :: s, rfl, by simp, by simpa using hc, rfl, .done⟩
    | cons l' front =>
      obtain ⟨rfl, hrest⟩ := List.cons.inj h
      obtain ⟨a, b, rfl, hb, hd, hl, hs⟩ := ih hrest
      obtain ⟨w, hw, ht, hr⟩ := Token.read_eq_some_iff.1 hread
      refine ⟨w ++ a, b, by rw [hw, List.append_assoc], hb, hd, ?_, .token ht ?_ hs⟩
      · rw [hl, hw]
        simp only [byteSize_append]
        omega
      · -- what follows the token in the text does so in front of `b`, too
        intro x hx
        refine hr x ?_
        rw [List.head?_append, Option.mem_def.1 hx]
        rfl

/-! ### Errors -/

/-- Where there are no tokens, there are only blanks. -/
theorem isLayout_of_scan_eq_nil {start : Nat} {text : List Char}
    (h : Lexeme.scan start text = []) : ∀ c ∈ text, isLayout c = true := by
  have hspells : Dialect.plain.Spells [] text := (spells_iff_scan start).2 (by simp [h])
  exact hspells.isLayout_of_nil

/-- A syntax error points at the first text that cannot belong to the condition: what stands in
front of it is blank or a condition by itself. -/
theorem ofText_error_position {text : List Char} {e : Error} (h : Expr.ofText text = .error e) :
    evaluate text = .error e ∧ ∃ front rest, text = front ++ rest ∧
      e = .malformed text (byteSize front) ∧ (∀ c ∈ rest.head?, isLayout c = false) ∧
      ((∀ c ∈ front, isLayout c = true) ∨ (∃ e', Expr.ofText front = .ok e') ∧ rest ≠ []) := by
  refine ⟨by rw [evaluate, h, error_bind], ?_⟩
  rcases hread : readExpression ((Lexeme.scan 0 text).map Lexeme.token) with - | ⟨e', - | ⟨t, ts⟩⟩
  · -- nothing is read: the error is at the first token, or at the end of a blank text
    simp only [Expr.ofText, hread, Nat.sub_self] at h
    cases hscan : Lexeme.scan 0 text with
    | nil =>
      rw [hscan] at h
      refine ⟨text, [], (List.append_nil _).symm, (Except.error.inj h).symm, by simp, .inl ?_⟩
      exact isLayout_of_scan_eq_nil hscan
    | cons l back =>
      have hfirst : Lexeme.scan 0 text = [] ++ l :: back := hscan
      obtain ⟨a, b, htext, -, hb, hl, hs⟩ := scan_split hfirst
      rw [hscan] at h
      refine ⟨a, b, htext, ?_, hb, .inl hs.isLayout_of_nil⟩
      rw [← Nat.zero_add (byteSize a), ← hl]
      exact (Except.error.inj h).symm
  · simp [Expr.ofText, hread] at h
  · simp only [Expr.ofText, hread] at h
    obtain ⟨pre, hpre, hd⟩ := readExpression_cuts hread
    obtain ⟨front, back, hscan, hfront, hback⟩ := List.map_eq_append_iff.1 hpre
    obtain ⟨l, back, rfl, -, -⟩ := List.map_eq_cons_iff.1 hback
    obtain ⟨a, b, htext, hne, hb, hl, hs⟩ := scan_split hscan
    -- what is left over are the tokens from `l` on, and those in front of it are read again
    have hstop : (front ++ l :: back)[(front ++ l :: back).length - (t :: ts).length]? =
        some l := by
      rw [← hback, List.length_map, List.length_append, Nat.add_sub_cancel]
      simp
    rw [hfront] at hs
    rw [hscan, hstop] at h
    refine ⟨a, b, htext, ?_, hb, .inr ⟨⟨e', ofText_eq_ok_iff.2 ⟨pre, hd, hs⟩⟩, hne⟩⟩
    rw [← Nat.zero_add (byteSize a), ← hl]
    exact (Except.error.inj h).symm

/-- An `and` without a second operand is not a part of the condition in front of it. -/
theorem ofText_error_position_and :
    Expr.ofText "1 == 1 and (".toList = .error (.malformed "1 == 1 and (".toList 7) ∧
    evaluate "1 == 1 and (".toList = .error (.malformed "1 == 1 and (".toList 7) ∧
    ∃ front rest, "1 == 1 and (".toList = front ++ rest ∧
      (.malformed "1 == 1 and (".toList 7 : Error) =
        .malformed "1 == 1 and (".toList (byteSize front) ∧
      (∀ c ∈ rest.head?, isLayout c = false) ∧
      ((∀ c ∈ front, isLayout c = true) ∨ (∃ e', Expr.ofText front = .ok e') ∧ rest ≠ []) := by
  have hread : (Expr.ofText "1 == 1 and (".toList).map (fun _ => ()) =
      .error (.malformed "1 == 1 and (".toList 7) := by decide +kernel
  have h := map_eq_error_iff.1 hread
  exact ⟨h, ofText_error_position h⟩

end ApiStencil.Condition
