/-
ApiStencil/Proofs/Template/Captured.lean

The condition in parentheses, told by counting.  A quote hides everything up to the next
one of its kind, and what is not hidden is `unquoted`.  A text is a condition if all of its
quotes are closed and its parentheses outside quotes match: no prefix closes more than it
opens, and the whole closes as many as it opens (`Counted`).

Main result: a condition is read exactly from the texts that are such a text in
parentheses with anything behind them.  There is one way at most to see a text so, and
nothing is read if there is none (`readParenthesized_exact`).

Counting and enclosing are the same (`enclosed_iff_counted`): each way to enclose a text
keeps the counts right (`Counted`), and a text that closes by count some parentheses open
in front of it (`Counts`) closes them one by one (`Counts.closes`).
-/
import ApiStencil.Proofs.Template.Enclosed

namespace ApiStencil.Template

/-! ### What is outside quotes -/

/-- The characters outside quotes.  A quote that is not closed hides the rest of the text. -/
def unquoted : List Char → List Char
  | [] => []
  | c :: r =>
    if c = '\'' ∨ c = '"' then unquoted (r.dropWhile (· ≠ c)).tail else c :: unquoted r
termination_by s => s.length
decreasing_by
  · have hdrop : (r.dropWhile (· ≠ c)).length ≤ r.length :=
      (List.dropWhile_suffix _).length_le
    rw [List.length_tail, List.length_cons]
    omega
  · exact Nat.lt_succ_self r.length

/-- Every quote is closed by the next one of its kind. -/
inductive QuotesClosed : List Char → Prop
  | nil : QuotesClosed []
  | char {c : Char} {s : List Char} (hq : c ≠ '\'' ∧ c ≠ '"') (hs : QuotesClosed s) :
      QuotesClosed (c :: s)
  | quoted {quote : Char} {content s : List Char} (hq : quote = '\'' ∨ quote = '"')
      (hc : quote ∉ content) (hs : QuotesClosed s) :
      QuotesClosed (quote :: content ++ quote :: s)

/-- The quotes in a text are closed, and its parentheses outside quotes match by count. -/
structure Counted (c : List Char) : Prop where
  quotes : QuotesClosed c
  closing_le : ∀ p, p <+: c → (unquoted p).count ')' ≤ (unquoted p).count '('
  closing_eq : (unquoted c).count ')' = (unquoted c).count '('

/-- A text that is the condition `c` in parentheses, with `rest` behind them. -/
def Captures (s c rest : List Char) : Prop :=
  s = '(' :: c ++ ')' :: rest ∧ Counted c

variable {quote : Char} {content a b c p s : List Char} {d : Nat}

theorem unquoted_nil : unquoted [] = [] := by
  rw [unquoted]

theorem unquoted_cons {x : Char} (hq : x ≠ '\'' ∧ x ≠ '"') (s : List Char) :
    unquoted (x :: s) = x :: unquoted s := by
  rw [unquoted, if_neg (not_or.2 hq)]

theorem dropWhile_ne_append (hc : quote ∉ content) (t : List Char) :
    (content ++ t).dropWhile (· ≠ quote) = t.dropWhile (· ≠ quote) := by
  refine List.dropWhile_append_of_pos fun x hx => decide_eq_true ?_
  rintro rfl
  exact hc hx

/-- A quote that is not closed yet hides everything. -/
theorem unquoted_open (hq : quote = '\'' ∨ quote = '"') (hc : quote ∉ content) :
    unquoted (quote :: content) = [] := by
  have hdrop : content.dropWhile (· ≠ quote) = [] := by
    have happend := dropWhile_ne_append hc []
    rwa [List.append_nil] at happend
  rw [unquoted, if_pos hq, hdrop]
  exact unquoted_nil

/-- A closed quote hides its content. -/
theorem unquoted_quoted (hq : quote = '\'' ∨ quote = '"') (hc : quote ∉ content)
    (s : List Char) : unquoted (quote :: content ++ quote :: s) = unquoted s := by
  have hdrop : (content ++ quote :: s).dropWhile (· ≠ quote) = quote :: s := by
    rw [dropWhile_ne_append hc]
    exact List.dropWhile_cons_of_neg (by simp)
  rw [List.cons_append, unquoted, if_pos hq, hdrop]
  rfl

/-- Behind closed quotes, a text is as it is alone. -/
theorem QuotesClosed.unquoted_append (h : QuotesClosed a) (b : List Char) :
    unquoted (a ++ b) = unquoted a ++ unquoted b := by
  induction h with
  | nil =>
    rw [unquoted_nil]
    rfl
  | char hq _ ih =>
    rw [List.cons_append, unquoted_cons hq, unquoted_cons hq, ih]
    rfl
  | @quoted quote content s hq hc _ ih =>
    rw [unquoted_quoted hq hc, List.append_assoc]
    show unquoted (quote :: content ++ quote :: (s ++ b)) = _
    rw [unquoted_quoted hq hc, ih]

/-- Two texts with closed quotes have closed quotes together. -/
theorem QuotesClosed.append (ha : QuotesClosed a) (hb : QuotesClosed b) :
    QuotesClosed (a ++ b) := by
  induction ha with
  | nil => exact hb
  | char hq _ ih => exact .char hq ih
  | @quoted quote content s hq hc _ ih =>
    rw [List.append_assoc]
    exact .quoted hq hc ih

/-! ### Counting and enclosing -/

theorem prefix_append_cases (h : p <+: a ++ b) : p <+: a ∨ ∃ q, p = a ++ q ∧ q <+: b := by
  rcases List.prefix_or_prefix_of_prefix h (List.prefix_append a b) with hp | ⟨q, rfl⟩
  · exact .inl hp
  · exact .inr ⟨q, rfl, (List.prefix_append_right_inj a).1 h⟩

/-- A prefix of a text that starts with a quote is hidden, or goes on behind what the quote
hides. -/
theorem unquoted_of_prefix_quoted (hq : quote = '\'' ∨ quote = '"') (hc : quote ∉ content)
    (h : p <+: quote :: content ++ quote :: s) :
    unquoted p = [] ∨ ∃ q, q <+: s ∧ unquoted p = unquoted q := by
  rcases prefix_append_cases h with hopen | ⟨q, rfl, hrest⟩
  · rcases List.prefix_cons_iff.1 hopen with rfl | ⟨q, rfl, hinside⟩
    · exact .inl unquoted_nil
    · exact .inl (unquoted_open hq fun hmem => hc (hinside.subset hmem))
  · rcases List.prefix_cons_iff.1 hrest with rfl | ⟨q, rfl, hbehind⟩
    · rw [List.append_nil]
      exact .inl (unquoted_open hq hc)
    · exact .inr ⟨q, hbehind, unquoted_quoted hq hc q⟩

/-- The characters outside quotes of a text that starts with a pair of parentheses. -/
theorem unquoted_parentheses (hinner : QuotesClosed a) (t : List Char) :
    unquoted ('(' :: a ++ ')' :: t) = '(' :: (unquoted a ++ ')' :: unquoted t) := by
  rw [List.cons_append, unquoted_cons (by decide), hinner.unquoted_append,
    unquoted_cons (by decide)]

/-- Parentheses around a text add one of each kind. -/
theorem count_parentheses (u v : List Char) :
    ('(' :: (u ++ ')' :: v)).count ')' = u.count ')' + v.count ')' + 1 ∧
      ('(' :: (u ++ ')' :: v)).count '(' = u.count '(' + v.count '(' + 1 := by
  constructor
  · rw [List.count_cons_of_ne (by decide), List.count_append, List.count_cons_self, Nat.add_assoc]
  · rw [List.count_cons_self, List.count_append, List.count_cons_of_ne (by decide)]

namespace Counted

/-- The empty text is counted. -/
theorem nil : Counted [] where
  quotes := .nil
  closing_le p hp := by
    rw [List.prefix_nil.1 hp, unquoted_nil]
    exact Nat.le_refl _
  closing_eq := by
    rw [unquoted_nil]
    rfl

/-- A character that is neither quote nor parenthesis changes no count. -/
theorem char {x : Char} (hq : x ≠ '\'' ∧ x ≠ '"') (hp : x ≠ '(' ∧ x ≠ ')') (h : Counted s) :
    Counted (x :: s) where
  quotes := .char hq h.quotes
  closing_le p hprefix := by
    rcases List.prefix_cons_iff.1 hprefix with rfl | ⟨q, rfl, hrest⟩
    · rw [unquoted_nil]
      exact Nat.le_refl _
    · rw [unquoted_cons hq, List.count_cons_of_ne hp.1, List.count_cons_of_ne hp.2]
      exact h.closing_le q hrest
  closing_eq := by
    rw [unquoted_cons hq, List.count_cons_of_ne hp.1, List.count_cons_of_ne hp.2]
    exact h.closing_eq

/-- A text in quotes changes no count. -/
theorem quoted (hq : quote = '\'' ∨ quote = '"') (hc : quote ∉ content) (h : Counted s) :
    Counted (quote :: content ++ quote :: s) where
  quotes := .quoted hq hc h.quotes
  closing_le p hprefix := by
    rcases unquoted_of_prefix_quoted hq hc hprefix with hp | ⟨q, hrest, hp⟩
    · rw [hp]
      exact Nat.le_refl _
    · rw [hp]
      exact h.closing_le q hrest
  closing_eq := by
    rw [unquoted_quoted hq hc]
    exact h.closing_eq

/-- Parentheses around a counted text keep the counts right. -/
theorem parentheses (hi : Counted a) (hs : Counted s) : Counted ('(' :: a ++ ')' :: s) where
  quotes := by
    have hopen : QuotesClosed ('(' :: a) := .char (by decide) hi.quotes
    have hclose : QuotesClosed (')' :: s) := .char (by decide) hs.quotes
    exact hopen.append hclose
  closing_le p hprefix := by
    have heq := hi.closing_eq
    rcases prefix_append_cases hprefix with hopen | ⟨q, rfl, hrest⟩
    · rcases List.prefix_cons_iff.1 hopen with rfl | ⟨q, rfl, hinside⟩
      · rw [unquoted_nil]
        exact Nat.le_refl _
      · -- between the parentheses, one more is open
        have hle := hi.closing_le q hinside
        rw [unquoted_cons (by decide), List.count_cons_self, List.count_cons_of_ne (by decide)]
        exact Nat.le_succ_of_le hle
    · rcases List.prefix_cons_iff.1 hrest with rfl | ⟨q, rfl, hbehind⟩
      · rw [List.append_nil, unquoted_cons (by decide), List.count_cons_self,
          List.count_cons_of_ne (by decide), heq]
        exact Nat.le_succ _
      · have hle := hs.closing_le q hbehind
        obtain ⟨hclosing, hopening⟩ := count_parentheses (unquoted a) (unquoted q)
        rw [unquoted_parentheses hi.quotes, hclosing, hopening]
        omega
  closing_eq := by
    obtain ⟨hclosing, hopening⟩ := count_parentheses (unquoted a) (unquoted s)
    rw [unquoted_parentheses hi.quotes, hclosing, hopening, hi.closing_eq, hs.closing_eq]

end Counted

/-- Each way to enclose a text keeps the counts right. -/
theorem Enclosed.counted (h : Enclosed c) : Counted c := by
  induction h with
  | nil => exact .nil
  | char hq hp _ ih => exact ih.char hq hp
  | quoted hq hc _ ih => exact ih.quoted hq hc
  | parentheses _ _ ihi ihs => exact ihi.parentheses ihs

/-- By count, the text closes `d` parentheses that are open in front of it, and its own match. -/
structure Counts (d : Nat) (c : List Char) : Prop where
  closing_le : ∀ p, p <+: c → (unquoted p).count ')' ≤ d + (unquoted p).count '('
  closing_eq : (unquoted c).count ')' = d + (unquoted c).count '('

namespace Counts

variable {d : Nat}

/-- An opening parenthesis is one more that the rest has to close. -/
theorem of_opening (h : Counts d ('(' :: s)) : Counts (d + 1) s := by
  have hcount : ∀ t, (unquoted ('(' :: t)).count ')' = (unquoted t).count ')' ∧
      (unquoted ('(' :: t)).count '(' = (unquoted t).count '(' + 1 := by
    intro t
    rw [unquoted_cons (by decide), List.count_cons_of_ne (by decide), List.count_cons_self]
    exact ⟨rfl, rfl⟩
  constructor
  · intro q hprefix
    have hle := h.closing_le ('(' :: q) (List.cons_prefix_cons.2 ⟨rfl, hprefix⟩)
    rw [(hcount q).1, (hcount q).2] at hle
    omega
  · have heq := h.closing_eq
    rw [(hcount s).1, (hcount s).2] at heq
    omega

/-- A closing parenthesis closes one that is open, so there is one. -/
theorem of_closing (h : Counts d (')' :: s)) : ∃ k, d = k + 1 ∧ Counts k s := by
  have hcount : ∀ t, (unquoted (')' :: t)).count ')' = (unquoted t).count ')' + 1 ∧
      (unquoted (')' :: t)).count '(' = (unquoted t).count '(' := by
    intro t
    rw [unquoted_cons (by decide), List.count_cons_self, List.count_cons_of_ne (by decide)]
    exact ⟨rfl, rfl⟩
  have hle : ∀ q, q <+: s → (unquoted q).count ')' + 1 ≤ d + (unquoted q).count '(' := by
    intro q hprefix
    have hle := h.closing_le (')' :: q) (List.cons_prefix_cons.2 ⟨rfl, hprefix⟩)
    rwa [(hcount q).1, (hcount q).2] at hle
  have hpos : 0 < d := by
    have hnil := hle [] List.nil_prefix
    rw [unquoted_nil] at hnil
    exact hnil
  refine ⟨d - 1, by omega, ?_, ?_⟩
  · intro q hprefix
    have hq := hle q hprefix
    omega
  · have heq := h.closing_eq
    rw [(hcount s).1, (hcount s).2] at heq
    omega

/-- Any other character may be left out. -/
theorem of_char {x : Char} (hq : x ≠ '\'' ∧ x ≠ '"') (hp : x ≠ '(' ∧ x ≠ ')')
    (h : Counts d (x :: s)) : Counts d s := by
  constructor
  · intro q hprefix
    have hle := h.closing_le (x :: q) (List.cons_prefix_cons.2 ⟨rfl, hprefix⟩)
    rwa [unquoted_cons hq, List.count_cons_of_ne hp.1, List.count_cons_of_ne hp.2] at hle
  · have heq := h.closing_eq
    rwa [unquoted_cons hq, List.count_cons_of_ne hp.1, List.count_cons_of_ne hp.2] at heq

/-- So may a text in quotes. -/
theorem of_quoted (hq : quote = '\'' ∨ quote = '"') (hc : quote ∉ content)
    (h : Counts d (quote :: content ++ quote :: s)) : Counts d s := by
  constructor
  · intro q hprefix
    have hle := h.closing_le (quote :: content ++ quote :: q)
      ((List.prefix_append_right_inj _).2 (List.cons_prefix_cons.2 ⟨rfl, hprefix⟩))
    rwa [unquoted_quoted hq hc] at hle
  · have heq := h.closing_eq
    rwa [unquoted_quoted hq hc] at heq

/-- What closes parentheses by count closes them one by one. -/
theorem closes (h : Counts d c) (hquotes : QuotesClosed c) : Closes d c := by
  -- by induction on how the quotes are closed; what is outside them is looked at character by
  -- character
  induction hquotes generalizing d with
  | nil =>
    have hzero : d = 0 := by
      have heq := h.closing_eq
      rw [unquoted_nil] at heq
      exact heq.symm
    rw [hzero]
    exact .enclosed .nil
  | @char x s hq _ ih =>
    by_cases hopening : x = '('
    · subst hopening
      exact (ih h.of_opening).parenthesis
    · by_cases hclosing : x = ')'
      · subst hclosing
        obtain ⟨k, rfl, hrest⟩ := h.of_closing
        exact .close .nil (ih hrest)
      · exact (ih (h.of_char hq ⟨hopening, hclosing⟩)).char hq ⟨hopening, hclosing⟩
  | quoted hq hc _ ih => exact (ih (h.of_quoted hq hc)).quoted hq hc

end Counts

/-- What is enclosed can be told by counting. -/
theorem enclosed_iff_counted : Enclosed c ↔ Counted c := by
  constructor
  · exact Enclosed.counted
  · intro h
    have hcounts : Counts 0 c := by
      constructor
      · intro p hp
        rw [Nat.zero_add]
        exact h.closing_le p hp
      · rw [Nat.zero_add]
        exact h.closing_eq
    cases hcounts.closes h.quotes with
    | enclosed hc => exact hc

/-! ### Reading -/

/-- A condition is read exactly from the texts that are one in parentheses. -/
theorem readParenthesized_eq_some_iff {rest : List Char} :
    readParenthesized s = some (c, rest) ↔ Captures s c rest := by
  constructor
  · intro h
    have hs := readParenthesized_eq_some h
    rw [hs] at h
    exact ⟨hs, enclosed_iff_counted.1 (readCondition_eq_some_iff.1 h).1⟩
  · rintro ⟨rfl, hc⟩
    exact readCondition_eq_some_iff.2 ⟨enclosed_iff_counted.2 hc, rfl⟩

/-- A condition is read exactly if its quotes are closed and its parentheses match by count, and
what is left is the text behind it.  There is one condition at most, and reading fails if there is
none. -/
theorem readParenthesized_exact (s : List Char) :
    (∀ c rest, readParenthesized s = some (c, rest) ↔ Captures s c rest) ∧
      (∀ c rest c' rest', Captures s c rest → Captures s c' rest' → c = c' ∧ rest = rest') ∧
      (readParenthesized s = none ↔ ∀ c rest, ¬ Captures s c rest) := by
  refine ⟨fun c rest => readParenthesized_eq_some_iff, ?_, ?_⟩
  · intro c rest c' rest' h h'
    have hread := readParenthesized_eq_some_iff.2 h
    rw [readParenthesized_eq_some_iff.2 h'] at hread
    obtain ⟨rfl, rfl⟩ := Prod.mk.inj (Option.some.inj hread)
    exact ⟨rfl, rfl⟩
  · rw [Option.eq_none_iff_forall_ne_some, Prod.forall]
    refine forall_congr' fun c => forall_congr' fun rest => ?_
    rw [ne_eq, readParenthesized_eq_some_iff]

/-- A parenthesis in a quote does not count. -/
example : readParenthesized "('(' in 'x')y".toList = some ("'(' in 'x'".toList, "y".toList) := by
  decide

end ApiStencil.Template
