/-
ApiStencil/Proofs/Condition/Lexis.lean

How tokens are written.  `Token.Spelled` gives the spellings of each token, and
`Dialect.Spells` those of a sequence of tokens: blanks may stand anywhere between
two tokens, and have to where the next character would continue the token before
it.

Main statement: `Lexeme.scan` finds the tokens that a text spells, and
`Token.invalid` among them if it spells none (`spells_iff_scan`).
-/
import ApiStencil.Condition.Token
import ApiStencil.Proofs.Text.Numeral
import ApiStencil.Proofs.Text.Run

namespace ApiStencil.Condition

open Text

/-! ### Spellings -/

/-- The tokens with a single spelling. -/
def Token.symbols : List (Token × List Char) :=
  [(.equal, ['=', '=']), (.notEqual, ['!', '=']), (.bang, ['!']), (.bars, ['|', '|']),
    (.ampersands, ['&', '&']), (.openParen, ['(']), (.closeParen, [')']), (.openBracket, ['[']),
    (.closeBracket, [']']), (.comma, [','])]

/-- The token can be written in this way. -/
inductive Token.Spelled : Token → List Char → Prop
  | word {c : Char} {s : List Char} (hc : startsWord c = true)
      (hs : ∀ x ∈ s, isWordChar x = true) : Spelled (.word (c :: s)) (c :: s)
  | natural {s : List Char} (hs : s ≠ []) (hd : ∀ x ∈ s, x.isDigit = true)
      (hf : fitsInt64 (Nat.ofDigitChars 10 s 0) = true) :
      Spelled (.integer (Nat.ofDigitChars 10 s 0)) s
  | negative {s : List Char} (hs : s ≠ []) (hd : ∀ x ∈ s, x.isDigit = true)
      (hf : fitsInt64 (-Nat.ofDigitChars 10 s 0) = true) :
      Spelled (.integer (-Nat.ofDigitChars 10 s 0)) ('-' :: s)
  | quoted {quote : Char} {s : List Char} (hq : quote = '\'' ∨ quote = '"') (hs : quote ∉ s) :
      Spelled (.quoted s) (quote :: (s ++ [quote]))
  | symbol {t : Token} {s : List Char} (h : (t, s) ∈ symbols) : Spelled t s

/-- Whether a character right behind the token would be read as a part of it. -/
def Token.continuedBy : Token → Char → Bool
  | .word _, c => isWordChar c
  | .integer _, c => c.isDigit
  | .bang, c => c = '='
  | _, _ => false

/-- A way to write tokens: their spellings, and the characters that may not follow them. -/
structure Dialect where
  Spelled : Token → List Char → Prop
  continuedBy : Token → Char → Bool

/-- The text is a spelling of the tokens. -/
inductive Dialect.Spells (D : Dialect) : List Token → List Char → Prop
  | done : Spells D [] []
  | blank {ts : List Token} {c : Char} {s : List Char} (hc : isLayout c = true)
      (h : Spells D ts s) : Spells D ts (c :: s)
  | token {t : Token} {ts : List Token} {w s : List Char} (ht : D.Spelled t w)
      (hs : ∀ x ∈ s.head?, D.continuedBy t x = false) (h : Spells D ts s) :
      Spells D (t :: ts) (w ++ s)

/-- The condition language itself. -/
def Dialect.plain : Dialect := ⟨Token.Spelled, Token.continuedBy⟩

/-! ### Numbers -/

/-- Digits without a sign are the integer that they write, provided that it has 64 bits. -/
theorem readInt?_of_digits {s : List Char} {n : Int} (hs : s ≠ [])
    (hd : ∀ x ∈ s, x.isDigit = true) :
    readInt? 10 s = some n ↔ n = Nat.ofDigitChars 10 s 0 ∧ fitsInt64 n = true := by
  have hread : readInt? 10 s = (some (Nat.ofDigitChars 10 s 0 : Int)).filter fitsInt64 := by
    unfold readInt?
    split
    · exact absurd (hd '-' List.mem_cons_self) (by decide)
    · exact absurd (hd '+' List.mem_cons_self) (by decide)
    · rw [readNat?_ten hs hd]
      rfl
  rw [hread, Option.filter_eq_some_iff, Option.some_inj, eq_comm]

/-- Digits behind a minus sign are the negative integer, provided that it has 64 bits. -/
theorem readInt?_of_minus {s : List Char} {n : Int} (hs : s ≠ [])
    (hd : ∀ x ∈ s, x.isDigit = true) :
    readInt? 10 ('-' :: s) = some n ↔ n = -Nat.ofDigitChars 10 s 0 ∧ fitsInt64 n = true := by
  have hread : readInt? 10 ('-' :: s) =
      (some (-Nat.ofDigitChars 10 s 0 : Int)).filter fitsInt64 := by
    simp only [readInt?, readNat?_ten hs hd]
    rfl
  rw [hread, Option.filter_eq_some_iff, Option.some_inj, eq_comm]

/-- What follows an optional sign is read as a number when it starts with digits in range. -/
theorem readNumber_eq_some_iff {sign s rest : List Char} {t : Token} :
    Token.readNumber sign s = some (t, rest) ↔
      ∃ digits n, s = digits ++ rest ∧ (∀ x ∈ digits, x.isDigit = true) ∧
        (∀ x ∈ rest.head?, x.isDigit = false) ∧ readInt? 10 (sign ++ digits) = some n ∧
        t = .integer n := by
  constructor
  · intro h
    obtain ⟨n, hn, he⟩ := Option.map_eq_some_iff.1 h
    obtain ⟨rfl, rfl⟩ := Prod.mk.inj he
    exact ⟨_, n, List.takeWhile_append_dropWhile.symm, fun x hx => List.mem_takeWhile_imp hx,
      head?_dropWhile_stops s, hn, rfl⟩
  · rintro ⟨digits, n, rfl, hd, hr, hn, rfl⟩
    rw [Token.readNumber, takeWhile_append_of_stop hd hr, dropWhile_append_of_stop hd hr, hn]
    rfl

/-! ### Reading one token -/

namespace Token

/-- A quoted text ends at the first quote of its kind. -/
theorem readQuoted_append {quote : Char} {s : List Char} (hs : quote ∉ s) (rest : List Char) :
    readQuoted quote (s ++ quote :: rest) = some (.quoted s, rest) := by
  have hp : ∀ x ∈ s, decide (x ≠ quote) = true := fun x hx =>
    decide_eq_true fun he => hs (he ▸ hx)
  have hq : ∀ x ∈ (quote :: rest).head?, decide (x ≠ quote) = false := by simp
  rw [readQuoted, takeWhile_append_of_stop hp hq, dropWhile_append_of_stop hp hq]

/-- What is read as quoted is a text without that quote, between two of them. -/
theorem eq_of_readQuoted {quote : Char} {s rest : List Char} {t : Token}
    (h : readQuoted quote s = some (t, rest)) :
    ∃ content, quote ∉ content ∧ s = content ++ quote :: rest ∧ t = .quoted content := by
  unfold readQuoted at h
  split at h
  · cases h
  · next c r hd =>
    obtain ⟨rfl, rfl⟩ := Prod.mk.inj (Option.some.inj h)
    -- what ends the run of other characters is the quote
    obtain rfl : c = quote := by
      have := head?_dropWhile_stops (p := fun x => decide (x ≠ quote)) s c (by rw [hd]; rfl)
      simpa using this
    refine ⟨_, fun hm => ?_, ?_, rfl⟩
    · simpa using List.mem_takeWhile_imp hm
    · rw [← hd, List.takeWhile_append_dropWhile]

/-- No word starts with a digit. -/
theorem startsWord_of_isDigit {c : Char} (h : c.isDigit = true) : startsWord c = false := by
  have hd : 48 ≤ c.toNat ∧ c.toNat ≤ 57 := Char.isDigit_iff_toNat.1 h
  have hu : c ≠ '_' := ne_of_class h rfl
  have ha : c.isAlpha = false := by
    refine Bool.eq_false_iff.2 fun ha => ?_
    rcases Bool.or_eq_true_iff.1 ha with hupper | hlower
    · have : 65 ≤ c.toNat := (of_decide_eq_true hupper).1
      omega
    · have : 97 ≤ c.toNat := of_decide_eq_true (Bool.and_eq_true_iff.1 hlower).1
      omega
  simp [startsWord, hu, ha]

/-- A character that starts a word starts nothing else. -/
theorem read_of_startsWord {c : Char} (hc : startsWord c = true) (s : List Char) :
    read c s = some (readWord c s) := by
  have hd : ¬ c.isDigit = true := fun hd => by simp [startsWord_of_isDigit hd] at hc
  unfold read
  split
  all_goals first | exact absurd hc (by decide) | rw [if_neg hd, if_pos hc]

theorem read_of_isDigit {c : Char} (hc : c.isDigit = true) (s : List Char) :
    read c s = readNumber [] (c :: s) := by
  unfold read
  split
  all_goals first | exact absurd hc (by decide) | rw [if_pos hc]

/-- A token is read in the way it is spelled, unless the next character continues it. -/
theorem read_of_spelled {t : Token} {w rest s : List Char} {c : Char} (h : t.Spelled w)
    (hr : ∀ x ∈ rest.head?, t.continuedBy x = false) (he : w ++ rest = c :: s) :
    read c s = some (t, rest) := by
  cases h with
  | @word x word hc hs =>
    obtain ⟨rfl, hs'⟩ : x = c ∧ word ++ rest = s := List.cons.inj he
    rw [read_of_startsWord hc, readWord, ← hs', takeWhile_append_of_stop hs hr,
      dropWhile_append_of_stop hs hr]
  | natural hne hd hf =>
    have hc : c.isDigit = true := by
      obtain ⟨x, digits, rfl⟩ := List.exists_cons_of_ne_nil hne
      exact (List.cons.inj he).1 ▸ hd x List.mem_cons_self
    refine (read_of_isDigit hc s).trans ?_
    exact readNumber_eq_some_iff.2
      ⟨w, _, he.symm, hd, hr, (readInt?_of_digits hne hd).2 ⟨rfl, hf⟩, rfl⟩
  | @negative digits hne hd hf =>
    obtain ⟨rfl, hs'⟩ : '-' = c ∧ digits ++ rest = s := List.cons.inj he
    exact readNumber_eq_some_iff.2
      ⟨digits, _, hs'.symm, hd, hr, (readInt?_of_minus hne hd).2 ⟨rfl, hf⟩, rfl⟩
  | @quoted quote content hq hs =>
    obtain ⟨rfl, hs'⟩ : quote = c ∧ content ++ [quote] ++ rest = s := List.cons.inj he
    rw [← hs', List.append_assoc, List.singleton_append]
    rcases hq with rfl | rfl
    · exact readQuoted_append hs rest
    · exact readQuoted_append hs rest
  -- ten symbols, of which only `!` looks at the next character
  | symbol h =>
    simp only [symbols, List.mem_cons, Prod.mk.injEq, List.not_mem_nil, or_false] at h
    rcases h with ⟨rfl, rfl⟩ | ⟨rfl, rfl⟩ | ⟨rfl, rfl⟩ | ⟨rfl, rfl⟩ | ⟨rfl, rfl⟩ | ⟨rfl, rfl⟩ |
      ⟨rfl, rfl⟩ | ⟨rfl, rfl⟩ | ⟨rfl, rfl⟩ | ⟨rfl, rfl⟩
    all_goals obtain ⟨rfl, rfl⟩ := List.cons.inj he
    all_goals try rfl
    -- a `!` is read alone only if no `=` follows
    cases rest with
    | nil => rfl
    | cons x rest =>
      have hx : x ≠ '=' := by simpa [continuedBy] using hr x rfl
      simp [read, hx]

/-- The text starts with a spelling of the token, which `rest` does not continue. -/
def Starts (t : Token) (text rest : List Char) : Prop :=
  ∃ w, text = w ++ rest ∧ t.Spelled w ∧ ∀ x ∈ rest.head?, t.continuedBy x = false

theorem starts_symbol {t : Token} {w : List Char} (h : (t, w) ∈ symbols) (ht : t ≠ .bang)
    (rest : List Char) : t.Starts (w ++ rest) rest := by
  refine ⟨w, rfl, .symbol h, fun x _ => ?_⟩
  cases t <;> first | rfl | exact absurd rfl ht | simp [symbols] at h

theorem starts_of_readQuoted {t : Token} {quote : Char} {s rest : List Char}
    (hq : quote = '\'' ∨ quote = '"') (h : readQuoted quote s = some (t, rest)) :
    t.Starts (quote :: s) rest := by
  obtain ⟨content, hn, rfl, rfl⟩ := eq_of_readQuoted h
  exact ⟨_, by simp, .quoted hq hn, fun _ _ => rfl⟩

/-- A number that is read is spelled there. -/
theorem starts_of_readNumber {t : Token} {sign s rest : List Char}
    (hs : sign = [] ∨ sign = ['-']) (h : readNumber sign s = some (t, rest)) :
    t.Starts (sign ++ s) rest := by
  obtain ⟨digits, n, rfl, hd, hr, hn, rfl⟩ := readNumber_eq_some_iff.1 h
  refine ⟨sign ++ digits, (List.append_assoc ..).symm, ?_, hr⟩
  -- a sign alone is no number
  have hne : digits ≠ [] := by
    rintro rfl
    rcases hs with rfl | rfl <;> cases hn
  rcases hs with rfl | rfl
  · obtain ⟨rfl, hf⟩ := (readInt?_of_digits hne hd).1 hn
    exact .natural hne hd hf
  · obtain ⟨rfl, hf⟩ := (readInt?_of_minus hne hd).1 hn
    exact .negative hne hd hf

/-- A token that is read is spelled there, as one that nothing continues. -/
theorem starts_of_read {t : Token} {rest s : List Char} {c : Char}
    (h : read c s = some (t, rest)) : t.Starts (c :: s) rest := by
  unfold read at h
  split at h
  -- quotes, a minus sign, a `!`, and what starts no symbol
  case h_6 => exact starts_of_readQuoted (.inl rfl) h
  case h_7 => exact starts_of_readQuoted (.inr rfl) h
  case h_8 => exact starts_of_readNumber (.inr rfl) h
  case h_10 =>
    split at h
    · obtain ⟨rfl, rfl⟩ := Prod.mk.inj (Option.some.inj h)
      exact starts_symbol (w := ['!', '=']) (by decide) (by decide) _
    · next hs =>
      obtain ⟨rfl, rfl⟩ := Prod.mk.inj (Option.some.inj h)
      refine ⟨['!'], rfl, .symbol (by decide), fun x hx => decide_eq_false ?_⟩
      rintro rfl
      obtain ⟨r, rfl⟩ := List.head?_eq_some_iff.1 (Option.mem_def.1 hx)
      exact hs r rfl
  case h_13 =>
    split at h
    · exact starts_of_readNumber (.inl rfl) h
    · split at h
      · next hc =>
        obtain ⟨rfl, rfl⟩ := Prod.mk.inj (Option.some.inj h)
        refine ⟨_, ?_, .word hc fun x hx => List.mem_takeWhile_imp hx, head?_dropWhile_stops s⟩
        rw [List.cons_append, List.takeWhile_append_dropWhile]
      · cases h
  -- the symbols of one character, and those of two
  all_goals try split at h
  all_goals cases h
  all_goals first
    | exact starts_symbol (w := [_]) (by decide) (by decide) _
    | exact starts_symbol (w := [_, _]) (by decide) (by decide) _

/-- Reading finds the token that the text starts with. -/
theorem read_eq_some_iff {t : Token} {rest s : List Char} {c : Char} :
    read c s = some (t, rest) ↔ t.Starts (c :: s) rest :=
  ⟨starts_of_read, fun ⟨_, he, hw, hr⟩ => read_of_spelled hw hr he.symm⟩

theorem isLayout_eq_false {p : Char → Bool} {c : Char} (hc : p c = true)
    (hp : (p ' ' || p '\t' || p '\r' || p '\n') = false) : isLayout c = false := by
  simp only [Bool.or_eq_false_iff] at hp
  obtain ⟨⟨⟨h1, h2⟩, h3⟩, h4⟩ := hp
  simp [isLayout, ne_of_class hc h1, ne_of_class hc h2, ne_of_class hc h3, ne_of_class hc h4]

/-- A spelling is not empty and does not start with a blank, so the scan comes to it. -/
theorem Spelled.exists_cons {t : Token} {w : List Char} (h : t.Spelled w) :
    ∃ c s, w = c :: s ∧ isLayout c = false := by
  cases h with
  | word hc => exact ⟨_, _, rfl, isLayout_eq_false hc rfl⟩
  | natural hne hd =>
    obtain ⟨c, s, rfl⟩ := List.exists_cons_of_ne_nil hne
    exact ⟨c, s, rfl, isLayout_eq_false (hd c List.mem_cons_self) rfl⟩
  | negative => exact ⟨_, _, rfl, rfl⟩
  | quoted hq => rcases hq with rfl | rfl <;> exact ⟨_, _, rfl, rfl⟩
  | symbol h =>
    have key : ∀ p ∈ symbols, ∃ c s, p.2 = c :: s ∧ isLayout c = false := by
      simp [symbols, isLayout]
    exact key _ h

theorem Spelled.eq_of_word {s w : List Char} (h : (Token.word s).Spelled w) : w = s := by
  cases h with
  | word => rfl
  | symbol h => simp [symbols] at h

/-- The spelling of an integer starts with a digit or a minus sign, and is read as the integer. -/
theorem Spelled.of_integer {n : Int} {w : List Char} (h : (Token.integer n).Spelled w) :
    readInt? 10 w = some n ∧ ∃ c s, w = c :: s ∧ (c.isDigit = true ∨ c = '-') := by
  cases h with
  | natural hne hd hf =>
    obtain ⟨c, s, rfl⟩ := List.exists_cons_of_ne_nil hne
    exact ⟨(readInt?_of_digits hne hd).2 ⟨rfl, hf⟩, c, s, rfl, .inl (hd c List.mem_cons_self)⟩
  | negative hne hd hf => exact ⟨(readInt?_of_minus hne hd).2 ⟨rfl, hf⟩, _, _, rfl, .inr rfl⟩
  | symbol h => simp [symbols] at h

theorem Spelled.ne_invalid {t : Token} {w : List Char} (h : t.Spelled w) : t ≠ .invalid := by
  rintro rfl
  obtain - | - | - | - | h := h
  simp [symbols] at h

end Token

/-! ### Reading all tokens -/

theorem scan_blank {c : Char} (hc : isLayout c = true) (start : Nat) (s : List Char) :
    Lexeme.scan start (c :: s) = Lexeme.scan (start + c.utf8Size) s := by
  rw [Lexeme.scan, if_pos hc]

/-- A token that is spelled is the next one of the scan. -/
theorem scan_token {t : Token} {w rest : List Char} (h : t.Spelled w)
    (hr : ∀ x ∈ rest.head?, t.continuedBy x = false) (start : Nat) :
    ∃ k, Lexeme.scan start (w ++ rest) = ⟨t, start⟩ :: Lexeme.scan k rest := by
  obtain ⟨c, s, rfl, hc⟩ := h.exists_cons
  have hread := Token.read_eq_some_iff.2 ⟨c :: s, rfl, h, hr⟩
  rw [List.cons_append, Lexeme.scan, if_neg (by simp [hc])]
  split
  · next h' => exact absurd (h'.symm.trans hread) (by simp)
  · next h' =>
    obtain ⟨rfl, rfl⟩ := Prod.mk.inj (Option.some.inj (h'.symm.trans hread))
    exact ⟨_, rfl⟩

/-- The tokens of a text are those that it spells, and there is an invalid one among them if it
spells none. -/
theorem spells_iff_scan {ts : List Token} {s : List Char} (start : Nat) :
    Dialect.plain.Spells ts s ↔
      (Lexeme.scan start s).map Lexeme.token = ts ∧ Token.invalid ∉ ts := by
  constructor
  · intro h
    -- along the spelling, which the scan follows from any offset
    induction h generalizing start with
    | done => exact ⟨by rw [Lexeme.scan]; rfl, by simp⟩
    | blank hc _ ih =>
      rw [scan_blank hc]
      exact ih _
    | token ht hs _ ih =>
      obtain ⟨k, hk⟩ := scan_token ht hs start
      obtain ⟨hts, hinv⟩ := ih k
      refine ⟨by rw [hk, List.map_cons, hts], ?_⟩
      exact List.not_mem_cons_of_ne_of_not_mem ht.ne_invalid.symm hinv
  · rintro ⟨rfl, hinv⟩
    -- the scan gives the spelling token by token, unless it ends with what is none
    fun_induction Lexeme.scan start s with
    | case1 => exact .done
    | case2 start c s hc ih => exact .blank hc (ih hinv)
    | case3 start c s hc h => exact absurd List.mem_cons_self hinv
    | case4 start c s hc t r h ih =>
      obtain ⟨w, hw, ht, hr⟩ := Token.read_eq_some_iff.1 h
      have key := Dialect.Spells.token (D := .plain) ht hr
        (ih fun hm => hinv (List.mem_cons_of_mem _ hm))
      rw [← hw] at key
      exact key

end ApiStencil.Condition
