/-
ApiStencil/Proofs/Placeholder/Substitute.lean

Two laws of substitution.

A text that can be replaced is read in the same pieces whatever follows it, so
substitution distributes over concatenation (`substituteFrom_append`,
`substitute_distributes`).  A piece looks ahead, since a brace may be the first of
two, but a piece that has been read is complete.

Only the values of the names that a text mentions matter (`substituteFrom_congr`).
-/
import ApiStencil.Placeholder.Substitute
import Mathlib.Data.List.TakeWhile

namespace ApiStencil.Placeholder

open Text

variable {values : Values}

/-! ### What a step of substitution does -/

/-- Substitution replaces the first piece and goes on behind it, unless the piece has no meaning. -/
theorem substituteFrom_of_readPiece {c : Char} {s rest : List Char} {p : Piece} (offset : Nat)
    (h : readPiece c s = some (p, rest)) :
    substituteFrom values offset (c :: s) =
      match p.meaning values offset with
      | .error e => .error e
      | .ok meaning =>
        (substituteFrom values (offset + byteSize p.source) rest).map (meaning ++ ·) := by
  rw [substituteFrom]
  split
  · next h' => rw [h] at h'; cases h'
  · next p' rest' h' =>
    obtain ⟨rfl, rfl⟩ := Prod.mk.inj (Option.some.inj (h.symm.trans h'))
    cases p.meaning values offset <;> rfl

/-- Substitution fails at a brace that cannot be read. -/
theorem substituteFrom_of_readPiece_eq_none {c : Char} {s : List Char} (offset : Nat)
    (h : readPiece c s = none) :
    substituteFrom values offset (c :: s) =
      .error (if c = '{' then .unmatchedOpen offset else .unmatchedClose offset) := by
  rw [substituteFrom]
  split
  · split <;> rfl
  · next h' => rw [h] at h'; cases h'

/-! ### Concatenation -/

/-- A name is complete with its closing brace, so what follows does not matter to it. -/
theorem readName_append {s rest : List Char} {p : Piece} (h : readName s = some (p, rest))
    (b : List Char) : readName (s ++ b) = some (p, rest ++ b) := by
  unfold readName at h
  split at h
  · next c name rest' ht hd =>
    obtain ⟨rfl, rfl⟩ : Piece.name (c :: name) = p ∧ rest' = rest := by simpa using h
    -- the word is followed by a brace, which is in the text already
    have hs : s = c :: name ++ '}' :: rest' := by
      rw [← ht, ← hd, List.takeWhile_append_dropWhile]
    have hw : ∀ a ∈ c :: name, isWordChar a = true := fun a ha =>
      List.mem_takeWhile_imp (ht ▸ ha)
    have hb : ¬ isWordChar '}' = true := by decide
    have hsb : s ++ b = (c :: name) ++ '}' :: (rest' ++ b) := by
      rw [hs]
      simp
    have ht' : (s ++ b).takeWhile isWordChar = c :: name := by
      rw [hsb, List.takeWhile_append_of_pos hw, List.takeWhile_cons_of_neg hb, List.append_nil]
    have hd' : (s ++ b).dropWhile isWordChar = '}' :: (rest' ++ b) := by
      rw [hsb, List.dropWhile_append_of_pos hw, List.dropWhile_cons_of_neg hb]
    simp only [readName, ht', hd']
  · cases h

/-- A piece is read in the same way whatever follows. -/
theorem readPiece_append {c : Char} {s rest : List Char} {p : Piece}
    (h : readPiece c s = some (p, rest)) (b : List Char) :
    readPiece c (s ++ b) = some (p, rest ++ b) := by
  unfold readPiece at h ⊢
  split at h
  · next hc =>
    rw [if_pos hc]
    split at h
    · obtain ⟨rfl, rfl⟩ := Prod.mk.inj (Option.some.inj h)
      rfl
    · next hs =>
      have hn := readName_append h b
      split
      · next rest' he =>
        -- a name in braces does not start with a brace
        cases s with
        | nil => cases h
        | cons x s =>
          obtain rfl : x = '{' := (List.cons.inj he).1
          exact absurd rfl (hs s)
      · exact hn
  · next hc =>
    rw [if_neg hc]
    split at h
    · next hc' =>
      rw [if_pos hc']
      split at h
      · obtain ⟨rfl, rfl⟩ := Prod.mk.inj (Option.some.inj h)
        rfl
      · cases h
    · next hc' =>
      rw [if_neg hc']
      obtain ⟨rfl, rfl⟩ := Prod.mk.inj (Option.some.inj h)
      rfl

/-- Substitution distributes over concatenation where the first part can be replaced. -/
theorem substituteFrom_append (offset : Nat) (a b : List Char) :
    ∀ s, substituteFrom values offset a = .ok s →
      substituteFrom values offset (a ++ b) =
        (substituteFrom values (offset + byteSize a) b).map (s ++ ·) := by
  fun_induction substituteFrom values offset a with
  | case1 offset =>
    intro s h
    obtain rfl := Except.ok.inj h
    simp only [List.nil_append, byteSize_nil, Nat.add_zero]
    cases substituteFrom values offset b <;> rfl
  | case2 => intro s h; cases h
  | case3 => intro s h; cases h
  | case4 offset c r p rest hp meaning hm ih =>
    intro s h
    -- errors in `b` are counted from the start of the whole text
    have hsize : offset + byteSize (c :: r) = offset + byteSize p.source + byteSize rest := by
      rw [readPiece_eq_some hp, byteSize_append, Nat.add_assoc]
    rw [List.cons_append, substituteFrom_of_readPiece offset (readPiece_append hp b), hm, hsize]
    dsimp only
    rcases hs : substituteFrom values (offset + byteSize p.source) rest with e | t
    · rw [hs] at h
      cases h
    · rw [hs] at h
      obtain rfl := Except.ok.inj h
      rw [ih t hs]
      cases substituteFrom values (offset + byteSize p.source + byteSize rest) b with
      | error e => rfl
      | ok u => simp [Except.map]

/-- Two texts that can be replaced can be replaced together. -/
theorem substitute_append {a b s t : List Char} (ha : substitute values a = .ok s)
    (hb : substitute values b = .ok t) : substitute values (a ++ b) = .ok (s ++ t) := by
  have h := substituteFrom_append 0 a b s ha
  have hshift := substituteFrom_add values (byteSize a) 0 b
  rw [Nat.add_zero, show substituteFrom values 0 b = .ok t from hb] at hshift
  rw [substitute, h, Nat.zero_add, hshift]
  rfl

/-- A name without a value ends substitution, whatever follows the text. -/
theorem substituteFrom_append_of_unknown (offset : Nat) (a b : List Char) {n : List Char}
    {k : Nat} :
    substituteFrom values offset a = .error (.unknown n k) →
      substituteFrom values offset (a ++ b) = .error (.unknown n k) := by
  fun_induction substituteFrom values offset a with
  | case1 => intro h; cases h
  | case2 offset c r hp =>
    -- a brace that cannot be read gives another error, and `b` might complete it
    intro h
    split at h <;> cases h
  | case3 offset c r p rest hp e hm =>
    intro h
    rw [List.cons_append, substituteFrom_of_readPiece offset (readPiece_append hp b), hm]
    exact h
  | case4 offset c r p rest hp meaning hm ih =>
    intro h
    rw [List.cons_append, substituteFrom_of_readPiece offset (readPiece_append hp b), hm]
    dsimp only
    rcases hs : substituteFrom values (offset + byteSize p.source) rest with e | t
    · rw [hs] at h
      obtain rfl := Except.error.inj h
      rw [ih hs]
      rfl
    · rw [hs] at h
      cases h

/-- Substitution distributes over concatenation.  Behind a text that can be replaced, the second
text decides: its result is added, and its error is the same with the offset counted from the start
of the whole.  A name without a value in the first text is the error of the whole. -/
theorem substitute_distributes (values : Values) (a b : List Char) :
    (∀ s, substitute values a = .ok s →
      (∀ t, substitute values b = .ok t → substitute values (a ++ b) = .ok (s ++ t)) ∧
      ∀ e, substitute values b = .error e →
        substitute values (a ++ b) = .error (e.shift (byteSize a))) ∧
    ∀ n k, substitute values a = .error (.unknown n k) →
      substitute values (a ++ b) = .error (.unknown n k) := by
  refine ⟨fun s ha => ⟨fun t hb => substitute_append ha hb, fun e hb => ?_⟩, fun n k ha => ?_⟩
  · have hshift := substituteFrom_add values (byteSize a) 0 b
    rw [Nat.add_zero, show substituteFrom values 0 b = .error e from hb] at hshift
    rw [substitute, substituteFrom_append 0 a b s ha, Nat.zero_add, hshift]
    rfl
  · exact substituteFrom_append_of_unknown 0 a b ha

/-- A value that is a brace. -/
def braceNamedX : Values :=
  .ofList [("x", "\x7b")]

/-- Braces that meet at the cut: each half is read alone, and a value is not read again. -/
theorem substitute_distributes_at_braces :
    (substitute braceNamedX "ä\x7bx\x7d".toList = .ok "ä\x7b".toList ∧
      substitute braceNamedX "\x7d\x7d".toList = .ok "\x7d".toList ∧
      substitute braceNamedX ("ä\x7bx\x7d".toList ++ "\x7d\x7d".toList) =
        .ok ("ä\x7b".toList ++ "\x7d".toList)) ∧
    (substitute braceNamedX "\x7d\x7b".toList = .error (.unmatchedClose 0) ∧
      substitute braceNamedX ("ä\x7bx\x7d".toList ++ "\x7d\x7b".toList) =
        .error (.unmatchedClose 5)) ∧
    substitute braceNamedX "\x7by\x7d\x7b".toList = .error (.unknown "y".toList 0) ∧
      substitute braceNamedX ("\x7by\x7d\x7b".toList ++ "\x7b".toList) =
        .error (.unknown "y".toList 0) := by
  have ha : substitute braceNamedX "ä\x7bx\x7d".toList = .ok "ä\x7b".toList := by
    decide +kernel
  have hb : substitute braceNamedX "\x7d\x7d".toList = .ok "\x7d".toList := by
    decide +kernel
  have he : substitute braceNamedX "\x7d\x7b".toList = .error (.unmatchedClose 0) := by
    decide +kernel
  have hu : substitute braceNamedX "\x7by\x7d\x7b".toList = .error (.unknown "y".toList 0) := by
    decide +kernel
  obtain ⟨hok, -⟩ := substitute_distributes braceNamedX _ "\x7d\x7d".toList
  obtain ⟨herror, -⟩ := substitute_distributes braceNamedX _ "\x7d\x7b".toList
  obtain ⟨-, hunknown⟩ := substitute_distributes braceNamedX _ "\x7b".toList
  exact ⟨⟨ha, hb, (hok _ ha).1 _ hb⟩, ⟨he, (herror _ ha).2 _ he⟩, hu, hunknown _ _ hu⟩

/-! ### The names that matter -/

/-- The name that a piece asks for, if it is one in braces. -/
def Piece.name? : Piece → Option (List Char)
  | .name n => some n
  | _ => none

/-- The names in braces of a text, up to the first brace that cannot be read. -/
def namesIn : List Char → List (List Char)
  | [] => []
  | c :: s =>
    match _h : readPiece c s with
    | none => []
    | some (p, rest) => p.name?.toList ++ namesIn rest
termination_by s => s.length
decreasing_by
  have h1 := congrArg List.length (readPiece_eq_some _h)
  have h2 := p.length_source_pos
  rw [List.length_append] at h1
  omega

/-- The names of a text are that of its first piece, if it has one, and those behind it. -/
theorem namesIn_of_readPiece {c : Char} {s rest : List Char} {p : Piece}
    (h : readPiece c s = some (p, rest)) : namesIn (c :: s) = p.name?.toList ++ namesIn rest := by
  rw [namesIn]
  split
  · next h' => rw [h] at h'; cases h'
  · next p' rest' h' =>
    obtain ⟨rfl, rfl⟩ := Prod.mk.inj (Option.some.inj (h.symm.trans h'))
    rfl

/-- The meaning of a piece depends on the value of its own name only. -/
theorem Piece.meaning_congr {values values' : Values} {p : Piece}
    (h : ∀ n, p.name? = some n → values.get? (String.ofList n) = values'.get? (String.ofList n))
    (offset : Nat) : p.meaning values offset = p.meaning values' offset := by
  cases p with
  | name n => simp only [Piece.meaning, h n rfl]
  | _ => rfl

/-- Values that agree on the names of a text give the same text. -/
theorem substituteFrom_congr {values values' : Values} (offset : Nat) (text : List Char) :
    (∀ n ∈ namesIn text, values.get? (String.ofList n) = values'.get? (String.ofList n)) →
      substituteFrom values offset text = substituteFrom values' offset text := by
  -- along the pieces; each looks up its own name, and those behind it are names of the text as well
  fun_induction substituteFrom values offset text with
  | case1 => intro _; rw [substituteFrom]
  | case2 offset c s hp => intro _; rw [substituteFrom_of_readPiece_eq_none offset hp]
  | case3 offset c s p rest hp e hm =>
    intro h
    rw [namesIn_of_readPiece hp] at h
    have hp' := Piece.meaning_congr (p := p) (fun n hn => h n (by simp [hn])) offset
    rw [substituteFrom_of_readPiece offset hp, ← hp', hm]
  | case4 offset c s p rest hp meaning hm ih =>
    intro h
    rw [namesIn_of_readPiece hp] at h
    have hp' := Piece.meaning_congr (p := p) (fun n hn => h n (by simp [hn])) offset
    rw [substituteFrom_of_readPiece offset hp, ← hp', hm,
      ih fun n hn => h n (List.mem_append_right _ hn)]

end ApiStencil.Placeholder
