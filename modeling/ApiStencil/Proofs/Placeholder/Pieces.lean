/-
ApiStencil/Proofs/Placeholder/Pieces.lean

Texts as sequences of pieces.  A piece is well-formed if it reads back as itself
whatever follows it, so a text is cut into well-formed pieces in at most one way,
and `pieces?` finds it (`pieces?_eq_some_iff`).

Where every name has a value, substitution replaces the pieces one by one and does
not fail (`substitute_flatMap_source`).
-/
import ApiStencil.Proofs.Placeholder.Substitute

namespace ApiStencil.Placeholder

open Text

/-! ### Pieces that read back -/

/-- A plain character is no brace, and a name is a word that is not empty. -/
def Piece.WellFormed : Piece → Prop
  | .char c => c ≠ '{' ∧ c ≠ '}'
  | .openBrace => True
  | .closeBrace => True
  | .name s => s ≠ [] ∧ ∀ c ∈ s, isWordChar c = true

/-- A name is read up to its closing brace. -/
theorem readName_source {n : List Char} (hn : (Piece.name n).WellFormed) (rest : List Char) :
    readName (n ++ '}' :: rest) = some (.name n, rest) := by
  obtain ⟨hne, hw⟩ := hn
  have hb : ¬ isWordChar '}' = true := by decide
  have ht : (n ++ '}' :: rest).takeWhile isWordChar = n := by
    rw [List.takeWhile_append_of_pos hw, List.takeWhile_cons_of_neg hb, List.append_nil]
  have hd : (n ++ '}' :: rest).dropWhile isWordChar = '}' :: rest := by
    rw [List.dropWhile_append_of_pos hw, List.dropWhile_cons_of_neg hb]
  cases n with
  | nil => exact absurd rfl hne
  | cons c n => simp only [readName, ht, hd]

/-- A well-formed piece is read back from its source. -/
theorem readPiece_source {p : Piece} (hp : p.WellFormed) {rest s : List Char} {c : Char}
    (h : p.source ++ rest = c :: s) : readPiece c s = some (p, rest) := by
  cases p with
  | char x =>
    obtain ⟨rfl, rfl⟩ := List.cons.inj h
    unfold readPiece
    rw [if_neg hp.1, if_neg hp.2]
    rfl
  | openBrace =>
    obtain ⟨rfl, rfl⟩ := List.cons.inj h
    rfl
  | closeBrace =>
    obtain ⟨rfl, rfl⟩ := List.cons.inj h
    rfl
  | name n =>
    obtain ⟨rfl, hs⟩ := List.cons.inj h
    have hs : s = n ++ '}' :: rest := hs.symm.trans (List.append_assoc n ['}'] rest)
    have hread := readName_source hp rest
    rw [← hs] at hread
    unfold readPiece
    rw [if_pos rfl]
    split
    · next r he =>
      -- a word does not start with a brace
      obtain ⟨x, n, rfl⟩ := List.exists_cons_of_ne_nil hp.1
      obtain rfl : '{' = x := (List.cons.inj hs).1
      have := hp.2 '{' List.mem_cons_self
      exact absurd this (by decide)
    · exact hread

/-- A piece that is read is well-formed. -/
theorem wellFormed_of_readPiece {c : Char} {s rest : List Char} {p : Piece}
    (h : readPiece c s = some (p, rest)) : p.WellFormed := by
  unfold readPiece at h
  split at h
  -- a brace in front: it is doubled, or a name follows it up to the next brace
  · split at h
    · obtain ⟨rfl, -⟩ := Prod.mk.inj (Option.some.inj h)
      trivial
    · unfold readName at h
      split at h
      · next x n rest' ht hd =>
        obtain ⟨rfl, -⟩ := Prod.mk.inj (Option.some.inj h)
        exact ⟨List.cons_ne_nil x n, fun a ha => List.mem_takeWhile_imp (ht ▸ ha)⟩
      · cases h
  · next hc =>
    split at h
    · split at h
      · obtain ⟨rfl, -⟩ := Prod.mk.inj (Option.some.inj h)
        trivial
      · cases h
    · next hc' =>
      obtain ⟨rfl, -⟩ := Prod.mk.inj (Option.some.inj h)
      exact ⟨hc, hc'⟩

/-! ### Cutting a text into pieces -/

/-- The pieces of a text, if all its braces can be read. -/
def pieces? : List Char → Option (List Piece)
  | [] => some []
  | c :: s =>
    match _h : readPiece c s with
    | none => none
    | some (p, rest) => (pieces? rest).map (p :: ·)
termination_by s => s.length
decreasing_by
  have h1 := congrArg List.length (readPiece_eq_some _h)
  have h2 := p.length_source_pos
  rw [List.length_append] at h1
  omega

/-- A piece in front of a text is the first of its pieces. -/
theorem pieces?_source_append {p : Piece} (hp : p.WellFormed) (rest : List Char) :
    pieces? (p.source ++ rest) = (pieces? rest).map (p :: ·) := by
  obtain ⟨c, s, hs⟩ := List.exists_cons_of_length_pos (l := p.source ++ rest)
    (by rw [List.length_append]; have := p.length_source_pos; omega)
  have hread := readPiece_source hp hs
  rw [hs, pieces?]
  split
  · next h => rw [hread] at h; cases h
  · next h =>
    rw [hread] at h
    cases h
    rfl

/-- The pieces of a text are the only well-formed ones that write it. -/
theorem pieces?_eq_some_iff {text : List Char} {pieces : List Piece} :
    pieces? text = some pieces ↔
      pieces.flatMap Piece.source = text ∧ ∀ p ∈ pieces, p.WellFormed := by
  constructor
  -- what is read writes the text and is well-formed, piece by piece
  · intro h
    fun_induction pieces? text generalizing pieces with
    | case1 =>
      obtain rfl := Option.some.inj h
      exact ⟨rfl, nofun⟩
    | case2 => cases h
    | case3 c s p rest hp ih =>
      obtain ⟨l, hl, rfl⟩ := Option.map_eq_some_iff.1 h
      obtain ⟨hs, hw⟩ := ih hl
      refine ⟨?_, ?_⟩
      · rw [List.flatMap_cons, hs, readPiece_eq_some hp]
      · intro q hq
        rcases List.mem_cons.1 hq with rfl | hq
        · exact wellFormed_of_readPiece hp
        · exact hw q hq
  -- well-formed pieces are read back from what they write
  · rintro ⟨rfl, hw⟩
    induction pieces with
    | nil => rw [List.flatMap_nil, pieces?]
    | cons p r ih =>
      rw [List.flatMap_cons, pieces?_source_append (hw p List.mem_cons_self),
        ih fun q hq => hw q (List.mem_cons_of_mem p hq)]
      rfl

/-! ### Substitution piece by piece -/

variable {values : Values}

/-- What a piece is replaced by.  A name without a value has no text. -/
def Piece.text (values : Values) : Piece → List Char
  | .char c => [c]
  | .openBrace => ['{']
  | .closeBrace => ['}']
  | .name n => ((values.get? (String.ofList n)).getD "").toList

/-- Whether the values say what a piece stands for. -/
def Piece.HasValue (values : Values) (p : Piece) : Prop :=
  ∀ n, p.name? = some n → (values.get? (String.ofList n)).isSome = true

/-- A piece with a value has a meaning, wherever it stands. -/
theorem Piece.meaning_of_hasValue {p : Piece} (h : p.HasValue values) (offset : Nat) :
    p.meaning values offset = .ok (p.text values) := by
  cases p with
  | name n =>
    obtain ⟨v, hv⟩ := Option.isSome_iff_exists.1 (h n rfl)
    simp only [Piece.meaning, Piece.text, hv]
    rfl
  | _ => rfl

/-- Pieces with values are replaced one by one, from any offset. -/
theorem substituteFrom_flatMap_source {pieces : List Piece}
    (h : ∀ p ∈ pieces, p.WellFormed ∧ p.HasValue values) (offset : Nat) :
    substituteFrom values offset (pieces.flatMap Piece.source) =
      .ok (pieces.flatMap (Piece.text values)) := by
  induction pieces generalizing offset with
  | nil => rw [List.flatMap_nil, substituteFrom]; rfl
  | cons p r ih =>
    obtain ⟨hw, hv⟩ := h p List.mem_cons_self
    obtain ⟨c, s, hs⟩ := List.exists_cons_of_length_pos (l := p.source ++ r.flatMap Piece.source)
      (by rw [List.length_append]; have := p.length_source_pos; omega)
    rw [List.flatMap_cons, hs, substituteFrom_of_readPiece offset (readPiece_source hw hs),
      Piece.meaning_of_hasValue hv]
    dsimp only
    rw [ih fun q hq => h q (List.mem_cons_of_mem p hq)]
    rfl

/-- Where every name has a value, substitution succeeds and replaces every piece by its text. -/
theorem substitute_flatMap_source {pieces : List Piece}
    (h : ∀ p ∈ pieces, p.WellFormed ∧ p.HasValue values) :
    substitute values (pieces.flatMap Piece.source) = .ok (pieces.flatMap (Piece.text values)) :=
  substituteFrom_flatMap_source h 0

end ApiStencil.Placeholder
