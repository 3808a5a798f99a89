/-
ApiStencil/Proofs/Placeholder/Exact.lean

What substitution makes of a text, without reference to how it reads.

Main statement: a text can be replaced exactly when it is a sequence of pieces that
have values, and then it is replaced by what the pieces stand for; the error of any
other text names the first byte at which there is no piece with a value
(`substitute_exact`).

Every text starts with pieces that have values and goes on with nothing or with a
fault (`cuts_or_faults`).  Either of the two decides the result, so that no other
text can lead to it.
-/
import ApiStencil.Proofs.Placeholder.Pieces
import Mathlib.Data.Set.Subsingleton

namespace ApiStencil.Placeholder

open Text

variable {values : Values} {text rest out : List Char} {pieces : List Piece}
  {cause : Nat → Error} {e : Error}

/-! ### Cuts and faults -/

/-- The text is this sequence of pieces, and every name in it has a value. -/
structure Cuts (values : Values) (text : List Char) (pieces : List Piece) : Prop where
  source : pieces.flatMap Piece.source = text
  read : ∀ p ∈ pieces, p.WellFormed ∧ p.HasValue values

/-- The text starts with a brace at which there is no piece with a value; with the error that this
is at a byte. -/
inductive Fault (values : Values) : List Char → (Nat → Error) → Prop
  | close {s : List Char} (h : s.head? ≠ some '}') : Fault values ('}' :: s) .unmatchedClose
  | opening {s : List Char} (h : s.head? ≠ some '{')
      (hn : ∀ n r, (Piece.name n).WellFormed → '{' :: s ≠ (Piece.name n).source ++ r) :
      Fault values ('{' :: s) .unmatchedOpen
  | unknown {n : List Char} (hn : (Piece.name n).WellFormed)
      (hv : values.get? (String.ofList n) = none) (s : List Char) :
      Fault values ((Piece.name n).source ++ s) (.unknown n)

/-- The text consists of pieces with values up to a fault, and this is its error. -/
def Faults (values : Values) (text : List Char) (e : Error) : Prop :=
  ∃ front rest pieces cause, text = front ++ rest ∧ Cuts values front pieces ∧
    Fault values rest cause ∧ e = cause (byteSize front)

/-- The text with every brace written twice. -/
def doubled (text : List Char) : List Char :=
  text.flatMap fun c => if c = '{' ∨ c = '}' then [c, c] else [c]

/-! ### Reading at a fault -/

/-- A closing brace that is not doubled is no piece. -/
theorem readPiece_close {s : List Char} (h : s.head? ≠ some '}') : readPiece '}' s = none := by
  unfold readPiece
  rw [if_neg (by decide), if_pos rfl]
  split
  · exact absurd rfl h
  · rfl

/-- An opening brace that is neither doubled nor that of a name is no piece. -/
theorem readPiece_opening {s : List Char} (h : s.head? ≠ some '{')
    (hn : ∀ n r, (Piece.name n).WellFormed → '{' :: s ≠ (Piece.name n).source ++ r) :
    readPiece '{' s = none := by
  cases hread : readPiece '{' s with
  | none => rfl
  -- each kind of piece that could be read is excluded by one of the hypotheses
  | some result =>
    obtain ⟨p, rest⟩ := result
    have hsource := readPiece_eq_some hread
    have hp := wellFormed_of_readPiece hread
    cases p with
    | char c => exact absurd (List.cons.inj hsource).1.symm hp.1
    | openBrace =>
      obtain rfl := (List.cons.inj hsource).2
      exact absurd rfl h
    | closeBrace => exact absurd (List.cons.inj hsource).1 (by decide)
    | name n => exact absurd hsource (hn n rest hp)

/-- Where no piece can be read there is a fault. -/
theorem fault_of_readPiece_eq_none {c : Char} {s : List Char} (values : Values)
    (h : readPiece c s = none) : ∃ cause, Fault values (c :: s) cause := by
  -- a piece that stood here would have been read
  have hnone : ∀ (p : Piece) (r : List Char), p.WellFormed → c :: s ≠ p.source ++ r := by
    intro p r hp hs
    rw [readPiece_source hp hs.symm] at h
    cases h
  by_cases hopen : c = '{'
  · subst hopen
    refine ⟨_, .opening (fun hs => ?_) fun n r hn => hnone (.name n) r hn⟩
    obtain ⟨r, rfl⟩ := List.head?_eq_some_iff.1 hs
    exact hnone .openBrace r trivial rfl
  · by_cases hclose : c = '}'
    · subst hclose
      refine ⟨_, .close fun hs => ?_⟩
      obtain ⟨r, rfl⟩ := List.head?_eq_some_iff.1 hs
      exact hnone .closeBrace r trivial rfl
    · exact absurd rfl (hnone (.char c) s ⟨hopen, hclose⟩)

/-- Substitution fails at a fault, with the error of the fault at this byte. -/
theorem substituteFrom_of_fault (h : Fault values rest cause) (offset : Nat) :
    substituteFrom values offset rest = .error (cause offset) := by
  cases h with
  | close h =>
    rw [substituteFrom_of_readPiece_eq_none offset (readPiece_close h)]
    rfl
  | opening h hn =>
    rw [substituteFrom_of_readPiece_eq_none offset (readPiece_opening h hn)]
    rfl
  -- the name is read, and it is its meaning that fails
  | @unknown n hn hv s =>
    have hread : readPiece '{' (n ++ ['}'] ++ s) = some (.name n, s) :=
      readPiece_source hn rfl
    have hmeaning : (Piece.name n).meaning values offset = .error (.unknown n offset) := by
      simp only [Piece.meaning, hv]
    change substituteFrom values offset ('{' :: (n ++ ['}'] ++ s)) = _
    rw [substituteFrom_of_readPiece offset hread, hmeaning]

/-! ### What decides the result -/

theorem Cuts.nil (values : Values) : Cuts values [] [] := ⟨rfl, nofun⟩

theorem Cuts.cons {p : Piece} (hw : p.WellFormed) (hv : p.HasValue values)
    (h : Cuts values rest pieces) : Cuts values (p.source ++ rest) (p :: pieces) := by
  refine ⟨?_, List.forall_mem_cons.2 ⟨⟨hw, hv⟩, h.read⟩⟩
  rw [List.flatMap_cons, h.source]

theorem Cuts.pieces?_eq (h : Cuts values text pieces) : pieces? text = some pieces :=
  pieces?_eq_some_iff.2 ⟨h.source, fun p hp => (h.read p hp).1⟩

theorem Cuts.substitute (h : Cuts values text pieces) :
    substitute values text = .ok (pieces.flatMap (Piece.text values)) := by
  rw [← h.source]
  exact substitute_flatMap_source h.read

/-- A name in braces that has no value is a fault. -/
theorem hasValue_or_fault {p : Piece} (values : Values) (hw : p.WellFormed) (s : List Char) :
    p.HasValue values ∨ ∃ cause, Fault values (p.source ++ s) cause := by
  cases p with
  | name n =>
    cases hv : values.get? (String.ofList n) with
    | none => exact .inr ⟨_, .unknown hw hv s⟩
    | some v =>
      refine .inl fun n' hn => ?_
      obtain rfl := Option.some.inj hn
      rw [hv]
      rfl
  | _ => exact .inl nofun

theorem Faults.of_fault (h : Fault values text cause) : Faults values text (cause 0) :=
  ⟨[], text, [], cause, rfl, .nil values, h, rfl⟩

/-- A piece with a value in front moves the fault, and so its error. -/
theorem Faults.cons {p : Piece} (hw : p.WellFormed) (hv : p.HasValue values)
    (h : Faults values rest e) : ∃ e', Faults values (p.source ++ rest) e' := by
  obtain ⟨front, tail, pieces, cause, rfl, hcut, hfault, -⟩ := h
  exact ⟨_, p.source ++ front, tail, p :: pieces, cause, (List.append_assoc _ _ _).symm,
    hcut.cons hw hv, hfault, rfl⟩

theorem Faults.substitute (h : Faults values text e) : substitute values text = .error e := by
  obtain ⟨front, rest, pieces, cause, rfl, hcut, hfault, rfl⟩ := h
  rw [Placeholder.substitute, substituteFrom_append 0 front rest _ hcut.substitute, Nat.zero_add,
    substituteFrom_of_fault hfault]
  rfl

/-- A text is a sequence of pieces with values, or has a fault behind such pieces. -/
theorem cuts_or_faults (values : Values) (text : List Char) :
    (∃ pieces, Cuts values text pieces) ∨ ∃ e, Faults values text e := by
  -- on the text, one piece after the other
  fun_induction pieces? text with
  | case1 => exact .inl ⟨[], .nil values⟩
  | case2 c s h =>
    obtain ⟨cause, hfault⟩ := fault_of_readPiece_eq_none values h
    exact .inr ⟨_, .of_fault hfault⟩
  | case3 c s p rest h ih =>
    have hw := wellFormed_of_readPiece h
    rw [readPiece_eq_some h]
    rcases hasValue_or_fault values hw rest with hv | ⟨cause, hfault⟩
    · rcases ih with ⟨pieces, hcut⟩ | ⟨e, hfaults⟩
      · exact .inl ⟨_, hcut.cons hw hv⟩
      · exact .inr (hfaults.cons hw hv)
    · exact .inr ⟨_, .of_fault hfault⟩

/-- A text can be replaced exactly if it is a sequence of pieces with values. -/
theorem substitute_eq_ok_iff : substitute values text = .ok out ↔
    ∃ pieces, Cuts values text pieces ∧ pieces.flatMap (Piece.text values) = out := by
  constructor
  · intro h
    rcases cuts_or_faults values text with ⟨pieces, hcut⟩ | ⟨e, hfaults⟩
    · exact ⟨pieces, hcut, Except.ok.inj (hcut.substitute.symm.trans h)⟩
    · cases hfaults.substitute.symm.trans h
  · rintro ⟨pieces, hcut, rfl⟩
    exact hcut.substitute

/-- A text cannot be replaced exactly if it has a fault. -/
theorem substitute_eq_error_iff : substitute values text = .error e ↔ Faults values text e := by
  refine ⟨fun h => ?_, Faults.substitute⟩
  rcases cuts_or_faults values text with ⟨pieces, hcut⟩ | ⟨e', hfaults⟩
  · cases hcut.substitute.symm.trans h
  · obtain rfl := Except.error.inj (hfaults.substitute.symm.trans h)
    exact hfaults

/-- An error stands at a brace. -/
theorem Faults.exists_brace (h : Faults values text e) :
    ∃ front c rest, text = front ++ c :: rest ∧ (c = '{' ∨ c = '}') ∧
      e.offset = byteSize front := by
  obtain ⟨front, rest, pieces, cause, rfl, -, hfault, rfl⟩ := h
  cases hfault with
  | @close s => exact ⟨front, '}', s, rfl, .inr rfl, rfl⟩
  | @opening s => exact ⟨front, '{', s, rfl, .inl rfl, rfl⟩
  | @unknown n _ _ s => exact ⟨front, '{', n ++ ['}'] ++ s, rfl, .inl rfl, rfl⟩

/-! ### Doubled braces -/

/-- The piece that stands for a character. -/
def Piece.ofChar (c : Char) : Piece :=
  if c = '{' then .openBrace else if c = '}' then .closeBrace else .char c

/-- With every brace doubled, a text is a sequence of pieces, one for each character. -/
theorem cuts_doubled (values : Values) (text : List Char) :
    Cuts values (doubled text) (text.map Piece.ofChar) := by
  induction text with
  | nil => exact .nil values
  | cons c text ih =>
    rw [doubled, List.flatMap_cons, List.map_cons]
    by_cases hopen : c = '{'
    · subst hopen
      exact Cuts.cons (p := .openBrace) trivial nofun ih
    · by_cases hclose : c = '}'
      · subst hclose
        exact Cuts.cons (p := .closeBrace) trivial nofun ih
      · rw [if_neg (not_or.2 ⟨hopen, hclose⟩), Piece.ofChar, if_neg hopen, if_neg hclose]
        exact Cuts.cons (p := .char c) ⟨hopen, hclose⟩ nofun ih

/-- The piece for a character stands for the character. -/
theorem Piece.text_ofChar (values : Values) (c : Char) : (ofChar c).text values = [c] := by
  unfold ofChar
  split
  · next h => exact h ▸ rfl
  · split
    · next h => exact h ▸ rfl
    · rfl

theorem substitute_doubled (values : Values) (text : List Char) :
    substitute values (doubled text) = .ok text := by
  rw [(cuts_doubled values text).substitute, List.flatMap_map]
  simp only [Piece.text_ofChar, List.flatMap_singleton']

/-! ### The whole law -/

/-- Substitution succeeds exactly on the sequences of pieces with values, of which a text is at most
one; the result is what the pieces stand for, values as they are.  On every other text it gives the
error of the first fault.  Braces that are written twice come back as they were. -/
theorem substitute_exact (values : Values) (text : List Char) :
    (∀ out, substitute values text = .ok out ↔
      ∃ pieces, Cuts values text pieces ∧ pieces.flatMap (Piece.text values) = out) ∧
    {pieces | Cuts values text pieces}.Subsingleton ∧
    (∀ e, substitute values text = .error e ↔ Faults values text e) ∧
    substitute values (doubled text) = .ok text := by
  refine ⟨fun out => substitute_eq_ok_iff, ?_, fun e => substitute_eq_error_iff,
    substitute_doubled values text⟩
  intro pieces h pieces' h'
  exact Option.some.inj (h.pieces?_eq.symm.trans h'.pieces?_eq)

end ApiStencil.Placeholder
