/-
ApiStencil/Placeholder/Substitute.lean

Replacing placeholders by their values.  A text falls into pieces: plain
characters, braces written twice, which stand for themselves, and names in
braces.  Values are inserted as they are and not read again.

Errors carry the byte offset of the brace at which reading stopped.  Offsets are
relative: `substituteFrom` at a later start gives the same result with the offset
moved by as much (`substituteFrom_add`).
-/
import ApiStencil.Placeholder.Values
import ApiStencil.Text.Blank
import ApiStencil.Text.Measure

namespace ApiStencil.Placeholder

open Text

/-- Why the braces of a text cannot be replaced. -/
inductive Error where
  /-- No value has this name. -/
  | unknown (name : List Char) (offset : Nat)
  /-- An opening brace that neither starts a placeholder nor is written twice. -/
  | unmatchedOpen (offset : Nat)
  /-- A closing brace that neither ends a placeholder nor is written twice. -/
  | unmatchedClose (offset : Nat)
deriving DecidableEq, Repr

/-- The byte of the offending brace. -/
def Error.offset : Error → Nat
  | .unknown _ offset => offset
  | .unmatchedOpen offset => offset
  | .unmatchedClose offset => offset

def Error.message : Error → String
  | .unknown name offset =>
    "unknown placeholder `\x7b" ++ String.ofList name ++ "\x7d` at offset " ++ toString offset
  | .unmatchedOpen offset => "unmatched `\x7b` at offset " ++ toString offset
  | .unmatchedClose offset => "unmatched `\x7d` at offset " ++ toString offset

/-- The same error in a text with `n` more bytes in front. -/
def Error.shift (n : Nat) : Error → Error
  | .unknown name offset => .unknown name (n + offset)
  | .unmatchedOpen offset => .unmatchedOpen (n + offset)
  | .unmatchedClose offset => .unmatchedClose (n + offset)

/-! ### Pieces -/

/-- What a text consists of. -/
inductive Piece where
  | char (c : Char)
  | openBrace
  | closeBrace
  | name (s : List Char)
deriving DecidableEq, Repr

/-- How a piece is written. -/
def Piece.source : Piece → List Char
  | .char c => [c]
  | .openBrace => ['{', '{']
  | .closeBrace => ['}', '}']
  | .name s => '{' :: s ++ ['}']

/-- What the piece at the byte `offset` stands for. -/
def Piece.meaning (values : Values) (offset : Nat) : Piece → Except Error (List Char)
  | .char c => .ok [c]
  | .openBrace => .ok ['{']
  | .closeBrace => .ok ['}']
  | .name s =>
    match values.get? (String.ofList s) with
    | some value => .ok value.toList
    | none => .error (.unknown s offset)

/-- Reads a name in braces, after the opening one. -/
def readName (s : List Char) : Option (Piece × List Char) :=
  match s.takeWhile isWordChar, s.dropWhile isWordChar with
  | c :: name, '}' :: rest => some (.name (c :: name), rest)
  | _, _ => none

/-- Reads the piece that starts with `c`; every piece but a lone brace can be read. -/
def readPiece (c : Char) (s : List Char) : Option (Piece × List Char) :=
  if c = '{' then
    match s with
    | '{' :: rest => some (.openBrace, rest)
    | _ => readName s
  else if c = '}' then
    match s with
    | '}' :: rest => some (.closeBrace, rest)
    | _ => none
  else some (.char c, s)

theorem readName_eq_some {s rest : List Char} {p : Piece} (h : readName s = some (p, rest)) :
    '{' :: s = p.source ++ rest := by
  unfold readName at h
  split at h
  · next c name rest' ht hd =>
    obtain ⟨rfl, rfl⟩ : .name (c :: name) = p ∧ rest' = rest := by simpa using h
    have := List.takeWhile_append_dropWhile (p := isWordChar) (l := s)
    rw [ht, hd] at this
    simp [Piece.source, ← this]
  · simp at h

theorem readPiece_eq_some {c : Char} {s rest : List Char} {p : Piece}
    (h : readPiece c s = some (p, rest)) : c :: s = p.source ++ rest := by
  unfold readPiece at h
  split at h
  · next hc =>
    subst hc
    split at h
    · obtain ⟨rfl, rfl⟩ := Prod.mk.inj (Option.some.inj h)
      rfl
    · exact readName_eq_some h
  · split at h
    · next hc =>
      subst hc
      split at h
      · obtain ⟨rfl, rfl⟩ := Prod.mk.inj (Option.some.inj h)
        rfl
      · simp at h
    · obtain ⟨rfl, rfl⟩ := Prod.mk.inj (Option.some.inj h)
      rfl

theorem Piece.length_source_pos (p : Piece) : 0 < p.source.length := by
  cases p <;> simp [Piece.source]

/-! ### Substitution -/

/-- Replaces the placeholders of a text whose first byte has the given offset. -/
def substituteFrom (values : Values) (offset : Nat) : List Char → Except Error (List Char)
  | [] => .ok []
  | c :: s =>
    match _h : readPiece c s with
    | none => .error (if c = '{' then .unmatchedOpen offset else .unmatchedClose offset)
    | some (p, rest) =>
      match p.meaning values offset with
      | .error e => .error e
      | .ok meaning =>
        (substituteFrom values (offset + byteSize p.source) rest).map (meaning ++ ·)
termination_by s => s.length
decreasing_by
  have h1 := congrArg List.length (readPiece_eq_some _h)
  have h2 := p.length_source_pos
  rw [List.length_append] at h1
  omega

/-- Replaces every placeholder of a text by its value. -/
def substitute (values : Values) (text : List Char) : Except Error (List Char) :=
  substituteFrom values 0 text

theorem mapError_ok {ε ε' α : Type} (f : ε → ε') (a : α) :
    (Except.ok a : Except ε α).mapError f = .ok a := rfl

theorem mapError_error {ε ε' α : Type} (f : ε → ε') (e : ε) :
    (Except.error e : Except ε α).mapError f = .error (f e) := rfl

theorem Piece.meaning_add (values : Values) (n offset : Nat) (p : Piece) :
    p.meaning values (n + offset) = (p.meaning values offset).mapError (Error.shift n) := by
  cases p with
  | name s =>
    cases h : values.get? (String.ofList s) <;>
      simp [meaning, h, mapError_ok, mapError_error, Error.shift]
  | _ => rfl

theorem substituteFrom_add (values : Values) (n offset : Nat) (s : List Char) :
    substituteFrom values (n + offset) s =
      (substituteFrom values offset s).mapError (Error.shift n) := by
  fun_induction substituteFrom values offset s with
  | case1 => simp [substituteFrom, mapError_ok]
  | case2 offset c s h =>
    rw [substituteFrom]
    split
    · split <;> rfl
    · next h' => simp [h] at h'
  | case3 offset c s p rest h e hm =>
    rw [substituteFrom]
    split
    · next h' => simp [h] at h'
    · next p' rest' h' =>
      obtain ⟨rfl, rfl⟩ := Prod.mk.inj (Option.some.inj (h.symm.trans h'))
      simp [Piece.meaning_add, hm, mapError_error]
  | case4 offset c s p rest h meaning hm ih =>
    rw [substituteFrom]
    split
    · next h' => simp [h] at h'
    · next p' rest' h' =>
      obtain ⟨rfl, rfl⟩ := Prod.mk.inj (Option.some.inj (h.symm.trans h'))
      simp only [Piece.meaning_add, hm, mapError_ok]
      rw [Nat.add_assoc, ih]
      cases substituteFrom values (offset + byteSize p.source) rest <;> rfl

end ApiStencil.Placeholder
