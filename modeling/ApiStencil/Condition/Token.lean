/-
ApiStencil/Condition/Token.lean

The tokens of a condition.  Words and numbers are read as far as they go, a
quoted text ends at the next quote of its own kind, and blanks only separate.
A character that starts no token ends the list with `Token.invalid`, which no
expression contains, so that reading stops in front of it.
-/
import ApiStencil.Text.Blank
import ApiStencil.Text.Measure
import ApiStencil.Text.Numeral

namespace ApiStencil.Condition

open Text

/-- What a condition is written with. -/
inductive Token where
  | word (s : List Char)
  | integer (n : Int)
  | quoted (s : List Char)
  | equal
  | notEqual
  | bang
  | bars
  | ampersands
  | openParen
  | closeParen
  | openBracket
  | closeBracket
  | comma
  | invalid
deriving DecidableEq, Repr

/-- A token and the byte at which it starts. -/
structure Lexeme where
  token : Token
  start : Nat
deriving DecidableEq, Repr

namespace Token

/-- The letters, and the underscore, with which a word starts. -/
def startsWord (c : Char) : Bool :=
  c.isAlpha || c = '_'

/-- The text up to the next `quote`, and what follows that quote. -/
def readQuoted (quote : Char) (s : List Char) : Option (Token × List Char) :=
  match s.dropWhile (· ≠ quote) with
  | [] => none
  | _ :: rest => some (.quoted (s.takeWhile (· ≠ quote)), rest)

/-- The number written by the digits in front of `s`, with the given sign. -/
def readNumber (sign s : List Char) : Option (Token × List Char) :=
  (readInt? 10 (sign ++ s.takeWhile Char.isDigit)).map fun n =>
    (.integer n, s.dropWhile Char.isDigit)

/-- The word that starts with `c`. -/
def readWord (c : Char) (s : List Char) : Token × List Char :=
  (.word (c :: s.takeWhile isWordChar), s.dropWhile isWordChar)

/-- The token that starts with the character `c`, if there is one, and what follows it. -/
def read (c : Char) (s : List Char) : Option (Token × List Char) :=
  match c with
  | '(' => some (.openParen, s)
  | ')' => some (.closeParen, s)
  | '[' => some (.openBracket, s)
  | ']' => some (.closeBracket, s)
  | ',' => some (.comma, s)
  | '\'' => readQuoted '\'' s
  | '"' => readQuoted '"' s
  | '-' => readNumber ['-'] s
  | '=' => match s with
    | '=' :: r => some (.equal, r)
    | _ => none
  | '!' => match s with
    | '=' :: r => some (.notEqual, r)
    | _ => some (.bang, s)
  | '|' => match s with
    | '|' :: r => some (.bars, r)
    | _ => none
  | '&' => match s with
    | '&' :: r => some (.ampersands, r)
    | _ => none
  | _ =>
    if c.isDigit then readNumber [] (c :: s)
    else if startsWord c then some (readWord c s)
    else none

/-! ### A token is not empty -/

theorem length_dropWhile_le {α : Type _} (p : α → Bool) (s : List α) :
    (s.dropWhile p).length ≤ s.length :=
  (List.dropWhile_sublist p).length_le

theorem length_readQuoted {quote : Char} {s r : List Char} {t : Token}
    (h : readQuoted quote s = some (t, r)) : r.length ≤ s.length := by
  have hd := length_dropWhile_le (fun c => decide (c ≠ quote)) s
  unfold readQuoted at h
  split at h
  · simp at h
  · next c rest he =>
    obtain ⟨-, rfl⟩ : _ ∧ rest = r := by simpa using h
    rw [he, List.length_cons] at hd
    omega

theorem length_readNumber {sign s r : List Char} {t : Token}
    (h : readNumber sign s = some (t, r)) : r = s.dropWhile Char.isDigit := by
  obtain ⟨n, -, he⟩ := Option.map_eq_some_iff.1 h
  simpa using (Prod.mk.inj he).2.symm

theorem length_read {c : Char} {s r : List Char} {t : Token} (h : read c s = some (t, r)) :
    r.length ≤ s.length := by
  unfold read at h
  split at h <;> try (simp only [Option.some.injEq, Prod.mk.injEq] at h; simp [h.2])
  all_goals try exact length_readQuoted h
  · rw [length_readNumber h]
    exact length_dropWhile_le _ _
  all_goals try
    split at h <;> simp only [Option.some.injEq, Prod.mk.injEq, reduceCtorEq] at h
    all_goals simp [← h.2]
  · split at h
    · next hc =>
      rw [length_readNumber h, List.dropWhile_cons, if_pos hc]
      exact length_dropWhile_le _ _
    · split at h
      · obtain ⟨-, rfl⟩ := Prod.mk.inj (Option.some.inj h)
        exact length_dropWhile_le _ _
      · simp at h

end Token

/-- The tokens of `s`, whose first byte is the byte `start` of the whole text. -/
def Lexeme.scan (start : Nat) : List Char → List Lexeme
  | [] => []
  | c :: s =>
    if isLayout c then scan (start + c.utf8Size) s
    else match _h : Token.read c s with
      | none => [⟨.invalid, start⟩]
      | some (t, r) => ⟨t, start⟩ :: scan (start + (byteSize (c :: s) - byteSize r)) r
termination_by s => s.length
decreasing_by
  · simp
  · have := Token.length_read _h
    simp
    omega

end ApiStencil.Condition
