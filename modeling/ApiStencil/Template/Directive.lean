/-
ApiStencil/Template/Directive.lean

The three directives of a template and how each is written:

    @foreach <subject> [where(<condition>)]
    @if(<condition>)
    @end <word>

`Keyword.find` looks for the first place where a directive starts, and
`Directive.read` reads the directive there.  A condition ends at the parenthesis
that closes its first one; parentheses inside quotes do not count
(`readCondition`).
-/
import ApiStencil.Text.Blank
import ApiStencil.Text.Search

namespace ApiStencil.Template

open Text

/-- The words that start a directive. -/
inductive Keyword where
  | foreach
  | cond
  | close
deriving DecidableEq, Repr

namespace Keyword

/-- The keyword without its at sign. -/
def word : Keyword → List Char
  | .foreach => "foreach".toList
  | .cond => "if".toList
  | .close => "end".toList

/-- The keyword as it is written. -/
def spelling (k : Keyword) : String :=
  String.ofList ('@' :: k.word)

/-- What follows the keyword `k` at the start of `s`, where it is a whole word. -/
def after? (k : Keyword) (s : List Char) : Option (List Char) :=
  (k.word.isPrefixOf? s).filter fun rest => !rest.head?.any isWordChar

/-- The keyword at the start of `s`, which is the text after an at sign. -/
def read (s : List Char) : Option (Keyword × List Char) :=
  [Keyword.foreach, .cond, .close].findSome? fun k => (k.after? s).map (k, ·)

/-- The first keyword in a text, with what stands before and after it. -/
def find : List Char → Option (List Char × Keyword × List Char)
  | [] => none
  | c :: r =>
    match if c = '@' then read r else none with
    | some (k, after) => some ([], k, after)
    | none => (find r).map fun (before, k, after) => (c :: before, k, after)

end Keyword

/-- A directive with the texts that it holds. -/
inductive Directive where
  | foreach (subject : String) (filter : Option (List Char))
  | cond (condition : List Char)
  | close (word : String)
deriving DecidableEq, Repr

/-- Where a reader of conditions stands: how many parentheses are open inside the condition, and
which quote is open. -/
structure Nesting where
  depth : Nat
  quote : Option Char
deriving DecidableEq, Repr

/-- The nesting after the character `c`, unless `c` is the parenthesis that ends the condition. -/
def Nesting.step (n : Nesting) (c : Char) : Option Nesting :=
  match n.quote with
  | some q => some { n with quote := if c = q then none else some q }
  | none =>
    if c = '\'' ∨ c = '"' then some { n with quote := some c }
    else if c = '(' then some { n with depth := n.depth + 1 }
    else if c = ')' then
      match n.depth with
      | 0 => none
      | depth + 1 => some { n with depth := depth }
    else some n

/-- Reads up to the parenthesis that ends the condition.  Returns the text in front of it and
the text after it. -/
def readCondition (n : Nesting) : List Char → Option (List Char × List Char)
  | [] => none
  | c :: r =>
    match n.step c with
    | none => some ([], r)
    | some n' => (readCondition n' r).map fun (inside, rest) => (c :: inside, rest)

/-- Reads a condition in parentheses. -/
def readParenthesized : List Char → Option (List Char × List Char)
  | '(' :: r => readCondition ⟨0, none⟩ r
  | _ => none

/-- Space and tab. -/
def isGap (c : Char) : Bool :=
  c = ' ' || c = '\t'

/-- Reads a word after at least one space or tab. -/
def readSpacedWord (s : List Char) : Option (List Char × List Char) :=
  let r := s.dropWhile isGap
  if s.head?.any isGap ∧ r.head?.any isWordChar then
    some (r.takeWhile isWordChar, r.dropWhile isWordChar)
  else none

/-- Reads the condition that filters a loop. -/
def readFilter (s : List Char) : Option (List Char × List Char) :=
  match "where".toList.isPrefixOf? (s.dropWhile isGap) with
  | some r => readParenthesized (r.dropWhile isGap)
  | none => none

namespace Directive

/-- Reads a directive after its keyword.  A loop whose filter cannot be read has none, and the
text of the filter is left. -/
def read (k : Keyword) (s : List Char) : Option (Directive × List Char) :=
  match k with
  | .foreach =>
    (readSpacedWord s).map fun (subject, r) =>
      match readFilter r with
      | some (filter, rest) => (.foreach (String.ofList subject) (some filter), rest)
      | none => (.foreach (String.ofList subject) none, r)
  | .cond => (readParenthesized (s.dropWhile isGap)).map fun (c, rest) => (.cond c, rest)
  | .close => (readSpacedWord s).map fun (w, rest) => (.close (String.ofList w), rest)

end Directive

/-! ### Reading takes a prefix -/

theorem Keyword.after?_eq_some {k : Keyword} {s rest : List Char} (h : k.after? s = some rest) :
    s = k.word ++ rest := by
  rw [Keyword.after?, Option.filter_eq_some_iff] at h
  exact eq_append_of_isPrefixOf? h.1

theorem Keyword.read_eq_some {s rest : List Char} {k : Keyword}
    (h : Keyword.read s = some (k, rest)) : s = k.word ++ rest := by
  obtain ⟨k', -, hk⟩ := List.exists_of_findSome?_eq_some h
  obtain ⟨r, hr, he⟩ := Option.map_eq_some_iff.1 hk
  obtain ⟨rfl, rfl⟩ := Prod.mk.inj he
  exact Keyword.after?_eq_some hr

theorem Keyword.find_eq_some {s before after : List Char} {k : Keyword}
    (h : Keyword.find s = some (before, k, after)) :
    s = before ++ '@' :: k.word ++ after := by
  induction s generalizing before with
  | nil => simp [Keyword.find] at h
  | cons c r ih =>
    rw [Keyword.find] at h
    split at h
    · next k' after' hk =>
      obtain ⟨rfl, rfl, rfl⟩ : [] = before ∧ k' = k ∧ after' = after := by simpa using h
      split at hk
      · next hc => simp [hc, Keyword.read_eq_some hk]
      · simp at hk
    · obtain ⟨⟨b, k', a⟩, hf, he⟩ := Option.map_eq_some_iff.1 h
      obtain ⟨rfl, rfl, rfl⟩ : c :: b = before ∧ k' = k ∧ a = after := by simpa using he
      simp [ih hf]

theorem Nesting.step_eq_none {n : Nesting} {c : Char} (h : n.step c = none) : c = ')' := by
  unfold Nesting.step at h
  split at h
  · simp at h
  · split at h
    · simp at h
    · split at h
      · simp at h
      · split at h
        · assumption
        · simp at h

theorem readCondition_eq_some {n : Nesting} {s inside rest : List Char}
    (h : readCondition n s = some (inside, rest)) : s = inside ++ ')' :: rest := by
  induction s generalizing n inside with
  | nil => simp [readCondition] at h
  | cons c r ih =>
    rw [readCondition] at h
    split at h
    · next hc =>
      obtain ⟨rfl, rfl⟩ := Prod.mk.inj (Option.some.inj h)
      rw [Nesting.step_eq_none hc]
      rfl
    · obtain ⟨⟨i, a⟩, hr, he⟩ := Option.map_eq_some_iff.1 h
      obtain ⟨rfl, rfl⟩ := Prod.mk.inj he
      simp [ih hr]

theorem readParenthesized_eq_some {s inside rest : List Char}
    (h : readParenthesized s = some (inside, rest)) : s = '(' :: inside ++ ')' :: rest := by
  unfold readParenthesized at h
  split at h
  · simp [readCondition_eq_some h]
  · simp at h

theorem dropWhile_suffix (p : Char → Bool) (s : List Char) : ∃ a, s = a ++ s.dropWhile p :=
  ⟨s.takeWhile p, (List.takeWhile_append_dropWhile).symm⟩

theorem readSpacedWord_eq_some {s w rest : List Char} (h : readSpacedWord s = some (w, rest)) :
    s = s.takeWhile isGap ++ w ++ rest := by
  unfold readSpacedWord at h
  dsimp only at h
  split at h
  · obtain ⟨rfl, rfl⟩ := Prod.mk.inj (Option.some.inj h)
    rw [List.append_assoc, List.takeWhile_append_dropWhile, List.takeWhile_append_dropWhile]
  · simp at h

theorem readFilter_suffix {s c rest : List Char} (h : readFilter s = some (c, rest)) :
    ∃ a, s = a ++ rest := by
  unfold readFilter at h
  split at h
  · next r hr =>
    obtain ⟨a, ha⟩ := dropWhile_suffix isGap s
    obtain ⟨b, hb⟩ := dropWhile_suffix isGap r
    rw [ha, eq_append_of_isPrefixOf? hr, hb, readParenthesized_eq_some h]
    exact ⟨a ++ ("where".toList ++ (b ++ ('(' :: c ++ [')']))), by simp⟩
  · simp at h

/-- What follows a directive is the end of the text that it was read from. -/
theorem Directive.read_suffix {k : Keyword} {s rest : List Char} {d : Directive}
    (h : Directive.read k s = some (d, rest)) : ∃ a, s = a ++ rest := by
  cases k with
  | foreach =>
    obtain ⟨⟨w, r⟩, hw, he⟩ := Option.map_eq_some_iff.1 h
    have hs := readSpacedWord_eq_some hw
    dsimp only at he
    split at he
    · next c rest' hf =>
      obtain ⟨-, rfl⟩ := Prod.mk.inj he
      obtain ⟨a, ha⟩ := readFilter_suffix hf
      subst ha
      exact ⟨s.takeWhile isGap ++ w ++ a, by rw [List.append_assoc]; exact hs⟩
    · obtain ⟨-, rfl⟩ := Prod.mk.inj he
      exact ⟨_, hs⟩
  | cond =>
    obtain ⟨⟨c, r⟩, hc, he⟩ := Option.map_eq_some_iff.1 h
    obtain ⟨-, rfl⟩ := Prod.mk.inj he
    obtain ⟨a, ha⟩ := dropWhile_suffix isGap s
    rw [readParenthesized_eq_some hc] at ha
    exact ⟨a ++ ('(' :: c ++ [')']), by rw [ha]; simp⟩
  | close =>
    obtain ⟨⟨w, r⟩, hw, he⟩ := Option.map_eq_some_iff.1 h
    obtain ⟨-, rfl⟩ := Prod.mk.inj he
    exact ⟨_, readSpacedWord_eq_some hw⟩

end ApiStencil.Template
