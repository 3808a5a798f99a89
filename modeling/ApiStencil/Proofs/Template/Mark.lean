/-
ApiStencil/Proofs/Template/Mark.lean

The marks of a template: the places where a keyword stands outside the text of an
earlier directive, found character by character from the left.  A mark knows its
site, that is its own text with all that stands before and after it, and the
directive that reads there, if one does; it knows nothing of literals, of whole
lines and of nesting.

Marks are found by the same search as keywords (`Mark.allFrom_of_find_eq_some`), and
a directive ends with a parenthesis or a word (`endsBefore_read`), never with a
blank: whether an earlier directive ends on a line can be seen from the line alone.
-/
import ApiStencil.Proofs.Template.Lines

namespace ApiStencil.Template

open Text Segment

/-! ### Sites -/

/-- A part of a text, with what stands before it and after it. -/
structure Site where
  front : List Char
  own : List Char
  rest : List Char
deriving DecidableEq, Repr

/-- The line of the character after `front`. -/
def lineAfter (front : List Char) : Nat :=
  1 + lineBreaks front

namespace Site

/-- The line on which the site starts. -/
def line (s : Site) : Nat :=
  lineAfter s.front

/-- The byte at which the site starts. -/
def start (s : Site) : Nat :=
  byteSize s.front

/-- The byte after the site. -/
def stop (s : Site) : Nat :=
  byteSize s.front + byteSize s.own

/-- Whether the site shares its lines with blanks only. -/
def alone (s : Site) : Bool :=
  (lastLine s.front).all isLineBlank && (firstLine s.rest).all isLineBlank

/-- The lines of the site, with the break at their end. -/
def lines (s : Site) : Site where
  front := throughLastBreak s.front
  own := lastLine s.front ++ s.own ++ inFrontOf (afterFirstBreak s.rest) s.rest
  rest := afterFirstBreak s.rest

/-- What a directive at the site takes. -/
def taken (s : Site) : Site :=
  if s.alone then s.lines else s

/-- The text that the site is a part of. -/
def whole (s : Site) : List Char :=
  s.front ++ s.own ++ s.rest

theorem whole_lines (s : Site) : s.lines.whole = s.whole := by
  simp only [whole, lines, List.append_assoc, inFrontOf_afterFirstBreak]
  rw [← List.append_assoc, throughLastBreak_append_lastLine]

theorem whole_taken (s : Site) : s.taken.whole = s.whole := by
  unfold taken
  split
  · exact s.whole_lines
  · rfl

end Site

/-! ### Marks -/

/-- A keyword in a template, and the directive that reads there.  The site of a keyword that no
directive follows is the keyword. -/
structure Mark where
  site : Site
  keyword : Keyword
  directive? : Option Directive
deriving DecidableEq, Repr

namespace Mark

/-- The keyword at the character `c` in front of `r`. -/
def keyword? (c : Char) (r : List Char) : Option (Keyword × List Char) :=
  if c = '@' then Keyword.read r else none

/-- A keyword at a character is written there. -/
theorem keyword?_eq_some {c : Char} {r after : List Char} {k : Keyword}
    (h : keyword? c r = some (k, after)) : c :: r = '@' :: k.word ++ after := by
  unfold keyword? at h
  split at h
  · next hc => rw [hc, Keyword.read_eq_some h]; rfl
  · cases h

/-- The marks of a text that stands after `front`. -/
def allFrom (front : List Char) : List Char → List Mark
  | [] => []
  | c :: r =>
    match _hk : keyword? c r with
    | none => allFrom (front ++ [c]) r
    | some (k, after) =>
      match _hd : Directive.read k after with
      | none => [⟨⟨front, inFrontOf after (c :: r), after⟩, k, none⟩]
      | some (d, rest) =>
        let own := inFrontOf rest (c :: r)
        ⟨⟨front, own, rest⟩, k, some d⟩ :: allFrom (front ++ own) rest
termination_by s => s.length
decreasing_by
  · exact Nat.lt_succ_self _
  · obtain ⟨a, ha⟩ := Directive.read_suffix _hd
    rw [keyword?_eq_some _hk, ha]
    simp
    omega

/-- The marks of a template. -/
def all (text : List Char) : List Mark :=
  allFrom [] text

end Mark

namespace Mark

theorem keyword?_of_ne {c : Char} (h : c ≠ '@') (r : List Char) : keyword? c r = none :=
  if_neg h

/-- Where no keyword stands, the marks are those from the next character on. -/
theorem allFrom_cons_none {front r : List Char} {c : Char} (h : keyword? c r = none) :
    allFrom front (c :: r) = allFrom (front ++ [c]) r := by
  rw [allFrom]
  split
  · rfl
  · next k after hk => rw [h] at hk; cases hk

/-- A keyword is a mark, and the marks behind it are those behind its directive; if none reads
there, it is the last one. -/
theorem allFrom_cons_some {front r after : List Char} {c : Char} {k : Keyword}
    (h : keyword? c r = some (k, after)) :
    allFrom front (c :: r) =
      match Directive.read k after with
      | none => [⟨⟨front, inFrontOf after (c :: r), after⟩, k, none⟩]
      | some (d, rest) =>
        ⟨⟨front, inFrontOf rest (c :: r), rest⟩, k, some d⟩ ::
          allFrom (front ++ inFrontOf rest (c :: r)) rest := by
  rw [allFrom]
  split
  · next hk => rw [h] at hk; cases hk
  · next k' after' hk =>
    obtain ⟨rfl, rfl⟩ := Prod.mk.inj (Option.some.inj (h.symm.trans hk))
    split
    · next hd => rw [hd]
    · next d rest hd => rw [hd]

/-- A text without an at sign holds no mark. -/
theorem allFrom_append_of_not_mem {b : List Char} (h : '@' ∉ b) (front s : List Char) :
    allFrom front (b ++ s) = allFrom (front ++ b) s := by
  induction b generalizing front with
  | nil => simp
  | cons c b ih =>
    obtain ⟨hc, hb⟩ := not_or.1 (List.mem_cons.not.1 h)
    rw [List.cons_append, allFrom_cons_none (keyword?_of_ne (Ne.symm hc) _), ih hb]
    simp

/-! ### Marks and the search for keywords -/

theorem find_cons (c : Char) (r : List Char) :
    Keyword.find (c :: r) =
      match keyword? c r with
      | some (k, after) => some ([], k, after)
      | none => (Keyword.find r).map fun (before, k, after) => (c :: before, k, after) := rfl

/-- Without keywords there are no marks. -/
theorem allFrom_of_find_eq_none {s : List Char} (h : Keyword.find s = none) (front : List Char) :
    allFrom front s = [] := by
  induction s generalizing front with
  | nil => rw [allFrom]
  | cons c r ih =>
    rw [find_cons] at h
    split at h
    · cases h
    · next hk => rw [allFrom_cons_none hk, ih (Option.map_eq_none_iff.1 h)]

/-- The first mark is at the keyword that the search finds. -/
theorem allFrom_of_find_eq_some {s before after : List Char} {k : Keyword}
    (h : Keyword.find s = some (before, k, after)) (front : List Char) :
    allFrom front s =
      match Directive.read k after with
      | none => [⟨⟨front ++ before, '@' :: k.word, after⟩, k, none⟩]
      | some (d, rest) =>
        ⟨⟨front ++ before, inFrontOf rest ('@' :: k.word ++ after), rest⟩, k, some d⟩ ::
          allFrom (front ++ before ++ inFrontOf rest ('@' :: k.word ++ after)) rest := by
  -- by induction on the text in front of the keyword, which moves over to `front`
  induction s generalizing front before with
  | nil => cases h
  | cons c r ih =>
    rw [find_cons] at h
    split at h
    · next k' after' hk =>
      obtain ⟨rfl, rfl, rfl⟩ : [] = before ∧ k' = k ∧ after' = after := by simpa using h
      rw [allFrom_cons_some hk, keyword?_eq_some hk, inFrontOf_append, List.append_nil]
    · next hk =>
      obtain ⟨⟨b, k', a⟩, hf, he⟩ := Option.map_eq_some_iff.1 h
      obtain ⟨rfl, rfl, rfl⟩ : c :: b = before ∧ k' = k ∧ a = after := by simpa using he
      rw [allFrom_cons_none hk, ih hf]
      simp

end Mark

/-! ### How a directive ends -/

/-- The characters with which a directive ends. -/
def isDirectiveEnd (c : Char) : Bool :=
  c = ')' || isWordChar c

theorem not_isLineBlank_of_isDirectiveEnd {c : Char} (h : isDirectiveEnd c = true) :
    isLineBlank c = false := by
  rw [Bool.eq_false_iff]
  intro hb
  simp only [isLineBlank, Bool.or_eq_true, decide_eq_true_eq] at hb
  rcases hb with (rfl | rfl) | rfl <;> revert h <;> decide

theorem ne_break_of_isDirectiveEnd {c : Char} (h : isDirectiveEnd c = true) : c ≠ '\n' := by
  rintro rfl
  revert h
  decide

/-- A text whose part in front of `rest` ends as directives do. -/
def EndsBefore (rest s : List Char) : Prop :=
  ∃ a c, isDirectiveEnd c = true ∧ s = a ++ c :: rest

theorem EndsBefore.append {rest s : List Char} (h : EndsBefore rest s) (b : List Char) :
    EndsBefore rest (b ++ s) := by
  obtain ⟨a, c, hc, rfl⟩ := h
  exact ⟨b ++ a, c, hc, by simp⟩

theorem endsBefore_readParenthesized {s inside rest : List Char}
    (h : readParenthesized s = some (inside, rest)) : EndsBefore rest s :=
  ⟨'(' :: inside, ')', rfl, readParenthesized_eq_some h⟩

/-- A word ends with one of its characters. -/
theorem endsBefore_readSpacedWord {s w rest : List Char} (h : readSpacedWord s = some (w, rest)) :
    EndsBefore rest s := by
  have hs := readSpacedWord_eq_some h
  unfold readSpacedWord at h
  dsimp only at h
  split at h
  · next hg =>
    obtain ⟨rfl, rfl⟩ := Prod.mk.inj (Option.some.inj h)
    -- the word is not empty, and its last character is one of the word
    obtain ⟨c, r, hr⟩ : ∃ c r, s.dropWhile isGap = c :: r := by
      rcases hd : s.dropWhile isGap with - | ⟨c, r⟩
      · rw [hd] at hg; simp at hg
      · exact ⟨c, r, rfl⟩
    have hc : isWordChar c = true := by
      have := hg.2
      rw [hr] at this
      simpa using this
    rcases List.eq_nil_or_concat ((s.dropWhile isGap).takeWhile isWordChar) with hn | ⟨a, e, he⟩
    · rw [hr, List.takeWhile_cons_of_pos hc] at hn
      cases hn
    · have hm : e ∈ (s.dropWhile isGap).takeWhile isWordChar := by rw [he]; simp
      refine ⟨s.takeWhile isGap ++ a, e, ?_, ?_⟩
      · simp [isDirectiveEnd, List.mem_takeWhile_imp hm]
      · rw [he] at hs
        simpa using hs
  · cases h

theorem endsBefore_dropWhile {p : Char → Bool} {rest s : List Char}
    (h : EndsBefore rest (s.dropWhile p)) : EndsBefore rest s := by
  have := h.append (s.takeWhile p)
  rwa [List.takeWhile_append_dropWhile] at this

/-- A filter ends with the parenthesis of its condition. -/
theorem endsBefore_readFilter {s c rest : List Char} (h : readFilter s = some (c, rest)) :
    EndsBefore rest s := by
  unfold readFilter at h
  split at h
  · next r hr =>
    apply endsBefore_dropWhile (p := isGap)
    rw [eq_append_of_isPrefixOf? hr]
    exact (endsBefore_dropWhile (endsBefore_readParenthesized h)).append _
  · cases h

/-- A directive ends with a parenthesis or with a word. -/
theorem endsBefore_read {k : Keyword} {s rest : List Char} {d : Directive}
    (h : Directive.read k s = some (d, rest)) : EndsBefore rest s := by
  cases k with
  -- a loop without a filter ends with the word of its subject
  | foreach =>
    obtain ⟨⟨w, r⟩, hw, he⟩ := Option.map_eq_some_iff.1 h
    dsimp only at he
    split at he
    · next c rest' hf =>
      obtain ⟨-, rfl⟩ := Prod.mk.inj he
      rw [readSpacedWord_eq_some hw]
      exact (endsBefore_readFilter hf).append _
    · obtain ⟨-, rfl⟩ := Prod.mk.inj he
      exact endsBefore_readSpacedWord hw
  | cond =>
    obtain ⟨⟨c, r⟩, hc, he⟩ := Option.map_eq_some_iff.1 h
    obtain ⟨-, rfl⟩ := Prod.mk.inj he
    exact endsBefore_dropWhile (endsBefore_readParenthesized hc)
  | close =>
    obtain ⟨⟨w, r⟩, hw, he⟩ := Option.map_eq_some_iff.1 h
    obtain ⟨-, rfl⟩ := Prod.mk.inj he
    exact endsBefore_readSpacedWord hw

end ApiStencil.Template
