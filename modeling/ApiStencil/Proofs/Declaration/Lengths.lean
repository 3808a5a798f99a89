/-
ApiStencil/Proofs/Declaration/Lengths.lean

The lengths that a `len` attribute lists.  A part of the attribute has no blanks around
it, its square brackets match, and its commas stand in brackets (`IsPart`).

Main result: parts that are put together with commas, and with any blanks around them, are
cut apart again, and the length is what the first of them gives that is neither empty nor
the mark for a null character at the end (`attributeLength_intercalate`).

The reader counts the brackets that are open, and does not count below none.  Behind a
text that never closes more brackets than are open (`Inside`), it stands where the numbers
of the brackets say, and has not cut (`splitFrom_append`).
-/
import ApiStencil.Proofs.Declaration.Latexmath
import ApiStencil.Proofs.Declaration.Levels
import ApiStencil.Proofs.Text.Blank
import Mathlib.Data.List.Forall2

namespace ApiStencil.Declaration

open Text

/-! ### Parts -/

/-- Whether a text, behind `d` open brackets, closes no more brackets than are open, and has commas
only where some bracket is open. -/
structure Inside (d : Nat) (s : List Char) : Prop where
  closing_le : ∀ p, p <+: s → p.count ']' ≤ d + p.count '['
  comma : ∀ a b, s = a ++ ',' :: b → a.count ']' < d + a.count '['

/-- Whether a text is one part of a `len` attribute. -/
structure IsPart (part : List Char) : Prop where
  starts : ∀ c ∈ part.head?, isSpace c = false
  ends : ∀ c ∈ part.getLast?, isSpace c = false
  closing_le : ∀ p, p <+: part → p.count ']' ≤ p.count '['
  closing_eq : part.count ']' = part.count '['
  comma : ∀ a b, part = a ++ ',' :: b → a.count ']' < a.count '['

/-- Whether `piece` is `part` with blanks around it. -/
def Padded (part piece : List Char) : Prop :=
  ∃ before after, (∀ c ∈ before, isSpace c = true) ∧ (∀ c ∈ after, isSpace c = true) ∧
    piece = before ++ (part ++ after)

/-- Whether `first` is the first of the parts that is a length at all. -/
def IsFirstLength (parts : List (List Char)) (first : List Char) : Prop :=
  ∃ skipped rest, parts = skipped ++ first :: rest ∧
    (∀ p ∈ skipped, p = [] ∨ p = nullTerminated) ∧ first ≠ [] ∧ first ≠ nullTerminated

variable {d : Nat} {c : Char} {s part piece first : List Char} {parts pieces : List (List Char)}

/-! ### Counting brackets -/

namespace Inside

theorem pos_of_comma (h : Inside d (',' :: s)) : 0 < d := by
  have hcomma := h.comma [] s rfl
  rwa [List.count_nil, List.count_nil, Nat.add_zero] at hcomma

theorem pos_of_closing (h : Inside d (']' :: s)) : 0 < d := by
  have hclosing : 1 ≤ d + 0 := h.closing_le [']'] ⟨s, rfl⟩
  exact hclosing

/-- The brackets of a text are open to the same depth, counted from in front of its first
character or by the reader, which stands behind it. -/
theorem depth_cons (h : Inside d (c :: s)) (p : List Char) :
    (if c = '[' then d + 1 else if c = ']' then d - 1 else d) + p.count '[' + (c :: p).count ']' =
      d + (c :: p).count '[' + p.count ']' := by
  split
  · next hopen =>
    subst hopen
    rw [List.count_cons_self, List.count_cons_of_ne (by decide)]
    omega
  · next hopen =>
    rw [List.count_cons_of_ne hopen]
    split
    -- there is an open bracket to close, so that taking one away is not cut off at none
    · next hclose =>
      subst hclose
      have hpos := h.pos_of_closing
      rw [List.count_cons_self]
      omega
    · next hclose => rw [List.count_cons_of_ne hclose]

/-- Behind its first character, the rest of the text has as many open brackets as the reader
counts. -/
theorem tail (h : Inside d (c :: s)) :
    Inside (if c = '[' then d + 1 else if c = ']' then d - 1 else d) s where
  closing_le p hp := by
    have hle := h.closing_le (c :: p) (List.cons_prefix_cons.2 ⟨rfl, hp⟩)
    have hdepth := h.depth_cons p
    omega
  comma a b hs := by
    have hlt := h.comma (c :: a) b (congrArg _ hs)
    have hdepth := h.depth_cons a
    omega

end Inside

/-- The reader takes a text into the part that it stands in, and counts its brackets. -/
theorem splitFrom_append (h : Inside d s) (front rest : List Char) :
    splitFrom d front (s ++ rest) =
      splitFrom (d + s.count '[' - s.count ']') (s.reverse ++ front) rest := by
  -- by induction on the text, for any depth and any part in front of it
  induction s generalizing d front with
  | nil => rfl
  | cons c s ih =>
    -- the reader cuts at a comma only where no bracket is open, and here one is
    have hcut : ¬ (c = ',' ∧ d = 0) := by
      rintro ⟨rfl, rfl⟩
      exact absurd h.pos_of_comma (Nat.lt_irrefl 0)
    have hdepth := h.depth_cons s
    have hle := h.closing_le (c :: s) (List.prefix_refl _)
    rw [List.cons_append, splitFrom, if_neg hcut]
    dsimp only
    rw [ih h.tail, List.reverse_cons, List.append_assoc, List.singleton_append]
    congr 1
    omega

theorem splitFrom_append_of_closed (h : Inside 0 s) (heq : s.count ']' = s.count '[')
    (front rest : List Char) :
    splitFrom 0 front (s ++ rest) = splitFrom 0 (s.reverse ++ front) rest := by
  rw [splitFrom_append h, heq, Nat.add_sub_cancel]

/-! ### Parts put together -/

/-- Blanks have neither brackets nor commas. -/
theorem inside_of_blank (h : ∀ c ∈ s, isSpace c = true) : Inside 0 s where
  closing_le p hp := by
    have hmem : ']' ∉ p := fun hm => not_mem_of_class h rfl (hp.subset hm)
    rw [List.count_eq_zero_of_not_mem hmem]
    exact Nat.zero_le _
  comma a b hs := by
    have hmem : ',' ∈ s := hs ▸ List.mem_append_right a List.mem_cons_self
    exact absurd hmem (not_mem_of_class h rfl)

theorem splitFrom_append_of_blank (h : ∀ c ∈ s, isSpace c = true) (front rest : List Char) :
    splitFrom 0 front (s ++ rest) = splitFrom 0 (s.reverse ++ front) rest := by
  have hopen : s.count '[' = 0 := List.count_eq_zero_of_not_mem (not_mem_of_class h rfl)
  have hclose : s.count ']' = 0 := List.count_eq_zero_of_not_mem (not_mem_of_class h rfl)
  exact splitFrom_append_of_closed (inside_of_blank h) (hclose.trans hopen.symm) front rest

/-- The brackets and the commas of a part are those of a text behind no open bracket. -/
theorem IsPart.inside (h : IsPart part) : Inside 0 part where
  closing_le p hp := by
    rw [Nat.zero_add]
    exact h.closing_le p hp
  comma a b hs := by
    rw [Nat.zero_add]
    exact h.comma a b hs

namespace Padded

/-- A part with blanks around it is read to its end without a cut. -/
theorem splitFrom_append (h : Padded part piece) (hpart : IsPart part) (rest : List Char) :
    splitFrom 0 [] (piece ++ rest) = splitFrom 0 piece.reverse rest := by
  obtain ⟨before, after, hbefore, hafter, rfl⟩ := h
  rw [List.append_assoc, splitFrom_append_of_blank hbefore, List.append_assoc,
    splitFrom_append_of_closed hpart.inside hpart.closing_eq, splitFrom_append_of_blank hafter]
  simp

/-- Trimming takes just the blanks away, for a part neither begins nor ends with one. -/
theorem trim_eq (h : Padded part piece) (hpart : IsPart part) : trim piece = part := by
  obtain ⟨before, after, hbefore, hafter, rfl⟩ := h
  exact trim_append_append hbefore hafter hpart.starts hpart.ends

end Padded

/-- Commas between parts are where the reader cuts, and nothing else is. -/
theorem splitFrom_intercalate (hne : pieces ≠ []) (hparts : ∀ p ∈ parts, IsPart p)
    (h : List.Forall₂ Padded parts pieces) :
    splitFrom 0 [] ([','].intercalate pieces) = pieces := by
  induction h with
  | nil => exact absurd rfl hne
  | @cons part piece parts pieces hpad hrest ih =>
    obtain ⟨hpart, hparts⟩ := List.forall_mem_cons.1 hparts
    cases pieces with
    | nil =>
      have hlast := hpad.splitFrom_append hpart []
      rw [List.append_nil] at hlast
      rw [List.intercalate_singleton, hlast, splitFrom, List.reverse_reverse]
    | cons next pieces =>
      -- behind the piece, no bracket is open at the comma
      rw [List.intercalate_cons_cons, List.append_assoc, hpad.splitFrom_append hpart,
        List.singleton_append, splitFrom, if_pos ⟨rfl, rfl⟩, List.reverse_reverse,
        ih (List.cons_ne_nil next pieces) hparts]

/-- The pieces, trimmed, are the parts. -/
theorem map_trim_of_padded (hparts : ∀ p ∈ parts, IsPart p)
    (h : List.Forall₂ Padded parts pieces) : pieces.map trim = parts := by
  induction h with
  | nil => rfl
  | cons hpad _ ih =>
    obtain ⟨hpart, hparts⟩ := List.forall_mem_cons.1 hparts
    rw [List.map_cons, hpad.trim_eq hpart, ih hparts]

/-- Parts that are put together with commas and blanks are cut apart again. -/
theorem splitLengths_intercalate (hne : parts ≠ []) (hparts : ∀ p ∈ parts, IsPart p)
    (h : List.Forall₂ Padded parts pieces) :
    splitLengths ([','].intercalate pieces) = parts := by
  have hpieces : pieces ≠ [] := by
    rintro rfl
    cases h
    exact hne rfl
  rw [splitLengths, splitFrom_intercalate hpieces hparts h, map_trim_of_padded hparts h]

/-! ### The first length -/

/-- Parts that are no lengths are left out, so the first length comes first. -/
theorem head?_lengths_eq_some {len : List Char} (h : IsFirstLength (splitLengths len) first) :
    (lengths len).head? = some first := by
  obtain ⟨skipped, rest, hparts, hskipped, hfirst⟩ := h
  rw [lengths, List.head?_filter, List.find?_eq_some_iff_append]
  refine ⟨decide_eq_true hfirst, skipped, rest, hparts, ?_⟩
  intro p hp
  have hnot : ¬ (p ≠ [] ∧ p ≠ nullTerminated) := not_and_or.2 ((hskipped p hp).imp not_not.2 not_not.2)
  rw [decide_eq_false hnot]
  rfl

/-- No part may be a length. -/
theorem lengths_eq_nil {len : List Char}
    (h : ∀ p ∈ splitLengths len, p = [] ∨ p = nullTerminated) : lengths len = [] := by
  rw [lengths, List.filter_eq_nil_iff]
  intro p hp hkept
  obtain ⟨hne, hmark⟩ := of_decide_eq_true hkept
  exact (h p hp).elim hne hmark

/-- Of any parts, one is the first length, or none is a length. -/
theorem exists_isFirstLength_or (parts : List (List Char)) :
    (∃ first, IsFirstLength parts first) ∨ ∀ p ∈ parts, p = [] ∨ p = nullTerminated := by
  induction parts with
  | nil => exact .inr (List.forall_mem_nil _)
  | cons part parts ih =>
    by_cases hpart : part = [] ∨ part = nullTerminated
    · refine ih.imp ?_ fun hparts => List.forall_mem_cons.2 ⟨hpart, hparts⟩
      rintro ⟨first, skipped, rest, rfl, hskipped, hfirst⟩
      exact ⟨first, part :: skipped, rest, rfl, List.forall_mem_cons.2 ⟨hpart, hskipped⟩, hfirst⟩
    · exact .inl ⟨part, [], parts, rfl, List.forall_mem_nil _, not_or.1 hpart⟩

/-- The only lengths without an expression are those that are marked as mathematical notation but
are not written in it. -/
theorem lengthExpression_eq_error {e : Error} (h : lengthExpression first = .error e) :
    "latexmath".toList <+: first ∧ (∀ w : Written, w.text ≠ first) ∧
      e = .unsupportedLatexmath (String.ofList first) := by
  have he := lengthExpression_error h
  rw [lengthExpression] at h
  split at h
  · next hmark =>
    refine ⟨List.isPrefixOf_iff_prefix.1 hmark, ?_, he⟩
    rintro w rfl
    rw [readLatexmath_text] at h
    cases h
  · cases h

/-- Parts that are put together with commas and any blanks are cut apart again.  The length is then
what the first of them gives that is a length at all: it is read as mathematical notation if it is
marked so and as a path otherwise.  There is no length if none of the parts is one, and the only
failure is that of a first one in a notation that is not known. -/
theorem attributeLength_intercalate (hne : parts ≠ []) (hparts : ∀ p ∈ parts, IsPart p)
    (hpieces : List.Forall₂ Padded parts pieces) :
    splitLengths ([','].intercalate pieces) = parts ∧
      (∀ first, IsFirstLength parts first →
        ("latexmath".toList <+: first →
          attributeLength ([','].intercalate pieces) = (readLatexmath first).map some) ∧
        (¬ "latexmath".toList <+: first →
          attributeLength ([','].intercalate pieces) = .ok (some (normalizePath first)))) ∧
      ((∀ p ∈ parts, p = [] ∨ p = nullTerminated) →
        attributeLength ([','].intercalate pieces) = .ok none) ∧
      ∀ e, attributeLength ([','].intercalate pieces) = .error e →
        ∃ first, IsFirstLength parts first ∧ "latexmath".toList <+: first ∧
          (∀ w : Written, w.text ≠ first) ∧ e = .unsupportedLatexmath (String.ofList first) := by
  have hsplit := splitLengths_intercalate hne hparts hpieces
  generalize [','].intercalate pieces = len at hsplit
  subst hsplit
  have hlength : ∀ first, IsFirstLength (splitLengths len) first →
      attributeLength len = (lengthExpression first).map some := by
    intro first hfirst
    rw [attributeLength, head?_lengths_eq_some hfirst]
  have hnone : (∀ p ∈ splitLengths len, p = [] ∨ p = nullTerminated) →
      attributeLength len = .ok none := by
    intro h
    rw [attributeLength, lengths_eq_nil h]
    rfl
  refine ⟨rfl, ?_, hnone, ?_⟩
  · intro first hfirst
    rw [hlength first hfirst, lengthExpression]
    constructor
    · intro hmark
      rw [if_pos (List.isPrefixOf_iff_prefix.2 hmark)]
    · intro hmark
      rw [if_neg (mt List.isPrefixOf_iff_prefix.1 hmark)]
      rfl
  · intro e he
    obtain ⟨first, hfirst⟩ | h := exists_isFirstLength_or (splitLengths len)
    · rw [hlength first hfirst] at he
      exact ⟨first, hfirst, lengthExpression_eq_error (map_eq_error_iff.1 he)⟩
    · rw [hnone h] at he
      cases he

/-- A check of one character that may be missing, so that it can be decided whether a text is a
part. -/
theorem all_not_isSpace_iff {o : Option Char} :
    (o.all fun c => !isSpace c) = true ↔ ∀ c ∈ o, isSpace c = false := by
  cases o with
  | none => simp
  | some c => simp

instance : DecidablePred IsPart := fun part =>
  decidable_of_iff ((part.head?.all fun c => !isSpace c) = true ∧
      (part.getLast?.all fun c => !isSpace c) = true ∧
      (∀ p ∈ part.inits, p.count ']' ≤ p.count '[') ∧ part.count ']' = part.count '[' ∧
      ∀ a ∈ part.inits, a ++ [','] <+: part → a.count ']' < a.count '[') (by
    rw [all_not_isSpace_iff, all_not_isSpace_iff]
    constructor
    · rintro ⟨hstarts, hends, hle, heq, hcomma⟩
      refine ⟨hstarts, hends, fun p hp => hle p ((List.mem_inits p part).2 hp), heq, ?_⟩
      rintro a b rfl
      exact hcomma a ((List.mem_inits a _).2 (List.prefix_append _ _)) ⟨b, by simp⟩
    · intro h
      refine ⟨h.starts, h.ends, fun p hp => h.closing_le p ((List.mem_inits p part).1 hp),
        h.closing_eq, ?_⟩
      rintro a - ⟨b, hb⟩
      exact h.comma a b (by simp [← hb]))

/-- A division in mathematical notation, with brackets and a comma in its first operand. -/
def dividedLength : List Char :=
  "latexmath:[\\textrm\x7bn[i,j]\x7d \\over 4]".toList

/-- Four parts, of which the third is the first length. -/
def fourParts : List (List Char) :=
  [[], nullTerminated, dividedLength, "rows".toList]

/-- The parts as they are written, with blanks around them. -/
def fourPieces : List (List Char) :=
  ["\t".toList, nullTerminated, ' ' :: dividedLength ++ [' '], "rows ".toList]

/-- The first two parts are no lengths, and the comma and the brackets of the third do not cut
it. -/
theorem attributeLength_intercalate_divided :
    (∀ p ∈ fourParts, IsPart p) ∧ List.Forall₂ Padded fourParts fourPieces ∧
      attributeLength ([','].intercalate fourPieces) = .ok (some "n[i,j]/4".toList) := by
  have hparts : ∀ p ∈ fourParts, IsPart p := by decide +kernel
  have hpieces : List.Forall₂ Padded fourParts fourPieces := by
    refine .cons ⟨['\t'], [], ?_, ?_, rfl⟩ (.cons ⟨[], [], ?_, ?_, ?_⟩
      (.cons ⟨[' '], [' '], ?_, ?_, rfl⟩ (.cons ⟨[], [' '], ?_, ?_, rfl⟩ .nil)))
    all_goals simp [isSpace]
  have hfirst : IsFirstLength fourParts dividedLength :=
    ⟨[[], nullTerminated], ["rows".toList], rfl, by simp, by decide, by decide⟩
  have hlength := (attributeLength_intercalate (List.cons_ne_nil _ _) hparts hpieces).2.1 _ hfirst
  refine ⟨hparts, hpieces, ?_⟩
  rw [hlength.1 ⟨_, rfl⟩]
  decide +kernel

end ApiStencil.Declaration
