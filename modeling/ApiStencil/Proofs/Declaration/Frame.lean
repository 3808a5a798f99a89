/-
ApiStencil/Proofs/Declaration/Frame.lean

The code of a declaration around the name of its type.  A frame is what stands before
that name and after it, where the declared name follows, so that the name of the type
is a word of its own; `fill` writes a declaration by putting in the name of a type.

Reading such code never looks into the word: trimming goes around it (`trim_fill`), the
declared name is found after it (`splitLast_fill`), and whether there is a `const`
does not depend on it (`hasConst_fill`).
-/
import ApiStencil.Declaration.Variable
import ApiStencil.Proofs.Text.Search
import Mathlib.Data.List.DropRight

namespace ApiStencil

namespace Text

variable {a b s w : List Char} {c : Char}

/-- The characters of words stand between `0` and `z`; this is all that is needed to tell them from
blanks. -/
theorem toNat_of_isWordChar (h : isWordChar c = true) : 48 ≤ c.toNat ∧ c.toNat ≤ 122 := by
  rcases Bool.or_eq_true_iff.1 h with h | h
  · rcases Bool.or_eq_true_iff.1 h with h | h
    · rcases Bool.or_eq_true_iff.1 h with h | h
      · have hc : 65 ≤ c.toNat ∧ c.toNat ≤ 90 := of_decide_eq_true h
        omega
      · have hc := Bool.and_eq_true_iff.1 h
        exact ⟨Nat.le_trans (by decide) (of_decide_eq_true hc.1), of_decide_eq_true hc.2⟩
    · have hc : 48 ≤ c.toNat ∧ c.toNat ≤ 57 := Char.isDigit_iff_toNat.1 h
      omega
  · obtain rfl := of_decide_eq_true h
    decide

theorem isSpace_of_isWordChar (h : isWordChar c = true) : isSpace c = false := by
  obtain ⟨h, h'⟩ := toNat_of_isWordChar h
  refine Bool.eq_false_iff.2 fun hs => ?_
  simp only [isSpace, Bool.or_eq_true, Bool.and_eq_true, decide_eq_true_eq, beq_iff_eq] at hs
  omega

/-- An identifier or a number. -/
structure IsWord (w : List Char) : Prop where
  ne_nil : w ≠ []
  word : ∀ c ∈ w, isWordChar c = true

instance (w : List Char) : Decidable (IsWord w) :=
  decidable_of_iff (w ≠ [] ∧ w.all isWordChar = true)
    ⟨fun h => ⟨h.1, List.all_eq_true.1 h.2⟩, fun h => ⟨h.ne_nil, List.all_eq_true.2 h.word⟩⟩

namespace IsWord

variable (h : IsWord w)

include h

theorem not_isSpace : ∀ c ∈ w, isSpace c = false := fun c hc =>
  isSpace_of_isWordChar (h.word c hc)

theorem not_mem (hc : isWordChar c = false) : c ∉ w := by
  intro hm
  rw [h.word c hm] at hc
  cases hc

end IsWord

/-! ### Trimming -/

theorem suffix_trimStart (s : List Char) : trimStart s <:+ s :=
  List.dropWhile_suffix _

theorem prefix_trimEnd (s : List Char) : trimEnd s <+: s := by
  rw [← List.reverse_suffix]
  show (trimStart s.reverse).reverse.reverse <:+ s.reverse
  rw [List.reverse_reverse]
  exact suffix_trimStart s.reverse

theorem trimStart_trimStart (s : List Char) : trimStart (trimStart s) = trimStart s :=
  List.dropWhile_idempotent _ s

/-- Trimming goes no further than to a word. -/
theorem trimStart_around (hne : w ≠ []) (hw : ∀ c ∈ w, isSpace c = false) :
    trimStart (a ++ w ++ b) = trimStart a ++ w ++ b := by
  rw [List.append_assoc, List.append_assoc]
  induction a with
  | nil =>
    cases w with
    | nil => exact absurd rfl hne
    | cons c w => exact trimStart_eq_self fun c' hc => hw c' (List.mem_of_mem_head? hc)
  | cons c a ih =>
    show List.dropWhile isSpace _ = List.dropWhile isSpace _ ++ _
    rw [List.cons_append, List.dropWhile_cons, List.dropWhile_cons]
    split
    · exact ih
    · rfl

/-- The same at the other end, by turning the text around. -/
theorem trimEnd_around (hne : w ≠ []) (hw : ∀ c ∈ w, isSpace c = false) :
    trimEnd (a ++ w ++ b) = a ++ w ++ trimEnd b := by
  have h : trimStart (b.reverse ++ w.reverse ++ a.reverse) =
      trimStart b.reverse ++ w.reverse ++ a.reverse :=
    trimStart_around (List.reverse_ne_nil_iff.2 hne) fun c hc => hw c (List.mem_reverse.1 hc)
  show (trimStart (a ++ w ++ b).reverse).reverse = a ++ w ++ (trimStart b.reverse).reverse
  rw [List.reverse_append, List.reverse_append, ← List.append_assoc, h]
  simp

theorem trim_around (hne : w ≠ []) (hw : ∀ c ∈ w, isSpace c = false) :
    trim (a ++ w ++ b) = trimStart a ++ w ++ trimEnd b := by
  rw [trim, trimStart_around hne hw, trimEnd_around hne hw]

/-- A text that does not end with a space is not cut. -/
theorem exists_trimEnd_append (hs : ∀ c, s.getLast? = some c → isSpace c = false) :
    ∃ a' b', trimEnd (a ++ s ++ b) = a' ++ s ++ b' := by
  rcases List.eq_nil_or_concat' s with rfl | ⟨n, c, rfl⟩
  · exact ⟨trimEnd (a ++ [] ++ b), [], by simp⟩
  · have hc : ∀ c' ∈ [c], isSpace c' = false := by
      intro c' hm
      rw [List.mem_singleton.1 hm]
      exact hs c List.getLast?_concat
    refine ⟨a, trimEnd b, ?_⟩
    rw [← List.append_assoc, trimEnd_around (List.cons_ne_nil _ _) hc]

/-! ### Words between separators -/

/-- A text has no separator, or there is a first one. -/
theorem separator_or_not (p : Char → Bool) (s : List Char) :
    (∀ c ∈ s, p c = false) ∨
      ∃ a c b, s = a ++ c :: b ∧ p c = true ∧ ∀ x ∈ a, p x = false := by
  induction s with
  | nil => exact .inl nofun
  | cons c r ih =>
    cases hc : p c with
    | true => exact .inr ⟨[], c, r, rfl, hc, nofun⟩
    | false =>
      rcases ih with h | ⟨a, d, b, rfl, hd, ha⟩
      · exact .inl (List.forall_mem_cons.2 ⟨hc, h⟩)
      · exact .inr ⟨c :: a, d, b, rfl, hd, List.forall_mem_cons.2 ⟨hc, ha⟩⟩

end Text

namespace Declaration

open Text

/-! ### Looking for `const` -/

/-- What stands between the words of a type. -/
def isSeparator (c : Char) : Bool :=
  isSpace c || c = '*'

/-- A separator cuts the search for a `const` in two, for no word goes across it. -/
theorem Raw.hasConst_append_cons {a b : List Char} {c : Char} (hc : isSeparator c = true) :
    hasConst (a ++ c :: b) = (hasConst a || hasConst b) := by
  show ((a ++ c :: b).splitOnP isSeparator).contains _ = _
  rw [List.splitOnP_append_cons a b hc, List.contains_append]
  rfl

/-- A text without separators is one word, so it has a `const` only if it is that. -/
theorem Raw.hasConst_of_ne {s : List Char} (hs : ∀ c ∈ s, isSeparator c = false)
    (hne : s ≠ "const".toList) : hasConst s = false := by
  show (s.splitOnP isSeparator).contains _ = _
  rw [List.splitOnP_eq_singleton hs, List.contains_cons, beq_false_of_ne hne.symm]
  rfl

/-! ### Names of types -/

/-- A word that can name a type. -/
structure IsTypeName (w : List Char) : Prop where
  ne_nil : w ≠ []
  word : ∀ c ∈ w, isWordChar c = true
  ne_const : w ≠ "const".toList

namespace IsTypeName

variable {w w' x y : List Char} (hw : IsTypeName w)

include hw

theorem isWord : IsWord w :=
  ⟨hw.ne_nil, hw.word⟩

theorem not_isSpace : ∀ c ∈ w, isSpace c = false :=
  hw.isWord.not_isSpace

/-- The name of a type has no asterisk and no bracket, so it counts for no level of indirection. -/
theorem not_mem {c : Char} (hc : isWordChar c = false) : c ∉ w :=
  hw.isWord.not_mem hc

/-- A word does not become `const` by what stands next to it. -/
theorem around_ne_const (hx : ∀ c, x.getLast? = some c → isWordChar c = false)
    (hy : ∀ c, y.head? = some c → isWordChar c = false) : x ++ w ++ y ≠ "const".toList := by
  intro he
  have hword : ∀ c ∈ x ++ w ++ y, isWordChar c = true := by
    rw [he]
    exact List.all_eq_true.1 rfl
  -- what stands next to the word is no word character, so nothing does
  have hxnil : x = [] := by
    rcases List.eq_nil_or_concat' x with h | ⟨n, c, rfl⟩
    · exact h
    · have hc : isWordChar c = true := hword c (by simp)
      rw [hx c List.getLast?_concat] at hc
      cases hc
  have hynil : y = [] := by
    cases y with
    | nil => rfl
    | cons c r =>
      have hc : isWordChar c = true := hword c (by simp)
      rw [hy c rfl] at hc
      cases hc
  rw [hxnil, hynil, List.append_nil] at he
  exact hw.ne_const he

theorem not_isSeparator : ∀ c ∈ w, isSeparator c = false := by
  intro c hc
  have hstar : c ≠ '*' := fun h => hw.not_mem (c := '*') (by decide) (h ▸ hc)
  rw [isSeparator, hw.not_isSpace c hc, decide_eq_false hstar]
  rfl

/-- If no separator is in front of the word, only what is after it can hold a `const`. -/
theorem hasConst_of_no_separator (hw' : IsTypeName w') (hs : ∀ c ∈ x, isSeparator c = false)
    (hx : ∀ c, x.getLast? = some c → isWordChar c = false)
    (hy : ∀ c, y.head? = some c → isWordChar c = false) :
    Raw.hasConst (x ++ w ++ y) = Raw.hasConst (x ++ w' ++ y) := by
  have hfirst : ∀ {u z}, IsTypeName u → (∀ c ∈ z, isSeparator c = false) →
      (∀ c, z.head? = some c → isWordChar c = false) → Raw.hasConst (x ++ u ++ z) = false := by
    intro u z hu hz hhead
    refine Raw.hasConst_of_ne (fun c hc => ?_) (hu.around_ne_const hx hhead)
    rcases List.mem_append.1 hc with hc | hc
    · rcases List.mem_append.1 hc with hc | hc
      · exact hs c hc
      · exact hu.not_isSeparator c hc
    · exact hz c hc
  -- behind the first separator, both texts are the same
  rcases separator_or_not isSeparator y with h | ⟨z, c, r, rfl, hc, hz⟩
  · rw [hfirst hw h hy, hfirst hw' h hy]
  · have hhead : ∀ c, z.head? = some c → isWordChar c = false := by
      intro d hd
      refine hy d ?_
      rw [List.head?_append, hd]
      rfl
    rw [← List.append_assoc, ← List.append_assoc, Raw.hasConst_append_cons hc,
      Raw.hasConst_append_cons hc, hfirst hw hz hhead, hfirst hw' hz hhead]

/-- Whether there is a `const` does not depend on the word. -/
theorem hasConst_around (hw' : IsTypeName w')
    (hx : ∀ c, x.getLast? = some c → isWordChar c = false)
    (hy : ∀ c, y.head? = some c → isWordChar c = false) :
    Raw.hasConst (x ++ w ++ y) = Raw.hasConst (x ++ w' ++ y) := by
  -- the words in front are those up to the last separator
  rcases separator_or_not isSeparator x.reverse with h | ⟨z, c, r, he, hc, hz⟩
  · exact hw.hasConst_of_no_separator hw' (fun c hm => h c (List.mem_reverse.2 hm)) hx hy
  · have hsplit : x = r.reverse ++ c :: z.reverse := by
      rw [← List.reverse_reverse x, he]
      simp
    subst hsplit
    have hlast : ∀ d, z.reverse.getLast? = some d → isWordChar d = false := by
      intro d hd
      refine hx d ?_
      rw [List.getLast?_append, List.getLast?_cons, hd]
      rfl
    have hrest := hw.hasConst_of_no_separator hw'
      (fun d hd => hz d (List.mem_reverse.1 hd)) hlast hy
    rw [List.append_assoc, List.append_assoc, List.append_assoc, List.append_assoc,
      List.cons_append, List.cons_append, Raw.hasConst_append_cons hc,
      Raw.hasConst_append_cons hc, ← List.append_assoc, ← List.append_assoc, hrest]

end IsTypeName

/-! ### Frames -/

/-- The code of a declaration around the name of its type, which is a word of its own and stands in
front of the declared name. -/
structure Frame where
  before : List Char
  between : List Char
  name : List Char
  after : List Char
  before_end : ∀ c, before.getLast? = some c → isWordChar c = false
  rest_start : ∀ c, (between ++ name ++ after).head? = some c → isWordChar c = false
  name_end : ∀ c, name.getLast? = some c → isSpace c = false

namespace Frame

variable (f : Frame) {w w' : List Char}

/-- What stands after the name of the type. -/
def rest : List Char :=
  f.between ++ f.name ++ f.after

/-- The code with the name of a type. -/
def fill (w : List Char) : List Char :=
  f.before ++ w ++ f.rest

/-- What is left of the code in front of the name of the type when it is trimmed. -/
def front : List Char :=
  trimStart f.before

/-- What is left after the name of the type. -/
def back : List Char :=
  trimEnd f.rest

/-- What is left around the last occurrence of the declared name. -/
def aroundName : List Char × List Char :=
  (splitLast f.name f.back).getD (f.back, [])

/-- What is left between the name of the type and the last occurrence of the declared name. -/
def inner : List Char :=
  trimEnd f.aroundName.1

/-- Trimming the code never reaches into the name of the type. -/
theorem trim_fill (hw : IsTypeName w) : trim (f.fill w) = f.front ++ w ++ f.back :=
  trim_around hw.ne_nil hw.not_isSpace

/-- The declared name is found in what follows the name of the type, for it stands there and
trimming keeps it. -/
theorem splitLast_back : splitLast f.name f.back = some f.aroundName := by
  obtain ⟨a, b, h⟩ := exists_trimEnd_append f.name_end (a := f.between) (b := f.after)
  obtain ⟨before, after, hs⟩ := exists_splitLast a f.name b
  rw [← h] at hs
  rw [aroundName, back, rest, hs]
  rfl

/-- The last occurrence of the declared name is after the name of the type. -/
theorem splitLast_fill :
    splitLast f.name (f.front ++ w ++ f.back) =
      some (f.front ++ w ++ f.aroundName.1, f.aroundName.2) :=
  splitLast_append f.splitLast_back _

/-- Trimming what is in front of the declared name stops at the name of the type. -/
theorem trim_front (hw : IsTypeName w) :
    trim (f.front ++ w ++ f.aroundName.1) = f.front ++ w ++ f.inner := by
  rw [trim_around hw.ne_nil hw.not_isSpace, front, trimStart_trimStart]
  rfl

/-- What stands in front of the name of the type does not end with a character of a word, trimmed or
not. -/
theorem front_end : ∀ c, f.front.getLast? = some c → isWordChar c = false := by
  intro c hc
  obtain ⟨t, ht⟩ := suffix_trimStart f.before
  refine f.before_end c ?_
  rw [← ht, List.getLast?_append]
  show (List.getLast? f.front).or _ = _
  rw [hc]
  rfl

/-- What stands behind the name of the type does not begin with a character of a word either. -/
theorem inner_start : ∀ c, f.inner.head? = some c → isWordChar c = false := by
  intro c hc
  have hprefix : f.inner <+: f.rest := by
    refine (prefix_trimEnd f.aroundName.1).trans (List.IsPrefix.trans ?_ (prefix_trimEnd f.rest))
    have h : f.back = f.aroundName.1 ++ f.name ++ f.aroundName.2 :=
      splitLast_eq_some f.splitLast_back
    rw [List.append_assoc] at h
    exact ⟨_, h.symm⟩
  -- so it begins as that does
  obtain ⟨t, ht⟩ := hprefix
  refine f.rest_start c ?_
  show f.rest.head? = some c
  rw [← ht, List.head?_append, hc]
  rfl

/-- Both names are words of their own between the same separators, so neither is part of a
`const`. -/
theorem hasConst_fill (hw : IsTypeName w) (hw' : IsTypeName w') :
    Raw.hasConst (f.front ++ w ++ f.inner) = Raw.hasConst (f.front ++ w' ++ f.inner) :=
  hw.hasConst_around hw' f.front_end f.inner_start

end Frame

end Declaration

end ApiStencil
