/-
ApiStencil/Proofs/Declaration/Length.lean

The lengths of declarations.  A declaration without a static size has the length that
its `len` attribute gives (`GivesLength`), and one with a static size does not look at
the attribute (`hasLength_of_arrayLength`).

A length that is written as a path to a member, in either notation, keeps an arrow when
it is normalised (`GivesLength.arrow_infix`), so the arrow tells paths from the
names of siblings.
-/
import ApiStencil.Declaration.Variable
import ApiStencil.Proofs.Except
import ApiStencil.Proofs.Text.Search

namespace ApiStencil.Declaration

open Text

/-! ### Paths -/

/-- The arrow between the names of a path, once it is normalised. -/
def arrow : List Char :=
  "->".toList

theorem infix_intercalate (separator a b : List Char) (pieces : List (List Char)) :
    separator <:+: separator.intercalate (a :: b :: pieces) := by
  rw [List.intercalate_cons_cons]
  exact ⟨a, separator.intercalate (b :: pieces), by simp⟩

/-- A path is cut into two names at least, between which there is an arrow. -/
theorem arrow_infix_normalizePath {length : List Char}
    (h : "::".toList <:+: length ∨ arrow <:+: length) : arrow <:+: normalizePath length := by
  have hsegments : ∃ a b segments, pathSegments? length = some (a :: b :: segments) := by
    rw [pathSegments?]
    split
    · next hcolons =>
      have hcolons : ':' :: [':'] <:+: length := occursIn_iff.1 hcolons
      obtain ⟨a, b, pieces, hpieces⟩ := exists_splitAll_eq hcolons
      exact ⟨trim a, trim b, pieces.map trim, by rw [hpieces]; rfl⟩
    · next hcolons =>
      have harrow : "->".toList <:+: length := h.resolve_left (mt occursIn_iff.2 hcolons)
      have harrow' : '-' :: ['>'] <:+: length := harrow
      obtain ⟨a, b, pieces, hpieces⟩ := exists_splitAll_eq harrow'
      refine ⟨trim a, trim b, pieces.map trim, ?_⟩
      rw [if_pos (occursIn_iff.2 harrow), hpieces]
      rfl
  obtain ⟨a, b, segments, hsegments⟩ := hsegments
  rw [normalizePath, hsegments]
  dsimp only
  split
  · exact (infix_intercalate arrow a b segments).trans (List.infix_cons List.infix_rfl)
  · exact infix_intercalate arrow a b segments

namespace Raw

/-! ### The length of an array -/

/-- Whether the declaration has a static size. -/
def IsStatic (raw : Raw) : Prop :=
  (arraySize? raw.aroundName.2).isSome = true

/-- Whether the `len` attribute gives a declaration its length, and in which normalised form. -/
def GivesLength (raw : Raw) (length : List Char) : Prop :=
  ¬ raw.IsStatic ∧ ∃ len, raw.len = some len ∧ attributeLength len.toList = .ok (some length)

/-- Whether the `len` attribute writes a path to a member, in either notation. -/
def WritesPath (raw : Raw) : Prop :=
  ∃ len first, raw.len = some len ∧ (lengths len.toList).head? = some first ∧
    ¬ "latexmath".toList <+: first ∧ ("::".toList <:+: first ∨ arrow <:+: first)

/-- A length that is a path to a member shows this in its normalised form. -/
theorem GivesLength.arrow_infix {raw : Raw} {length : List Char} (h : raw.GivesLength length)
    (hpath : raw.WritesPath) : arrow <:+: length := by
  obtain ⟨-, len, hlen, hlength⟩ := h
  obtain ⟨len', first, hlen', hfirst, hplain, hpath⟩ := hpath
  cases hlen.symm.trans hlen'
  have hnot : ¬ "latexmath".toList.isPrefixOf first = true := mt List.isPrefixOf_iff_prefix.1 hplain
  rw [attributeLength, hfirst] at hlength
  dsimp only at hlength
  rw [lengthExpression, if_neg hnot] at hlength
  cases hlength
  exact arrow_infix_normalizePath hpath

/-- Without a static size, the attribute decides. -/
theorem givesLength_iff {raw : Raw} {len : String} (hstatic : ¬ raw.IsStatic)
    (hlen : raw.len = some len) {length : List Char} :
    raw.GivesLength length ↔ attributeLength len.toList = .ok (some length) := by
  constructor
  · rintro ⟨-, len', hlen', hlength⟩
    cases hlen.symm.trans hlen'
    exact hlength
  · exact fun hlength => ⟨hstatic, len, hlen, hlength⟩

/-- Whether an array has the length that the attribute of its declaration gives, and is marked if
that gives one. -/
structure HasLength (raw : Raw) (array : ArrayLength) : Prop where
  fromAttribute_iff : array.fromAttribute = true ↔ ∃ length, raw.GivesLength length
  length_eq : ∀ length, raw.GivesLength length → array.length = some (String.ofList length)

/-- An array without the mark has the length that its attribute gives if that gives none. -/
theorem hasLength_of_not_givesLength {raw : Raw} {array : ArrayLength}
    (hnone : ∀ length, ¬ raw.GivesLength length) (hmark : array.fromAttribute = false) :
    raw.HasLength array where
  fromAttribute_iff := by
    rw [hmark]
    exact iff_of_false Bool.false_ne_true (not_exists.2 hnone)
  length_eq length hlength := absurd hlength (hnone length)

/-- What is read as the length of a declaration is the length its attribute gives, unless there is a
static size. -/
theorem hasLength_of_arrayLength {ctx : Context} {raw : Raw} {array : ArrayLength}
    (h : raw.arrayLength ctx = .ok array) : raw.HasLength array := by
  rw [arrayLength] at h
  split at h
  -- a static size: the attribute is not looked at, and there is no mark
  · next size hsize =>
    have hstatic : raw.IsStatic := Option.isSome_iff_exists.2 ⟨size, hsize⟩
    cases h
    exact hasLength_of_not_givesLength (fun length hlength => hlength.1 hstatic) rfl
  · next hsize =>
    have hstatic : ¬ raw.IsStatic := by
      rw [IsStatic, hsize]
      exact Bool.false_ne_true
    split at h
    · next hlen =>
      cases h
      refine hasLength_of_not_givesLength ?_ rfl
      rintro length ⟨-, len, hlen', -⟩
      rw [hlen] at hlen'
      cases hlen'
    · next len hlen =>
      have hgives {length : List Char} : raw.GivesLength length ↔
          attributeLength len.toList = .ok (some length) := givesLength_iff hstatic hlen
      -- the mark is there if the attribute gives a length, and the length is that one
      obtain ⟨length?, hlength?, rfl⟩ := map_eq_ok_iff.1 h
      cases length? with
      | none =>
        refine hasLength_of_not_givesLength (fun length hlength => ?_) rfl
        cases hlength?.symm.trans (hgives.1 hlength)
      | some length =>
        refine ⟨iff_of_true rfl ⟨length, hgives.2 hlength?⟩, fun length' hlength' => ?_⟩
        cases hlength?.symm.trans (hgives.1 hlength')
        rfl

end Raw

end ApiStencil.Declaration
