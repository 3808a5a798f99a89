/-
ApiStencil/Proofs/Declaration/Comment.lean

Declarations with a comment behind them.  The comment is cut out of the joined text by
its content, at its first occurrence.  Where this is inside the declaration, the cut
leaves the declaration only if the comment and what stands between the two places
commute (`CutsOff`), as for the comment `]` behind `x[4]`.

Main statement: a comment that is cut off has no influence; any other one changes the
text of the declaration, and so the variable or the error, unless the length cannot be
read with the comment and without (`Raw.resolve_withComment`).  There are such comments
(`not_forall_resolve_withComment`).
-/
import ApiStencil.Proofs.Declaration.Frame
import ApiStencil.Proofs.Declaration.Levels
import ApiStencil.Proofs.Text.Search

namespace ApiStencil

namespace Text

variable {c d : List Char}

/-! ### Cutting out a text at the end -/

/-- Whether cutting `c` out of `d ++ c` gives back `d` wherever `c` begins in `d`: at a part `s` of
`d` from there on, `c` commutes with `s`. -/
def CutsOff (c d : List Char) : Prop :=
  ∀ p s, d = p ++ s → c <+: s ++ c → s ++ c = c ++ s

/-- A text that commutes with another one commutes with every part of it behind which it begins. -/
theorem append_comm_of_suffix {x s : List Char} (h : x ++ s ++ c = c ++ (x ++ s))
    (hc : c <+: s ++ c) : s ++ c = c ++ s := by
  obtain ⟨z, hz⟩ := hc
  have he : x ++ c ++ z = c ++ x ++ s := by
    calc x ++ c ++ z = x ++ (c ++ z) := List.append_assoc x c z
      _ = x ++ s ++ c := by rw [hz, List.append_assoc]
      _ = c ++ x ++ s := by rw [h, List.append_assoc]
  have hlength : (x ++ c).length = (c ++ x).length := by
    rw [List.length_append, List.length_append, Nat.add_comm]
  rw [← hz, (List.append_inj he hlength).2]

/-- What is cut out at the first occurrence is what stands at the end exactly if the text is cut
off. -/
theorem eraseFirst_append_iff : eraseFirst c (d ++ c) = d ↔ CutsOff c d := by
  obtain ⟨before, after, hsplit⟩ := exists_splitFirst d c []
  have hlast := length_le_of_splitFirst hsplit
  rw [List.append_nil] at hsplit
  have htext := splitFirst_eq_some hsplit
  rw [eraseFirst, hsplit]
  dsimp only
  constructor
  · rintro rfl p s hd hc
    have hcomm : after ++ c = c ++ after := by
      rw [List.append_assoc, List.append_assoc] at htext
      exact List.append_cancel_left htext
    -- the part `s` is no longer than what stands from the first occurrence on
    obtain ⟨z, hz⟩ := hc
    have hfirst : splitFirst c (p ++ c ++ z) = some (before, after) := by
      rw [List.append_assoc, hz, ← List.append_assoc, ← hd]
      exact hsplit
    have hle := length_le_of_splitFirst hfirst
    obtain ⟨x, rfl, rfl⟩ : ∃ x, p = before ++ x ∧ after = x ++ s := by
      rcases List.append_eq_append_iff.1 hd with ⟨x, hp, ha⟩ | ⟨x, hb, hs⟩
      · exact ⟨x, hp, ha⟩
      · have hx : x = [] := by
          have hlength := congrArg List.length hb
          rw [List.length_append] at hlength
          exact List.eq_nil_of_length_eq_zero (by omega)
        subst hx
        exact ⟨[], by simpa using hb.symm, by simpa using hs.symm⟩
    exact append_comm_of_suffix hcomm ⟨z, hz⟩
  · intro hcuts
    obtain ⟨s, rfl⟩ : before <+: d := by
      rw [List.append_assoc] at htext
      exact List.prefix_of_prefix_length_le ⟨_, htext.symm⟩ ⟨_, rfl⟩ hlast
    rw [List.append_assoc, List.append_assoc] at htext
    have htext := List.append_cancel_left htext
    have hcomm := hcuts before s rfl ⟨after, htext.symm⟩
    rw [List.append_cancel_left (htext.symm.trans hcomm)]

/-! ### Trimming -/

/-- Trimming takes nothing away from a text that stays as long as it was. -/
theorem trim_eq_self_of_length {s : List Char} (h : (trim s).length = s.length) : trim s = s := by
  have hoccurs : trim s <:+: s :=
    (prefix_trimEnd (trimStart s)).isInfix.trans (suffix_trimStart s).isInfix
  exact hoccurs.sublist.eq_of_length h

end Text

namespace Declaration.Raw

open Text

variable {ctx : Context} {index : Nat} {raw : Raw}

/-- The declaration with a comment behind its code. -/
def withComment (raw : Raw) (c : String) : Raw :=
  { raw with code := raw.code ++ c, comment := some c }

/-! ### The text of a declaration with a comment -/

theorem declaration_eq_trim (h : raw.comment = none) : raw.declaration = trim raw.code.toList := by
  rw [declaration, h]

/-- With a comment it is what cutting leaves of the joined text. -/
theorem declaration_withComment (raw : Raw) (c : String) :
    (raw.withComment c).declaration =
      trim (eraseFirst c.toList (raw.code.toList ++ c.toList)) := by
  rw [declaration]
  show trim (if c = "" then (raw.code ++ c).toList
    else eraseFirst c.toList (raw.code ++ c).toList) = _
  rw [String.toList_append]
  split
  · next hc =>
    subst hc
    have hcuts : CutsOff "".toList raw.code.toList := fun p s _ _ => List.append_nil s
    rw [eraseFirst_append_iff.2 hcuts]
    exact congrArg trim (List.append_nil _)
  · rfl

/-- A comment that commutes with everything behind the first place where it is found is cut off,
wherever the cut is made. -/
theorem declaration_withComment_of_cutsOff (hraw : raw.comment = none) {c : String}
    (h : CutsOff c.toList raw.code.toList) :
    (raw.withComment c).declaration = raw.declaration := by
  rw [declaration_withComment, eraseFirst_append_iff.2 h, declaration_eq_trim hraw]

/-- In code without blanks around it, a comment that leaves the text is cut off. -/
theorem cutsOff_of_declaration_withComment (hraw : raw.comment = none)
    (htrim : trim raw.code.toList = raw.code.toList) {c : String}
    (h : (raw.withComment c).declaration = raw.declaration) :
    CutsOff c.toList raw.code.toList := by
  rw [declaration_withComment, declaration_eq_trim hraw, htrim] at h
  have hcut : trim (eraseFirst c.toList (raw.code.toList ++ c.toList)) =
      eraseFirst c.toList (raw.code.toList ++ c.toList) :=
    trim_eq_self_of_length (by rw [h, length_eraseFirst_append])
  exact eraseFirst_append_iff.1 (hcut.symm.trans h)

/-! ### Resolving -/

/-- The text of a declaration shows in its variable, and in the error if its length can be read. -/
theorem declaration_eq_of_resolve_eq {raw' : Raw}
    (h : raw'.resolve ctx index = raw.resolve ctx index) :
    raw'.declaration = raw.declaration ∨
      ∃ e, raw'.arrayLength ctx = .error e ∧ raw.arrayLength ctx = .error e := by
  cases hresolve : raw.resolve ctx index with
  | ok v =>
    obtain ⟨_, _, _, -, -, hv⟩ := resolve_eq_ok_iff.1 hresolve
    obtain ⟨_, _, _, -, -, hv'⟩ := resolve_eq_ok_iff.1 (h.trans hresolve)
    have hdeclaration := congrArg Variable.declaration (hv'.symm.trans hv)
    exact .inl (String.ofList_injective hdeclaration)
  | error e =>
    -- a length that cannot be read hides the text, and it is never mistaken for missing levels
    rcases resolve_eq_error_iff.1 hresolve with he | ⟨-, -, he⟩
    · rcases resolve_eq_error_iff.1 (h.trans hresolve) with he' | ⟨-, -, he'⟩
      · exact .inr ⟨e, he', he⟩
      · exact absurd (he' ▸ he) (arrayLength_ne_negative _)
    · rcases resolve_eq_error_iff.1 (h.trans hresolve) with he' | ⟨-, -, he'⟩
      · exact absurd (he ▸ he') (arrayLength_ne_negative _)
      · have htext := Error.negativePointerLevel.inj (he'.symm.trans he)
        exact .inl (String.ofList_injective htext)

/-- A comment behind a declaration that is cut off has no influence.  Any other comment changes what
the declaration resolves to, unless its length can be read neither with it nor without. -/
theorem resolve_withComment (ctx : Context) (index : Nat) {raw : Raw} (hraw : raw.comment = none)
    (c : String) :
    (CutsOff c.toList raw.code.toList →
      (raw.withComment c).resolve ctx index = raw.resolve ctx index) ∧
    (trim raw.code.toList = raw.code.toList →
      (raw.withComment c).resolve ctx index = raw.resolve ctx index →
        CutsOff c.toList raw.code.toList ∨
          ∃ e, (raw.withComment c).arrayLength ctx = .error e ∧
            raw.arrayLength ctx = .error e) := by
  constructor
  · intro hcuts
    exact resolve_congr rfl (declaration_withComment_of_cutsOff hraw hcuts) rfl rfl
  · intro htrim hsame
    exact (declaration_eq_of_resolve_eq hsame).imp_left
      (cutsOff_of_declaration_withComment hraw htrim)

/-- A declaration whose type, name and levels of indirection can all be repeated in a comment. -/
def namePointer : Raw :=
  ⟨"name", "char", "const char* name", none, none⟩

/-- A context without names. -/
def emptyContext : Context :=
  ⟨Config.default, ∅, ∅⟩

/-- A comment that repeats the type, the name and the levels of indirection of the declaration is
cut off all the same. -/
theorem resolve_withComment_namePointer :
    namePointer.comment = none ∧
      CutsOff "the name[8] of a const char*".toList namePointer.code.toList ∧
      (namePointer.withComment "the name[8] of a const char*").resolve emptyContext 0 =
        namePointer.resolve emptyContext 0 := by
  have hcuts : CutsOff "the name[8] of a const char*".toList namePointer.code.toList :=
    eraseFirst_append_iff.1 (by decide +kernel)
  exact ⟨rfl, hcuts, (resolve_withComment emptyContext 0 rfl _).1 hcuts⟩

/-- Not every comment behind a declared name is without influence: this one is the type of the
declaration, which loses it. -/
theorem not_forall_resolve_withComment :
    ¬ ∀ (raw : Raw) (c : String), raw.comment = none → raw.name.toList <:+ raw.code.toList →
      (raw.withComment c).resolve emptyContext 0 = raw.resolve emptyContext 0 := by
  intro h
  have hsame := h namePointer "char*" rfl (by decide +kernel)
  have htype : (namePointer.resolve emptyContext 0).toOption.map Variable.declaredType =
      some "const char*" := by
    decide +kernel
  have hcut : ((namePointer.withComment "char*").resolve emptyContext 0).toOption.map
      Variable.declaredType = some "const" := by
    decide +kernel
  rw [hsame, htype] at hcut
  exact absurd hcut (by decide)

end Declaration.Raw

end ApiStencil
