/-
ApiStencil/Proofs/Declaration/Split.lean

Where a declaration is split: `T n` and `T n[N]` for a type text `T`, a declared name `n`
and the size `N` of an array.  Blanks, asterisks and brackets are no parts of a word, so
no occurrence of the name reaches over the place where it is declared, whatever letters
the type and the name share (`IsWord.eq_nil_of_append_size`).

Main statement: the text in front of the name is the declared type and the size in
brackets the length of the array (`Raw.resolve_split`).  A size in which the name occurs
is the exception: there the last occurrence is not the one that is declared, so the size
is lost and the declared type is too long (`not_forall_resolve_split`).
-/
import ApiStencil.Proofs.Declaration.Frame
import ApiStencil.Proofs.Declaration.Levels

namespace ApiStencil

namespace Text

/-! ### Where a word occurs -/

/-- Nothing is left for another occurrence in the needle itself. -/
theorem eq_nil_of_append_self {needle a b : List Char} (h : needle ++ [] = a ++ needle ++ b) :
    a = [] := by
  have hlength := congrArg List.length h
  rw [List.append_nil, List.length_append, List.length_append] at hlength
  exact List.eq_nil_of_length_eq_zero (by omega)

/-- A word that does not hold the last character of a text occurs in the rest of it. -/
theorem infix_of_infix_concat {w s : List Char} {c : Char} (hw : w ≠ []) (hc : c ∉ w)
    (h : w <:+: s ++ [c]) : w <:+: s := by
  obtain ⟨a, b, he⟩ := h
  rcases List.eq_nil_or_concat' b with rfl | ⟨b, d, rfl⟩
  · -- the word would end with the last character
    rw [List.append_nil] at he
    have hlast := congrArg List.getLast? he
    rw [List.getLast?_append_of_ne_nil _ hw, List.getLast?_concat] at hlast
    exact absurd (List.mem_of_getLast? hlast) hc
  · rw [← List.append_assoc] at he
    exact ⟨a, b, (List.append_inj' he rfl).1⟩

/-- A text that is cut inside a word is cut before the first character behind the word. -/
theorem eq_nil_of_append_cons {w a m b rest : List Char} {c : Char} (hw : w = a ++ m) (hc : c ∉ w)
    (he : w ++ b = m ++ c :: rest) : a = [] := by
  rcases List.append_eq_append_iff.1 he with ⟨front, hm, -⟩ | ⟨front, hm, hrest⟩
  · have hlength := congrArg List.length (hw.trans (congrArg (a ++ ·) hm))
    rw [List.length_append, List.length_append] at hlength
    exact List.eq_nil_of_length_eq_zero (by omega)
  · cases front with
    | nil =>
      rw [List.append_nil] at hm
      exact List.append_left_eq_self.1 (hw.symm.trans hm)
    | cons d front =>
      obtain rfl := (List.cons.inj hrest).1
      exact absurd (hm ▸ List.mem_append_right m List.mem_cons_self) hc

/-- A name in front of a size in brackets is its last occurrence if the size does not hold it. -/
theorem IsWord.eq_nil_of_append_size {name size a b : List Char} (hname : IsWord name)
    (hsize : ¬ name <:+: size) (he : name ++ '[' :: (size ++ [']']) = a ++ name ++ b) : a = [] := by
  rw [List.append_assoc] at he
  rcases List.append_eq_append_iff.1 he with ⟨m, rfl, hrest⟩ | ⟨m, hm, hrest⟩
  · -- the other occurrence is behind the name, so it is in the brackets
    cases m with
    | nil =>
      obtain ⟨c, r, rfl⟩ := List.exists_cons_of_ne_nil hname.ne_nil
      obtain rfl := (List.cons.inj hrest).1
      exact absurd List.mem_cons_self (hname.not_mem (c := '[') (by decide))
    | cons d m =>
      have hoccurs : name <:+: size ++ [']'] := ⟨m, b, by
        rw [List.append_assoc]
        exact (List.cons.inj hrest).2.symm⟩
      exact absurd (infix_of_infix_concat hname.ne_nil (hname.not_mem (by decide)) hoccurs) hsize
  · exact eq_nil_of_append_cons hm (hname.not_mem (by decide)) hrest

end Text

namespace Declaration

open Text

/-! ### Declarations without a comment -/

/-- What a declaration has as its type when `t` stands in front of its name: that text, or the name
of the type if there is none. -/
def typeText (typeName : String) (t : List Char) : List Char :=
  if trim t = [] then typeName.toList else trim t

namespace Raw

/-- A declaration without a comment and a `len` attribute. -/
def plain (name typeName code : String) : Raw :=
  ⟨name, typeName, code, none, none⟩

section

variable {name typeName code : String} {t after : List Char}
  (hcode : code.toList = t ++ (name.toList ++ after)) (hname : IsWord name.toList)
  (hafter : ∀ c ∈ after, isSpace c = false)

include hcode hname hafter

/-- The name and what follows it have no blank, so only the type is trimmed. -/
theorem declaration_plain :
    (plain name typeName code).declaration = trimStart t ++ (name.toList ++ after) := by
  have hne : name.toList ++ after ≠ [] := fun h => hname.ne_nil (List.append_eq_nil_iff.1 h).1
  have hspace : ∀ c ∈ name.toList ++ after, isSpace c = false := fun c hc =>
    (List.mem_append.1 hc).elim (hname.not_isSpace c) (hafter c)
  have htrim := trim_around (a := t) (b := []) hne hspace
  rw [List.append_nil] at htrim
  show trim code.toList = _
  rw [hcode, htrim]
  exact List.append_nil _

/-- The code is split at the place of the name if no other occurrence is behind it. -/
theorem aroundName_plain
    (hlast : ∀ a b, name.toList ++ after = a ++ name.toList ++ b → a = []) :
    (plain name typeName code).aroundName = (trimStart t, after) := by
  rw [aroundName, declaration_plain hcode hname hafter]
  show (splitLast name.toList _).getD _ = _
  rw [splitLast_of_last hlast (trimStart t)]
  rfl

/-- If the name is found where it is declared, what stands in front of it is the declared type. -/
theorem declaredType_plain
    (hlast : ∀ a b, name.toList ++ after = a ++ name.toList ++ b → a = []) :
    (plain name typeName code).declaredType = typeText typeName t := by
  have htrim : trim (trimStart t) = trim t := congrArg trimEnd (trimStart_trimStart t)
  rw [declaredType, aroundName_plain hcode hname hafter hlast, typeText]
  dsimp only
  rw [htrim]
  split
  · next h => rw [if_pos h]; rfl
  · next h => rw [if_neg h]

end

/-! ### Array sizes -/

/-- A size in brackets has no blanks. -/
theorem not_isSpace_brackets {size : List Char} (hsize : IsWord size) :
    ∀ c ∈ '[' :: (size ++ [']']), isSpace c = false := by
  intro c hc
  rcases List.mem_cons.1 hc with rfl | hc
  · rfl
  · rcases List.mem_append.1 hc with hc | hc
    · exact hsize.not_isSpace c hc
    · rw [List.mem_singleton.1 hc]
      rfl

/-- A size in brackets is the size of the array. -/
theorem arraySize?_brackets {size : List Char} (hsize : IsWord size) :
    arraySize? ('[' :: (size ++ [']'])) = some size := by
  have htake : (size ++ [']']).takeWhile (· ≠ ']') = size := by
    have hne : ∀ c ∈ size, decide (c ≠ ']') = true := fun c hc =>
      decide_eq_true fun he => hsize.not_mem (c := ']') (by decide) (he ▸ hc)
    rw [List.takeWhile_append_of_pos hne]
    exact List.append_nil _
  have htrim : trim size = size :=
    trim_eq_self (fun c hc => hsize.not_isSpace c (List.mem_of_mem_head? hc))
      fun c hc => hsize.not_isSpace c (List.mem_of_getLast? hc)
  rw [arraySize?, trimStart_eq_self fun c hc => by cases hc; rfl]
  show (if (size ++ [']']).contains ']' = true then some (trim ((size ++ [']']).takeWhile _))
    else none) = _
  rw [if_pos (by simp), htake, htrim]

/-- Without an opening bracket there is no size. -/
theorem arraySize?_eq_none {suffix : List Char} (h : '[' ∉ suffix) : arraySize? suffix = none := by
  rw [arraySize?]
  split
  · next inner he =>
    have hmem : '[' ∈ trimStart suffix := he ▸ List.mem_cons_self
    exact absurd ((suffix_trimStart suffix).subset hmem) h
  · rfl

/-- Without the attribute, the length is the size, or the value of the constant it names. -/
theorem arrayLength_plain (ctx : Context) (name typeName code : String) :
    (plain name typeName code).arrayLength ctx =
      .ok ⟨(arraySize? (plain name typeName code).aroundName.2).map fun size =>
        (ctx.constants.get? (String.ofList size)).getD (String.ofList size), false⟩ := by
  rw [arrayLength]
  split
  · next size hsize => rw [hsize]; rfl
  · next hsize => rw [hsize]; rfl

section

variable {name typeName code : String} {t size : List Char}
  (hcode : code.toList = t ++ (name.toList ++ '[' :: (size ++ [']'])))
  (hname : IsWord name.toList) (hsize : IsWord size)

include hcode hname hsize

theorem arraySize?_of_not_occurs (hnot : ¬ name.toList <:+: size) :
    arraySize? (plain name typeName code).aroundName.2 = some size := by
  rw [aroundName_plain hcode hname (not_isSpace_brackets hsize) fun a b =>
    hname.eq_nil_of_append_size hnot]
  exact arraySize?_brackets hsize

/-- A size in which the name occurs is cut apart, and what is left of it has no opening bracket. -/
theorem arraySize?_of_occurs (hoccurs : name.toList <:+: size) :
    arraySize? (plain name typeName code).aroundName.2 = none := by
  obtain ⟨x, y, rfl⟩ := hoccurs
  obtain ⟨a, b, hs⟩ := exists_splitLast [] name.toList (y ++ [']'])
  have he := splitLast_eq_some hs
  -- behind the last occurrence there is only the rest of the size and the closing bracket
  have hb : '[' ∉ b := by
    intro hm
    have hmem : '[' ∈ [] ++ name.toList ++ (y ++ [']']) := he ▸ List.mem_append_right _ hm
    have hy : '[' ∉ y := fun h => hsize.not_mem (c := '[') (by decide) (by simp [h])
    have hn : '[' ∉ name.toList := hname.not_mem (by decide)
    simp [hy, hn] at hmem
  have haround : (plain name typeName code).aroundName =
      (trimStart t ++ name.toList ++ '[' :: x ++ a, b) := by
    rw [aroundName, declaration_plain hcode hname (not_isSpace_brackets hsize)]
    have hfront := splitLast_append hs (trimStart t ++ name.toList ++ '[' :: x)
    simp only [List.nil_append, List.append_assoc, List.cons_append] at hfront ⊢
    show (splitLast name.toList _).getD _ = _
    rw [hfront]
    rfl
  rw [haround]
  exact arraySize?_eq_none hb

end

/-! ### Splitting -/

/-- Blanks are no levels of indirection. -/
theorem indirections_trimStart (t : List Char) :
    indirections (trimStart t) = indirections t := by
  have hblank : indirections (t.takeWhile isSpace) = 0 := by
    refine List.countP_eq_zero.2 fun c hc hmark => ?_
    have hspace : isSpace c = true := List.mem_takeWhile_imp hc
    rcases Bool.or_eq_true_iff.1 hmark with h | h <;>
      (obtain rfl := of_decide_eq_true h; cases hspace)
  calc indirections (trimStart t)
      = indirections (t.takeWhile isSpace) + indirections (trimStart t) := by
        rw [hblank, Nat.zero_add]
    _ = indirections (t.takeWhile isSpace ++ trimStart t) := List.countP_append.symm
    _ = indirections t := congrArg indirections List.takeWhile_append_dropWhile

section

variable (ctx : Context) (index : Nat) (typeName : String) {name code : String}
  {t size : List Char}

/-- A name alone is split off. -/
theorem exists_resolve_name (hcode : code.toList = t ++ (name.toList ++ []))
    (hname : IsWord name.toList)
    (hlevels : ctx.aliases.resolve typeName ∈ ctx.config.opaquePointerTypes →
      indirections t ≠ 0) :
    ∃ v, (plain name typeName code).resolve ctx index = .ok v ∧
      v.declaredType.toList = typeText typeName t ∧ v.arrayLength = none ∧
      v.lengthMember = false := by
  have hlast : ∀ a b, name.toList ++ [] = a ++ name.toList ++ b → a = [] := fun a b =>
    eq_nil_of_append_self
  obtain ⟨v, hv, htype, hlength, hmember⟩ := exists_resolve index
    (arrayLength_plain ctx name typeName code) fun hbehind hzero => hlevels hbehind <| by
      rw [levelsOf_ofList, declaration_plain hcode hname nofun] at hzero
      rw [← indirections_trimStart]
      exact (Nat.add_eq_zero_iff.1 (List.countP_append.symm.trans hzero)).1
  refine ⟨v, hv, ?_, ?_, hmember⟩
  · rw [htype, String.toList_ofList, declaredType_plain hcode hname nofun hlast]
  · rw [hlength, aroundName_plain hcode hname nofun hlast]
    rfl

/-- A name in front of a size in brackets is split off unless the size holds it. -/
theorem exists_resolve_brackets
    (hcode : code.toList = t ++ (name.toList ++ '[' :: (size ++ [']'])))
    (hname : IsWord name.toList) (hsize : IsWord size) :
    ∃ v, (plain name typeName code).resolve ctx index = .ok v ∧ v.lengthMember = false ∧
      (v.arrayLength.isSome = true ↔ ¬ name.toList <:+: size) ∧
      (¬ name.toList <:+: size → v.declaredType.toList = typeText typeName t ∧
        v.arrayLength =
          some ((ctx.constants.get? (String.ofList size)).getD (String.ofList size))) := by
  have hafter := not_isSpace_brackets hsize
  obtain ⟨v, hv, htype, hlength, hmember⟩ := exists_resolve index
    (arrayLength_plain ctx name typeName code) fun _ hzero => by
      -- the bracket of the size is a level, so a type behind a pointer is no matter here
      rw [levelsOf_ofList, declaration_plain hcode hname hafter] at hzero
      have hbracket := List.countP_eq_zero.1 hzero '[' (by simp)
      exact hbracket rfl
  refine ⟨v, hv, hmember, ?_, fun hnot => ?_⟩
  · rw [hlength, Option.isSome_map]
    by_cases hoccurs : name.toList <:+: size
    · rw [arraySize?_of_occurs hcode hname hsize hoccurs]
      exact iff_of_false Bool.false_ne_true (not_not_intro hoccurs)
    · rw [arraySize?_of_not_occurs hcode hname hsize hoccurs]
      exact iff_of_true rfl hoccurs
  · have hlast : ∀ a b, name.toList ++ '[' :: (size ++ [']']) = a ++ name.toList ++ b →
        a = [] := fun a b => hname.eq_nil_of_append_size hnot
    rw [htype, hlength, arraySize?_of_not_occurs hcode hname hsize hnot, String.toList_ofList,
      declaredType_plain hcode hname hafter hlast]
    exact ⟨rfl, rfl⟩

end

/-- A declaration is split at its name.  In front of it stands the declared type, whatever letters
it shares with the name, and an array has the length that the size in brackets stands for.  The
length is lost exactly if the name occurs in the size. -/
theorem resolve_split (ctx : Context) (index : Nat) (typeName t : String) {name : String}
    (hname : IsWord name.toList) :
    ((ctx.aliases.resolve typeName ∈ ctx.config.opaquePointerTypes → levelsOf t ≠ 0) →
      ∃ v, (plain name typeName (t ++ name)).resolve ctx index = .ok v ∧
        v.declaredType.toList = typeText typeName t.toList ∧ v.arrayLength = none ∧
        v.lengthMember = false) ∧
    ∀ size : String, IsWord size.toList →
      ∃ v, (plain name typeName (t ++ name ++ "[" ++ size ++ "]")).resolve ctx index = .ok v ∧
        v.lengthMember = false ∧
        (v.arrayLength.isSome = true ↔ ¬ name.toList <:+: size.toList) ∧
        (¬ name.toList <:+: size.toList → v.declaredType.toList = typeText typeName t.toList ∧
          v.arrayLength = some ((ctx.constants.get? size).getD size)) := by
  refine ⟨fun hlevels => ?_, fun size hsize => ?_⟩
  · refine exists_resolve_name ctx index typeName ?_ hname fun hbehind => ?_
    · rw [String.toList_append, List.append_nil]
    · rw [← levelsOf_ofList, String.ofList_toList]
      exact hlevels hbehind
  · have hcode : (t ++ name ++ "[" ++ size ++ "]").toList =
        t.toList ++ (name.toList ++ '[' :: (size.toList ++ [']'])) := by
      simp
    have hsplit := exists_resolve_brackets ctx index typeName hcode hname hsize
    rw [String.ofList_toList] at hsplit
    exact hsplit

/-- A context with one constant. -/
def withUuidSize : Context :=
  ⟨Config.default, ∅, OrderedMap.ofList [("VK_UUID_SIZE", "16")]⟩

/-- A type in which the name occurs, and a size in which it occurs in capitals. -/
theorem resolve_split_shared_letter :
    (∃ v, (plain "u" "uint8_t" ("const uint8_t* " ++ "u")).resolve withUuidSize 0 = .ok v ∧
      v.declaredType.toList = "const uint8_t*".toList ∧ v.arrayLength = none) ∧
    ∃ v, (plain "u" "uint8_t" ("const uint8_t* " ++ "u" ++ "[" ++ "VK_UUID_SIZE" ++ "]")).resolve
        withUuidSize 0 = .ok v ∧
      v.declaredType.toList = "const uint8_t*".toList ∧ v.arrayLength = some "16" := by
  have hname : IsWord "u".toList := by decide
  have htrim : typeText "uint8_t" "const uint8_t* ".toList = "const uint8_t*".toList := by
    decide +kernel
  obtain ⟨hplain, harray⟩ :=
    resolve_split withUuidSize 0 "uint8_t" "const uint8_t* " hname
  constructor
  · obtain ⟨v, hv, htype, hlength, -⟩ := hplain (by decide)
    exact ⟨v, hv, htype.trans htrim, hlength⟩
  · obtain ⟨v, hv, -, -, hsplit⟩ := harray "VK_UUID_SIZE" (by decide)
    obtain ⟨htype, hlength⟩ := hsplit (by decide)
    exact ⟨v, hv, htype.trans htrim, hlength.trans (by decide +kernel)⟩

/-- Not every size is the length of its array: here the name occurs in the size. -/
theorem not_forall_resolve_split :
    ¬ ∀ name size : String, IsWord name.toList → IsWord size.toList →
      ∃ v, (plain name "uint8_t" ("uint8_t " ++ name ++ "[" ++ size ++ "]")).resolve
          withUuidSize 0 = .ok v ∧
        v.declaredType = "uint8_t" ∧
          v.arrayLength = some ((withUuidSize.constants.get? size).getD size) := by
  intro h
  obtain ⟨v, hv, -, hlength⟩ := h "A" "VK_SIZE_A" (by decide) (by decide)
  have hlost : ((plain "A" "uint8_t" "uint8_t A[VK_SIZE_A]").resolve withUuidSize 0).toOption.map
      (fun v => (v.declaredType, v.arrayLength)) = some ("uint8_t A[VK_SIZE_", none) := by
    decide +kernel
  obtain ⟨v', hv', hv''⟩ := toOption_map_eq_some_iff.1 hlost
  cases hv.symm.trans hv'
  rw [(Prod.mk.inj hv'').2] at hlength
  cases hlength

end Raw

end Declaration

end ApiStencil
