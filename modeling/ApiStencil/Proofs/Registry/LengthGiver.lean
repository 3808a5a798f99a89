/-
ApiStencil/Proofs/Registry/LengthGiver.lean

Which variables give lengths.  In the parameters of a function, the members of a struct
and the choices of a union alike, a variable is marked exactly if one of the list takes
its length from it: one with a `len` attribute that names no member of another struct and
starts with the name (`Variable.TakesLengthFrom`, `build_lengthGivers`).

Marking looks at the resolved variables, so first comes what a variable keeps of its
declaration (`Variable.DeclaredBy`).  Marking changes none of it, nor what the variable
takes its own length from.
-/
import ApiStencil.Proofs.Declaration.Length
import ApiStencil.Proofs.Registry.Origin
import ApiStencil.Proofs.Registry.Variables
import Mathlib.Data.List.TakeWhile

namespace ApiStencil

open Declaration Document Text

/-! ### The word in front of a length -/

/-- Whether a text begins with `word`, a run of at least one word character that no other one
continues. -/
def Text.LeadingWord (text word : List Char) : Prop :=
  word ≠ [] ∧ ∃ rest, text = word ++ rest ∧ (∀ c ∈ word, isWordChar c = true) ∧
    ∀ c, rest.head? = some c → isWordChar c = false

/-- The word at the beginning is what taking word characters takes. -/
theorem Text.leadingWord_iff {text word : List Char} :
    LeadingWord text word ↔ word ≠ [] ∧ text.takeWhile isWordChar = word := by
  refine and_congr_right fun _ => ⟨?_, ?_⟩
  · rintro ⟨rest, rfl, hword, hrest⟩
    rw [List.takeWhile_append_of_pos hword]
    cases rest with
    | nil => exact List.append_nil word
    | cons c r =>
      rw [List.takeWhile_cons_of_neg (Bool.not_eq_true _ ▸ hrest c rfl), List.append_nil]
  · rintro rfl
    refine ⟨text.dropWhile isWordChar, List.takeWhile_append_dropWhile.symm,
      fun c => List.mem_takeWhile_imp, fun c hc => ?_⟩
    have hstop := List.head?_dropWhile_not isWordChar text
    rwa [hc] at hstop

/-! ### Taking a length from a sibling -/

namespace Variable

/-- Whether a variable takes its length from a sibling called `name`: its length comes from an
attribute, is no path and begins with the name. -/
def TakesLengthFrom (v : Variable) (name : String) : Prop :=
  v.lengthMember = true ∧ ∃ length, v.arrayLength = some length ∧
    ¬ arrow <:+: length.toList ∧ LeadingWord length.toList name.toList

/-- The reader finds the name in front of a length exactly if the length is taken from it. -/
theorem lengthSource?_eq_some_iff {v : Variable} {name : String} :
    v.lengthSource? = some name ↔ v.TakesLengthFrom name := by
  rw [lengthSource?, TakesLengthFrom]
  cases v.lengthMember with
  | false =>
    refine iff_of_false nofun ?_
    rintro ⟨hmember, -⟩
    cases hmember
  | true =>
    cases v.arrayLength with
    | none =>
      refine iff_of_false nofun ?_
      rintro ⟨-, length, hlength, -⟩
      cases hlength
    | some length =>
      have harrow : occursIn "->".toList length.toList = true ↔ arrow <:+: length.toList :=
        occursIn_iff
      rw [and_iff_right rfl]
      dsimp only
      constructor
      · intro h
        split at h
        · cases h
        · next hno =>
          cases h
          obtain ⟨hpath, hword⟩ := not_or.1 hno
          refine ⟨length, rfl, mt harrow.2 hpath, ?_⟩
          rw [String.toList_ofList]
          exact leadingWord_iff.2 ⟨hword, rfl⟩
      · rintro ⟨_, ⟨⟩, hpath, hword⟩
        obtain ⟨hne, htake⟩ := leadingWord_iff.1 hword
        rw [htake, if_neg (not_or.2 ⟨mt harrow.1 hpath, hne⟩), String.ofList_toList]

/-! ### What a variable keeps of its declaration -/

/-- What a declaration says about the name and the length of its variable. -/
structure DeclaredBy (v : Variable) (raw : Raw) : Prop where
  name_eq : v.name = raw.name
  lengthMember_iff : v.lengthMember = true ↔ ∃ length, raw.GivesLength length
  arrayLength_eq : ∀ length, raw.GivesLength length → v.arrayLength = some (String.ofList length)
  not_static : raw.IsStatic → ∀ name, ¬ v.TakesLengthFrom name
  not_path : raw.WritesPath → ∀ name, ¬ v.TakesLengthFrom name

/-- A variable keeps the name of its declaration and the length that this gives. -/
theorem declaredBy_of_resolve {ctx : Context} {index : Nat} {raw : Raw} {v : Variable}
    (h : raw.resolve ctx index = .ok v) : v.DeclaredBy raw := by
  obtain ⟨array, baseType, levels, harray, -, rfl⟩ := Raw.resolve_eq_ok_iff.1 h
  obtain ⟨hattribute, hlength⟩ := Raw.hasLength_of_arrayLength harray
  refine ⟨rfl, hattribute, hlength, ?_, ?_⟩
  · rintro hstatic name ⟨hmember, -⟩
    obtain ⟨length, hgives⟩ := hattribute.1 hmember
    exact hgives.1 hstatic
  · rintro hpath name ⟨hmember, text, htext, harrow, -⟩
    obtain ⟨length, hgives⟩ := hattribute.1 hmember
    cases htext.symm.trans (hlength length hgives)
    rw [String.toList_ofList] at harrow
    exact harrow (hgives.arrow_infix hpath)

/-! ### Marking changes none of it -/

theorem takesLengthFrom_markedAmong {vars : List Variable} {v : Variable} {name : String} :
    (v.markedAmong vars).TakesLengthFrom name ↔ v.TakesLengthFrom name := by
  rw [markedAmong_eq]
  rfl

theorem DeclaredBy.markedAmong {raw : Raw} {v : Variable} (h : v.DeclaredBy raw)
    (vars : List Variable) : (v.markedAmong vars).DeclaredBy raw := by
  rw [markedAmong_eq]
  exact ⟨h.name_eq, h.lengthMember_iff, h.arrayLength_eq, h.not_static, h.not_path⟩

/-- A variable that is not marked yet is marked if one of the list takes its length from it. -/
theorem isLength_markedAmong {vars : List Variable} {v : Variable} (hv : v.isLength = false) :
    (v.markedAmong vars).isLength = true ↔ ∃ w ∈ vars, w.TakesLengthFrom v.name := by
  have hsources : v.name ∈ vars.filterMap lengthSource? ↔ ∃ w ∈ vars, w.TakesLengthFrom v.name := by
    rw [List.mem_filterMap]
    simp only [lengthSource?_eq_some_iff]
  rw [← hsources, Variable.markedAmong]
  split
  · next hmem => exact iff_of_true rfl hmem
  · next hmem => exact iff_of_false (Bool.not_eq_true _ ▸ hv) hmem

/-! ### A list of variables -/

/-- Whether `vars` are the variables of a list of declarations: in order, each as it is declared at
its place, and marked if one of them takes its length from it. -/
structure Listed (raws : List Raw) (vars : List Variable) : Prop where
  indices : vars.map index = List.range raws.length
  declared : List.Forall₂ DeclaredBy vars raws
  isLength_iff : ∀ v ∈ vars, v.isLength = true ↔ ∃ w ∈ vars, w.TakesLengthFrom v.name

end Variable

namespace Registry

variable {ctx : Context} {raws : List Raw} {vars : List Variable}

/-- The variables are numbered in the order of their declarations. -/
theorem ResolvesTo.indices (h : ResolvesTo ctx raws vars) :
    vars.map Variable.index = List.range raws.length := by
  have hindex : ∀ (p : Raw × Nat) (v : Variable), p.1.resolve ctx p.2 = .ok v →
      p.2 = v.index := by
    intro p v hv
    obtain ⟨array, baseType, levels, -, -, rfl⟩ := Raw.resolve_eq_ok_iff.1 hv
    rfl
  rw [List.range_eq_range', ← List.zipIdx_map_snd 0 raws]
  symm
  rw [← List.forall₂_eq_eq_eq, List.forall₂_map_left_iff, List.forall₂_map_right_iff]
  exact List.Forall₂.imp hindex h

/-- Each is as it is declared, and none is marked yet. -/
theorem ResolvesTo.declared (h : ResolvesTo ctx raws vars) :
    (∀ v ∈ vars, v.isLength = false) ∧ List.Forall₂ Variable.DeclaredBy vars raws := by
  have hdeclared : ∀ (p : Raw × Nat) (v : Variable), p.1.resolve ctx p.2 = .ok v →
      v.isLength = false ∧ v.DeclaredBy p.1 := by
    intro p v hv
    refine ⟨?_, Variable.declaredBy_of_resolve hv⟩
    obtain ⟨array, baseType, levels, -, -, rfl⟩ := Raw.resolve_eq_ok_iff.1 hv
    rfl
  have hall := List.Forall₂.imp hdeclared h
  rw [← List.forall₂_and_left, ← List.zipIdx_map_fst 0 raws, List.forall₂_map_right_iff]
  exact List.Forall₂.flip hall

/-- After marking, the variables are listed with the marks. -/
theorem ResolvesTo.listed (h : ResolvesTo ctx raws vars) :
    Variable.Listed raws (Variable.markLengths vars) := by
  obtain ⟨hunmarked, hdeclared⟩ := h.declared
  rw [Variable.markLengths_eq_map]
  refine ⟨?_, ?_, ?_⟩
  · rw [← h.indices, List.map_map]
    exact List.map_congr_left fun v _ => Variable.index_markedAmong vars v
  · rw [List.forall₂_map_left_iff]
    exact hdeclared.imp fun v raw hv => hv.markedAmong vars
  -- before marking no variable is marked, so the mark says that one takes its length from it
  · intro v hv
    obtain ⟨u, hu, rfl⟩ := List.mem_map.1 hv
    rw [Variable.isLength_markedAmong (hunmarked u hu)]
    simp only [List.mem_map, exists_exists_and_eq_and, Variable.takesLengthFrom_markedAmong,
      Variable.name_markedAmong]

/-! ### The lists of a registry -/

/-- Whether a list of parts can be read as declarations, and `vars` are their variables. -/
def ListsVariables (raws? : List (Except Declaration.Error Raw)) (vars : List Variable) : Prop :=
  ∃ raws, raws? = raws.map .ok ∧ Variable.Listed raws vars

theorem listsVariables_of_resolveVariables {owner : String}
    {raws? : List (Except Declaration.Error Raw)}
    (h : resolveVariables ctx owner raws? = .ok vars) : ListsVariables raws? vars := by
  obtain ⟨raws, unmarked, hraws, hresolves, rfl⟩ := resolvesTo_of_resolveVariables h
  exact ⟨raws, hraws, hresolves.listed⟩

theorem ListsVariables.length_eq {raws? : List (Except Declaration.Error Raw)}
    (h : ListsVariables raws? vars) : vars.length = raws?.length := by
  obtain ⟨raws, rfl, hlisted⟩ := h
  rw [List.length_map, hlisted.declared.length_eq]

/-- Members and choices put their variables beside what else their declarations say. -/
theorem ListsVariables.map_zip {γ : Type} {members : List Document.Member}
    (h : ListsVariables (members.map Raw.ofMember) vars) (entity : Variable × Document.Member → γ)
    (var : γ → Variable) (hvar : var ∘ entity = Prod.fst) :
    ListsVariables (members.map Raw.ofMember) (((vars.zip members).map entity).map var) := by
  have hlength : vars.length ≤ members.length := by
    rw [h.length_eq, List.length_map]
  rw [List.map_map, hvar, List.map_fst_zip hlength]
  exact h

/-- In a resolved registry, the parameters of every function and the members of every struct or
union are numbered in the order of the declarations for the API, and marked if another one of the
same list takes its length from them. -/
theorem build_lengthGivers {config : Config} {doc : Document} {r : Registry}
    (h : build config doc = .ok r) :
    (∀ f ∈ r.functions.values, ∃ d ∈ doc.keptCommands config, d.prototype.name = f.name ∧
        ListsVariables ((d.apiParams config).map Raw.ofParam) (f.parameters.map Parameter.var)) ∧
      (∀ s ∈ r.structs.values, ∃ t ∈ doc.keptTypes config, t.name = s.name ∧
        t.category = .struct ∧
          ListsVariables ((t.decl.apiMembers config).map Raw.ofMember)
            (s.members.map Member.var)) ∧
      (∀ u ∈ r.unions.values, ∃ t ∈ doc.keptTypes config, t.name = u.name ∧
        t.category = .union ∧
          ListsVariables ((t.decl.apiMembers config).map Raw.ofMember)
            (u.choices.map Choice.var)) := by
  obtain ⟨types, functions, h⟩ := build_eq_ok_iff.1 h
  refine ⟨?_, ?_, ?_⟩
  · intro f hf
    obtain ⟨d, hd, f₀, hcommand, rfl⟩ := h.exists_command hf
    obtain ⟨vars, hvars, rfl⟩ := Function.eq_of_ofCommand hcommand
    refine ⟨d, hd, by rw [Function.name_retype], ?_⟩
    rw [Function.parameters_retype, List.map_map]
    exact (List.map_id vars).symm ▸ listsVariables_of_resolveVariables hvars
  · intro s hs
    obtain ⟨t, ht, s₀, hstruct, rfl⟩ := h.exists_struct hs
    obtain ⟨vars, hvars, rfl⟩ := TypeEntity.eq_of_ofType_struct hstruct
    refine ⟨t, ht, by rw [Struct.name_indexed], TypeEntity.category_of_ofType hstruct, ?_⟩
    rw [Struct.members_indexed]
    exact (listsVariables_of_resolveVariables hvars).map_zip _ _ rfl
  · intro u hu
    rw [h.unions_eq] at hu
    obtain ⟨t, ht, hunion⟩ := h.exists_type selects_union hu
    obtain ⟨vars, hvars, rfl⟩ := TypeEntity.eq_of_ofType_union hunion
    refine ⟨t, ht, rfl, TypeEntity.category_of_ofType hunion, ?_⟩
    exact (listsVariables_of_resolveVariables hvars).map_zip _ _ rfl

/-- Types whose members and choices write a length in every way: a sibling whose name begins like
another one, a division, a static size, both kinds of paths, themselves, and a sibling that another
API counts. -/
def frameTypes : List TypeDecl :=
  let member (name code : String) (len api : Option String) : Document.Member :=
    ⟨len, none, none, none, api, code, [.type "int", .name name]⟩
  let type (name category : String) (l : List Document.Member) : TypeDecl :=
    ⟨some name, none, none, none, some category, none, none, none, .members l⟩
  [type "Frame" "struct" [
      member "row" "int row" none none,
      member "rows" "int rows" none none,
      member "cells" "int* cells" (some "rows,null-terminated") none,
      member "size" "int size" none none,
      member "words" "int* words" (some "latexmath:[\\textrm{size} \\over 4]") none,
      member "limit" "int limit" none none,
      member "fixed" "int fixed[limit]" (some "limit") none,
      member "old" "int* old" (some "limit") (some "other"),
      member "owner" "int* owner" (some "owner::limit") none,
      member "pixels" "int* pixels" (some "owner->limit") none,
      member "self" "int* self" (some "self") none],
    type "Slot" "union" [
      member "rows" "int rows" none none,
      member "size" "int size" none none,
      member "cells" "int* cells" (some "size+rows") none]]

/-- A command that takes a length after what it is the length of. -/
def fillCommand : Command :=
  let param (name code : String) (len : Option String) : Param :=
    ⟨len, none, ⟨name, some "int", code⟩⟩
  .definition ⟨⟨"fill", some "void", "void fill"⟩,
    [param "data" "int* data" (some "count"), param "count" "int count" none,
      param "size" "int size" none], none⟩

/-- A document whose variables take their lengths from siblings in different ways. -/
def frames : Document :=
  [.types frameTypes, .commands [fillCommand]]

/-- The names of the variables that are marked. -/
def markedNames (vars : List Variable) : List String :=
  (vars.filter Variable.isLength).map Variable.name

/-- A sibling whose name only begins like the first word of the length is not marked, and a path, a
static size and a member of another API mark none. -/
theorem build_lengthGivers_frames :
    ∃ r, build Config.default frames = .ok r ∧
      (r.functions.values.map fun f => markedNames (f.parameters.map Parameter.var)) =
        [["count"]] ∧
      (r.structs.values.map fun s => markedNames (s.members.map Member.var)) =
        [["rows", "size", "self"]] ∧
      (r.unions.values.map fun u => markedNames (u.choices.map Choice.var)) = [["size"]] ∧
      (∀ f ∈ r.functions.values, ∃ d ∈ frames.keptCommands Config.default,
        d.prototype.name = f.name ∧ ListsVariables ((d.apiParams Config.default).map Raw.ofParam)
          (f.parameters.map Parameter.var)) ∧
      (∀ s ∈ r.structs.values, ∃ t ∈ frames.keptTypes Config.default, t.name = s.name ∧
        t.category = .struct ∧
          ListsVariables ((t.decl.apiMembers Config.default).map Raw.ofMember)
            (s.members.map Member.var)) ∧
      (∀ u ∈ r.unions.values, ∃ t ∈ frames.keptTypes Config.default, t.name = u.name ∧
        t.category = .union ∧
          ListsVariables ((t.decl.apiMembers Config.default).map Raw.ofMember)
            (u.choices.map Choice.var)) := by
  have hmarks : (build Config.default frames).toOption.map (fun r =>
      (r.functions.values.map fun f => markedNames (f.parameters.map Parameter.var),
        r.structs.values.map fun s => markedNames (s.members.map Member.var),
        r.unions.values.map fun u => markedNames (u.choices.map Choice.var))) =
      some ([["count"]], [["rows", "size", "self"]], [["size"]]) := by
    decide +kernel
  obtain ⟨r, h, hmarks⟩ := toOption_map_eq_some_iff.1 hmarks
  obtain ⟨hfunctions, hmarks⟩ := Prod.mk.inj hmarks
  obtain ⟨hstructs, hunions⟩ := Prod.mk.inj hmarks
  exact ⟨r, h, hfunctions, hstructs, hunions, build_lengthGivers h⟩

end Registry

end ApiStencil
