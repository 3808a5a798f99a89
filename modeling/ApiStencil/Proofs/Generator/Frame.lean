/-
ApiStencil/Proofs/Generator/Frame.lean

What a run can change.  Targets have names of their own, and a run is asked for a list
of them (`findTargets_eq_ok_iff`), which it generates document by document
(`inOrder_perm`).  It changes nothing except by bringing files of these targets up to
date, so what every such update keeps, the run keeps (`files_run`).
-/
import ApiStencil.Generator.Run
import ApiStencil.Proofs.Except
import ApiStencil.Proofs.FileTree.Sibling

namespace ApiStencil.Generator

open Output

/-! ### Names -/

theorem Target.isName : ∀ target ∈ Target.all, Path.IsName target.name := by
  decide +kernel

theorem DocumentName.isName (document : DocumentName) : Path.IsName document.fileName := by
  cases document <;> decide +kernel

theorem Target.name_ne_fileName (document : DocumentName) :
    ∀ target ∈ Target.all, document.fileName ≠ target.name := by
  cases document <;> decide +kernel

theorem DocumentName.fileName_injective : DocumentName.fileName.Injective := by
  intro a b h
  cases a <;> cases b <;> first | rfl | exact absurd h (by decide)

theorem Target.eq_of_name : ∀ a ∈ Target.all, ∀ b ∈ Target.all, a.name = b.name → a = b := by
  intro a ha b hb
  simp only [Target.all, List.mem_cons, List.not_mem_nil, or_false] at ha hb
  rcases ha with rfl | rfl | rfl | rfl | rfl <;> rcases hb with rfl | rfl | rfl | rfl | rfl <;>
    first | exact fun _ => rfl | exact fun h => absurd h (by decide)

/-- A target is found by its name and by nothing else. -/
theorem Target.find?_eq_some_iff {name : String} {target : Target} :
    Target.find? name = some target ↔ target ∈ Target.all ∧ target.name = name := by
  constructor
  · intro h
    exact ⟨List.mem_of_find?_eq_some h, by simpa using List.find?_some h⟩
  · rintro ⟨hmem, rfl⟩
    cases h : Target.find? target.name with
    | none =>
      have hnone := List.find?_eq_none.1 h target hmem
      simp at hnone
    | some other =>
      have hname : other.name = target.name := by simpa using List.find?_some h
      rw [Target.eq_of_name _ (List.mem_of_find?_eq_some h) _ hmem hname]

theorem Target.find?_name {target : Target} (h : target ∈ Target.all) :
    Target.find? target.name = some target :=
  Target.find?_eq_some_iff.2 ⟨h, rfl⟩

/-! ### What a run changes -/

/-- Generates targets one after the other. -/
def attempts (around : Surroundings) (request : Request) :
    List (Target × Registry) → State → List (Target × Except TargetError Outcome) × State
  | [], s => ([], s)
  | (target, r) :: jobs, s =>
    let (outcome, s) := generate around request r target s
    let (outcomes, s) := attempts around request jobs s
    ((target, outcome) :: outcomes, s)

/-- The event that reports an outcome. -/
def verdict (target : Target) : Except TargetError Outcome → Event
  | .ok .written => .written target.name
  | .ok .unchanged => .upToDate target.name
  | .ok (.mismatch _) => .outOfDate target.name
  | .error e => .failed target.name e

/-- What is printed about an outcome. -/
def shown (target : Target) : Except TargetError Outcome → List String
  | .ok (.mismatch difference) =>
    ["--- " ++ target.name ++ "\n+++ " ++ target.name ++ " (generated)\n" ++ difference]
  | _ => []

/-- Whether an outcome is a success. -/
def isGood : Except TargetError Outcome → Bool
  | .ok .written | .ok .unchanged => true
  | _ => false

/-- Whether bringing the files of targets up to date keeps a property of the tree. -/
def Keeps (around : Surroundings) (request : Request) (targets : List Target)
    (P : FileTree String → Prop) : Prop :=
  ∀ target ∈ targets, ∀ text files, P files →
    P (update files around.directory (outputPath request target) text request.mode).2

section

variable {around : Surroundings} {request : Request} {P : FileTree String → Prop}
  {target : Target} {targets : List Target} {r : Registry} {s : State}
  {jobs : List (Target × Registry)} {groups : List (DocumentName × List Target)}

theorem Keeps.mono {targets' : List Target} (h : Keeps around request targets P)
    (hsub : targets' ⊆ targets) : Keeps around request targets' P :=
  fun target ht => h target (hsub ht)

/-- An outcome is reported with its event and what is printed, and decides about the success of the
run. -/
theorem conclude_eq (s : State) (target : Target) (outcome : Except TargetError Outcome) :
    conclude s target outcome =
      { s with
        log := s.log ++ [verdict target outcome]
        printed := s.printed ++ shown target outcome
        success := s.success && isGood outcome } := by
  obtain ⟨files, cache, log, printed, missing, success⟩ := s
  cases outcome with
  | error e => simp [conclude, State.report, verdict, shown, isGood]
  | ok o => cases o <;> simp [conclude, State.report, verdict, shown, isGood]

/-- The outcomes are reported in their order. -/
theorem foldl_conclude (outcomes : List (Target × Except TargetError Outcome)) (s : State) :
    outcomes.foldl (fun s o => conclude s o.1 o.2) s =
      { s with
        log := s.log ++ outcomes.map fun o => verdict o.1 o.2
        printed := s.printed ++ outcomes.flatMap fun o => shown o.1 o.2
        success := s.success && outcomes.all fun o => isGood o.2 } := by
  induction outcomes generalizing s with
  | nil => simp
  | cons o outcomes ih =>
    rw [List.foldl_cons, ih, conclude_eq]
    simp [Bool.and_assoc]

/-- The targets are attempted in their order. -/
theorem foldl_generate (jobs : List (Target × Registry))
    (acc : List (Target × Except TargetError Outcome)) (s : State) :
    jobs.foldl (fun (outcomes, s) (target, r) =>
      let (outcome, s) := generate around request r target s
      (outcomes ++ [(target, outcome)], s)) (acc, s) =
    (acc ++ (attempts around request jobs s).1, (attempts around request jobs s).2) := by
  induction jobs generalizing acc s with
  | nil => rw [attempts, List.append_nil, List.foldl_nil]
  | cons job jobs ih =>
    rw [List.foldl_cons]
    dsimp only
    rw [ih, List.append_assoc]
    rfl

/-- Generating targets is attempting them one after the other, and then reporting. -/
theorem generateAll_eq (jobs : List (Target × Registry)) (s : State) :
    generateAll around request jobs s =
      { (attempts around request jobs s).2 with
        log := (attempts around request jobs s).2.log ++
          (attempts around request jobs s).1.map fun o => verdict o.1 o.2
        printed := (attempts around request jobs s).2.printed ++
          (attempts around request jobs s).1.flatMap fun o => shown o.1 o.2
        success := (attempts around request jobs s).2.success &&
          (attempts around request jobs s).1.all fun o => isGood o.2 } := by
  rw [generateAll, foldl_generate]
  exact foldl_conclude _ _

/-- Generating one target keeps what bringing its file up to date keeps. -/
theorem files_generate (h : Keeps around request targets P) (ht : target ∈ targets)
    (hs : P s.files) : P (generate around request r target s).2.files := by
  rw [generate]
  cases content target r with
  | error e => exact hs
  | ok text => exact h target ht _ s.files hs

/-- So does generating several, for reporting leaves the files alone. -/
theorem files_generateAll (h : Keeps around request targets P) (ht : jobs.map Prod.fst ⊆ targets)
    (hs : P s.files) : P (generateAll around request jobs s).files := by
  rw [generateAll_eq]
  change P (attempts around request jobs s).2.files
  induction jobs generalizing s with
  | nil => exact hs
  | cons job jobs ih =>
    rw [List.map_cons, List.cons_subset] at ht
    exact ih ht.2 (files_generate h ht.1 hs)

/-- Loading leaves the files alone, and gives each target a registry. -/
theorem files_loadAll (around : Surroundings) (path : String) (source : Cache.Source)
    (targets : List Target) (s : State) :
    (loadAll around path source targets s).2.files = s.files ∧
      ∀ jobs, (loadAll around path source targets s).1 = .ok jobs →
        jobs.map Prod.fst = targets := by
  induction targets generalizing s with
  | nil =>
    refine ⟨rfl, ?_⟩
    rintro jobs ⟨⟩
    rfl
  | cons target targets ih =>
    rw [loadAll]
    dsimp only
    split
    · exact ⟨rfl, nofun⟩
    · obtain ⟨hfiles, hfst⟩ := ih _
      refine ⟨hfiles, fun jobs h => ?_⟩
      obtain ⟨rest, hrest, rfl⟩ := map_eq_ok_iff.1 h
      rw [List.map_cons, hfst rest hrest]

/-- So does generating the targets of one document after the other, whether or not it goes on to the
end. -/
theorem files_runDocuments (h : Keeps around request targets P)
    (ht : ∀ group ∈ groups, group.2 ⊆ targets) (hs : P s.files) :
    P (runDocuments around request groups s).files := by
  induction groups generalizing s with
  | nil => exact hs
  | cons group groups ih =>
    obtain ⟨hgroup, ht⟩ := List.forall_mem_cons.1 ht
    rw [runDocuments]
    split
    · exact hs
    · next text _ =>
      obtain ⟨hfiles, hfst⟩ := files_loadAll around (documentPath request group.1)
        (sourceOf around text) group.2 s
      split
      · next hload =>
        rw [hload] at hfiles
        exact hfiles ▸ hs
      · next jobs s' hload =>
        rw [hload] at hfiles hfst
        refine ih ht (files_generateAll h ?_ (hfiles ▸ hs))
        rw [hfst jobs rfl]
        exact hgroup

end

/-! ### Requested targets -/

/-- Targets in the order in which they are generated. -/
def inOrder (targets : List Target) : List Target :=
  (byDocument targets).flatMap Prod.snd

section

variable {names : List String} {targets : List Target} {target : Target}
  {group : DocumentName × List Target}

/-- What a run is asked for: all targets, or those with the given names in the given order. -/
theorem findTargets_eq_ok_iff : findTargets names = .ok targets ↔
    names = [] ∧ targets = Target.all ∨
      names ≠ [] ∧ targets ⊆ Target.all ∧ targets.map Target.name = names := by
  rw [findTargets]
  by_cases h : names = []
  · rw [if_pos h, Except.ok.injEq, and_iff_right h, or_iff_left fun h' => h'.1 h]
    exact eq_comm
  · rw [if_neg h, or_iff_right fun h' => h h'.1, and_iff_right h]
    clear h
    -- by induction on the names, of which each has to be found
    induction names generalizing targets with
    | nil =>
      refine ⟨?_, fun h => ?_⟩
      · rintro ⟨⟩
        exact ⟨List.nil_subset _, rfl⟩
      · rw [List.map_eq_nil_iff.1 h.2]
        rfl
    | cons name names ih =>
      rw [List.mapM_cons, bind_eq_ok_iff]
      constructor
      · rintro ⟨first, hfirst, h⟩
        obtain ⟨rest, hrest, h⟩ := bind_eq_ok_iff.1 h
        cases h
        cases hfind : Target.find? name with
        | none =>
          rw [hfind] at hfirst
          cases hfirst
        | some found =>
          rw [hfind] at hfirst
          cases hfirst
          obtain ⟨hmem, hname⟩ := Target.find?_eq_some_iff.1 hfind
          obtain ⟨hsub, hnames⟩ := ih.1 hrest
          exact ⟨List.cons_subset.2 ⟨hmem, hsub⟩, by rw [List.map_cons, hname, hnames]⟩
      · rintro ⟨hsub, hnames⟩
        obtain ⟨first, rest, rfl, rfl, rfl⟩ := List.map_eq_cons_iff.1 hnames
        rw [List.cons_subset] at hsub
        refine ⟨first, by rw [Target.find?_name hsub.1], ?_⟩
        rw [ih.2 ⟨hsub.2, rfl⟩]
        rfl

/-- A run is asked for nothing but targets. -/
theorem subset_all_of_findTargets (h : findTargets names = .ok targets) :
    targets ⊆ Target.all := by
  rcases findTargets_eq_ok_iff.1 h with ⟨-, rfl⟩ | ⟨-, hsub, -⟩
  · exact List.Subset.refl _
  · exact hsub

/-- One unknown name is enough for a run to find no targets. -/
theorem findTargets_of_unknown {name : String} (hmem : name ∈ names)
    (h : Target.find? name = none) : ∃ unknown, findTargets names = .error unknown := by
  cases hfind : findTargets names with
  | error unknown => exact ⟨unknown, rfl⟩
  | ok targets =>
    rcases findTargets_eq_ok_iff.1 hfind with ⟨rfl, -⟩ | ⟨-, hsub, rfl⟩
    · cases hmem
    · obtain ⟨target, ht, rfl⟩ := List.mem_map.1 hmem
      rw [Target.find?_name (hsub ht)] at h
      cases h

theorem findTargets_name (h : target ∈ Target.all) : findTargets [target.name] = .ok [target] :=
  findTargets_eq_ok_iff.2
    (.inr ⟨List.cons_ne_nil _ _, List.cons_subset.2 ⟨h, List.nil_subset _⟩, rfl⟩)

/-- A group has the targets of its document, in the order in which they are asked for, and there is
one. -/
theorem eq_filter_of_mem_byDocument (h : group ∈ byDocument targets) :
    group.2 = targets.filter (·.document = group.1) ∧ group.2 ≠ [] := by
  obtain ⟨document, -, h⟩ := List.mem_filterMap.1 h
  cases hl : targets.filter (·.document = document) with
  | nil =>
    rw [hl] at h
    cases h
  | cons first rest =>
    rw [hl] at h
    cases h
    exact ⟨hl.symm, List.cons_ne_nil _ _⟩

/-- A target in a group needs the document of the group. -/
theorem document_of_mem_byDocument (h : group ∈ byDocument targets) (ht : target ∈ group.2) :
    target ∈ targets ∧ target.document = group.1 := by
  rw [(eq_filter_of_mem_byDocument h).1, List.mem_filter] at ht
  exact ⟨ht.1, of_decide_eq_true ht.2⟩

/-- The targets of the first document come before those of the second. -/
theorem inOrder_eq (targets : List Target) :
    inOrder targets =
      targets.filter (·.document = .api) ++ targets.filter (·.document = .video) := by
  rw [inOrder, byDocument, List.filterMap_cons, List.filterMap_cons, List.filterMap_nil]
  cases targets.filter (·.document = .api) with
  | nil => cases targets.filter (·.document = .video) <;> simp
  | cons => cases targets.filter (·.document = .video) <;> simp

/-- The order in which targets are generated is another order of those that are asked for. -/
theorem inOrder_perm (targets : List Target) : (inOrder targets).Perm targets := by
  have hrest : targets.filter (·.document = .video) =
      targets.filter fun t => !decide (t.document = .api) := by
    refine List.filter_congr fun target _ => ?_
    cases target.document <;> rfl
  rw [inOrder_eq, hrest]
  exact List.filter_append_perm _ _

end

/-- Bringing the files of the requested targets up to date is all that a run does to the files. -/
theorem files_run {around : Surroundings} {request : Request} {files : FileTree String}
    {P : FileTree String → Prop}
    (h : ∀ targets, findTargets request.targets = .ok targets → Keeps around request targets P)
    (hfiles : P files) : P (run around request files).files := by
  rw [run]
  cases hfind : findTargets request.targets with
  | error name => exact hfiles
  | ok targets =>
    exact files_runDocuments (h targets hfind)
      (fun group hg target ht => (document_of_mem_byDocument hg ht).1) hfiles

end ApiStencil.Generator
