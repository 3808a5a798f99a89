/-
ApiStencil/Proofs/Generator/Alone.lean

Targets are independent.  In a run that is not aborted, every target comes to what it
would come to in a run for this target alone, and its file holds the same
(`run_independent`).

What the files of the other targets do to a target is taken care of by `Alike`: a tree
stays alike for a target while other targets are generated (`alike_filesAfter`), and in
trees that are alike it comes to the same (`outcome_of_alike`).  For the same reason the
order in which targets are generated is immaterial (`generateAll_perm`).  Where something
is written, this needs that the path of the output directory does not stray.  If double
dots in it lead back out of a directory that is missing, the first target that is
written makes this directory, and only then are the files of the others found
(`not_forall_splits`).
-/
import ApiStencil.Proofs.Generator.Again
import ApiStencil.Proofs.Generator.Template

namespace ApiStencil.Generator

open Output

/-- The same request for one target only. -/
def Request.alone (request : Request) (target : Target) : Request :=
  { request with targets := [target.name] }

/-- Whether a run comes to the same as the runs for each of its targets alone. -/
structure Splits (around : Surroundings) (request : Request) (files : FileTree String)
    (targets : List Target) : Prop where
  /-- A run for one target says what has become of this target, and nothing else. -/
  alone : ∀ target ∈ targets, ∃ outcome,
    (run around (request.alone target) files).verdicts = [verdict target outcome] ∧
      (run around (request.alone target) files).printed = shown target outcome
  verdicts : (run around request files).verdicts =
    (inOrder targets).flatMap fun target => (run around (request.alone target) files).verdicts
  printed : (run around request files).printed =
    (inOrder targets).flatMap fun target => (run around (request.alone target) files).printed
  file : ∀ target ∈ targets,
    fileIn around.directory request.output target.name (run around request files).files =
      fileIn around.directory request.output target.name
        (run around (request.alone target) files).files

section

variable {around : Surroundings} {request : Request} {files t t' : FileTree String}
  {job : Target × Registry} {jobs jobs' : List (Target × Registry)} {targets : List Target}
  {m : String}
  {registries : DocumentName → Option Registry}

/-! ### Jobs that do not disturb each other -/

/-- Whether two trees are alike for the file of a target. -/
def AlikeFor (around : Surroundings) (request : Request) (name : String)
    (t t' : FileTree String) : Prop :=
  Alike around.directory request.output request.mode name t t'

/-- A target comes to the same in trees that are alike for it. -/
theorem outcome_of_alike (h : AlikeFor around request job.1.name t t')
    (hn : Path.IsName job.1.name) :
    (produce around request job t).1 = (produce around request job t').1 ∧
      AlikeFor around request job.1.name (produce around request job t).2
        (produce around request job t').2 := by
  rw [produce, produce]
  cases finished around request job with
  | error e => exact ⟨rfl, h⟩
  | ok text => exact ⟨congrArg (Except.mapError _) (h.answer hn text), h.update hn text⟩

/-- Generating another target keeps trees alike. -/
theorem alike_produce (h : AlikeFor around request m t t') (hm : Path.IsName m)
    (hn : Path.IsName job.1.name) (hne : m ≠ job.1.name) :
    AlikeFor around request m t (produce around request job t').2 := by
  rw [produce]
  cases finished around request job with
  | error e => exact h
  | ok text => exact h.update_of_ne hm hn hne text

/-- Trees stay alike for a target while others are generated. -/
theorem alike_filesAfter (h : AlikeFor around request m t t') (hm : Path.IsName m)
    (hn : ∀ job ∈ jobs, Path.IsName job.1.name) (hne : m ∉ jobs.map (·.1.name)) :
    AlikeFor around request m t (filesAfter around request jobs t') := by
  induction jobs generalizing t' with
  | nil => exact h
  | cons job jobs ih =>
    obtain ⟨hjob, hn⟩ := List.forall_mem_cons.1 hn
    rw [List.map_cons, List.mem_cons, not_or] at hne
    exact ih (alike_produce h hm hjob hne.1) hn hne.2

/-- Targets with different names come to what each of them comes to in trees that are alike for
it, one after the other. -/
theorem outcomes_of_alike (hn : ∀ job ∈ jobs, Path.IsName job.1.name)
    (hnodup : (jobs.map (·.1.name)).Nodup)
    (h : ∀ job ∈ jobs, AlikeFor around request job.1.name files t) :
    (outcomes around request jobs t =
      jobs.map fun job => (job.1, (produce around request job files).1)) ∧
      ∀ job ∈ jobs, AlikeFor around request job.1.name (produce around request job files).2
        (filesAfter around request jobs t) := by
  induction jobs generalizing t with
  | nil => exact ⟨rfl, nofun⟩
  | cons job jobs ih =>
    obtain ⟨hjob, hn⟩ := List.forall_mem_cons.1 hn
    obtain ⟨hfirst, h⟩ := List.forall_mem_cons.1 h
    rw [List.map_cons, List.nodup_cons] at hnodup
    obtain ⟨hout, hafter⟩ := outcome_of_alike hfirst hjob
    -- the first target does not disturb the others, and later they do not disturb it
    have hrest : ∀ other ∈ jobs, AlikeFor around request other.1.name files
        (produce around request job t).2 := by
      intro other hother
      refine alike_produce (h other hother) (hn other hother) hjob fun hname => hnodup.1 ?_
      exact hname ▸ List.mem_map_of_mem hother
    obtain ⟨houts, hafters⟩ := ih hn hnodup.2 hrest
    refine ⟨?_, List.forall_mem_cons.2 ⟨?_, hafters⟩⟩
    · rw [outcomes, houts, ← hout]
      rfl
    · change AlikeFor around request job.1.name _
        (filesAfter around request jobs (produce around request job t).2)
      exact alike_filesAfter hafter hjob hn hnodup.1

/-- Targets with different names come to the same in every order, and each leaves the same file.  So
it is immaterial in which order they are generated, and whether one is done before the next one
starts. -/
theorem outcomes_perm (hn : ∀ job ∈ jobs, Path.IsName job.1.name)
    (hnodup : (jobs.map (·.1.name)).Nodup)
    (hstrays : request.mode ≠ .verify →
      ¬ Path.Strays files [] (namesTo around.directory request.output))
    (hperm : jobs.Perm jobs') :
    (outcomes around request jobs files).Perm (outcomes around request jobs' files) ∧
      ∀ job ∈ jobs,
        fileIn around.directory request.output job.1.name (filesAfter around request jobs files) =
          fileIn around.directory request.output job.1.name
            (filesAfter around request jobs' files) := by
  have hn' : ∀ job ∈ jobs', Path.IsName job.1.name := fun job h => hn job (hperm.mem_iff.2 h)
  -- in both orders each target comes to what it comes to in the files at the start
  obtain ⟨houts, hafter⟩ := outcomes_of_alike hn hnodup fun job _ => Alike.refl job.1.name hstrays
  obtain ⟨houts', hafter'⟩ := outcomes_of_alike hn' ((hperm.map _).nodup_iff.1 hnodup)
    fun job _ => Alike.refl job.1.name hstrays
  rw [houts, houts']
  refine ⟨hperm.map _, fun job hjob => ?_⟩
  have hfile := (hafter job hjob).fileIn_eq (hn job hjob)
  have hfile' := (hafter' job (hperm.mem_iff.1 hjob)).fileIn_eq (hn job hjob)
  exact hfile.symm.trans hfile'

/-- The order in which the targets of a document are generated shows in the order of the reports
only. -/
theorem generateAll_perm {s : State} (hformat : request.format = false ∨ around.format.Steady)
    (hmissing : s.formatterMissing = true → around.format.Missing)
    (hn : ∀ job ∈ jobs, Path.IsName job.1.name) (hnodup : (jobs.map (·.1.name)).Nodup)
    (hstrays : request.mode ≠ .verify →
      ¬ Path.Strays s.files [] (namesTo around.directory request.output))
    (hperm : jobs.Perm jobs') :
    (generateAll around request jobs s).verdicts.Perm
        (generateAll around request jobs' s).verdicts ∧
      (generateAll around request jobs s).printed.Perm
        (generateAll around request jobs' s).printed ∧
      (generateAll around request jobs s).success =
        (generateAll around request jobs' s).success ∧
      ∀ job ∈ jobs,
        fileIn around.directory request.output job.1.name
            (generateAll around request jobs s).files =
          fileIn around.directory request.output job.1.name
            (generateAll around request jobs' s).files := by
  obtain ⟨hdoes, -, -⟩ := does_generateAll hformat hmissing jobs
  obtain ⟨hdoes', -, -⟩ := does_generateAll hformat hmissing jobs'
  obtain ⟨houts, hfiles⟩ := outcomes_perm hn hnodup hstrays hperm
  refine ⟨?_, ?_, ?_, fun job hjob => ?_⟩
  · rw [hdoes.verdicts, hdoes'.verdicts]
    exact (houts.map _).append_left _
  · rw [hdoes.printed, hdoes'.printed]
    exact (houts.flatMap_right _).append_left _
  · rw [hdoes.success, hdoes'.success, houts.all_eq]
  · rw [hdoes.files, hdoes'.files]
    exact hfiles job hjob

/-! ### The jobs of a run -/

/-- A run that is ready has one job for each of its targets. -/
theorem map_fst_jobsFor (hready : Ready around request files targets) :
    (jobsFor around request files targets).map Prod.fst = inOrder targets := by
  have hall : ∀ target ∈ inOrder targets,
      (resolved? around request target.document files).isSome := fun target ht =>
    hready target ((inOrder_perm targets).mem_iff.1 ht)
  rw [jobsFor]
  generalize inOrder targets = ordered at hall ⊢
  induction ordered with
  | nil => rfl
  | cons target rest ih =>
    obtain ⟨hfirst, hall⟩ := List.forall_mem_cons.1 hall
    obtain ⟨r, hr⟩ := Option.isSome_iff_exists.1 hfirst
    rw [List.filterMap_cons_some (by rw [hr]; rfl), List.map_cons, ih hall]

theorem nodup_names (hfind : findTargets request.targets = .ok targets)
    (hnodup : request.targets.Nodup) : (targets.map Target.name).Nodup := by
  rcases findTargets_eq_ok_iff.1 hfind with ⟨-, rfl⟩ | ⟨-, -, hnames⟩
  · decide +kernel
  · exact hnames ▸ hnodup

/-- What a run for one target alone comes to. -/
theorem does_alone (hformat : request.format = false ∨ around.format.Steady)
    (hall : targets ⊆ Target.all) (hjob : job ∈ jobsFor around request files targets) :
    (run around (request.alone job.1) files).files = (produce around request job files).2 ∧
      (run around (request.alone job.1) files).verdicts =
        [verdict job.1 (produce around request job files).1] ∧
      (run around (request.alone job.1) files).printed =
        shown job.1 (produce around request job files).1 := by
  obtain ⟨htarget, hr⟩ := listed_of_mem_jobsFor hall hjob
  have hready : Ready around (request.alone job.1) files [job.1] := by
    intro target ht
    rw [List.mem_singleton.1 ht]
    exact Option.isSome_iff_exists.2 ⟨job.2, hr⟩
  have hjobs : jobsFor around (request.alone job.1) files [job.1] = [job] := by
    have horder : inOrder [job.1] = [job.1] := List.perm_singleton.1 (inOrder_perm [job.1])
    rw [jobsFor, horder]
    exact List.filterMap_cons_some (congrArg (Option.map _) hr)
  have hdoes : Does around (request.alone job.1) [job] (start files)
      (run around (request.alone job.1) files) :=
    hjobs ▸ does_run hformat (findTargets_name htarget) hready
  exact ⟨hdoes.files, hdoes.verdicts, hdoes.printed.trans (List.append_nil _)⟩

/-- The events that report a success. -/
theorem good_verdict_iff {target : Target} {outcome : Except TargetError Outcome} {name : String} :
    verdict target outcome = .written name ∨ verdict target outcome = .upToDate name ↔
      target.name = name ∧ isGood outcome = true := by
  cases outcome with
  | error e => simp [verdict, isGood]
  | ok o => cases o <;> simp [verdict, isGood]

theorem verdict_ne_aborted {target : Target} {outcome : Except TargetError Outcome} {a : Abort} :
    verdict target outcome ≠ .aborted a := by
  cases outcome with
  | error e => simp [verdict]
  | ok o => cases o <;> simp [verdict]

/-- Whether a run is aborted. -/
theorem aborted_iff (hformat : request.format = false ∨ around.format.Steady) :
    (∃ a, .aborted a ∈ (run around request files).log) ↔
      ¬ ∃ targets, findTargets request.targets = .ok targets ∧
        Ready around request files targets := by
  constructor
  -- a run that is ready reports nothing but what became of its targets
  · rintro ⟨a, ha⟩ ⟨targets, hfind, hready⟩
    have hverdict : .aborted a ∈ (run around request files).verdicts :=
      List.mem_filter.2 ⟨ha, rfl⟩
    rw [(does_run hformat hfind hready).verdicts] at hverdict
    obtain ⟨o, -, ho⟩ := List.mem_map.1 hverdict
    exact verdict_ne_aborted ho
  · intro h
    -- a run that is not ready is stopped by an unknown name or by a document
    cases hfind : findTargets request.targets with
    | error unknown =>
      exact ⟨_, (aborts_run_of_unknown hfind around files).1 ▸ List.mem_singleton.2 rfl⟩
    | ok targets =>
      exact (aborts_run hformat hfind fun hready => h ⟨targets, hfind, hready⟩).1

/-- They still have them in the order in which they are generated. -/
theorem nodup_inOrder (hfind : findTargets request.targets = .ok targets)
    (hnodup : request.targets.Nodup) : ((inOrder targets).map Target.name).Nodup :=
  ((inOrder_perm targets).map _).nodup_iff.2 (nodup_names hfind hnodup)

/-- And so have the jobs of a run. -/
theorem nodup_jobsFor (hfind : findTargets request.targets = .ok targets)
    (hready : Ready around request files targets) (hnodup : request.targets.Nodup) :
    ((jobsFor around request files targets).map (·.1.name)).Nodup := by
  have h := nodup_inOrder hfind hnodup
  rw [← map_fst_jobsFor hready, List.map_map] at h
  exact h

/-- Each target of a run that is ready has a job. -/
theorem exists_job (hready : Ready around request files targets) {target : Target}
    (ht : target ∈ targets) : ∃ r, (target, r) ∈ jobsFor around request files targets := by
  have hmem : target ∈ (jobsFor around request files targets).map Prod.fst :=
    map_fst_jobsFor hready ▸ (inOrder_perm targets).mem_iff.2 ht
  obtain ⟨⟨_, r⟩, h, rfl⟩ := List.mem_map.1 hmem
  exact ⟨r, h⟩

/-- A log of outcomes for targets with different names says for each whether it is a success. -/
theorem success_iff {s : State} {os : List (Target × Except TargetError Outcome)}
    (hnodup : (os.map (·.1.name)).Nodup)
    (hverdicts : s.verdicts = os.map fun o => verdict o.1 o.2)
    (hsuccess : s.success = os.all fun o => isGood o.2) :
    s.success = true ↔ ∀ o ∈ os, .written o.1.name ∈ s.log ∨ .upToDate o.1.name ∈ s.log := by
  have hlog : ∀ e : Event, e.isRemark = false →
      (e ∈ s.log ↔ ∃ o ∈ os, verdict o.1 o.2 = e) := by
    intro e he
    rw [← List.mem_map, ← hverdicts, State.verdicts, List.mem_filter, he]
    exact (and_iff_left rfl).symm
  rw [hsuccess, List.all_eq_true]
  refine forall₂_congr fun o ho => ?_
  rw [hlog _ rfl, hlog _ rfl, ← exists_or]
  simp only [← and_or_left, good_verdict_iff]
  constructor
  · intro hgood
    exact ⟨o, ho, rfl, hgood⟩
  · rintro ⟨other, hother, hname, hgood⟩
    -- a verdict with the name of this target is its own
    rw [List.inj_on_of_nodup_map hnodup ho hother hname.symm]
    exact hgood

/-- A run succeeds if every target has been written or is up to date. -/
theorem success_run (hformat : request.format = false ∨ around.format.Steady)
    (hnodup : request.targets.Nodup) (hfind : findTargets request.targets = .ok targets)
    (hready : Ready around request files targets) :
    (run around request files).success = true ↔ ∀ target ∈ targets,
      .written target.name ∈ (run around request files).log ∨
        .upToDate target.name ∈ (run around request files).log := by
  obtain ⟨-, hverdicts, -, hsuccess⟩ := does_run hformat hfind hready
  rw [start] at hverdicts hsuccess
  have hfst : (outcomes around request (jobsFor around request files targets) files).map Prod.fst =
      inOrder targets := by
    rw [map_fst_outcomes, map_fst_jobsFor hready]
  have hnames := nodup_inOrder hfind hnodup
  rw [← hfst, List.map_map] at hnames
  rw [success_iff hnames hverdicts hsuccess]
  constructor
  · intro h target ht
    rw [← (inOrder_perm targets).mem_iff, ← hfst] at ht
    obtain ⟨o, ho, rfl⟩ := List.mem_map.1 ht
    exact h o ho
  · intro h o ho
    refine h o.1 ((inOrder_perm targets).mem_iff.1 ?_)
    exact hfst ▸ List.mem_map_of_mem ho

/-- A run comes to the same as the runs for each of its targets alone. Each of these starts in the
first tree and not in the one that the targets before have left, and the two are alike for the
target. -/
theorem splits_run (hformat : request.format = false ∨ around.format.Steady)
    (hnodup : request.targets.Nodup)
    (hstrays : request.mode ≠ .verify →
      ¬ Path.Strays files [] (namesTo around.directory request.output))
    (hfind : findTargets request.targets = .ok targets)
    (hready : Ready around request files targets) : Splits around request files targets := by
  have hall := subset_all_of_findTargets hfind
  have hfst := map_fst_jobsFor hready
  have hlisted : ∀ job ∈ jobsFor around request files targets,
      Listed (fun document => resolved? around request document files) job :=
    fun job hjob => listed_of_mem_jobsFor hall hjob
  have hn : ∀ job ∈ jobsFor around request files targets, Path.IsName job.1.name :=
    fun job hjob => Target.isName job.1 (hlisted job hjob).1
  obtain ⟨houtcomes, hafter⟩ := outcomes_of_alike hn (nodup_jobsFor hfind hready hnodup)
    fun job _ => Alike.refl job.1.name hstrays
  have halone := fun job (hjob : job ∈ jobsFor around request files targets) =>
    does_alone hformat hall hjob
  -- what the whole run comes to, target by target
  obtain ⟨hfiles, hverdicts, hprinted, -⟩ := does_run hformat hfind hready
  rw [start] at hfiles hverdicts hprinted
  dsimp only at hfiles hverdicts hprinted
  rw [houtcomes, List.map_map] at hverdicts
  rw [houtcomes, List.flatMap_map] at hprinted
  refine ⟨fun target ht => ?_, ?_, ?_, fun target ht => ?_⟩
  · obtain ⟨r, hr⟩ := exists_job hready ht
    exact ⟨_, (halone _ hr).2⟩
  · rw [hverdicts, ← hfst, List.flatMap_map, List.map_eq_flatMap]
    exact List.flatMap_congr fun job hjob => (halone job hjob).2.1.symm
  · rw [hprinted, ← hfst, List.flatMap_map]
    exact List.flatMap_congr fun job hjob => (halone job hjob).2.2.symm
  · obtain ⟨r, hr⟩ := exists_job hready ht
    rw [(halone _ hr).1, hfiles]
    exact ((hafter _ hr).fileIn_eq (hn _ hr)).symm

/-- A run does not touch files with other names than those of its targets. -/
theorem untouched_run {name : String}
    (h : ∀ targets, findTargets request.targets = .ok targets →
      ∀ target ∈ targets, target.name ≠ name) (p : Path) (c : String) :
    (run around request files).files.at? (p ++ [name]) = some (.file c) ↔
      files.at? (p ++ [name]) = some (.file c) := by
  refine files_run (P := fun t => t.at? (p ++ [name]) = some (.file c) ↔
    files.at? (p ++ [name]) = some (.file c)) ?_ Iff.rfl
  intro targets hfind target ht text t hsame
  have hn := Target.isName target (subset_all_of_findTargets hfind ht)
  exact (file_update_of_ne hn (h targets hfind target ht).symm text request.mode).trans hsame

/-- Targets are independent.  A run with an unknown name changes nothing, and a run is aborted for
such a name, or for a document that is missing or cannot be resolved.  If it is not, it succeeds if
every target has been written or is up to date, and it comes to the same as the runs for each target
alone, unless something is to be written and the path of the output directory strays.  No run
touches files with other names than those of its targets. -/
theorem run_independent (around : Surroundings) (request : Request) (files : FileTree String)
    (hformat : request.format = false ∨ around.format.Steady) (hnodup : request.targets.Nodup) :
    ((∃ name ∈ request.targets, Target.find? name = none) →
      (run around request files).success = false ∧ (run around request files).files = files) ∧
    ((∃ a, .aborted a ∈ (run around request files).log) ↔
      ¬ ∃ targets, findTargets request.targets = .ok targets ∧
        Ready around request files targets) ∧
    (∀ targets, findTargets request.targets = .ok targets → Ready around request files targets →
      ((run around request files).success = true ↔ ∀ target ∈ targets,
        .written target.name ∈ (run around request files).log ∨
          .upToDate target.name ∈ (run around request files).log) ∧
      ((request.mode ≠ .verify →
          ¬ Path.Strays files [] (namesTo around.directory request.output)) →
        Splits around request files targets)) ∧
    ∀ name, (∀ targets, findTargets request.targets = .ok targets →
        ∀ target ∈ targets, target.name ≠ name) →
      ∀ p c, (run around request files).files.at? (p ++ [name]) = some (.file c) ↔
        files.at? (p ++ [name]) = some (.file c) := by
  refine ⟨?_, aborted_iff hformat, fun targets hfind hready => ?_, fun name h => untouched_run h⟩
  · rintro ⟨name, hmem, hnone⟩
    obtain ⟨unknown, hunknown⟩ := findTargets_of_unknown hmem hnone
    exact (aborts_run_of_unknown hunknown around files).2
  · exact ⟨success_run hformat hnodup hfind hready,
      fun hstrays => splits_run hformat hnodup hstrays hfind hready⟩

end

/-! ### Two targets -/

/-- The target for the sizes of structs. -/
def sizes : Target := ⟨"vk_struct_size_helper.h", .api, structSizes⟩

/-- The target for the types of the other document. -/
def video : Target := ⟨"vk_video_types.h", .video, videoTypes⟩

/-- A request for both targets, in an order in which they are not generated. -/
def bothTo (output : String) : Request :=
  ⟨"registry", output, .incremental, false, [video.name, sizes.name]⟩

/-- Documents that declare nothing, and the file of one target. -/
def withVideo (text : String) : FileTree String :=
  .directory
    [("registry", .directory [("vk.xml", .file "<registry/>"), ("video.xml", .file "<registry/>")]),
      ("old", .directory [(video.name, .file text)])]

/-- Both documents are resolved to the same registry, which the templates can be expanded for. -/
theorem exists_registry : ∃ r, Template.Allows Template.knownForms r ∧
    ∀ output text document,
      resolved? unformatted (bothTo output) document (withVideo text) = some r := by
  obtain ⟨r, hr⟩ : ∃ r, Registry.build config [] = .ok r := ⟨_, rfl⟩
  refine ⟨r, Template.allows_of_regular (Registry.regular_build hr ⟨nofun, nofun, nofun⟩ nofun
    fun _ _ => not_mem_stateTracking), fun output text document => ?_⟩
  have hread : documentText? unformatted (bothTo "") document (withVideo text) =
      some "<registry/>" := by
    cases document <;> rfl
  have hdocument : Document.ofText "<registry/>" = .ok [] := by
    decide +kernel
  have hbuild : (sourceOf unformatted "<registry/>").build config = .ok r := by
    change unformatted.readDocument "<registry/>" >>= Registry.build config = .ok r
    rw [show unformatted.readDocument "<registry/>" = .ok [] from hdocument]
    exact hr
  change (documentText? unformatted (bothTo "") document (withVideo text)).bind _ = _
  rw [hread, Option.bind_some, hbuild]
  rfl

theorem findTargets_both (output : String) :
    findTargets (bothTo output).targets = .ok [video, sizes] :=
  rfl

/-- The documents are there, whatever the file of the target holds. -/
theorem ready_both (output text : String) :
    Ready unformatted (bothTo output) (withVideo text) [video, sizes] := by
  obtain ⟨r, -, hr⟩ := exists_registry
  intro target _
  rw [hr]
  rfl

/-- The files go where none was before. -/
theorem run_independent_both :
    (bothTo "new").targets.Nodup ∧
      ¬ Path.Strays (withVideo "") [] (namesTo unformatted.directory "new") ∧
      Splits unformatted (bothTo "new") (withVideo "") [video, sizes] := by
  have hnodup : (bothTo "new").targets.Nodup := by decide
  have hstrays : ¬ Path.Strays (withVideo "") [] (namesTo unformatted.directory "new") :=
    Path.not_strays_of_not_mem (by decide +kernel)
  have hrun := run_independent unformatted (bothTo "new") (withVideo "") (.inl rfl) hnodup
  have hsplits := (hrun.2.2.1 _ (findTargets_both _) (ready_both _ _)).2 fun _ => hstrays
  exact ⟨hnodup, hstrays, hsplits⟩

/-- An output directory whose path leads back out of a directory that is missing. -/
def pastMissing : Request := bothTo "missing/../old"

/-- The directory is found through the missing one only when that has been made, so this file is
written. -/
theorem update_video (old text : String) :
    (update (withVideo old) unformatted.directory (outputPath pastMissing video) text
      pastMissing.mode).1 = .ok .written :=
  rfl

/-- Writing the other file makes the missing directory, and then the old file is found. -/
theorem update_sizes (old text : String) :
    (update (withVideo old) unformatted.directory (outputPath pastMissing sizes) text
      pastMissing.mode).1 = .ok .written ∧
    (update (update (withVideo old) unformatted.directory (outputPath pastMissing sizes) text
        pastMissing.mode).2 unformatted.directory (outputPath pastMissing video) old
      pastMissing.mode).1 = .ok .unchanged := by
  have hfile : fileIn unformatted.directory pastMissing.output video.name
      (update (withVideo old) unformatted.directory (outputPath pastMissing sizes) text
        pastMissing.mode).2 = some old := rfl
  exact ⟨rfl, congrArg Prod.fst (update_of_fileIn (by decide) hfile)⟩

/-- If the path strays, targets are not independent: the file of the one is found only if the other
is written before. -/
theorem not_forall_splits :
    ¬ ∀ (around : Surroundings) (request : Request) (files : FileTree String)
      (targets : List Target),
      (request.format = false ∨ around.format.Steady) → request.targets.Nodup →
      ¬ namesTo around.directory request.registry <+: namesTo around.directory request.output →
      ¬ namesTo around.directory request.output <+: namesTo around.directory request.registry →
      findTargets request.targets = .ok targets → Ready around request files targets →
      Splits around request files targets := by
  intro h
  obtain ⟨r, hallows, hr⟩ := exists_registry
  have hall : [video, sizes] ⊆ Target.all := subset_all_of_findTargets (findTargets_both "")
  have hfinished : ∀ target ∈ Target.all, ∃ text,
      finished unformatted pastMissing (target, r) = .ok text := by
    intro target ht
    obtain ⟨out, hout⟩ := Template.expand_of_wellTyped (wellTyped_template target ht) hallows
    refine ⟨withHeader target.document.fileName (String.ofList out), ?_⟩
    rw [finished, content, hout]
    rfl
  obtain ⟨text, hvideo⟩ := hfinished video (hall (.head _))
  obtain ⟨text', hsizes⟩ := hfinished sizes (hall (.tail _ (.head _)))
  obtain ⟨hwritten, hfound⟩ := update_sizes text text'
  have hfind : findTargets pastMissing.targets = .ok [video, sizes] := findTargets_both _
  have hready : Ready unformatted pastMissing (withVideo text) [video, sizes] := ready_both _ _
  have hjobs : jobsFor unformatted pastMissing (withVideo text) [video, sizes] =
      [(sizes, r), (video, r)] := by
    have hregistry : ∀ document,
        resolved? unformatted pastMissing document (withVideo text) = some r := hr _ _
    change ([sizes, video].filterMap fun target => _) = _
    simp only [hregistry, Option.map_some, List.filterMap_cons, List.filterMap_nil]
  -- in the run for both targets, the file of the second is up to date
  have htogether : (run unformatted pastMissing (withVideo text)).verdicts =
      [.written sizes.name, .upToDate video.name] := by
    rw [(does_run (.inl rfl) hfind hready).verdicts, hjobs]
    change [] ++ (outcomes unformatted pastMissing _ (withVideo text)).map _ = _
    rw [outcomes, outcomes, outcomes, produce_of_finished hsizes, produce_of_finished hvideo,
      hwritten, hfound]
    rfl
  -- in the run for this target alone, it is written
  have halone : (run unformatted (pastMissing.alone video) (withVideo text)).verdicts =
      [.written video.name] := by
    have hjob : (video, r) ∈ jobsFor unformatted pastMissing (withVideo text) [video, sizes] :=
      hjobs ▸ .tail _ (.head _)
    rw [(does_alone (.inl rfl) hall hjob).2.1, produce_of_finished hvideo, update_video]
    rfl
  have hsplits := h unformatted pastMissing (withVideo text) [video, sizes] (.inl rfl)
    (by decide) (by decide +kernel) (by decide +kernel) hfind hready
  have hmem : .written video.name ∈ (run unformatted pastMissing (withVideo text)).verdicts := by
    rw [hsplits.verdicts]
    refine List.mem_flatMap.2 ⟨video, .tail _ (.head _), ?_⟩
    rw [halone]
    exact .head _
  have hname : video.name = sizes.name := by simpa [htogether] using hmem
  exact absurd hname (by decide)

end ApiStencil.Generator
