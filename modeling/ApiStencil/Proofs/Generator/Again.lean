/-
ApiStencil/Proofs/Generator/Again.lean

Running again.  A run that compares writes nothing, and right after a run that has
succeeded, a run that asks for the same targets finds every one of them up to date
(`run_again`).

A job that is generated with success is settled: its file holds its text.  Generating
other jobs of the run does not unsettle it, because files with other names stay and
two jobs for one name are the same job (`settled_filesAfter`).  Nor does the run change
what its jobs are: the documents give the same registries afterwards.
-/
import ApiStencil.Document.Markup
import ApiStencil.Proofs.Generator.Run

namespace ApiStencil.Generator

open Output

variable {around : Surroundings} {request : Request} {registries : DocumentName → Option Registry}
  {files : FileTree String} {job job' : Target × Registry} {jobs : List (Target × Registry)}

/-- Whether the file of a target holds its text. -/
def Settled (around : Surroundings) (request : Request) (files : FileTree String)
    (job : Target × Registry) : Prop :=
  ∃ text, finished around request job = .ok text ∧
    fileIn around.directory request.output job.1.name files = some text

/-- Whether a job is a target with the registry of its document. -/
def Listed (registries : DocumentName → Option Registry) (job : Target × Registry) : Prop :=
  job.1 ∈ Target.all ∧ registries job.1.document = some job.2

/-- Two jobs of a run with one name are the same job. -/
theorem Listed.eq_of_name (h : Listed registries job) (h' : Listed registries job')
    (hname : job.1.name = job'.1.name) : job = job' := by
  have htarget := Target.eq_of_name _ h.1 _ h'.1 hname
  have hr := h.2
  rw [htarget, h'.2] at hr
  exact Prod.ext htarget (Option.some.inj hr).symm

/-- A run generates its targets with the registries of their documents. -/
theorem listed_of_mem_jobsFor {targets : List Target} (hall : targets ⊆ Target.all)
    (h : job ∈ jobsFor around request files targets) :
    Listed (fun document => resolved? around request document files) job := by
  obtain ⟨target, ht, h⟩ := List.mem_filterMap.1 h
  obtain ⟨r, hr, rfl⟩ := Option.map_eq_some_iff.1 h
  exact ⟨hall ((inOrder_perm targets).mem_iff.1 ht), hr⟩

/-- A target that is generated with success is settled. -/
theorem settled_of_isGood (h : isGood (produce around request job files).1 = true) :
    Settled around request (produce around request job files).2 job := by
  rw [produce] at h ⊢
  cases hf : finished around request job with
  | error e =>
    rw [hf] at h
    cases h
  | ok text =>
    rw [hf] at h
    refine ⟨text, hf, ?_⟩
    dsimp only at h
    cases ho : (update files around.directory (outputPath request job.1) text request.mode).1 with
    | error e =>
      rw [ho] at h
      cases h
    | ok outcome =>
      rw [ho] at h
      cases outcome with
      -- a mismatch is no success, and otherwise the file holds the text
      | mismatch difference => cases h
      | written => exact fileIn_of_update (.inl rfl) ho
      | unchanged => exact fileIn_of_update (.inr rfl) ho

/-- It stays settled while other targets are generated with success. -/
theorem settled_produce (hjob : Listed registries job) (hjob' : Listed registries job')
    (hgood : isGood (produce around request job' files).1 = true)
    (h : Settled around request files job) :
    Settled around request (produce around request job' files).2 job := by
  by_cases hname : job.1.name = job'.1.name
  · -- a target that is asked for twice is generated twice, with the same text
    rw [hjob.eq_of_name hjob' hname]
    exact settled_of_isGood hgood
  · obtain ⟨text, hf, hfile⟩ := h
    refine ⟨text, hf, ?_⟩
    have hn := Target.isName job.1 hjob.1
    obtain ⟨-, p, hp, -⟩ := (fileIn_eq_some_iff hn).1 hfile
    rw [produce]
    cases finished around request job' with
    | error e => exact hfile
    | ok text' =>
      exact (fileIn_update_of_ne hn (Target.isName job'.1 hjob'.1) hname hp text' _).trans hfile

/-- A settled job stays settled until the end if the others are generated with success. -/
theorem settled_filesAfter_of_settled (hjob : Listed registries job)
    (hjobs : ∀ job ∈ jobs, Listed registries job)
    (hgood : (outcomes around request jobs files).all (fun o => isGood o.2) = true)
    (h : Settled around request files job) :
    Settled around request (filesAfter around request jobs files) job := by
  induction jobs generalizing files with
  | nil => exact h
  | cons first jobs ih =>
    obtain ⟨hfirst, hjobs⟩ := List.forall_mem_cons.1 hjobs
    rw [outcomes, List.all_cons, Bool.and_eq_true] at hgood
    exact ih hjobs hgood.2 (settled_produce hjob hfirst hgood.1 h)

/-- If all targets are generated with success, they are all settled in the end. -/
theorem settled_filesAfter (hjobs : ∀ job ∈ jobs, Listed registries job)
    (hgood : (outcomes around request jobs files).all (fun o => isGood o.2) = true) :
    ∀ job ∈ jobs, Settled around request (filesAfter around request jobs files) job := by
  induction jobs generalizing files with
  | nil => exact nofun
  | cons first jobs ih =>
    obtain ⟨hfirst, hjobs⟩ := List.forall_mem_cons.1 hjobs
    rw [outcomes, List.all_cons, Bool.and_eq_true] at hgood
    refine List.forall_mem_cons.2 ⟨?_, ih hjobs hgood.2⟩
    change Settled around request (filesAfter around request jobs _) first
    exact settled_filesAfter_of_settled hfirst hjobs hgood.2 (settled_of_isGood hgood.1)

/-- Settled targets are found up to date. -/
theorem outcomes_of_settled (hmode : request.mode ≠ .generate)
    (h : ∀ job ∈ jobs, Settled around request files job) :
    outcomes around request jobs files = jobs.map (fun job => (job.1, .ok .unchanged)) ∧
      filesAfter around request jobs files = files := by
  induction jobs with
  | nil => exact ⟨rfl, rfl⟩
  | cons job jobs ih =>
    obtain ⟨⟨text, hf, hfile⟩, hjobs⟩ := List.forall_mem_cons.1 h
    have hproduce : produce around request job files = (.ok .unchanged, files) := by
      rw [produce_of_finished hf, outputPath, update_of_fileIn hmode hfile]
      rfl
    obtain ⟨houtcomes, hfiles⟩ := ih hjobs
    rw [outcomes, filesAfter, List.foldl_cons, hproduce, houtcomes]
    exact ⟨rfl, hfiles⟩

/-- A run that succeeds is ready, and generates all of its targets with success. -/
theorem exists_targets_of_success (hformat : request.format = false ∨ around.format.Steady)
    (h : (run around request files).success = true) :
    ∃ targets, findTargets request.targets = .ok targets ∧ Ready around request files targets ∧
      (outcomes around request (jobsFor around request files targets) files).all
        (fun o => isGood o.2) = true := by
  cases hfind : findTargets request.targets with
  | error unknown =>
    rw [(aborts_run_of_unknown hfind around files).2.1] at h
    cases h
  | ok targets =>
    by_cases hready : Ready around request files targets
    · refine ⟨targets, rfl, hready, ?_⟩
      rw [(does_run hformat hfind hready).success] at h
      exact h
    · rw [(aborts_run hformat hfind hready).2] at h
      cases h

/-- A run does not change what it has to do. -/
theorem jobsFor_run {targets : List Target} (hready : Ready around request files targets) :
    Ready around request (run around request files).files targets ∧
      jobsFor around request (run around request files).files targets =
        jobsFor around request files targets := by
  have hsame : ∀ target ∈ targets,
      resolved? around request target.document (run around request files).files =
        resolved? around request target.document files := by
    intro target ht
    obtain ⟨r, hr⟩ := Option.isSome_iff_exists.1 (hready target ht)
    obtain ⟨-, p, -, -, hp⟩ := exists_text hr
    -- no target is written over a document
    have hkept : SameDocuments around request files (run around request files).files :=
      files_run (fun found hfound =>
        .mono (keeps_documents files) (subset_all_of_findTargets hfound)) ⟨⟨p, hp⟩, fun _ => rfl⟩
    exact hkept.2 target.document
  refine ⟨fun target ht => ?_, List.filterMap_congr fun target ht => ?_⟩
  · rw [hsame target ht]
    exact hready target ht
  · rw [hsame target ((inOrder_perm targets).mem_iff.1 ht)]

/-- The same request in another mode. -/
def Request.inMode (request : Request) (mode : Mode) : Request :=
  { request with mode := mode }

/-- A run that compares changes no file.  Right after a run that has succeeded, a run with the same
targets that compares, or that writes only what differs, succeeds and writes no file. -/
theorem run_again (around : Surroundings) (request : Request) (files : FileTree String)
    (hformat : request.format = false ∨ around.format.Steady) :
    (run around (request.inMode .verify) files).files = files ∧
      ((run around request files).success = true → ∀ mode, mode ≠ .generate →
        (run around (request.inMode mode) (run around request files).files).success = true ∧
        (run around (request.inMode mode) (run around request files).files).files =
          (run around request files).files ∧
        ∀ name, .written name ∉
          (run around (request.inMode mode) (run around request files).files).log) := by
  constructor
  · refine files_run (P := fun t => t = files) ?_ rfl
    rintro - - target - text t rfl
    exact update_verify _ _ _ _
  · intro hsuccess mode hmode
    obtain ⟨targets, hfind, hready, hgood⟩ := exists_targets_of_success hformat hsuccess
    obtain ⟨hready', hjobs⟩ := jobsFor_run hready
    have hfiles : (run around request files).files = filesAfter around request _ files :=
      (does_run hformat hfind hready).files
    have hsettled := settled_filesAfter
      (fun job hjob => listed_of_mem_jobsFor (subset_all_of_findTargets hfind) hjob) hgood
    rw [← hfiles, ← hjobs] at hsettled
    generalize (run around request files).files = after at hready' hsettled ⊢
    -- the mode plays no part in what the jobs are and when they are settled
    have hagain : Does around (request.inMode mode) (jobsFor around request after targets)
        (start after) (run around (request.inMode mode) after) := does_run hformat hfind hready'
    have hnothing : outcomes around (request.inMode mode) (jobsFor around request after targets)
          after = (jobsFor around request after targets).map (fun job => (job.1, .ok .unchanged)) ∧
        filesAfter around (request.inMode mode) (jobsFor around request after targets) after =
          after := outcomes_of_settled hmode hsettled
    obtain ⟨houtcomes, hkept⟩ := hnothing
    obtain ⟨hfiles', hverdicts, -, hsuccess'⟩ := hagain
    rw [start] at hfiles' hverdicts hsuccess'
    rw [houtcomes] at hverdicts hsuccess'
    refine ⟨?_, hfiles'.trans hkept, fun name hname => ?_⟩
    · rw [hsuccess', List.all_map, Bool.true_and]
      exact List.all_eq_true.2 fun _ _ => rfl
    · have hverdict : .written name ∈ (run around (request.inMode mode) after).verdicts :=
        List.mem_filter.2 ⟨hname, rfl⟩
      rw [hverdicts] at hverdict
      simp [State.verdicts, verdict] at hverdict

/-- A place without a formatter. -/
def unformatted : Surroundings :=
  ⟨Document.ofText, fun _ _ => .unavailable FileError.notFound.message, [], none⟩

/-- A document that declares nothing. -/
def oneDocument : FileTree String :=
  .directory [("registry", .directory [("video.xml", .file "<registry/>")])]

/-- A request for one target, named twice. -/
def videoTwice : Request :=
  ⟨"registry", "generated", .generate, true, ["vk_video_types.h", "vk_video_types.h"]⟩

theorem steady_unformatted : unformatted.format.Steady :=
  .inl fun _ _ => ⟨_, rfl⟩

/-- A target that is asked for twice is written twice, and found up to date twice after that. -/
theorem run_again_videoTwice :
    unformatted.format.Steady ∧ (run unformatted videoTwice oneDocument).success = true ∧
      (run unformatted (videoTwice.inMode .verify)
        (run unformatted videoTwice oneDocument).files).success = true := by
  have hsuccess : (run unformatted videoTwice oneDocument).success = true := by
    set_option maxRecDepth 100000 in decide +kernel
  have hagain := (run_again unformatted videoTwice oneDocument (.inr steady_unformatted)).2 hsuccess
  exact ⟨steady_unformatted, hsuccess, (hagain .verify (by decide)).1⟩

end ApiStencil.Generator
