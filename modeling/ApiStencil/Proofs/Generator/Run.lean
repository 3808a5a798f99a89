/-
ApiStencil/Proofs/Generator/Run.lean

What a run comes to.

A run that is ready, which means that the documents it needs are there and can be
resolved, brings its jobs up to date one after the other, reports what has become of
each, and succeeds if all of them do (`does_run`).  So nothing of what the cache and the
formatter have met before makes a difference: the cache holds nothing but registries of
this run's documents (`Kept`), and the text of a target is the same whether or not the
formatter is already known to be missing (`Formatter.Steady`).  A run that is not ready
is aborted (`aborts_run`).
-/
import ApiStencil.Proofs.Cache
import ApiStencil.Proofs.Generator.Frame
import ApiStencil.Proofs.Output.Sibling

namespace ApiStencil.Generator

open Output

/-! ### Jobs -/

/-- Whether there is no formatter. -/
def Formatter.Missing (format : Formatter) : Prop :=
  ∀ target text, ∃ reason, format target text = .unavailable reason

/-- Whether a formatter is there for every text, or for none.  A program is started before it is
given a text, so whether this works does not depend on the text. -/
def Formatter.Steady (format : Formatter) : Prop :=
  format.Missing ∨ ∀ target text reason, format target text ≠ .unavailable reason

/-- The text of a target as it is written, and the warnings about it. -/
def finish (around : Surroundings) (request : Request) (missing : Bool) (target : Target)
    (text : String) : String × List Event :=
  if request.format then formatted around.format missing target.name text else (text, [])

/-- The text of a job as it is written. -/
def finished (around : Surroundings) (request : Request) (job : Target × Registry) :
    Except Template.Error String :=
  (content job.1 job.2).map fun text => (finish around request false job.1 text).1

/-- What becomes of a target, and the files after that. -/
def produce (around : Surroundings) (request : Request) (job : Target × Registry)
    (files : FileTree String) : Except TargetError Outcome × FileTree String :=
  match finished around request job with
  | .error e => (.error (.template e), files)
  | .ok text =>
    let (outcome, files) :=
      update files around.directory (outputPath request job.1) text request.mode
    (outcome.mapError .file, files)

/-- What becomes of targets one after the other. -/
def outcomes (around : Surroundings) (request : Request) :
    List (Target × Registry) → FileTree String → List (Target × Except TargetError Outcome)
  | [], _ => []
  | job :: jobs, files =>
    (job.1, (produce around request job files).1) ::
      outcomes around request jobs (produce around request job files).2

/-- The files after targets have been generated one after the other. -/
def filesAfter (around : Surroundings) (request : Request) (jobs : List (Target × Registry))
    (files : FileTree String) : FileTree String :=
  jobs.foldl (fun files job => (produce around request job files).2) files

/-- Whether an event says something on the way and not what has become of a target or the run. -/
def Event.isRemark : Event → Bool
  | .written _ | .upToDate _ | .outOfDate _ | .failed _ _ | .aborted _ => false
  | _ => true

/-- What has become of the targets and the run. -/
def State.verdicts (s : State) : List Event :=
  s.log.filter fun e => !e.isRemark

/-- Whether a state is what comes of jobs after another state, apart from remarks and the cache. -/
structure Does (around : Surroundings) (request : Request) (jobs : List (Target × Registry))
    (s s' : State) : Prop where
  files : s'.files = filesAfter around request jobs s.files
  verdicts : s'.verdicts =
    s.verdicts ++ (outcomes around request jobs s.files).map fun o => verdict o.1 o.2
  printed : s'.printed =
    s.printed ++ (outcomes around request jobs s.files).flatMap fun o => shown o.1 o.2
  success : s'.success =
    (s.success && (outcomes around request jobs s.files).all fun o => isGood o.2)

section

variable {around : Surroundings} {request : Request} {job : Target × Registry}
  {jobs jobs' : List (Target × Registry)} {files : FileTree String} {s s' s'' : State}
  {target : Target} {r : Registry} {remarks : List Event}

/-- A target with a text comes to what bringing its file up to date with that text does. -/
theorem produce_of_finished {text : String} (h : finished around request job = .ok text)
    (files : FileTree String) :
    produce around request job files =
      ((update files around.directory (outputPath request job.1) text request.mode).1.mapError
          .file,
        (update files around.directory (outputPath request job.1) text request.mode).2) := by
  rw [produce, h]

/-- Outcomes of further jobs start in the tree that the first ones have left. -/
theorem outcomes_append (jobs jobs' : List (Target × Registry)) (files : FileTree String) :
    outcomes around request (jobs ++ jobs') files = outcomes around request jobs files ++
      outcomes around request jobs' (filesAfter around request jobs files) := by
  induction jobs generalizing files with
  | nil => rfl
  | cons job jobs ih =>
    rw [List.cons_append, outcomes, ih]
    rfl

theorem map_fst_outcomes (jobs : List (Target × Registry)) (files : FileTree String) :
    (outcomes around request jobs files).map Prod.fst = jobs.map Prod.fst := by
  induction jobs generalizing files with
  | nil => rfl
  | cons job jobs ih => rw [outcomes, List.map_cons, List.map_cons, ih]

/-- What comes of some jobs and then of others is what comes of all of them. -/
theorem Does.trans (h : Does around request jobs s s') (h' : Does around request jobs' s' s'') :
    Does around request (jobs ++ jobs') s s'' := by
  obtain ⟨hfiles, hverdicts, hprinted, hsuccess⟩ := h
  obtain ⟨hfiles', hverdicts', hprinted', hsuccess'⟩ := h'
  rw [hfiles] at hfiles' hverdicts' hprinted' hsuccess'
  refine ⟨?_, ?_, ?_, ?_⟩
  · rw [hfiles', filesAfter, filesAfter, filesAfter, List.foldl_append]
  · rw [hverdicts', hverdicts, outcomes_append, List.map_append, List.append_assoc]
  · rw [hprinted', hprinted, outcomes_append, List.flatMap_append, List.append_assoc]
  · rw [hsuccess', hsuccess, outcomes_append, List.all_append, Bool.and_assoc]

theorem isRemark_verdict (target : Target) (outcome : Except TargetError Outcome) :
    (verdict target outcome).isRemark = false := by
  cases outcome with
  | error e => rfl
  | ok o => cases o <;> rfl

theorem filter_remarks (h : ∀ e ∈ remarks, e.isRemark = true) :
    (remarks.filter fun e => !e.isRemark) = [] :=
  List.filter_eq_nil_iff.2 fun e he => by simp [h e he]

/-- Reporting remarks and using the cache does nothing. -/
theorem Does.refl (h : s'.files = s.files) (hlog : s'.log = s.log ++ remarks)
    (hremarks : ∀ e ∈ remarks, e.isRemark = true) (hprinted : s'.printed = s.printed)
    (hsuccess : s'.success = s.success) : Does around request [] s s' where
  files := h
  verdicts := by
    rw [State.verdicts, hlog, List.filter_append, filter_remarks hremarks]
    rfl
  printed := hprinted.trans (List.append_nil _).symm
  success := hsuccess.trans (Bool.and_true _).symm

/-! ### Formatting -/

/-- All that formatting reports are warnings. -/
theorem isRemark_formatted (format : Formatter) (missing : Bool) (name text : String) :
    ∀ e ∈ (formatted format missing name text).2, e.isRemark = true := by
  rw [formatted]
  split
  · exact nofun
  · split <;> simp [Event.isRemark]

/-- With a steady formatter, knowing that it is missing makes no difference to a text. -/
theorem formatted_of_missing (h : around.format.Missing) (missing : Bool) (name text : String) :
    (formatted around.format missing name text).1 = text := by
  obtain ⟨reason, hreason⟩ := h name text
  rw [formatted, hreason]
  cases missing <;> rfl

/-- If a steady formatter is reported missing for one text, it is for all. -/
theorem missing_of_noFormatter (h : around.format.Steady) {missing : Bool}
    {name text reason : String}
    (hw : .noFormatter reason ∈ (formatted around.format missing name text).2) :
    around.format.Missing := by
  refine h.resolve_right fun hthere => ?_
  rw [formatted] at hw
  split at hw
  · cases hw
  · split at hw
    · cases hw
    · next reason' hf => exact hthere name text reason' hf
    · simp at hw
    · simp at hw

end

/-! ### Runs that are ready -/

/-- The registry of a document, if the document is there and can be resolved. -/
def resolved? (around : Surroundings) (request : Request) (document : DocumentName)
    (files : FileTree String) : Option Registry :=
  (documentText? around request document files).bind fun text =>
    ((sourceOf around text).build config).toOption

/-- The way to a document. -/
def origin (around : Surroundings) (request : Request) (document : DocumentName) : List String :=
  (Route.ofString around.directory (documentPath request document)).names

/-- Whether a cache holds no other snapshots than the registries of documents. -/
def Kept (around : Surroundings) (request : Request) (registries : DocumentName → Option Registry)
    (cache : FileTree Cache.Stored) : Prop :=
  ∀ q kept, cache.at? q = some (.file (.snapshot kept)) →
    ∃ document, kept.source = origin around request document ∧
      registries document = some kept.registry

section

variable {around : Surroundings} {request : Request} {registries : DocumentName → Option Registry}
  {files : FileTree String} {s : State} {target : Target} {r : Registry} {remarks : List Event}
  {document : DocumentName} {text : String} {cache : FileTree Cache.Stored}

/-- All that finishing a text reports are warnings. -/
theorem isRemark_finish (missing : Bool) (target : Target) (text : String) :
    ∀ e ∈ (finish around request missing target text).2, e.isRemark = true := by
  rw [finish]
  split
  · exact isRemark_formatted _ _ _ _
  · exact nofun

/-- If finishing a text finds no formatter, there is none. -/
theorem missing_of_finish (hformat : request.format = false ∨ around.format.Steady)
    {missing : Bool} {text : String}
    (h : (finish around request missing target text).2.any
      (fun | .noFormatter _ => true | _ => false) = true) : around.format.Missing := by
  rw [finish] at h
  split at h
  · next hf =>
    obtain ⟨e, he, hnone⟩ := List.any_eq_true.1 h
    split at hnone
    · exact missing_of_noFormatter (hformat.resolve_left (by rw [hf]; exact nofun)) he
    · cases hnone
  · cases h

/-- Whether the formatter is already known to be missing makes no difference to the text. -/
theorem finished_of_content {missing : Bool} {text : String}
    (hmissing : missing = true → around.format.Missing) (h : content target r = .ok text) :
    finished around request (target, r) =
      .ok (finish around request missing target text).1 := by
  rw [finished, h]
  change Except.ok (finish around request false target text).1 = _
  cases missing with
  | false => rfl
  | true =>
    rw [finish, finish]
    split
    · rw [formatted_of_missing (hmissing rfl), formatted_of_missing (hmissing rfl)]
    · rfl

/-- Generating a target is producing its file, with remarks. What is known about the formatter has
no influence and is right afterwards. -/
theorem exists_generate (hformat : request.format = false ∨ around.format.Steady)
    (hmissing : s.formatterMissing = true → around.format.Missing) (target : Target)
    (r : Registry) :
    ∃ remarks missing, (∀ e ∈ remarks, e.isRemark = true) ∧
      (missing = true → around.format.Missing) ∧
      generate around request r target s = ((produce around request (target, r) s.files).1,
        { s with
          files := (produce around request (target, r) s.files).2
          log := s.log ++ remarks
          formatterMissing := missing }) := by
  -- a template that fails reports nothing and does not start the formatter
  cases hc : content target r with
  | error e =>
    have hfinished : finished around request (target, r) = .error e := by
      rw [finished, hc]
      rfl
    refine ⟨[], s.formatterMissing, nofun, hmissing, ?_⟩
    rw [generate, produce, hc, hfinished, List.append_nil]
  | ok text =>
    refine ⟨(finish around request s.formatterMissing target text).2,
      s.formatterMissing || (finish around request s.formatterMissing target text).2.any
        (fun | .noFormatter _ => true | _ => false),
      isRemark_finish _ _ _, ?_, ?_⟩
    · rw [Bool.or_eq_true]
      exact fun h => h.elim hmissing (missing_of_finish hformat)
    · rw [generate, hc, produce_of_finished (finished_of_content hmissing hc)]
      rfl

/-- The same of targets one after the other. -/
theorem exists_attempts (hformat : request.format = false ∨ around.format.Steady)
    (hmissing : s.formatterMissing = true → around.format.Missing)
    (jobs : List (Target × Registry)) :
    ∃ remarks missing, (∀ e ∈ remarks, e.isRemark = true) ∧
      (missing = true → around.format.Missing) ∧
      attempts around request jobs s = (outcomes around request jobs s.files,
        { s with
          files := filesAfter around request jobs s.files
          log := s.log ++ remarks
          formatterMissing := missing }) := by
  -- on the jobs; the formatter may be found missing at any of them, so `missing` varies
  induction jobs generalizing s with
  | nil =>
    refine ⟨[], s.formatterMissing, nofun, hmissing, ?_⟩
    rw [List.append_nil]
    rfl
  | cons job jobs ih =>
    obtain ⟨first, missing, hfirst, hmissing', heq⟩ :=
      exists_generate hformat hmissing job.1 job.2
    have hnext : (generate around request job.2 job.1 s).2.formatterMissing = true →
        around.format.Missing := by
      rw [heq]
      exact hmissing'
    obtain ⟨rest, missing', hrest, hmissing'', heq'⟩ := ih hnext
    refine ⟨first ++ rest, missing', ?_, hmissing'', ?_⟩
    · exact List.forall_mem_append.2 ⟨hfirst, hrest⟩
    · rw [attempts]
      dsimp only
      rw [heq', heq, ← List.append_assoc]
      rfl

/-- Generating targets brings them up to date one after the other and reports what has become of
them. -/
theorem does_generateAll (hformat : request.format = false ∨ around.format.Steady)
    (hmissing : s.formatterMissing = true → around.format.Missing)
    (jobs : List (Target × Registry)) :
    Does around request jobs s (generateAll around request jobs s) ∧
      (generateAll around request jobs s).cache = s.cache ∧
      ((generateAll around request jobs s).formatterMissing = true → around.format.Missing) := by
  obtain ⟨remarks, missing, hremarks, hmissing', heq⟩ := exists_attempts hformat hmissing jobs
  rw [generateAll_eq, heq]
  refine ⟨⟨rfl, ?_, rfl, rfl⟩, rfl, hmissing'⟩
  have hverdicts : ((outcomes around request jobs s.files).map fun o => verdict o.1 o.2).filter
      (fun e => !e.isRemark) =
        (outcomes around request jobs s.files).map fun o => verdict o.1 o.2 := by
    refine List.filter_eq_self.2 fun e he => ?_
    obtain ⟨o, -, rfl⟩ := List.mem_map.1 he
    rw [isRemark_verdict]
    rfl
  rw [State.verdicts, State.verdicts, List.filter_append, List.filter_append,
    filter_remarks hremarks, hverdicts, List.append_nil]

end

/-! ### Loading -/

/-- What holds between the documents of a run. -/
structure Sound (around : Surroundings) (request : Request)
    (registries : DocumentName → Option Registry) (s : State) : Prop where
  missing : s.formatterMissing = true → around.format.Missing
  kept : Kept around request registries s.cache
  registries : ∀ document, resolved? around request document s.files = registries document

/-- What the cache gives for a document. -/
def loaded (around : Surroundings) (request : Request) (document : DocumentName)
    (source : Cache.Source) (s : State) :
    Except Registry.Error Cache.Loaded × FileTree Cache.Stored :=
  Cache.load (reachableCache around s.files) (origin around request document) source config s.cache

/-- The state after a document has been loaded once. -/
def afterLoad (around : Surroundings) (request : Request) (document : DocumentName)
    (source : Cache.Source) (s : State) : State :=
  { s with
    cache := (loaded around request document source s).2
    log := s.log ++ loadEvents (documentPath request document) source
      (Cache.readSnapshot (reachableCache around s.files) s.cache)
      (loaded around request document source s).1 }

section

variable {around : Surroundings} {request : Request} {registries : DocumentName → Option Registry}
  {files : FileTree String} {s : State} {r : Registry} {document : DocumentName} {text : String}
  {groups : List (DocumentName × List Target)} {group : DocumentName × List Target}

/-- Each target loads the document again, which may be served by the cache. -/
theorem loadAll_cons (source : Cache.Source) (target : Target) (targets : List Target) (s : State) :
    loadAll around (documentPath request document) source (target :: targets) s =
      match (loaded around request document source s).1 with
      | .error e => (.error e, afterLoad around request document source s)
      | .ok l =>
        let (jobs, s) := loadAll around (documentPath request document) source targets
          (afterLoad around request document source s)
        (jobs.map ((target, l.registry) :: ·), s) :=
  rfl

/-- There are different ways to different documents. -/
theorem origin_injective : (origin around request).Injective := by
  intro a b h
  have hnames : ∀ document, origin around request document =
      namesTo around.directory request.registry ++ [document.fileName] := fun document =>
    congrArg Route.names (routeIn_eq document.isName)
  rw [hnames, hnames] at h
  exact DocumentName.fileName_injective (List.cons.inj (List.append_cancel_left h)).1

/-- Through a cache that holds registries of documents only, a document is loaded as it is
resolved, and the cache goes on holding nothing else. -/
theorem loaded_of_kept (hkept : Kept around request registries s.cache)
    (hregistry : registries document = ((sourceOf around text).build config).toOption) :
    (loaded around request document (sourceOf around text) s).1.map Cache.Loaded.registry =
        (sourceOf around text).build config ∧
      Kept around request registries
        (loaded around request document (sourceOf around text) s).2 := by
  refine ⟨Cache.registry_load fun kept hread hfits => ?_, fun q kept hq => ?_⟩
  · -- a snapshot that fits is of this document, because no other has the same way to it
    obtain ⟨-, q, -, hq⟩ := Route.read_eq_ok_iff.1 hread
    obtain ⟨document', hsource, hr⟩ := hkept q kept hq
    have hfrom : kept.source = origin around request document := by
      rw [Cache.Snapshot.fits, Bool.and_eq_true, Bool.and_eq_true] at hfits
      exact eq_of_beq hfits.1.1
    rw [origin_injective (hsource.symm.trans hfrom), hregistry] at hr
    exact toOption_eq_some_iff.1 hr
  · rcases Cache.file_of_load hq with h | h | ⟨r, hb, h⟩
    · exact hkept q kept h
    · cases h
    · cases h
      exact ⟨document, rfl, hregistry.trans (toOption_eq_some_iff.2 hb)⟩

/-- All that loading reports are remarks. -/
theorem isRemark_loadEvents (path : String) (source : Cache.Source)
    (found : Except Cache.Trouble (Option Cache.Snapshot))
    (loaded : Except Registry.Error Cache.Loaded) :
    ∀ e ∈ loadEvents path source found loaded, e.isRemark = true := by
  obtain ⟨document, modified⟩ := source
  rcases loaded with e | ⟨r, fromCache, unsaved⟩
  · cases found <;> cases document <;> simp +contextual [loadEvents, Event.isRemark, or_imp]
  · cases fromCache with
    | true => simp [loadEvents, Event.isRemark]
    | false =>
      cases found <;> cases document <;> cases unsaved <;>
        simp +contextual [loadEvents, Event.isRemark, or_imp]

/-- Loading a document for targets gives each the registry of the document, or fails as resolving
the document does. -/
theorem exists_loadAll (hs : Sound around request registries s)
    (hregistry : registries document = ((sourceOf around text).build config).toOption)
    (targets : List Target) :
    ∃ s', Sound around request registries s' ∧ Does around request [] s s' ∧
      (∀ r, (sourceOf around text).build config = .ok r →
        loadAll around (documentPath request document) (sourceOf around text) targets s =
          (.ok (targets.map fun target => (target, r)), s')) ∧
      ∀ e, (sourceOf around text).build config = .error e → targets ≠ [] →
        loadAll around (documentPath request document) (sourceOf around text) targets s =
          (.error e, s') := by
  -- on the targets, each of which finds the cache as the one before has left it
  induction targets generalizing s with
  | nil =>
    exact ⟨s, hs, .refl rfl (List.append_nil _).symm nofun rfl rfl, fun _ _ => rfl,
      fun _ _ h => absurd rfl h⟩
  | cons target targets ih =>
    obtain ⟨hload, hkept⟩ := loaded_of_kept hs.kept hregistry
    have hsound : Sound around request registries
        (afterLoad around request document (sourceOf around text) s) :=
      ⟨hs.missing, hkept, hs.registries⟩
    have hdoes : Does around request [] s
        (afterLoad around request document (sourceOf around text) s) :=
      .refl rfl rfl (isRemark_loadEvents _ _ _ _) rfl rfl
    rw [loadAll_cons, ← hload]
    cases hl : (loaded around request document (sourceOf around text) s).1 with
    | error e =>
      refine ⟨_, hsound, hdoes, nofun, ?_⟩
      rintro e ⟨⟩ -
      rfl
    | ok l =>
      obtain ⟨s', hsound', hdoes', hok, -⟩ := ih hsound
      refine ⟨s', hsound', hdoes.trans hdoes', ?_, nofun⟩
      rintro r ⟨⟩
      dsimp only
      rw [hl] at hload
      rw [hok _ hload.symm]
      rfl

/-! ### Documents one after the other -/

/-- The targets of some documents, with the registries of the documents. -/
def jobsOf (registries : DocumentName → Option Registry)
    (groups : List (DocumentName × List Target)) : List (Target × Registry) :=
  groups.flatMap fun group =>
    group.2.filterMap fun target => (registries group.1).map fun r => (target, r)

/-- The jobs of the first document are its targets with its registry. -/
theorem jobsOf_cons (hr : registries group.1 = some r)
    (groups : List (DocumentName × List Target)) :
    jobsOf registries (group :: groups) =
      (group.2.map fun target => (target, r)) ++ jobsOf registries groups := by
  rw [jobsOf, List.flatMap_cons, hr]
  exact congrArg (· ++ _) (congrFun List.filterMap_eq_map group.2)

/-- Whether the documents are at some place in a tree, and give the same registries as in another
one. -/
def SameDocuments (around : Surroundings) (request : Request) (files t : FileTree String) : Prop :=
  (∃ p, Path.resolve t (namesTo around.directory request.registry) = .ok p) ∧
    ∀ document, resolved? around request document t = resolved? around request document files

/-- The documents do not depend on generated files. -/
theorem keeps_documents (files : FileTree String) :
    Keeps around request Target.all (SameDocuments around request files) := by
  rintro target ht text t ⟨⟨p, hp⟩, hsame⟩
  have hn := Target.isName target ht
  refine ⟨⟨p, resolve_update hn text request.mode hp⟩, fun document => ?_⟩
  have htext : documentText? around request document
      (update t around.directory (outputPath request target) text request.mode).2 =
        documentText? around request document t :=
    fileIn_update_of_ne document.isName hn (Target.name_ne_fileName document target ht) hp text
      request.mode
  rw [← hsame document, resolved?, resolved?, htext]

/-- A document with a registry is there, in a directory that is somewhere. -/
theorem exists_text (hr : resolved? around request document files = some r) :
    ∃ text p, documentText? around request document files = some text ∧
      (sourceOf around text).build config = .ok r ∧
      Path.resolve files (namesTo around.directory request.registry) = .ok p := by
  obtain ⟨text, htext, hb⟩ := Option.bind_eq_some_iff.1 hr
  obtain ⟨-, p, hp, -⟩ := (fileIn_eq_some_iff document.isName).1 htext
  exact ⟨text, p, htext, toOption_eq_some_iff.1 hb, hp⟩

/-- If a document is there and can be resolved, its targets are generated, and the run goes on. -/
theorem exists_runDocuments_cons (hformat : request.format = false ∨ around.format.Steady)
    (hs : Sound around request registries s) (ht : group.2 ⊆ Target.all)
    (hr : registries group.1 = some r) :
    ∃ s', Sound around request registries s' ∧
      Does around request (group.2.map fun target => (target, r)) s s' ∧
      ∀ groups, runDocuments around request (group :: groups) s =
        runDocuments around request groups s' := by
  obtain ⟨text, p, htext, hb, hp⟩ := exists_text ((hs.registries group.1).trans hr)
  have hregistry : registries group.1 = ((sourceOf around text).build config).toOption := by
    rw [hr, hb]
    rfl
  obtain ⟨s₁, hs₁, hdoes₁, hload, -⟩ := exists_loadAll hs hregistry group.2
  have hfiles₁ : s₁.files = s.files := hdoes₁.files
  obtain ⟨hdoes, hcache, hmissing⟩ := does_generateAll hformat hs₁.missing
    (group.2.map fun target => (target, r))
  have hjobs : (group.2.map fun target => (target, r)).map Prod.fst ⊆ Target.all := by
    rw [List.map_map]
    exact (List.map_id group.2).symm ▸ ht
  -- the documents are still what they were when the targets have been written
  have hsame : SameDocuments around request s.files s₁.files := by
    rw [hfiles₁]
    exact ⟨⟨p, hp⟩, fun _ => rfl⟩
  obtain ⟨-, hregistries⟩ := files_generateAll (keeps_documents s.files) hjobs hsame
  refine ⟨_, ⟨hmissing, ?_, fun document => ?_⟩, hdoes₁.trans hdoes, fun groups => ?_⟩
  · rw [hcache]
    exact hs₁.kept
  · exact (hregistries document).trans (hs.registries document)
  · rw [runDocuments, htext]
    dsimp only
    rw [hload r hb]

/-- If a document is missing or cannot be resolved, the run ends. -/
theorem aborts_runDocuments_cons (hs : Sound around request registries s) (hne : group.2 ≠ [])
    (hr : registries group.1 = none) (groups : List (DocumentName × List Target)) :
    (∃ a, .aborted a ∈ (runDocuments around request (group :: groups) s).log) ∧
      (runDocuments around request (group :: groups) s).success = false := by
  rw [runDocuments]
  split
  · exact ⟨⟨_, List.mem_append_right _ (List.mem_singleton.2 rfl)⟩, rfl⟩
  · next text htext =>
    have hregistry : registries group.1 = ((sourceOf around text).build config).toOption := by
      rw [← hs.registries, resolved?, htext]
      rfl
    obtain ⟨s', -, -, -, herror⟩ := exists_loadAll hs hregistry group.2
    cases hb : (sourceOf around text).build config with
    | ok r =>
      rw [hr, hb] at hregistry
      cases hregistry
    | error e =>
      rw [herror e hb hne]
      exact ⟨⟨_, List.mem_append_right _ (List.mem_singleton.2 rfl)⟩, rfl⟩

/-- If all documents that are needed can be resolved, their jobs are done one after the other. -/
theorem does_runDocuments (hformat : request.format = false ∨ around.format.Steady)
    (hs : Sound around request registries s) (ht : ∀ group ∈ groups, group.2 ⊆ Target.all)
    (hr : ∀ group ∈ groups, (registries group.1).isSome) :
    Does around request (jobsOf registries groups) s (runDocuments around request groups s) := by
  induction groups generalizing s with
  | nil => exact .refl rfl (List.append_nil _).symm nofun rfl rfl
  | cons group groups ih =>
    obtain ⟨hgroup, ht⟩ := List.forall_mem_cons.1 ht
    obtain ⟨hfirst, hr⟩ := List.forall_mem_cons.1 hr
    obtain ⟨r, hfirst⟩ := Option.isSome_iff_exists.1 hfirst
    obtain ⟨s', hs', hdoes, hrun⟩ := exists_runDocuments_cons hformat hs hgroup hfirst
    rw [hrun, jobsOf_cons hfirst]
    exact hdoes.trans (ih hs' ht hr)

/-- If one of them cannot, the run ends there. -/
theorem aborts_runDocuments (hformat : request.format = false ∨ around.format.Steady)
    (hs : Sound around request registries s)
    (ht : ∀ group ∈ groups, group.2 ⊆ Target.all ∧ group.2 ≠ [])
    (hr : ∃ group ∈ groups, registries group.1 = none) :
    (∃ a, .aborted a ∈ (runDocuments around request groups s).log) ∧
      (runDocuments around request groups s).success = false := by
  -- the documents before the one that is missing are generated, and keep what holds between them
  induction groups generalizing s with
  | nil => exact absurd hr nofun
  | cons group groups ih =>
    obtain ⟨hgroup, ht⟩ := List.forall_mem_cons.1 ht
    cases hfirst : registries group.1 with
    | none => exact aborts_runDocuments_cons hs hgroup.2 hfirst groups
    | some r =>
      obtain ⟨s', hs', -, hrun⟩ := exists_runDocuments_cons hformat hs hgroup.1 hfirst
      rw [hrun]
      obtain ⟨other, hother, hnone⟩ := hr
      rcases List.mem_cons.1 hother with rfl | hother
      · rw [hfirst] at hnone
        cases hnone
      · exact ih hs' ht ⟨other, hother, hnone⟩

/-! ### Whole runs -/

/-- The requested targets in their order, with the registries that are there for them. -/
def jobsFor (around : Surroundings) (request : Request) (files : FileTree String)
    (targets : List Target) : List (Target × Registry) :=
  (inOrder targets).filterMap fun target =>
    (resolved? around request target.document files).map fun r => (target, r)

/-- Whether the documents that targets need are there and can be resolved. -/
def Ready (around : Surroundings) (request : Request) (files : FileTree String)
    (targets : List Target) : Prop :=
  ∀ target ∈ targets, (resolved? around request target.document files).isSome

/-- The state in which a run starts. -/
def start (files : FileTree String) : State :=
  ⟨files, .empty, [], [], false, true⟩

variable {targets : List Target}

/-- At the start the cache holds nothing. -/
theorem sound_start (files : FileTree String) :
    Sound around request (fun document => resolved? around request document files)
      (start files) where
  missing := nofun
  kept := by
    intro q kept hq
    cases q <;> cases hq
  registries := fun _ => rfl

/-- The jobs of a run are those of its documents in order. -/
theorem jobsFor_eq (targets : List Target) :
    jobsFor around request files targets =
      jobsOf (fun document => resolved? around request document files) (byDocument targets) := by
  rw [jobsFor, inOrder, jobsOf, List.filterMap_flatMap]
  refine List.flatMap_congr fun group hg => List.filterMap_congr fun target ht => ?_
  rw [(document_of_mem_byDocument hg ht).2]

/-- A run that is ready brings its targets up to date one after the other, and reports what has
become of them. -/
theorem does_run (hformat : request.format = false ∨ around.format.Steady)
    (hfind : findTargets request.targets = .ok targets)
    (hready : Ready around request files targets) :
    Does around request (jobsFor around request files targets) (start files)
      (run around request files) := by
  have hall : ∀ group ∈ byDocument targets, group.2 ⊆ Target.all := fun group hg target ht =>
    subset_all_of_findTargets hfind (document_of_mem_byDocument hg ht).1
  have hthere : ∀ group ∈ byDocument targets,
      (resolved? around request group.1 files).isSome := by
    intro group hg
    obtain ⟨target, ht⟩ := List.exists_mem_of_ne_nil _ (eq_filter_of_mem_byDocument hg).2
    obtain ⟨hmem, hdocument⟩ := document_of_mem_byDocument hg ht
    exact hdocument ▸ hready target hmem
  have hdoes := does_runDocuments hformat (sound_start files) hall hthere
  rw [jobsFor_eq, run, hfind]
  exact ⟨hdoes.files, hdoes.verdicts, hdoes.printed, hdoes.success⟩

/-- A run that is not ready is aborted. -/
theorem aborts_run (hformat : request.format = false ∨ around.format.Steady)
    (hfind : findTargets request.targets = .ok targets)
    (hready : ¬ Ready around request files targets) :
    (∃ a, .aborted a ∈ (run around request files).log) ∧
      (run around request files).success = false := by
  obtain ⟨target, hready⟩ := Classical.not_forall.1 hready
  obtain ⟨ht, hnone⟩ := Classical.not_imp.1 hready
  -- the target is in the group of its document, which is the one that is missing
  have hgroup : ∃ group ∈ byDocument targets, target ∈ group.2 := by
    have hmem := (inOrder_perm targets).mem_iff.2 ht
    exact List.mem_flatMap.1 hmem
  obtain ⟨group, hg, htg⟩ := hgroup
  rw [run, hfind]
  refine aborts_runDocuments hformat (sound_start files) (fun group hg => ⟨fun target ht => ?_, ?_⟩)
    ⟨group, hg, ?_⟩
  · exact subset_all_of_findTargets hfind (document_of_mem_byDocument hg ht).1
  · exact (eq_filter_of_mem_byDocument hg).2
  · rw [(document_of_mem_byDocument hg htg).2] at hnone
    exact Option.not_isSome_iff_eq_none.1 hnone

/-- A run that is asked for an unknown target is aborted before anything is done. -/
theorem aborts_run_of_unknown {unknown : String}
    (hfind : findTargets request.targets = .error unknown) (around : Surroundings)
    (files : FileTree String) :
    (run around request files).log = [.aborted (.unknownTarget unknown)] ∧
      (run around request files).success = false ∧ (run around request files).files = files := by
  rw [run, hfind]
  exact ⟨rfl, rfl, rfl⟩

end

end ApiStencil.Generator
