/-
ApiStencil/Proofs/Cache.lean

The cache is transparent.  A history of steps writes, replaces and removes sources,
loads them through one cache file, and does to that file whatever may happen to it.

Main statement: as long as a source never has two contents at one time of
modification, every load gives what building the source would give, the registry or
the error (`history_transparent`), and a registry that was kept for one configuration
serves all that differ in the order of their state tracking code only.

The invariant is `Sound`: each snapshot in the tree, wherever it stands, was built from
a source that was found with the time and the configuration that the snapshot names.
A load relies on it (`load_of_sound`); every step keeps it (`sound_step`), because only
loads make snapshots (`file_of_step`).
-/
import ApiStencil.Cache
import ApiStencil.Proofs.FileTree.Walk
import ApiStencil.Proofs.Registry.Tracking

namespace ApiStencil.Cache

open FileTree

/-! ### Histories -/

/-- What can happen to sources and to the cache file. -/
inductive Step where
  /-- Creates or replaces a source. -/
  | write (source : Route) (document : Except Registry.Error Document) (modified : Int)
  | remove (source : Route)
  | load (source : Route) (config : Config)
  | clear
  /-- Overwrites the cache file with a text that is no snapshot. -/
  | corrupt (document : Except Registry.Error Document) (modified : Int)
  /-- Makes a directory in the place of the cache file. -/
  | makeDirectory
  /-- Drops the cache, which removes its file, and opens it again. -/
  | reopen

/-- The answer of a step, if it is a load, and the tree that it leaves. -/
def step (file : Route) (t : FileTree Stored) :
    Step → Option (Except Registry.Error Loaded) × FileTree Stored
  | .write source document modified =>
    (none, (source.put (.source ⟨document, some modified⟩) t).2)
  | .remove source => (none, (source.remove t).toOption.getD t)
  | .load source config =>
    let (answer, t) := load file source.names (sourceAt t source) config t
    (some answer, t)
  | .clear | .reopen => (none, (clear file t).2)
  | .corrupt document modified =>
    (none, (file.write (.source ⟨document, some modified⟩) t).toOption.getD t)
  | .makeDirectory => (none, (file.makeDirectory t).2)

/-- A step with the tree that it finds, its answer and the tree that it leaves. -/
structure Event where
  step : Step
  before : FileTree Stored
  answer : Option (Except Registry.Error Loaded)
  after : FileTree Stored

/-- What happens when steps follow one another, from the first tree on. -/
def history (file : Route) (t : FileTree Stored) : List Step → List Event
  | [] => []
  | s :: r => ⟨s, t, (step file t s).1, (step file t s).2⟩ :: history file (step file t s).2 r

/-- Whether a load has found a source at a route's end. -/
def Found (events : List Event) (r : Route) (s : Source) : Prop :=
  ∃ e ∈ events, (∃ config, e.step = .load r config) ∧ r.read e.before = .ok (.source s)

/-- Whether no source has two contents at one time of modification. -/
def Stable (events : List Event) : Prop :=
  ∀ r s s', Found events r s → Found events r s' → s.modified = s'.modified →
    s.document = s'.document

/-- A tree without snapshots, whose sources have times of modification. -/
structure Unused (t : FileTree Stored) : Prop where
  snapshots : ∀ q s, t.at? q ≠ some (.file (.snapshot s))
  timed : ∀ q s, t.at? q = some (.file (.source s)) → s.modified.isSome

/-! ### Loading -/

section

variable {file r : Route} {t t' : FileTree Stored} {origin : List String} {source s : Source}
  {config a b : Config} {kept : Snapshot} {registry : Registry} {l : Loaded} {q : Path}
  {c : Stored} {e : Registry.Error}

/-- A snapshot that is found is what the cache file holds; every other content counts as none. -/
theorem readSnapshot_eq_some_iff :
    (readSnapshot file t).toOption.join = some kept ↔ file.read t = .ok (.snapshot kept) := by
  unfold readSnapshot
  -- a snapshot, another content, or nothing that can be read
  split
  · next s' h =>
    rw [h]
    constructor
    · rintro ⟨⟩
      rfl
    · rintro ⟨⟩
      rfl
  · next c hc h =>
    rw [h]
    refine ⟨nofun, fun hs => ?_⟩
    exact absurd (Except.ok.inj hs) (hc kept)
  all_goals
    rename_i h
    rw [h]
    exact ⟨nofun, nofun⟩

/-- A snapshot that is written can be read. -/
theorem read_of_writeSnapshot (h : writeSnapshot file kept t = (.ok (), t')) :
    file.read t' = .ok (.snapshot kept) := by
  unfold writeSnapshot at h
  cases he : kept.modified.any (· < 0) with
  | true =>
    rw [he] at h
    dsimp only at h
    split at h <;> cases h
  | false =>
    rw [he] at h
    dsimp only at h
    split at h
    · next t₁ hw =>
      cases h
      obtain ⟨path, -, hread, -⟩ := Route.exists_of_write hw
      exact hread
    · cases h

/-- A file that is there after a snapshot was written was there before, is the snapshot, or is what
a snapshot without a written form leaves. -/
theorem file_of_writeSnapshot (h : (writeSnapshot file kept t).2.at? q = some (.file c)) :
    t.at? q = some (.file c) ∨ c = .other ∨ c = .snapshot kept := by
  unfold writeSnapshot at h
  dsimp only at h
  split at h
  · next t₁ hw =>
    refine (Route.file_of_write hw h).imp_right fun hc => ?_
    split at hc
    · exact .inl hc
    · exact .inr hc
  · exact .inl h

/-- Either the cache file holds a snapshot that fits, or it holds none that does. -/
theorem fits_or_not (file : Route) (t : FileTree Stored) (origin : List String) (source : Source)
    (config : Config) :
    (∃ kept, file.read t = .ok (.snapshot kept) ∧
      kept.fits origin source.modified config = true) ∨
    ∀ kept, file.read t = .ok (.snapshot kept) →
      kept.fits origin source.modified config = false := by
  by_cases h : ∃ kept, file.read t = .ok (.snapshot kept) ∧
      kept.fits origin source.modified config = true
  · exact .inl h
  · exact .inr fun kept hk => Bool.eq_false_iff.2 fun hf => h ⟨kept, hk, hf⟩

/-- A snapshot that fits is served, and nothing changes. -/
theorem load_of_fits (h : file.read t = .ok (.snapshot kept))
    (hf : kept.fits origin source.modified config = true) :
    load file origin source config t = (.ok ⟨kept.registry, true, none⟩, t) := by
  have hsome : (readSnapshot file t).toOption.join.filter
      (·.fits origin source.modified config) = some kept :=
    Option.filter_eq_some_iff.2 ⟨readSnapshot_eq_some_iff.2 h, hf⟩
  rw [load, hsome]

/-- A load does not look at a snapshot that does not fit. -/
theorem filter_eq_none (h : ∀ kept, file.read t = .ok (.snapshot kept) →
      kept.fits origin source.modified config = false) :
    (readSnapshot file t).toOption.join.filter
      (·.fits origin source.modified config) = none := by
  refine Option.filter_eq_none_iff.2 fun kept hk => ?_
  rw [h kept (readSnapshot_eq_some_iff.1 hk)]
  exact Bool.false_ne_true

/-- If no snapshot fits and nothing can be built, a load says so and leaves the tree alone. -/
theorem load_of_error (h : ∀ kept, file.read t = .ok (.snapshot kept) →
      kept.fits origin source.modified config = false) (hb : source.build config = .error e) :
    load file origin source config t = (.error e, t) := by
  simp only [load, filter_eq_none h, hb]

/-- If no snapshot fits, a load gives what it builds, whether or not that can be kept. -/
theorem load_of_ok (h : ∀ kept, file.read t = .ok (.snapshot kept) →
      kept.fits origin source.modified config = false)
    (hb : source.build config = .ok registry) :
    ∃ unsaved, load file origin source config t = (.ok ⟨registry, false, unsaved⟩,
        (writeSnapshot file ⟨origin, source.modified, config, registry⟩ t).2) ∧
      (unsaved = none →
        (writeSnapshot file ⟨origin, source.modified, config, registry⟩ t).1 = .ok ()) := by
  cases hw : writeSnapshot file ⟨origin, source.modified, config, registry⟩ t with
  | mk written t₁ =>
    cases written with
    | ok => exact ⟨none, by simp only [load, filter_eq_none h, hb, hw], fun _ => rfl⟩
    | error e => exact ⟨some e, by simp only [load, filter_eq_none h, hb, hw], nofun⟩

/-- A load gives what building would give if the snapshots that fit hold just that. -/
theorem registry_load (h : ∀ kept, file.read t = .ok (.snapshot kept) →
      kept.fits origin source.modified config = true →
      source.build config = .ok kept.registry) :
    (load file origin source config t).1.map Loaded.registry = source.build config := by
  rcases fits_or_not file t origin source config with ⟨kept, hk, hf⟩ | hnot
  · rw [load_of_fits hk hf, h kept hk hf]
    rfl
  · cases hb : source.build config with
    | error e =>
      rw [load_of_error hnot hb]
      rfl
    | ok registry =>
      obtain ⟨unsaved, hload, -⟩ := load_of_ok hnot hb
      rw [hload]
      rfl

/-- A load leaves the files that it finds, and may keep what it has built. -/
theorem file_of_load (h : (load file origin source config t).2.at? q = some (.file c)) :
    t.at? q = some (.file c) ∨ c = .other ∨ ∃ registry, source.build config = .ok registry ∧
      c = .snapshot ⟨origin, source.modified, config, registry⟩ := by
  rcases fits_or_not file t origin source config with ⟨kept, hk, hf⟩ | hnot
  · rw [load_of_fits hk hf] at h
    exact .inl h
  -- without a snapshot that fits, the registry is built, and kept if that succeeds
  · cases hb : source.build config with
    | error e =>
      rw [load_of_error hnot hb] at h
      exact .inl h
    | ok registry =>
      obtain ⟨unsaved, hload, -⟩ := load_of_ok hnot hb
      rw [hload] at h
      refine (file_of_writeSnapshot h).imp_right fun hc => ?_
      exact hc.imp_right fun hc => ⟨registry, rfl, hc⟩

/-- What a load has kept, or was served with, fits the next one. -/
theorem read_of_load (h : load file origin source config t = (.ok l, t'))
    (hu : l.unsaved = none) : ∃ kept, file.read t' = .ok (.snapshot kept) ∧
      kept.fits origin source.modified config = true ∧ kept.registry = l.registry := by
  rcases fits_or_not file t origin source config with ⟨kept, hk, hf⟩ | hnot
  · rw [load_of_fits hk hf] at h
    cases h
    exact ⟨kept, hk, hf, rfl⟩
  · cases hb : source.build config with
    | error e =>
      rw [load_of_error hnot hb] at h
      cases h
    | ok registry =>
      obtain ⟨unsaved, hload, hwritten⟩ := load_of_ok hnot hb
      rw [hload] at h
      cases h
      refine ⟨_, read_of_writeSnapshot (Prod.ext (hwritten hu) rfl), ?_, rfl⟩
      rw [Snapshot.fits, beq_self_eq_true, beq_self_eq_true]
      exact Config.agrees_iff.2 (.refl config)

theorem Source.build_of_reorders (h : a.Reorders b) : source.build a = source.build b := by
  have hbuild : Registry.build a = Registry.build b := funext (Registry.build_of_reorders h)
  rw [Source.build, Source.build, hbuild]

/-- Configurations that differ in the order of their state tracking code share what is kept. -/
theorem load_of_reorders (h : load file origin source a t = (.ok l, t')) (hu : l.unsaved = none)
    (hab : a.Reorders b) : load file origin source b t' = (.ok ⟨l.registry, true, none⟩, t') := by
  obtain ⟨kept, hk, hf, hr⟩ := read_of_load h hu
  have hfb : kept.fits origin source.modified b = true := by
    rw [Snapshot.fits, ← Config.agrees_congr hab]
    exact hf
  rw [load_of_fits hk hfb, hr]

/-- A route leads to a source, or there is nothing to build, without a time. -/
theorem read_or_unreadable (t : FileTree Stored) (r : Route) :
    r.read t = .ok (.source (sourceAt t r)) ∨
      (∃ e, (sourceAt t r).document = .error e) ∧ (sourceAt t r).modified = none := by
  rw [Route.read, sourceAt]
  cases r.lookup t with
  | error e => exact .inr ⟨⟨_, rfl⟩, rfl⟩
  | ok s =>
    cases s with
    | directory entries => exact .inr ⟨⟨_, rfl⟩, rfl⟩
    | file c =>
      cases c with
      | source s => exact .inl rfl
      | snapshot kept => exact .inr ⟨⟨_, rfl⟩, rfl⟩
      | other => exact .inr ⟨⟨_, rfl⟩, rfl⟩

/-- A source from which a registry was built is there. -/
theorem read_of_build (h : (sourceAt t r).build config = .ok registry) :
    r.read t = .ok (.source (sourceAt t r)) := by
  refine (read_or_unreadable t r).resolve_right ?_
  rintro ⟨⟨e, he⟩, -⟩
  rw [Source.build, he] at h
  cases h

/-- So is one with a time of modification. -/
theorem read_of_modified (h : (sourceAt t r).modified.isSome) :
    r.read t = .ok (.source (sourceAt t r)) := by
  refine (read_or_unreadable t r).resolve_right ?_
  rintro ⟨-, hm⟩
  rw [hm] at h
  cases h

theorem at?_of_read {content : Stored} (h : r.read t = .ok content) :
    ∃ q, t.at? q = some (.file content) := by
  obtain ⟨-, q, -, hq⟩ := Route.read_eq_ok_iff.1 h
  exact ⟨q, hq⟩

end

/-! ### What steps make -/

/-- The source that a step writes, whatever it may stand for. -/
def Step.source? : Step → Option Source
  | .write _ document modified => some ⟨document, some modified⟩
  | .corrupt document modified => some ⟨document, some modified⟩
  | _ => none

/-- The files that a step can make. -/
inductive Step.Makes (t : FileTree Stored) : Step → Stored → Prop where
  | written (source : Route) (document : Except Registry.Error Document) (modified : Int) :
    Makes t (.write source document modified) (.source ⟨document, some modified⟩)
  | corrupted (document : Except Registry.Error Document) (modified : Int) :
    Makes t (.corrupt document modified) (.source ⟨document, some modified⟩)
  | unwritable (source : Route) (config : Config) : Makes t (.load source config) .other
  | kept {source : Route} {config : Config} {registry : Registry}
    (h : (sourceAt t source).build config = .ok registry) :
    Makes t (.load source config)
      (.snapshot ⟨source.names, (sourceAt t source).modified, config, registry⟩)

section

variable {file : Route} {t t' : FileTree Stored} {steps : List Step} {q : Path} {c : Stored}

/-- Clearing the cache makes no file. -/
theorem file_of_clear (h : (clear file t).2.at? q = some (.file c)) :
    t.at? q = some (.file c) := by
  rw [clear] at h
  split at h
  · next t₁ hr => exact Route.at?_of_remove hr h
  · exact h
  · exact h

/-- A file that is there after a step was there before, or is one that the step can make. -/
theorem file_of_step {s : Step} (h : (step file t s).2.at? q = some (.file c)) :
    t.at? q = some (.file c) ∨ s.Makes t c := by
  cases s with
  | write source document modified =>
    refine (Route.file_of_put h).imp_right fun hc => ?_
    subst hc
    exact .written source document modified
  | remove source =>
    refine .inl ?_
    rw [step] at h
    cases hr : source.remove t with
    | error e =>
      rw [hr] at h
      exact h
    | ok t₁ =>
      rw [hr] at h
      exact Route.at?_of_remove hr h
  | load source config =>
    rcases file_of_load h with h | rfl | ⟨registry, hb, rfl⟩
    · exact .inl h
    · exact .inr (.unwritable source config)
    · exact .inr (.kept hb)
  | clear => exact .inl (file_of_clear h)
  | corrupt document modified =>
    rw [step] at h
    cases hw : file.write (.source ⟨document, some modified⟩) t with
    | error e =>
      rw [hw] at h
      exact .inl h
    | ok t₁ =>
      rw [hw] at h
      refine (Route.file_of_write hw h).imp_right fun hc => ?_
      subst hc
      exact .corrupted document modified
  | makeDirectory => exact .inl (Route.file_of_makeDirectory h)
  | reopen => exact .inl (file_of_clear h)

/-- What a load finds as a source was there at first, or a step has written it. -/
theorem source_of_found {r : Route} {source : Source}
    (h : Found (history file t steps) r source) :
    (∃ q, t.at? q = some (.file (.source source))) ∨ source ∈ steps.filterMap Step.source? := by
  induction steps generalizing t with
  | nil =>
    obtain ⟨e, he, -⟩ := h
    cases he
  | cons s steps ih =>
    obtain ⟨e, he, hload, hread⟩ := h
    rcases List.mem_cons.1 he with rfl | he
    · exact .inl (at?_of_read hread)
    · rcases ih ⟨e, he, hload, hread⟩ with ⟨q, hq⟩ | hmem
      · rcases file_of_step hq with hq | hm
        · exact .inl ⟨q, hq⟩
        · refine .inr (List.mem_filterMap.2 ⟨s, List.mem_cons_self, ?_⟩)
          cases hm <;> rfl
      · refine .inr ?_
        obtain ⟨s', hs', hsource⟩ := List.mem_filterMap.1 hmem
        exact List.mem_filterMap.2 ⟨s', List.mem_cons_of_mem _ hs', hsource⟩

/-- A history is stable if it starts without sources and writes one document at a time. -/
theorem stable_of_steps (ht : ∀ q s, t.at? q ≠ some (.file (.source s)))
    (hs : ∀ s ∈ steps.filterMap Step.source?, ∀ s' ∈ steps.filterMap Step.source?,
      s.modified = s'.modified → s.document = s'.document) :
    Stable (history file t steps) := by
  intro r s s' h h'
  have hwritten : ∀ s, Found (history file t steps) r s → s ∈ steps.filterMap Step.source? := by
    intro s h
    refine (source_of_found h).resolve_left ?_
    rintro ⟨q, hq⟩
    exact ht q s hq
  exact hs s (hwritten s h) s' (hwritten s' h')

/-! ### The invariant -/

/-- Whether each snapshot was built from a source that was found with the time and the configuration
that the snapshot names. -/
structure Sound (found : Route → Source → Prop) (t : FileTree Stored) : Prop where
  snapshots : ∀ q kept, t.at? q = some (.file (.snapshot kept)) →
    kept.modified.isSome ∧ ∃ s, found (.ofPath kept.source) s ∧ s.modified = kept.modified ∧
      s.build kept.config = .ok kept.registry
  timed : ∀ q s, t.at? q = some (.file (.source s)) → s.modified.isSome

variable {found : Route → Source → Prop}

/-- A tree without snapshots is sound. -/
theorem Unused.sound (h : Unused t) : Sound found t where
  snapshots := fun q kept hq => absurd hq (h.snapshots q kept)
  timed := h.timed

/-- Every step keeps the invariant, if what loads find counts as found. -/
theorem sound_step (h : Sound found t) {s : Step}
    (hf : ∀ r config source, s = .load r config → r.read t = .ok (.source source) →
      found r source) : Sound found (step file t s).2 where
  snapshots := by
    intro q kept hq
    rcases file_of_step hq with hq | hm
    · exact h.snapshots q kept hq
    · cases hm with
      -- only a load makes a snapshot, and it has just found the source
      | @kept r config registry hb =>
        have hread := read_of_build hb
        obtain ⟨p, hp⟩ := at?_of_read hread
        refine ⟨h.timed p _ hp, sourceAt t r, ?_, rfl, hb⟩
        rw [← Route.eq_ofPath_of_read hread]
        exact hf r config _ rfl hread
  timed := by
    intro q source hq
    rcases file_of_step hq with hq | hm
    · exact h.timed q source hq
    · cases hm <;> rfl

/-- In a sound tree, a load gives what building would give, if the source has not changed without
its time changing. -/
theorem load_of_sound (h : Sound found t) {r : Route} (config : Config)
    (hs : ∀ s s', found r s → r.read t = .ok (.source s') → s.modified = s'.modified →
      s.document = s'.document) :
    (load file r.names (sourceAt t r) config t).1.map Loaded.registry =
      (sourceAt t r).build config := by
  refine registry_load fun kept hk hfits => ?_
  simp only [Snapshot.fits, Bool.and_eq_true, beq_iff_eq] at hfits
  obtain ⟨⟨hnames, hmodified⟩, hagrees⟩ := hfits
  obtain ⟨q, hq⟩ := at?_of_read hk
  obtain ⟨htimed, s, hfound, hs', hb⟩ := h.snapshots q kept hq
  -- the snapshot names a time, so the route leads to a source now, with this time
  have hread : r.read t = .ok (.source (sourceAt t r)) :=
    read_of_modified (hmodified ▸ htimed)
  rw [hnames, ← Route.eq_ofPath_of_read hread] at hfound
  have hdocument : s.document = (sourceAt t r).document :=
    hs s _ hfound hread (hs'.trans hmodified)
  rw [← hb, Source.build_of_reorders (Config.agrees_iff.1 hagrees), Source.build, Source.build,
    ← hdocument]

/-! ### Whole histories -/

/-- Every load of a history that starts in a sound tree gives what building would give. -/
theorem registry_of_history (h : Sound found t)
    (hf : ∀ r s, Found (history file t steps) r s → found r s)
    (hs : ∀ r s s', found r s → found r s' → s.modified = s'.modified →
      s.document = s'.document) :
    ∀ e ∈ history file t steps, ∀ r config, e.step = .load r config →
      (load file r.names (sourceAt e.before r) config e.before).1.map Loaded.registry =
        (sourceAt e.before r).build config := by
  -- by induction on the history; the invariant goes from each tree to the next
  induction steps generalizing t with
  | nil =>
    intro e he
    cases he
  | cons s steps ih =>
    rw [history] at hf ⊢
    have hfirst : ∀ r config source, s = .load r config → r.read t = .ok (.source source) →
        found r source := fun r config source hr hread =>
      hf r source ⟨_, List.mem_cons_self, ⟨config, hr⟩, hread⟩
    refine List.forall_mem_cons.2 ⟨?_, ?_⟩
    · intro r config hr
      refine load_of_sound h config fun source source' hold hread => ?_
      exact hs r source source' hold (hfirst r config source' hr hread)
    · -- what the later loads find counts as found in the whole history
      refine ih (sound_step h hfirst) fun r source hrest => ?_
      obtain ⟨e, he, hload, hread⟩ := hrest
      exact hf r source ⟨e, List.mem_cons_of_mem _ he, hload, hread⟩

/-- An event of a history is what its step does in the tree that it finds. -/
theorem eq_step_of_history {e : Event} (he : e ∈ history file t steps) :
    (e.answer, e.after) = step file e.before e.step := by
  induction steps generalizing t with
  | nil => cases he
  | cons s steps ih =>
    rcases List.mem_cons.1 he with rfl | he
    · rfl
    · exact ih he

end

/-- The cache is transparent, and configurations that differ in the order of their state tracking
code share what it keeps. -/
theorem history_transparent {file : Route} {t : FileTree Stored} {steps : List Step}
    (hu : Unused t) (hs : Stable (history file t steps)) :
    ∀ e ∈ history file t steps, ∀ r config, e.step = .load r config →
      ∃ answer, e.answer = some answer ∧
        answer.map Loaded.registry = (sourceAt e.before r).build config ∧
        ∀ l b, answer = .ok l → l.unsaved = none → config.Reorders b →
          load file r.names (sourceAt e.before r) b e.after =
            (.ok ⟨l.registry, true, none⟩, e.after) := by
  intro e he r config hr
  have heq := eq_step_of_history he
  rw [hr] at heq
  obtain ⟨hanswer, hafter⟩ := Prod.mk.inj heq
  refine ⟨_, hanswer, registry_of_history hu.sound (fun _ _ h => h) hs e he r config hr, ?_⟩
  intro l b hl hunsaved hb
  exact load_of_reorders (Prod.ext hl hafter.symm) hunsaved hb

/-- State tracking code in one order. -/
def forth : Config := (Config.default.withStateTracking "f" "1").withStateTracking "g" "2"

/-- The same code in the other order. -/
def back : Config := (Config.default.withStateTracking "g" "2").withStateTracking "f" "1"

/-- Two versions of a source, loaded with the code in both orders, while the cache file is
overwritten, removed and replaced by a directory, and the source is removed in the end. -/
def switching (source : Route) : List Step :=
  [.write source (.ok []) 1, .load source forth, .load source back,
    .corrupt (.error .missingRoot) 2, .load source back, .write source (.ok [.commands []]) 3,
    .load source forth, .reopen, .makeDirectory, .load source forth, .remove source,
    .load source forth]

/-- What happens when these steps follow one another in an empty tree. -/
def switched : List Event :=
  history (.ofPath ["cache"]) FileTree.empty (switching (.ofPath ["registry", "vk"]))

/-- The second load is served from the snapshot that was made for the other order. After the source
has changed, and after the file has been damaged, the registry is built again. -/
theorem history_transparent_switched :
    forth.Reorders back ∧ Unused FileTree.empty ∧ Stable switched ∧
      switched.map (fun e => e.answer.map fun l => l.toOption.map Loaded.fromCache) =
        [none, some (some false), some (some true), none, some (some false), none,
          some (some false), none, none, some (some false), none, some none] ∧
      ∀ e ∈ switched, ∀ r config, e.step = .load r config →
        ∃ answer, e.answer = some answer ∧
          answer.map Loaded.registry = (sourceAt e.before r).build config ∧
          ∀ l b, answer = .ok l → l.unsaved = none → config.Reorders b →
            load (.ofPath ["cache"]) r.names (sourceAt e.before r) b e.after =
              (.ok ⟨l.registry, true, none⟩, e.after) := by
  have hempty : ∀ q c, (FileTree.empty : FileTree Stored).at? q ≠ some (.file c) := by
    intro q c
    cases q <;> exact nofun
  have hunused : Unused FileTree.empty :=
    ⟨fun q s => hempty q _, fun q s h => absurd h (hempty q _)⟩
  have hstable : Stable switched := by
    refine stable_of_steps (fun q s => hempty q _) ?_
    decide
  exact ⟨Config.agrees_iff.1 (by decide), hunused, hstable, by decide +kernel,
    history_transparent hunused hstable⟩

end ApiStencil.Cache
