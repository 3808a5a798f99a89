/-
ApiStencil/Proofs/Output/Write.lean

What bringing files up to date does to the tree of files, request after request.

Main statement: every step of every history keeps the law of writing (`Step.Lawful`), and
right after a file has been written the same text finds it unchanged
(`history_lawful`).  So each file of the last tree was there from the start or has been
written (`file_of_history`).

A step that fails changes nothing, for one reason: the file is looked for before
anything is made, and looking finds every file and directory in the way
(`Route.put_of_read`, `Route.put_of_absent`).  That reason needs a path of plain names.
A path with double dots, or with an ending of directories, can lead to nothing as long
as a directory on the way is missing, and to a directory once that has been made; then
the step fails and what it made stays (`not_forall_update_failed`).
-/
import ApiStencil.Output.Write
import ApiStencil.Proofs.FileTree.Walk

namespace ApiStencil.Output

open FileTree

/-! ### Steps -/

/-- A text that the file at a written path should hold. -/
structure Request where
  written : String
  content : String
  mode : Mode
deriving DecidableEq, Repr

/-- A request with its answer and the trees around it. -/
structure Step where
  request : Request
  before : FileTree String
  answer : Except FileError Outcome
  after : FileTree String

/-- What a request does in a tree. -/
def step (directory : Path) (t : FileTree String) (q : Request) : Step :=
  let (answer, after) := update t directory q.written q.content q.mode
  ⟨q, t, answer, after⟩

/-- The steps that follow one another, from the first tree on. -/
def history (directory : Path) (t : FileTree String) : List Request → List Step
  | [] => []
  | q :: r => step directory t q :: history directory (step directory t q).after r

namespace Step

variable (directory : Path) (s : Step)

/-- The way to the file of a step. -/
def route : Route :=
  Route.ofString directory s.request.written

/-- Whether nothing but directories has been added, and these only on the way. -/
def AddsDirectories : Prop :=
  ∀ q, s.after.at? q = s.before.at? q ∨
    q ∈ (s.route directory).passed ∧ s.before.at? q = none ∧ s.after.at? q = some .directory

/-- Whether the step has put its text into the file at `path`, and has made no more than the
directories on the way. -/
structure Writes (path : Path) : Prop where
  holds : (s.route directory).Holds s.request.content s.before s.after path
  plain : (s.route directory).IsPlain → path = (s.route directory).names
  above : ∀ q, q <+: path → q ≠ path → s.after.at? q = some .directory

/-- The law of writing. -/
structure Lawful : Prop where
  /-- Nothing is written to compare. -/
  verify : s.request.mode = .verify → s.after = s.before
  /-- A step that fails changes nothing, unless its path leads to nothing and is not plain. -/
  failed : ∀ e, s.answer = .error e → s.after = s.before ∨
    (s.route directory).read s.before = .error .notFound ∧ ¬ (s.route directory).IsPlain ∧
      s.AddsDirectories directory
  /-- At a plain path, a step fails for a directory there or a file in the way. -/
  refused : (s.route directory).IsPlain → ((∃ e, s.answer = .error e) ↔
    s.before.at? (s.route directory).names = some .directory ∨
      ∃ above content, above <+: (s.route directory).names ∧
        above ≠ (s.route directory).names ∧ s.before.at? above = some (.file content))
  written : s.answer = .ok .written →
    (s.request.mode = .generate ∨ s.request.mode = .incremental) ∧ ∃ path, s.Writes directory path
  unchanged : s.answer = .ok .unchanged ↔
    (s.route directory).read s.before = .ok s.request.content ∧
      (s.request.mode = .verify ∨ s.request.mode = .incremental)
  untouched : s.answer = .ok .unchanged → s.after = s.before
  mismatch : (∃ d, s.answer = .ok (.mismatch d)) ↔
    s.request.mode = .verify ∧ ((s.route directory).read s.before = .error .notFound ∨
      ∃ old, old ≠ s.request.content ∧ (s.route directory).read s.before = .ok old)

/-- Whether `next`, if it asks for the text that `s` has written, finds it. -/
def Settles (s next : Step) : Prop :=
  next.before = s.after ∧ (s.answer = .ok .written → next.request.written = s.request.written →
    next.request.content = s.request.content → next.request.mode ≠ .generate →
    next.answer = .ok .unchanged)

end Step

/-! ### Looking at what is there -/

section

variable {t : FileTree String} {r : Route} {old : Option String} {shown content : String}

/-- That there is no file is what looking says when nothing is there. -/
theorem existing_eq_none_iff : existing t r = .ok none ↔ r.read t = .error .notFound := by
  unfold existing
  split
  · next h => rw [h]; exact ⟨nofun, nofun⟩
  · next h => rw [h]; exact ⟨fun _ => rfl, fun _ => rfl⟩
  · next e hne h => rw [h]; exact ⟨nofun, fun h => absurd (Except.error.inj h) hne⟩

/-- The text that looking finds is the one that reading finds. -/
theorem existing_eq_some_iff : existing t r = .ok (some content) ↔ r.read t = .ok content := by
  unfold existing
  split
  · next c h =>
    rw [h]
    exact ⟨fun h => congrArg _ (Option.some.inj (Except.ok.inj h)),
      fun h => congrArg _ (congrArg _ (Except.ok.inj h))⟩
  · next h => rw [h]; exact ⟨nofun, nofun⟩
  · next e hne h => rw [h]; exact ⟨nofun, nofun⟩

/-- What cannot be looked at cannot be read, and not because nothing is there. -/
theorem read_of_existing_error {e : FileError} (h : existing t r = .error e) :
    r.read t = .error e ∧ e ≠ .notFound := by
  unfold existing at h
  split at h
  · cases h
  · cases h
  · next e' hne hr =>
    cases h
    exact ⟨hr, hne⟩

/-- Only the same text is unchanged. -/
theorem compare_eq_unchanged_iff (shown : String) :
    compare shown old content = .unchanged ↔ old = some content := by
  cases old with
  | none => exact ⟨nofun, nofun⟩
  | some old =>
    rw [compare, Option.some.injEq]
    split
    · next h => exact ⟨fun _ => h, fun _ => rfl⟩
    · next h => exact ⟨nofun, fun h' => absurd h' h⟩

/-- Everything else is a mismatch, also a file that is not there. -/
theorem compare_eq_mismatch_iff (shown : String) :
    (∃ d, compare shown old content = .mismatch d) ↔ old ≠ some content := by
  rw [ne_eq, ← compare_eq_unchanged_iff shown]
  cases old with
  | none => exact ⟨fun _ => nofun, fun _ => ⟨_, rfl⟩⟩
  | some old =>
    rw [compare]
    split
    · exact ⟨fun h => (nomatch h.choose_spec), fun h => absurd rfl h⟩
    · exact ⟨fun _ => nofun, fun _ => ⟨_, rfl⟩⟩

/-- Comparing writes nothing. -/
theorem compare_ne_written : compare shown old content ≠ .written := by
  intro h
  by_cases ho : old = some content
  · rw [(compare_eq_unchanged_iff shown).2 ho] at h
    cases h
  · obtain ⟨d, hd⟩ := (compare_eq_mismatch_iff shown).2 ho
    rw [hd] at h
    cases h

/-- What keeps a plain path from being looked at is a directory there or a file in the way. -/
theorem read_error_iff (h : r.IsPlain) :
    (∃ e, r.read t = .error e ∧ e ≠ .notFound) ↔ t.at? r.names = some .directory ∨
      ∃ above content, above <+: r.names ∧ above ≠ r.names ∧
        t.at? above = some (.file content) := by
  rw [Route.read_of_isPlain h, FileTree.read, ← lookup_eq_notDirectory_iff,
    at?_eq_directory_iff]
  cases hl : t.lookup r.names with
  | error e =>
    constructor
    · rintro ⟨e', he, hne⟩
      cases he
      exact .inr (congrArg _ ((lookup_error hl).resolve_left hne))
    · rintro (⟨entries, h⟩ | h)
      · cases h
      · cases h
        exact ⟨_, rfl, FileError.noConfusion⟩
  | ok s =>
    cases s with
    | file c =>
      constructor
      · rintro ⟨e, he, -⟩
        cases he
      · rintro (⟨entries, h⟩ | h) <;> cases h
    | directory entries =>
      exact ⟨fun _ => .inl ⟨entries, rfl⟩, fun _ => ⟨_, rfl, FileError.noConfusion⟩⟩

end

/-! ### What a step can do -/

namespace Step

/-- The ways a step can go. -/
inductive Follows (directory : Path) : Step → Prop
  /-- The path cannot be looked at. -/
  | refused {q t e} : (Route.ofString directory q.written).read t = .error e → e ≠ .notFound →
      Follows directory ⟨q, t, .error e, t⟩
  | compared {q t old} : q.mode = .verify →
      existing t (Route.ofString directory q.written) = .ok old →
      Follows directory ⟨q, t, .ok (compare q.written old q.content), t⟩
  | kept {q t} : q.mode = .incremental →
      (Route.ofString directory q.written).read t = .ok q.content →
      Follows directory ⟨q, t, .ok .unchanged, t⟩
  | wrote {q t t'} : q.mode ≠ .verify →
      (q.mode = .incremental → (Route.ofString directory q.written).read t ≠ .ok q.content) →
      (Route.ofString directory q.written).put q.content t = (.ok (), t') →
      (∃ old, existing t (Route.ofString directory q.written) = .ok old) →
      Follows directory ⟨q, t, .ok .written, t'⟩
  /-- The path can be looked at, and yet no file can be put there. -/
  | broke {q t e t'} : q.mode ≠ .verify →
      (Route.ofString directory q.written).put q.content t = (.error e, t') →
      (∃ old, existing t (Route.ofString directory q.written) = .ok old) →
      Follows directory ⟨q, t, .error e, t'⟩

end Step

/-- A step goes one of these ways.  The lemmas about steps that follow do not look into it any more;
they are by cases on the way it goes. -/
theorem follows_step (directory : Path) (t : FileTree String) (q : Request) :
    (step directory t q).Follows directory := by
  rw [step, update]
  cases hold : existing t (Route.ofString directory q.written) with
  | error e =>
    obtain ⟨hread, hne⟩ := read_of_existing_error hold
    exact .refused hread hne
  | ok old =>
    dsimp only
    by_cases hv : q.mode = .verify
    · rw [if_pos hv]
      exact .compared hv hold
    · rw [if_neg hv]
      by_cases hk : q.mode = .incremental ∧ old = some q.content
      · rw [if_pos hk]
        exact .kept hk.1 (existing_eq_some_iff.1 (hk.2 ▸ hold))
      · rw [if_neg hk]
        -- the file is put, which may still fail where double dots have led past what is there
        cases hput : (Route.ofString directory q.written).put q.content t with
        | mk x t' =>
          cases x with
          | error e => exact .broke hv hput ⟨old, hold⟩
          | ok u =>
            refine .wrote hv (fun hm hread => hk ⟨hm, ?_⟩) hput ⟨old, hold⟩
            rw [existing_eq_some_iff.2 hread] at hold
            exact (Except.ok.inj hold).symm

namespace Step

variable {directory : Path} {s : Step}

/-- Where a path can be looked at and yet no file can be put there, it leads to nothing and is not
plain. -/
theorem absent_of_broke {q : Request} {t t' : FileTree String} {e : FileError}
    (hput : (Route.ofString directory q.written).put q.content t = (.error e, t'))
    (hold : ∃ old, existing t (Route.ofString directory q.written) = .ok old) :
    (Route.ofString directory q.written).read t = .error .notFound ∧
      ¬ (Route.ofString directory q.written).IsPlain := by
  have hfail : ¬ ∃ t', (Route.ofString directory q.written).put q.content t = (.ok (), t') := by
    rintro ⟨t₁, h⟩
    rw [hput] at h
    cases h
  obtain ⟨_ | c, hold⟩ := hold
  · have hread := existing_eq_none_iff.1 hold
    refine ⟨hread, fun hp => hfail (Route.put_of_absent hp ?_ q.content)⟩
    rw [Route.read_of_isPlain hp, FileTree.read] at hread
    cases hl : t.lookup (Route.ofString directory q.written).names with
    | error e =>
      rw [hl, error_bind] at hread
      exact congrArg _ (Except.error.inj hread)
    | ok s =>
      rw [hl, ok_bind] at hread
      cases s <;> cases hread
  · exact absurd (Route.put_of_read (existing_eq_some_iff.1 hold) q.content) hfail

/-- Where the file could be put, the step has written it. -/
theorem writes_of_put {q : Request} {t t' : FileTree String}
    (hput : (Route.ofString directory q.written).put q.content t = (.ok (), t')) :
    ∃ path, Writes directory ⟨q, t, .ok .written, t'⟩ path := by
  obtain ⟨path, h⟩ := Route.holds_put hput
  refine ⟨path, h, fun hp => ?_, fun a ha hne => at?_above h.content ha hne⟩
  have hleads := h.leads
  rw [Route.resolve_of_isPlain (r := Route.ofString directory q.written) hp] at hleads
  exact (Except.ok.inj hleads).symm

/-- A path that can be looked at has no directory there and no file in the way. -/
theorem not_refused {q : Request} {t : FileTree String} {old : Option String}
    (hold : existing t (Route.ofString directory q.written) = .ok old) :
    ¬ ∃ e, (Route.ofString directory q.written).read t = .error e ∧ e ≠ .notFound := by
  rintro ⟨e, hread, hne⟩
  cases old with
  | none =>
    rw [existing_eq_none_iff.1 hold] at hread
    exact hne (Except.error.inj hread).symm
  | some c =>
    rw [existing_eq_some_iff.1 hold] at hread
    cases hread

/-- Every way to go keeps the law of writing. The ways differ in what was found at the path, so each
clause of the law is either about another answer, or says what was found. -/
theorem lawful_of_follows (h : s.Follows directory) : s.Lawful directory := by
  cases h with
  -- nothing was touched, and something is in the way
  | @refused q t e hread hne =>
    refine ⟨fun _ => rfl, fun _ _ => .inl rfl, fun hp => ?_, nofun, ?_, nofun, ?_⟩
    · rw [← read_error_iff hp]
      exact ⟨fun _ => ⟨e, hread, hne⟩, fun _ => ⟨e, rfl⟩⟩
    · refine ⟨nofun, fun h => ?_⟩
      rw [route, hread] at h
      cases h.1
    · refine ⟨fun h => (nomatch h.choose_spec), ?_⟩
      rintro ⟨-, h | ⟨old, -, h⟩⟩
      · rw [route, hread] at h
        exact absurd (Except.error.inj h) hne
      · rw [route, hread] at h
        cases h
  -- nothing was touched, and the path could be looked at
  | @compared q t old hv hold =>
    refine ⟨fun _ => rfl, nofun, fun hp => ?_, fun h => ?_, ?_, fun _ => rfl, ?_⟩
    · rw [← read_error_iff hp]
      exact ⟨nofun, fun h => absurd h (not_refused hold)⟩
    · exact absurd (Except.ok.inj h) compare_ne_written
    · rw [Except.ok.injEq, compare_eq_unchanged_iff, route, ← existing_eq_some_iff, hold,
        Except.ok.injEq]
      exact (and_iff_left (.inl hv)).symm
    · simp only [Except.ok.injEq]
      rw [compare_eq_mismatch_iff, route, ← existing_eq_none_iff, hold, and_iff_right hv]
      constructor
      · intro hne
        cases old with
        | none => exact .inl rfl
        | some c => exact .inr ⟨c, fun he => hne (congrArg _ he), existing_eq_some_iff.1 hold⟩
      · rintro (h | ⟨c, hne, h⟩) he
        · rw [he] at h
          cases h
        · rw [← existing_eq_some_iff, hold, he] at h
          exact hne (Option.some.inj (Except.ok.inj h)).symm
  -- the file holds the text already
  | @kept q t hm hread =>
    have hold := existing_eq_some_iff.2 hread
    refine ⟨fun _ => rfl, nofun, fun hp => ?_, nofun, ?_, fun _ => rfl, ?_⟩
    · rw [← read_error_iff hp]
      exact ⟨nofun, fun h => absurd h (not_refused hold)⟩
    · exact ⟨fun _ => ⟨hread, .inr hm⟩, fun _ => rfl⟩
    · refine ⟨nofun, fun h => ?_⟩
      rw [hm] at h
      cases h.1
  -- the file did not hold the text, or was to be written anyway
  | @wrote q t t' hv hk hput hold =>
    obtain ⟨old, hold⟩ := hold
    refine ⟨fun h => absurd h hv, nofun, fun hp => ?_, fun _ => ⟨?_, writes_of_put hput⟩, ?_, nofun,
      ?_⟩
    · rw [← read_error_iff hp]
      exact ⟨nofun, fun h => absurd h (not_refused hold)⟩
    · cases hm : q.mode with
      | verify => exact absurd hm hv
      | generate => exact .inl rfl
      | incremental => exact .inr rfl
    · refine ⟨nofun, ?_⟩
      rintro ⟨hread, hm | hm⟩
      · exact absurd hm hv
      · exact absurd hread (hk hm)
    · exact ⟨nofun, fun h => absurd h.1 hv⟩
  -- the only failure that leaves something; it needs a path that is not plain
  | @broke q t e t' hv hput hold =>
    obtain ⟨habsent, hplain⟩ := absent_of_broke hput hold
    refine ⟨fun h => absurd h hv, fun _ _ => .inr ⟨habsent, hplain, Route.at?_put_of_error hput⟩,
      fun hp => absurd hp hplain, nofun, ?_, nofun, ?_⟩
    · refine ⟨nofun, fun h => ?_⟩
      rw [route, habsent] at h
      cases h.1
    · exact ⟨nofun, fun h => absurd h.1 hv⟩

/-- A file was there before the step, or the step has written it. -/
theorem file_of_follows {path : Path} {content : String} (h : s.Follows directory)
    (hf : s.after.at? path = some (.file content)) :
    s.before.at? path = some (.file content) ∨
      s.request.content = content ∧ s.Writes directory path := by
  cases h with
  | wrote _ _ hput _ =>
    obtain ⟨p, hw⟩ := writes_of_put hput
    by_cases hp : path = p
    · subst hp
      have hc := hw.holds.content
      rw [hf] at hc
      cases hc
      exact .inr ⟨rfl, hw⟩
    · exact .inl (file_of_made (hw.holds.others path hp) hf)
  | broke _ hput _ => exact .inl (file_of_made (Route.at?_put_of_error hput path) hf)
  | _ => exact .inl hf

end Step

/-! ### Histories -/

section

variable (directory : Path) (t : FileTree String)

theorem lawful_step (q : Request) : (step directory t q).Lawful directory :=
  Step.lawful_of_follows (follows_step directory t q)

/-- A file that has just been written holds the text. -/
theorem settles_step (q next : Request) :
    (step directory t q).Settles (step directory (step directory t q).after next) := by
  refine ⟨rfl, fun hw hpath hcontent hmode => ?_⟩
  obtain ⟨-, path, hwrites⟩ := (lawful_step directory t q).written hw
  have hread := hwrites.holds.read
  rw [Step.route, ← hpath, ← hcontent] at hread
  refine (lawful_step directory _ next).unchanged.2 ⟨hread, ?_⟩
  cases hm : (step directory (step directory t q).after next).request.mode with
  | generate => exact absurd hm hmode
  | incremental => exact .inr rfl
  | verify => exact .inl rfl

/-- The tree after all requests of a history. -/
def final (requests : List Request) : FileTree String :=
  requests.foldl (fun t q => (step directory t q).after) t

/-- A file of the last tree was there from the start, or has been written with this content. -/
theorem file_of_history (requests : List Request) {path : Path} {content : String}
    (h : (final directory t requests).at? path = some (.file content)) :
    t.at? path = some (.file content) ∨
      ∃ s ∈ history directory t requests,
        s.request.content = content ∧ s.Writes directory path := by
  induction requests generalizing t with
  | nil => exact .inl h
  | cons q requests ih =>
    rw [history]
    rcases ih (step directory t q).after h with hf | ⟨s, hs, hc⟩
    · refine (Step.file_of_follows (follows_step directory t q) hf).imp_right fun hw => ?_
      exact ⟨_, List.mem_cons_self, hw⟩
    · exact .inr ⟨s, List.mem_cons_of_mem _ hs, hc⟩

/-- Every step of a history keeps the law of writing, and a text that has just been written is found
unchanged. -/
theorem history_lawful (requests : List Request) :
    (∀ s ∈ history directory t requests, s.Lawful directory) ∧
      (history directory t requests).IsChain Step.Settles := by
  induction requests generalizing t with
  | nil => exact ⟨nofun, .nil⟩
  | cons q requests ih =>
    obtain ⟨hlawful, hchain⟩ := ih (step directory t q).after
    refine ⟨List.forall_mem_cons.2 ⟨lawful_step directory t q, hlawful⟩, ?_⟩
    cases requests with
    | nil => exact .singleton _
    | cons next requests =>
      exact .cons_cons (settles_step directory t q next) hchain

end

/-- A tree with one directory. -/
def oneDirectory : FileTree String :=
  .directory [("dd", .directory [])]

/-- A step that fails may leave a directory: the way to a directory leads through one that is
missing. -/
theorem not_forall_update_failed :
    ¬ ∀ (t t' : FileTree String) (directory : Path) (written content : String) (mode : Mode)
      (e : FileError), update t directory written content mode = (.error e, t') → t' = t := by
  intro h
  have hanswer : (update oneDirectory [] "missing/../dd" "x" .generate).1.toOption = none := by
    decide +kernel
  have hafter : (update oneDirectory [] "missing/../dd" "x" .generate).2.at? ["missing"] =
      some .directory := by
    decide +kernel
  cases hupdate : update oneDirectory [] "missing/../dd" "x" .generate with
  | mk x t' =>
    rw [hupdate] at hanswer hafter
    cases x with
    | ok o => cases hanswer
    | error e =>
      rw [h _ _ _ _ _ _ _ hupdate] at hafter
      cases hafter

end ApiStencil.Output
