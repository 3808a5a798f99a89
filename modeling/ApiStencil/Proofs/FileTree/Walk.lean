/-
ApiStencil/Proofs/FileTree/Walk.lean

Walking along names and double dots.  A walk comes through `stations`, the
directories that its names enter, also those that a double dot leaves again.

Making the directories of a walk makes the missing stations and nothing else
(`at?_makeThrough`), all of them unless it fails (`directory_of_makeThrough`).  If the
walk leads to something already, the stations are all there (`directory_of_resolveFrom`)
and nothing changes (`makeThrough_eq_self`).  A walk goes the same way in every tree
that has the directories (`resolveFrom_mono`).

Putting a file at the end of a written path makes the stations and writes the file
(`Route.holds_put`).  It succeeds where a file can be read (`Route.put_of_read`), and
where nothing is if the path has no double dots and does not end like a directory's
(`Route.put_of_absent`).
-/
import ApiStencil.FileTree.Route
import ApiStencil.Proofs.FileTree.View

namespace ApiStencil

open FileTree

variable {α : Type} {t t' : FileTree α} {above p q : Path} {name : String} {names : List String}

namespace Path

/-- The directories that names enter on a walk from the directory whose path is the reverse of
`above`. -/
def stations (above : Path) : List String → List Path
  | [] => []
  | name :: rest =>
    if name = ".." then stations above.tail rest
    else (name :: above).reverse :: stations (name :: above) rest

/-- Whether a walk can be in the directory whose path is the reverse of `above`.  It can always be
at the root. -/
def Reached (t : FileTree α) (above : Path) : Prop :=
  above = [] ∨ t.at? above.reverse = some .directory

/-- A walk starts at the root. -/
theorem reached_root (t : FileTree α) : Reached t [] := .inl rfl

/-! ### Double dots -/

theorem prefix_reverse_tail (above : Path) : above.tail.reverse <+: above.reverse :=
  List.reverse_prefix.2 (List.tail_suffix above)

theorem at?_tail (h : t.at? above.reverse = some .directory) :
    t.at? above.tail.reverse = some .directory := by
  by_cases he : above.tail.reverse = above.reverse
  · exact he ▸ h
  · exact at?_above h (prefix_reverse_tail above) he

theorem Reached.tail (h : Reached t above) : Reached t above.tail := by
  rcases h with rfl | h
  · exact .inl rfl
  · exact .inr (at?_tail h)

theorem Reached.of_cons {n : Node α} (h : t.at? (name :: above).reverse = some n) :
    Reached t above := by
  rw [List.reverse_cons] at h
  exact .inr (at?_above h (List.prefix_append _ _) (by simp))

/-! ### Finding the way -/

/-- What a walk does at a name that is no double dot. -/
theorem resolveFrom_name_eq_ok_iff (hn : name ≠ "..") :
    resolveFrom t above (name :: names) = .ok p ↔
      isLong name = false ∧ resolveFrom t (name :: above) names = .ok p := by
  rw [resolveFrom.eq_def]
  dsimp only
  rw [if_neg hn]
  cases isLong name with
  | false =>
    rw [if_neg Bool.false_ne_true]
    exact (and_iff_right rfl).symm
  | true =>
    rw [if_pos rfl]
    constructor
    · intro h
      split at h <;> cases h
    · exact fun h => nomatch h.1

/-- What a walk does at a double dot. -/
theorem resolveFrom_dots_eq_ok_iff :
    resolveFrom t above (".." :: names) = .ok p ↔
      Reached t above ∧ resolveFrom t above.tail names = .ok p := by
  rw [resolveFrom.eq_def]
  dsimp only
  rw [if_pos rfl]
  cases above with
  | nil => exact (and_iff_right (.inl rfl)).symm
  | cons n outer =>
    have hr : Reached t (n :: outer) ↔
        ∃ entries, t.lookup (n :: outer).reverse = .ok (.directory entries) :=
      (or_iff_right (List.cons_ne_nil _ _)).trans at?_eq_directory_iff
    rw [hr]
    cases hl : t.lookup (n :: outer).reverse with
    | error e => exact ⟨nofun, fun h => nomatch h.1⟩
    | ok s =>
      cases s with
      | file c => exact ⟨nofun, fun h => nomatch h.1⟩
      | directory entries => exact (and_iff_right ⟨entries, rfl⟩).symm

theorem Reached.mono (h : ∀ q, t.at? q = some .directory → t'.at? q = some .directory)
    (hr : Reached t above) : Reached t' above :=
  hr.imp_right (h _)

/-- A walk goes the same way if no directory has gone. -/
theorem resolveFrom_mono (h : ∀ q, t.at? q = some .directory → t'.at? q = some .directory)
    (hp : resolveFrom t above names = .ok p) : resolveFrom t' above names = .ok p := by
  induction names generalizing above with
  | nil => exact hp
  | cons name names ih =>
    by_cases hn : name = ".."
    · subst hn
      obtain ⟨hr, hp⟩ := resolveFrom_dots_eq_ok_iff.1 hp
      exact resolveFrom_dots_eq_ok_iff.2 ⟨hr.mono h, ih hp⟩
    · obtain ⟨hl, hp⟩ := (resolveFrom_name_eq_ok_iff hn).1 hp
      exact (resolveFrom_name_eq_ok_iff hn).2 ⟨hl, ih hp⟩

/-- A walk that leads somewhere has no long name, for those are refused even where nothing is looked
for. -/
theorem not_isLong_of_resolveFrom (hp : resolveFrom t above names = .ok p) :
    ∀ name ∈ names, name ≠ ".." → isLong name = false := by
  induction names generalizing above with
  | nil => exact nofun
  | cons name names ih =>
    by_cases hn : name = ".."
    · subst hn
      obtain ⟨-, hp⟩ := resolveFrom_dots_eq_ok_iff.1 hp
      exact List.forall_mem_cons.2 ⟨fun h => absurd rfl h, ih hp⟩
    · obtain ⟨hl, hp⟩ := (resolveFrom_name_eq_ok_iff hn).1 hp
      exact List.forall_mem_cons.2 ⟨fun _ => hl, ih hp⟩

/-- A walk that leads on to something starts in a directory. -/
theorem reached_of_resolveFrom {n : Node α} (hp : resolveFrom t above names = .ok p)
    (h : t.at? p = some n) (hne : names ≠ []) : Reached t above := by
  induction names generalizing above with
  | nil => exact absurd rfl hne
  | cons name names ih =>
    by_cases hn : name = ".."
    · subst hn
      exact (resolveFrom_dots_eq_ok_iff.1 hp).1
    · obtain ⟨-, hp⟩ := (resolveFrom_name_eq_ok_iff hn).1 hp
      cases names with
      | nil =>
        cases hp
        exact .of_cons h
      | cons name' names =>
        have hr := ih hp (List.cons_ne_nil _ _)
        exact .of_cons (hr.resolve_left (List.cons_ne_nil _ _))

/-- The stations on the way to something are all there. -/
theorem directory_of_resolveFrom {n : Node α} (hp : resolveFrom t above names = .ok p)
    (h : t.at? p = some n) :
    ∀ q ∈ stations above names.dropLast, t.at? q = some .directory := by
  induction names generalizing above with
  | nil => exact nofun
  | cons name names ih =>
    cases names with
    | nil => exact nofun
    | cons name' names =>
      rw [List.dropLast_cons_cons, stations]
      by_cases hn : name = ".."
      · subst hn
        obtain ⟨-, hp⟩ := resolveFrom_dots_eq_ok_iff.1 hp
        rw [if_pos rfl]
        exact ih hp
      · obtain ⟨-, hp⟩ := (resolveFrom_name_eq_ok_iff hn).1 hp
        have hr := reached_of_resolveFrom hp h (List.cons_ne_nil _ _)
        rw [if_neg hn]
        exact List.forall_mem_cons.2 ⟨hr.resolve_left (List.cons_ne_nil _ _), ih hp⟩

/-! ### Making the stations -/

/-- Making directories at the next station makes that one and leaves the rest. -/
theorem at?_makeStation (hr : Reached t above)
    (h : t.makeDirectories (name :: above).reverse = .ok t') (q : Path) :
    t'.at? q = if q = (name :: above).reverse then some .directory else t.at? q := by
  rw [at?_makeDirectories h]
  by_cases hq : q = (name :: above).reverse
  · rw [if_pos hq, if_pos (hq ▸ List.prefix_rfl)]
  · rw [if_neg hq]
    split
    · next hqp =>
      -- every other directory on the way is there already
      have hqa : q <+: above.reverse := by
        rw [List.reverse_cons] at hqp hq
        exact (List.prefix_concat_iff.1 hqp).resolve_left hq
      have hclear : ∀ c, t.at? q ≠ some (.file c) := fun c => clear_of_makeDirectories h hqp
      rcases hr with rfl | hr
      · rw [List.prefix_nil.1 hqa] at hclear ⊢
        cases t with
        | file c => exact absurd rfl (hclear c)
        | directory entries => rfl
      · by_cases he : q = above.reverse
        · rw [he, hr]
        · rw [at?_above hr hqa he]
    · rfl

/-- Making the directories of a walk changes nothing but missing stations, which become
directories. -/
theorem at?_makeThrough (hr : Reached t above) (names : List String) (q : Path) :
    (makeThrough t above names).2.at? q = t.at? q ∨
      q ∈ stations above names ∧ t.at? q = none ∧
        (makeThrough t above names).2.at? q = some .directory := by
  -- by induction on the walk, for any tree, because making a station changes it
  induction names generalizing t above with
  | nil => exact .inl rfl
  | cons name names ih =>
    rw [makeThrough, stations]
    split
    · exact ih hr.tail
    · split
      · exact .inl rfl
      · cases hm : t.makeDirectories (name :: above).reverse with
        | error e => exact .inl rfl
        | ok t₁ =>
          have hat := at?_makeStation hr hm
          have hr₁ : Reached t₁ (name :: above) := .inr (by rw [hat, if_pos rfl])
          by_cases hq : q = (name :: above).reverse
          · -- the new station is kept by the rest of the walk
            have hdir : t₁.at? q = some .directory := by rw [hat, if_pos hq]
            have hend : (makeThrough t₁ (name :: above) names).2.at? q = some .directory := by
              rcases ih hr₁ with h | ⟨-, -, h⟩
              · exact h.trans hdir
              · exact h
            have hqp : q <+: (name :: above).reverse := by rw [hq]
            have hclear : ∀ c, t.at? q ≠ some (.file c) := fun c =>
              clear_of_makeDirectories hm hqp
            cases ho : t.at? q with
            | none => exact .inr ⟨hq ▸ List.mem_cons_self, rfl, hend⟩
            | some n =>
              cases n with
              | file c => exact absurd ho (hclear c)
              | directory => exact .inl hend
          · have hsame : t₁.at? q = t.at? q := by rw [hat, if_neg hq]
            rw [← hsame]
            exact (ih hr₁).imp_right fun h => ⟨List.mem_cons_of_mem _ h.1, h.2⟩

/-- What is made stays, so a walk can rely on the directories that it finds. -/
theorem directory_makeThrough (hr : Reached t above) (h : t.at? q = some .directory) :
    (makeThrough t above names).2.at? q = some .directory := by
  rcases at?_makeThrough hr names q with he | ⟨-, -, he⟩
  · exact he.trans h
  · exact he

/-- If making the directories of a walk does not fail, all its stations are there. -/
theorem directory_of_makeThrough (hr : Reached t above)
    (h : (makeThrough t above names).1 = .ok ()) :
    ∀ q ∈ stations above names, (makeThrough t above names).2.at? q = some .directory := by
  induction names generalizing t above with
  | nil => exact nofun
  | cons name names ih =>
    rw [makeThrough] at h ⊢
    rw [stations]
    split
    · next hn =>
      rw [if_pos hn] at h
      exact ih hr.tail h
    · next hn =>
      rw [if_neg hn] at h
      split
      · next hl =>
        rw [if_pos hl] at h
        cases h
      · next hl =>
        rw [if_neg hl] at h
        cases hm : t.makeDirectories (name :: above).reverse with
        | error e =>
          rw [hm] at h
          cases h
        | ok t₁ =>
          rw [hm] at h
          have hdir : t₁.at? (name :: above).reverse = some .directory := by
            rw [at?_makeStation hr hm, if_pos rfl]
          refine List.forall_mem_cons.2 ⟨directory_makeThrough (.inr hdir) hdir, ?_⟩
          exact ih (.inr hdir) h

/-- Nothing is made where all stations are there. -/
theorem makeThrough_eq_self (hl : ∀ name ∈ names, name ≠ ".." → isLong name = false)
    (h : ∀ q ∈ stations above names, t.at? q = some .directory) :
    makeThrough t above names = (.ok (), t) := by
  induction names generalizing above with
  | nil => rfl
  | cons name names ih =>
    obtain ⟨hname, hl⟩ := List.forall_mem_cons.1 hl
    rw [makeThrough]
    rw [stations] at h
    split
    · next hn =>
      rw [if_pos hn] at h
      exact ih hl h
    · next hn =>
      rw [if_neg hn] at h
      obtain ⟨hd, h⟩ := List.forall_mem_cons.1 h
      rw [hname hn, if_neg Bool.false_ne_true, makeDirectories_eq_self hd]
      exact ih hl h

/-- The stations can be made where no file stands in their places. -/
theorem makeThrough_of_clear (hr : t.at? above.reverse = some .directory)
    (hl : ∀ name ∈ names, name ≠ ".." → isLong name = false)
    (h : ∀ q ∈ stations above names, ∀ content, t.at? q ≠ some (.file content)) :
    (makeThrough t above names).1 = .ok () := by
  induction names generalizing t above with
  | nil => rfl
  | cons name names ih =>
    obtain ⟨hname, hl⟩ := List.forall_mem_cons.1 hl
    rw [makeThrough]
    rw [stations] at h
    split
    · next hn =>
      rw [if_pos hn] at h
      exact ih (at?_tail hr) hl h
    · next hn =>
      rw [if_neg hn] at h
      obtain ⟨hclear, h⟩ := List.forall_mem_cons.1 h
      -- above the next station stands the directory in which the walk is
      have hway : ∀ q content, q <+: (name :: above).reverse →
          t.at? q ≠ some (.file content) := by
        intro q c hq
        rw [List.reverse_cons] at hq hclear
        rcases List.prefix_concat_iff.1 hq with rfl | hq
        · exact hclear c
        · by_cases he : q = above.reverse
          · rw [he, hr]
            exact nofun
          · rw [at?_above hr hq he]
            exact nofun
      obtain ⟨t₁, hm⟩ := makeDirectories_of_clear hway
      rw [hname hn, if_neg Bool.false_ne_true, hm]
      have hat := at?_makeStation (.inr hr) hm
      refine ih (by rw [hat, if_pos rfl]) hl fun q hq c => ?_
      rw [hat]
      split
      · exact nofun
      · exact h q hq c

/-! ### Walks without double dots -/

/-- Without double dots a walk leads down by its names, whatever is there. -/
theorem resolveFrom_of_names (h : ∀ name ∈ names, name ≠ ".." ∧ isLong name = false) :
    resolveFrom t above names = .ok (above.reverse ++ names) := by
  induction names generalizing above with
  | nil =>
    rw [List.append_nil]
    rfl
  | cons name names ih =>
    obtain ⟨⟨hn, hl⟩, h⟩ := List.forall_mem_cons.1 h
    rw [(resolveFrom_name_eq_ok_iff hn).2 ⟨hl, ih h⟩, List.reverse_cons, List.append_assoc]
    rfl

/-- Without double dots, the stations are the directories between the start and the end. -/
theorem mem_stations_iff (h : ∀ name ∈ names, name ≠ "..") :
    q ∈ stations above names ↔
      ∃ front, front ≠ [] ∧ front <+: names ∧ q = above.reverse ++ front := by
  induction names generalizing above with
  | nil =>
    refine ⟨nofun, ?_⟩
    rintro ⟨front, hne, hf, -⟩
    exact absurd (List.prefix_nil.1 hf) hne
  | cons name names ih =>
    obtain ⟨hn, h⟩ := List.forall_mem_cons.1 h
    rw [stations, if_neg hn, List.mem_cons, ih h]
    constructor
    · rintro (rfl | ⟨front, -, hf, rfl⟩)
      · exact ⟨[name], List.cons_ne_nil _ _, List.cons_prefix_cons.2 ⟨rfl, List.nil_prefix⟩,
          List.reverse_cons⟩
      · refine ⟨name :: front, List.cons_ne_nil _ _, List.cons_prefix_cons.2 ⟨rfl, hf⟩, ?_⟩
        rw [List.reverse_cons, List.append_assoc]
        rfl
    · rintro ⟨front, hne, hf, rfl⟩
      cases front with
      | nil => exact absurd rfl hne
      | cons name' front =>
        obtain ⟨rfl, hf'⟩ := List.cons_prefix_cons.1 hf
        cases front with
        | nil => exact .inl List.reverse_cons.symm
        | cons n front =>
          refine .inr ⟨n :: front, List.cons_ne_nil _ _, hf', ?_⟩
          rw [List.reverse_cons, List.append_assoc]
          rfl

/-- The same from the root. -/
theorem mem_stations_root_iff (h : ∀ name ∈ names, name ≠ "..") :
    q ∈ stations [] names ↔ q ≠ [] ∧ q <+: names := by
  rw [mem_stations_iff h]
  constructor
  · rintro ⟨front, hne, hf, rfl⟩
    exact ⟨hne, hf⟩
  · rintro ⟨hne, hf⟩
    exact ⟨q, hne, hf, rfl⟩

/-- Without double dots, a directory can be made where no file is in the way. -/
theorem makeThrough_of_names (h : ∀ name ∈ names, name ≠ ".." ∧ isLong name = false)
    (hclear : ∀ q c, q <+: names → t.at? q ≠ some (.file c)) :
    (makeThrough t [] names).1 = .ok () ∧
      (makeThrough t [] names).2.at? names = some .directory := by
  have hstations : ∀ q, q ∈ stations [] names ↔ q ≠ [] ∧ q <+: names := fun q =>
    mem_stations_root_iff fun name hm => (h name hm).1
  have hroot : t.at? [] = some .directory := by
    rw [at?_nil]
    cases t with
    | file c => exact absurd rfl (hclear [] c List.nil_prefix)
    | directory entries => rfl
  have hmade : (makeThrough t [] names).1 = .ok () :=
    makeThrough_of_clear hroot (fun name hm _ => (h name hm).2) fun q hq c =>
      hclear q c ((hstations q).1 hq).2
  refine ⟨hmade, ?_⟩
  by_cases hne : names = []
  · subst hne
    exact hroot
  · exact directory_of_makeThrough (reached_root t) hmade names
      ((hstations names).2 ⟨hne, List.prefix_rfl⟩)

end Path

/-! ### Written paths -/

namespace Route

variable {r : Route} {content : α}

/-- Whether a written path is a list of names that every directory can hold. -/
structure IsPlain (r : Route) : Prop where
  fault : r.fault = none
  ending : r.ending = .name
  names : ∀ name ∈ r.names, name ≠ ".." ∧ Path.isLong name = false

/-- The directories that are entered on the way to a route's end. -/
def passed (r : Route) : List Path :=
  Path.stations [] r.names.dropLast

/-- A written path leads to a place if it is none that is always refused and its walk does. -/
theorem resolve_eq_ok_iff :
    r.resolve t = .ok p ↔ r.fault = none ∧ Path.resolveFrom t [] r.names = .ok p := by
  rw [resolve]
  cases r.fault with
  | none => exact (and_iff_right rfl).symm
  | some e => exact ⟨nofun, fun h => nomatch h.1⟩

/-- A file is read where the path leads to it and does not end like a directory's. -/
theorem read_eq_ok_iff :
    r.read t = .ok content ↔
      r.ending = .name ∧ ∃ path, r.resolve t = .ok path ∧ t.at? path = some (.file content) := by
  rw [read, bind_eq_ok_iff]
  constructor
  · rintro ⟨s, hs, hc⟩
    rw [lookup] at hs
    obtain ⟨path, hp, hs⟩ := bind_eq_ok_iff.1 hs
    obtain ⟨s', hs', hs⟩ := bind_eq_ok_iff.1 hs
    cases s' with
    | directory entries =>
      cases hs
      cases hc
    | file c =>
      cases he : r.ending with
      | name =>
        rw [he] at hs
        cases hs
        cases hc
        exact ⟨rfl, path, hp, at?_eq_file_iff.2 hs'⟩
      | _ =>
        rw [he] at hs
        cases hs
  · rintro ⟨he, path, hp, hf⟩
    refine ⟨.file content, ?_, rfl⟩
    rw [lookup, hp]
    refine bind_eq_ok_iff.2 ⟨path, rfl, bind_eq_ok_iff.2 ⟨_, at?_eq_file_iff.1 hf, ?_⟩⟩
    rw [he]
    rfl

/-- Only a path that ends in a name leads to a file. -/
theorem eq_ofPath_of_read (h : r.read t = .ok content) : r = ofPath r.names := by
  obtain ⟨he, path, hp, -⟩ := read_eq_ok_iff.1 h
  obtain ⟨hf, -⟩ := resolve_eq_ok_iff.1 hp
  obtain ⟨names, ending, fault⟩ := r
  cases he
  cases hf
  rfl

theorem resolve_of_isPlain (h : r.IsPlain) : r.resolve t = .ok r.names :=
  resolve_eq_ok_iff.2 ⟨h.fault, Path.resolveFrom_of_names h.names⟩

theorem read_of_isPlain (h : r.IsPlain) : r.read t = t.read r.names := by
  rw [read, lookup, resolve_of_isPlain h, ok_bind, FileTree.read, h.ending]
  cases t.lookup r.names with
  | error e => rfl
  | ok s => cases s <;> rfl

/-- A file is written where the path leads, unless the path ends like a directory's. -/
theorem write_eq_ok_iff :
    r.write content t = .ok t' ↔
      r.ending = .name ∧ ∃ path, r.resolve t = .ok path ∧ t.write content path = .ok t' := by
  rw [write]
  cases he : r.ending with
  | name => rw [and_iff_right rfl, bind_eq_ok_iff]
  | slash =>
    refine ⟨fun h => ?_, fun h => nomatch h.1⟩
    obtain ⟨p, -, h⟩ := bind_eq_ok_iff.1 h
    cases h
  | dot =>
    refine ⟨fun h => ?_, fun h => nomatch h.1⟩
    obtain ⟨p, -, h⟩ := bind_eq_ok_iff.1 h
    cases h

/-- A file is put by making the directories on the way and writing it. -/
theorem put_eq_ok_iff :
    r.put content t = (.ok (), t') ↔
      r.fault = none ∧ (Path.makeThrough t [] r.names.dropLast).1 = .ok () ∧
        r.write content (Path.makeThrough t [] r.names.dropLast).2 = .ok t' := by
  rw [put]
  cases r.fault with
  | some e => exact ⟨fun h => (nomatch (Prod.mk.inj h).1), fun h => nomatch h.1⟩
  | none =>
    obtain ⟨x, t₁⟩ := Path.makeThrough t [] r.names.dropLast
    cases x with
    | error e => exact ⟨fun h => (nomatch (Prod.mk.inj h).1), fun h => nomatch h.2.1⟩
    | ok u =>
      dsimp only
      cases r.write content t₁ with
      | error e => exact ⟨fun h => (nomatch (Prod.mk.inj h).1), fun h => nomatch h.2.2⟩
      | ok t₂ =>
        constructor
        · intro h
          exact ⟨rfl, rfl, congrArg _ (Prod.mk.inj h).2⟩
        · intro h
          exact congrArg _ (Except.ok.inj h.2.2)

/-- A failing step has made directories at most. -/
theorem at?_put_of_error {e : FileError} (h : r.put content t = (.error e, t')) (q : Path) :
    t'.at? q = t.at? q ∨ q ∈ r.passed ∧ t.at? q = none ∧ t'.at? q = some .directory := by
  have hmade := Path.at?_makeThrough (Path.reached_root t) r.names.dropLast q
  rw [put] at h
  cases hf : r.fault with
  | some e =>
    rw [hf] at h
    cases h
    exact .inl rfl
  | none =>
    rw [hf] at h
    -- the directories have been made in part, or all of them and the file has not been written
    cases hm : Path.makeThrough t [] r.names.dropLast with
    | mk x t₁ =>
      rw [hm] at h hmade
      cases x with
      | error e =>
        cases h
        exact hmade
      | ok u =>
        dsimp only at h
        cases hw : r.write content t₁ with
        | error e =>
          rw [hw] at h
          cases h
          exact hmade
        | ok t₂ =>
          rw [hw] at h
          cases h

/-- What writing a file leaves: the path leads to the file, which holds the content, and everything
else is as it was. -/
theorem exists_of_write (h : r.write content t = .ok t') :
    ∃ path, r.resolve t' = .ok path ∧ r.read t' = .ok content ∧
      (∀ q, t.at? q = some .directory → t'.at? q = some .directory) ∧
        ∀ q, t'.at? q = if q = path then some (.file content) else t.at? q := by
  obtain ⟨he, path, hp, hwrite⟩ := write_eq_ok_iff.1 h
  have hat := at?_write hwrite
  -- the file does not stand where a directory is
  have hkept : ∀ q, t.at? q = some .directory → t'.at? q = some .directory := by
    intro q hq
    rw [hat, if_neg ?_, hq]
    rintro rfl
    obtain ⟨entries, hl⟩ := at?_eq_directory_iff.1 hq
    exact not_write_directory hl hwrite
  obtain ⟨hfault, hresolve⟩ := resolve_eq_ok_iff.1 hp
  have hleads : r.resolve t' = .ok path :=
    resolve_eq_ok_iff.2 ⟨hfault, Path.resolveFrom_mono hkept hresolve⟩
  have hfile : t'.at? path = some (.file content) := by rw [hat, if_pos rfl]
  exact ⟨path, hleads, read_eq_ok_iff.2 ⟨he, path, hleads, hfile⟩, hkept, hat⟩

/-- What putting a file leaves: the path leads to the file, which holds the content, the
directories on the way are there, and everything else is as it was. -/
structure Holds (r : Route) (content : α) (t t' : FileTree α) (path : Path) : Prop where
  read : r.read t' = .ok content
  leads : r.resolve t' = .ok path
  content : t'.at? path = some (.file content)
  passed : ∀ q ∈ r.passed, t'.at? q = some .directory
  others : ∀ q, q ≠ path → t'.at? q = t.at? q ∨
    q ∈ r.passed ∧ t.at? q = none ∧ t'.at? q = some .directory

/-- A file that was put is there, with the directories on the way, and nothing else has changed. -/
theorem holds_put (h : r.put content t = (.ok (), t')) : ∃ path, r.Holds content t t' path := by
  obtain ⟨-, hmade, hwrite⟩ := put_eq_ok_iff.1 h
  obtain ⟨path, hleads, hread, hkept, hat⟩ := exists_of_write hwrite
  refine ⟨path, hread, hleads, ?_, ?_, ?_⟩
  · rw [hat, if_pos rfl]
  · intro q hq
    exact hkept q (Path.directory_of_makeThrough (Path.reached_root t) hmade q hq)
  · intro q hq
    rw [hat, if_neg hq]
    exact Path.at?_makeThrough (Path.reached_root t) _ q

/-- A file that can be read can be replaced. -/
theorem put_of_read {old : α} (h : r.read t = .ok old) (content : α) :
    ∃ t', r.put content t = (.ok (), t') := by
  obtain ⟨he, path, hp, hf⟩ := read_eq_ok_iff.1 h
  obtain ⟨hfault, hresolve⟩ := resolve_eq_ok_iff.1 hp
  have hlong : ∀ name ∈ r.names.dropLast, name ≠ ".." → Path.isLong name = false := fun name hm =>
    Path.not_isLong_of_resolveFrom hresolve name (List.dropLast_subset _ hm)
  have hmade : Path.makeThrough t [] r.names.dropLast = (.ok (), t) :=
    Path.makeThrough_eq_self hlong (Path.directory_of_resolveFrom hresolve hf)
  obtain ⟨t', ht'⟩ := write_of_file hf content
  refine ⟨t', put_eq_ok_iff.2 ⟨hfault, ?_, ?_⟩⟩
  · rw [hmade]
  · rw [hmade, write_eq_ok_iff]
    exact ⟨he, path, hp, ht'⟩

/-- A file can be put where nothing is, if no file stands in the way. -/
theorem put_of_absent (h : r.IsPlain) (hl : t.lookup r.names = .error .notFound) (content : α) :
    ∃ t', r.put content t = (.ok (), t') := by
  have habsent : t.at? r.names = none := by
    rw [at?, hl]
    rfl
  have hclear : ∀ q c, q <+: r.names → q ≠ r.names → t.at? q ≠ some (.file c) := by
    intro q c hq hne hf
    rw [lookup_eq_notDirectory_iff.2 ⟨q, c, hq, hne, hf⟩] at hl
    cases hl
  obtain ⟨front, last, hnames⟩ : ∃ front last, r.names = front ++ [last] := by
    rcases List.eq_nil_or_concat' r.names with hn | hn
    · rw [hn, at?_nil] at habsent
      cases habsent
    · exact hn
  have hfront : r.names.dropLast = front := by rw [hnames, List.dropLast_concat]
  have hbefore : ∀ q, q <+: front → q <+: r.names ∧ q ≠ r.names := by
    intro q hq
    rw [hnames]
    refine ⟨hq.trans (List.prefix_append _ _), fun he => ?_⟩
    have := hq.length_le
    rw [he, List.length_append, List.length_singleton] at this
    omega
  have hplain : ∀ name ∈ front, name ≠ ".." ∧ Path.isLong name = false := fun name hm =>
    h.names name (by rw [hnames]; exact List.mem_append_left _ hm)
  obtain ⟨hmade, hdir⟩ := Path.makeThrough_of_names hplain fun q c hq =>
    hclear q c (hbefore q hq).1 (hbefore q hq).2
  -- making the directories in front has made nothing at the end of the path
  have hstill : (Path.makeThrough t [] front).2.at? (front ++ [last]) = none := by
    rw [← hnames]
    rcases Path.at?_makeThrough (Path.reached_root t) front r.names with he | ⟨hm, -, -⟩
    · exact he.trans habsent
    · rw [Path.mem_stations_root_iff fun name hm => (hplain name hm).1] at hm
      exact absurd rfl (hbefore r.names hm.2).2
  obtain ⟨t', ht'⟩ := write_of_absent hdir hstill content
  refine ⟨t', put_eq_ok_iff.2 ⟨h.fault, ?_, ?_⟩⟩
  · rw [hfront]
    exact hmade
  · rw [hfront, write_eq_ok_iff]
    exact ⟨h.ending, r.names, resolve_of_isPlain h, hnames ▸ ht'⟩

/-! ### Files that are left

What an operation on written paths leaves as a file was a file with this content before, or is the
one that was written. -/

/-- A file that is there after one was put was there before, or has the content that was put. -/
theorem file_of_put {c : α} (h : (r.put content t).2.at? q = some (.file c)) :
    t.at? q = some (.file c) ∨ c = content := by
  cases hput : r.put content t with
  | mk x t' =>
    rw [hput] at h
    cases x with
    | error e => exact .inl (file_of_made (at?_put_of_error hput q) h)
    | ok u =>
      obtain ⟨path, hp⟩ := holds_put hput
      -- the file that was put, or another one, which putting does not change
      by_cases hq : q = path
      · subst hq
        cases hp.content.symm.trans h
        exact .inr rfl
      · exact .inl (file_of_made (hp.others q hq) h)

/-- The same of writing a file into a directory that is there. -/
theorem file_of_write {c : α} (hw : r.write content t = .ok t')
    (h : t'.at? q = some (.file c)) : t.at? q = some (.file c) ∨ c = content := by
  obtain ⟨path, -, -, -, hat⟩ := exists_of_write hw
  rw [hat] at h
  split at h
  · cases h
    exact .inr rfl
  · exact .inl h

/-- Removing a file leaves nothing that was not there. -/
theorem at?_of_remove {n : Node α} (hr : r.remove t = .ok t') (h : t'.at? q = some n) :
    t.at? q = some n := by
  rw [remove] at hr
  obtain ⟨path, -, hr⟩ := bind_eq_ok_iff.1 hr
  cases he : r.ending with
  | name =>
    rw [he] at hr
    exact FileTree.at?_of_remove hr h
  | _ =>
    rw [he] at hr
    cases hr

/-- Making a directory makes no file. -/
theorem file_of_makeDirectory {c : α} (h : (r.makeDirectory t).2.at? q = some (.file c)) :
    t.at? q = some (.file c) := by
  have hthrough : ∀ names, (Path.makeThrough t [] names).2.at? q = some (.file c) →
      t.at? q = some (.file c) := fun names h =>
    file_of_made (Path.at?_makeThrough (Path.reached_root t) names q) h
  rw [makeDirectory] at h
  cases hf : r.fault with
  | some e =>
    rw [hf] at h
    exact h
  | none =>
    rw [hf] at h
    dsimp only at h
    split at h
    · -- in front of a single dot, the last directory is only looked for
      refine hthrough r.names.dropLast ?_
      cases hm : Path.makeThrough t [] r.names.dropLast with
      | mk x t₁ =>
        rw [hm] at h
        cases x <;> exact h
    · exact hthrough _ h

end Route

end ApiStencil
