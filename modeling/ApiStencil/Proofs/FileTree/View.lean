/-
ApiStencil/Proofs/FileTree/View.lean

A tree of files by what stands at each path: nothing, a directory, or a file with its
content.  Every operation on trees is described by what it makes of this view
(`at?_makeDirectories`, `at?_write`, `at?_of_remove`); the entries of directories and
their order are not looked at again.

What stands in the way of an operation are files: looking below one is an error
(`lookup_eq_notDirectory_iff`), and directories can be made exactly where none stands
(`makeDirectories_of_clear`, `clear_of_makeDirectories`).
-/
import ApiStencil.FileTree
import ApiStencil.Proofs.Except
import Mathlib.Data.List.Infix

namespace ApiStencil.FileTree

variable {α : Type}

/-- What a path leads to. -/
inductive Node (α : Type) where
  | file (content : α)
  | directory
deriving DecidableEq, Repr

/-- What a tree is at its root. -/
def node : FileTree α → Node α
  | .file content => .file content
  | .directory _ => .directory

/-- What stands at a path, if anything does. -/
def at? (t : FileTree α) (path : Path) : Option (Node α) :=
  (t.lookup path).toOption.map node

@[simp] theorem at?_nil (t : FileTree α) : t.at? [] = some t.node := by
  cases t <;> rfl

@[simp] theorem at?_file_cons (content : α) (name : String) (path : Path) :
    (file content).at? (name :: path) = none := rfl

@[simp] theorem at?_directory_cons (entries : List (String × FileTree α)) (name : String)
    (path : Path) :
    (directory entries).at? (name :: path) = (child? name entries).bind fun t => t.at? path := by
  rw [at?, lookup]
  cases child? name entries <;> rfl

/-! ### Entries -/

/-- Replacing an entry changes what is found under its name and nothing else. -/
theorem child?_setChild (name other : String) (t : FileTree α)
    (entries : List (String × FileTree α)) :
    child? other (setChild name t entries) =
      if name = other then some t else child? other entries := by
  induction entries with
  | nil => rfl
  | cons e r ih =>
    obtain ⟨n, t'⟩ := e
    rw [setChild]
    split
    · next hn =>
      subst hn
      rw [child?, child?]
      split <;> rfl
    · next hn =>
      rw [child?, child?, ih]
      split
      · next ho => rw [if_neg fun h => hn (ho.trans h.symm)]
      · rfl

/-- Replacing an entry by itself changes nothing. -/
theorem setChild_of_child? {name : String} {t : FileTree α} {entries : List (String × FileTree α)}
    (h : child? name entries = some t) : setChild name t entries = entries := by
  induction entries with
  | nil => cases h
  | cons e r ih =>
    obtain ⟨n, t'⟩ := e
    rw [child?] at h
    rw [setChild]
    split at h
    · next hn =>
      cases h
      rw [if_pos hn, hn]
    · next hn => rw [if_neg hn, ih h]

/-- Removing an entry takes away what is found under its name and nothing else. -/
theorem child?_filter (name other : String) (entries : List (String × FileTree α)) :
    child? other (entries.filter (·.1 ≠ name)) =
      if name = other then none else child? other entries := by
  induction entries with
  | nil => split <;> rfl
  | cons e r ih =>
    obtain ⟨n, t⟩ := e
    by_cases hn : n = name
    · subst hn
      rw [List.filter_cons_of_neg (by simp), ih, child?]
      split <;> rfl
    · rw [List.filter_cons_of_pos (by simpa using hn), child?, child?, ih]
      split
      · next ho => rw [if_neg fun h => hn (ho.trans h.symm)]
      · rfl

/-! ### Looking -/

/-- A file is seen where looking finds it. -/
theorem at?_eq_file_iff {t : FileTree α} {path : Path} {content : α} :
    t.at? path = some (.file content) ↔ t.lookup path = .ok (.file content) := by
  rw [at?, toOption_map_eq_some_iff]
  constructor
  · rintro ⟨s, hs, hn⟩
    cases s with
    | file c =>
      cases hn
      exact hs
    | directory entries => cases hn
  · intro h
    exact ⟨_, h, rfl⟩

/-- A directory is seen where looking finds one, whatever its entries. -/
theorem at?_eq_directory_iff {t : FileTree α} {path : Path} :
    t.at? path = some .directory ↔ ∃ entries, t.lookup path = .ok (.directory entries) := by
  rw [at?, toOption_map_eq_some_iff]
  constructor
  · rintro ⟨s, hs, hn⟩
    cases s with
    | file c => cases hn
    | directory entries => exact ⟨entries, hs⟩
  · rintro ⟨entries, h⟩
    exact ⟨_, h, rfl⟩

/-- Above something that stands at a path there are directories. -/
theorem at?_above {t : FileTree α} {path above : Path} {n : Node α}
    (h : t.at? path = some n) (ha : above <+: path) (hne : above ≠ path) :
    t.at? above = some .directory := by
  induction path generalizing t above with
  | nil => exact absurd (List.prefix_nil.1 ha) hne
  | cons name path ih =>
    cases t with
    | file c => cases h
    | directory entries =>
      cases above with
      | nil => rfl
      | cons name' above =>
        obtain ⟨rfl, ha'⟩ := List.cons_prefix_cons.1 ha
        rw [at?_directory_cons] at h ⊢
        obtain ⟨t, ht, h⟩ := Option.bind_eq_some_iff.1 h
        rw [ht]
        exact ih h ha' fun he => hne (congrArg _ he)

/-- A path is in vain because a file stands in the way, or because nothing is there. -/
theorem lookup_eq_notDirectory_iff {t : FileTree α} {path : Path} :
    t.lookup path = .error .notDirectory ↔
      ∃ above content, above <+: path ∧ above ≠ path ∧ t.at? above = some (.file content) := by
  constructor
  · intro h
    -- forwards, down the path until the file is met
    induction path generalizing t with
    | nil => cases t <;> cases h
    | cons name path ih =>
      cases t with
      | file c => exact ⟨[], c, List.nil_prefix, (List.cons_ne_nil _ _).symm, rfl⟩
      | directory entries =>
        rw [lookup] at h
        cases hc : child? name entries with
        | none =>
          rw [hc] at h
          cases h
        | some t =>
          rw [hc] at h
          obtain ⟨above, c, ha, hne, hf⟩ := ih h
          refine ⟨name :: above, c, List.cons_prefix_cons.2 ⟨rfl, ha⟩, ?_, ?_⟩
          · exact fun he => hne (List.cons.inj he).2
          · rw [at?_directory_cons, hc]
            exact hf
  · rintro ⟨above, c, ha, hne, hf⟩
    -- backwards, down to the file, which is met before the path ends
    induction path generalizing t above with
    | nil => exact absurd (List.prefix_nil.1 ha) hne
    | cons name path ih =>
      cases t with
      | file c => rfl
      | directory entries =>
        cases above with
        | nil => cases hf
        | cons name' above =>
          obtain ⟨rfl, ha'⟩ := List.cons_prefix_cons.1 ha
          rw [at?_directory_cons] at hf
          obtain ⟨t, ht, hf⟩ := Option.bind_eq_some_iff.1 hf
          rw [lookup, ht]
          exact ih above ha' (fun he => hne (congrArg _ he)) hf

/-- The two errors of looking: nothing is there, or a file stands in the way. -/
theorem lookup_error {t : FileTree α} {path : Path} {e : FileError}
    (h : t.lookup path = .error e) : e = .notFound ∨ e = .notDirectory := by
  induction path generalizing t with
  | nil => cases t <;> cases h
  | cons name path ih =>
    cases t with
    | file c =>
      cases h
      exact .inr rfl
    | directory entries =>
      rw [lookup] at h
      cases hc : child? name entries with
      | none =>
        rw [hc] at h
        cases h
        exact .inl rfl
      | some t =>
        rw [hc] at h
        exact ih h

/-! ### Making directories -/

/-- The directories on the way to a path are there afterwards, and nothing else has changed. -/
theorem at?_makeDirectories {t t' : FileTree α} {path : Path}
    (h : t.makeDirectories path = .ok t') (q : Path) :
    t'.at? q = if q <+: path then some .directory else t.at? q := by
  induction path generalizing t t' q with
  | nil =>
    cases t with
    | file c => cases h
    | directory entries =>
      cases h
      split
      · next hq => rw [List.prefix_nil.1 hq]; rfl
      · rfl
  | cons name path ih =>
    cases t with
    | file c => cases h
    | directory entries =>
      obtain ⟨s, hs, h⟩ := bind_eq_ok_iff.1 h
      cases h
      cases q with
      | nil => rw [if_pos List.nil_prefix]; rfl
      | cons name' q =>
        rw [at?_directory_cons, at?_directory_cons, child?_setChild]
        by_cases hn : name = name'
        · subst hn
          rw [if_pos rfl, Option.bind_some, ih hs]
          simp only [List.cons_prefix_cons, true_and]
          split
          · rfl
          · next hq =>
            cases hc : child? name entries with
            | some s => rfl
            | none =>
              -- the directory that is made is empty
              cases q with
              | nil => exact absurd List.nil_prefix hq
              | cons n q => rfl
        · have hq : ¬ name' :: q <+: name :: path := fun hq =>
            hn (List.cons_prefix_cons.1 hq).1.symm
          rw [if_neg hn, if_neg hq]

/-- Where no file stands on the way to a path, directories can be made. -/
theorem makeDirectories_of_clear {t : FileTree α} {path : Path}
    (h : ∀ q content, q <+: path → t.at? q ≠ some (.file content)) :
    ∃ t', t.makeDirectories path = .ok t' := by
  induction path generalizing t with
  | nil =>
    cases t with
    | file c => exact absurd rfl (h [] c List.nil_prefix)
    | directory entries => exact ⟨_, rfl⟩
  | cons name path ih =>
    cases t with
    | file c => exact absurd rfl (h [] c List.nil_prefix)
    | directory entries =>
      -- what is clear below the root is clear below its entry, and in an entry that is still to be
      -- made
      have hbelow : ∀ q content, q <+: path →
          ((child? name entries).getD empty).at? q ≠ some (.file content) := by
        intro q c hq hf
        cases hc : child? name entries with
        | some s =>
          refine h (name :: q) c (List.cons_prefix_cons.2 ⟨rfl, hq⟩) ?_
          rw [hc] at hf
          rw [at?_directory_cons, hc]
          exact hf
        | none =>
          rw [hc] at hf
          cases q <;> cases hf
      obtain ⟨t', ht'⟩ := ih hbelow
      exact ⟨_, bind_eq_ok_iff.2 ⟨t', ht', rfl⟩⟩

/-- Where directories could be made, no file stood on the way. -/
theorem clear_of_makeDirectories {t t' : FileTree α} {path q : Path} {content : α}
    (h : t.makeDirectories path = .ok t') (hq : q <+: path) :
    t.at? q ≠ some (.file content) := by
  induction path generalizing t t' q with
  | nil =>
    rw [List.prefix_nil.1 hq]
    cases t with
    | file c => cases h
    | directory entries => exact nofun
  | cons name path ih =>
    cases t with
    | file c => cases h
    | directory entries =>
      obtain ⟨s, hs, -⟩ := bind_eq_ok_iff.1 h
      cases q with
      | nil => exact nofun
      | cons name' q =>
        obtain ⟨rfl, hq'⟩ := List.cons_prefix_cons.1 hq
        rw [at?_directory_cons]
        intro hf
        obtain ⟨u, hu, hf⟩ := Option.bind_eq_some_iff.1 hf
        rw [hu] at hs
        exact ih hs hq' hf

/-- Making a directory that is there changes nothing, not even the order of the entries. -/
theorem makeDirectories_eq_self {t : FileTree α} {path : Path}
    (h : t.at? path = some .directory) : t.makeDirectories path = .ok t := by
  induction path generalizing t with
  | nil =>
    cases t with
    | file c => cases h
    | directory entries => rfl
  | cons name path ih =>
    cases t with
    | file c => cases h
    | directory entries =>
      rw [at?_directory_cons] at h
      obtain ⟨s, hs, h⟩ := Option.bind_eq_some_iff.1 h
      rw [makeDirectories, hs]
      refine bind_eq_ok_iff.2 ⟨s, ih h, ?_⟩
      rw [setChild_of_child? hs]
      rfl

/-- A file that is there after directories have been made on some way was there before. -/
theorem file_of_made {t t' : FileTree α} {path : Path} {content : α} {onWay : Prop}
    (hmade : t'.at? path = t.at? path ∨
      onWay ∧ t.at? path = none ∧ t'.at? path = some .directory)
    (h : t'.at? path = some (.file content)) : t.at? path = some (.file content) := by
  rcases hmade with he | ⟨-, -, he⟩
  · exact he.symm.trans h
  · cases he.symm.trans h

/-! ### Writing -/

/-- The file holds what was written, and nothing else has changed. -/
theorem at?_write {t t' : FileTree α} {path : Path} {content : α}
    (h : t.write content path = .ok t') (q : Path) :
    t'.at? q = if q = path then some (.file content) else t.at? q := by
  induction path generalizing t t' q with
  | nil =>
    cases t with
    | directory entries => cases h
    | file c =>
      cases h
      cases q <;> rfl
  | cons name path ih =>
    cases t with
    | file c => cases h
    | directory entries =>
      -- what stands below `name` afterwards
      have hsteps : ∃ s, t' = .directory (setChild name s entries) ∧ ∀ q,
          s.at? q = if q = path then some (.file content)
            else (child? name entries).bind fun t => t.at? q := by
        rw [write] at h
        cases hc : child? name entries with
        | some s =>
          rw [hc] at h
          obtain ⟨s', hs', h⟩ := bind_eq_ok_iff.1 h
          cases h
          exact ⟨s', rfl, ih hs'⟩
        | none =>
          rw [hc] at h
          dsimp only at h
          split at h
          · next hp =>
            cases h
            subst hp
            exact ⟨_, rfl, fun q => by cases q <;> rfl⟩
          · cases h
      obtain ⟨s, rfl, hs⟩ := hsteps
      cases q with
      | nil => rfl
      | cons name' q =>
        rw [at?_directory_cons, at?_directory_cons, child?_setChild]
        by_cases hn : name = name'
        · subst hn
          rw [if_pos rfl, Option.bind_some, hs]
          simp only [List.cons.injEq, true_and]
        · rw [if_neg hn, if_neg fun hq => hn (List.cons.inj hq).1.symm]

/-- A directory is not replaced by a file. -/
theorem not_write_directory {t t' : FileTree α} {path : Path} {content : α}
    {entries : List (String × FileTree α)} (hd : t.lookup path = .ok (.directory entries)) :
    t.write content path ≠ .ok t' := by
  induction path generalizing t t' with
  | nil =>
    cases t with
    | file c => cases hd
    | directory entries => exact nofun
  | cons name path ih =>
    cases t with
    | file c => exact nofun
    | directory entries =>
      rw [lookup] at hd
      cases hc : child? name entries with
      | none =>
        rw [hc] at hd
        cases hd
      | some s =>
        rw [hc] at hd
        rw [write, hc]
        intro h
        obtain ⟨s', hs', -⟩ := bind_eq_ok_iff.1 h
        exact ih hd hs'

/-- A file can be written where one is. -/
theorem write_of_file {t : FileTree α} {path : Path} {old : α}
    (h : t.at? path = some (.file old)) (content : α) : ∃ t', t.write content path = .ok t' := by
  induction path generalizing t with
  | nil =>
    cases t with
    | file c => exact ⟨_, rfl⟩
    | directory entries => cases h
  | cons name path ih =>
    cases t with
    | file c => cases h
    | directory entries =>
      rw [at?_directory_cons] at h
      obtain ⟨s, hs, h⟩ := Option.bind_eq_some_iff.1 h
      obtain ⟨t', ht'⟩ := ih h
      rw [write, hs]
      exact ⟨_, bind_eq_ok_iff.2 ⟨t', ht', rfl⟩⟩

/-- A new file can be written into a directory. -/
theorem write_of_absent {t : FileTree α} {path : Path} {name : String}
    (hd : t.at? path = some .directory) (h : t.at? (path ++ [name]) = none) (content : α) :
    ∃ t', t.write content (path ++ [name]) = .ok t' := by
  induction path generalizing t with
  | nil =>
    cases t with
    | file c => cases hd
    | directory entries =>
      rw [List.nil_append] at h ⊢
      rw [at?_directory_cons] at h
      cases hc : child? name entries with
      | none =>
        rw [write, hc]
        exact ⟨_, rfl⟩
      | some s =>
        -- an entry with that name would stand at the path
        rw [hc] at h
        cases s <;> cases h
  | cons name' path ih =>
    cases t with
    | file c => cases hd
    | directory entries =>
      rw [at?_directory_cons] at hd
      obtain ⟨s, hs, hd⟩ := Option.bind_eq_some_iff.1 hd
      rw [List.cons_append, at?_directory_cons, hs, Option.bind_some] at h
      obtain ⟨t', ht'⟩ := ih hd h
      rw [List.cons_append, write, hs]
      exact ⟨_, bind_eq_ok_iff.2 ⟨t', ht', rfl⟩⟩

/-! ### Removing -/

/-- What a path leads to after a file has been removed was there before. -/
theorem at?_of_remove {t t' : FileTree α} {path : Path} (h : t.remove path = .ok t') {q : Path}
    {n : Node α} (hq : t'.at? q = some n) : t.at? q = some n := by
  induction path generalizing t t' q with
  | nil => cases t <;> cases h
  | cons name path ih =>
    cases t with
    | file c => cases h
    | directory entries =>
      rw [remove] at h
      cases hc : child? name entries with
      | none =>
        rw [hc] at h
        cases h
      | some s =>
        rw [hc] at h
        cases s with
        | file c =>
          dsimp only at h
          split at h
          · cases h
            -- the file itself is gone, and the entries with other names stay
            cases q with
            | nil => exact hq
            | cons name' q =>
              rw [at?_directory_cons, child?_filter] at hq
              rw [at?_directory_cons]
              split at hq
              · cases hq
              · exact hq
          · cases h
        | directory below =>
          obtain ⟨s', hs', h⟩ := bind_eq_ok_iff.1 h
          cases h
          cases q with
          | nil => exact hq
          | cons name' q =>
            rw [at?_directory_cons, child?_setChild] at hq
            rw [at?_directory_cons]
            split at hq
            · next hn =>
              subst hn
              rw [hc]
              exact ih hs' hq
            · exact hq

end ApiStencil.FileTree
