/-
ApiStencil/Proofs/Output/Sibling.lean

Files of one directory that are brought up to date one after the other.

Bringing one of them up to date makes directories and writes this file, and nothing
else (`at?_update`), so the files under other names stay (`fileIn_update_of_ne`).  More
than that: unless the path of the directory strays, bringing one of them up to date has
the same answer and leaves the same text whatever has been done to the others before
(`Alike`).

A file that has been brought up to date is found unchanged (`update_of_fileIn`).
-/
import ApiStencil.Proofs.FileTree.Sibling
import ApiStencil.Proofs.Output.Write

namespace ApiStencil

open FileTree

namespace Route

variable {α : Type} {t t' : FileTree α} {r : Route} {content : α} {q : Path}

theorem directory_of_put (h : r.put content t = (.ok (), t')) (hq : t.at? q = some .directory) :
    t'.at? q = some .directory := by
  obtain ⟨-, -, hwrite⟩ := put_eq_ok_iff.1 h
  obtain ⟨path, -, -, hkept, -⟩ := exists_of_write hwrite
  exact hkept q (Path.directory_makeThrough (Path.reached_root t) hq)

end Route

namespace Output

variable {directory : Path} {d d' m n : String} {t t' : FileTree String} {content : String}
  {mode : Mode} {p q : Path} {e : FileError}

/-- The names of a directory's path. -/
def namesTo (directory : Path) (d : String) : List String :=
  (Route.ofString directory d).names

/-- The path of a file in a directory. -/
def routeIn (directory : Path) (d n : String) : Route :=
  Route.ofString directory (Path.join d n)

/-- The text of a file in a directory, if the file is there. -/
def fileIn (directory : Path) (d n : String) (t : FileTree String) : Option String :=
  ((routeIn directory d n).read t).toOption

theorem routeIn_eq (hn : Path.IsName n) :
    routeIn directory d n =
      ⟨namesTo directory d ++ [n], .name, Route.fault? (Path.join d n)⟩ :=
  Route.ofString_join hn directory d

/-- A file in a directory is where the directory is, under its name. -/
theorem resolve_routeIn (hn : Path.IsName n) (hf : Route.fault? (Path.join d n) = none)
    (hp : Path.resolve t (namesTo directory d) = .ok p) :
    (routeIn directory d n).resolve t = .ok (p ++ [n]) := by
  rw [routeIn_eq hn, Route.resolve_concat hn, hf]
  exact congrArg (Except.map (· ++ [n])) hp

/-- And nowhere else. -/
theorem leads_of_resolve_routeIn (hn : Path.IsName n)
    (h : (routeIn directory d n).resolve t = .ok q) :
    Route.fault? (Path.join d n) = none ∧
      ∃ p, Path.resolve t (namesTo directory d) = .ok p ∧ q = p ++ [n] := by
  rw [routeIn_eq hn, Route.resolve_concat hn] at h
  cases hf : Route.fault? (Path.join d n) with
  | some e =>
    rw [hf] at h
    cases h
  | none =>
    rw [hf] at h
    obtain ⟨p, hp, rfl⟩ := map_eq_ok_iff.1 h
    exact ⟨rfl, p, hp, rfl⟩

theorem passed_routeIn (hn : Path.IsName n) :
    (routeIn directory d n).passed = Path.stations [] (namesTo directory d) := by
  rw [Route.passed, routeIn_eq hn, List.dropLast_concat]

/-- A file in a directory has a text if the directory is somewhere and the text stands there under
the name. -/
theorem fileIn_eq_some_iff (hn : Path.IsName n) :
    fileIn directory d n t = some content ↔ Route.fault? (Path.join d n) = none ∧
      ∃ p, Path.resolve t (namesTo directory d) = .ok p ∧
        t.at? (p ++ [n]) = some (.file content) := by
  have hread : fileIn directory d n t = some content ↔
      (routeIn directory d n).read t = .ok content := by
    rw [fileIn]
    cases (routeIn directory d n).read t with
    | error e => exact ⟨nofun, nofun⟩
    | ok c => exact ⟨fun h => congrArg _ (Option.some.inj h), fun h => congrArg _ (Except.ok.inj h)⟩
  rw [hread, Route.read_eq_ok_iff]
  constructor
  · rintro ⟨-, q, hq, hfile⟩
    obtain ⟨hf, p, hp, rfl⟩ := leads_of_resolve_routeIn hn hq
    exact ⟨hf, p, hp, hfile⟩
  · rintro ⟨hf, p, hp, hfile⟩
    exact ⟨by rw [routeIn_eq hn], _, resolve_routeIn hn hf hp, hfile⟩

/-- In a directory that is somewhere, reading a file is reading at its place. -/
theorem read_routeIn (hn : Path.IsName n) (hf : Route.fault? (Path.join d n) = none)
    (hp : Path.resolve t (namesTo directory d) = .ok p) :
    (routeIn directory d n).read t = t.read (p ++ [n]) := by
  have hending : (routeIn directory d n).ending = .name := by rw [routeIn_eq hn]
  rw [Route.read, Route.lookup, resolve_routeIn hn hf hp, ok_bind, FileTree.read, hending]
  cases t.lookup (p ++ [n]) with
  | error e => rfl
  | ok s => cases s <;> rfl

/-- A path that no system takes cannot be looked at. -/
theorem existing_of_fault (hn : Path.IsName n) (hf : Route.fault? (Path.join d n) = some e)
    (t : FileTree String) : existing t (routeIn directory d n) = .error e := by
  have hread : (routeIn directory d n).read t = .error e := by
    rw [Route.read, Route.lookup, routeIn_eq hn, Route.resolve_concat hn, hf]
    rfl
  have hne : e ≠ .notFound := fun h => Route.fault?_ne_notFound _ (h ▸ hf)
  rw [existing, hread]
  cases e <;> first | rfl | exact absurd rfl hne

/-! ### What can change -/

/-- Bringing a file up to date makes missing directories on the way and writes the file, and changes
nothing else. -/
theorem Step.at?_after {s : Step} (h : s.Follows directory) (hn : Path.IsName n)
    (hw : s.request.written = Path.join d n) (q : Path) :
    s.after.at? q = s.before.at? q ∨
      (q ∈ Path.stations [] (namesTo directory d) ∧ s.before.at? q = none ∧
        s.after.at? q = some .directory) ∨
      ∃ p, Path.resolve s.after (namesTo directory d) = .ok p ∧ q = p ++ [n] ∧
        s.before.at? q ≠ some .directory ∧ s.after.at? q = some (.file s.request.content) := by
  cases h with
  | refused | compared | kept => exact .inl rfl
  | wrote _ _ hput _ =>
    rw [hw] at hput
    obtain ⟨path, hholds⟩ := Route.holds_put hput
    obtain ⟨-, p, hp, rfl⟩ := leads_of_resolve_routeIn hn hholds.leads
    by_cases hq : q = p ++ [n]
    · subst hq
      refine .inr (.inr ⟨p, hp, rfl, fun hd => ?_, hholds.content⟩)
      cases (Route.directory_of_put hput hd).symm.trans hholds.content
    · rw [← passed_routeIn hn]
      exact (hholds.others q hq).imp_right .inl
  -- the directories on the way have been made at most
  | broke _ hput _ =>
    rw [hw] at hput
    rw [← passed_routeIn hn]
    exact (Route.at?_put_of_error hput q).imp_right .inl

/-- What bringing a file up to date can change, told by the tree that it leaves. -/
theorem at?_update (directory : Path) (d : String) (hn : Path.IsName n) (t : FileTree String)
    (content : String) (mode : Mode) (q : Path) :
    (update t directory (Path.join d n) content mode).2.at? q = t.at? q ∨
      (q ∈ Path.stations [] (namesTo directory d) ∧ t.at? q = none ∧
        (update t directory (Path.join d n) content mode).2.at? q = some .directory) ∨
      ∃ p, Path.resolve (update t directory (Path.join d n) content mode).2
          (namesTo directory d) = .ok p ∧ q = p ++ [n] ∧ t.at? q ≠ some .directory ∧
        (update t directory (Path.join d n) content mode).2.at? q = some (.file content) :=
  Step.at?_after (follows_step directory t ⟨Path.join d n, content, mode⟩) hn rfl q

/-- A directory is still one after a file has been brought up to date. -/
theorem directory_update (hn : Path.IsName n) (content : String) (mode : Mode)
    (hq : t.at? q = some .directory) :
    (update t directory (Path.join d n) content mode).2.at? q = some .directory := by
  rcases at?_update directory d hn t content mode q with h | ⟨-, h, -⟩ | ⟨p, -, -, h, -⟩
  · exact h.trans hq
  · cases h.symm.trans hq
  · exact absurd hq h

/-- The paths of directories lead where they have led. -/
theorem resolve_update (hn : Path.IsName n) (content : String) (mode : Mode)
    {names : List String} (hp : Path.resolve t names = .ok p) :
    Path.resolve (update t directory (Path.join d n) content mode).2 names = .ok p :=
  Path.resolveFrom_mono (fun _ => directory_update hn content mode) hp

/-- A file with another name stays as it is. -/
theorem file_update_of_ne (hn : Path.IsName n) (hmn : m ≠ n) (content : String) (mode : Mode)
    {c : String} :
    (update t directory (Path.join d n) content mode).2.at? (p ++ [m]) = some (.file c) ↔
      t.at? (p ++ [m]) = some (.file c) := by
  rcases at?_update directory d hn t content mode (p ++ [m]) with
    h | ⟨-, ht, h⟩ | ⟨p', -, hp', -, -⟩
  · rw [h]
  · rw [h, ht]
    exact ⟨nofun, nofun⟩
  · exact absurd (List.append_inj' hp' rfl).2 (by simpa using hmn)

/-- So the file under another name in any directory stays as it is, once the directory's path leads
somewhere. -/
theorem fileIn_update_of_ne (hm : Path.IsName m) (hn : Path.IsName n) (hmn : m ≠ n)
    (hp : Path.resolve t (namesTo directory d') = .ok p) (content : String) (mode : Mode) :
    fileIn directory d' m (update t directory (Path.join d n) content mode).2 =
      fileIn directory d' m t := by
  refine Option.ext fun c => ?_
  rw [fileIn_eq_some_iff hm, fileIn_eq_some_iff hm, resolve_update hn content mode hp, hp]
  simp only [Except.ok.injEq, exists_eq_left']
  rw [file_update_of_ne hn hmn]

/-! ### Answers -/

/-- What a file that can be looked at and written is answered with. -/
def answerTo (shown content : String) (mode : Mode) (old : Option String) : Outcome :=
  if mode = .verify then compare shown old content
  else if mode = .incremental ∧ old = some content then .unchanged
  else .written

/-- A file that cannot be read is not taken for one that is not there. -/
theorem existing_of_read_error {r : Route} (h : r.read t = .error e) (hne : e ≠ .notFound) :
    existing t r = .error e := by
  rw [existing, h]
  cases e <;> first | rfl | exact absurd rfl hne

theorem update_of_existing_error {w : String}
    (h : existing t (Route.ofString directory w) = .error e) :
    update t directory w content mode = (.error e, t) := by
  rw [update, h]

/-- A file is written unless it is only compared, or holds the text and may be left. -/
theorem answerTo_eq_written_iff {shown : String} {old : Option String} :
    answerTo shown content mode old = .written ↔
      mode ≠ .verify ∧ ¬ (mode = .incremental ∧ old = some content) := by
  rw [answerTo]
  by_cases hv : mode = .verify
  · rw [if_pos hv]
    exact ⟨fun h => absurd h compare_ne_written, fun h => absurd hv h.1⟩
  · rw [if_neg hv, and_iff_right hv]
    by_cases hk : mode = .incremental ∧ old = some content
    · rw [if_pos hk]
      exact ⟨nofun, fun h => absurd hk h⟩
    · rw [if_neg hk]
      exact ⟨fun _ => hk, fun _ => rfl⟩

/-- Where the file can be looked at and put, the answer depends on its text only, and the file is
put if that is the answer. -/
theorem update_of_existing {w : String} {old : Option String} {t₁ : FileTree String}
    (h : existing t (Route.ofString directory w) = .ok old)
    (hput : (Route.ofString directory w).put content t = (.ok (), t₁)) :
    update t directory w content mode = (.ok (answerTo w content mode old),
      if answerTo w content mode old = .written then t₁ else t) := by
  simp only [update, h, answerTo_eq_written_iff]
  rw [answerTo]
  by_cases hv : mode = .verify
  · rw [if_pos hv, if_pos hv, if_neg fun h => h.1 hv]
  · rw [if_neg hv, if_neg hv]
    by_cases hk : mode = .incremental ∧ old = some content
    · rw [if_pos hk, if_pos hk, if_neg fun h => h.2 hk]
    · rw [if_neg hk, if_neg hk, if_pos ⟨hv, hk⟩, hput]

theorem not_concat_prefix : ¬ p ++ [n] <+: p := fun h => by
  have hlength := h.length_le
  rw [List.length_append, List.length_singleton] at hlength
  omega

/-- If no file can be put where nothing is, the error is the answer. -/
theorem update_of_put_error {w : String} {t₁ : FileTree String}
    (h : existing t (Route.ofString directory w) = .ok none) (hmode : mode ≠ .verify)
    (hput : (Route.ofString directory w).put content t = (.error e, t₁)) :
    update t directory w content mode = (.error e, t₁) := by
  simp only [update, h, hput]
  rw [if_neg hmode, if_neg fun h => Option.some_ne_none _ h.2.symm]

/-- Where the directory's path leads to a place, a file that can be looked at can be written. -/
theorem put_of_existing (hn : Path.IsName n)
    (hp : Path.resolve t (namesTo directory d) = .ok p) {old : Option String}
    (h : existing t (routeIn directory d n) = .ok old) (content : String) :
    ∃ t', (routeIn directory d n).put content t = (.ok (), t') := by
  cases old with
  | some c => exact Route.put_of_read (existing_eq_some_iff.1 h) content
  | none =>
    cases hf : Route.fault? (Path.join d n) with
    | some e =>
      rw [existing_of_fault hn hf] at h
      cases h
    | none =>
      have hread := existing_eq_none_iff.1 h
      rw [read_routeIn hn hf hp, FileTree.read] at hread
      have hlook : t.lookup (p ++ [n]) = .error .notFound := by
        cases hl : t.lookup (p ++ [n]) with
        | error e =>
          rw [hl] at hread
          exact congrArg _ (Except.error.inj hread)
        | ok s =>
          rw [hl] at hread
          cases s <;> cases hread
      have hclear : ∀ q c, q <+: p → t.at? q ≠ some (.file c) := by
        intro q c hq hfile
        have hne : q ≠ p ++ [n] := by
          rintro rfl
          exact not_concat_prefix hq
        rw [lookup_eq_notDirectory_iff.2
          ⟨q, c, hq.trans (List.prefix_append _ _), hne, hfile⟩] at hlook
        cases hlook
      obtain ⟨hmade, hdir⟩ := Path.makeThrough_of_leads hp hclear
      have habsent : t.at? (p ++ [n]) = none := by
        rw [at?, hlook]
        rfl
      -- nothing has been made at the place of the file
      have hstill : (Path.makeThrough t [] (namesTo directory d)).2.at? (p ++ [n]) = none := by
        rcases Path.at?_makeThrough (Path.reached_root t) (namesTo directory d) (p ++ [n]) with
          he | ⟨hm, -, -⟩
        · exact he.trans habsent
        · rcases Path.directory_or_prefix hp hm with hd | hpre
          · cases hd.symm.trans habsent
          · exact absurd hpre not_concat_prefix
      obtain ⟨t', ht'⟩ := write_of_absent hdir hstill content
      have hleads : (routeIn directory d n).resolve
          (Path.makeThrough t [] (namesTo directory d)).2 = .ok (p ++ [n]) :=
        resolve_routeIn hn hf (Path.resolveFrom_mono
          (fun _ => Path.directory_makeThrough (Path.reached_root t)) hp)
      refine ⟨t', Route.put_eq_ok_iff.2 ?_⟩
      rw [Route.write_eq_ok_iff, routeIn_eq hn, List.dropLast_concat, ← routeIn_eq hn]
      exact ⟨hf, hmade, by rw [routeIn_eq hn], _, hleads, ht'⟩

/-- In a directory that is somewhere, the answer depends on what is there under the name only. -/
theorem update_of_leads (hn : Path.IsName n) (hp : Path.resolve t (namesTo directory d) = .ok p)
    (content : String) (mode : Mode) :
    (update t directory (Path.join d n) content mode).1 =
      (existing t (routeIn directory d n)).map (answerTo (Path.join d n) content mode) := by
  cases h : existing t (routeIn directory d n) with
  | error e => exact congrArg Prod.fst (update_of_existing_error h)
  | ok old =>
    obtain ⟨t₁, hput⟩ := put_of_existing hn hp h content
    exact congrArg Prod.fst (update_of_existing h hput)

/-- What is there after a file has been brought up to date. -/
theorem existing_update (hn : Path.IsName n) (hp : Path.resolve t (namesTo directory d) = .ok p)
    (content : String) (mode : Mode) :
    existing (update t directory (Path.join d n) content mode).2 (routeIn directory d n) =
      if (update t directory (Path.join d n) content mode).1 = .ok .written then .ok (some content)
      else existing t (routeIn directory d n) := by
  cases h : existing t (routeIn directory d n) with
  | error e =>
    rw [update_of_existing_error h, if_neg nofun]
    exact h
  | ok old =>
    obtain ⟨t₁, hput⟩ := put_of_existing hn hp h content
    obtain ⟨path, hholds⟩ := Route.holds_put hput
    have hupdate : update t directory (Path.join d n) content mode =
        (.ok (answerTo (Path.join d n) content mode old), _) := update_of_existing h hput
    -- the file holds the new text if it was written, and was not touched otherwise
    by_cases hw : answerTo (Path.join d n) content mode old = .written
    · rw [if_pos hw, hw] at hupdate
      rw [hupdate, if_pos rfl]
      exact existing_eq_some_iff.2 hholds.read
    · rw [if_neg hw] at hupdate
      rw [hupdate, if_neg fun h => hw (Except.ok.inj h)]
      exact h

/-- In a directory that is somewhere, what is there under another name stays, a directory
included. -/
theorem existing_update_of_ne (hm : Path.IsName m) (hn : Path.IsName n) (hmn : m ≠ n)
    (hp : Path.resolve t (namesTo directory d) = .ok p) (content : String) (mode : Mode) :
    existing (update t directory (Path.join d n) content mode).2 (routeIn directory d m) =
      existing t (routeIn directory d m) := by
  cases hf : Route.fault? (Path.join d m) with
  | some e => rw [existing_of_fault hm hf, existing_of_fault hm hf]
  | none =>
    have hp' : Path.resolve (update t directory (Path.join d n) content mode).2
        (namesTo directory d) = .ok p := resolve_update hn content mode hp
    rw [existing, existing, read_routeIn hm hf hp', read_routeIn hm hf hp,
      FileTree.read_congr (fun q c hq => ?_) ⟨fun hd => ?_, directory_update hn content mode⟩]
    · rcases at?_update directory d hn t content mode q with
        h | ⟨-, ht, h⟩ | ⟨p', hres, rfl, -, -⟩
      · rw [h]
      · -- a directory has been made where nothing was
        rw [h, ht]
        exact ⟨nofun, nofun⟩
      · -- the file that is written is not on the way to the other one
        cases hp'.symm.trans hres
        have hlength : (p ++ [n]).length = (p ++ [m]).length := by
          rw [List.length_append, List.length_append, List.length_singleton, List.length_singleton]
        have heq := List.append_cancel_left (hq.eq_of_length hlength)
        exact absurd (List.cons.inj heq).1.symm hmn
    · rcases at?_update directory d hn t content mode (p ++ [m]) with
        h | ⟨hst, ht, -⟩ | ⟨p', -, heq, -, -⟩
      · exact h.symm.trans hd
      · rcases Path.directory_or_prefix hp hst with h | h
        · exact h
        · exact absurd h not_concat_prefix
      · exact absurd (List.cons.inj (List.append_inj' heq rfl).2).1 hmn

/-- Into a directory that refuses files, none is put, and it goes on refusing them. -/
theorem update_of_refuses (hn : Path.IsName n) (hmode : mode ≠ .verify)
    (h : Path.Refuses t (namesTo directory d) e) (content : String) :
    (update t directory (Path.join d n) content mode).1 =
        .error ((Route.fault? (Path.join d n)).getD e) ∧
      Path.Refuses (update t directory (Path.join d n) content mode).2 (namesTo directory d) e := by
  cases hf : Route.fault? (Path.join d n) with
  | some f =>
    rw [update_of_existing_error (existing_of_fault hn hf t)]
    exact ⟨rfl, h⟩
  | none =>
    have hread : ∀ e, Path.resolve t (namesTo directory d) = .error e →
        (routeIn directory d n).read t = .error e := by
      intro e he
      rw [Route.read, Route.lookup, routeIn_eq hn, Route.resolve_concat hn, hf, he]
      rfl
    -- either the way ends early and nothing is made, or at the long name, behind directories that
    -- are made
    cases h with
    | stopped he hne =>
      rw [update_of_existing_error (existing_of_read_error (hread e he) hne)]
      exact ⟨rfl, .stopped he hne⟩
    | @long front rest name p hnames hname hl hp habsent =>
      have hnone : existing t (routeIn directory d n) = .ok none := by
        refine existing_eq_none_iff.2 (hread _ ?_)
        rw [hnames, Path.resolve_long hname hl hp, habsent]
        rfl
      obtain ⟨t₁, hmade, hstopped⟩ := Path.makeThrough_long (b := rest) hname hl hp habsent
      rw [← hnames] at hmade hstopped
      have hput : (routeIn directory d n).put content t = (.error .nameTooLong, t₁) := by
        rw [Route.put, routeIn_eq hn, hf]
        dsimp only
        rw [List.dropLast_concat, hmade]
      rw [update_of_put_error hnone hmode hput]
      exact ⟨rfl, .stopped hstopped FileError.noConfusion⟩

/-! ### Doing nothing to a file -/

/-- The text of a file is what looking at it finds. -/
theorem fileIn_eq_existing :
    fileIn directory d n t = (existing t (routeIn directory d n)).toOption.join := by
  rw [fileIn]
  cases h : existing t (routeIn directory d n) with
  | error e =>
    rw [(read_of_existing_error h).1]
    rfl
  | ok old =>
    cases old with
    | none =>
      rw [existing_eq_none_iff.1 h]
      rfl
    | some c =>
      rw [existing_eq_some_iff.1 h]
      rfl

theorem fileIn_of_refuses (hn : Path.IsName n) (h : Path.Refuses t (namesTo directory d) e) :
    fileIn directory d n t = none := by
  refine Option.eq_none_iff_forall_ne_some.2 fun c hc => ?_
  obtain ⟨-, p, hp, -⟩ := (fileIn_eq_some_iff hn).1 hc
  exact Path.not_leads_of_refuses h hp

/-- Nothing is written to compare. -/
theorem update_verify (t : FileTree String) (directory : Path) (w content : String) :
    (update t directory w content .verify).2 = t :=
  (lawful_step directory t ⟨w, content, .verify⟩).verify rfl

/-- Whether two trees are alike as far as one file of a directory is concerned that is to be brought
up to date. -/
inductive Alike (directory : Path) (d : String) (mode : Mode) (n : String)
    (t t' : FileTree String) : Prop
  /-- Nothing is written. -/
  | same (hmode : mode = .verify) (h : t = t')
  /-- The directory's path leads to the same place, where the same is found. -/
  | leads {p : Path} (h : Path.resolve t (namesTo directory d) = .ok p)
      (h' : Path.resolve t' (namesTo directory d) = .ok p)
      (hfound : existing t (routeIn directory d n) = existing t' (routeIn directory d n))
  /-- No file can be put into the directory, for the same reason. -/
  | refuses {e : FileError} (hmode : mode ≠ .verify)
      (h : Path.Refuses t (namesTo directory d) e) (h' : Path.Refuses t' (namesTo directory d) e)

namespace Alike

/-- A tree is like itself, unless something is to be written and the path of the directory
strays. -/
theorem refl (n : String)
    (h : mode ≠ .verify → ¬ Path.Strays t [] (namesTo directory d)) :
    Alike directory d mode n t t := by
  by_cases hmode : mode = .verify
  · exact .same hmode rfl
  · rcases Path.leads_or_refuses (h hmode) with ⟨p, hp⟩ | ⟨e, he⟩
    · exact .leads hp hp rfl
    · exact .refuses hmode he he

/-- Bringing a file with another name up to date makes no difference. -/
theorem update_of_ne (h : Alike directory d mode m t t') (hm : Path.IsName m) (hn : Path.IsName n)
    (hmn : m ≠ n) (content : String) :
    Alike directory d mode m t (update t' directory (Path.join d n) content mode).2 := by
  cases h with
  | same hmode h =>
    subst hmode h
    exact .same rfl (update_verify ..).symm
  | leads hp hp' hfound =>
    exact .leads hp (resolve_update hn content mode hp')
      (hfound.trans (existing_update_of_ne hm hn hmn hp' content mode).symm)
  | refuses hmode he he' => exact .refuses hmode he (update_of_refuses hn hmode he' content).2

/-- Bringing the file itself up to date has the same answer. -/
theorem answer (h : Alike directory d mode n t t') (hn : Path.IsName n) (content : String) :
    (Output.update t directory (Path.join d n) content mode).1 =
      (Output.update t' directory (Path.join d n) content mode).1 := by
  cases h with
  | same hmode h => rw [h]
  | leads hp hp' hfound => rw [update_of_leads hn hp, update_of_leads hn hp', hfound]
  | refuses hmode he he' =>
    rw [(update_of_refuses hn hmode he content).1, (update_of_refuses hn hmode he' content).1]

/-- And leaves trees that are alike. -/
theorem update (h : Alike directory d mode n t t') (hn : Path.IsName n) (content : String) :
    Alike directory d mode n (Output.update t directory (Path.join d n) content mode).2
      (Output.update t' directory (Path.join d n) content mode).2 := by
  have hanswer := h.answer hn content
  cases h with
  | same hmode h => exact .same hmode (by rw [h])
  | leads hp hp' hfound =>
    refine .leads (resolve_update hn content mode hp) (resolve_update hn content mode hp') ?_
    rw [existing_update hn hp, existing_update hn hp', hanswer, hfound]
  | refuses hmode he he' =>
    exact .refuses hmode (update_of_refuses hn hmode he content).2
      (update_of_refuses hn hmode he' content).2

/-- Trees that are alike have the same text in the file. -/
theorem fileIn_eq (h : Alike directory d mode n t t') (hn : Path.IsName n) :
    fileIn directory d n t = fileIn directory d n t' := by
  cases h with
  | same hmode h => rw [h]
  | leads hp hp' hfound => rw [fileIn_eq_existing, fileIn_eq_existing, hfound]
  | refuses hmode he he' => rw [fileIn_of_refuses hn he, fileIn_of_refuses hn he']

end Alike

/-! ### Files that are up to date -/

/-- A file that has been written or found unchanged holds the text. -/
theorem fileIn_of_update {outcome : Outcome} (hgood : outcome = .written ∨ outcome = .unchanged)
    (h : (update t directory (Path.join d n) content mode).1 = .ok outcome) :
    fileIn directory d n (update t directory (Path.join d n) content mode).2 = some content := by
  have hlawful := lawful_step directory t ⟨Path.join d n, content, mode⟩
  have hread : (routeIn directory d n).read
      (update t directory (Path.join d n) content mode).2 = .ok content := by
    rcases hgood with rfl | rfl
    · obtain ⟨-, path, hwrites⟩ := hlawful.written h
      exact hwrites.holds.read
    · have hkept := hlawful.untouched h
      exact (congrArg _ hkept).trans (hlawful.unchanged.1 h).1
  rw [fileIn, hread]
  rfl

/-- A file that holds the text is found unchanged. -/
theorem update_of_fileIn (hmode : mode ≠ .generate)
    (h : fileIn directory d n t = some content) :
    update t directory (Path.join d n) content mode = (.ok .unchanged, t) := by
  have hread : (routeIn directory d n).read t = .ok content := by
    rw [fileIn] at h
    cases hr : (routeIn directory d n).read t with
    | error e =>
      rw [hr] at h
      cases h
    | ok c =>
      rw [hr] at h
      exact congrArg _ (Option.some.inj h)
  have hlawful := lawful_step directory t ⟨Path.join d n, content, mode⟩
  have hunchanged := hlawful.unchanged.2 ⟨hread, by
    cases mode with
    | generate => exact absurd rfl hmode
    | incremental => exact .inr rfl
    | verify => exact .inl rfl⟩
  exact Prod.ext hunchanged (hlawful.untouched hunchanged)

end Output

end ApiStencil
