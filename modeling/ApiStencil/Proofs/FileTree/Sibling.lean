/-
ApiStencil/Proofs/FileTree/Sibling.lean

The files of one directory, under written paths that end with a name.

Such a path leads to an entry of the directory in front of the name
(`Path.resolve_concat`, `Route.ofString_join`).  Where the path of a directory leads
to a place and no file stands in the way, the directory can be made
(`Path.makeThrough_of_leads`).  Where it leads to no place, no file can be put into it,
and there are three reasons (`Path.leads_or_refuses`): a file stands in the way, a name
is too long, or double dots lead back out of a place where nothing is (`Path.Strays`).
Only in the last case can making the directories change where the path leads.
-/
import ApiStencil.Proofs.FileTree.Walk

namespace ApiStencil

open FileTree

variable {α : Type} {t t' t₁ : FileTree α} {above p q : Path} {n name : String}
  {a b names : List String} {e : FileError}

/-- Reading depends on the files on the way to a path, and on what stands there. -/
theorem FileTree.read_congr {path : Path}
    (hfiles : ∀ q c, q <+: path → (t'.at? q = some (.file c) ↔ t.at? q = some (.file c)))
    (hdir : t'.at? path = some .directory ↔ t.at? path = some .directory) :
    t'.read path = t.read path := by
  rw [FileTree.read, FileTree.read]
  cases h : t.lookup path with
  | ok s =>
    cases s with
    | file c =>
      have h' := at?_eq_file_iff.1 ((hfiles path c List.prefix_rfl).2 (at?_eq_file_iff.2 h))
      rw [h']
    | directory entries =>
      obtain ⟨entries', h'⟩ := at?_eq_directory_iff.1 (hdir.2 (at?_eq_directory_iff.2 ⟨_, h⟩))
      rw [h']
      rfl
  | error e =>
    have hway : t'.lookup path = .error .notDirectory ↔ t.lookup path = .error .notDirectory := by
      rw [lookup_eq_notDirectory_iff, lookup_eq_notDirectory_iff]
      refine exists_congr fun q => exists_congr fun c => and_congr_right fun hq => ?_
      exact and_congr_right fun _ => hfiles q c hq
    cases h' : t'.lookup path with
    | ok s =>
      -- something would stand there in the one tree only
      cases s with
      | file c =>
        rw [at?_eq_file_iff.1 ((hfiles path c List.prefix_rfl).1 (at?_eq_file_iff.2 h'))] at h
        cases h
      | directory entries =>
        obtain ⟨_, h₁⟩ := at?_eq_directory_iff.1 (hdir.1 (at?_eq_directory_iff.2 ⟨_, h'⟩))
        rw [h₁] at h
        cases h
    | error e' =>
      rw [h, h', Except.error.injEq, Except.error.injEq] at hway
      rcases lookup_error h with rfl | rfl
      · obtain rfl := (lookup_error h').resolve_right fun he => absurd (hway.1 he) (by decide)
        rfl
      · rw [hway.2 rfl]

namespace Path

/-- A name that an entry of a directory can have and a written path can end with. -/
def IsName (n : String) : Prop :=
  n.toList ≠ [] ∧ n ≠ "." ∧ n ≠ ".." ∧ '/' ∉ n.toList ∧ isLong n = false

instance (n : String) : Decidable (IsName n) := inferInstanceAs (Decidable (_ ∧ _))

/-! ### Walks in two parts -/

/-- A walk goes through its first names, and from the place that it has reached through the rest. -/
theorem resolveFrom_append :
    resolveFrom t above (a ++ b) =
      resolveFrom t above a >>= fun p => resolveFrom t p.reverse b := by
  -- along the first names; a double dot may stop the walk in both forms alike
  induction a generalizing above with
  | nil =>
    rw [resolveFrom, ok_bind, List.reverse_reverse]
    rfl
  | cons name a ih =>
    rw [List.cons_append, resolveFrom.eq_def t above (name :: (a ++ b)),
      resolveFrom.eq_def t above (name :: a)]
    dsimp only
    by_cases hn : name = ".."
    · rw [if_pos hn, if_pos hn]
      cases above with
      | nil => exact ih
      | cons n outer =>
        cases t.lookup (n :: outer).reverse with
        | error e => rfl
        | ok s =>
          cases s with
          | file c => rfl
          | directory entries => exact ih
    · rw [if_neg hn, if_neg hn]
      by_cases hl : isLong name
      · rw [if_pos hl, if_pos hl]
        cases t.lookup above.reverse with
        | error e => rfl
        | ok s => cases s <;> rfl
      · rw [if_neg hl, if_neg hl]
        exact ih

/-- A name at the end is added to the place to which the names in front of it lead. -/
theorem resolve_concat (hn : IsName n) (names : List String) :
    resolve t (names ++ [n]) = (resolve t names).map (· ++ [n]) := by
  rw [resolve, resolveFrom_append, resolve]
  cases resolveFrom t [] names with
  | error e => rfl
  | ok p =>
    rw [ok_bind, resolveFrom.eq_def]
    dsimp only
    rw [if_neg hn.2.2.1, hn.2.2.2.2, if_neg Bool.false_ne_true, resolveFrom, List.reverse_cons,
      List.reverse_reverse]
    rfl

/-- Making the directories of a walk makes those of its first names, and goes on from there. -/
theorem makeThrough_append (hp : resolveFrom t above a = .ok p)
    (hm : makeThrough t above a = (.ok (), t₁)) (hr : Reached t above) :
    makeThrough t above (a ++ b) = makeThrough t₁ p.reverse b := by
  induction a generalizing t above with
  | nil =>
    cases hp
    cases hm
    rw [List.reverse_reverse]
    rfl
  | cons name a ih =>
    rw [List.cons_append, makeThrough]
    rw [makeThrough] at hm
    by_cases hn : name = ".."
    · subst hn
      obtain ⟨-, hp⟩ := resolveFrom_dots_eq_ok_iff.1 hp
      rw [if_pos rfl] at hm ⊢
      exact ih hp hm hr.tail
    · obtain ⟨hl, hp⟩ := (resolveFrom_name_eq_ok_iff hn).1 hp
      rw [if_neg hn, hl, if_neg Bool.false_ne_true] at hm ⊢
      cases hd : t.makeDirectories (name :: above).reverse with
      | error e =>
        rw [hd] at hm
        cases hm
      | ok t₂ =>
        rw [hd] at hm
        -- making a directory leaves the way that is still to go, which leads through directories
        have hat := at?_makeStation hr hd
        refine ih (resolveFrom_mono (fun q hq => ?_) hp) hm (.inr (by rw [hat, if_pos rfl]))
        rw [hat]
        split
        · rfl
        · exact hq

/-! ### Where a walk leads -/

/-- A walk leads on from where it starts, unless it comes back out of a directory. -/
theorem prefix_or_reached (hp : resolveFrom t above names = .ok p) :
    above.reverse <+: p ∨ Reached t above := by
  induction names generalizing above with
  | nil =>
    cases hp
    exact .inl List.prefix_rfl
  | cons name names ih =>
    by_cases hn : name = ".."
    · subst hn
      exact .inr (resolveFrom_dots_eq_ok_iff.1 hp).1
    · obtain ⟨-, hp⟩ := (resolveFrom_name_eq_ok_iff hn).1 hp
      rcases ih hp with h | h
      · rw [List.reverse_cons] at h
        exact .inl ((List.prefix_append _ _).trans h)
      · exact .inr (.of_cons (h.resolve_left (List.cons_ne_nil _ _)))

/-- A station of a walk is above the place to which it leads, or is there. -/
theorem directory_or_prefix (hp : resolveFrom t above names = .ok p)
    (hq : q ∈ stations above names) : t.at? q = some .directory ∨ q <+: p := by
  induction names generalizing above with
  | nil => cases hq
  | cons name names ih =>
    rw [stations] at hq
    by_cases hn : name = ".."
    · subst hn
      rw [if_pos rfl] at hq
      exact ih (resolveFrom_dots_eq_ok_iff.1 hp).2 hq
    · obtain ⟨-, hp⟩ := (resolveFrom_name_eq_ok_iff hn).1 hp
      rw [if_neg hn] at hq
      rcases List.mem_cons.1 hq with rfl | hq
      · exact (prefix_or_reached hp).symm.imp_left (·.resolve_left (List.cons_ne_nil _ _))
      · exact ih hp hq

/-- A walk whose stations are all directories ends at one. -/
theorem at?_of_stations (hp : resolveFrom t above names = .ok p)
    (hd : t.at? above.reverse = some .directory)
    (h : ∀ q ∈ stations above names, t.at? q = some .directory) : t.at? p = some .directory := by
  induction names generalizing above with
  | nil =>
    cases hp
    exact hd
  | cons name names ih =>
    rw [stations] at h
    by_cases hn : name = ".."
    · subst hn
      rw [if_pos rfl] at h
      exact ih (resolveFrom_dots_eq_ok_iff.1 hp).2 (at?_tail hd) h
    · obtain ⟨-, hp⟩ := (resolveFrom_name_eq_ok_iff hn).1 hp
      rw [if_neg hn] at h
      obtain ⟨hs, h⟩ := List.forall_mem_cons.1 h
      exact ih hp hs h

/-- If no file stands on the way, the directory to which a walk leads can be made. -/
theorem makeThrough_of_leads (hp : resolve t names = .ok p)
    (hclear : ∀ q c, q <+: p → t.at? q ≠ some (.file c)) :
    (makeThrough t [] names).1 = .ok () ∧
      (makeThrough t [] names).2.at? p = some .directory := by
  have hroot : t.at? [] = some .directory := by
    cases t with
    | file c => exact absurd rfl (hclear [] c List.nil_prefix)
    | directory entries => rfl
  have hmade : (makeThrough t [] names).1 = .ok () := by
    refine makeThrough_of_clear hroot (not_isLong_of_resolveFrom hp) fun q hq c => ?_
    rcases directory_or_prefix hp hq with hd | hq
    · rw [hd]
      exact nofun
    · exact hclear q c hq
  have hkept : ∀ q, t.at? q = some .directory →
      (makeThrough t [] names).2.at? q = some .directory := fun q =>
    directory_makeThrough (reached_root t)
  exact ⟨hmade, at?_of_stations (resolveFrom_mono hkept hp) (hkept [] hroot)
    (directory_of_makeThrough (reached_root t) hmade)⟩

/-! ### Where no walk leads -/

/-- Whether double dots lead back out of a place where nothing is. -/
def Strays (t : FileTree α) (above : Path) : List String → Prop
  | [] => False
  | name :: rest =>
    if name = ".." then t.lookup above.reverse = .error .notFound ∨ Strays t above.tail rest
    else Strays t (name :: above) rest

/-- Only double dots lead back. -/
theorem not_strays_of_not_mem (h : ".." ∉ names) : ¬ Strays t above names := by
  induction names generalizing above with
  | nil => exact id
  | cons name names ih =>
    rw [List.mem_cons, not_or] at h
    rw [Strays, if_neg (Ne.symm h.1)]
    exact ih h.2

/-- A walk that strays still does with more names behind it. -/
theorem Strays.append (h : Strays t above a) (b : List String) : Strays t above (a ++ b) := by
  induction a generalizing above with
  | nil => cases h
  | cons name a ih =>
    rw [Strays] at h
    rw [List.cons_append, Strays]
    split
    · next hn =>
      rw [if_pos hn] at h
      exact h.imp_right ih
    · next hn =>
      rw [if_neg hn] at h
      exact ih h

/-- A walk without long names that does not stray leads to a place, unless a file stands in the
way. -/
theorem leads_or_notDirectory (hs : ¬ Strays t above names)
    (hl : ∀ name ∈ names, name ≠ ".." → isLong name = false) :
    (∃ p, resolveFrom t above names = .ok p) ∨
      resolveFrom t above names = .error .notDirectory := by
  induction names generalizing above with
  | nil => exact .inl ⟨_, rfl⟩
  | cons name names ih =>
    obtain ⟨hname, hl⟩ := List.forall_mem_cons.1 hl
    rw [Strays] at hs
    rw [resolveFrom.eq_def]
    dsimp only
    by_cases hn : name = ".."
    · rw [if_pos hn, not_or] at hs
      rw [if_pos hn]
      cases above with
      | nil => exact ih hs.2 hl
      | cons n outer =>
        cases hlook : t.lookup (n :: outer).reverse with
        | error e =>
          rcases lookup_error hlook with rfl | rfl
          · exact absurd hlook hs.1
          · exact .inr rfl
        | ok s =>
          cases s with
          | file c => exact .inr rfl
          | directory entries => exact ih hs.2 hl
    · rw [if_neg hn] at hs ⊢
      rw [hname hn, if_neg Bool.false_ne_true]
      exact ih hs hl

/-- No file can be put into the directory at the end of a walk, and this is why. -/
inductive Refuses (t : FileTree α) (names : List String) : FileError → Prop
  /-- The walk ends early at something that is there. -/
  | stopped {e : FileError} (h : resolve t names = .error e) (hne : e ≠ .notFound) :
      Refuses t names e
  /-- The walk comes to a long name, in a directory that can be made. -/
  | long {front rest : List String} {name : String} {p : Path}
      (h : names = front ++ name :: rest) (hn : name ≠ "..") (hl : isLong name = true)
      (hp : resolve t front = .ok p) (habsent : t.lookup p = .error .notFound) :
      Refuses t names .nameTooLong

/-- Why a long name cannot be looked for. -/
def longName : FileTree α → FileError
  | .file _ => .notDirectory
  | .directory _ => .nameTooLong

/-- What a walk meets at a long name. -/
theorem resolveFrom_long (hn : name ≠ "..") (hl : isLong name = true) :
    resolveFrom t above (name :: names) =
      t.lookup above.reverse >>= fun s => .error (longName s) := by
  rw [resolveFrom.eq_def]
  dsimp only
  rw [if_neg hn, if_pos hl]
  cases t.lookup above.reverse with
  | error e => rfl
  | ok s => cases s <;> rfl

/-- A walk fails at the first long name, for its length if the name is looked for in a directory. -/
theorem resolve_long (hn : name ≠ "..") (hl : isLong name = true) (hp : resolve t a = .ok p) :
    resolve t (a ++ name :: b) = t.lookup p >>= fun s => .error (longName s) := by
  rw [resolve] at hp
  rw [resolve, resolveFrom_append, hp, ok_bind, resolveFrom_long hn hl, List.reverse_reverse]

/-- The names up to the first long one. -/
theorem exists_long (h : ¬ ∀ name ∈ names, name ≠ ".." → isLong name = false) :
    ∃ front name rest, names = front ++ name :: rest ∧ name ≠ ".." ∧ isLong name = true ∧
      ∀ name ∈ front, name ≠ ".." → isLong name = false := by
  induction names with
  | nil => exact absurd nofun h
  | cons name names ih =>
    by_cases hname : name ≠ ".." → isLong name = false
    · obtain ⟨front, long, rest, rfl, hn, hl, hfront⟩ :=
        ih fun hrest => h (List.forall_mem_cons.2 ⟨hname, hrest⟩)
      exact ⟨name :: front, long, rest, rfl, hn, hl, List.forall_mem_cons.2 ⟨hname, hfront⟩⟩
    · obtain ⟨hn, hl⟩ := Classical.not_imp.1 hname
      exact ⟨[], name, names, rfl, hn, Bool.not_eq_false _ ▸ hl, nofun⟩

/-- A walk that does not stray leads to a place, or to a directory into which no file can be put. -/
theorem leads_or_refuses (hs : ¬ Strays t [] names) :
    (∃ p, resolve t names = .ok p) ∨ ∃ e, Refuses t names e := by
  by_cases hl : ∀ name ∈ names, name ≠ ".." → isLong name = false
  -- without long names only a file can be in the way
  · refine (leads_or_notDirectory hs hl).imp_right fun h => ?_
    exact ⟨_, .stopped h FileError.noConfusion⟩
  · obtain ⟨front, name, rest, rfl, hn, hl, hfront⟩ := exists_long hl
    refine .inr ?_
    -- otherwise the walk is followed up to the first long name
    rcases leads_or_notDirectory (fun h => hs (h.append _)) hfront with ⟨p, hp⟩ | h
    · have hlong := resolve_long (b := rest) hn hl hp
      cases hlook : t.lookup p with
      | ok s =>
        rw [hlook] at hlong
        exact ⟨_, .stopped hlong (by cases s <;> exact FileError.noConfusion)⟩
      | error e =>
        rw [hlook] at hlong
        rcases lookup_error hlook with rfl | rfl
        · exact ⟨_, .long rfl hn hl hp hlook⟩
        · exact ⟨_, .stopped hlong FileError.noConfusion⟩
    · refine ⟨_, .stopped (e := .notDirectory) ?_ FileError.noConfusion⟩
      rw [resolve, resolveFrom_append, h]
      rfl

/-- Where a file is refused, the walk leads to no place. -/
theorem not_leads_of_refuses (h : Refuses t names e) : resolve t names ≠ .ok p := by
  cases h with
  | stopped h =>
    rw [h]
    exact nofun
  | long h hn hl hp habsent =>
    subst h
    rw [resolve_long hn hl hp, habsent]
    exact nofun

/-- In a directory that can be made, a long name is noticed once the directory is there. -/
theorem makeThrough_long (hn : name ≠ "..") (hl : isLong name = true) (hp : resolve t a = .ok p)
    (habsent : t.lookup p = .error .notFound) :
    ∃ t₁, makeThrough t [] (a ++ name :: b) = (.error .nameTooLong, t₁) ∧
      resolve t₁ (a ++ name :: b) = .error .nameTooLong := by
  have hclear : ∀ q c, q <+: p → t.at? q ≠ some (.file c) := by
    intro q c hq hf
    by_cases he : q = p
    · subst he
      rw [at?_eq_file_iff, habsent] at hf
      cases hf
    · rw [lookup_eq_notDirectory_iff.2 ⟨q, c, hq, he, hf⟩] at habsent
      cases habsent
  obtain ⟨hmade, hdir⟩ := makeThrough_of_leads hp hclear
  have hkept : ∀ q, t.at? q = some .directory →
      (makeThrough t [] a).2.at? q = some .directory := fun q =>
    directory_makeThrough (reached_root t)
  refine ⟨(makeThrough t [] a).2, ?_, ?_⟩
  · rw [makeThrough_append hp (Prod.ext hmade rfl) (reached_root t), makeThrough, if_neg hn,
      if_pos hl]
  · obtain ⟨entries, hlook⟩ := at?_eq_directory_iff.1 hdir
    rw [resolve_long hn hl (resolveFrom_mono hkept hp), hlook]
    rfl

end Path

/-! ### Written paths that end with a name -/

namespace Route

/-- No text is refused as a path because nothing is there. -/
theorem fault?_ne_notFound (s : String) : fault? s ≠ some .notFound := by
  rw [fault?]
  split
  · exact nofun
  · split <;> exact nofun

/-- The names in a text with a slash are those in front of the slash and those behind it. -/
theorem segments_append {d s : String} {a b : List Char} (hs : s.toList = a ++ '/' :: b)
    (hd : d.toList = a ∨ d.toList = a ++ ['/']) :
    segments s = segments d ++ segments (String.ofList b) := by
  have hfront : segments d = ((a.splitOn '/').filter (· ≠ [])).map String.ofList := by
    rw [segments]
    rcases hd with hd | hd
    · rw [hd]
    · rw [hd, List.splitOn_append_cons_self, List.filter_append]
      exact congrArg _ (List.append_nil _)
  rw [hfront, segments, segments, hs, List.splitOn_append_cons_self, List.filter_append,
    List.map_append, String.toList_ofList]

theorem segments_of_isName (hn : Path.IsName n) : segments n = [n] := by
  rw [segments, List.splitOn_eq_singleton hn.2.2.2.1,
    List.filter_cons_of_pos (by simpa using hn.1)]
  exact congrArg (fun s => [s]) String.ofList_toList

/-- A name does not begin with a slash, so joining it keeps the path in front of it. -/
theorem head?_of_isName (hn : Path.IsName n) : n.toList.head? ≠ some '/' := fun h =>
  hn.2.2.2.1 (List.mem_of_mem_head? h)

/-- How a name is joined to a path: after the path, with one slash between them. -/
theorem toList_join (hn : Path.IsName n) (d : String) :
    d = "" ∧ Path.join d n = n ∨ d ≠ "" ∧ ∃ a, (Path.join d n).toList = a ++ '/' :: n.toList ∧
      (d.toList = a ∨ d.toList = a ++ ['/']) := by
  rw [Path.join]
  by_cases hd : d = ""
  · exact .inl ⟨hd, if_pos (.inl hd)⟩
  · rw [if_neg (not_or.2 ⟨hd, head?_of_isName hn⟩)]
    refine .inr ⟨hd, ?_⟩
    split
    · next hlast =>
      obtain ⟨a, ha⟩ := List.getLast?_eq_some_iff.1 hlast
      refine ⟨a, ?_, .inr ha⟩
      rw [String.toList_append, ha, List.append_assoc]
      rfl
    · refine ⟨d.toList, ?_, .inl rfl⟩
      rw [String.toList_append, String.toList_append, List.append_assoc]
      rfl

/-- A name that is joined to a path leads to an entry of the directory. -/
theorem ofString_join (hn : Path.IsName n) (directory : Path) (d : String) :
    ofString directory (Path.join d n) =
      ⟨(ofString directory d).names ++ [n], .name, fault? (Path.join d n)⟩ := by
  have hsegments : segments (Path.join d n) = segments d ++ [n] := by
    rcases toList_join hn d with ⟨rfl, hj⟩ | ⟨-, a, hj, hd⟩
    · rw [hj, segments_of_isName hn]
      rfl
    · rw [segments_append hj hd, String.ofList_toList, segments_of_isName hn]
  -- the name is not the start of a path, and it neither ends one like a directory's nor is a dot
  have hstart : (Path.join d n).toList.head? = some '/' ↔ d.toList.head? = some '/' := by
    rcases toList_join hn d with ⟨rfl, hj⟩ | ⟨hne, a, hj, hd⟩
    · rw [hj]
      exact ⟨fun h => absurd h (head?_of_isName hn), nofun⟩
    · rw [hj]
      rcases hd with hd | hd
      · obtain ⟨c, r, rfl⟩ := List.exists_cons_of_ne_nil
          (show a ≠ [] from fun h => hne (String.toList_eq_nil_iff.1 (hd.trans h)))
        rw [hd]
        rfl
      · rw [hd]
        cases a <;> exact Iff.rfl
  have hlast : (Path.join d n).toList.getLast? ≠ some '/' := by
    have hend : n.toList <:+ (Path.join d n).toList := by
      rcases toList_join hn d with ⟨rfl, hj⟩ | ⟨-, a, hj, -⟩
      · exact hj ▸ List.suffix_rfl
      · exact hj ▸ (List.suffix_cons _ _).trans (List.suffix_append _ _)
    obtain ⟨front, hfront⟩ := hend
    rw [← hfront, List.getLast?_append_of_ne_nil _ hn.1]
    exact fun h => hn.2.2.2.1 (List.mem_of_getLast? h)
  have hfilter : (segments (Path.join d n)).filter (· ≠ ".") =
      (segments d).filter (· ≠ ".") ++ [n] := by
    rw [hsegments, List.filter_append, List.filter_cons_of_pos (by simpa using hn.2.1)]
    rfl
  rw [ofString, ofString]
  dsimp only
  rw [hfilter, hsegments, List.getLast?_concat, if_neg (fun h => hn.2.1 (Option.some.inj h)),
    if_neg hlast, if_congr hstart rfl rfl, List.append_assoc]

/-- An entry of a directory is refused for the same reason as the path of the directory. -/
theorem resolve_concat (hn : Path.IsName n) {f : Option FileError} :
    (Route.mk (names ++ [n]) .name f).resolve t =
      match f with
      | some e => .error e
      | none => (Path.resolve t names).map (· ++ [n]) := by
  cases f with
  | some e => rfl
  | none => exact Path.resolve_concat hn names

end Route

end ApiStencil
