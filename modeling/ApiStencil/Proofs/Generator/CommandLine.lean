/-
ApiStencil/Proofs/Generator/CommandLine.lean

What the arguments can give to a run.  Each option and each switch is given at most
once, and no option has an empty value (`Given.WellFormed`), which reading one argument
after the other preserves (`wellFormed_of_readFrom`).

Main result: the paths of a run are not empty (`paths_of_read`), so it is immaterial that
`Route.ofString` reads an empty path as the directory where paths start.
-/
import ApiStencil.Generator.CommandLine
import Mathlib.Data.List.Nodup

namespace ApiStencil.Generator.CommandLine

/-- Whether options and switches are given once, and options with a value. -/
structure Given.WellFormed (g : Given) : Prop where
  filled : ∀ p ∈ g.settings, p.2 ≠ ""
  settings_once : (g.settings.map Prod.fst).Nodup
  switches_once : g.switches.Nodup

section

variable {g g' : Given} {s : Setting} {switch : Switch} {value : String}
  {arguments names : List String} {environment : String → Option String} {r : Request}

theorem Given.wellFormed_nil : Given.WellFormed ⟨[], [], []⟩ :=
  ⟨nofun, List.nodup_nil, List.nodup_nil⟩

/-! ### One argument -/

theorem Given.WellFormed.addTargets (h : g.WellFormed) : (g.addTargets names).WellFormed :=
  ⟨h.filled, h.settings_once, h.switches_once⟩

/-- An option is taken only if it has a value and was not given before. -/
theorem Given.WellFormed.set? (h : g.WellFormed) (hset : g.set? s value = some g') :
    g'.WellFormed := by
  unfold Given.set? at hset
  split at hset
  · cases hset
  · next hnew =>
    obtain ⟨hvalue, hfresh⟩ := not_or.1 hnew
    cases hset
    refine ⟨?_, ?_, h.switches_once⟩
    · intro p hp
      obtain hp | hp := List.mem_append.1 hp
      · exact h.filled p hp
      · exact List.mem_singleton.1 hp ▸ hvalue
    · rw [List.map_append, List.nodup_append]
      refine ⟨h.settings_once, List.nodup_singleton _, ?_⟩
      rintro a ha b hb rfl
      obtain ⟨p, hp, rfl⟩ := List.mem_map.1 ha
      refine hfresh (List.any_eq_true.2 ⟨p, hp, ?_⟩)
      simpa using hb

/-- A switch is taken only if it was not given before. -/
theorem Given.WellFormed.turnOn? (h : g.WellFormed) (hon : g.turnOn? switch = some g') :
    g'.WellFormed := by
  unfold Given.turnOn? at hon
  split at hon
  · cases hon
  · next hoff =>
    cases hon
    refine ⟨h.filled, h.settings_once, ?_⟩
    refine List.nodup_append.2 ⟨h.switches_once, List.nodup_singleton _, ?_⟩
    rintro a ha b hb rfl
    exact hoff (List.mem_singleton.1 hb ▸ ha)

/-! ### All of them -/

/-- Reading arguments keeps what is given well-formed, whatever they are. -/
theorem wellFormed_of_readFrom (h : g.WellFormed) (hread : readFrom g arguments = .done g') :
    g'.WellFormed := by
  -- the induction follows the reader, which takes an argument or, for a value, two
  fun_induction readFrom g arguments with
  | case1 g => exact Reading.done.inj hread ▸ h
  | case2 g argument rest => exact Reading.done.inj hread ▸ h.addTargets
  -- a value in the same argument, and one in the next
  | case3 g argument long _ _ name s value rest _ g₁ hset _ ih => exact ih (h.set? hset) hread
  | case6 g argument long _ _ name s value rest _ _ g₁ hset _ ih => exact ih (h.set? hset) hread
  | case8 g argument long _ _ name s rest _ g₁ hon _ ih => exact ih (h.turnOn? hon) hread
  | case16 g argument rest _ _ _ _ _ ih => exact ih h.addTargets hread
  -- the other arguments end the reading without anything given
  | _ => cases hread

/-- The path that an option or its variable gives is not empty. -/
theorem Given.WellFormed.value? (h : g.WellFormed) (hvalue : g.value? environment s = some value) :
    value ≠ "" := by
  unfold Given.value? at hvalue
  split at hvalue
  · next p hfind =>
    cases hvalue
    exact h.filled _ (List.mem_of_find?_eq_some hfind)
  -- no option, so the value is that of a variable, or the default
  · split at hvalue
    · split at hvalue
      · cases hvalue
      · next hne =>
        cases hvalue
        exact hne
    · cases hvalue
      cases s <;> decide

/-- The paths that a run gets are not empty. -/
theorem paths_of_read (h : read environment arguments = .run r) :
    r.registry ≠ "" ∧ r.output ≠ "" := by
  unfold read at h
  split at h
  · next g hread =>
    have hg : g.WellFormed := wellFormed_of_readFrom Given.wellFormed_nil hread
    split at h
    · next request hrequest =>
      cases h
      obtain ⟨registry, hregistry, hrequest⟩ := Option.bind_eq_some_iff.1 hrequest
      obtain ⟨output, houtput, hrequest⟩ := Option.bind_eq_some_iff.1 hrequest
      obtain ⟨mode, -, hrequest⟩ := Option.bind_eq_some_iff.1 hrequest
      cases hrequest
      exact ⟨hg.value? hregistry, hg.value? houtput⟩
    · cases h
  all_goals cases h

end

end ApiStencil.Generator.CommandLine
