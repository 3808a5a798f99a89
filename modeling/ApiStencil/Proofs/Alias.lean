/-
ApiStencil/Proofs/Alias.lean

Chains of aliases.  `Leads` describes the chain of a name without the bound that
following it has.  A chain that ends passes each of its names once, as a name
determines how many aliases are still to come, so it is no longer than the list of
aliases (`Leads.le_size`) and following it reaches the end (`resolve_of_leads`).
-/
import ApiStencil.Alias
import ApiStencil.Proofs.OrderedMap
import Mathlib.Data.List.Perm.Subperm

namespace ApiStencil.Aliases

/-- Whether a number of aliases leads from a name to one that has no alias, or is its own. -/
inductive Leads (aliases : Aliases) : Nat → String → String → Prop where
  | last {name : String} (h : ∀ target, aliases.get? name = some target → target = name) :
    Leads aliases 0 name name
  | next {n : Nat} {name target final : String} (h : aliases.get? name = some target)
    (hne : target ≠ name) (rest : Leads aliases n target final) :
    Leads aliases (n + 1) name final

/-- Whether the chain of a name ends, and where. -/
def EndsAt (aliases : Aliases) (name final : String) : Prop :=
  ∃ n, aliases.Leads n name final

/-- Whether the chains of two names have the same end. -/
def SameEnd (aliases : Aliases) (a b : String) : Prop :=
  ∃ final, aliases.EndsAt a final ∧ aliases.EndsAt b final

variable {aliases : Aliases} {m n steps : Nat} {name final : String}

/-- A name determines how long its chain is. -/
theorem Leads.length_unique (h : aliases.Leads m name final) (h' : aliases.Leads n name final) :
    m = n := by
  induction h generalizing n with
  -- the chain that has ended cannot go on in the other one
  | last hl =>
    cases h' with
    | last _ => rfl
    | next hn hne _ => exact absurd (hl _ hn) hne
  | next hn hne _ ih =>
    cases h' with
    | last hl => exact absurd (hl _ hn) hne
    | next hn' _ rest =>
      cases hn.symm.trans hn'
      exact congrArg _ (ih rest)

/-- The names that a chain passes are aliases, all different, and have the same end. -/
theorem Leads.exists_passed (h : aliases.Leads n name final) :
    ∃ l : List String, l.length = n ∧ l.Nodup ∧ l ⊆ aliases.keys ∧
      ∀ k ∈ l, ∃ m ≤ n, aliases.Leads m k final := by
  induction h with
  | last => exact ⟨[], rfl, List.nodup_nil, List.nil_subset _, nofun⟩
  | @next n name target final hn hne rest ih =>
    obtain ⟨l, hlength, hnodup, hkeys, hl⟩ := ih
    have hlead : aliases.Leads (n + 1) name final := .next hn hne rest
    -- what comes later has fewer aliases to come
    have hnew : name ∉ l := by
      intro hm
      obtain ⟨m, hm, h⟩ := hl name hm
      have := h.length_unique hlead
      omega
    have hkey : name ∈ aliases.keys :=
      OrderedMap.contains_iff_mem_keys.1 (Option.isSome_iff_exists.2 ⟨target, hn⟩)
    refine ⟨name :: l, congrArg _ hlength, List.nodup_cons.2 ⟨hnew, hnodup⟩,
      List.cons_subset.2 ⟨hkey, hkeys⟩, List.forall_mem_cons.2 ⟨⟨n + 1, Nat.le_refl _, hlead⟩, ?_⟩⟩
    intro k hk
    obtain ⟨m, hm, h⟩ := hl k hk
    exact ⟨m, Nat.le_succ_of_le hm, h⟩

/-- A chain that ends is no longer than the list of aliases. -/
theorem Leads.le_size (h : aliases.Leads n name final) : n ≤ aliases.size := by
  obtain ⟨l, hlength, hnodup, hkeys, -⟩ := h.exists_passed
  have hle : l.length ≤ aliases.keys.length := (List.subperm_of_subset hnodup hkeys).length_le
  rwa [hlength, OrderedMap.keys, List.length_map] at hle

/-- Following a chain reaches its end if as many steps are allowed as it has aliases. -/
theorem follow_of_leads (h : aliases.Leads n name final) (hn : n ≤ steps) :
    aliases.follow steps name = final := by
  induction h generalizing steps with
  -- at the end more steps may be allowed, but none is taken
  | @last name hl =>
    cases steps with
    | zero => rfl
    | succ steps =>
      rw [follow]
      split
      · next target ht => rw [if_pos (hl target ht)]
      · rfl
  | @next n name target final ht hne rest ih =>
    cases steps with
    | zero => exact absurd hn (Nat.not_succ_le_zero n)
    | succ steps =>
      rw [follow, ht]
      dsimp only
      rw [if_neg hne]
      exact ih (Nat.le_of_succ_le_succ hn)

/-- Resolving a name gives the end of its chain. -/
theorem resolve_of_endsAt (h : aliases.EndsAt name final) : aliases.resolve name = final := by
  obtain ⟨n, h⟩ := h
  exact follow_of_leads h h.le_size

theorem resolve_of_not_contains (h : aliases.contains name = false) :
    aliases.resolve name = name := by
  refine resolve_of_endsAt ⟨0, .last fun target ht => ?_⟩
  rw [OrderedMap.contains, ht] at h
  cases h

theorem resolve_eq_of_sameEnd {a b : String} (h : aliases.SameEnd a b) :
    aliases.resolve a = aliases.resolve b := by
  obtain ⟨final, ha, hb⟩ := h
  rw [resolve_of_endsAt ha, resolve_of_endsAt hb]

/-! ### Aliases in another order -/

section

variable {aliases' : Aliases} (h : ∀ key, aliases'.get? key = aliases.get? key)

include h

/-- Following looks aliases up by name, so their order makes no difference to it. -/
theorem follow_congr (steps : Nat) (name : String) :
    aliases'.follow steps name = aliases.follow steps name := by
  induction steps generalizing name with
  | zero => rfl
  | succ steps ih =>
    rw [follow, follow, h]
    cases aliases.get? name with
    | none => rfl
    | some target =>
      dsimp only
      rw [ih]

/-- A name stands for the same one wherever the aliases are listed: what is found under each name is
the same, and the number of steps that are allowed is too. -/
theorem resolve_congr (name : String) : aliases'.resolve name = aliases.resolve name := by
  rw [resolve, resolve, OrderedMap.size_eq_of_get?_eq h, follow_congr h]

end

end ApiStencil.Aliases
