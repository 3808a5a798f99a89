/-
ApiStencil/Proofs/Alias/Cycle.lean

Which chains of aliases end.  `Reaches a b` says that following aliases leads from `a` to
`b`; a name runs into a cycle if it reaches two different names that reach each other
(`RunsIntoCycle`).  A name that is its own alias is no cycle but the end of a chain.

A chain ends exactly if it does not run into a cycle (`exists_endsAt_iff`).  Without a
cycle, a step leaves a name behind that is never reached again, so the names that can
still be reached become fewer with every step (`reached_ssubset`).

Main result: a name that does not run into a cycle is resolved to the end of its chain.
Hence resolving it again changes nothing, its alias is resolved to the same name, and so
it is with an alias more in the list, if that is for a name that the list does not know
(`resolve_reaches_end`).
-/
import ApiStencil.Proofs.Alias
import ApiStencil.Proofs.OrderedMap
import Mathlib.Data.Finset.Card
import Mathlib.Logic.Relation

namespace ApiStencil.Aliases

/-- Whether following aliases from `a` leads to `b`. -/
def Reaches (aliases : Aliases) : String → String → Prop :=
  Relation.ReflTransGen fun a b => aliases.get? a = some b

/-- Whether the chain of a name comes to two different names that reach each other. -/
def RunsIntoCycle (aliases : Aliases) (name : String) : Prop :=
  ∃ a b, aliases.Reaches name a ∧ a ≠ b ∧ aliases.Reaches a b ∧ aliases.Reaches b a

/-- Whether a name has no alias or is its own. -/
def IsEnd (aliases : Aliases) (name : String) : Prop :=
  name ∉ aliases.keys ∨ aliases.get? name = some name

variable {aliases : Aliases} {m n : Nat} {name target final a b : String}

/-- A name is an end if the only thing it can be an alias of is itself. -/
theorem isEnd_iff :
    aliases.IsEnd name ↔ ∀ target, aliases.get? name = some target → target = name := by
  rw [IsEnd, ← OrderedMap.contains_iff_mem_keys, OrderedMap.contains]
  cases h : aliases.get? name with
  | none => simp
  | some target => simp

/-! ### Chains that end -/

theorem Leads.reaches (h : aliases.Leads n name final) : aliases.Reaches name final := by
  induction h with
  | last => exact Relation.ReflTransGen.refl
  | next h _ _ ih => exact ih.head h

theorem Leads.isEnd (h : aliases.Leads n name final) : aliases.IsEnd final := by
  induction h with
  | last h => exact isEnd_iff.2 h
  | next _ _ _ ih => exact ih

/-- Of a chain that ends, each name but the first has fewer aliases to come. -/
theorem Leads.of_reaches (hab : aliases.Reaches a b) (h : aliases.Leads n a final) :
    ∃ m ≤ n, aliases.Leads m b final ∧ (m = n → a = b) := by
  induction hab using Relation.ReflTransGen.head_induction_on generalizing n with
  -- from the front of the way, so that the chain shortens with it
  | refl => exact ⟨n, Nat.le_refl n, h, fun _ => rfl⟩
  | @head a c hac _ ih =>
    cases h with
    | last hlast =>
      obtain rfl := hlast c hac
      exact ih (.last hlast)
    | next ht hne rest =>
      cases hac.symm.trans ht
      obtain ⟨m, hm, hlead, -⟩ := ih rest
      exact ⟨m, by omega, hlead, fun he => by omega⟩

/-- A chain that ends does not run into a cycle. -/
theorem EndsAt.not_runsIntoCycle (h : aliases.EndsAt name final) :
    ¬ aliases.RunsIntoCycle name := by
  obtain ⟨n, h⟩ := h
  rintro ⟨a, b, hname, hne, hab, hba⟩
  obtain ⟨k, -, ha, -⟩ := h.of_reaches hname
  obtain ⟨m, hm, hb, hstay⟩ := ha.of_reaches hab
  obtain ⟨k', hk', ha', -⟩ := hb.of_reaches hba
  -- back at `a`, as many aliases are to come as before
  have hk : k' = k := ha'.length_unique ha
  exact hne (hstay (by omega))

/-! ### Chains without a cycle -/

/-- A cycle is run into a step later as well. -/
theorem RunsIntoCycle.head (h : aliases.RunsIntoCycle target)
    (ht : aliases.get? name = some target) : aliases.RunsIntoCycle name := by
  obtain ⟨a, b, hreach, hcycle⟩ := h
  exact ⟨a, b, hreach.head ht, hcycle⟩

open Classical in
/-- The aliases among the names that are reached. -/
noncomputable def reached (aliases : Aliases) (name : String) : Finset String :=
  aliases.keys.toFinset.filter fun a => aliases.Reaches name a

theorem mem_reached_iff : a ∈ aliases.reached name ↔ a ∈ aliases.keys ∧ aliases.Reaches name a := by
  simp [reached]

/-- A step to another name leaves the name behind, unless it runs into a cycle. -/
theorem reached_ssubset (h : ¬ aliases.RunsIntoCycle name)
    (ht : aliases.get? name = some target) (hne : target ≠ name) :
    aliases.reached target ⊂ aliases.reached name := by
  have hstep : aliases.Reaches name target := Relation.ReflTransGen.single ht
  have hkey : name ∈ aliases.keys :=
    OrderedMap.contains_iff_mem_keys.1 (Option.isSome_iff_exists.2 ⟨target, ht⟩)
  rw [Finset.ssubset_iff_of_subset]
  · refine ⟨name, mem_reached_iff.2 ⟨hkey, Relation.ReflTransGen.refl⟩, ?_⟩
    intro hback
    exact h ⟨name, target, Relation.ReflTransGen.refl, hne.symm, hstep, (mem_reached_iff.1 hback).2⟩
  · intro a ha
    obtain ⟨hmem, hreach⟩ := mem_reached_iff.1 ha
    exact mem_reached_iff.2 ⟨hmem, hstep.trans hreach⟩

/-- A chain that does not run into a cycle ends. -/
theorem exists_endsAt (h : ¬ aliases.RunsIntoCycle name) :
    ∃ final, aliases.EndsAt name final := by
  -- on the number of aliases that can still be reached
  induction hcard : (aliases.reached name).card using Nat.strong_induction_on
    generalizing name with
  | _ k ih =>
    -- either the chain has ended, or a step leads to a name that reaches fewer
    by_cases hend : ∀ target, aliases.get? name = some target → target = name
    · exact ⟨name, 0, .last hend⟩
    · obtain ⟨target, htarget⟩ := not_forall.1 hend
      obtain ⟨ht, hne⟩ := Classical.not_imp.1 htarget
      have hfewer : (aliases.reached target).card < k :=
        hcard ▸ Finset.card_lt_card (reached_ssubset h ht hne)
      have hrest : ¬ aliases.RunsIntoCycle target := fun hcycle => h (hcycle.head ht)
      obtain ⟨final, n, hlead⟩ := ih _ hfewer hrest rfl
      exact ⟨final, n + 1, .next ht hne hlead⟩

/-- A chain ends exactly if it does not run into a cycle. -/
theorem exists_endsAt_iff :
    (∃ final, aliases.EndsAt name final) ↔ ¬ aliases.RunsIntoCycle name := by
  constructor
  · rintro ⟨final, h⟩
    exact h.not_runsIntoCycle
  · exact exists_endsAt

/-! ### Names with the same end -/

theorem EndsAt.of_get? (h : aliases.EndsAt name final) (ht : aliases.get? name = some target) :
    aliases.EndsAt target final := by
  obtain ⟨n, h⟩ := h
  obtain ⟨m, -, hlead, -⟩ := h.of_reaches (Relation.ReflTransGen.single ht)
  exact ⟨m, hlead⟩

/-- A chain is as it was after an alias is added for a name that is neither an alias nor stands
behind one. -/
theorem Leads.insert {added : String} (h : aliases.Leads n name final)
    (hvalue : added ∉ aliases.values) (hne : added ≠ name) (target : String) :
    Leads (aliases.insert added target) n name final := by
  induction h with
  | @last name hlast =>
    refine .last fun t ht => ?_
    rw [OrderedMap.get?_insert, if_neg hne] at ht
    exact hlast t ht
  | @next n name t final ht hother _ ih =>
    refine .next ?_ hother (ih ?_)
    · rw [OrderedMap.get?_insert, if_neg hne]
      exact ht
    · -- what stands behind an alias is not the added name
      rintro rfl
      exact hvalue (aliases.mem_values_of_get? ht)

/-- A name whose chain does not run into a cycle is resolved to the end of its chain, which is
resolved to itself.  Its alias has the same end, and neither the name nor what it is resolved to is
concerned by an alias that is added for another name, which the list does not know. -/
theorem resolve_reaches_end (h : ¬ aliases.RunsIntoCycle name) :
    aliases.Reaches name (aliases.resolve name) ∧ aliases.IsEnd (aliases.resolve name) ∧
      aliases.resolve (aliases.resolve name) = aliases.resolve name ∧
      (∀ target, aliases.get? name = some target →
        aliases.resolve target = aliases.resolve name) ∧
      ∀ added target, added ∉ aliases.keys → added ∉ aliases.values → added ≠ name →
        resolve (aliases.insert added target) name = aliases.resolve name := by
  obtain ⟨final, hends⟩ := exists_endsAt h
  obtain ⟨n, hlead⟩ := hends
  have hfinal : aliases.resolve name = final := resolve_of_endsAt ⟨n, hlead⟩
  have hend : aliases.EndsAt final final := ⟨0, .last (isEnd_iff.1 hlead.isEnd)⟩
  -- each part is about names with this end
  rw [hfinal]
  refine ⟨hlead.reaches, hlead.isEnd, resolve_of_endsAt hend, ?_, ?_⟩
  · intro target ht
    exact resolve_of_endsAt (EndsAt.of_get? ⟨n, hlead⟩ ht)
  · intro added target _ hvalue hne
    exact resolve_of_endsAt ⟨n, hlead.insert hvalue hne target⟩

/-- Two aliases in a row and one of its own, beside two that form a cycle. -/
def chained : Aliases :=
  OrderedMap.ofList [("VkOldKHR", "VkOld"), ("VkOld", "VkNew"), ("VkNew", "VkNew"),
    ("VkThis", "VkThat"), ("VkThat", "VkThis")]

theorem chained_leads : chained.Leads 2 "VkOldKHR" "VkNew" := by
  have hold : chained.get? "VkOldKHR" = some "VkOld" := rfl
  have hnew : chained.get? "VkOld" = some "VkNew" := rfl
  refine .next hold (by decide) (.next hnew (by decide) (.last fun target ht => ?_))
  cases ht
  rfl

/-- The chain of two aliases is resolved past both, although two others form a cycle. -/
theorem resolve_reaches_end_chained :
    ¬ chained.RunsIntoCycle "VkOldKHR" ∧ chained.resolve "VkOldKHR" = "VkNew" ∧
      chained.IsEnd "VkNew" ∧ chained.resolve "VkOld" = "VkNew" ∧
      resolve (chained.insert "VkNewer" "VkThis") "VkOldKHR" = "VkNew" := by
  have hcycle : ¬ chained.RunsIntoCycle "VkOldKHR" := EndsAt.not_runsIntoCycle ⟨2, chained_leads⟩
  obtain ⟨-, hend, -, htarget, hadded⟩ := resolve_reaches_end hcycle
  have hresolve : chained.resolve "VkOldKHR" = "VkNew" := by decide
  rw [hresolve] at hend htarget hadded
  exact ⟨hcycle, hresolve, hend, htarget "VkOld" rfl,
    hadded "VkNewer" "VkThis" (by decide) (by decide) (by decide)⟩

end ApiStencil.Aliases
