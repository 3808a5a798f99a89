/-
ApiStencil/Proofs/Registry/Tracking.lean

Configurations that differ in the order of their state tracking code only.  Agreeing
is just that (`Config.agrees_iff`), and resolving does not see the order, since it
looks the code of each function up under its name (`Registry.build_of_reorders`).
-/
import ApiStencil.Proofs.OrderedMap
import ApiStencil.Registry.Build
import Mathlib.Data.List.Nodup
import Mathlib.Data.List.Perm.Subperm

namespace ApiStencil

namespace OrderedMap

variable {α : Type} {m n : OrderedMap α}

/-- A map with the entries of another and no more has the same entries. -/
theorem perm_entries_of_subset (hs : m.size = n.size) (h : m.entries ⊆ n.entries) :
    m.entries.Perm n.entries := by
  have hm : m.entries.Nodup := List.Nodup.of_map _ m.nodup_keys
  exact (List.subperm_of_subset hm h).perm_of_length_le (Nat.le_of_eq hs.symm)

end OrderedMap

namespace Config

/-- Whether `b` is `a` with the state tracking code in another order. -/
structure Reorders (a b : Config) : Prop where
  rest : b = { a with stateTracking := b.stateTracking }
  tracking : a.stateTracking.entries.Perm b.stateTracking.entries

variable {a b c : Config}

/-- Agreeing is to differ in the order of the code only. -/
theorem agrees_iff : a.agrees b = true ↔ a.Reorders b := by
  simp only [agrees, Bool.and_eq_true, beq_iff_eq, List.all_eq_true]
  constructor
  · rintro ⟨⟨⟨⟨⟨hapi, hexcluded⟩, hcreation⟩, hopaque⟩, hsize⟩, hentries⟩
    refine ⟨?_, OrderedMap.perm_entries_of_subset hsize fun e he => ?_⟩
    · rw [hapi, hexcluded, hcreation, hopaque]
    · exact OrderedMap.get?_eq_some_iff_mem.1 (hentries e he)
  · rintro ⟨hrest, htracking⟩
    rw [hrest]
    refine ⟨⟨⟨⟨⟨rfl, rfl⟩, rfl⟩, rfl⟩, htracking.length_eq⟩, fun e he => ?_⟩
    exact OrderedMap.get?_eq_some_iff_mem.2 (htracking.mem_iff.1 he)

theorem Reorders.refl (a : Config) : a.Reorders a := ⟨rfl, .refl _⟩

theorem Reorders.symm (h : a.Reorders b) : b.Reorders a := by
  refine ⟨?_, h.tracking.symm⟩
  rw [h.rest]

theorem Reorders.trans (h : a.Reorders b) (h' : b.Reorders c) : a.Reorders c := by
  refine ⟨?_, h.tracking.trans h'.tracking⟩
  rw [h'.rest, h.rest]

/-- Configurations that agree with each other agree with the same ones. -/
theorem agrees_congr (h : a.Reorders b) (c : Config) : c.agrees a = c.agrees b := by
  rw [Bool.eq_iff_iff, agrees_iff, agrees_iff]
  exact ⟨fun hc => hc.trans h, fun hc => hc.trans h.symm⟩

end Config

/-- A function sees of the code what is found under its name. -/
theorem Function.ofCommand_of_tracking {config : Config} {tracking : OrderedMap String}
    (h : ∀ name, tracking.get? name = config.stateTracking.get? name) (aliases : Aliases)
    (constants : OrderedMap String) (handles : OrderedMap Handle) (d : Document.CommandDef) :
    Function.ofCommand ⟨{ config with stateTracking := tracking }, aliases, constants⟩ handles d =
      Function.ofCommand ⟨config, aliases, constants⟩ handles d := by
  unfold Function.ofCommand
  dsimp only
  rw [h]
  rfl

/-- The order of the state tracking code makes no difference. -/
theorem Registry.build_of_reorders {a b : Config} (h : a.Reorders b) (doc : Document) :
    Registry.build a doc = Registry.build b doc := by
  have hget : ∀ name, b.stateTracking.get? name = a.stateTracking.get? name := fun name =>
    (OrderedMap.get?_eq_of_perm h.tracking name).symm
  have hcommands : ∀ handles, Function.ofCommand (doc.context b) handles =
      Function.ofCommand (doc.context a) handles := by
    intro handles
    funext d
    rw [Document.context, h.rest]
    exact Function.ofCommand_of_tracking hget doc.aliases doc.constants handles d
  unfold Registry.build
  simp only [hcommands]
  rw [h.rest]
  rfl

end ApiStencil
