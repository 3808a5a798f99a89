/-
ApiStencil/Proofs/Template/Guard.lean

Guards only wrap.  The output for a registry is the output without its guards, with
lines inserted around the items that have one (`expand_unguarded`).

`Writes` says how a text grows by fragments, by looking at the end of what has been
written, and `writes_render` that this is what rendering does; a guard so starts a
line wherever it comes (`startsLine_gapAfter`).  `Nested` says that the guards in a
sequence of fragments are balanced.  The rest is the trace: it is the same with and
without guards, and each output is made from it.
-/
import ApiStencil.Proofs.Template.EndsLine
import ApiStencil.Proofs.Template.Render
import ApiStencil.Proofs.Template.Unguarded

namespace ApiStencil.Template

open Fragment

/-! ### How the output grows -/

/-- The line break that a guard needs after `front`. -/
def gapAfter (front : List Char) : List Char :=
  if front = [] ∨ EndsLine front then [] else ['\n']

/-- `Writes front l out`: after `front`, the fragments `l` complete the text to `out`. -/
inductive Writes : List Char → List Fragment → List Char → Prop
  | nil (front : List Char) : Writes front [] front
  | text {front s out : List Char} {r : List Fragment} (h : Writes (front ++ s) r out) :
      Writes front (.text s :: r) out
  | guardStart {front out : List Char} {symbol : String} {r : List Fragment}
      (h : Writes (front ++ gapAfter front ++
        ("#if defined(".toList ++ symbol.toList ++ ")\n".toList)) r out) :
      Writes front (.guardStart symbol :: r) out
  | guardEnd {front out : List Char} {r : List Fragment}
      (h : Writes (front ++ gapAfter front ++ "#endif\n".toList) r out) :
      Writes front (.guardEnd :: r) out

theorem freshAfter_true_iff {front : List Char} :
    freshAfter true front = true ↔ front = [] ∨ EndsLine front := by
  rcases List.eq_nil_or_concat front with rfl | ⟨a, c, rfl⟩
  · simp
  · simp [freshAfter, EndsLine]

/-- A guard needs a break unless a line starts. -/
theorem gapAfter_eq (front : List Char) :
    gapAfter front = if freshAfter true front then [] else ['\n'] := by
  simp only [gapAfter, freshAfter_true_iff]

/-- A guard starts a line. -/
theorem startsLine_gapAfter (front : List Char) :
    front ++ gapAfter front = [] ∨ EndsLine (front ++ gapAfter front) := by
  unfold gapAfter
  split
  · next h => rwa [List.append_nil]
  · exact .inr (by simp [EndsLine])

/-- The line of a guard ends with its break. -/
theorem endsLine_guardLine {f : Fragment} (h : f.isGuard = true) : EndsLine f.guardLine := by
  obtain ⟨s, hs⟩ := guardLine_ends h
  rw [hs]
  simp [EndsLine]

/-- Both ends of a guard are written in the same way. -/
theorem writes_guard_iff {f : Fragment} (hf : f.isGuard = true) {front out : List Char}
    {r : List Fragment} :
    Writes front (f :: r) out ↔ Writes (front ++ gapAfter front ++ f.guardLine) r out := by
  cases f with
  | text s => cases hf
  | guardStart symbol =>
    constructor
    · rintro (_ | _ | h)
      exact h
    · exact .guardStart
  | guardEnd =>
    constructor
    · rintro (_ | _ | _ | h)
      exact h
    · exact .guardEnd

/-- Writing goes on as what has been written tells. -/
theorem writes_render (front : List Char) (l : List Fragment) :
    Writes front l (front ++ render (freshAfter true front) l) := by
  induction l generalizing front with
  | nil =>
    rw [render, List.append_nil]
    exact .nil front
  | cons f r ih =>
    cases hf : f.isGuard with
    | false =>
      cases f with
      | text s =>
        have h := ih (front ++ s)
        rw [freshAfter_append, List.append_assoc] at h
        exact .text h
      | _ => cases hf
    | true =>
      -- behind the line of a guard a line starts, whatever stood in front of it
      obtain ⟨s, hs⟩ := guardLine_ends hf
      have h := ih (front ++ gapAfter front ++ f.guardLine)
      rw [hs, ← List.append_assoc _ s, freshAfter_append_break, List.append_assoc _ s, ← hs] at h
      rw [writes_guard_iff hf, render_of_isGuard hf, ← gapAfter_eq]
      simpa using h

/-- Fragments one after the other are written so. -/
theorem Writes.of_append {front out : List Char} {a b : List Fragment}
    (h : Writes front (a ++ b) out) : ∃ mid, Writes front a mid ∧ Writes mid b out := by
  induction a generalizing front with
  | nil => exact ⟨front, .nil front, h⟩
  | cons f a ih =>
    -- a text is added as it is, a guard with the gap in front of it
    cases hf : f.isGuard with
    | false =>
      cases f with
      | text s =>
        obtain _ | h := h
        obtain ⟨mid, ha, hb⟩ := ih h
        exact ⟨mid, .text ha, hb⟩
      | _ => cases hf
    | true =>
      obtain ⟨mid, ha, hb⟩ := ih ((writes_guard_iff hf).1 h)
      exact ⟨mid, (writes_guard_iff hf).2 ha, hb⟩

/-- What has been written stays. -/
theorem Writes.starts {front out : List Char} {l : List Fragment} (h : Writes front l out) :
    ∃ after, out = front ++ after := by
  induction h with
  | nil front => exact ⟨[], (List.append_nil front).symm⟩
  | text _ ih =>
    obtain ⟨after, rfl⟩ := ih
    exact ⟨_, List.append_assoc _ _ _⟩
  | guardStart _ ih =>
    obtain ⟨after, rfl⟩ := ih
    exact ⟨_, by rw [List.append_assoc, List.append_assoc]⟩
  | guardEnd _ ih =>
    obtain ⟨after, rfl⟩ := ih
    exact ⟨_, by rw [List.append_assoc, List.append_assoc]⟩

/-! ### Balanced guards -/

/-- Each guard that starts ends later, properly nested. -/
inductive Nested : List Fragment → Prop
  | nil : Nested []
  | text {r : List Fragment} (s : List Char) (hr : Nested r) : Nested (.text s :: r)
  | guard {inner r : List Fragment} (symbol : String) (hi : Nested inner) (hr : Nested r) :
      Nested (.guardStart symbol :: inner ++ .guardEnd :: r)

/-- Balanced guards one after the other are balanced. -/
theorem Nested.append {a b : List Fragment} (ha : Nested a) (hb : Nested b) : Nested (a ++ b) := by
  induction ha with
  | nil => exact hb
  | text s _ ih => exact .text s ih
  | @guard inner r symbol hi _ _ ih =>
    have h : Nested (.guardStart symbol :: inner ++ .guardEnd :: (r ++ b)) := .guard symbol hi ih
    simpa using h

namespace Part

variable (r : Registry)

mutual
/-- The guards of a part are balanced, since its two ends are written together. -/
theorem nested_wrap (p : Part) : Nested (wrap r p) := by
  cases p with
  | text s => exact .text s .nil
  | item i parts =>
    rw [wrap]
    cases i.guard? r with
    | none => exact nested_wrapAll parts
    | some symbol => exact .guard symbol (nested_wrapAll parts) .nil

theorem nested_wrapAll (parts : List Part) : Nested (wrapAll r parts) := by
  cases parts with
  | nil => exact .nil
  | cons p rest => exact (nested_wrap p).append (nested_wrapAll rest)
end

/-! ### What is not inserted -/

mutual
/-- Without its guards, a part is its texts. -/
theorem flatMap_kept_wrap (p : Part) : (wrap r p).flatMap kept = plain p := by
  cases p with
  | text s => simp [wrap, plain, kept]
  | item i parts =>
    rw [wrap, plain, ← flatMap_kept_wrapAll parts]
    cases i.guard? r with
    | none => rfl
    | some symbol => simp [kept]

/-- Wrapping keeps the texts. -/
theorem flatMap_kept_wrapAll (parts : List Part) :
    (wrapAll r parts).flatMap kept = plainAll parts := by
  cases parts with
  | nil => rfl
  | cons p rest =>
    rw [wrapAll, plainAll, List.flatMap_append, flatMap_kept_wrap p, flatMap_kept_wrapAll rest]
end

variable {r : Registry}

mutual
/-- Without guards for its items, a part has none. -/
theorem isGuard_wrap (hr : ∀ i : Item, i.guard? r = none) (p : Part) :
    ∀ f ∈ wrap r p, f.isGuard = false := by
  cases p with
  | text s => simp [wrap, isGuard]
  | item i parts =>
    rw [wrap, hr i]
    exact isGuard_wrapAll hr parts

/-- Nothing is inserted where no item has a guard. -/
theorem isGuard_wrapAll (hr : ∀ i : Item, i.guard? r = none) (parts : List Part) :
    ∀ f ∈ wrapAll r parts, f.isGuard = false := by
  cases parts with
  | nil => simp [wrapAll]
  | cons p rest =>
    intro f hf
    rcases List.mem_append.1 hf with hf | hf
    · exact isGuard_wrap hr p f hf
    · exact isGuard_wrapAll hr rest f hf
end

end Part

/-! ### The main result -/

/-- The output `out` for a registry is the output `bare` without its guards, with lines inserted
around those items of the run `parts` that have one. -/
structure Wraps (r : Registry) (parts : List Part) (bare out : List Char) : Prop where
  /-- Without guards, the output is the texts of the run. -/
  texts : Part.plainAll parts = bare
  /-- With them, each guarded item stands between two lines. -/
  written : Writes [] (Part.wrapAll r parts) out
  /-- The lines are all that is added. -/
  kept : (Part.wrapAll r parts).flatMap Fragment.kept = bare
  /-- The lines are balanced. -/
  nested : Nested (Part.wrapAll r parts)
  /-- Each line starts the output or a line, and ends with a line break.  At most a line break is
  added in front of it. -/
  lines : ∀ a f b, Part.wrapAll r parts = a ++ f :: b → f.isGuard = true →
    ∃ before after, Writes [] a before ∧
      out = before ++ gapAfter before ++ f.guardLine ++ after ∧
      (before ++ gapAfter before = [] ∨ EndsLine (before ++ gapAfter before)) ∧
      EndsLine f.guardLine

/-- Rendering a run with guards inserts lines, and nothing else. -/
theorem wraps_render (r : Registry) (parts : List Part) :
    Wraps r parts (Part.plainAll parts) (render true (Part.wrapAll r parts)) := by
  have hw := writes_render [] (Part.wrapAll r parts)
  refine ⟨rfl, hw, Part.flatMap_kept_wrapAll r parts, Part.nested_wrapAll r parts, ?_⟩
  intro a f b hl hf
  rw [hl] at hw
  obtain ⟨before, ha, hb⟩ := hw.of_append
  obtain ⟨after, hout⟩ := ((writes_guard_iff hf).1 hb).starts
  rw [hl]
  exact ⟨before, after, ha, hout, startsLine_gapAfter before, endsLine_guardLine hf⟩

/-- A placeholder with this name stands in a text or in a condition of the template. -/
def Mentions (name : List Char) (text : List Char) : Prop :=
  ∃ nodes, parse text = .ok nodes ∧ name ∈ Node.namesAll nodes

instance (name text : List Char) : Decidable (Mentions name text) :=
  match h : parse text with
  | .error _ => isFalse fun ⟨_, hp, _⟩ => by
    rw [h] at hp
    cases hp
  | .ok nodes => decidable_of_iff (name ∈ Node.namesAll nodes)
    ⟨fun hn => ⟨nodes, h, hn⟩, fun ⟨_, hp, hn⟩ => by
      rw [h] at hp
      cases hp
      exact hn⟩

/-- The output is made from the trace of the run. -/
theorem expand_of_parse {text : List Char} {nodes : List Node} (r : Registry)
    (h : parse text = .ok nodes) :
    expand r text =
      (Node.traceAll r .top nodes).map fun parts => render true (Part.wrapAll r parts) := by
  rw [expand, h]
  show (Node.expandAll r .top nodes).map _ = _
  rw [Node.expandAll_eq_map_trace]
  cases Node.traceAll r .top nodes <;> rfl

/-- The output without guards is the texts of the run with guards. -/
theorem expand_unguarded_of_parse {text : List Char} {nodes : List Node} (r : Registry)
    (hp : parse text = .ok nodes) (hn : guardName ∉ Node.namesAll nodes) :
    expand r.unguarded text = (Node.traceAll r .top nodes).map Part.plainAll := by
  rw [expand_of_parse r.unguarded hp, Node.traceAll_unguarded r .top nodes hn]
  cases Node.traceAll r .top nodes with
  | error e => rfl
  | ok parts =>
    refine congrArg Except.ok ?_
    have h := Part.isGuard_wrapAll (fun i => i.guard?_unguarded r) (Part.unguardedAll parts)
    show render true (Part.wrapAll r.unguarded (Part.unguardedAll parts)) = Part.plainAll parts
    rw [render_of_isGuard_eq_false h, Part.flatMap_kept_wrapAll, Part.plainAll_unguarded]

/-- For a template that does not mention `extGuard`, guards only insert lines around the items that
have one; they decide neither whether expansion fails nor how. -/
theorem expand_unguarded {r : Registry} {text : List Char} (h : ¬ Mentions guardName text) :
    (∀ e, expand r text = .error e ↔ expand r.unguarded text = .error e) ∧
      ((∃ out, expand r text = .ok out) ↔ ∃ bare, expand r.unguarded text = .ok bare) ∧
      ∀ out bare, expand r text = .ok out → expand r.unguarded text = .ok bare →
        ∃ nodes parts, parse text = .ok nodes ∧ Node.traceAll r .top nodes = .ok parts ∧
          Wraps r parts bare out := by
  rcases hp : parse text with e | nodes
  · -- a template that cannot be read fails before it meets the registry
    have he : ∀ r, expand r text = .error e := fun r => by rw [expand, hp]; rfl
    rw [he r, he r.unguarded]
    refine ⟨fun _ => Iff.rfl, ?_, ?_⟩
    · constructor <;> rintro ⟨_, ⟨⟩⟩
    · rintro _ _ ⟨⟩
  · -- both outputs come from one trace, so they stand or fall with it
    have hn : guardName ∉ Node.namesAll nodes := fun hn => h ⟨nodes, hp, hn⟩
    rw [expand_of_parse r hp, expand_unguarded_of_parse r hp hn]
    rcases ht : Node.traceAll r .top nodes with e | parts
    · refine ⟨fun _ => Iff.rfl, ?_, ?_⟩
      · constructor <;> rintro ⟨_, ⟨⟩⟩
      · rintro _ _ ⟨⟩
    · refine ⟨?_, ?_, ?_⟩
      · intro e
        constructor <;> rintro ⟨⟩
      · exact ⟨fun _ => ⟨_, rfl⟩, fun _ => ⟨_, rfl⟩⟩
      · rintro _ _ ⟨⟩ ⟨⟩
        exact ⟨nodes, parts, rfl, ht, wraps_render r parts⟩

/-- A registry with two handles, of which a guarded extension adds the second. -/
def guardedHandle : Registry :=
  { (default : Registry) with
    handles := .ofList [("A", ⟨"A", none, true⟩), ("B", ⟨"B", none, true⟩)]
    extensions := .ofList [("E", ⟨"E", 1, none, none, some "G", none, [], [], ∅, ∅⟩)]
    extensionTypes := .ofList [("B", "E")] }

/-- A loop inside a loop over the same items, both within a line. -/
theorem expand_unguarded_inline :
    ∃ nodes parts,
      parse "x@foreach handle {hdlName}@foreach handle.@end handle@end handle".toList =
          .ok nodes ∧
        Node.traceAll guardedHandle .top nodes = .ok parts ∧
        Wraps guardedHandle parts "x A.. B..".toList
          ("x A.\n#if defined(G)\n.\n#endif\n".toList ++
            "#if defined(G)\n B.\n#if defined(G)\n.\n#endif\n#endif\n".toList) :=
  (expand_unguarded (by decide +kernel)).2.2 _ _ (by decide +kernel) (by decide +kernel)

end ApiStencil.Template
