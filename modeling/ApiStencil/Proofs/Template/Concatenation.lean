/-
ApiStencil/Proofs/Template/Concatenation.lean

Two templates one after the other expand to what they expand to alone
(`expand_append`).  Three things have to be seen for it.

The segments of the whole are those of the parts, with the last text of the first
and the first text of the second in one (`joins_scan`); here the first template has
to end its line, and no filter of it may be left open.  The first template closes
all its blocks, so the reader goes on as if it began (`assemble_joins`).  And the
text where the two meet stands outside all loops, so it is replaced part by part,
and since the first output ends its line, the guards of the second look at the same
line ends as before.
-/
import ApiStencil.Proofs.Except
import ApiStencil.Proofs.Placeholder.Substitute
import ApiStencil.Proofs.Template.Cut
import ApiStencil.Proofs.Template.EndsLine
import ApiStencil.Proofs.Template.Nesting
import ApiStencil.Proofs.Template.Render
import ApiStencil.Proofs.Template.Shift

namespace ApiStencil.Template

open Text Segment Node Fragment

/-! ### Segments -/

/-- `Joins a b c`: the segments `c` are `a` and then `b`, with the last text of `a` and the first
one of `b` in one. -/
inductive Joins : List Segment → List Segment → List Segment → Prop
  | mk (init more : List Segment) (line line' : Nat) (s t : List Char) :
      Joins (init ++ [.literal line s]) (.literal line' t :: more)
        (init ++ .literal line (s ++ t) :: more)

theorem Joins.cons {a b c : List Segment} (h : Joins a b c) (x : Segment) :
    Joins (x :: a) b (x :: c) := by
  cases h with
  | mk init more line line' s t => exact .mk (x :: init) more line line' s t

/-- The directive of a mark can be read, and reads in the same way if the text goes on. -/
structure Mark.Complete (m : Mark) : Prop where
  readable : m.directive? ≠ none
  closed : ∀ subject, m.directive? = some (.foreach subject none) → ¬ UnclosedFilter m.site.rest

/-- What stands in front of the rest does not change if the rest goes on. -/
theorem inFrontOf_append_append (a b s t : List Char) :
    inFrontOf (b ++ t) (a ++ (s ++ t)) = inFrontOf b (a ++ s) := by
  have hlength : (a ++ s ++ t).length - (b ++ t).length = (a ++ s).length - b.length := by
    simp only [List.length_append]
    omega
  rw [← List.append_assoc, inFrontOf, inFrontOf, hlength,
    List.take_append_of_le_length (Nat.sub_le _ _)]

/-- What follows the line of a directive does not matter to it. -/
theorem standsAlone_append {fresh : Bool} {before rest : List Char} (h : EndsLine rest)
    (t : List Char) : standsAlone fresh before (rest ++ t) = standsAlone fresh before rest := by
  rw [standsAlone, standsAlone, h.firstLine_append]

section Scan

variable {line : Nat} {fresh : Bool} {s : List Char} (t : List Char)

/-- Behind a text without directives that ends its line, a text is cut as it is alone. -/
theorem joins_scan_of_find_eq_none (hs : s = [] → fresh = true) (he : s = [] ∨ EndsLine s)
    (hf : Keyword.find s = none) :
    Joins (scan line fresh s) (scan (line + lineBreaks s) true t) (scan line fresh (s ++ t)) := by
  have hft := Keyword.find_append_of_eq_none (t := t) he hf
  have hl : lastLine s = [] := lastLine_eq_nil_iff.2 he
  rw [scan_of_find_eq_none hf]
  cases hb : Keyword.find t with
  | none =>
    rw [hb] at hft
    rw [scan_of_find_eq_none hb, scan_of_find_eq_none hft]
    exact .mk [] [] line _ s t
  | some p =>
    obtain ⟨before, k, after⟩ := p
    rw [hb] at hft
    cases hr : Directive.read k after with
    | none =>
      rw [scan_of_read_eq_none hb hr, scan_of_read_eq_none hft hr, lineBreaks_append, Nat.add_assoc]
      exact .mk [] _ line _ s before
    | some q =>
      obtain ⟨d, rest⟩ := q
      -- `s` is a number of whole lines, so the line of the directive is that of `t`
      have hfresh : (fresh || (s ++ before).contains '\n') = true := by
        rcases he with rfl | he
        · simp [hs rfl]
        · simp [he.mem]
      have halone : standsAlone fresh (s ++ before) rest = standsAlone true before rest := by
        rw [standsAlone, standsAlone, hfresh, lastLine_append_of_eq_nil hl, Bool.true_or]
      rw [scan_of_read hb hr, scan_of_read hft hr, halone, lastLine_append_of_eq_nil hl,
        throughLastBreak_append (lastLine_append_of_eq_nil hl)]
      split
      · simp only [lineBreaks_append, Nat.add_assoc]
        exact .mk [] _ line _ s (throughLastBreak before)
      · simp only [lineBreaks_append, Nat.add_assoc]
        exact .mk [] _ line _ s before

end Scan

/-- The first directive of a text whose directives are complete reads in the same way in front of
another text, and those after it are complete. -/
theorem read_append_of_complete {front s before after rest : List Char} {k : Keyword}
    {d : Directive} (t : List Char) (he : EndsLine s)
    (hf : Keyword.find s = some (before, k, after)) (hr : Directive.read k after = some (d, rest))
    (hm : ∀ m ∈ Mark.allFrom front s, m.Complete) :
    EndsLine rest ∧ Keyword.find (s ++ t) = some (before, k, after ++ t) ∧
      Directive.read k (after ++ t) = some (d, rest ++ t) ∧
      ∀ m ∈ Mark.allFrom (front ++ before ++ inFrontOf rest ('@' :: k.word ++ after)) rest,
        m.Complete := by
  have hend := endsBefore_read hr
  rw [Mark.allFrom_of_find_eq_some hf, hr] at hm
  -- what follows the keyword is not empty, since a directive was read from it
  have hafter : EndsLine after := by
    rw [Keyword.find_eq_some hf] at he
    apply he.of_append
    rintro rfl
    obtain ⟨a, c, -, hn⟩ := hend
    simp at hn
  refine ⟨hafter.of_endsBefore hend, Keyword.find_append_of_eq_some he hf, ?_, ?_⟩
  · apply Directive.read_append hafter t hr
    intro subject hd
    exact (hm _ List.mem_cons_self).closed subject (congrArg some hd)
  · exact fun m h => hm m (List.mem_cons_of_mem _ h)

/-- Behind a text that ends its line and whose directives are complete, a text is cut as it is
alone. -/
theorem joins_scan (line : Nat) (fresh : Bool) (s : List Char) :
    ∀ front t, (s = [] → fresh = true) → (s = [] ∨ EndsLine s) →
      (∀ m ∈ Mark.allFrom front s, m.Complete) →
      Joins (scan line fresh s) (scan (line + lineBreaks s) true t) (scan line fresh (s ++ t)) := by
  fun_induction scan line fresh s with
  | case1 line fresh s hf =>
    intro front t hs he _
    have h : Joins (scan line fresh s) (scan (line + lineBreaks s) true t)
        (scan line fresh (s ++ t)) := joins_scan_of_find_eq_none t hs he hf
    rwa [scan_of_find_eq_none hf] at h
  | case2 line fresh s before k after hf here fromHere hr =>
    intro front t _ _ hm
    rw [Mark.allFrom_of_find_eq_some hf, hr] at hm
    exact absurd rfl (hm _ List.mem_cons_self).readable
  | case3 line fresh s before k after hf here fromHere d rest hr halone next source ih =>
    intro front t _ he hm
    have he := he.resolve_left (find_ne_nil hf)
    obtain ⟨hrest, hft, hrt, hm⟩ := read_append_of_complete t he hf hr hm
    rw [allFrom_afterFirstBreak _ (firstLine_of_standsAlone halone)] at hm
    have hwhole : throughLastBreak before ++ source ++ next = s := by
      have h := sourceAll_scan line fresh s
      rw [scan_of_read hf hr, if_pos halone] at h
      change throughLastBreak before ++ (source ++ sourceAll (scan _ true next)) = s at h
      rwa [sourceAll_scan, ← List.append_assoc] at h
    have hbreaks : lineBreaks s =
        lineBreaks (throughLastBreak before ++ source) + lineBreaks next := by
      rw [← lineBreaks_append, hwhole]
    -- the lines that the directive takes may be the last ones of the text
    have hnext : next = [] ∨ EndsLine next := by
      obtain ⟨a, ha⟩ := afterFirstBreak_suffix rest
      by_cases hn : next = []
      · exact .inl hn
      · exact .inr ((ha ▸ hrest).of_append hn)
    rw [← standsAlone_append hrest t] at halone
    rw [scan_of_read hft hrt, if_pos halone, hrest.afterFirstBreak_append, hbreaks,
      ← Nat.add_assoc]
    dsimp only
    rw [inFrontOf_append_append]
    exact ((ih _ t (fun _ => rfl) hnext hm).cons _).cons _
  | case4 line fresh s before k after hf here fromHere d rest hr halone source ih =>
    intro front t _ he hm
    have he := he.resolve_left (find_ne_nil hf)
    -- no directive ends with a break, so there is text after it, and that ends the line
    obtain ⟨hrest, hft, hrt, hm⟩ := read_append_of_complete t he hf hr hm
    have hwhole : before ++ source ++ rest = s := by
      rw [List.append_assoc, inFrontOf_read hr, Keyword.find_eq_some hf]
      simp
    have hbreaks : lineBreaks s = lineBreaks (before ++ source) + lineBreaks rest := by
      rw [← lineBreaks_append, hwhole]
    rw [← standsAlone_append hrest t] at halone
    rw [scan_of_read hft hrt, if_neg halone, hbreaks, ← Nat.add_assoc]
    dsimp only
    rw [inFrontOf_append_append]
    exact ((ih _ t (fun hn => absurd hn hrest.ne_nil) (.inr hrest) hm).cons _).cons _

/-! ### Trees -/

/-- `Onto base frames done frames' done'`: the second stack of the reader is the first one with the
nodes `base` in front of all others.  Nodes stand in the stack with the last one first. -/
inductive Onto (base : List Node) : List Frame → List Node → List Frame → List Node → Prop
  | root (done : List Node) : Onto base [] done [] (done ++ base)
  | frame {frames frames' : List Frame} {before before' : List Node}
      (h : Onto base frames before frames' before') (head : Head) (line : Nat)
      (opening : List Char) (done : List Node) :
      Onto base (⟨head, line, opening, before⟩ :: frames) done
        (⟨head, line, opening, before'⟩ :: frames') done

/-- A further node goes on top of both stacks. -/
theorem Onto.push {base done done' : List Node} {frames frames' : List Frame}
    (h : Onto base frames done frames' done') (x : Node) :
    Onto base frames (x :: done) frames' (x :: done') := by
  cases h with
  | root done => exact .root (x :: done)
  | frame h head line opening done => exact .frame h head line opening (x :: done)

/-- Nodes in front of all others stay there, and nothing else depends on them. -/
theorem assemble_onto (base : List Node) (frames : List Frame) (done : List Node)
    (l : List Segment) :
    ∀ frames' done', Onto base frames done frames' done' →
      assemble frames' done' l = (assemble frames done l).map (base.reverse ++ ·) := by
  -- opening a block pushes both stacks, closing one pops both; the nodes `base` stay at the bottom
  fun_induction assemble frames done l with
  | case1 done =>
    intro _ _ h
    cases h
    simp [assemble, Except.map]
  | case2 =>
    intro _ _ h
    cases h
    rfl
  | case3 frames done line text r ih =>
    intro _ _ h
    exact ih _ _ (h.push _)
  | case4 => intro _ _ _; rfl
  | case5 frames done line source r word filter hs =>
    intro _ _ _
    simp only [assemble, hs]
    rfl
  | case6 frames done line source r word filter subject hs ih =>
    intro _ _ h
    simp only [assemble, hs]
    exact ih _ _ (.frame h ..)
  | case7 frames done line source r condition ih =>
    intro _ _ h
    exact ih _ _ (.frame h ..)
  | case8 =>
    intro _ _ h
    cases h
    rfl
  | case9 done line source r f frames ih =>
    intro _ _ h
    cases h with
    | frame h head here opening done =>
      simp only [assemble, ↓reduceIte]
      exact ih _ _ (h.push _)
  | case10 done line source r word f frames hw =>
    intro _ _ h
    cases h with
    | frame h head here opening done =>
      simp only [assemble, if_neg hw]
      rfl

/-- A text that closes all its blocks leaves the reader outside all of them. -/
theorem assemble_append_of_ok {init : List Segment} {line : Nat} {text : List Char}
    {nodes : List Node} :
    ∀ frames done, assemble frames done (init ++ [.literal line text]) = .ok nodes →
      ∃ before, nodes = before ++ [.literal line text] ∧
        ∀ l, assemble frames done (init ++ l) = assemble [] before.reverse l := by
  induction init with
  | nil =>
    intro frames done h
    cases frames with
    | cons f frames => cases h
    | nil =>
      -- the text was read, so no block is open where it ends
      obtain rfl := Except.ok.inj h
      exact ⟨done.reverse, by simp, by simp⟩
  | cons x init ih =>
    intro frames done h
    rw [List.cons_append] at h
    simp only [List.cons_append]
    cases x with
    | literal line' text' => exact ih _ _ h
    | malformed => cases h
    | directive here d source =>
      rcases assemble_directive_of_ok h with ⟨head, line', hb, h⟩ | ⟨f, frames, rfl, hb, h⟩
      · simp only [assemble_opens hb]
        exact ih _ _ h
      · simp only [(assemble_closes hb).2, if_pos]
        exact ih _ _ h

/-- The tree of joined segments, where both parts have one. -/
theorem assemble_joins {a b c : List Segment} {m n : List Node} (hj : Joins a b c)
    (ha : assemble [] [] a = .ok m) (hb : assemble [] [] b = .ok n) :
    ∃ before after line line' s t, m = before ++ [.literal line s] ∧
      n = .literal line' t :: after ∧
      assemble [] [] c = .ok (before ++ .literal line (s ++ t) :: after) := by
  cases hj with
  | mk init more line line' s t =>
    obtain ⟨before, rfl, hc⟩ := assemble_append_of_ok _ _ ha
    have hmore := assemble_onto [.literal line' t] [] [] more _ _ (.root [])
    rw [assemble, show [Node.literal line' t] = [] ++ [.literal line' t] from rfl, hmore] at hb
    -- the second template has a tree, so the rest of its segments has one
    rcases hm : assemble [] [] more with e | after
    · rw [hm] at hb
      cases hb
    · rw [hm] at hb
      obtain rfl := Except.ok.inj hb
      refine ⟨before, after, line, line', s, t, rfl, rfl, ?_⟩
      have h := assemble_onto (.literal line (s ++ t) :: before.reverse) [] [] more _ _ (.root [])
      rw [hc, assemble]
      rw [List.nil_append, hm] at h
      rw [h]
      simp [Except.map]

/-- The tree of a template behind another one stands behind the tree of that one, further down, and
the texts where they meet are one. -/
theorem parse_append {s t : List Char} {m n : List Node} (hs : s = [] ∨ EndsLine s)
    (hm : ∀ m ∈ Mark.all s, m.Complete) (ha : parse s = .ok m) (hb : parse t = .ok n) :
    ∃ before after line line' u v, m = before ++ [.literal line u] ∧
      n = .literal line' v :: after ∧
      parse (s ++ t) =
        .ok (before ++ .literal line (u ++ v) :: shiftAll (lineBreaks s) after) := by
  have hj := joins_scan 1 true s [] t (fun _ => rfl) hs hm
  have hshift := assemble_shift (lineBreaks s) [] [] (ofTemplate t)
  rw [ofTemplate, ← scan_add, Nat.add_comm] at hshift
  rw [show assemble [] [] (scan 1 true t) = .ok n from hb] at hshift
  obtain ⟨before, after, line, line', u, v, rfl, hn, hc⟩ := assemble_joins hj ha hshift
  cases n with
  | nil => cases hn
  | cons x n =>
    cases x with
    | block => cases hn
    | literal line' v' =>
      obtain ⟨hx, rfl⟩ := List.cons.inj hn
      obtain ⟨-, rfl⟩ := Node.literal.inj hx
      exact ⟨before, n, line, line', u, v', rfl, rfl, hc⟩

/-! ### Expansion -/

/-- Expanding succeeds for nodes if it does for the first and for the others. -/
theorem expandAll_cons_eq_ok_iff {r : Registry} {scope : Scope} {n : Node} {nodes : List Node}
    {fragments : List Fragment} :
    expandAll r scope (n :: nodes) = .ok fragments ↔
      ∃ x y, Node.expand r scope n = .ok x ∧ expandAll r scope nodes = .ok y ∧
        fragments = x ++ y := by
  simp only [expandAll, bind_eq_ok_iff]
  constructor
  · rintro ⟨x, hx, y, hy, ⟨⟩⟩
    exact ⟨x, y, hx, hy, rfl⟩
  · rintro ⟨x, y, hx, hy, rfl⟩
    exact ⟨x, hx, y, hy, rfl⟩

/-- And for two lists of nodes if it does for both. -/
theorem expandAll_append_eq_ok_iff {r : Registry} {scope : Scope} {a b : List Node}
    {fragments : List Fragment} :
    expandAll r scope (a ++ b) = .ok fragments ↔
      ∃ x y, expandAll r scope a = .ok x ∧ expandAll r scope b = .ok y ∧ fragments = x ++ y := by
  induction a generalizing fragments with
  | nil =>
    constructor
    · exact fun h => ⟨[], fragments, rfl, h, rfl⟩
    · rintro ⟨_, y, ⟨⟩, hy, rfl⟩
      exact hy
  | cons n a ih =>
    rw [List.cons_append, expandAll_cons_eq_ok_iff]
    constructor
    · rintro ⟨x, yz, hx, hyz, rfl⟩
      obtain ⟨y, z, hy, hz, rfl⟩ := ih.1 hyz
      exact ⟨x ++ y, z, expandAll_cons_eq_ok_iff.2 ⟨x, y, hx, hy, rfl⟩, hz, by simp⟩
    · rintro ⟨xy, z, hxy, hz, rfl⟩
      obtain ⟨x, y, hx, hy, rfl⟩ := expandAll_cons_eq_ok_iff.1 hxy
      exact ⟨x, y ++ z, hx, ih.2 ⟨y, z, hy, hz, rfl⟩, by simp⟩

/-- A literal is expanded by replacing its placeholders. -/
theorem expand_literal_eq_ok_iff {r : Registry} {scope : Scope} {line : Nat} {s : List Char}
    {fragments : List Fragment} :
    Node.expand r scope (.literal line s) = .ok fragments ↔
      ∃ t, Placeholder.substitute scope.values s = .ok t ∧ [.text t] = fragments := by
  rw [Node.expand, Scope.format, map_eq_ok_iff]
  simp only [mapError_eq_ok_iff]

/-- The output is that of the tree of a template that can be read. -/
theorem expand_eq_ok_iff {r : Registry} {text out : List Char} :
    expand r text = .ok out ↔
      ∃ nodes fragments, parse text = .ok nodes ∧ expandAll r .top nodes = .ok fragments ∧
        Fragment.render true fragments = out := by
  simp only [expand, bind_eq_ok_iff, expandNodes, map_eq_ok_iff, exists_and_left]

/-- A template in front of another one: where it ends its line, and its output does, and none of
its filters is left open, the two expand independently. -/
theorem expand_append {r : Registry} {s t x y : List Char} (hs : s = [] ∨ EndsLine s)
    (hclosed : ∀ m ∈ Mark.all s, ∀ subject, m.directive? = some (.foreach subject none) →
      ¬ UnclosedFilter m.site.rest)
    (hx : expand r s = .ok x) (hl : x = [] ∨ EndsLine x) (hy : expand r t = .ok y) :
    expand r (s ++ t) = .ok (x ++ y) := by
  obtain ⟨m, f, hpm, hf, rfl⟩ := expand_eq_ok_iff.1 hx
  obtain ⟨n, g, hpn, hg, rfl⟩ := expand_eq_ok_iff.1 hy
  have hmarks : ∀ m ∈ Mark.all s, m.Complete := fun m hm =>
    ⟨directive?_ne_none_of_parse hpm m hm, hclosed m hm⟩
  obtain ⟨before, after, line, line', u, v, rfl, rfl, hp⟩ := parse_append hs hmarks hpm hpn
  obtain ⟨f, last, hbefore, hlast, rfl⟩ := expandAll_append_eq_ok_iff.1 hf
  obtain ⟨_, _, hlast', hnil, rfl⟩ := expandAll_cons_eq_ok_iff.1 hlast
  obtain ⟨u', hu, rfl⟩ := expand_literal_eq_ok_iff.1 hlast'
  obtain ⟨_, g, hfirst, hafter, rfl⟩ := expandAll_cons_eq_ok_iff.1 hg
  obtain ⟨v', hv, rfl⟩ := expand_literal_eq_ok_iff.1 hfirst
  cases hnil
  -- the tree of `t` stands lower now, which only its errors would show
  have hshift : expandAll r .top (shiftAll (lineBreaks s) after) = .ok g := by
    rw [expandAll_shift, hafter]
    rfl
  refine expand_eq_ok_iff.2 ⟨_, f ++ .text (u' ++ v') :: g, hp, ?_, ?_⟩
  · refine expandAll_append_eq_ok_iff.2 ⟨f, _, hbefore, ?_, rfl⟩
    exact expandAll_cons_eq_ok_iff.2
      ⟨_, g, expand_literal_eq_ok_iff.2 ⟨_, Placeholder.substitute_append hu hv, rfl⟩, hshift, rfl⟩
  · -- the second output starts a line, as it does alone
    have hfresh : freshAfter true (render true (f ++ [.text u'])) = true := by
      rcases hl with hl | hl
      · rw [show render true (f ++ [.text u']) = [] from hl, freshAfter_nil]
      · obtain ⟨a, ha⟩ := hl.eq_append
        rw [show render true (f ++ [.text u']) = _ from ha, freshAfter_append_break]
    calc render true (f ++ .text (u' ++ v') :: g)
        = render true (f ++ .text u' :: .text v' :: g) := by
          rw [render_append, render_append true f, render_text_append]
      _ = render true (f ++ [.text u'] ++ .text v' :: g) := by simp
      _ = render true (f ++ [.text u']) ++ render true (.text v' :: g) := by
          rw [render_append _ (f ++ _), hfresh]

/-- A registry with two handles. -/
def twoHandles : Registry :=
  { (default : Registry) with
    handles := .ofList [("A", ⟨"A", none, true⟩), ("B", ⟨"B", some "A", true⟩)] }

/-- A loop with a filter, and a text that goes on with directives. -/
theorem expand_append_filtered_loop :
    expand twoHandles
        ("@foreach handle where('{hdlParent}' == 'A')\n{hdlName};\n@end handle\n".toList ++
          "(x) @if('a' == 'a')y@end if".toList) =
      .ok ("B;\n".toList ++ "(x) y".toList) := by
  have hclosed : ∀ m ∈ Mark.all
      "@foreach handle where('{hdlParent}' == 'A')\n{hdlName};\n@end handle\n".toList,
      ¬ UnclosedFilter m.site.rest := by
    decide +kernel
  refine expand_append (.inr (by decide +kernel)) (fun m hm _ _ => hclosed m hm)
    (by decide +kernel) (.inr (by decide +kernel)) (by decide +kernel)

end ApiStencil.Template
