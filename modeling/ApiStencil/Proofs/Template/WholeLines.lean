/-
ApiStencil/Proofs/Template/WholeLines.lean

Templates that are structured line by line.  Where a template is a number of whole lines and
every directive stands alone on its own, the literals between the directives are whole lines
too (`wholeLines_of_cuts`): a directive takes what shares its lines, up to and with the break
at their end.  A value cannot break this, as what ends a literal is a line break and not a
placeholder (`WholeLines.substitute`).

So every fragment of an expansion is a number of whole lines, and writing such fragments
inserts nothing in front of a guard (`render_of_wholeLines`).

Main result: `expand_lineByLine`.
-/
import ApiStencil.Proofs.Placeholder.Exact
import ApiStencil.Proofs.Template.Guard
import ApiStencil.Proofs.Template.Reach
import ApiStencil.Proofs.Template.Span

namespace ApiStencil.Template

open Text Segment Node Fragment

/-- The text is a number of whole lines. -/
def WholeLines (s : List Char) : Prop :=
  s = [] ∨ EndsLine s

namespace WholeLines

variable {a b s t : List Char}

theorem nil : WholeLines [] := .inl rfl

theorem append (ha : WholeLines a) (hb : WholeLines b) : WholeLines (a ++ b) := by
  have ha := lastLine_eq_nil_iff.2 ha
  have hb := lastLine_eq_nil_iff.2 hb
  refine lastLine_eq_nil_iff.1 ?_
  rw [lastLine_append_of_eq_nil ha, hb]

/-- A part at the end of whole lines ends with a whole line, if it is not empty. -/
theorem of_append (h : WholeLines (a ++ b)) : WholeLines b := by
  by_cases hb : b = []
  · exact .inl hb
  · rcases h with h | h
    · exact .inl (List.append_eq_nil_iff.1 h).2
    · exact .inr (h.of_append hb)

theorem append_break (s : List Char) : WholeLines (s ++ ['\n']) :=
  .inr (by simp [EndsLine])

/-- A text up to and with its last line break. -/
theorem throughLastBreak (s : List Char) : WholeLines (throughLastBreak s) := by
  rw [Segment.throughLastBreak]
  rcases hd : s.reverse.dropWhile (fun c => decide (c ≠ '\n')) with - | ⟨c, r⟩
  · exact nil
  · have hc := List.head?_dropWhile_not (fun c => decide (c ≠ '\n')) s.reverse
    rw [hd] at hc
    obtain rfl : c = '\n' := by simpa using hc
    rw [List.reverse_cons]
    exact append_break _

theorem flatMap {α : Type} {f : α → List Char} {l : List α} (h : ∀ x ∈ l, WholeLines (f x)) :
    WholeLines (l.flatMap f) := by
  induction l with
  | nil => exact nil
  | cons x l ih =>
    obtain ⟨hx, hl⟩ := List.forall_mem_cons.1 h
    rw [List.flatMap_cons]
    exact hx.append (ih hl)

/-- Whole lines stay so when their placeholders are replaced, whatever the values are. -/
theorem substitute {values : Values} (h : WholeLines s)
    (ht : Placeholder.substitute values s = .ok t) : WholeLines t := by
  obtain ⟨pieces, ⟨rfl, hread⟩, rfl⟩ := Placeholder.substitute_eq_ok_iff.1 ht
  rcases List.eq_nil_or_concat pieces with rfl | ⟨front, p, rfl⟩
  · exact nil
  · rw [List.concat_eq_append] at h hread ⊢
    -- the last piece ends with the break, so it is that character
    rw [List.flatMap_append, List.flatMap_singleton] at h ⊢
    have hp : WholeLines p.source := h.of_append
    cases p with
    | char c =>
      have hc : c = '\n' := by simpa [WholeLines, EndsLine, Placeholder.Piece.source] using hp
      rw [hc]
      exact append_break _
    | openBrace => simp [WholeLines, EndsLine, Placeholder.Piece.source] at hp
    | closeBrace => simp [WholeLines, EndsLine, Placeholder.Piece.source] at hp
    | name n =>
      rcases hp with hp | hp
      · simp [Placeholder.Piece.source] at hp
      · simp [EndsLine, Placeholder.Piece.source, List.getLast?_cons, List.getLast?_append] at hp

end WholeLines

/-! ### The literals of a template -/

/-- Between directives that take their lines, literals are whole lines. -/
theorem wholeLines_of_cuts {front : List Char} {segments : List Segment} {marks : List Mark}
    (hc : Cuts front segments marks) (hw : WholeLines (front ++ Segment.sourceAll segments))
    (hm : ∀ m ∈ marks, m.directive? ≠ none ∧ m.site.alone = true) :
    ∀ p ∈ segments.map Segment.strip, p.isDirective = false → WholeLines p.text := by
  -- each directive takes its lines, so what is in front of it ends with a line break
  induction hc with
  | last front text =>
    intro p hp _
    obtain rfl := List.mem_singleton.1 hp
    have hall : WholeLines (front ++ text) := by
      simpa [Segment.sourceAll, Segment.source] using hw
    exact hall.of_append
  | malformed hn => exact absurd hn (hm _ List.mem_cons_self).1
  | @directive front before m d segments marks _ hf _ ih =>
    obtain ⟨⟨-, ha⟩, hrest⟩ := List.forall_mem_cons.1 hm
    have hbefore : WholeLines (front ++ before) := by
      rw [hf, Site.taken, if_pos ha]
      exact .throughLastBreak _
    have hall : WholeLines (m.site.taken.front ++ m.site.taken.own ++
        Segment.sourceAll segments) := by
      rw [← hf]
      simpa [Segment.sourceAll, Segment.source] using hw
    intro p hp hliteral
    rcases List.mem_cons.1 hp with rfl | hp
    · exact hbefore.of_append
    · rcases List.mem_cons.1 hp with rfl | hp
      · cases hliteral
      · exact ih hall hrest p hp hliteral

/-- In a template of whole lines, where every directive stands alone, the literals are whole
lines. -/
theorem wholeLines_literals {text : List Char} {nodes : List Node} (ht : WholeLines text)
    (ha : ∀ m ∈ Mark.all text, m.Alone (Mark.all text)) (hp : parse text = .ok nodes) :
    ∀ s ∈ literalsAll nodes, WholeLines s := by
  have hm : ∀ m ∈ Mark.all text, m.directive? ≠ none ∧ m.site.alone = true := fun m hm =>
    ⟨directive?_ne_none_of_parse hp m hm, (alone_iff hm).2 (ha m hm)⟩
  have hstrips := strips_assemble hp
  simp only [openStrips, List.reverse_nil, stripsAll, List.nil_append] at hstrips
  have hall : WholeLines ([] ++ Segment.sourceAll (ofTemplate text)) := by
    rw [ofTemplate, sourceAll_scan]
    exact ht
  have hsegments := wholeLines_of_cuts (cuts_ofTemplate text) hall hm
  intro s hs
  rw [literalsAll_eq_filter, hstrips] at hs
  obtain ⟨p, hp, rfl⟩ := List.mem_map.1 hs
  obtain ⟨hp, hliteral⟩ := List.mem_filter.1 hp
  exact hsegments p hp (by simpa using hliteral)

/-! ### Fragments -/

/-- The lines of a guard keep nothing. -/
theorem wholeLines_kept_guarded {guard : Option String} {l : List Fragment}
    (h : ∀ f ∈ l, WholeLines f.kept) : ∀ f ∈ guarded guard l, WholeLines f.kept := by
  cases guard with
  | none => exact h
  | some symbol =>
    intro f hf
    rcases List.mem_cons.1 hf with rfl | hf
    · exact .nil
    · rcases List.mem_append.1 hf with hf | hf
      · exact h f hf
      · obtain rfl := List.mem_singleton.1 hf
        exact .nil

namespace Node

mutual
/-- A node whose literals are whole lines expands to fragments of whole lines. -/
theorem wholeLines_kept_expand {r : Registry} {scope : Scope} {l : List Fragment} (n : Node)
    (hs : ∀ s ∈ literals n, WholeLines s) (h : Node.expand r scope n = .ok l) :
    ∀ f ∈ l, WholeLines f.kept := by
  match n with
  | .literal line s =>
    obtain ⟨t, ht, rfl⟩ := expand_literal_eq_ok_iff.1 h
    intro f hf
    obtain rfl := List.mem_singleton.1 hf
    exact (hs s List.mem_cons_self).substitute ht
  | .block (.cond condition) line opening body closing =>
    rw [expand_cond] at h
    obtain ⟨b, -, h⟩ := bind_eq_ok_iff.1 h
    cases b with
    | false =>
      obtain rfl := Except.ok.inj h
      exact nofun
    | true => exact wholeLines_kept_expandAll body hs h
  | .block (.loop subject filter) line opening body closing =>
    rw [expand_loop] at h
    obtain ⟨items, -, h⟩ := bind_eq_ok_iff.1 h
    obtain ⟨parts, hparts, h⟩ := bind_eq_ok_iff.1 h
    obtain rfl := Except.ok.inj h
    intro f hf
    obtain ⟨part, hpart, hf⟩ := List.mem_flatten.1 hf
    obtain ⟨i, -, hi⟩ := exists_of_mapM hparts hpart
    rw [turn] at hi
    obtain ⟨b, -, hi⟩ := bind_eq_ok_iff.1 hi
    cases b with
    | false =>
      obtain rfl := Except.ok.inj hi
      exact nomatch hf
    | true =>
      obtain ⟨inside, hinside, hi⟩ := bind_eq_ok_iff.1 hi
      obtain rfl := Except.ok.inj hi
      exact wholeLines_kept_guarded (wholeLines_kept_expandAll body hs hinside) f hf

/-- Literals of whole lines expand to fragments of whole lines. -/
theorem wholeLines_kept_expandAll {r : Registry} {scope : Scope} {l : List Fragment}
    (nodes : List Node) (hs : ∀ s ∈ literalsAll nodes, WholeLines s)
    (h : expandAll r scope nodes = .ok l) : ∀ f ∈ l, WholeLines f.kept := by
  match nodes with
  | [] =>
    obtain rfl := Except.ok.inj h
    exact nofun
  | n :: rest =>
    obtain ⟨x, y, hx, hy, rfl⟩ := expandAll_cons_eq_ok_iff.1 h
    intro f hf
    rcases List.mem_append.1 hf with hf | hf
    · exact wholeLines_kept_expand n (fun s h => hs s (List.mem_append_left _ h)) hx f hf
    · exact wholeLines_kept_expandAll rest (fun s h => hs s (List.mem_append_right _ h)) hy f hf
end

end Node

/-- What a fragment writes where a line starts. -/
def Fragment.ownLines (f : Fragment) : List Char :=
  f.kept ++ f.guardLine

/-- A guard is a whole line. -/
theorem wholeLines_ownLines {f : Fragment} (h : WholeLines f.kept) : WholeLines f.ownLines := by
  refine h.append ?_
  cases hf : f.isGuard with
  | true => exact .inr (endsLine_guardLine hf)
  | false =>
    cases f with
    | text s => exact .nil
    | _ => cases hf

/-- Fragments of whole lines are written one after the other, with nothing between them. -/
theorem render_of_wholeLines {l : List Fragment} (h : ∀ f ∈ l, WholeLines f.kept) :
    render true l = l.flatMap Fragment.ownLines := by
  induction l with
  | nil => rfl
  | cons f l ih =>
    obtain ⟨hf, hl⟩ := List.forall_mem_cons.1 h
    have ih := ih hl
    cases f with
    | text s =>
      have hs : WholeLines s := hf
      rw [render, freshAfter_true_iff.2 hs, ih, List.flatMap_cons]
      show s ++ _ = s ++ [] ++ _
      rw [List.append_nil]
    | guardStart symbol => simp [render, ih, ownLines, kept]
    | guardEnd => simp [render, ih, ownLines, kept]

/-! ### The main result -/

/-- The run of a template that writes the fragments `l`, and with them `out`, goes line by line. -/
structure LineByLine (r : Registry) (text : List Char) (nodes : List Node) (l : List Fragment)
    (out : List Char) : Prop where
  /-- Nothing is inserted between what the fragments write. -/
  written : out = l.flatMap Fragment.ownLines
  ends : WholeLines out
  /-- Whatever node the run reaches, it has written whole lines there, and goes on from them with
  what the node expands to. -/
  starts : ∀ q n, Reaches r .start nodes q n → ∃ own after, Node.expand r q.scope n = .ok own ∧
    l = q.written ++ own ++ after ∧ WholeLines (q.written.flatMap Fragment.ownLines)
  /-- A guard is a line of the output. -/
  guards : ∀ a f b, l = a ++ f :: b → f.isGuard = true →
    out = a.flatMap Fragment.ownLines ++ f.guardLine ++ b.flatMap Fragment.ownLines ∧
      WholeLines (a.flatMap Fragment.ownLines) ∧ EndsLine f.guardLine
  /-- The output without these lines is that of the registry without guards. -/
  unguarded : ¬ Mentions guardName text → expand r.unguarded text = .ok (l.flatMap Fragment.kept)

/-- A template of whole lines, in which every directive stands alone, expands line by line. -/
theorem expand_lineByLine {r : Registry} {text out : List Char} (ht : WholeLines text)
    (ha : ∀ m ∈ Mark.all text, m.Alone (Mark.all text)) (h : expand r text = .ok out) :
    ∃ nodes l, parse text = .ok nodes ∧ expandAll r .top nodes = .ok l ∧
      LineByLine r text nodes l out := by
  obtain ⟨nodes, l, hp, hl, rfl⟩ := expand_eq_ok_iff.1 h
  have hkept := wholeLines_kept_expandAll nodes (wholeLines_literals ht ha hp) hl
  have hlines : ∀ f ∈ l, WholeLines f.ownLines := fun f hf => wholeLines_ownLines (hkept f hf)
  refine ⟨nodes, l, hp, hl, render_of_wholeLines hkept, ?_, ?_, ?_, ?_⟩
  · rw [render_of_wholeLines hkept]
    exact .flatMap hlines
  · intro q n hq
    rw [← Point.scope_start] at hl
    obtain ⟨own, after, hown, hl⟩ := hq.of_ok hl
    rw [show Point.start.written ++ l = l from rfl] at hl
    refine ⟨own, after, hown, hl, .flatMap fun f hf => hlines f ?_⟩
    rw [hl, List.append_assoc]
    exact List.mem_append_left _ hf
  · rintro a f b rfl hf
    have hguard : f.ownLines = f.guardLine := by
      cases f with
      | text s => cases hf
      | _ => rfl
    rw [render_of_wholeLines hkept]
    refine ⟨by simp [hguard], .flatMap fun f hf => hlines f ?_, endsLine_guardLine hf⟩
    exact List.mem_append_left _ hf
  · intro hn
    have hnames : guardName ∉ namesAll nodes := fun hn' => hn ⟨nodes, hp, hn'⟩
    rw [expandAll_eq_map_trace] at hl
    obtain ⟨parts, hparts, rfl⟩ := map_eq_ok_iff.1 hl
    rw [expand_unguarded_of_parse r hp hnames, hparts, Part.flatMap_kept_wrapAll]
    rfl

/-- A condition in a loop, each on lines of its own, with an item that has a guard. -/
def handlesByLine : List Char :=
  "@foreach handle\n\t@if('{hdlName}' != 'A')\n{hdlName};\n\t@end if\n@end handle\n".toList

theorem expand_lineByLine_guarded :
    ∃ nodes l, parse handlesByLine = .ok nodes ∧
      expandAll guardedHandle .top nodes = .ok l ∧
      LineByLine guardedHandle handlesByLine nodes l
        "#if defined(G)\nB;\n#endif\n".toList := by
  have halone : ∀ m ∈ Mark.all handlesByLine, m.site.alone = true := by decide +kernel
  have hends : EndsLine handlesByLine := by decide +kernel
  have hout : expand guardedHandle handlesByLine =
      .ok "#if defined(G)\nB;\n#endif\n".toList := by decide +kernel
  exact expand_lineByLine (.inr hends) (fun m hm => (alone_iff hm).1 (halone m hm)) hout

end ApiStencil.Template
