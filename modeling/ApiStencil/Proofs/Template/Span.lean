/-
ApiStencil/Proofs/Template/Span.lean

The byte ranges of a template that can be read.

Expansion goes through the tree with a cursor: it formats what stands between the
cursor and the next block, goes into the block, and goes on where the block stops.
`Outline.stretches` lists the ranges met on this way, of literals and of
directives.  Main result (`parse_spans`): the blocks are nested and disjoint and
start and stop between characters; the stretches follow each other without gap or
overlap from the first byte to the last; the literals among them are the texts
that expansion formats; and the directives among them take what their marks say.

Ranges are sums of text sizes, so nearly all of it is shown of the texts alone:
`place` turns a list of texts into ranges, and `strips_assemble` says that the tree
holds the same texts as the segments.  Only the cursor needs to know that literals
and blocks take turns (`Alternates`).
-/
import ApiStencil.Proofs.Template.Alone
import ApiStencil.Proofs.Template.Nesting

namespace ApiStencil.Template

open Text Node

/-! ### Offsets and ranges of a text -/

/-- The byte `offset` is the first of a character, or the end of the text. -/
def IsBoundary (text : List Char) (offset : Nat) : Prop :=
  ∃ a b, text = a ++ b ∧ byteSize a = offset

/-- What a text holds in a range of bytes. -/
def Span.slice (text : List Char) (s : Span) : List Char :=
  (takeBytes s.stop text).drop (takeBytes s.start text).length

/-- The ranges lead from the byte `start` to the byte `stop`, each from where the last one ends. -/
inductive Tiles : Nat → List Span → Nat → Prop
  | nil (n : Nat) : Tiles n [] n
  | cons {s : Span} {r : List Span} {stop : Nat} (h : s.start ≤ s.stop)
      (hr : Tiles s.stop r stop) : Tiles s.start (s :: r) stop

/-- The bytes of a part of a text hold this part. -/
theorem slice_append (a b c : List Char) :
    Span.slice (a ++ b ++ c) ⟨byteSize a, byteSize a + byteSize b⟩ = b := by
  have h1 := takeBytes_byteSize_append a (b ++ c)
  have h2 := takeBytes_byteSize_append (a ++ b) c
  rw [← List.append_assoc] at h1
  rw [byteSize_append] at h2
  simp only [Span.slice, h1, h2, List.drop_left]

/-! ### Texts and where they stand -/

/-- A text that is cut from a template: a directive's or a literal. -/
structure Strip where
  isDirective : Bool
  text : List Char

/-- A range of a template that holds a directive or a literal. -/
structure Stretch where
  isDirective : Bool
  span : Span

/-- Where the texts stand if the first one starts at the byte `start`. -/
def place (start : Nat) : List Strip → List Stretch
  | [] => []
  | p :: r =>
    ⟨p.isDirective, ⟨start, start + byteSize p.text⟩⟩ :: place (start + byteSize p.text) r

/-- The texts one after the other. -/
def Strip.join (l : List Strip) : List Char :=
  l.flatMap Strip.text

@[simp] theorem Strip.join_nil : Strip.join [] = [] := rfl

@[simp] theorem Strip.join_cons (p : Strip) (r : List Strip) :
    Strip.join (p :: r) = p.text ++ Strip.join r := rfl

@[simp] theorem Strip.join_append (a b : List Strip) :
    Strip.join (a ++ b) = Strip.join a ++ Strip.join b :=
  List.flatMap_append

theorem place_append (start : Nat) (a b : List Strip) :
    place start (a ++ b) = place start a ++ place (start + byteSize (Strip.join a)) b := by
  induction a generalizing start with
  | nil => simp [place]
  | cons p r ih => simp [place, ih, Nat.add_assoc]

/-- The ranges of texts lead from the first byte to the last. -/
theorem tiles_place (start : Nat) (l : List Strip) :
    Tiles start ((place start l).map Stretch.span) (start + byteSize (Strip.join l)) := by
  induction l generalizing start with
  | nil => exact .nil start
  | cons p r ih =>
    have h := ih (start + byteSize p.text)
    rw [Nat.add_assoc, ← byteSize_append] at h
    exact .cons (s := ⟨start, start + byteSize p.text⟩) (Nat.le_add_right _ _) h

/-- The ranges hold the texts. -/
theorem slice_place (front rest : List Char) (l : List Strip) :
    (place (byteSize front) l).map (fun s =>
        Strip.mk s.isDirective (s.span.slice (front ++ Strip.join l ++ rest))) = l := by
  induction l generalizing front with
  | nil => rfl
  | cons p r ih =>
    have h := ih (front ++ p.text)
    rw [byteSize_append] at h
    have hs := slice_append front p.text (Strip.join r ++ rest)
    have ht : front ++ Strip.join (p :: r) ++ rest =
        front ++ p.text ++ (Strip.join r ++ rest) := by simp
    rw [place, List.map_cons, ht, hs]
    rw [List.append_assoc _ (Strip.join r)] at h
    rw [h]

/-- They start and stop between characters. -/
theorem isBoundary_place (front rest : List Char) (l : List Strip) :
    ∀ s ∈ place (byteSize front) l, IsBoundary (front ++ Strip.join l ++ rest) s.span.start ∧
      IsBoundary (front ++ Strip.join l ++ rest) s.span.stop := by
  -- by induction on the texts; those already placed count as text in front
  induction l generalizing front with
  | nil => simp [place]
  | cons p r ih =>
    intro s hs
    have ht : front ++ Strip.join (p :: r) ++ rest =
        front ++ p.text ++ Strip.join r ++ rest := by simp
    rcases List.mem_cons.1 hs with rfl | hs
    · refine ⟨⟨front, Strip.join (p :: r) ++ rest, by simp, rfl⟩,
        front ++ p.text, Strip.join r ++ rest, by simp, by simp⟩
    · rw [ht]
      rw [← byteSize_append] at hs
      exact ih (front ++ p.text) s hs

/-! ### The texts of segments and of the tree -/

/-- The text of a segment. -/
def Segment.strip : Segment → Strip
  | .literal _ text => ⟨false, text⟩
  | .directive _ _ source => ⟨true, source⟩
  | .malformed _ _ source => ⟨true, source⟩

namespace Node

mutual
/-- The texts of a node: the two directives of a block stand around those inside it. -/
def strips : Node → List Strip
  | .literal _ text => [⟨false, text⟩]
  | .block _ _ opening body closing =>
    ⟨true, opening⟩ :: stripsAll body ++ [⟨true, closing⟩]

/-- The texts of a sequence of nodes. -/
def stripsAll : List Node → List Strip
  | [] => []
  | n :: r => strips n ++ stripsAll r
end

mutual
/-- The texts that expansion formats. -/
def literals : Node → List (List Char)
  | .literal _ text => [text]
  | .block _ _ _ body _ => literalsAll body

/-- The texts that expansion formats in a sequence of nodes. -/
def literalsAll : List Node → List (List Char)
  | [] => []
  | n :: r => literals n ++ literalsAll r
end

theorem stripsAll_append (a b : List Node) : stripsAll (a ++ b) = stripsAll a ++ stripsAll b := by
  induction a with
  | nil => rfl
  | cons n r ih => simp [stripsAll, ih]

mutual
theorem join_strips (n : Node) : Strip.join (strips n) = source n := by
  cases n with
  | literal => simp [strips, source]
  | block head line opening body closing => simp [strips, source, join_stripsAll body]

theorem join_stripsAll (nodes : List Node) : Strip.join (stripsAll nodes) = sourceAll nodes := by
  cases nodes with
  | nil => rfl
  | cons n r => simp [stripsAll, sourceAll, join_strips n, join_stripsAll r]
end

mutual
theorem literals_eq_filter (n : Node) :
    literals n = ((strips n).filter (!·.isDirective)).map Strip.text := by
  cases n with
  | literal => rfl
  | block head line opening body closing => simp [literals, strips, literalsAll_eq_filter body]

theorem literalsAll_eq_filter (nodes : List Node) :
    literalsAll nodes = ((stripsAll nodes).filter (!·.isDirective)).map Strip.text := by
  cases nodes with
  | nil => rfl
  | cons n r => simp [literalsAll, stripsAll, literals_eq_filter n, literalsAll_eq_filter r]
end

/-- The texts in front of the innermost open block's body. -/
def openStrips : List Frame → List Strip
  | [] => []
  | f :: r => openStrips r ++ stripsAll f.before.reverse ++ [⟨true, f.opening⟩]

/-- The tree holds the texts of the segments. -/
theorem strips_assemble {frames : List Frame} {done : List Node} {l : List Segment}
    {nodes : List Node} (h : assemble frames done l = .ok nodes) :
    stripsAll nodes = openStrips frames ++ stripsAll done.reverse ++ l.map Segment.strip := by
  -- an open block has given its first directive and what stands before it
  fun_induction assemble frames done l with
  | case1 done =>
    cases h
    simp [openStrips]
  | case2 => cases h
  | case3 frames done line text r ih =>
    rw [ih h]
    simp [stripsAll_append, stripsAll, strips, Segment.strip]
  | case4 => cases h
  | case5 => cases h
  | case6 frames done line src r word filter subject _ ih =>
    rw [ih h]
    simp [openStrips, stripsAll, Segment.strip]
  | case7 frames done line src r condition ih =>
    rw [ih h]
    simp [openStrips, stripsAll, Segment.strip]
  | case8 => cases h
  | case9 done line src r f frames ih =>
    rw [ih h]
    simp [openStrips, stripsAll_append, stripsAll, strips, Segment.strip]
  | case10 => cases h

end Node

/-! ### Literals and blocks take turns -/

/-- A sequence of nodes starts and ends with a literal, and literals and blocks take turns in it;
so it is inside the blocks. -/
inductive Alternates : List Node → Prop
  | last (line : Nat) (text : List Char) : Alternates [.literal line text]
  | cons {line here : Nat} {text opening closing : List Char} {head : Head}
      {body rest : List Node} (hb : Alternates body) (hr : Alternates rest) :
      Alternates (.literal line text :: .block head here opening body closing :: rest)

/-- A block and a literal can be added at the end. -/
theorem Alternates.snoc {a body : List Node} (ha : Alternates a) (hb : Alternates body)
    (head : Head) (here line : Nat) (opening closing text : List Char) :
    Alternates (a ++ [.block head here opening body closing, .literal line text]) := by
  induction ha with
  | last => exact .cons hb (.last line text)
  | cons hb' _ _ ih => exact .cons hb' ih

/-- The reader has read nodes that lack a literal only. -/
def AwaitsLiteral (done : List Node) : Prop :=
  ∀ line text, Alternates (done.reverse ++ [.literal line text])

/-- In the tree of a template literals and blocks take turns, for the reader puts a literal in front
of each directive. -/
theorem alternates_assemble {front : List Char} {segments : List Segment} {marks : List Mark}
    (hc : Cuts front segments marks) :
    ∀ frames done nodes, AwaitsLiteral done →
      (∀ f ∈ frames, Alternates (Frame.before f).reverse) →
      assemble frames done segments = .ok nodes → Alternates nodes := by
  induction hc with
  | last front text =>
    intro frames done nodes hd _ h
    cases frames with
    | nil =>
      obtain rfl := Except.ok.inj h
      rw [List.reverse_cons]
      exact hd _ _
    | cons f frames => cases h
  | malformed => intro frames done nodes _ _ h; cases h
  | @directive front before m d segments marks _ _ _ ih =>
    intro frames done nodes hd hf h
    rw [assemble] at h
    have hdone : Alternates (Node.literal (lineAfter front) before :: done).reverse := by
      rw [List.reverse_cons]
      exact hd _ _
    -- the block takes the literal in front of it along, and so a new one may come next
    rcases assemble_directive_of_ok h with ⟨head, here, -, h⟩ | ⟨f, frames, rfl, -, h⟩
    · refine ih _ [] _ (fun line text => .last line text) ?_ h
      intro f hm
      rcases List.mem_cons.1 hm with rfl | hm
      · exact hdone
      · exact hf f hm
    · refine ih _ _ _ ?_ (fun g hg => hf g (List.mem_cons_of_mem _ hg)) h
      intro line text
      rw [List.reverse_cons, List.append_assoc]
      exact (hf f List.mem_cons_self).snoc hdone _ _ _ _ _ _

/-! ### The cursor of expansion -/

namespace Outline

/-- The range of a block, with its directives. -/
def outer : Outline → Span
  | .block _ _ outer _ _ => outer

mutual
/-- The ranges of a block: its two directives, and those met inside it. -/
def stretchesOf : Outline → List Stretch
  | .block _ _ outer body children =>
    ⟨true, ⟨outer.start, body.start⟩⟩ :: stretches body.start body.stop children ++
      [⟨true, ⟨body.stop, outer.stop⟩⟩]

/-- The ranges met between the bytes `start` and `stop`: with the cursor at `start`, the literal up
to the next block, the block, and so on from where it stops. -/
def stretches (start stop : Nat) : List Outline → List Stretch
  | [] => [⟨false, ⟨start, stop⟩⟩]
  | o :: r =>
    ⟨false, ⟨start, o.outer.start⟩⟩ :: stretchesOf o ++ stretches o.outer.stop stop r
end

/-- Between the bytes `start` and `stop` the blocks are in order and disjoint, and the children of
each of them are so inside its body. -/
inductive Fits : Nat → Nat → List Outline → Prop
  | nil {start stop : Nat} (h : start ≤ stop) : Fits start stop []
  | cons {start stop line : Nat} {head : Head} {outer body : Span}
      {children rest : List Outline} (hs : start ≤ outer.start)
      (ho : outer.start ≤ body.start) (hb : body.start ≤ body.stop)
      (hc : Fits body.start body.stop children) (hl : body.stop ≤ outer.stop)
      (hr : Fits outer.stop stop rest) :
      Fits start stop (.block head line outer body children :: rest)

mutual
/-- The offsets of a block and of all blocks inside it. -/
def offsets : Outline → List Nat
  | .block _ _ outer body children =>
    [outer.start, body.start, body.stop, outer.stop] ++ offsetsAll children

/-- The offsets of a sequence of blocks and of all blocks inside them. -/
def offsetsAll : List Outline → List Nat
  | [] => []
  | o :: r => offsets o ++ offsetsAll r
end

@[simp] theorem ofNodes_nil (start : Nat) : ofNodes start [] = [] := rfl

theorem ofNodes_literal (start line : Nat) (text : List Char) (r : List Node) :
    ofNodes start (.literal line text :: r) = ofNodes (start + byteSize text) r := rfl

/-- A block takes the range of its source, and its body what is between its directives. -/
theorem ofNodes_block (start : Nat) (head : Head) (line : Nat) (opening : List Char)
    (body : List Node) (closing : List Char) (r : List Node) :
    ofNodes start (.block head line opening body closing :: r) =
      .block head line
        ⟨start, start + byteSize opening + byteSize (sourceAll body) + byteSize closing⟩
        ⟨start + byteSize opening, start + byteSize opening + byteSize (sourceAll body)⟩
        (ofNodes (start + byteSize opening) body) ::
      ofNodes (start + byteSize opening + byteSize (sourceAll body) + byteSize closing) r := by
  simp only [ofNodes, ofNodesTo, ofNode, snd_ofNodesTo]
  rfl

/-- The cursor meets the texts of the tree where they stand. -/
theorem stretches_ofNodes {nodes : List Node} (h : Alternates nodes) (start : Nat) :
    stretches start (start + byteSize (sourceAll nodes)) (ofNodes start nodes) =
      place start (stripsAll nodes) := by
  -- the cursor goes over a text and into the block behind it, and on from where the block stops
  induction h generalizing start with
  | last line text => simp [ofNodes_literal, stretches, sourceAll, source, stripsAll, strips, place]
  | @cons line here text opening closing head body rest _ _ ihb ihr =>
    have hb := ihb (start + byteSize text + byteSize opening)
    have hr := ihr (start + byteSize text + byteSize opening + byteSize (sourceAll body) +
      byteSize closing)
    rw [ofNodes_literal, ofNodes_block]
    have ht : start + byteSize (sourceAll (.literal line text ::
        .block head here opening body closing :: rest)) =
        start + byteSize text + byteSize opening + byteSize (sourceAll body) +
          byteSize closing + byteSize (sourceAll rest) := by
      simp only [sourceAll, source, byteSize_append]
      omega
    rw [ht]
    simp only [stretches, stretchesOf, outer, hb, hr, stripsAll, strips]
    simp [place, place_append, join_stripsAll]

/-- The blocks of a tree are nested and disjoint. -/
theorem fits_ofNodes {nodes : List Node} (h : Alternates nodes) (start : Nat) :
    Fits start (start + byteSize (sourceAll nodes)) (ofNodes start nodes) := by
  -- by induction on the turns of literals and blocks, once for the body and once for the rest
  induction h generalizing start with
  | last line text => exact .nil (Nat.le_add_right _ _)
  | @cons line here text opening closing head body rest _ _ ihb ihr =>
    have hb := ihb (start + byteSize text + byteSize opening)
    have hr := ihr (start + byteSize text + byteSize opening + byteSize (sourceAll body) +
      byteSize closing)
    rw [ofNodes_literal, ofNodes_block]
    refine .cons (Nat.le_add_right _ _) ?_ ?_ hb ?_ ?_
    · exact Nat.le_add_right _ _
    · exact Nat.le_add_right _ _
    · exact Nat.le_add_right _ _
    · simpa [sourceAll, source, Nat.add_assoc] using hr

theorem isBoundary_append (a b : List Char) : IsBoundary (a ++ b) (byteSize a) :=
  ⟨a, b, rfl, rfl⟩

/-- The blocks of a tree start and stop between characters. -/
theorem isBoundary_ofNodes {nodes : List Node} (h : Alternates nodes) (front after : List Char) :
    ∀ o ∈ offsetsAll (ofNodes (byteSize front) nodes),
      IsBoundary (front ++ sourceAll nodes ++ after) o := by
  induction h generalizing front after with
  | last line text => simp [ofNodes_literal, offsetsAll]
  | @cons line here text opening closing head body rest _ _ ihb ihr =>
    have ht : front ++ sourceAll (.literal line text ::
        .block head here opening body closing :: rest) ++ after =
        front ++ text ++ opening ++ sourceAll body ++ closing ++ sourceAll rest ++ after := by
      simp [sourceAll, source]
    have hb := ihb (front ++ text ++ opening) (closing ++ sourceAll rest ++ after)
    have hr := ihr (front ++ text ++ opening ++ sourceAll body ++ closing) after
    -- the four offsets of the block, each behind one more of its parts
    have h1 := isBoundary_append (front ++ text)
      (opening ++ sourceAll body ++ closing ++ sourceAll rest ++ after)
    have h2 := isBoundary_append (front ++ text ++ opening)
      (sourceAll body ++ closing ++ sourceAll rest ++ after)
    have h3 := isBoundary_append (front ++ text ++ opening ++ sourceAll body)
      (closing ++ sourceAll rest ++ after)
    have h4 := isBoundary_append (front ++ text ++ opening ++ sourceAll body ++ closing)
      (sourceAll rest ++ after)
    rw [ht, ofNodes_literal, ofNodes_block]
    simp only [byteSize_append, List.append_assoc, Nat.add_assoc] at hb hr h1 h2 h3 h4 ⊢
    intro o ho
    simp only [offsetsAll, offsets, List.mem_append, List.mem_cons, List.not_mem_nil,
      or_false] at ho
    rcases ho with ((rfl | rfl | rfl | rfl) | ho) | ho
    · exact h1
    · exact h2
    · exact h3
    · exact h4
    · exact hb o ho
    · exact hr o ho

end Outline

/-! ### The directives among the ranges -/

/-- The bytes of a site. -/
def Site.span (s : Site) : Span :=
  ⟨s.start, s.stop⟩

/-- The directives among the segments stand where their marks say. -/
theorem directives_place {front : List Char} {segments : List Segment} {marks : List Mark}
    (hc : Cuts front segments marks) (hd : ∀ m ∈ marks, m.directive? ≠ none) :
    ((place (byteSize front) (segments.map Segment.strip)).filter Stretch.isDirective).map
        Stretch.span = marks.map fun m => m.site.taken.span := by
  induction hc with
  | last => rfl
  | @malformed _ _ _ m hn => exact absurd hn (hd m List.mem_cons_self)
  | @directive front before m d segments marks _ hf _ ih =>
    have h := ih fun m' hm' => hd m' (List.mem_cons_of_mem _ hm')
    -- the literal in front ends where the mark's text, or its first line, starts
    have hs : byteSize front + byteSize before = m.site.taken.start := by
      rw [← byteSize_append, hf]
      rfl
    rw [byteSize_append] at h
    simp only [List.map_cons, Segment.strip, place, hs, List.filter_cons_of_neg,
      List.filter_cons_of_pos, Bool.false_eq_true, not_false_eq_true]
    exact congrArg _ h

/-! ### The main result -/

/-- The tree cuts the template into ranges. -/
structure Partition (text : List Char) (nodes : List Node) : Prop where
  /-- The blocks are in order, disjoint and nested, within the text. -/
  fits : Outline.Fits 0 (byteSize text) (Outline.ofNodes 0 nodes)
  /-- They start and stop between characters. -/
  boundaries : ∀ o ∈ Outline.offsetsAll (Outline.ofNodes 0 nodes), IsBoundary text o
  /-- The literals and the directives that expansion meets follow each other without gap or
  overlap, from the first byte to the last. -/
  tiles : Tiles 0 ((Outline.stretches 0 (byteSize text) (Outline.ofNodes 0 nodes)).map
    Stretch.span) (byteSize text)
  /-- They start and stop between characters, too. -/
  sliceable : ∀ s ∈ Outline.stretches 0 (byteSize text) (Outline.ofNodes 0 nodes),
    IsBoundary text s.span.start ∧ IsBoundary text s.span.stop
  /-- Together they are the text. -/
  covers : (Outline.stretches 0 (byteSize text) (Outline.ofNodes 0 nodes)).flatMap
    (fun s => s.span.slice text) = text
  /-- The literals are the texts that expansion formats. -/
  literals : ((Outline.stretches 0 (byteSize text) (Outline.ofNodes 0 nodes)).filter
    (!·.isDirective)).map (fun s => s.span.slice text) = literalsAll nodes
  /-- The directives are those of the marks, and what they take. -/
  directives : ((Outline.stretches 0 (byteSize text) (Outline.ofNodes 0 nodes)).filter
    Stretch.isDirective).map Stretch.span = (Mark.all text).map fun m => m.site.taken.span
  /-- A directive takes its lines if only blanks, and no other directive, share them. -/
  widened : ∀ m ∈ Mark.all text, m.Alone (Mark.all text) → m.site.taken = m.site.lines
  /-- Any other directive takes its own text. -/
  exact : ∀ m ∈ Mark.all text, ¬ m.Alone (Mark.all text) → m.site.taken = m.site

/-- The ranges that expansion meets in a template are its texts, where they stand. -/
theorem stretches_parse {text : List Char} {nodes : List Node} (h : parse text = .ok nodes) :
    Outline.stretches 0 (byteSize text) (Outline.ofNodes 0 nodes) = place 0 (stripsAll nodes) := by
  have ha := alternates_assemble (cuts_ofTemplate text) [] [] nodes
    (fun line text => .last line text) (by simp) h
  have := Outline.stretches_ofNodes ha 0
  rwa [sourceAll_parse h, Nat.zero_add] at this

/-- The tree of a template cuts it into ranges: its blocks are nested and disjoint, the literals and
directives on the way through it follow each other from the first byte to the last, and a directive
takes its lines exactly if it stands alone on them. -/
theorem parse_spans {text : List Char} {nodes : List Node} (h : parse text = .ok nodes) :
    Partition text nodes := by
  have hc := cuts_ofTemplate text
  have ha := alternates_assemble hc [] [] nodes (fun line text => .last line text) (by simp) h
  have hs := stretches_parse h
  have hsource := sourceAll_parse h
  have hjoin : Strip.join (stripsAll nodes) = text := (join_stripsAll nodes).trans hsource
  have hslice := slice_place [] [] (stripsAll nodes)
  have hbound := isBoundary_place [] [] (stripsAll nodes)
  rw [List.nil_append, List.append_nil, hjoin] at hslice hbound
  refine ⟨?_, ?_, ?_, ?_, ?_, ?_, ?_, ?_, ?_⟩
  · have := Outline.fits_ofNodes ha 0
    rwa [hsource, Nat.zero_add] at this
  · have := Outline.isBoundary_ofNodes ha [] []
    rwa [hsource, List.nil_append, List.append_nil] at this
  · have := tiles_place 0 (stripsAll nodes)
    rw [hjoin, Nat.zero_add] at this
    rwa [hs]
  · rw [hs]
    exact hbound
  · -- the ranges hold the texts of the tree, which are the template
    rw [hs]
    have := congrArg Strip.join hslice
    rw [hjoin] at this
    simpa [Strip.join, List.flatMap_map] using this
  · rw [hs, literalsAll_eq_filter]
    have := congrArg (fun l => (l.filter (!·.isDirective)).map Strip.text) hslice
    simpa [List.filter_map, Function.comp_def] using this
  · -- the texts of the tree are those of the segments, and the segments are cut at the marks
    rw [hs]
    have hstrips := strips_assemble h
    simp only [openStrips, List.reverse_nil, stripsAll, List.nil_append] at hstrips
    rw [hstrips]
    exact directives_place hc (directive?_ne_none_of_parse h)
  · intro m hm hal
    rw [Site.taken, if_pos ((alone_iff hm).2 hal)]
  · intro m hm hal
    rw [Site.taken, if_neg fun ht => hal ((alone_iff hm).1 ht)]

/-- A template with a directive that takes its line and its CRLF, with characters of two bytes, and
without a final line break. -/
theorem parse_spans_shared_and_own_lines :
    ∃ nodes, parse "é @if('é')\r\n\t@if(b)\r\nx@end if\n @end if".toList = .ok nodes ∧
      Partition "é @if('é')\r\n\t@if(b)\r\nx@end if\n @end if".toList nodes := by
  have hok : (parse "é @if('é')\r\n\t@if(b)\r\nx@end if\n @end if".toList).isOk = true := by
    decide +kernel
  rcases h : parse "é @if('é')\r\n\t@if(b)\r\nx@end if\n @end if".toList with e | nodes
  · rw [h] at hok
    cases hok
  · exact ⟨nodes, rfl, parse_spans h⟩

end ApiStencil.Template
