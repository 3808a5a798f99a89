/-
ApiStencil/Proofs/Template/Located.lean

Where an expansion that fails says that it did.  The error stands at a node that the run
reaches, and the tree knows where that is: a literal is cut from the template where the point
says (`Reaches.strips`), and a block begins with the text of its directive (`Reaches.placed`).

An error in a literal is a brace of the template outside all directives, on the line of the
error; an error in a condition has the line of the directive that asks it; and both name the
innermost item of the loops around, which for a filter is the item that it is asked about
(`expand_error_located`).
-/
import ApiStencil.Proofs.Placeholder.Exact
import ApiStencil.Proofs.Template.Placed
import ApiStencil.Proofs.Template.Reach
import ApiStencil.Proofs.Template.Span

namespace ApiStencil.Template

open Text Node

/-! ### Where a node stands -/

namespace Node

variable {r : Registry} {p q : Point} {nodes : List Node} {n : Node}

/-- A node that is reached stands where its point says. -/
theorem Reaches.placed {marks : List Mark} (h : Reaches r p nodes q n)
    (hp : PlacedAll marks p.front nodes) : Placed marks q.front n := by
  induction h with
  | here => exact hp.1
  | next _ _ ih => exact ih hp.2
  | cond _ _ ih => exact ih hp.1.2
  | turn _ _ _ _ ih => exact ih hp.1.2

/-- The texts in front of a part of a body stand behind the opening of the block. -/
theorem exists_strips_block {front front' opening closing : List Char} {head : Head} {line : Nat}
    {body rest : List Node} {s : List Strip}
    (h : ∃ before after, stripsAll body = before ++ s ++ after ∧
      front' = front ++ opening ++ Strip.join before) :
    ∃ before after, stripsAll (.block head line opening body closing :: rest) =
        before ++ s ++ after ∧ front' = front ++ Strip.join before := by
  obtain ⟨before, after, hs, hf⟩ := h
  refine ⟨⟨true, opening⟩ :: before, after ++ ⟨true, closing⟩ :: stripsAll rest, ?_, ?_⟩
  · simp [stripsAll, Node.strips, hs]
  · rw [hf, Strip.join_cons, List.append_assoc]

/-- The texts in front of a node that is reached are what the template holds there. -/
theorem Reaches.strips (h : Reaches r p nodes q n) :
    ∃ before after, stripsAll nodes = before ++ n.strips ++ after ∧
      q.front = p.front ++ Strip.join before := by
  induction h with
  | here p n rest => exact ⟨[], stripsAll rest, rfl, by simp⟩
  | @next p q n m rest l _ _ ih =>
    obtain ⟨before, after, hs, hf⟩ := ih
    refine ⟨n.strips ++ before, after, by simp [stripsAll, hs], ?_⟩
    rw [hf, Strip.join_append, join_strips]
    exact List.append_assoc ..
  | cond _ _ ih => exact exists_strips_block ih
  | turn _ _ _ _ ih => exact exists_strips_block ih

/-- How a node asks a condition: with these items in the loops around it. -/
inductive Asks (r : Registry) (q : Point) : Node → List Item → List Char → Prop
  | cond (condition opening closing : List Char) (line : Nat) (body : List Node) :
      Asks r q (.block (.cond condition) line opening body closing) q.items condition
  | filter {subject : Subject} {condition opening closing : List Char} {line : Nat}
      {body : List Node} {done later : List Item} {i : Item} {parts : List (List Fragment)}
      (hi : q.scope.itemsOf r subject line = .ok (done ++ i :: later))
      (hd : turns r q.scope line (some condition) body done = .ok parts) :
      Asks r q (.block (.loop subject (some condition)) line opening body closing)
        (i :: q.items) condition

end Node

/-! ### Where an error stands -/

/-- The byte belongs to the text that a directive of the template takes. -/
def InDirective (text : List Char) (byte : Nat) : Prop :=
  ∃ m ∈ Mark.all text, m.site.taken.start ≤ byte ∧ byte < m.site.taken.stop

/-- The run asks the condition of the directive at the mark `m`, with these items in the loops
around it. -/
structure Asked (r : Registry) (text : List Char) (nodes : List Node) (m : Mark)
    (items : List Item) (condition : List Char) : Prop where
  mem : m ∈ Mark.all text
  reached : ∃ q head opening body closing,
    Reaches r .start nodes q (.block head m.site.line opening body closing) ∧
      m.bracket? = some (.opens head m.site.line) ∧ m.site.taken.front = q.front ∧
      Asks r q (.block head m.site.line opening body closing) items condition

/-- The error of an expansion is that of the place at which it stopped. -/
inductive Located (r : Registry) (text : List Char) (nodes : List Node) : Error → Prop
  /-- A literal whose placeholders cannot be replaced: the error is at a brace of the template
  outside all directives, as many bytes behind the start of the literal as the cause says. -/
  | literal {q : Point} {line : Nat} {s a b : List Char} {c : Char} {cause : Placeholder.Error}
      (hr : Reaches r .start nodes q (.literal line s))
      (hs : ⟨false, ⟨byteSize q.front, byteSize q.front + byteSize s⟩⟩ ∈
        Outline.stretches 0 (byteSize text) (Outline.ofNodes 0 nodes))
      (h : Placeholder.substitute q.scope.values s = .error cause)
      (ht : text = a ++ c :: b) (hc : c = '{' ∨ c = '}')
      (hp : byteSize a = byteSize q.front + cause.offset)
      (ho : ¬ InDirective text (byteSize a)) :
      Located r text nodes (.placeholder (lineAfter a) (q.items.head?.map Item.name) cause)
  /-- A condition whose placeholders cannot be replaced. -/
  | filling {m : Mark} {items : List Item} {condition : List Char} {cause : Placeholder.Error}
      (ha : Asked r text nodes m items condition)
      (h : Placeholder.substitute (Scope.within items).values condition = .error cause) :
      Located r text nodes (.placeholder m.site.line (items.head?.map Item.name) cause)
  /-- A condition without a truth value. -/
  | condition {m : Mark} {items : List Item} {condition filled : List Char}
      {cause : Condition.Error} (ha : Asked r text nodes m items condition)
      (hs : Placeholder.substitute (Scope.within items).values condition = .ok filled)
      (h : Condition.evaluate filled = .error cause) :
      Located r text nodes (.condition m.site.line (items.head?.map Item.name) cause)
  /-- A loop over items that no item around it owns. -/
  | missingOwner {q : Point} {m : Mark} {subject : Subject} {owner : String}
      {filter : Option (List Char)} {opening closing : List Char} {body : List Node}
      (hr : Reaches r .start nodes q
        (.block (.loop subject filter) m.site.line opening body closing))
      (hm : m ∈ Mark.all text)
      (hb : m.bracket? = some (.opens (.loop subject filter) m.site.line))
      (ho : subject.owner? = some owner) (h : ∀ i ∈ q.items, Item.owned? subject i = none) :
      Located r text nodes (.missingOwner subject owner m.site.line)

/-! ### Literals -/

/-- Ranges lie within those of the texts that they hold. -/
theorem bounds_of_mem_place {start : Nat} {l : List Strip} {s : Stretch} (h : s ∈ place start l) :
    start ≤ s.span.start ∧ s.span.stop ≤ start + byteSize (Strip.join l) := by
  induction l generalizing start with
  | nil => cases h
  | cons p r ih =>
    rw [Strip.join_cons, byteSize_append]
    rcases List.mem_cons.1 h with rfl | h
    · exact ⟨Nat.le_refl _, by simp only; omega⟩
    · obtain ⟨h1, h2⟩ := ih h
      omega

/-- The directives among the ranges of a template are those of its marks. -/
theorem mem_place_of_mark {text : List Char} {nodes : List Node} (hp : parse text = .ok nodes)
    {m : Mark} (hm : m ∈ Mark.all text) :
    ⟨true, m.site.taken.span⟩ ∈ place 0 (stripsAll nodes) := by
  have hd := directives_place (cuts_ofTemplate text) (directive?_ne_none_of_parse hp)
  have hstrips := strips_assemble hp
  simp only [openStrips, List.reverse_nil, stripsAll, List.nil_append] at hstrips
  have hmem : m.site.taken.span ∈ (Mark.all text).map fun m => m.site.taken.span :=
    List.mem_map.2 ⟨m, hm, rfl⟩
  rw [← hd, ← hstrips] at hmem
  obtain ⟨⟨b, span⟩, hs, rfl⟩ := List.mem_map.1 hmem
  obtain ⟨hs, rfl⟩ := List.mem_filter.1 hs
  exact hs

/-- A byte of a literal is outside all directives. -/
theorem not_inDirective_of_literal {text s : List Char} {nodes : List Node}
    {before after : List Strip} {k : Nat} (hp : parse text = .ok nodes)
    (hs : stripsAll nodes = before ++ ⟨false, s⟩ :: after) (hk : k < byteSize s) :
    ¬ InDirective text (byteSize (Strip.join before) + k) := by
  rintro ⟨m, hm, hstart, hstop⟩
  have hmem := mem_place_of_mark hp hm
  rw [hs, place_append, place, Nat.zero_add] at hmem
  -- the range of the directive is in front of the literal or behind it
  rcases List.mem_append.1 hmem with hmem | hmem
  · have hbounds := (bounds_of_mem_place hmem).2
    rw [Nat.zero_add] at hbounds
    have : m.site.taken.stop ≤ byteSize (Strip.join before) := hbounds
    omega
  · rcases List.mem_cons.1 hmem with he | hmem
    · cases he
    · have : byteSize (Strip.join before) + byteSize s ≤ m.site.taken.start :=
        (bounds_of_mem_place hmem).1
      omega

section

variable {r : Registry} {text : List Char} {nodes : List Node} {q : Point} {e : Error}

/-- An error in a literal is at a brace of it. -/
theorem located_literal {line : Nat} {s : List Char} (hp : parse text = .ok nodes)
    (hr : Reaches r .start nodes q (.literal line s)) (he : q.scope.format line s = .error e) :
    Located r text nodes e := by
  obtain ⟨cause, hcause, rfl⟩ := mapError_eq_error_iff.1 he
  obtain ⟨front, c, rest, rfl, hc, hoffset⟩ :=
    (Placeholder.substitute_eq_error_iff.1 hcause).exists_brace
  obtain ⟨before, after, hs, hfront⟩ := hr.strips
  have hfront : q.front = Strip.join before := hfront
  have hs : stripsAll nodes = before ++ ⟨false, front ++ c :: rest⟩ :: after := by
    rw [hs]
    simp [Node.strips]
  have hline : line = lineAfter q.front := hr.placed (placedAll_parse hp)
  have htext : text = q.front ++ front ++ c :: (rest ++ Strip.join after) := by
    rw [← sourceAll_parse hp, ← join_stripsAll, hs, hfront]
    simp
  have hin : byteSize front < byteSize (front ++ c :: rest) := by
    have := c.utf8Size_pos
    rw [byteSize_append, byteSize_cons]
    omega
  have hliteral := Located.literal (a := q.front ++ front) hr ?_ hcause htext hc ?_ ?_
  · -- the line of the brace is that of the literal and the breaks between the two
    rw [hoffset, takeBytes_byteSize_append, hline, lineAfter, Nat.add_assoc, ← lineBreaks_append,
      Point.scope, Scope.entity?_within]
    exact hliteral
  · rw [stretches_parse hp, hs, place_append, place, Nat.zero_add, hfront]
    exact List.mem_append_right _ List.mem_cons_self
  · rw [hoffset, byteSize_append]
  · rw [byteSize_append, hfront]
    exact not_inDirective_of_literal hp hs hin

/-- The directive of a block that is reached. -/
theorem exists_mark_of_reaches {head : Head} {line : Nat} {opening closing : List Char}
    {body : List Node} (hp : parse text = .ok nodes)
    (hr : Reaches r .start nodes q (.block head line opening body closing)) :
    ∃ m ∈ Mark.all text, line = m.site.line ∧ m.bracket? = some (.opens head line) ∧
      m.site.taken.front = q.front := by
  obtain ⟨⟨m, hm, hb, hfront, -⟩, -⟩ := hr.placed (placedAll_parse hp)
  refine ⟨m, hm, ?_, hb, hfront⟩
  obtain ⟨d, -, hd⟩ := Option.bind_eq_some_iff.1 hb
  cases d with
  | foreach word filter =>
    obtain ⟨subject, -, hopens⟩ := Option.map_eq_some_iff.1 hd
    exact (Bracket.opens.inj hopens).2.symm
  | cond condition => exact (Bracket.opens.inj (Option.some.inj hd)).2.symm
  | close word => cases hd

/-- An error in a condition is that of the directive that asks it. -/
theorem located_of_holds {head : Head} {line : Nat} {opening closing condition : List Char}
    {body : List Node} {items : List Item} (hp : parse text = .ok nodes)
    (hr : Reaches r .start nodes q (.block head line opening body closing))
    (ha : Asks r q (.block head line opening body closing) items condition)
    (he : (Scope.within items).holds line (some condition) = .error e) :
    Located r text nodes e := by
  obtain ⟨m, hm, rfl, hb, hfront⟩ := exists_mark_of_reaches hp hr
  have hasked : Asked r text nodes m items condition :=
    ⟨hm, q, head, opening, body, closing, hr, hb, hfront, ha⟩
  rw [Scope.holds, Scope.entity?_within] at he
  rcases bind_eq_error_iff.1 he with he | ⟨filled, hfilled, he⟩
  · obtain ⟨cause, hcause, rfl⟩ := mapError_eq_error_iff.1 he
    exact .filling hasked hcause
  · obtain ⟨cause, hcause, rfl⟩ := mapError_eq_error_iff.1 he
    exact .condition hasked (mapError_eq_ok_iff.1 hfilled) hcause

/-- A loop fails before its first turn only for want of an owner. -/
theorem located_missingOwner {subject : Subject} {filter : Option (List Char)} {line : Nat}
    {opening closing : List Char} {body : List Node} (hp : parse text = .ok nodes)
    (hr : Reaches r .start nodes q (.block (.loop subject filter) line opening body closing))
    (he : q.scope.itemsOf r subject line = .error e) : Located r text nodes e := by
  obtain ⟨m, hm, rfl, hb, -⟩ := exists_mark_of_reaches hp hr
  unfold Scope.itemsOf at he
  split at he
  · cases he
  · next owner ho =>
    split at he
    · cases he
    · next hnone =>
      obtain rfl := Except.error.inj he
      rw [Point.scope, Scope.items_within, List.findSome?_eq_none_iff] at hnone
      exact .missingOwner hr hm hb ho hnone

end

/-! ### The main result -/

/-- The error is found when a template is read. -/
def Error.isOfReading : Error → Bool
  | .missingOwner .. | .placeholder .. | .condition .. => false
  | _ => true

theorem isOfReading_of_parse {text : List Char} {e : Error} (h : parse text = .error e) :
    e.isOfReading = true := by
  have hfault : Fault (Mark.all text) e :=
    fault_of_assemble (cuts_ofTemplate text) [] [] [] e faultless_nil h
  cases hfault <;> rfl

/-- An expansion that fails says where: either the template cannot be read, or its error is that of
the literal, the condition or the loop at which it stopped. -/
theorem expand_error_located {r : Registry} {text : List Char} {e : Error}
    (h : expand r text = .error e) :
    (parse text = .error e ∧ e.isOfReading = true) ∨
      ∃ nodes, parse text = .ok nodes ∧ Located r text nodes e := by
  rcases bind_eq_error_iff.1 h with hp | ⟨nodes, hp, h⟩
  · exact .inl ⟨hp, isOfReading_of_parse hp⟩
  · rw [expandNodes, map_eq_bind] at h
    rcases bind_eq_error_iff.1 h with h | ⟨_, _, ⟨⟩⟩
    rw [← Point.scope_start] at h
    obtain ⟨q, n, hr, hb⟩ := expandAll_eq_error_iff.1 h
    refine .inr ⟨nodes, hp, ?_⟩
    -- the run stopped at a literal, at a condition, before a loop or at its filter
    cases hb with
    | literal he => exact located_literal hp hr he
    | cond he => exact located_of_holds hp hr (.cond ..) he
    | owner he => exact located_missingOwner hp hr he
    | filter hi hd he => exact located_of_holds hp hr (.filter hi hd) he

/-- A name without a value, on the second line of a literal in a loop that skips its first item. -/
def unknownInLoop : List Char :=
  "é\n@foreach handle where('{hdlName}' != 'A')\n{hdlName};\nx {oops}\n@end handle\n".toList

/-- The second item is the one that the literal fails for, and the brace is two lines behind the
start of the loop. -/
theorem expand_error_located_in_loop :
    expand twoHandles unknownInLoop =
        .error (.placeholder 4 (some "B") (.unknown "oops".toList 13)) ∧
      ((parse unknownInLoop = .error (.placeholder 4 (some "B") (.unknown "oops".toList 13)) ∧
          Error.isOfReading (.placeholder 4 (some "B") (.unknown "oops".toList 13)) = true) ∨
        ∃ nodes, parse unknownInLoop = .ok nodes ∧
          Located twoHandles unknownInLoop nodes
            (.placeholder 4 (some "B") (.unknown "oops".toList 13))) := by
  have h : expand twoHandles unknownInLoop =
      .error (.placeholder 4 (some "B") (.unknown "oops".toList 13)) := by decide +kernel
  exact ⟨h, expand_error_located h⟩

end ApiStencil.Template
