/-
ApiStencil/Proofs/Template/Placed.lean

Where the nodes of a template stand.  A literal is on the line that its place gives it, and a
block begins with the text that one of the template's directives takes, at the place of that
directive and with its line (`placedAll_parse`).

The reader opens a block where a directive opens it and closes it later, so the induction
over the segments carries the same of the open blocks (`OpensPlaced`).
-/
import ApiStencil.Proofs.Template.Nesting

namespace ApiStencil.Template

open Segment Node

namespace Node

mutual
/-- The node stands after `front`, and each block in it where one of the marks says. -/
def Placed (marks : List Mark) (front : List Char) : Node → Prop
  | .literal line _ => line = lineAfter front
  | .block head line opening body _ =>
    (∃ m ∈ marks, m.bracket? = some (.opens head line) ∧ m.site.taken.front = front ∧
      m.site.taken.own = opening) ∧ PlacedAll marks (front ++ opening) body

/-- The same of nodes that stand one after the other. -/
def PlacedAll (marks : List Mark) (front : List Char) : List Node → Prop
  | [] => True
  | n :: r => Placed marks front n ∧ PlacedAll marks (front ++ n.source) r
end

variable {marks : List Mark}

/-- The later nodes stand behind the text of the former. -/
theorem placedAll_append {front : List Char} {a b : List Node} :
    PlacedAll marks front (a ++ b) ↔
      PlacedAll marks front a ∧ PlacedAll marks (front ++ sourceAll a) b := by
  induction a generalizing front with
  | nil => simp [PlacedAll, sourceAll]
  | cons n a ih => simp [PlacedAll, sourceAll, ih, and_assoc]

/-- The open blocks begin where the marks say, and so do the nodes in front of them. -/
def OpensPlaced (marks : List Mark) : List Frame → Prop
  | [] => True
  | f :: r =>
    OpensPlaced marks r ∧ PlacedAll marks (openSource r) f.before.reverse ∧
      ∃ m ∈ marks, m.bracket? = some (.opens f.head f.line) ∧
        m.site.taken.front = openSource r ++ sourceAll f.before.reverse ∧
        m.site.taken.own = f.opening

/-- The reader keeps the nodes and the open blocks where the marks say. -/
theorem placedAll_assemble {front : List Char} {segments : List Segment} {here : List Mark}
    (hc : Cuts front segments here) (hm : ∀ m ∈ here, m ∈ marks) :
    ∀ frames done nodes, front = openSource frames ++ sourceAll done.reverse →
      OpensPlaced marks frames → PlacedAll marks (openSource frames) done.reverse →
      assemble frames done segments = .ok nodes → PlacedAll marks [] nodes := by
  induction hc with
  | last front text =>
    rintro frames done nodes rfl _ hd h
    cases frames with
    | nil =>
      obtain rfl := Except.ok.inj h
      rw [List.reverse_cons]
      exact placedAll_append.2 ⟨hd, rfl, trivial⟩
    | cons f frames => cases h
  | malformed =>
    intro frames done nodes _ _ _ h
    cases h
  | @directive front before m d segments here hdir hf hr ih =>
    rintro frames done nodes rfl ho hd h
    obtain ⟨hmark, hrest⟩ := List.forall_mem_cons.1 hm
    rw [assemble] at h
    -- with the literal in front of it, what has been read reaches up to the directive
    have hdone : PlacedAll marks (openSource frames)
        (Node.literal (lineAfter (openSource frames ++ sourceAll done.reverse)) before ::
          done).reverse := by
      rw [List.reverse_cons]
      exact placedAll_append.2 ⟨hd, rfl, trivial⟩
    have hfront : openSource frames ++ sourceAll (Node.literal
        (lineAfter (openSource frames ++ sourceAll done.reverse)) before :: done).reverse =
          m.site.taken.front := by
      rw [← hf]
      simp [sourceAll_append, sourceAll, source]
    rcases assemble_directive_of_ok h with ⟨head, line, hb, h⟩ | ⟨f, frames, rfl, -, h⟩
    · have hopens : m.bracket? = some (.opens head line) := by
        rw [Mark.bracket?_of_directive? hdir, hb]
      refine ih hrest (⟨head, line, m.site.taken.own, _⟩ :: frames) [] nodes ?_ ?_ trivial h
      · rw [openSource, hfront, List.reverse_nil, sourceAll, List.append_nil]
      · exact ⟨ho, hdone, m, hmark, hopens, hfront.symm, rfl⟩
    · obtain ⟨ho, hbefore, m', hm', hb, hfront', hown⟩ := ho
      refine ih hrest frames _ _ ?_ ho ?_ h
      · rw [← hfront]
        simp [openSource, sourceAll_append, sourceAll, source]
      · rw [List.reverse_cons]
        refine placedAll_append.2 ⟨hbefore, ⟨⟨m', hm', hb, hfront', hown⟩, ?_⟩, trivial⟩
        exact hdone

/-- The nodes of a template stand where its directives say. -/
theorem placedAll_parse {text : List Char} {nodes : List Node} (h : parse text = .ok nodes) :
    PlacedAll (Mark.all text) [] nodes :=
  placedAll_assemble (cuts_ofTemplate text) (fun _ hm => hm) [] [] nodes rfl trivial trivial h

end Node

end ApiStencil.Template
