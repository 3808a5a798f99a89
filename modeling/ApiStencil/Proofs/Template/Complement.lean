/-
ApiStencil/Proofs/Template/Complement.lean

A condition that has a truth value for every item of a collection splits it.  A loop
with the condition as its filter goes through the items for which it holds, a loop with
its negation through the others, and a loop whose body is wrapped in the condition
expands what it wraps for the same items as the first (`complement_of_filters`).

The filter and the condition are the texts between the parentheses of the directives,
whatever they contain, as long as quotes and parentheses in them match.  The turns of a
loop that its filter skips leave nothing behind, so expanding with a filter is expanding
for the filtered collection (`flatten_mapM_of_skip`).
-/
import ApiStencil.Proofs.Condition.Negation
import ApiStencil.Proofs.Template.Concatenation
import ApiStencil.Proofs.Template.Filter
import ApiStencil.Proofs.Template.Vocabulary
import ApiStencil.Template.Expand

namespace ApiStencil.Template

open Node Condition

/-! ### The texts of filters -/

/-- The negation of an enclosed condition is enclosed. -/
theorem Enclosed.negated {c : List Char} (h : Enclosed c) : Enclosed (negated c) := by
  have hparentheses : Enclosed ('(' :: c ++ ')' :: []) := .parentheses h .nil
  have hword : Enclosed "not ".toList := by decide +kernel
  have htext : Condition.negated c = "not ".toList ++ ('(' :: c ++ ')' :: []) := by
    simp [Condition.negated]
  rw [htext]
  exact hword.append hparentheses

/-- A loop in a template is a block of its tree with the text of its filter. -/
theorem within_of_loop {text clause c rest : List Char} {nodes : List Node} {m : Mark}
    {s : Subject} (hp : parse text = .ok nodes) (hm : m ∈ Mark.all text)
    (hl : m.Loops s.name.toList clause) (ho : OpensFilter clause (c ++ ')' :: rest))
    (hc : Enclosed c) :
    ∃ opening body closing,
      Within (.block (.loop s (some c)) m.site.line opening body closing) nodes := by
  obtain ⟨filter, hf, hd⟩ := hl.directive hm ho
  have hfilter : filter = some c := by
    cases hf with
    | closed hc' hb =>
      -- the enclosed text in front of the parenthesis is the only one
      have h := readCondition_eq_some_iff.2 ⟨hc', hb⟩
      rw [readCondition_eq_some_iff.2 ⟨hc, rfl⟩] at h
      exact congrArg some (Prod.mk.inj (Option.some.inj h)).1.symm
    | unclosed hu => exact absurd rfl (hu c rest hc)
  obtain ⟨before, after, hall⟩ := List.append_of_mem hm
  rw [hfilter, String.ofList_toList] at hd
  obtain ⟨s', opening, body, closing, -, -, hs, hw, -⟩ := within_of_foreach hp hall hd
  obtain rfl := Subject.name_injective hs
  exact ⟨opening, body, closing, hw⟩

/-- The first bracket of a walk is that of the first block. -/
theorem exists_first_block {nodes : List Node} {head : Head} {line : Nat} {l : List Bracket}
    (h : bracketsAll nodes = .opens head line :: l) :
    ∃ before opening body closing after,
      nodes = before ++ .block head line opening body closing :: after ∧
        bracketsAll before = [] := by
  induction nodes with
  | nil => cases h
  | cons n nodes ih =>
    cases n with
    | literal line' text =>
      obtain ⟨before, opening, body, closing, after, rfl, hb⟩ := ih h
      exact ⟨.literal line' text :: before, opening, body, closing, after, rfl, hb⟩
    | block head' line' opening body closing =>
      obtain ⟨rfl, rfl⟩ := Bracket.opens.inj (List.cons.inj h).1
      exact ⟨[], opening, body, closing, nodes, rfl, rfl⟩

/-- A condition that is the first directive in a loop is the first block of the loop's body. -/
theorem within_of_loop_of_condition {text clause c rest : List Char} {nodes : List Node}
    {before after : List Mark} {m m' : Mark} {s : Subject} (hp : parse text = .ok nodes)
    (hall : Mark.all text = before ++ m :: m' :: after) (hl : m.Loops s.name.toList clause)
    (ho : ∀ body, ¬ OpensFilter clause body) (ha : m'.Asks (c ++ ')' :: rest))
    (hc : Enclosed c) :
    ∃ opening closing first opening' body closing' last, bracketsAll first = [] ∧
      Within (.block (.loop s none) m.site.line opening
        (first ++ .block (.cond c) m'.site.line opening' body closing' :: last) closing) nodes := by
  have hd := hl.directive_of_not_opensFilter (by rw [hall]; simp) ho
  rw [String.ofList_toList] at hd
  obtain ⟨s', opening, body, closing, -, l, hs, hw, -, -, hafter⟩ := within_of_foreach hp hall hd
  obtain rfl := Subject.name_injective hs
  rw [List.map_cons, Mark.bracket?_of_directive?
    (ha.directive_of_enclosed (by rw [hall]; simp) hc)] at hafter
  -- the body begins with the opening of the condition, as the loop does not end there
  cases hbody : bracketsAll body with
  | nil => rw [hbody] at hafter; cases hafter
  | cons b brackets =>
    rw [hbody] at hafter
    obtain rfl := Option.some.inj (List.cons.inj hafter).1
    obtain ⟨first, opening', inner, closing', last, rfl, hfirst⟩ := exists_first_block hbody
    exact ⟨opening, closing, first, opening', inner, closing', last, hfirst, hw⟩

/-! ### Expanding for a part of a collection -/

/-- The fragments of a part expanded for each of the items in their order, each between the lines of
the item's guard if it has one. -/
def expandEach (r : Registry) (items : List Item) (part : Item → Except Error (List Fragment)) :
    Except Error (List Fragment) :=
  (items.mapM fun i => (part i).map (guarded (i.guard? r))).map List.flatten

/-- The first step and then the others, with what they leave one after the other. -/
theorem flatten_mapM_cons {ε α β : Type} (f : α → Except ε (List β)) (a : α) (l : List α) :
    ((a :: l).mapM f).map List.flatten =
      f a >>= fun b => ((l.mapM f).map List.flatten).map (b ++ ·) := by
  rw [List.mapM_cons, map_bind]
  congr
  funext b
  cases l.mapM f <;> rfl

/-- Steps that are skipped leave nothing behind. -/
theorem flatten_mapM_of_skip {ε α β : Type} {f g : α → Except ε (List β)} {p : α → Bool}
    {l : List α} (h : ∀ a ∈ l, f a = if p a then g a else .ok []) :
    (l.mapM f).map List.flatten = ((l.filter p).mapM g).map List.flatten := by
  induction l with
  | nil => rfl
  | cons a l ih =>
    obtain ⟨ha, hl⟩ := List.forall_mem_cons.1 h
    rw [flatten_mapM_cons, ih hl, ha]
    cases hp : p a with
    | true =>
      rw [List.filter_cons_of_pos hp, flatten_mapM_cons]
      rfl
    | false =>
      rw [List.filter_cons_of_neg (by simp [hp])]
      cases (l.filter p).mapM g <;> rfl

section Expansion

variable {r : Registry} {scope : Scope} {s : Subject} {c : List Char} {p : Item → Bool}

/-- A loop expands its body for the items that its filter lets through. -/
theorem expand_loop (hs : s.owner? = none) {line : Nat} {filter : Option (List Char)}
    (h : ∀ i ∈ s.collection r, (scope.push i).holds line filter = .ok (p i))
    {part : Item → Except Error (List Fragment)} {opening : List Char} {body : List Node}
    {closing : List Char} (hpart : ∀ i ∈ s.collection r, expandAll r (scope.push i) body = part i) :
    Node.expand r scope (.block (.loop s filter) line opening body closing) =
      expandEach r ((s.collection r).filter p) part := by
  have hitems : scope.itemsOf r s line = .ok (s.collection r) := by
    rw [Scope.itemsOf, hs]
  rw [Node.expand, hitems, ok_bind, expandEach, ← flatten_mapM_of_skip, map_eq_bind]
  · rfl
  · intro i hi
    dsimp only
    rw [h i hi, ok_bind, hpart i hi]
    cases p i with
    | false => rfl
    | true => exact (map_eq_bind _ _).symm

/-- The condition has a truth value for every item of the collection, whatever its placeholders
stand for. -/
def Decides (r : Registry) (scope : Scope) (s : Subject) (c : List Char) (p : Item → Bool) : Prop :=
  ∀ i ∈ s.collection r, ∃ text, Placeholder.substitute (scope.push i).values c = .ok text ∧
    evaluate text = .ok (p i)

/-- A condition that is decided holds or not, and never fails. -/
theorem Decides.holds (h : Decides r scope s c p) (line : Nat) :
    ∀ i ∈ s.collection r, (scope.push i).holds line (some c) = .ok (p i) := by
  intro i hi
  obtain ⟨text, htext, hb⟩ := h i hi
  rw [Scope.holds, htext, mapError_eq_ok_iff.2 rfl, ok_bind, hb]
  rfl

/-- The negation of the condition has the other truth value. -/
theorem Decides.negated (h : Decides r scope s c p) :
    Decides r scope s (Condition.negated c) fun i => !p i := by
  intro i hi
  obtain ⟨text, htext, hb⟩ := h i hi
  exact ⟨_, substitute_negated htext, evaluate_negated hb⟩

/-- Nodes one after the other are expanded so, and the first failure counts. -/
theorem expandAll_append (r : Registry) (scope : Scope) (a b : List Node) :
    expandAll r scope (a ++ b) =
      expandAll r scope a >>= fun x => (expandAll r scope b).map (x ++ ·) := by
  -- by induction on the first nodes; without them there is nothing to fail
  induction a with
  | nil => cases h : expandAll r scope b <;> simp [expandAll, h, ok_bind, Except.map]
  | cons n a ih =>
    rw [List.cons_append, expandAll, expandAll, ih]
    cases Node.expand r scope n with
    | error e => rfl
    | ok x =>
      cases expandAll r scope a with
      | error e => rfl
      | ok y =>
        cases expandAll r scope b <;>
          simp [Except.map, bind, Except.bind, pure, Except.pure]

/-- A condition around a part of a body expands it or leaves it out. -/
theorem expandAll_of_condition {inner : Scope} {b : Bool} {line : Nat}
    (h : inner.holds line (some c) = .ok b) (first body last : List Node)
    (opening closing : List Char) :
    expandAll r inner (first ++ .block (.cond c) line opening body closing :: last) = (do
      let before ← expandAll r inner first
      let inside ← (if b then expandAll r inner body else .ok [])
      let behind ← expandAll r inner last
      return before ++ (inside ++ behind)) := by
  rw [expandAll_append, expandAll, Node.expand, h, ok_bind]
  congr
  funext before
  rw [map_bind]
  congr
  funext inside
  cases expandAll r inner last <;> rfl

end Expansion

/-- A condition that has a truth value for every item splits a collection: the loop with it as its
filter expands its body for the items for which it holds, the loop with its negation for the others,
and the loop with its body wrapped in it expands what is wrapped for the same items as the first,
each loop in the order of the collection. -/
theorem complement_of_filters {r : Registry} {scope : Scope} {s : Subject} {c : List Char}
    {p : Item → Bool} {text : List Char} {nodes : List Node} (hs : s.owner? = none)
    (hc : Enclosed c) (hp : Decides r scope s c p) (hparse : parse text = .ok nodes) :
    (∀ m ∈ Mark.all text, ∀ clause rest, m.Loops s.name.toList clause →
      OpensFilter clause (c ++ ')' :: rest) →
      ∃ opening body closing,
        Within (.block (.loop s (some c)) m.site.line opening body closing) nodes ∧
        Node.expand r scope (.block (.loop s (some c)) m.site.line opening body closing) =
          expandEach r ((s.collection r).filter p) fun i => expandAll r (scope.push i) body) ∧
    (∀ m ∈ Mark.all text, ∀ clause rest, m.Loops s.name.toList clause →
      OpensFilter clause (negated c ++ ')' :: rest) →
      ∃ opening body closing,
        Within (.block (.loop s (some (negated c))) m.site.line opening body closing) nodes ∧
        Node.expand r scope (.block (.loop s (some (negated c))) m.site.line opening body closing) =
          expandEach r ((s.collection r).filter fun i => !p i) fun i =>
            expandAll r (scope.push i) body) ∧
    ∀ before m m' after clause rest, Mark.all text = before ++ m :: m' :: after →
      m.Loops s.name.toList clause → (∀ body, ¬ OpensFilter clause body) →
      m'.Asks (c ++ ')' :: rest) →
      ∃ opening closing first opening' body closing' last, bracketsAll first = [] ∧
        Within (.block (.loop s none) m.site.line opening
          (first ++ .block (.cond c) m'.site.line opening' body closing' :: last) closing) nodes ∧
        Node.expand r scope (.block (.loop s none) m.site.line opening
            (first ++ .block (.cond c) m'.site.line opening' body closing' :: last) closing) =
          expandEach r (s.collection r) fun i => do
            let front ← expandAll r (scope.push i) first
            let inside ← (if p i then expandAll r (scope.push i) body else .ok [])
            let behind ← expandAll r (scope.push i) last
            return front ++ (inside ++ behind) := by
  refine ⟨?_, ?_, ?_⟩
  · intro m hm clause rest hl ho
    obtain ⟨opening, body, closing, hw⟩ := within_of_loop hparse hm hl ho hc
    exact ⟨opening, body, closing, hw, expand_loop hs (hp.holds _) fun _ _ => rfl⟩
  · intro m hm clause rest hl ho
    obtain ⟨opening, body, closing, hw⟩ := within_of_loop hparse hm hl ho hc.negated
    exact ⟨opening, body, closing, hw, expand_loop hs (hp.negated.holds _) fun _ _ => rfl⟩
  · intro before m m' after clause rest hall hl ho ha
    obtain ⟨opening, closing, first, opening', body, closing', last, hfirst, hw⟩ :=
      within_of_loop_of_condition hparse hall hl ho ha hc
    refine ⟨opening, closing, first, opening', body, closing', last, hfirst, hw, ?_⟩
    -- without a filter no item is skipped, and the condition decides inside the turn
    calc Node.expand r scope (.block (.loop s none) m.site.line opening
          (first ++ .block (.cond c) m'.site.line opening' body closing' :: last) closing)
        = expandEach r ((s.collection r).filter fun _ => true) _ :=
          expand_loop hs (fun _ _ => rfl) fun i hi =>
            expandAll_of_condition (hp.holds m'.site.line i hi) first body last opening' closing'
      _ = expandEach r (s.collection r) _ := by rw [List.filter_true]

/-- A condition for handles, with a quoted parenthesis. -/
def nameIsA : List Char :=
  "'{hdlName}' == 'A' or '{hdlParent}' == ')'".toList

/-- What stands behind the filter of the second loop in `handlesByName`. -/
def behindNegation : List Char :=
  "y@end handle".toList

/-- What stands behind the filter of the first loop in `handlesByName`. -/
def behindFilter : List Char :=
  "x@end handle @foreach handle where(".toList ++ (negated nameIsA ++ ')' :: behindNegation)

/-- A loop over handles with a filter, and one with its negation. -/
def handlesByName : List Char :=
  "@foreach handle where(".toList ++ (nameIsA ++ ')' :: behindFilter)

/-- The marks of `handlesByName`. -/
def handlesMark (i : Nat) : Mark :=
  (Mark.all handlesByName).getD i ⟨⟨[], [], []⟩, .foreach, none⟩

/-- What stands behind the loop of `handlesWithCondition`. -/
def behindLoop : List Char :=
  " @if(".toList ++ (nameIsA ++ ")z@end if;@end handle".toList)

/-- A loop over handles whose body is wrapped in the condition, up to a semicolon. -/
def handlesWithCondition : List Char :=
  "@foreach handle".toList ++ behindLoop

/-- The marks of `handlesWithCondition`. -/
def conditionMark (i : Nat) : Mark :=
  (Mark.all handlesWithCondition).getD i ⟨⟨[], [], []⟩, .foreach, none⟩

/-- The truth value of `nameIsA` for an item of `twoHandles`. -/
def isA (i : Item) : Bool :=
  i.name = "A"

/-- The body is expanded for the one handle by the filter, for the other one by its negation, and the
loop with the condition inside has a turn for both. -/
theorem complement_of_filters_at_handles :
    (∃ opening body closing,
      Node.expand twoHandles .top (.block (.loop .handle (some nameIsA)) 1 opening body closing) =
        expandEach twoHandles [.handle ⟨"A", none, true⟩] fun i =>
          expandAll twoHandles (Scope.top.push i) body) ∧
    (∃ opening body closing,
      Node.expand twoHandles .top
          (.block (.loop .handle (some (negated nameIsA))) 1 opening body closing) =
        expandEach twoHandles [.handle ⟨"B", some "A", true⟩] fun i =>
          expandAll twoHandles (Scope.top.push i) body) ∧
    ∃ opening closing first opening' body closing' last, bracketsAll first = [] ∧
      Node.expand twoHandles .top (.block (.loop .handle none) 1 opening
          (first ++ .block (.cond nameIsA) 1 opening' body closing' :: last) closing) =
        expandEach twoHandles [.handle ⟨"A", none, true⟩, .handle ⟨"B", some "A", true⟩] fun i => do
          let front ← expandAll twoHandles (Scope.top.push i) first
          let inside ← (if isA i then expandAll twoHandles (Scope.top.push i) body else .ok [])
          let behind ← expandAll twoHandles (Scope.top.push i) last
          return front ++ (inside ++ behind) := by
  have hp : Decides twoHandles .top .handle nameIsA isA := by
    refine List.forall_mem_cons.2 ⟨?_, List.forall_mem_singleton.2 ?_⟩
    · exact ⟨"'A' == 'A' or '' == ')'".toList, by decide +kernel, by decide +kernel⟩
    · exact ⟨"'B' == 'A' or 'A' == ')'".toList, by decide +kernel, by decide +kernel⟩
  have hmarks : (parse handlesByName).isOk = true ∧
      (handlesMark 0 ∈ Mark.all handlesByName ∧ (handlesMark 0).keyword = .foreach ∧
        (handlesMark 0).site.line = 1 ∧
        (handlesMark 0).site.own ++ (handlesMark 0).site.rest = handlesByName) ∧
      handlesMark 2 ∈ Mark.all handlesByName ∧ (handlesMark 2).keyword = .foreach ∧
        (handlesMark 2).site.line = 1 ∧
        (handlesMark 2).site.own ++ (handlesMark 2).site.rest = behindFilter.drop 13 := by
    decide +kernel
  obtain ⟨hok, ⟨hm, hk, hline, ht⟩, hm', hk', hline', ht'⟩ := hmarks
  obtain ⟨nodes, hparse⟩ := isOk_iff.1 hok
  obtain ⟨hfilter, hnegation, -⟩ := complement_of_filters rfl (by decide +kernel) hp hparse
  refine ⟨?_, ?_, ?_⟩
  · have hl : (handlesMark 0).Loops "handle".toList
        (" where(".toList ++ (nameIsA ++ ')' :: behindFilter)) :=
      .of_space hk (by decide +kernel) ht
    obtain ⟨opening, body, closing, -, he⟩ :=
      hfilter _ hm _ _ hl ⟨[' '], [], by simp [isGap], rfl⟩
    rw [hline] at he
    exact ⟨opening, body, closing, he⟩
  · have hl : (handlesMark 2).Loops "handle".toList
        (" where(".toList ++ (negated nameIsA ++ ')' :: behindNegation)) :=
      .of_space hk' (by decide +kernel) ht'
    obtain ⟨opening, body, closing, -, he⟩ :=
      hnegation _ hm' _ _ hl ⟨[' '], [], by simp [isGap], rfl⟩
    rw [hline'] at he
    exact ⟨opening, body, closing, he⟩
  · have hcondition : (parse handlesWithCondition).isOk = true ∧
        Mark.all handlesWithCondition =
          [] ++ conditionMark 0 :: conditionMark 1 :: (Mark.all handlesWithCondition).drop 2 ∧
        ((conditionMark 0).keyword = .foreach ∧ (conditionMark 0).site.line = 1 ∧
          (conditionMark 0).site.own ++ (conditionMark 0).site.rest = handlesWithCondition) ∧
        (conditionMark 1).keyword = .cond ∧ (conditionMark 1).site.line = 1 ∧
          (conditionMark 1).site.own ++ (conditionMark 1).site.rest = behindLoop.drop 1 := by
      decide +kernel
    obtain ⟨hok, hall, ⟨hk, hline, ht⟩, hk', hline', ht'⟩ := hcondition
    obtain ⟨nodes, hparse⟩ := isOk_iff.1 hok
    have hl : (conditionMark 0).Loops "handle".toList behindLoop :=
      .of_space hk (by decide +kernel) ht
    have hnone : ∀ body, ¬ OpensFilter behindLoop body := fun body ho => by
      have hbody := filterBody?_eq_some_iff.2 ho
      rw [show filterBody? behindLoop = none by decide +kernel] at hbody
      cases hbody
    have ha : (conditionMark 1).Asks (nameIsA ++ ')' :: "z@end if;@end handle".toList) :=
      ⟨hk', [], nofun, ht'⟩
    obtain ⟨opening, closing, first, opening', body, closing', last, hfirst, -, he⟩ :=
      (complement_of_filters rfl (by decide +kernel) hp hparse).2.2 _ _ _ _ _ _ hall hl hnone ha
    rw [hline, hline'] at he
    exact ⟨opening, closing, first, opening', body, closing', last, hfirst, he⟩

end ApiStencil.Template
