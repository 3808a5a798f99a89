/-
ApiStencil/Proofs/Template/Nesting.lean

Which templates nest well, and what is wrong with the others.

A directive opens a block or closes one (`Bracket`).  `Balanced` says of a sequence
of brackets that each opening is closed by a later closing that names it, properly
nested; `Leaves l stack` says that `l` closes nothing but what it opens and leaves
`stack` open.  `Fault` names the first thing that is wrong with a sequence of marks.
None of the three mentions the reader.

Main result: a template can be read exactly if all its marks are directives over
known subjects and their brackets are balanced; walking the tree then gives the
brackets back (`Walks`); and the error of any other template is its fault
(`parse_nesting`).

The reader keeps a stack of open blocks.  One lemma says what a directive does to
it (`assemble_opens`, `assemble_closes`, `assemble_unknown`); a balanced sequence
leaves the stack as it was (`Balanced.assemble`), and this is what ties the stack to
`Leaves` in both directions.
-/
import ApiStencil.Proofs.Template.Cut
import ApiStencil.Template.Node

namespace ApiStencil.Template

open Segment Node

/-! ### Brackets -/

/-- What a directive does to the nesting. -/
inductive Bracket where
  | opens (head : Head) (line : Nat)
  | closes (word : String)
deriving DecidableEq, Repr

/-- Whether the bracket opens a block. -/
def Bracket.isOpening : Bracket → Bool
  | .opens _ _ => true
  | .closes _ => false

/-- The bracket of a directive on the given line, unless its subject is unknown. -/
def Directive.bracket? (line : Nat) : Directive → Option Bracket
  | .foreach word filter =>
    (Subject.ofName? word).map fun subject => .opens (.loop subject filter) line
  | .cond condition => some (.opens (.cond condition) line)
  | .close word => some (.closes word)

namespace Mark

/-- The bracket of a mark, if a directive over a known subject reads there. -/
def bracket? (m : Mark) : Option Bracket :=
  m.directive?.bind (Directive.bracket? m.site.line)

theorem bracket?_of_directive? {m : Mark} {d : Directive} (h : m.directive? = some d) :
    m.bracket? = d.bracket? m.site.line := by
  rw [bracket?, h]
  rfl

/-- Whether the directive of a mark opens a block. -/
def isOpening (m : Mark) : Bool :=
  match m.directive? with
  | some (.foreach _ _) | some (.cond _) => true
  | _ => false

end Mark

/-- Each opening is closed by a later closing that names it, properly nested. -/
inductive Balanced : List Bracket → Prop
  | nil : Balanced []
  | block {head : Head} {line : Nat} {inner rest : List Bracket} (hi : Balanced inner)
      (hr : Balanced rest) :
      Balanced (.opens head line :: inner ++ .closes head.closingWord :: rest)

/-- `Leaves l stack`: the brackets `l` close nothing but what they open, and leave the blocks of
`stack` open, the innermost first. -/
inductive Leaves : List Bracket → List (Head × Nat) → Prop
  | balanced {l : List Bracket} (h : Balanced l) : Leaves l []
  | opens {l inner : List Bracket} {stack : List (Head × Nat)} {head : Head} {line : Nat}
      (h : Leaves l stack) (hi : Balanced inner) :
      Leaves (l ++ .opens head line :: inner) ((head, line) :: stack)

/-- Nothing is wrong with the marks, which leave the blocks of `stack` open. -/
def Faultless (marks : List Mark) (stack : List (Head × Nat)) : Prop :=
  ∃ l, marks.map Mark.bracket? = l.map some ∧ Leaves l stack

/-- The first fault of a sequence of marks. -/
inductive Fault (marks : List Mark) : Error → Prop
  | malformed {before after : List Mark} {m : Mark} {stack : List (Head × Nat)}
      (hm : marks = before ++ m :: after) (hb : Faultless before stack)
      (hd : m.directive? = none) :
      Fault marks (.malformed m.keyword m.site.line)
  | unknownSubject {before after : List Mark} {m : Mark} {stack : List (Head × Nat)}
      {word : String} {filter : Option (List Char)}
      (hm : marks = before ++ m :: after) (hb : Faultless before stack)
      (hd : m.directive? = some (.foreach word filter)) (hs : Subject.ofName? word = none) :
      Fault marks (.unknownSubject word m.site.line)
  | unmatchedEnd {before after : List Mark} {m : Mark} {word : String}
      (hm : marks = before ++ m :: after) (hb : Faultless before [])
      (hd : m.directive? = some (.close word)) :
      Fault marks (.unmatchedEnd word m.site.line)
  | mismatchedEnd {before after : List Mark} {m : Mark} {stack : List (Head × Nat)}
      {head : Head} {line : Nat} {word : String}
      (hm : marks = before ++ m :: after) (hb : Faultless before ((head, line) :: stack))
      (hd : m.directive? = some (.close word)) (hw : head.closingWord ≠ word) :
      Fault marks (.mismatchedEnd head.closingWord word m.site.line)
  | unclosed {stack : List (Head × Nat)} {head : Head} {line : Nat}
      (hb : Faultless marks ((head, line) :: stack)) :
      Fault marks (.unclosed head.closingWord line)

/-! ### Balanced sequences and open blocks -/

/-- Balanced sequences one after the other are balanced. -/
theorem Balanced.append {a b : List Bracket} (ha : Balanced a) (hb : Balanced b) :
    Balanced (a ++ b) := by
  induction ha with
  | nil => exact hb
  | @block head line inner rest hi _ _ ih =>
    have h : Balanced (.opens head line :: inner ++ .closes head.closingWord :: (rest ++ b)) :=
      .block hi ih
    simpa using h

/-- A balanced sequence leaves no further block open. -/
theorem Leaves.append {l b : List Bracket} {stack : List (Head × Nat)} (h : Leaves l stack)
    (hb : Balanced b) : Leaves (l ++ b) stack := by
  cases h with
  | balanced hl => exact .balanced (hl.append hb)
  | opens hl hi =>
    rw [List.append_assoc]
    exact .opens hl (hi.append hb)

/-- An opening leaves its block open, too. -/
theorem Leaves.push {l : List Bracket} {stack : List (Head × Nat)} (h : Leaves l stack)
    (head : Head) (line : Nat) : Leaves (l ++ [.opens head line]) ((head, line) :: stack) :=
  .opens h .nil

/-- And a closing that names the innermost block closes it. -/
theorem Leaves.pop {l : List Bracket} {stack : List (Head × Nat)} {head : Head} {line : Nat}
    (h : Leaves l ((head, line) :: stack)) :
    Leaves (l ++ [.closes head.closingWord]) stack := by
  cases h with
  | @opens l inner _ _ _ hl hi =>
    have hb : Balanced (.opens head line :: inner ++ [.closes head.closingWord]) := .block hi .nil
    simpa using hl.append hb

/-- At the start of a template no block is open. -/
theorem faultless_nil : Faultless [] [] :=
  ⟨[], rfl, .balanced .nil⟩

/-- So it is for marks: one that opens a block leaves it open. -/
theorem Faultless.push {marks : List Mark} {stack : List (Head × Nat)} {m : Mark} {head : Head}
    {line : Nat} (h : Faultless marks stack) (hm : m.bracket? = some (.opens head line)) :
    Faultless (marks ++ [m]) ((head, line) :: stack) := by
  obtain ⟨l, hl, hs⟩ := h
  refine ⟨l ++ [.opens head line], ?_, hs.push head line⟩
  simp [hl, hm]

/-- One that closes the innermost block leaves the others. -/
theorem Faultless.pop {marks : List Mark} {stack : List (Head × Nat)} {m : Mark} {head : Head}
    {line : Nat} (h : Faultless marks ((head, line) :: stack))
    (hm : m.bracket? = some (.closes head.closingWord)) : Faultless (marks ++ [m]) stack := by
  obtain ⟨l, hl, hs⟩ := h
  refine ⟨l ++ [.closes head.closingWord], ?_, hs.pop⟩
  simp [hl, hm]

/-! ### Walking a tree -/

namespace Node

mutual
/-- The brackets met on the way through a node. -/
def brackets : Node → List Bracket
  | .literal _ _ => []
  | .block head line _ body _ =>
    .opens head line :: bracketsAll body ++ [.closes head.closingWord]

/-- The brackets met on the way through a sequence of nodes. -/
def bracketsAll : List Node → List Bracket
  | [] => []
  | n :: r => brackets n ++ bracketsAll r
end

mutual
/-- The number of blocks in a node. -/
def blockCount : Node → Nat
  | .literal _ _ => 0
  | .block _ _ _ body _ => 1 + blockCountAll body

/-- The number of blocks in a sequence of nodes. -/
def blockCountAll : List Node → Nat
  | [] => 0
  | n :: r => blockCount n + blockCountAll r
end

/-- The heads of the blocks in a sequence of nodes, but not of those inside them. -/
def heads : List Node → List (Head × Nat)
  | [] => []
  | .literal _ _ :: r => heads r
  | .block head line _ _ _ :: r => (head, line) :: heads r

/-- `Within n nodes`: `n` is one of the nodes or inside one of them. -/
inductive Within (n : Node) : List Node → Prop
  | here {nodes : List Node} (h : n ∈ nodes) : Within n nodes
  | inside {nodes body : List Node} {head : Head} {line : Nat} {opening closing : List Char}
      (hb : .block head line opening body closing ∈ nodes) (h : Within n body) : Within n nodes

end Node

/-- The openings in a sequence of brackets that stand inside no other one of it, where `depth` of
those before it are open. -/
def Bracket.direct : Nat → List Bracket → List (Head × Nat)
  | _, [] => []
  | 0, .opens head line :: r => (head, line) :: direct 1 r
  | depth + 1, .opens _ _ :: r => direct (depth + 2) r
  | depth, .closes _ :: r => direct (depth - 1) r

/-- The tree `nodes` is that of the directives of `marks`. -/
structure Walks (marks : List Mark) (nodes : List Node) : Prop where
  /-- Walking the tree gives the brackets of the marks. -/
  reproduces : marks.map Mark.bracket? = (bracketsAll nodes).map some
  /-- There are as many blocks as openings. -/
  count : blockCountAll nodes = marks.countP Mark.isOpening
  /-- The blocks outside all others are those opened outside all others. -/
  roots : heads nodes = Bracket.direct 0 (bracketsAll nodes)
  /-- The children of a block are those opened directly between its opening and its closing. -/
  children : ∀ head line opening body closing,
    Within (.block head line opening body closing) nodes →
      ∃ before after,
        bracketsAll nodes = before ++
          (.opens head line :: bracketsAll body ++ .closes head.closingWord :: after) ∧
        Balanced (bracketsAll body) ∧ heads body = Bracket.direct 0 (bracketsAll body)

namespace Node

theorem bracketsAll_append (a b : List Node) :
    bracketsAll (a ++ b) = bracketsAll a ++ bracketsAll b := by
  induction a with
  | nil => rfl
  | cons n r ih => simp [bracketsAll, ih]

mutual
theorem balanced_brackets (n : Node) : Balanced (brackets n) := by
  cases n with
  | literal => exact .nil
  | block head line opening body closing =>
    exact .block (balanced_bracketsAll body) .nil

/-- A tree has balanced brackets only. -/
theorem balanced_bracketsAll (nodes : List Node) : Balanced (bracketsAll nodes) := by
  cases nodes with
  | nil => exact .nil
  | cons n r => exact (balanced_brackets n).append (balanced_bracketsAll r)
end

mutual
theorem countP_brackets (n : Node) : (brackets n).countP Bracket.isOpening = blockCount n := by
  cases n with
  | literal => rfl
  | block head line opening body closing =>
    rw [brackets, blockCount, List.countP_append, List.countP_cons, countP_bracketsAll body,
      Nat.add_comm 1]
    rfl

/-- There are as many openings as blocks. -/
theorem countP_bracketsAll (nodes : List Node) :
    (bracketsAll nodes).countP Bracket.isOpening = blockCountAll nodes := by
  cases nodes with
  | nil => rfl
  | cons n r => simp [bracketsAll, blockCountAll, countP_brackets n, countP_bracketsAll r]
end

/-- The brackets of a block inside a tree are a part of those of the tree. -/
theorem brackets_of_within {n : Node} {nodes : List Node} (h : Within n nodes) :
    ∃ before after, bracketsAll nodes = before ++ brackets n ++ after := by
  induction h with
  | here h =>
    obtain ⟨a, b, rfl⟩ := List.append_of_mem h
    exact ⟨bracketsAll a, bracketsAll b, by simp [bracketsAll_append, bracketsAll]⟩
  | @inside nodes body head line opening closing hb _ ih =>
    obtain ⟨a, b, rfl⟩ := List.append_of_mem hb
    obtain ⟨before, after, he⟩ := ih
    refine ⟨bracketsAll a ++ .opens head line :: before,
      after ++ .closes head.closingWord :: bracketsAll b, ?_⟩
    simp [bracketsAll_append, bracketsAll, brackets, he]

theorem Within.cons {n n' : Node} {nodes : List Node} (h : Within n nodes) :
    Within n (n' :: nodes) := by
  cases h with
  | here h => exact .here (List.mem_cons_of_mem _ h)
  | inside hb h => exact .inside (List.mem_cons_of_mem _ hb) h

mutual
theorem within_singleton_of_brackets {head : Head} {line : Nat} {before after : List Bracket}
    (n : Node) (h : brackets n = before ++ .opens head line :: after) :
    ∃ opening body closing rest, Within (.block head line opening body closing) [n] ∧
      after = bracketsAll body ++ .closes head.closingWord :: rest := by
  cases n with
  | literal => cases before <;> cases h
  | block head' line' opening body closing =>
    rw [brackets, List.cons_append] at h
    cases before with
    | nil =>
      obtain ⟨he, rfl⟩ := List.cons.inj h
      obtain ⟨rfl, rfl⟩ := Bracket.opens.inj he
      exact ⟨opening, body, closing, [], .here List.mem_cons_self, rfl⟩
    | cons b before =>
      obtain ⟨-, h⟩ := List.cons.inj h
      -- the opening is not the closing of this block, so it is in the body
      rcases List.append_eq_append_iff.1 h with ⟨l, -, hl⟩ | ⟨l, hb, ha⟩
      · have hm : Bracket.opens head line ∈ [Bracket.closes head'.closingWord] := by
          rw [hl]
          simp
        simp at hm
      · cases l with
        | nil => cases ha
        | cons b' l =>
          obtain ⟨rfl, rfl⟩ := List.cons.inj ha
          obtain ⟨opening', body', closing', rest, hw, rfl⟩ := within_of_brackets body hb
          exact ⟨opening', body', closing', rest ++ [.closes head'.closingWord],
            .inside List.mem_cons_self hw, by simp⟩

/-- An opening that the walk through a tree meets is that of a block of the tree, whose body and
closing it meets next. -/
theorem within_of_brackets {head : Head} {line : Nat} {before after : List Bracket}
    (nodes : List Node) (h : bracketsAll nodes = before ++ .opens head line :: after) :
    ∃ opening body closing rest, Within (.block head line opening body closing) nodes ∧
      after = bracketsAll body ++ .closes head.closingWord :: rest := by
  cases nodes with
  | nil => cases before <;> cases h
  | cons n r =>
    rw [bracketsAll] at h
    have hr : ∀ l, bracketsAll r = l ++ .opens head line :: after →
        ∃ opening body closing rest, Within (.block head line opening body closing) (n :: r) ∧
          after = bracketsAll body ++ .closes head.closingWord :: rest := by
      intro l hl
      obtain ⟨opening, body, closing, rest, hw, he⟩ := within_of_brackets r hl
      exact ⟨opening, body, closing, rest, hw.cons, he⟩
    -- the opening is behind the first node, right after it, or in it
    rcases List.append_eq_append_iff.1 h with ⟨l, -, hl⟩ | ⟨l, hb, ha⟩
    · exact hr l hl
    · cases l with
      | nil => exact hr [] ha.symm
      | cons b l =>
        obtain ⟨rfl, rfl⟩ := List.cons.inj ha
        obtain ⟨opening, body, closing, rest, hw, rfl⟩ := within_singleton_of_brackets n hb
        refine ⟨opening, body, closing, rest ++ bracketsAll r, ?_, by simp⟩
        cases hw with
        | here hm =>
          obtain rfl := List.mem_singleton.1 hm
          exact .here List.mem_cons_self
        | inside hm hw =>
          obtain rfl := List.mem_singleton.1 hm
          exact .inside List.mem_cons_self hw
end

end Node

/-! ### Openings outside all others -/

/-- What is balanced inside an open block holds no opening outside all others, and leaves the depth
as it was. -/
theorem Balanced.direct_succ {l : List Bracket} (h : Balanced l) (depth : Nat)
    (r : List Bracket) : Bracket.direct (depth + 1) (l ++ r) = Bracket.direct (depth + 1) r := by
  induction h generalizing depth r with
  | nil => rfl
  | @block head line inner rest _ _ ihi ihr =>
    simp only [List.cons_append, List.append_assoc]
    rw [Bracket.direct, ihi, Bracket.direct, Nat.add_sub_cancel, ihr]

/-- The blocks in a sequence of nodes are those opened outside all others. -/
theorem Node.heads_eq_direct (nodes : List Node) :
    heads nodes = Bracket.direct 0 (bracketsAll nodes) := by
  fun_induction heads nodes with
  | case1 => rfl
  | case2 line text r ih => exact ih
  | case3 head line opening body closing r ih =>
    -- inside the block the depth is not zero, so its openings do not count
    have hb := balanced_bracketsAll body
    simp only [bracketsAll, brackets, List.cons_append, List.append_assoc, Bracket.direct]
    rw [hb.direct_succ, Bracket.direct, ih]
    rfl

/-! ### What a directive does to the stack of the reader -/

section Reader

variable {frames : List Frame} {done : List Node} {line : Nat} {d : Directive}
variable {source : List Char} {r : List Segment}

/-- A directive that opens a block puts it on the stack. -/
theorem assemble_opens {head : Head} {here : Nat}
    (h : d.bracket? line = some (.opens head here)) :
    assemble frames done (.directive line d source :: r) =
      assemble (⟨head, here, source, done⟩ :: frames) [] r := by
  cases d with
  | foreach word filter =>
    obtain ⟨subject, hs, he⟩ := Option.map_eq_some_iff.1 h
    obtain ⟨rfl, rfl⟩ := Bracket.opens.inj he
    simp only [assemble, hs]
  | cond condition =>
    obtain ⟨rfl, rfl⟩ := Bracket.opens.inj (Option.some.inj h)
    rfl
  | close word => cases h

/-- A directive that closes one takes the innermost block off the stack, if there is one and it
names it. -/
theorem assemble_closes {word : String} (h : d.bracket? line = some (.closes word)) :
    d = .close word ∧ assemble frames done (.directive line d source :: r) =
      match frames with
      | [] => .error (.unmatchedEnd word line)
      | f :: frames =>
        if f.head.closingWord = word then
          assemble frames (.block f.head f.line f.opening done.reverse source :: f.before) r
        else .error (.mismatchedEnd f.head.closingWord word line) := by
  cases d with
  | foreach w filter =>
    obtain ⟨subject, -, he⟩ := Option.map_eq_some_iff.1 h
    cases he
  | cond condition => cases h
  | close w =>
    obtain rfl := Bracket.closes.inj (Option.some.inj h)
    refine ⟨rfl, ?_⟩
    cases frames <;> rfl

/-- A directive without a bracket is a loop over an unknown subject, which the reader refuses. -/
theorem assemble_unknown (h : d.bracket? line = none) :
    ∃ word filter, d = .foreach word filter ∧ Subject.ofName? word = none ∧
      assemble frames done (.directive line d source :: r) =
        .error (.unknownSubject word line) := by
  cases d with
  | foreach word filter =>
    have hs := Option.map_eq_none_iff.1 h
    refine ⟨word, filter, rfl, hs, ?_⟩
    simp only [assemble, hs]
  | cond condition => cases h
  | close word => cases h

/-- A directive that is read opens a block, or closes the innermost one. -/
theorem assemble_directive_of_ok {nodes : List Node}
    (h : assemble frames done (.directive line d source :: r) = .ok nodes) :
    (∃ head here, d.bracket? line = some (.opens head here) ∧
        assemble (⟨head, here, source, done⟩ :: frames) [] r = .ok nodes) ∨
      ∃ f rest, frames = f :: rest ∧ d.bracket? line = some (.closes f.head.closingWord) ∧
        assemble rest (.block f.head f.line f.opening done.reverse source :: f.before) r =
          .ok nodes := by
  rcases hb : d.bracket? line with - | ⟨head, here⟩ | word
  · obtain ⟨word, filter, -, -, he⟩ := assemble_unknown hb
    rw [he] at h
    cases h
  · rw [assemble_opens hb] at h
    exact .inl ⟨head, here, rfl, h⟩
  · rw [(assemble_closes hb).2] at h
    cases frames with
    | nil => cases h
    | cons f frames =>
      dsimp only at h
      split at h
      · next hw =>
        subst hw
        exact .inr ⟨f, frames, rfl, rfl, h⟩
      · cases h

end Reader

/-- The open blocks of the reader. -/
def openHeads (frames : List Frame) : List (Head × Nat) :=
  frames.map fun f => (f.head, f.line)

/-- The brackets read so far, but for those inside the innermost open block. -/
def openBrackets : List Frame → List Bracket
  | [] => []
  | f :: r => openBrackets r ++ bracketsAll f.before.reverse ++ [.opens f.head f.line]

/-! ### What the reader accepts -/

/-- The tree that the reader gives has the brackets of the open blocks and of the nodes that were
read before, and behind them those of the marks. -/
theorem bracketsAll_assemble {front : List Char} {segments : List Segment} {marks : List Mark}
    (hc : Cuts front segments marks) :
    ∀ frames done nodes, assemble frames done segments = .ok nodes →
      ∃ l, marks.map Mark.bracket? = l.map some ∧
        bracketsAll nodes = openBrackets frames ++ bracketsAll done.reverse ++ l := by
  -- by induction on the segments; a directive moves between the stack and the nodes read before
  induction hc with
  | last front text =>
    intro frames done nodes h
    cases frames with
    | nil =>
      obtain rfl := Except.ok.inj h
      exact ⟨[], rfl, by simp [openBrackets, bracketsAll_append, bracketsAll, brackets]⟩
    | cons f frames => cases h
  | malformed => intro frames done nodes h; cases h
  | @directive front before m d segments marks hd hf _ ih =>
    intro frames done nodes h
    rw [assemble] at h
    have hm := Mark.bracket?_of_directive? hd
    rcases assemble_directive_of_ok h with ⟨head, here, hb, h⟩ | ⟨f, frames, rfl, hb, h⟩
    · obtain ⟨l, hl, hn⟩ := ih _ _ _ h
      refine ⟨.opens head here :: l, ?_, ?_⟩
      · simp [hl, hm, hb]
      · simp [hn, openBrackets, bracketsAll_append, bracketsAll, brackets]
    · obtain ⟨l, hl, hn⟩ := ih _ _ _ h
      refine ⟨.closes f.head.closingWord :: l, ?_, ?_⟩
      · simp [hl, hm, hb]
      · simp [hn, openBrackets, bracketsAll_append, bracketsAll, brackets]

/-- A template that can be read holds no keyword without a directive. -/
theorem directive?_ne_none_of_parse {text : List Char} {nodes : List Node}
    (h : parse text = .ok nodes) : ∀ m ∈ Mark.all text, m.directive? ≠ none := by
  obtain ⟨l, hl, -⟩ := bracketsAll_assemble (cuts_ofTemplate text) [] [] nodes h
  intro m hm hn
  have hb : none ∈ (Mark.all text).map Mark.bracket? :=
    List.mem_map.2 ⟨m, hm, by rw [Mark.bracket?, hn]; rfl⟩
  rw [hl] at hb
  simp at hb

/-! ### What the reader refuses -/

/-- An error of the reader is the fault of the marks, if nothing was wrong with those before. -/
theorem fault_of_assemble {front : List Char} {segments : List Segment} {marks : List Mark}
    (hc : Cuts front segments marks) :
    ∀ frames done before e, Faultless before (openHeads frames) →
      assemble frames done segments = .error e → Fault (before ++ marks) e := by
  induction hc with
  | last front text =>
    intro frames done before e hb h
    cases frames with
    | nil => cases h
    | cons f frames =>
      obtain rfl := Except.error.inj h
      rw [List.append_nil]
      exact .unclosed hb
  | @malformed front text source m hd hf =>
    intro frames done before e hb h
    obtain rfl := Except.error.inj h
    exact .malformed rfl hb hd
  | @directive front text m d segments marks hd hf _ ih =>
    intro frames done before e hb h
    -- `before` are the marks read so far, and the reader has open what they leave open
    rw [assemble] at h
    have hm := Mark.bracket?_of_directive? hd
    have ha : before ++ m :: marks = before ++ [m] ++ marks := by simp
    rcases hk : d.bracket? m.site.line with - | ⟨head, here⟩ | word
    · obtain ⟨word, filter, rfl, hs, he⟩ := assemble_unknown hk
      rw [he] at h
      obtain rfl := Except.error.inj h
      exact .unknownSubject rfl hb hd hs
    · rw [assemble_opens hk] at h
      rw [ha]
      exact ih (⟨head, here, _, _⟩ :: frames) _ _ _ (hb.push (hm.trans hk)) h
    · obtain ⟨rfl, he⟩ := assemble_closes hk
      rw [he] at h
      cases frames with
      | nil =>
        obtain rfl := Except.error.inj h
        exact .unmatchedEnd rfl hb hd
      | cons f frames =>
        dsimp only at h
        split at h
        · next hw =>
          subst hw
          rw [ha]
          exact ih _ _ _ _ (hb.pop (hm.trans hk)) h
        · next hw =>
          obtain rfl := Except.error.inj h
          exact .mismatchedEnd rfl hb hd hw

/-! ### Balanced sequences leave the stack as it was -/

section Steps

variable {front : List Char} {segments : List Segment} {marks : List Mark} {m : Mark}

/-- The reader comes to the first mark past a literal; if it opens a block, this block is on the
stack then. -/
theorem Cuts.assemble_opens (hc : Cuts front segments (m :: marks)) {head : Head} {line : Nat}
    (hm : m.bracket? = some (.opens head line)) :
    ∃ front' segments', Cuts front' segments' marks ∧ ∀ frames done, ∃ f : Frame,
      (f.head, f.line) = (head, line) ∧
        assemble frames done segments = assemble (f :: frames) [] segments' := by
  cases hc with
  | malformed hd => simp [Mark.bracket?, hd] at hm
  | @directive _ before _ d segments _ hd hf hr =>
    refine ⟨_, segments, hr, fun frames done =>
      ⟨⟨head, line, m.site.taken.own, .literal (lineAfter front) before :: done⟩, rfl, ?_⟩⟩
    rw [Mark.bracket?, hd] at hm
    rw [assemble, Template.assemble_opens hm]

/-- If the first mark closes the innermost block, this block is off the stack then. -/
theorem Cuts.assemble_closes (hc : Cuts front segments (m :: marks)) {word : String}
    (hm : m.bracket? = some (.closes word)) :
    ∃ front' segments', Cuts front' segments' marks ∧
      ∀ (f : Frame) frames done, f.head.closingWord = word → ∃ done',
        assemble (f :: frames) done segments = assemble frames done' segments' := by
  cases hc with
  | malformed hd => simp [Mark.bracket?, hd] at hm
  | @directive _ before _ d segments _ hd hf hr =>
    refine ⟨_, segments, hr, fun f frames done hw => ?_⟩
    rw [Mark.bracket?, hd] at hm
    rw [assemble, (Template.assemble_closes hm).2]
    dsimp only
    rw [if_pos hw]
    exact ⟨_, rfl⟩

/-- So balanced marks leave the stack of the reader as it was. -/
theorem Balanced.assemble {l : List Bracket} (h : Balanced l) :
    ∀ {marks rest : List Mark} {front : List Char} {segments : List Segment},
      marks.map Mark.bracket? = l.map some → Cuts front segments (marks ++ rest) →
      ∀ frames done, ∃ front' segments' done', Cuts front' segments' rest ∧
        assemble frames done segments = assemble frames done' segments' := by
  induction h with
  | nil =>
    intro marks rest front segments hm hc frames done
    obtain rfl := List.map_eq_nil_iff.1 hm
    exact ⟨front, segments, done, hc, rfl⟩
  | @block head line inner more _ _ ihi ihr =>
    intro marks rest front segments hm hc frames done
    -- the marks of the opening, of the inside, of the closing and of what follows
    rw [List.cons_append, List.map_cons, List.map_append, List.map_cons] at hm
    obtain ⟨m, marks, rfl, ho, hm⟩ := List.map_eq_cons_iff.1 hm
    obtain ⟨inside, after, rfl, hi, hm⟩ := List.map_eq_append_iff.1 hm
    obtain ⟨m', marks, rfl, hw, hm⟩ := List.map_eq_cons_iff.1 hm
    simp only [List.cons_append, List.append_assoc] at hc
    obtain ⟨front₁, segments₁, hc, hs⟩ := hc.assemble_opens ho
    obtain ⟨f, hf, hs⟩ := hs frames done
    obtain ⟨front₂, segments₂, done₂, hc, hi⟩ := ihi hi hc (f :: frames) []
    obtain ⟨front₃, segments₃, hc, hw⟩ := hc.assemble_closes hw
    obtain ⟨done₃, hw⟩ := hw f frames done₂ (congrArg (fun p => p.1.closingWord) hf)
    obtain ⟨front₄, segments₄, done₄, hc, hr⟩ := ihr hm hc frames done₃
    exact ⟨front₄, segments₄, done₄, hc, by rw [hs, hi, hw, hr]⟩

/-- Marks without a fault leave the reader with the blocks that they leave open. -/
theorem Faultless.assemble {before rest : List Mark} {stack : List (Head × Nat)}
    (h : Faultless before stack) (hc : Cuts front segments (before ++ rest)) :
    ∃ front' segments' frames done, Cuts front' segments' rest ∧ openHeads frames = stack ∧
      assemble [] [] segments = assemble frames done segments' := by
  obtain ⟨l, hl, hs⟩ := h
  induction hs generalizing before rest with
  | balanced hb =>
    obtain ⟨front', segments', done, hc, ha⟩ := hb.assemble hl hc [] []
    exact ⟨front', segments', [], done, hc, rfl, ha⟩
  | @opens l inner stack head line _ hi ih =>
    rw [List.map_append, List.map_cons] at hl
    obtain ⟨before, after, rfl, hb, hm⟩ := List.map_eq_append_iff.1 hl
    obtain ⟨m, marks, rfl, ho, hm⟩ := List.map_eq_cons_iff.1 hm
    rw [List.append_assoc] at hc
    -- first what leaves `stack` open, then the opening, then what is balanced inside it
    obtain ⟨front₁, segments₁, frames, done₁, hc, hf, h₁⟩ := ih hc hb
    obtain ⟨front₂, segments₂, hc, hs⟩ := hc.assemble_opens ho
    obtain ⟨f, hh, h₂⟩ := hs frames done₁
    obtain ⟨front₃, segments₃, done₃, hc, h₃⟩ := hi.assemble hm hc (f :: frames) []
    refine ⟨front₃, segments₃, f :: frames, done₃, hc, ?_, by rw [h₁, h₂, h₃]⟩
    rw [openHeads, List.map_cons, hh, ← hf]
    rfl

/-- And the fault of the marks is the error of the reader. -/
theorem assemble_of_fault (hc : Cuts front segments marks) {e : Error} (h : Fault marks e) :
    assemble [] [] segments = .error e := by
  cases h with
  -- in each case the marks before the fault lead to it, with the open blocks on the stack
  | malformed hm hb hd =>
    subst hm
    obtain ⟨_, _, frames, done, hc, -, ha⟩ := hb.assemble hc
    rw [ha]
    cases hc with
    | malformed => rfl
    | directive hd' => rw [hd] at hd'; cases hd'
  | unknownSubject hm hb hd hs =>
    subst hm
    obtain ⟨_, _, frames, done, hc, -, ha⟩ := hb.assemble hc
    rw [ha]
    cases hc with
    | malformed hd' => rw [hd] at hd'; cases hd'
    | directive hd' =>
      obtain rfl := Option.some.inj (hd.symm.trans hd')
      simp only [Node.assemble, hs]
  | unmatchedEnd hm hb hd =>
    subst hm
    obtain ⟨_, _, frames, done, hc, hf, ha⟩ := hb.assemble hc
    obtain rfl := List.map_eq_nil_iff.1 hf
    rw [ha]
    cases hc with
    | malformed hd' => rw [hd] at hd'; cases hd'
    | directive hd' =>
      obtain rfl := Option.some.inj (hd.symm.trans hd')
      rfl
  | mismatchedEnd hm hb hd hw =>
    subst hm
    obtain ⟨_, _, frames, done, hc, hf, ha⟩ := hb.assemble hc
    obtain ⟨f, frames, rfl, hh, -⟩ := List.map_eq_cons_iff.1 hf
    obtain ⟨rfl, -⟩ := Prod.mk.inj hh
    rw [ha]
    cases hc with
    | malformed hd' => rw [hd] at hd'; cases hd'
    | directive hd' =>
      obtain rfl := Option.some.inj (hd.symm.trans hd')
      simp only [Node.assemble, if_neg hw]
  -- here the marks before the fault are all of them, so only the last literal is left
  | unclosed hb =>
    rw [← List.append_nil marks] at hc
    obtain ⟨_, _, frames, done, hc, hf, ha⟩ := hb.assemble hc
    obtain ⟨f, frames, rfl, hh, -⟩ := List.map_eq_cons_iff.1 hf
    obtain ⟨rfl, rfl⟩ := Prod.mk.inj hh
    rw [ha]
    cases hc
    rfl

end Steps

/-! ### The main result -/

/-- A mark opens a block if its bracket does. -/
theorem isOpening_eq {m : Mark} {b : Bracket} (h : m.bracket? = some b) :
    m.isOpening = b.isOpening := by
  obtain ⟨d, hd, hb⟩ := Option.bind_eq_some_iff.1 h
  rw [Mark.isOpening, hd]
  cases d with
  | foreach word filter =>
    obtain ⟨subject, -, rfl⟩ := Option.map_eq_some_iff.1 hb
    rfl
  | cond condition =>
    obtain rfl := Option.some.inj hb
    rfl
  | close word =>
    obtain rfl := Option.some.inj hb
    rfl

theorem countP_isOpening {marks : List Mark} {l : List Bracket}
    (h : marks.map Mark.bracket? = l.map some) :
    marks.countP Mark.isOpening = l.countP Bracket.isOpening := by
  induction l generalizing marks with
  | nil =>
    obtain rfl := List.map_eq_nil_iff.1 h
    rfl
  | cons b l ih =>
    obtain ⟨m, marks, rfl, hm, h⟩ := List.map_eq_cons_iff.1 h
    rw [List.countP_cons, List.countP_cons, ih h, isOpening_eq hm]

/-- A template can be read exactly if all its marks are directives over known subjects with
balanced brackets.  Its tree then is the tree of its marks, and otherwise its error is their first
fault. -/
theorem parse_nesting (text : List Char) :
    ((∃ nodes, parse text = .ok nodes) ↔
        ∃ l, (Mark.all text).map Mark.bracket? = l.map some ∧ Balanced l) ∧
      (∀ nodes, parse text = .ok nodes → Walks (Mark.all text) nodes) ∧
      ∀ e, parse text = .error e ↔ Fault (Mark.all text) e := by
  have hc := cuts_ofTemplate text
  refine ⟨⟨?_, ?_⟩, ?_, ?_⟩
  · -- the brackets of the marks are those of the tree, and a tree is balanced
    rintro ⟨nodes, h⟩
    obtain ⟨l, hl, hn⟩ := bracketsAll_assemble hc [] [] nodes h
    refine ⟨l, hl, ?_⟩
    rw [show l = bracketsAll nodes by rw [hn]; rfl]
    exact balanced_bracketsAll nodes
  · -- balanced marks leave no block open, so only the last literal is left to read
    rintro ⟨l, hl, hb⟩
    have hfault : Faultless (Mark.all text) [] := ⟨l, hl, .balanced hb⟩
    rw [← List.append_nil (Mark.all text)] at hc
    obtain ⟨_, _, frames, done, hc, hf, ha⟩ := hfault.assemble hc
    obtain rfl := List.map_eq_nil_iff.1 hf
    cases hc
    exact ⟨_, ha⟩
  · intro nodes h
    obtain ⟨l, hl, hn⟩ := bracketsAll_assemble hc [] [] nodes h
    have hl : (Mark.all text).map Mark.bracket? = (bracketsAll nodes).map some := by
      rw [hl, hn]
      rfl
    refine ⟨hl, ?_, heads_eq_direct nodes, ?_⟩
    · rw [countP_isOpening hl, countP_bracketsAll]
    · intro head line opening body closing hw
      obtain ⟨before, after, he⟩ := brackets_of_within hw
      refine ⟨before, after, ?_, balanced_bracketsAll body, heads_eq_direct body⟩
      rw [he]
      simp [brackets]
  · intro e
    refine ⟨fault_of_assemble hc [] [] [] e faultless_nil, assemble_of_fault hc⟩

end ApiStencil.Template
