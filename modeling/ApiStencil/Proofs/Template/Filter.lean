/-
ApiStencil/Proofs/Template/Filter.lean

When a loop is filtered.  `Mark.Loops m subject clause` says that the text of the mark
`m` starts a loop over the word `subject`, with `clause` behind the word, and
`OpensFilter clause body` that the clause is the beginning of a filter, with `body`
behind its parenthesis.

Main result: such a loop is filtered by the enclosed text up to the closing
parenthesis, as its block in the tree is; but a filter that is never closed is no
filter, the template is read without it and the clause is text of the loop's body
(`filters_loop`).  The condition of an `@if` that is never closed is refused, as the
last part of the theorem says; the counterexample is a template that is read although
its filter is not closed.
-/
import ApiStencil.Proofs.Template.Alone
import ApiStencil.Proofs.Template.Enclosed
import ApiStencil.Proofs.Template.EndsLine
import ApiStencil.Proofs.Template.Nesting

namespace ApiStencil.Template

open Text Segment Node

/-! ### Words and filters -/

/-- The text is the beginning of a filter, up to its parenthesis, with `body` behind it. -/
def OpensFilter (clause body : List Char) : Prop :=
  ∃ gap gap', (∀ c ∈ gap ++ gap', isGap c = true) ∧
    clause = gap ++ "where".toList ++ gap' ++ '(' :: body

/-- `Filters clause body filter rest`: the filter with which `clause` begins, where `body` stands
behind its parenthesis, is `filter`, and `rest` is the text behind the filter. -/
inductive Filters (clause body : List Char) : Option (List Char) → List Char → Prop
  | closed {c rest : List Char} (hc : Enclosed c) (hb : body = c ++ ')' :: rest) :
      Filters clause body (some c) rest
  | unclosed (h : Unclosed body) : Filters clause body none clause

theorem not_isWordChar_of_isGap {c : Char} (h : isGap c = true) : isWordChar c = false := by
  simp only [isGap, Bool.or_eq_true, decide_eq_true_eq] at h
  rcases h with rfl | rfl <;> decide

/-- A word behind a gap is read to its end. -/
theorem readSpacedWord_append_append {gap word rest : List Char} (hgap : gap ≠ [])
    (hgaps : ∀ c ∈ gap, isGap c = true) (hword : word ≠ [])
    (hwords : ∀ c ∈ word, isWordChar c = true) (hrest : rest.head?.any isWordChar = false) :
    readSpacedWord (gap ++ word ++ rest) = some (word, rest) := by
  obtain ⟨g, gap, rfl⟩ := List.exists_cons_of_ne_nil hgap
  obtain ⟨w, word, rfl⟩ := List.exists_cons_of_ne_nil hword
  have hg := hgaps g List.mem_cons_self
  have hw := hwords w List.mem_cons_self
  have hwg : isGap w = false := by
    rw [Bool.eq_false_iff]
    intro h
    rw [not_isWordChar_of_isGap h] at hw
    cases hw
  have hdrop : (g :: gap ++ w :: word ++ rest).dropWhile isGap = w :: word ++ rest := by
    rw [List.append_assoc, List.dropWhile_append_of_pos hgaps, List.cons_append,
      List.dropWhile_cons_of_neg (by simp [hwg])]
  -- the word ends where `rest` begins
  have htake : rest.takeWhile isWordChar = [] ∧ rest.dropWhile isWordChar = rest := by
    cases rest with
    | nil => exact ⟨rfl, rfl⟩
    | cons c rest =>
      have hc : ¬ isWordChar c = true := by simpa using hrest
      exact ⟨List.takeWhile_cons_of_neg hc, List.dropWhile_cons_of_neg hc⟩
  unfold readSpacedWord
  rw [hdrop]
  simp only [List.takeWhile_append_of_pos hwords, List.dropWhile_append_of_pos hwords, htake,
    List.append_nil]
  simp [hg, hw]

/-- Behind the opening of a filter, the text in its parentheses is read. -/
theorem readFilter_of_opensFilter {clause body : List Char} (h : OpensFilter clause body) :
    readFilter clause = readCondition ⟨0, none⟩ body := by
  rw [readFilter_eq_bind, filterBody?_eq_some_iff.2 h, Option.bind_some]

/-- Behind the parenthesis of a filter stands its condition, or the filter is not closed. -/
theorem exists_filters (clause body : List Char) :
    ∃ filter rest, Filters clause body filter rest := by
  cases h : readCondition ⟨0, none⟩ body with
  | none =>
    exact ⟨none, clause, .unclosed (readCondition_eq_none_iff.1 h)⟩
  | some p =>
    obtain ⟨hc, hb⟩ := readCondition_eq_some_iff.1 h
    exact ⟨some p.1, p.2, .closed hc hb⟩

/-! ### Marks of loops and conditions -/

namespace Mark

/-- The mark is that of a loop over the word `subject`, with `clause` behind the word. -/
structure Loops (m : Mark) (subject clause : List Char) : Prop where
  keyword : m.keyword = .foreach
  ne_nil : subject ≠ []
  word : ∀ c ∈ subject, isWordChar c = true
  ends : clause.head?.any isWordChar = false
  text : ∃ gap, gap ≠ [] ∧ (∀ c ∈ gap, isGap c = true) ∧
    m.site.own ++ m.site.rest = "@foreach".toList ++ (gap ++ subject ++ clause)

/-- A loop with one space in front of its word. -/
theorem Loops.of_space {m : Mark} {subject clause : List Char} (hk : m.keyword = .foreach)
    (hw : subject ≠ [] ∧ subject.all isWordChar = true ∧ clause.head?.any isWordChar = false)
    (ht : m.site.own ++ m.site.rest = "@foreach ".toList ++ (subject ++ clause)) :
    m.Loops subject clause :=
  ⟨hk, hw.1, List.all_eq_true.1 hw.2.1, hw.2.2, [' '], List.cons_ne_nil _ _, by simp [isGap], ht⟩

/-- The mark is that of a condition, with `body` behind its parenthesis. -/
structure Asks (m : Mark) (body : List Char) : Prop where
  keyword : m.keyword = .cond
  text : ∃ gap, (∀ c ∈ gap, isGap c = true) ∧
    m.site.own ++ m.site.rest = "@if".toList ++ (gap ++ '(' :: body)

/-- The directive of a mark is the one that reads behind its keyword, and what follows the mark is
what that directive leaves. -/
theorem read_of_mem {front s : List Char} {m : Mark} (hm : m ∈ allFrom front s)
    (after : List Char) (ht : m.site.own ++ m.site.rest = '@' :: m.keyword.word ++ after) :
    Directive.read m.keyword after = m.directive?.map (·, m.site.rest) := by
  fun_induction allFrom front s with
  | case1 => cases hm
  | case2 front c r hk ih => exact ih hm
  | case3 front c r k after' hk hd =>
    obtain rfl := List.mem_singleton.1 hm
    dsimp only at ht ⊢
    rw [keyword?_eq_some hk, inFrontOf_append] at ht
    rw [← List.append_cancel_left ht, hd]
    rfl
  -- the mark here, or one behind what it takes
  | case4 front c r k after' hk d rest hd own ih =>
    rcases List.mem_cons.1 hm with rfl | hm
    · have hown := inFrontOf_read hd
      rw [← keyword?_eq_some hk] at hown
      dsimp only at ht ⊢
      rw [hown, keyword?_eq_some hk] at ht
      rw [← List.append_cancel_left ht, hd]
      rfl
    · exact ih hm

variable {text subject clause body : List Char} {filter : Option (List Char)} {m : Mark}

/-- What reads at a loop: the word of its subject, and a filter if one can be read behind it. -/
theorem Loops.read (hm : m ∈ all text) (hl : m.Loops subject clause) :
    m.directive?.map (·, m.site.rest) =
      some (match readFilter clause with
        | some (filter, rest) => (.foreach (String.ofList subject) (some filter), rest)
        | none => (.foreach (String.ofList subject) none, clause)) := by
  obtain ⟨hk, hne, hword, hends, gap, hgap, hgaps, ht⟩ := hl
  rw [← read_of_mem hm (gap ++ subject ++ clause) (by rw [hk]; exact ht), hk,
    Directive.read, readSpacedWord_append_append hgap hgaps hne hword hends]
  rfl

/-- What a mark reads is its directive, and what is left follows it. -/
theorem directive_of_map {d : Directive} {rest : List Char}
    (h : m.directive?.map (·, m.site.rest) = some (d, rest)) :
    m.directive? = some d ∧ m.site.rest = rest := by
  obtain ⟨d', hd, he⟩ := Option.map_eq_some_iff.1 h
  obtain ⟨rfl, hr⟩ := Prod.mk.inj he
  exact ⟨hd, hr⟩

/-- The directive of a loop that opens a filter. -/
theorem Loops.directive (hm : m ∈ all text) (hl : m.Loops subject clause)
    (ho : OpensFilter clause body) :
    ∃ filter, Filters clause body filter m.site.rest ∧
      m.directive? = some (.foreach (String.ofList subject) filter) := by
  have hread := hl.read hm
  rw [readFilter_of_opensFilter ho] at hread
  obtain ⟨filter, rest, hf⟩ := exists_filters clause body
  cases hf with
  | closed hc hb =>
    rw [readCondition_eq_some_iff.2 ⟨hc, hb⟩] at hread
    obtain ⟨hd, rfl⟩ := directive_of_map hread
    exact ⟨_, .closed hc hb, hd⟩
  | unclosed hu =>
    rw [readCondition_eq_none_iff.2 hu] at hread
    obtain ⟨hd, hr⟩ := directive_of_map hread
    rw [hr]
    exact ⟨none, .unclosed hu, hd⟩

/-- The directive of a loop that opens no filter. -/
theorem Loops.directive_of_not_opensFilter (hm : m ∈ all text) (hl : m.Loops subject clause)
    (ho : ∀ body, ¬ OpensFilter clause body) :
    m.directive? = some (.foreach (String.ofList subject) none) := by
  have hread := hl.read hm
  rw [readFilter_eq_bind, Option.eq_none_iff_forall_ne_some.2
    fun body hb => ho body (filterBody?_eq_some_iff.1 hb)] at hread
  exact (directive_of_map hread).1

/-- What reads at a condition: the text up to the parenthesis that closes it. -/
theorem Asks.read (hm : m ∈ all text) (ha : m.Asks body) :
    m.directive?.map (·, m.site.rest) =
      (readCondition ⟨0, none⟩ body).map fun p => (.cond p.1, p.2) := by
  obtain ⟨hk, gap, hgaps, ht⟩ := ha
  have hopen : (gap ++ '(' :: body).dropWhile isGap = '(' :: body := by
    rw [List.dropWhile_append_of_pos hgaps]
    rfl
  rw [← read_of_mem hm (gap ++ '(' :: body) (by rw [hk]; exact ht), hk, Directive.read,
    hopen]
  rfl

/-- The directive of a condition holds the enclosed text. -/
theorem Asks.directive_of_enclosed (hm : m ∈ all text) {c rest : List Char}
    (ha : m.Asks (c ++ ')' :: rest)) (hc : Enclosed c) : m.directive? = some (.cond c) := by
  have hread := ha.read hm
  rw [readCondition_eq_some_iff.2 ⟨hc, rfl⟩] at hread
  exact (directive_of_map hread).1

/-- A condition that is never closed is no directive. -/
theorem Asks.directive_of_unclosed (hm : m ∈ all text) (ha : m.Asks body)
    (hu : Unclosed body) : m.directive? = none := by
  have hread := ha.read hm
  rw [readCondition_eq_none_iff.2 hu] at hread
  exact Option.map_eq_none_iff.1 hread

end Mark

/-! ### The blocks of loops -/

/-- A mark that opens a block is that of a block in the tree, at the same place of the walk: the
marks in front of it are those met before, and behind it come those of the body. -/
theorem within_of_mark {text : List Char} {nodes : List Node} {before after : List Mark} {m : Mark}
    {head : Head} {line : Nat} (hp : parse text = .ok nodes)
    (hm : Mark.all text = before ++ m :: after) (hb : m.bracket? = some (.opens head line)) :
    ∃ opening body closing l l', Within (.block head line opening body closing) nodes ∧
      bracketsAll nodes = l ++ brackets (.block head line opening body closing) ++ l' ∧
        before.map Mark.bracket? = l.map some ∧
        after.map Mark.bracket? =
          (bracketsAll body ++ .closes head.closingWord :: l').map some := by
  obtain ⟨walk, hl, hn⟩ := bracketsAll_assemble (cuts_ofTemplate text) [] [] nodes hp
  rw [hm, List.map_append, List.map_cons] at hl
  obtain ⟨l, l', rfl, hbefore, hrest⟩ := List.map_eq_append_iff.1 hl.symm
  obtain ⟨b, l', rfl, he, hafter⟩ := List.map_eq_cons_iff.1 hrest
  rw [hb] at he
  obtain rfl := Option.some.inj he
  obtain ⟨opening, body, closing, rest, hw, rfl⟩ := within_of_brackets nodes hn
  refine ⟨opening, body, closing, l, rest, hw, ?_, hbefore.symm, hafter.symm⟩
  rw [hn]
  simp [openBrackets, bracketsAll, Node.brackets]

/-- A loop whose directive can be read has a known subject in a template that is read, and is that
of a block in the tree. -/
theorem within_of_foreach {text : List Char} {nodes : List Node} {before after : List Mark}
    {m : Mark} {word : String} {filter : Option (List Char)} (hp : parse text = .ok nodes)
    (hm : Mark.all text = before ++ m :: after) (hd : m.directive? = some (.foreach word filter)) :
    ∃ s opening body closing l l', s.name = word ∧
      Within (.block (.loop s filter) m.site.line opening body closing) nodes ∧
        bracketsAll nodes =
          l ++ brackets (.block (.loop s filter) m.site.line opening body closing) ++ l' ∧
        before.map Mark.bracket? = l.map some ∧
        after.map Mark.bracket? =
          (bracketsAll body ++ .closes (Head.loop s filter).closingWord :: l').map some := by
  have hb := Mark.bracket?_of_directive? hd
  rcases hs : Subject.ofName? word with - | s
  · -- every mark of a template that is read has a bracket
    obtain ⟨l, hl, -⟩ := bracketsAll_assemble (cuts_ofTemplate text) [] [] nodes hp
    have hmem : m ∈ Mark.all text := by rw [hm]; simp
    have hnone : none ∈ (Mark.all text).map Mark.bracket? :=
      List.mem_map.2 ⟨m, hmem, by rw [hb, Directive.bracket?, hs]; rfl⟩
    rw [hl] at hnone
    simp at hnone
  · rw [Directive.bracket?, hs] at hb
    obtain ⟨opening, body, closing, l, l', hw⟩ := within_of_mark hp hm hb
    exact ⟨s, opening, body, closing, l, l', Subject.ofName?_eq_some_iff.1 hs, hw⟩

/-- A loop is filtered by the enclosed text behind the opening of its filter.  A filter that is
never closed is none: the loop is read without it, and its text is left.  A condition that is never
closed is refused. -/
theorem filters_loop (text : List Char) :
    (∀ before m after subject clause body, Mark.all text = before ++ m :: after →
      m.Loops subject clause → OpensFilter clause body →
      ∃ filter, Filters clause body filter m.site.rest ∧
        m.directive? = some (.foreach (String.ofList subject) filter) ∧
        ∀ nodes, parse text = .ok nodes →
          ∃ s opening children closing l l', s.name = String.ofList subject ∧
            Within (.block (.loop s filter) m.site.line opening children closing) nodes ∧
            bracketsAll nodes =
              l ++ brackets (.block (.loop s filter) m.site.line opening children closing) ++ l' ∧
            before.map Mark.bracket? = l.map some) ∧
    ∀ before m after body, Mark.all text = before ++ m :: after → m.Asks body →
      Unclosed body → (∀ nodes, parse text ≠ .ok nodes) ∧
        ∀ stack, Faultless before stack → parse text = .error (.malformed .cond m.site.line) := by
  constructor
  · intro before m after subject clause body hm hl ho
    have hmem : m ∈ Mark.all text := by rw [hm]; simp
    obtain ⟨filter, hf, hd⟩ := hl.directive hmem ho
    refine ⟨filter, hf, hd, fun nodes hp => ?_⟩
    obtain ⟨s, opening, children, closing, l, l', hs, hw, hn, hbefore, -⟩ :=
      within_of_foreach hp hm hd
    exact ⟨s, opening, children, closing, l, l', hs, hw, hn, hbefore⟩
  · intro before m after body hm ha hu
    have hmem : m ∈ Mark.all text := by rw [hm]; simp
    have hd := ha.directive_of_unclosed hmem hu
    refine ⟨fun nodes hp => directive?_ne_none_of_parse hp m hmem hd, fun stack hb => ?_⟩
    rw [← ha.keyword]
    exact assemble_of_fault (cuts_ofTemplate text) (.malformed hm hb hd)

/-- A filter in which a parenthesis is quoted. -/
def quotedFilter : List Char :=
  "@foreach function where ('\x7bfuncName\x7d' != ')') x @end function".toList

/-- The loop of `quotedFilter`. -/
def quotedFilterLoop : Mark where
  site :=
    { front := []
      own := "@foreach function where ('\x7bfuncName\x7d' != ')')".toList
      rest := " x @end function".toList }
  keyword := .foreach
  directive? := some (.foreach "function" (some "'\x7bfuncName\x7d' != ')'".toList))

/-- A condition with an apostrophe that no other one follows. -/
def openCondition : List Char :=
  "x\n@if('\x7bfuncName\x7d' == 'it's') y @end if".toList

/-- The condition of `openCondition`. -/
def openConditionMark : Mark where
  site :=
    { front := "x\n".toList
      own := "@if".toList
      rest := "('\x7bfuncName\x7d' == 'it's') y @end if".toList }
  keyword := .cond
  directive? := none

/-- The quoted parenthesis does not close the filter. The condition that is not closed is refused on
its line. -/
theorem filters_loop_at_quoted :
    (∃ filter, Filters " where ('\x7bfuncName\x7d' != ')') x @end function".toList
        "'\x7bfuncName\x7d' != ')') x @end function".toList filter
        " x @end function".toList ∧
      quotedFilterLoop.directive? = some (.foreach "function" filter)) ∧
    parse openCondition = .error (.malformed .cond 2) := by
  refine ⟨?_, ?_⟩
  · have hloop : quotedFilterLoop.Loops "function".toList
        " where ('\x7bfuncName\x7d' != ')') x @end function".toList :=
      .of_space rfl (by decide +kernel) (by decide +kernel)
    have hopens : OpensFilter " where ('\x7bfuncName\x7d' != ')') x @end function".toList
        "'\x7bfuncName\x7d' != ')') x @end function".toList :=
      ⟨[' '], [' '], by simp [isGap], rfl⟩
    obtain ⟨filter, hf, hd, -⟩ := (filters_loop quotedFilter).1 [] quotedFilterLoop
      ((Mark.all quotedFilter).drop 1) _ _ _ (by decide +kernel) hloop hopens
    exact ⟨filter, hf, hd⟩
  · have hasks : openConditionMark.Asks "'\x7bfuncName\x7d' == 'it's') y @end if".toList :=
      ⟨rfl, [], nofun, rfl⟩
    exact ((filters_loop openCondition).2 [] openConditionMark [] _ (by decide +kernel) hasks
      (by decide +kernel)).2 [] faultless_nil

/-- A filter whose parenthesis is not closed. -/
def unclosedFilter : List Char :=
  "@foreach function where(@end function".toList

/-- The loop of `unclosedFilter`. -/
def unclosedFilterLoop : Mark where
  site :=
    { front := []
      own := "@foreach function".toList
      rest := " where(@end function".toList }
  keyword := .foreach
  directive? := some (.foreach "function" none)

/-- A filter that is not closed is not refused, and its loop has none. -/
theorem not_forall_filter_closed :
    ¬ ∀ text m subject clause body, m ∈ Mark.all text → m.Loops subject clause →
      OpensFilter clause body →
      (∀ nodes, parse text = .ok nodes →
        ∃ c, m.directive? = some (.foreach (String.ofList subject) (some c))) ∧
      (Unclosed body → parse text = .error (.malformed .foreach m.site.line)) := by
  intro h
  have hm : unclosedFilterLoop ∈ Mark.all unclosedFilter := by decide +kernel
  have hloop : unclosedFilterLoop.Loops "function".toList " where(@end function".toList :=
    .of_space rfl (by decide +kernel) (by decide +kernel)
  have hopens : OpensFilter " where(@end function".toList "@end function".toList :=
    ⟨[' '], [], by simp [isGap], rfl⟩
  have herror := (h _ _ _ _ _ hm hloop hopens).2 (by decide +kernel)
  have hok : (parse unclosedFilter).isOk = true := by decide +kernel
  rw [herror] at hok
  cases hok

end ApiStencil.Template
