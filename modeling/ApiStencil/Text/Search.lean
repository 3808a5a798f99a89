/-
ApiStencil/Text/Search.lean

Finding one text in another: the first and the last occurrence, and cutting a
text at every occurrence of a separator.  `splitFirst` and `splitLast` return
what stands on either side, so nothing is lost (`splitFirst_eq_some`,
`splitLast_eq_some`).
-/

namespace ApiStencil.Text

variable {α : Type _} [DecidableEq α]

/-- What stands before and after the first occurrence of `needle`. -/
def splitFirst (needle : List α) : List α → Option (List α × List α)
  | [] => if needle = [] then some ([], []) else none
  | c :: r =>
    match needle.isPrefixOf? (c :: r) with
    | some after => some ([], after)
    | none => (splitFirst needle r).map fun (before, after) => (c :: before, after)

/-- What stands before and after the last occurrence of `needle`. -/
def splitLast (needle : List α) : List α → Option (List α × List α)
  | [] => if needle = [] then some ([], []) else none
  | c :: r =>
    match splitLast needle r with
    | some (before, after) => some (c :: before, after)
    | none => (needle.isPrefixOf? (c :: r)).map fun after => ([], after)

/-- Whether `needle` occurs in a text. -/
def occursIn (needle text : List α) : Bool :=
  (splitFirst needle text).isSome

/-- The text without the first occurrence of `needle`. -/
def eraseFirst (needle text : List α) : List α :=
  match splitFirst needle text with
  | some (before, after) => before ++ after
  | none => text

/-- What stands in `text` in front of its last part `rest`. -/
def inFrontOf (rest text : List α) : List α :=
  text.take (text.length - rest.length)

/-! ### Nothing is lost -/

omit [DecidableEq α] in
@[simp] theorem inFrontOf_append (a b : List α) : inFrontOf b (a ++ b) = a := by
  simp [inFrontOf]

theorem eq_append_of_isPrefixOf? {p s r : List α} (h : p.isPrefixOf? s = some r) :
    s = p ++ r := by
  induction p generalizing s with
  | nil => exact Option.some.inj h
  | cons a p ih =>
    cases s with
    | nil => nomatch h
    | cons b s =>
      have h : (if a == b then p.isPrefixOf? s else none) = some r := h
      split at h
      · next hab => simp_all [ih h]
      · simp at h

theorem splitFirst_eq_some {needle text before after : List α}
    (h : splitFirst needle text = some (before, after)) :
    text = before ++ needle ++ after := by
  induction text generalizing before with
  | nil =>
    simp only [splitFirst] at h
    split at h
    · next hn => simp_all
    · simp at h
  | cons c r ih =>
    simp only [splitFirst] at h
    split at h
    · next after' hp =>
      obtain ⟨rfl, rfl⟩ : [] = before ∧ after' = after := by simpa using h
      simpa using eq_append_of_isPrefixOf? hp
    · obtain ⟨⟨b, a⟩, hs, he⟩ := Option.map_eq_some_iff.1 h
      obtain ⟨rfl, rfl⟩ : c :: b = before ∧ a = after := by simpa using he
      simp [ih hs]

theorem splitLast_eq_some {needle text before after : List α}
    (h : splitLast needle text = some (before, after)) :
    text = before ++ needle ++ after := by
  induction text generalizing before after with
  | nil =>
    simp only [splitLast] at h
    split at h
    · next hn => simp_all
    · simp at h
  | cons c r ih =>
    simp only [splitLast] at h
    split at h
    · next b a hs =>
      obtain ⟨rfl, rfl⟩ : c :: b = before ∧ a = after := by simpa using h
      simp [ih hs]
    · obtain ⟨a, hp, he⟩ := Option.map_eq_some_iff.1 h
      obtain ⟨rfl, rfl⟩ : [] = before ∧ a = after := by simpa using he
      simpa using eq_append_of_isPrefixOf? hp

theorem isPrefixOf?_length_lt {p : List α} (hp : p ≠ []) {s r : List α}
    (h : p.isPrefixOf? s = some r) : r.length < s.length := by
  have hs := eq_append_of_isPrefixOf? h
  have : 0 < p.length := List.length_pos_iff.2 hp
  simp [hs]
  omega

/-! ### Cutting at a separator -/

/-- The pieces between the occurrences of the separator `first :: more`, found from
the left and without overlap. -/
def splitAll (first : α) (more text : List α) : List (List α) :=
  match _h : splitFirst (first :: more) text with
  | some (before, after) => before :: splitAll first more after
  | none => [text]
termination_by text.length
decreasing_by
  have := splitFirst_eq_some _h
  simp [this]
  omega

end ApiStencil.Text
