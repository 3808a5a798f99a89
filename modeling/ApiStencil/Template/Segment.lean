/-
ApiStencil/Template/Segment.lean

A template as a sequence of literal texts and directives.  The segments keep the
text they were cut from, so together they are the template again
(`sourceAll_scan`).

A directive that shares its lines with blanks only takes these lines with it, up
to and with the line break after it, unless an earlier directive ends on its
first line.
-/
import ApiStencil.Template.Directive
import ApiStencil.Text.Measure

namespace ApiStencil.Template

open Text

/-- A part of a template.  Lines count from one. -/
inductive Segment where
  /-- Text between directives, with the line on which it starts. -/
  | literal (line : Nat) (text : List Char)
  /-- A directive, the line of its keyword, and the text that it takes. -/
  | directive (line : Nat) (d : Directive) (source : List Char)
  /-- A keyword that no directive follows, and the text from there on. -/
  | malformed (line : Nat) (k : Keyword) (source : List Char)
deriving Repr

namespace Segment

/-- The text that a segment was read from. -/
def source : Segment → List Char
  | .literal _ text => text
  | .directive _ _ source => source
  | .malformed _ _ source => source

def sourceAll (l : List Segment) : List Char :=
  l.flatMap source

/-! ### The lines of a directive -/

/-- What a text holds after its last line feed. -/
def lastLine (s : List Char) : List Char :=
  (s.reverse.takeWhile (· ≠ '\n')).reverse

/-- What a text holds up to and with its last line feed. -/
def throughLastBreak (s : List Char) : List Char :=
  (s.reverse.dropWhile (· ≠ '\n')).reverse

/-- What a text holds before its first line feed. -/
def firstLine (s : List Char) : List Char :=
  s.takeWhile (· ≠ '\n')

/-- What a text holds after its first line feed. -/
def afterFirstBreak (s : List Char) : List Char :=
  (s.dropWhile (· ≠ '\n')).drop 1

/-- Whether a directive between `before` and `after` stands alone on its lines.  `fresh` says that
`before` starts a line. -/
def standsAlone (fresh : Bool) (before after : List Char) : Bool :=
  (fresh || before.contains '\n') && (lastLine before).all isLineBlank &&
    (firstLine after).all isLineBlank

/-! ### Cutting a template into segments -/

theorem length_read_find {s before after rest : List Char} {k : Keyword} {d : Directive}
    (hf : Keyword.find s = some (before, k, after)) (hr : Directive.read k after = some (d, rest)) :
    rest.length < s.length := by
  obtain ⟨a, ha⟩ := Directive.read_suffix hr
  rw [Keyword.find_eq_some hf, ha]
  simp
  omega

/-- The segments of a text, of which `line` is the first line.  `fresh` says that the text starts
that line. -/
def scan (line : Nat) (fresh : Bool) (s : List Char) : List Segment :=
  match _hf : Keyword.find s with
  | none => [.literal line s]
  | some (before, k, after) =>
    let here := line + lineBreaks before
    let fromHere := '@' :: k.word ++ after
    match _hr : Directive.read k after with
    | none => [.literal line before, .malformed here k fromHere]
    | some (d, rest) =>
      if standsAlone fresh before rest then
        let next := afterFirstBreak rest
        let source := lastLine before ++ inFrontOf next fromHere
        .literal line (throughLastBreak before) :: .directive here d source ::
          scan (line + lineBreaks (throughLastBreak before ++ source)) true next
      else
        let source := inFrontOf rest fromHere
        .literal line before :: .directive here d source ::
          scan (line + lineBreaks (before ++ source)) false rest
termination_by s.length
decreasing_by
  · have h1 := length_read_find _hf _hr
    have h2 : (afterFirstBreak rest).length ≤ rest.length := by
      have := (List.dropWhile_sublist (fun c => decide (c ≠ '\n')) (l := rest)).length_le
      simp [afterFirstBreak]
      simp at this
      omega
    omega
  · exact length_read_find _hf _hr

/-! ### What a step of the scan does -/

section Step

variable {line : Nat} {fresh : Bool} {s before after rest : List Char} {k : Keyword}
variable {d : Directive}

theorem scan_of_find_eq_none (hf : Keyword.find s = none) :
    scan line fresh s = [.literal line s] := by
  rw [scan]
  split
  · rfl
  · next h => rw [hf] at h; cases h

theorem scan_of_read_eq_none (hf : Keyword.find s = some (before, k, after))
    (hr : Directive.read k after = none) :
    scan line fresh s =
      [.literal line before,
        .malformed (line + lineBreaks before) k ('@' :: k.word ++ after)] := by
  rw [scan]
  split
  · next h => rw [hf] at h; cases h
  · next h =>
    rw [hf] at h
    cases h
    split
    · rfl
    · next h => rw [hr] at h; cases h

theorem scan_of_read (hf : Keyword.find s = some (before, k, after))
    (hr : Directive.read k after = some (d, rest)) :
    scan line fresh s =
      if standsAlone fresh before rest then
        let next := afterFirstBreak rest
        let source := lastLine before ++ inFrontOf next ('@' :: k.word ++ after)
        .literal line (throughLastBreak before) ::
          .directive (line + lineBreaks before) d source ::
            scan (line + lineBreaks (throughLastBreak before ++ source)) true next
      else
        let source := inFrontOf rest ('@' :: k.word ++ after)
        .literal line before :: .directive (line + lineBreaks before) d source ::
          scan (line + lineBreaks (before ++ source)) false rest := by
  rw [scan]
  split
  · next h => rw [hf] at h; cases h
  · next h =>
    rw [hf] at h
    cases h
    split
    · next h => rw [hr] at h; cases h
    · next h =>
      rw [hr] at h
      cases h
      rfl

end Step

/-- The segments of a template. -/
def ofTemplate (text : List Char) : List Segment :=
  scan 1 true text

/-! ### Nothing is lost -/

theorem throughLastBreak_append_lastLine (s : List Char) :
    throughLastBreak s ++ lastLine s = s := by
  rw [throughLastBreak, lastLine, ← List.reverse_append, List.takeWhile_append_dropWhile,
    List.reverse_reverse]

theorem afterFirstBreak_suffix (s : List Char) : ∃ a, s = a ++ afterFirstBreak s :=
  ⟨s.takeWhile (· ≠ '\n') ++ (s.dropWhile (· ≠ '\n')).take 1, by
    rw [afterFirstBreak, List.append_assoc, List.take_append_drop,
      List.takeWhile_append_dropWhile]⟩

theorem inFrontOf_suffix {rest s : List Char} (h : ∃ a, s = a ++ rest) :
    inFrontOf rest s ++ rest = s := by
  obtain ⟨a, rfl⟩ := h
  rw [inFrontOf_append]

theorem sourceAll_scan (line : Nat) (fresh : Bool) (s : List Char) :
    sourceAll (scan line fresh s) = s := by
  fun_induction scan line fresh s with
  | case1 => simp [sourceAll, source]
  | case2 line fresh s before k after hf _ fromHere hr =>
    simp [sourceAll, source, fromHere, Keyword.find_eq_some hf]
  | case3 line fresh s before k after hf _ fromHere d rest hr _ next src ih =>
    have hw : inFrontOf next fromHere ++ next = fromHere := by
      apply inFrontOf_suffix
      obtain ⟨a, ha⟩ := Directive.read_suffix hr
      obtain ⟨b, hb⟩ := afterFirstBreak_suffix rest
      exact ⟨'@' :: k.word ++ a ++ b, by simp [fromHere, ha, next, ← hb]⟩
    show throughLastBreak before ++ (src ++ sourceAll _) = s
    rw [ih, List.append_assoc, hw, ← List.append_assoc, throughLastBreak_append_lastLine,
      Keyword.find_eq_some hf]
    simp [fromHere]
  | case4 line fresh s before k after hf _ fromHere d rest hr _ src ih =>
    have hw : inFrontOf rest fromHere ++ rest = fromHere := by
      apply inFrontOf_suffix
      obtain ⟨a, ha⟩ := Directive.read_suffix hr
      exact ⟨'@' :: k.word ++ a, by simp [fromHere, ha]⟩
    show before ++ (src ++ sourceAll _) = s
    rw [ih, hw, Keyword.find_eq_some hf]
    simp [fromHere]

end Segment

end ApiStencil.Template
