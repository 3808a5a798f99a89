/-
ApiStencil/Proofs/Output/Patch.lean

A difference as a patch.  `Hunk.ofText?` reads a block of lines back from its text, and
`Hunk.patch?` puts the block into the lines of an old text: the removed lines have to stand at its
position, and the added ones replace them.

Main statement: the difference of two texts reads as a block that makes the lines of the new text
from those of the old one and, with its two sides swapped, the other way around; the sides share
neither their first nor their last line (`lineDiff_patches`).

The lines that both texts end with are counted on what is left behind the lines that both begin
with.  The decomposition of `between_spec` rests on that: the two common parts cannot overlap.
-/
import Mathlib.Data.List.Basic
import ApiStencil.Output.LineDiff
import ApiStencil.Proofs.Text.Lines
import ApiStencil.Proofs.Text.Numeral
import ApiStencil.Proofs.Text.Run
import ApiStencil.Proofs.Text.Search

namespace ApiStencil.Output

open Text (lines withBreaks isPrefixOf?_append)

/-! ### Common lines -/

section Common

variable {α : Type*} [DecidableEq α]

/-- It does not matter which list is compared with which. -/
theorem commonLength_comm (xs ys : List α) : commonLength xs ys = commonLength ys xs := by
  induction xs generalizing ys with
  | nil => cases ys <;> rfl
  | cons x xs ih =>
    cases ys with
    | nil => rfl
    | cons y ys => simp only [commonLength, ih ys, eq_comm]

/-- Two lists fall apart behind what they begin with in common. -/
theorem exists_common (xs ys : List α) : ∃ front xs' ys', xs = front ++ xs' ∧ ys = front ++ ys' ∧
    front.length = commonLength xs ys ∧ ∀ a, ¬(xs'.head? = some a ∧ ys'.head? = some a) := by
  induction xs generalizing ys with
  | nil => exact ⟨[], [], ys, rfl, rfl, by cases ys <;> rfl, nofun⟩
  | cons x xs ih =>
    cases ys with
    | nil => exact ⟨[], x :: xs, [], rfl, rfl, rfl, nofun⟩
    | cons y ys =>
      by_cases h : x = y
      -- the first members are equal, so the lists fall apart later
      · obtain ⟨front, xs', ys', rfl, rfl, hlen, hhead⟩ := ih ys
        exact ⟨x :: front, xs', ys', rfl, by rw [h]; rfl, by simp [commonLength, h, hlen], hhead⟩
      · exact ⟨[], x :: xs, y :: ys, rfl, rfl, by simp [commonLength, h], by
          rintro a ⟨hx, hy⟩
          exact h (Option.some.inj (hx.trans hy.symm))⟩

end Common

/-! ### Patches -/

namespace Hunk

/-- The block that takes the added lines away again. -/
def swap (h : Hunk) : Hunk :=
  ⟨h.start, h.added, h.removed⟩

/-- The lines with the added ones in place of the removed ones, if these stand at the position of
the block. -/
def patch? (h : Hunk) (old : List (List Char)) : Option (List (List Char)) :=
  if h.start ≤ old.length then
    (h.removed.isPrefixOf? (old.drop h.start)).map (old.take h.start ++ h.added ++ ·)
  else none

/-- The block makes the new lines from the old ones and the other way around, and has no line to
spare at either end. -/
structure Patches (h : Hunk) (old new : List (List Char)) : Prop where
  forward : h.patch? old = some new
  backward : h.swap.patch? new = some old
  first_ne : ∀ line, ¬(h.removed.head? = some line ∧ h.added.head? = some line)
  last_ne : ∀ line, ¬(h.removed.getLast? = some line ∧ h.added.getLast? = some line)

/-- A patch replaces what stands between the lines around it. -/
theorem patch?_append (front removed added back : List (List Char)) :
    patch? ⟨front.length, removed, added⟩ (front ++ removed ++ back) =
      some (front ++ added ++ back) := by
  have hle : front.length ≤ (front ++ (removed ++ back)).length := by simp
  simp only [patch?, List.append_assoc, hle, if_true, List.drop_left, List.take_left,
    isPrefixOf?_append, Option.map_some]

/-- The block is what two lists of lines have between a common front and a common back. -/
theorem between_spec (old new : List (List Char)) : ∃ front back removed added,
    between old new = ⟨front.length, removed, added⟩ ∧ old = front ++ removed ++ back ∧
      new = front ++ added ++ back ∧
        (∀ line, ¬(removed.head? = some line ∧ added.head? = some line)) ∧
          ∀ line, ¬(removed.getLast? = some line ∧ added.getLast? = some line) := by
  obtain ⟨front, old', new', rfl, rfl, hfront, hhead⟩ := exists_common old new
  -- the common back is looked for behind the common front only
  obtain ⟨back, removed, added, hold, hnew, hback, hlast⟩ :=
    exists_common old'.reverse new'.reverse
  rw [List.reverse_eq_iff, List.reverse_append] at hold hnew
  have hbetween : between (front ++ old') (front ++ new') =
      ⟨front.length, removed.reverse, added.reverse⟩ := by
    have hsize : commonLength old'.reverse new'.reverse = back.reverse.length := by
      rw [← hback, List.length_reverse]
    simp only [between, ← hfront, List.drop_left, hsize]
    rw [hold, hnew, List.length_append, List.length_append, Nat.add_sub_cancel,
      Nat.add_sub_cancel, List.take_left, List.take_left]
  refine ⟨front, back.reverse, removed.reverse, added.reverse, hbetween, ?_, ?_, ?_, ?_⟩
  · rw [hold, List.append_assoc]
  · rw [hnew, List.append_assoc]
  · rintro line ⟨hr, ha⟩
    refine hhead line ⟨?_, ?_⟩
    · rw [hold, List.head?_append, hr]
      rfl
    · rw [hnew, List.head?_append, ha]
      rfl
  · simpa only [List.getLast?_reverse] using hlast

theorem between_patches (old new : List (List Char)) : (between old new).Patches old new := by
  obtain ⟨front, back, removed, added, h, rfl, rfl, hhead, hlast⟩ := between_spec old new
  rw [h]
  exact ⟨patch?_append front removed added back, patch?_append front added removed back, hhead,
    hlast⟩

theorem between_comm (old new : List (List Char)) : between new old = (between old new).swap := by
  simp only [between, swap, commonLength_comm new old]
  rw [commonLength_comm (List.reverse _)]

/-! ### Reading a block back -/

/-- The text in front of the position and the number of removed lines. -/
def opening : List Char :=
  "@@ -".toList

/-- The text in front of the position and the number of added lines. -/
def middle : List Char :=
  " +".toList

/-- The text behind the numbers. -/
def closing : List Char :=
  " @@".toList

/-- The number that a text starts with and the text behind it. -/
def readNumber? (s : List Char) : Option (Nat × List Char) :=
  (Text.readNat? 10 (s.takeWhile Char.isDigit)).map (·, s.dropWhile Char.isDigit)

/-- The position and the size that a text starts with and the text behind them. -/
def readRange? (s : List Char) : Option ((Nat × Nat) × List Char) := do
  let (position, s) ← readNumber? s
  let s ← [','].isPrefixOf? s
  let (size, s) ← readNumber? s
  return ((position, size), s)

/-- The position of a block, which the line in front of it gives twice, and its two sizes. -/
def readHeader? (line : List Char) : Option (Nat × Nat × Nat) := do
  let s ← opening.isPrefixOf? line
  let ((position, removed), s) ← readRange? s
  let s ← middle.isPrefixOf? s
  let ((position', added), s) ← readRange? s
  if position = position' ∧ s = closing then some (position, removed, added) else none

/-- Lines without the mark that all of them have to begin with. -/
def unmarked? (mark : Char) (ls : List (List Char)) : Option (List (List Char)) :=
  ls.mapM [mark].isPrefixOf?

/-- The block that a text gives: the line with the position and the sizes, then as many removed
and added lines as it says, each with its mark and its line break, and nothing else. -/
def ofText? (text : List Char) : Option Hunk :=
  match text.splitOn '\n' with
  | [] => none
  | header :: body => do
    let (position, r, a) ← readHeader? header
    let removed ← unmarked? '-' (body.take r)
    let added ← unmarked? '+' ((body.drop r).take a)
    if 0 < position ∧ (body.drop r).drop a = [[]] then some ⟨position - 1, removed, added⟩ else none

/-- The line in front of a block. -/
def header (h : Hunk) : List Char :=
  opening ++ range (h.start + 1) h.removed.length ++ middle ++
    range (h.start + 1) h.added.length ++ closing

/-- A block is its header and its marked lines. -/
theorem render_eq_header_append (h : Hunk) :
    h.render = h.header ++ '\n' :: (marked '-' h.removed ++ marked '+' h.added) := by
  have hrender : h.render = opening ++ range (h.start + 1) h.removed.length ++ middle ++
      range (h.start + 1) h.added.length ++ (closing ++ ['\n']) ++ marked '-' h.removed ++
        marked '+' h.added := rfl
  rw [hrender, header]
  simp only [List.append_assoc, List.cons_append, List.nil_append]

theorem marked_eq_withBreaks (mark : Char) (ls : List (List Char)) :
    marked mark ls = withBreaks (ls.map (mark :: ·)) := by
  rw [withBreaks, List.flatMap_map]
  rfl

theorem render_eq_withBreaks (h : Hunk) : h.render =
    withBreaks (h.header :: (h.removed.map ('-' :: ·) ++ h.added.map ('+' :: ·))) := by
  rw [render_eq_header_append, marked_eq_withBreaks, marked_eq_withBreaks, Text.withBreaks_cons,
    withBreaks, withBreaks, withBreaks, ← List.flatMap_append]

/-- A number is read to its last digit. -/
theorem readNumber?_append (n : Nat) {s : List Char} (hs : ∀ c ∈ s.head?, c.isDigit = false) :
    readNumber? ((toString n).toList ++ s) = some (n, s) := by
  have hdigits := (Text.digits_toString n).2.1
  rw [readNumber?, Text.takeWhile_append_of_stop hdigits hs,
    Text.dropWhile_append_of_stop hdigits hs, Text.readNat?_toString]
  rfl

/-- A position and a size are read if no digit follows. -/
theorem readRange?_append (position size : Nat) {s : List Char}
    (hs : ∀ c ∈ s.head?, c.isDigit = false) :
    readRange? (range position size ++ s) = some ((position, size), s) := by
  have hrange : range position size ++ s =
      (toString position).toList ++ ([','] ++ ((toString size).toList ++ s)) := by
    simp [range]
  have hcomma : ∀ c ∈ ([','] ++ ((toString size).toList ++ s)).head?, c.isDigit = false :=
    Text.head?_cons_stops (by rfl)
  simp only [hrange, readRange?, readNumber?_append _ hcomma, isPrefixOf?_append,
    readNumber?_append _ hs, Option.bind_eq_bind, Option.bind_some]
  rfl

/-- The header of a block says where it is and how many lines it has on each side. -/
theorem readHeader?_header (h : Hunk) :
    readHeader? h.header = some (h.start + 1, h.removed.length, h.added.length) := by
  have hmiddle (s : List Char) : ∀ c ∈ (middle ++ s).head?, c.isDigit = false :=
    Text.head?_cons_stops (by rfl)
  have hclosing : ∀ c ∈ closing.head?, c.isDigit = false := Text.head?_cons_stops (by rfl)
  simp only [readHeader?, header, List.append_assoc, isPrefixOf?_append,
    readRange?_append _ _ (hmiddle _), readRange?_append _ _ hclosing, Option.bind_eq_bind,
    Option.bind_some, and_self, if_true]

/-- Marks that were put are taken away. -/
theorem unmarked?_map (mark : Char) (ls : List (List Char)) :
    unmarked? mark (ls.map (mark :: ·)) = some ls := by
  have hmark : [mark].isPrefixOf? ∘ (mark :: ·) = some := by
    funext l
    exact isPrefixOf?_append [mark] l
  rw [unmarked?, List.mapM_map, hmark]
  induction ls with
  | nil => rfl
  | cons l ls ih =>
    rw [List.mapM_cons, ih]
    rfl

theorem break_not_mem_range (position size : Nat) : '\n' ∉ range position size := by
  have hdigits (n : Nat) : '\n' ∉ (toString n).toList :=
    Text.not_mem_of_class (Text.digits_toString n).2.1 (by rfl)
  rw [range, String.toList_append, String.toList_append, List.mem_append, List.mem_append]
  exact not_or.2 ⟨not_or.2 ⟨hdigits position, by decide⟩, hdigits size⟩

theorem break_not_mem_header (h : Hunk) : '\n' ∉ h.header := by
  have hopening : '\n' ∉ opening := by decide
  have hmiddle : '\n' ∉ middle := by decide
  have hclosing : '\n' ∉ closing := by decide
  simp [header, hopening, hmiddle, hclosing, break_not_mem_range]

/-- Nothing in the block is more than a line. -/
def HoldsLines (h : Hunk) : Prop :=
  ∀ l ∈ h.removed ++ h.added, '\n' ∉ l

theorem HoldsLines.swap {h : Hunk} (hl : h.HoldsLines) : h.swap.HoldsLines := fun l hm =>
  hl l (List.mem_append.2 (List.mem_append.1 hm).symm)

/-- What the lines of the text of a block are: the text ends with a break. -/
theorem splitOn_render {h : Hunk} (hl : h.HoldsLines) : h.render.splitOn '\n' =
    h.header :: (h.removed.map ('-' :: ·) ++ h.added.map ('+' :: ·)) ++ [[]] := by
  have hmarked {mark : Char} (hmark : '\n' ≠ mark) {ls : List (List Char)}
      (hls : ∀ l ∈ ls, '\n' ∉ l) : ∀ l ∈ ls.map (mark :: ·), '\n' ∉ l :=
    List.forall_mem_map.2 fun l hm => List.not_mem_cons_of_ne_of_not_mem hmark (hls l hm)
  obtain ⟨hremoved, hadded⟩ := List.forall_mem_append.1 hl
  rw [render_eq_withBreaks]
  exact Text.splitOn_withBreaks (List.forall_mem_cons.2 ⟨h.break_not_mem_header,
    List.forall_mem_append.2 ⟨hmarked (by decide) hremoved, hmarked (by decide) hadded⟩⟩)

/-- A block is read back from its text. -/
theorem ofText?_render {h : Hunk} (hl : h.HoldsLines) : ofText? h.render = some h := by
  rw [ofText?, splitOn_render hl]
  simp only [List.cons_append, List.append_assoc, readHeader?_header, Option.bind_eq_bind,
    Option.bind_some]
  rw [List.take_left' (by simp), List.drop_left' (by simp), List.take_left' (by simp),
    List.drop_left' (by simp), unmarked?_map, unmarked?_map]
  simp

/-- What stands between the common ends of two texts are lines of them. -/
theorem holdsLines_between (old new : List Char) :
    (between (lines old) (lines new)).HoldsLines := by
  obtain ⟨front, back, removed, added, h, hold, hnew, -⟩ := between_spec (lines old) (lines new)
  rw [h]
  refine List.forall_mem_append.2 ⟨fun l hl => ?_, fun l hl => ?_⟩
  · exact Text.not_mem_of_mem_lines (s := old) (by simp [hold, hl])
  · exact Text.not_mem_of_mem_lines (s := new) (by simp [hnew, hl])

end Hunk

/-- The difference of two texts reads as a patch between their lines with nothing to spare at
either end, and the difference the other way around as the same patch with its sides swapped. -/
theorem lineDiff_patches (old new : List Char) : ∃ h, Hunk.ofText? (lineDiff old new) = some h ∧
    h.Patches (lines old) (lines new) ∧ Hunk.ofText? (lineDiff new old) = some h.swap := by
  have hl := Hunk.holdsLines_between old new
  refine ⟨Hunk.between (lines old) (lines new), Hunk.ofText?_render hl,
    Hunk.between_patches _ _, ?_⟩
  rw [lineDiff, Hunk.between_comm]
  exact Hunk.ofText?_render hl.swap

/-- The line that is left could be the first or the second one: it counts to the common front. -/
example : lineDiff "a\na\n".toList "a\n".toList = "@@ -2,1 +2,0 @@\n-a\n".toList := by
  decide +kernel

end ApiStencil.Output
