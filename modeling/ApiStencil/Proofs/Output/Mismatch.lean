/-
ApiStencil/Proofs/Output/Mismatch.lean

What a reported mismatch shows.  Whether a file holds the generated text is decided on the whole
text, but its difference is one of lines, and these come without their breaks.

Main statement: the difference shows a removed or an added line exactly if the texts differ in more
than carriage returns in front of line breaks and the break behind the last line
(`update_verify_shows_iff`).  Otherwise the mismatch is reported with an empty block of lines
(`not_forall_mismatch_shows`).
-/
import ApiStencil.Proofs.Output.Patch
import ApiStencil.Proofs.Output.Write

namespace ApiStencil.Output

open Text (closed plainBreaks)

/-- One of the lines has the mark of a removed or of an added one. -/
def ShowsLine (difference : List Char) : Prop :=
  ∃ line ∈ difference.splitOn '\n', line.head? = some '-' ∨ line.head? = some '+'

/-- The block shows a line if one of its sides has any, since its header begins with neither
mark. -/
theorem Hunk.showsLine_render_iff {h : Hunk} (hl : h.HoldsLines) :
    ShowsLine h.render ↔ h.removed ≠ [] ∨ h.added ≠ [] := by
  rw [ShowsLine, splitOn_render hl, List.cons_append, List.append_assoc]
  constructor
  · rintro ⟨line, hm, hmark⟩
    -- neither the line in front of the block nor the empty text behind it has a mark
    rcases List.mem_cons.1 hm with rfl | hm
    · have hheader : h.header.head? = some '@' := rfl
      simp [hheader] at hmark
    rcases List.mem_append.1 hm with hm | hm
    · exact .inl (List.ne_nil_of_mem (List.mem_map.1 hm).choose_spec.1)
    rcases List.mem_append.1 hm with hm | hm
    · exact .inr (List.ne_nil_of_mem (List.mem_map.1 hm).choose_spec.1)
    · rw [List.mem_singleton.1 hm] at hmark
      simp at hmark
  · rintro (hne | hne)
    · obtain ⟨l, hm⟩ := List.exists_mem_of_ne_nil _ hne
      exact ⟨'-' :: l, by simp [hm], .inl rfl⟩
    · obtain ⟨l, hm⟩ := List.exists_mem_of_ne_nil _ hne
      exact ⟨'+' :: l, by simp [hm], .inr rfl⟩

/-- Lists of lines with nothing between their common ends are equal. -/
theorem Hunk.between_eq_nil_iff {old new : List (List Char)} :
    (between old new).removed = [] ∧ (between old new).added = [] ↔ old = new := by
  obtain ⟨front, back, removed, added, h, rfl, rfl, hhead, -⟩ := between_spec old new
  rw [h, List.append_cancel_right_eq, List.append_cancel_left_eq]
  constructor
  · rintro ⟨rfl, rfl⟩
    rfl
  · rintro rfl
    cases removed with
    | nil => exact ⟨rfl, rfl⟩
    | cons line r => exact absurd ⟨rfl, rfl⟩ (hhead line)

/-- A difference shows a line if the texts have different lines, which do not show carriage returns
in front of their breaks and the break at the end. -/
theorem showsLine_lineDiff_iff (old new : List Char) :
    ShowsLine (lineDiff old new) ↔ closed (plainBreaks old) ≠ closed (plainBreaks new) := by
  rw [lineDiff, Hunk.showsLine_render_iff (Hunk.holdsLines_between old new), ne_eq, ne_eq,
    ne_eq, ← Text.lines_eq_lines_iff, ← not_and_or, Hunk.between_eq_nil_iff]

variable {t : FileTree String} {directory : Path} {written content old : String}

theorem update_verify_of_read (hread : (Route.ofString directory written).read t = .ok old)
    (hne : old ≠ content) : update t directory written content .verify =
      (.ok (.mismatch (String.ofList (lineDiff old.toList content.toList))), t) := by
  have hold := existing_eq_some_iff.2 hread
  simp only [update, hold, compare, if_neg hne, if_true]

/-- A file with another text is reported, and the difference shows a line exactly if more than
carriage returns in front of line breaks and the break behind the last line differ. -/
theorem update_verify_shows_iff (hread : (Route.ofString directory written).read t = .ok old)
    (hne : old ≠ content) : ∃ difference,
      update t directory written content .verify = (.ok (.mismatch difference), t) ∧
        (ShowsLine difference.toList ↔
          closed (plainBreaks old.toList) ≠ closed (plainBreaks content.toList)) := by
  refine ⟨_, update_verify_of_read hread hne, ?_⟩
  rw [String.toList_ofList, showsLine_lineDiff_iff]

/-- A tree with one file. -/
def oneFile (content : String) : FileTree String :=
  .directory [("a.h", .file content)]

/-- The texts differ in a carriage return too, which is not shown, and in a line. -/
theorem update_verify_shows_iff_oneFile : ∃ difference,
    update (oneFile "int x;\r\n") [] "a.h" "int y;\n" .verify =
      (.ok (.mismatch difference), oneFile "int x;\r\n") ∧
        (ShowsLine difference.toList ↔ closed (plainBreaks "int x;\r\n".toList) ≠
          closed (plainBreaks "int y;\n".toList)) :=
  update_verify_shows_iff rfl (by decide)

/-- The break behind the last line makes a mismatch, but no line to show. -/
theorem not_forall_mismatch_shows :
    ¬ ∀ (t : FileTree String) (directory : Path) (written content old difference : String),
      (Route.ofString directory written).read t = .ok old → old ≠ content →
        update t directory written content .verify = (.ok (.mismatch difference), t) →
          ShowsLine difference.toList := by
  intro h
  have hread : (Route.ofString [] "a.h").read (oneFile "int x;") = .ok "int x;" := rfl
  have hne : "int x;" ≠ "int x;\n" := by decide
  have hshows := h _ _ _ _ _ _ hread hne (update_verify_of_read hread hne)
  rw [String.toList_ofList, showsLine_lineDiff_iff] at hshows
  exact hshows (by decide)

end ApiStencil.Output
