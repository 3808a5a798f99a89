/-
ApiStencil/Proofs/Text/Blank.lean

Blanks around a text.  Trimming takes exactly the blanks away that are put around a text which
has none at its ends (`trim_append_append`), and no character that is printed with ink is one
(`isSpace_eq_false`).
-/
import ApiStencil.Text.Blank
import ApiStencil.Proofs.Text.Run

namespace ApiStencil.Text

variable {a b s : List Char}

/-- Printed characters of ASCII are no blanks. -/
theorem isSpace_eq_false {c : Char} (hlow : 0x20 < c.toNat) (hhigh : c.toNat < 0x7F) :
    isSpace c = false := by
  simp only [isSpace, Bool.or_eq_false_iff, Bool.and_eq_false_iff, decide_eq_false_iff_not,
    beq_eq_false_iff_ne]
  omega

/-- A text without blanks at its ends is what is left of it between any blanks. -/
theorem trim_append_append (ha : ∀ c ∈ a, isSpace c = true) (hb : ∀ c ∈ b, isSpace c = true)
    (hs : ∀ c ∈ s.head?, isSpace c = false) (he : ∀ c ∈ s.getLast?, isSpace c = false) :
    trim (a ++ (s ++ b)) = s := by
  have hstart : trimStart (a ++ (s ++ b)) = trimStart (s ++ b) :=
    List.dropWhile_append_of_pos ha
  rw [trim, hstart]
  cases s with
  | nil =>
    -- nothing but blanks, which are all taken from the left
    have hblank : trimStart b = [] := List.dropWhile_eq_nil_iff.2 hb
    rw [List.nil_append, hblank]
    rfl
  | cons c r =>
    have hstop : trimStart (c :: r ++ b) = c :: r ++ b :=
      List.dropWhile_cons_of_neg (by simp [hs c rfl])
    rw [hstop]
    exact reverse_dropWhile_append_of_stop he hb

end ApiStencil.Text
