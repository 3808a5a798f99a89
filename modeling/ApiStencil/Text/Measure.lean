/-
ApiStencil/Text/Measure.lean

Measures of a text.  Offsets in this library count the bytes of the UTF-8
encoding, lines count line feeds; both are sums over the characters, so both
split over concatenation (`byteSize_append`, `lineBreaks_append`).
-/

namespace ApiStencil.Text

/-- The number of bytes of the UTF-8 encoding. -/
def byteSize : List Char → Nat
  | [] => 0
  | c :: r => c.utf8Size + byteSize r

/-- The number of line feeds. -/
def lineBreaks : List Char → Nat
  | [] => 0
  | c :: r => (if c = '\n' then 1 else 0) + lineBreaks r

/-- The longest prefix of whole characters that fits into `n` bytes. -/
def takeBytes (n : Nat) : List Char → List Char
  | [] => []
  | c :: r => if c.utf8Size ≤ n then c :: takeBytes (n - c.utf8Size) r else []

@[simp] theorem byteSize_nil : byteSize [] = 0 := rfl

@[simp] theorem byteSize_cons (c : Char) (r : List Char) :
    byteSize (c :: r) = c.utf8Size + byteSize r := rfl

@[simp] theorem byteSize_append (a b : List Char) :
    byteSize (a ++ b) = byteSize a + byteSize b := by
  induction a with
  | nil => simp
  | cons c r ih => simp [ih, Nat.add_assoc]

@[simp] theorem lineBreaks_nil : lineBreaks [] = 0 := rfl

@[simp] theorem lineBreaks_append (a b : List Char) :
    lineBreaks (a ++ b) = lineBreaks a + lineBreaks b := by
  induction a with
  | nil => simp
  | cons c r ih => simp [lineBreaks, ih, Nat.add_assoc]

/-- Cutting a concatenation at the size of its first part gives that part. -/
@[simp] theorem takeBytes_byteSize_append (a b : List Char) :
    takeBytes (byteSize a) (a ++ b) = a := by
  induction a with
  | nil =>
    cases b with
    | nil => rfl
    | cons c r =>
      have := c.utf8Size_pos
      simp [takeBytes]
      omega
  | cons c r ih => simp [takeBytes, ih]

end ApiStencil.Text
