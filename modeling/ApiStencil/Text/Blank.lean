/-
ApiStencil/Text/Blank.lean

The two classes of blank characters, and trimming.  A registry declaration is
trimmed of every character with the `White_Space` property (`isSpace`), while the
condition language and the length notation know four layout characters only
(`isLayout`).

`trim_eq_self` says which texts trimming leaves alone.
-/

namespace ApiStencil.Text

/-- The characters with the `White_Space` property. -/
def isSpace (c : Char) : Bool :=
  let n := c.toNat
  (9 ≤ n && n ≤ 13) || n == 0x20 || n == 0x85 || n == 0xA0 || n == 0x1680 ||
    (0x2000 ≤ n && n ≤ 0x200A) || n == 0x2028 || n == 0x2029 || n == 0x202F ||
    n == 0x205F || n == 0x3000

/-- Space, tab, carriage return and line feed. -/
def isLayout (c : Char) : Bool :=
  c = ' ' || c = '\t' || c = '\r' || c = '\n'

/-- The blanks a line may hold beside its line break. -/
def isLineBlank (c : Char) : Bool :=
  c = ' ' || c = '\t' || c = '\r'

/-- An ASCII letter, a digit or an underscore. -/
def isWordChar (c : Char) : Bool :=
  c.isAlphanum || c = '_'

def trimStart (s : List Char) : List Char :=
  s.dropWhile isSpace

def trimEnd (s : List Char) : List Char :=
  (s.reverse.dropWhile isSpace).reverse

/-- A text without the blanks at its start and its end. -/
def trim (s : List Char) : List Char :=
  trimEnd (trimStart s)

/-! ### Trimming -/

@[simp] theorem trim_nil : trim [] = [] := rfl

theorem trimStart_eq_self {s : List Char} (h : ∀ c, s.head? = some c → isSpace c = false) :
    trimStart s = s := by
  cases s with
  | nil => rfl
  | cons c r => simp [trimStart, h c rfl]

theorem trimEnd_eq_self {s : List Char} (h : ∀ c, s.getLast? = some c → isSpace c = false) :
    trimEnd s = s := by
  have hr : trimStart s.reverse = s.reverse :=
    trimStart_eq_self fun c hc => h c (by simpa using hc)
  show (trimStart s.reverse).reverse = s
  rw [hr, List.reverse_reverse]

/-- A text that neither starts nor ends with a space is its own trimmed form. -/
theorem trim_eq_self {s : List Char} (hs : ∀ c, s.head? = some c → isSpace c = false)
    (he : ∀ c, s.getLast? = some c → isSpace c = false) : trim s = s := by
  rw [trim, trimStart_eq_self hs, trimEnd_eq_self he]

end ApiStencil.Text
