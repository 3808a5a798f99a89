/-
ApiStencil/Text/WordCase.lean

Snake case and upper camel case of an identifier.  An identifier falls into
pieces at every character that is no ASCII letter or digit, and a piece into
words by the case of its letters: a word ends where a capital follows a lower-case
letter, and before the last of several capitals when a lower-case letter follows
it, so that `HTTPHeader2Get` has the words `HTTP`, `Header2` and `Get`.
-/

namespace ApiStencil.Text

/-- The case of a letter. -/
inductive LetterCase where
  | upper
  | lower
deriving DecidableEq, Repr

/-- The case of the last letter of a word that `c` has joined; a digit leaves it. -/
def LetterCase.extend (mode : Option LetterCase) (c : Char) : Option LetterCase :=
  if c.isUpper then some .upper else if c.isLower then some .lower else mode

/-- The words of a piece.  The first of them starts with the reverse of `word`, whose last
letter has the case `mode`. -/
def pieceWords (word : List Char) (mode : Option LetterCase) : List Char → List (List Char)
  | [] => if word = [] then [] else [word.reverse]
  | c :: r =>
    let next := r.head?
    if LetterCase.extend mode c = some .lower ∧ next.any Char.isUpper then
      (c :: word).reverse :: pieceWords [] none r
    else if mode = some .upper ∧ c.isUpper ∧ next.any Char.isLower then
      word.reverse :: pieceWords [c] none r
    else
      pieceWords (c :: word) (LetterCase.extend mode c) r

/-- The pieces of an identifier: its runs of ASCII letters and digits. -/
def pieces (s : List Char) : List (List Char) :=
  (s.splitOnP fun c => !c.isAlphanum).filter (· ≠ [])

/-- The words of an identifier. -/
def words (s : List Char) : List (List Char) :=
  (pieces s).flatMap (pieceWords [] none)

/-- The words in lower case, joined by underscores. -/
def snakeCase (s : List Char) : List Char :=
  ['_'].intercalate ((words s).map (·.map Char.toLower))

/-- A word with a capital first letter and lower-case ones after it. -/
def capitalize : List Char → List Char
  | [] => []
  | c :: r => c.toUpper :: r.map Char.toLower

/-- The words with a capital each, joined by nothing. -/
def upperCamelCase (s : List Char) : List Char :=
  (words s).flatMap capitalize

example : snakeCase "vkHTTPHeader2Get".toList = "vk_http_header2_get".toList := by decide

example : upperCamelCase "KHR_xlib_surface2".toList = "KhrXlibSurface2".toList := by decide

end ApiStencil.Text
