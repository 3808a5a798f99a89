/-
ApiStencil/Markup/Token.lean

The tags and texts of a marked-up document.  Comments, declarations and processing
instructions are skipped.  A document that breaks off inside a tag ends in front of
it.

`cut` takes a piece off a text that is not empty; what is left is shorter
(`length_cut`), so the scan ends.
-/
import ApiStencil.Text.Blank
import ApiStencil.Text.Numeral
import ApiStencil.Text.Search

namespace ApiStencil.Markup

open Text

/-- A tag or a text. -/
inductive Token where
  | opening (name : String) (attributes : List (String × String))
  | closing (name : String)
  | text (s : List Char)
deriving DecidableEq, Repr

/-! ### Character references -/

/-- The characters that have a name. -/
def namedChars : List (String × Char) :=
  [("lt", '<'), ("gt", '>'), ("amp", '&'), ("quot", '"'), ("apos", '\'')]

/-- The character with this number, if there is one. -/
def charOf? (n : Nat) : Option Char :=
  if n.isValidChar then some (Char.ofNat n) else none

/-- The character that stands between an ampersand and a semicolon, by its name or its number. -/
def reference? (s : List Char) : Option Char :=
  match s with
  | '#' :: 'x' :: digits => (readNat? 16 digits).bind charOf?
  | '#' :: digits => (readNat? 10 digits).bind charOf?
  | _ => (namedChars.find? (·.1.toList = s)).map Prod.snd

/-- A text with every reference replaced by its character. -/
def decode : List Char → List Char
  | [] => []
  | c :: r =>
    match _h : if c = '&' then splitFirst [';'] r else none with
    | none => c :: decode r
    | some (name, rest) =>
      match reference? name with
      | some d => d :: decode rest
      | none => c :: decode r
termination_by s => s.length
decreasing_by
  · simp
  · split at _h
    · simp [splitFirst_eq_some _h]
      omega
    · simp at _h
  · simp

/-! ### Tags -/

/-- The first attribute in the inside of a tag, and what follows it. -/
def attribute? (s : List Char) : Option ((String × String) × List Char) :=
  let inName (c : Char) : Bool := c ≠ '=' && !isSpace c
  let s := trimStart s
  match trimStart (s.dropWhile inName) with
  | '=' :: r =>
    match trimStart r with
    | quote :: r =>
      match splitFirst [quote] r with
      | some (value, rest) =>
        some ((String.ofList (s.takeWhile inName), String.ofList (decode value)), rest)
      | none => none
    | [] => none
  | _ => none

theorem length_trimStart (s : List Char) : (trimStart s).length ≤ s.length :=
  (List.dropWhile_sublist isSpace).length_le

theorem length_attribute? {s rest : List Char} {a : String × String}
    (h : attribute? s = some (a, rest)) : rest.length < s.length := by
  simp only [attribute?] at h
  split at h
  · next r hr =>
    split at h
    · next quote r' hr' =>
      split at h
      · next value rest' hs =>
        obtain ⟨_, rfl⟩ : _ ∧ rest' = rest := by simpa using h
        have h1 := congrArg List.length (splitFirst_eq_some hs)
        have h2 := length_trimStart r
        have h3 := length_trimStart ((trimStart s).dropWhile fun c => c ≠ '=' && !isSpace c)
        have h4 := (List.dropWhile_sublist (fun c => c ≠ '=' && !isSpace c)
          (l := trimStart s)).length_le
        have h5 := length_trimStart s
        rw [hr'] at h2
        rw [hr] at h3
        simp only [List.length_append, List.length_cons, List.length_nil] at h1 h2 h3
        omega
      · simp at h
    · simp at h
  · simp at h

/-- The attributes in the inside of a tag. -/
def attributes (s : List Char) : List (String × String) :=
  match _h : attribute? s with
  | some (a, rest) => a :: attributes rest
  | none => []
termination_by s.length
decreasing_by exact length_attribute? _h

/-- What stands before and after the angle bracket that ends a tag, which is the first outside
quotes.  The inside starts with the reverse of `inside`. -/
def cutTag (quote : Option Char) (inside : List Char) : List Char → Option (List Char × List Char)
  | [] => none
  | c :: r =>
    match quote with
    | some q => cutTag (if c = q then none else some q) (c :: inside) r
    | none =>
      if c = '>' then some (inside.reverse, r)
      else cutTag (if c = '"' ∨ c = '\'' then some c else none) (c :: inside) r

theorem length_cutTag {quote : Option Char} {inside s tag rest : List Char}
    (h : cutTag quote inside s = some (tag, rest)) : rest.length < s.length := by
  fun_induction cutTag quote inside s with
  | case1 => simp at h
  | case2 _ _ _ _ ih => exact Nat.lt_succ_of_lt (ih h)
  | case3 => simp_all
  | case4 _ _ _ _ ih => exact Nat.lt_succ_of_lt (ih h)

/-- The tokens of a tag.  A tag that ends with a slash opens an element and closes it. -/
def tagTokens (inside : List Char) : List Token :=
  match inside with
  | '/' :: name => [.closing (String.ofList (trim name))]
  | _ =>
    let inName (c : Char) : Bool := c ≠ '/' && !isSpace c
    let name := String.ofList (inside.takeWhile inName)
    let opening := Token.opening name (attributes (inside.dropWhile inName))
    if inside.getLast? = some '/' then [opening, .closing name] else [opening]

/-! ### The scan -/

/-- A part that starts with `start` and goes on until `stop`: what is between them and what
follows. -/
def cutBetween (start stop s : List Char) : Option (List Char × List Char) :=
  (start.isPrefixOf? s).bind (splitFirst stop)

theorem length_cutBetween {start stop s inside rest : List Char} (hn : start ≠ [])
    (h : cutBetween start stop s = some (inside, rest)) : rest.length < s.length := by
  obtain ⟨r, hr, hs⟩ := Option.bind_eq_some_iff.1 h
  have h1 := isPrefixOf?_length_lt hn hr
  have h2 := congrArg List.length (splitFirst_eq_some hs)
  simp only [List.length_append] at h2
  omega

/-- The tokens of what a text starts with, and the rest. -/
def cut (s : List Char) : Option (List Token × List Char) :=
  let skipped (start stop : String) : Option (List Token × List Char) :=
    (cutBetween start.toList stop.toList s).map fun (_, rest) => ([], rest)
  match s with
  | [] => none
  | '<' :: '!' :: '-' :: '-' :: _ => skipped "<!--" "-->"
  | '<' :: '!' :: '[' :: _ =>
    (cutBetween "<![CDATA[".toList "]]>".toList s).map fun (inside, rest) =>
      ([.text inside], rest)
  | '<' :: '!' :: _ => skipped "<!" ">"
  | '<' :: '?' :: _ => skipped "<?" "?>"
  | '<' :: r => (cutTag none [] r).map fun (inside, rest) => (tagTokens inside, rest)
  | c :: r => some ([.text (decode (c :: r.takeWhile (· ≠ '<')))], r.dropWhile (· ≠ '<'))

theorem length_cut {s rest : List Char} {l : List Token} (h : cut s = some (l, rest)) :
    rest.length < s.length := by
  have between (start stop : String) (f : List Char → List Token) (hn : start.toList ≠ [])
      (h : (cutBetween start.toList stop.toList s).map (fun (inside, rest) => (f inside, rest)) =
        some (l, rest)) : rest.length < s.length := by
    obtain ⟨⟨inside, rest'⟩, hc, he⟩ := Option.map_eq_some_iff.1 h
    obtain ⟨_, rfl⟩ : _ ∧ rest' = rest := by simpa using he
    exact length_cutBetween hn hc
  simp only [cut] at h
  split at h
  · simp at h
  · exact between "<!--" "-->" (fun _ => []) (by decide) h
  · exact between "<![CDATA[" "]]>" (fun inside => [.text inside]) (by decide) h
  · exact between "<!" ">" (fun _ => []) (by decide) h
  · exact between "<?" "?>" (fun _ => []) (by decide) h
  · next r _ _ _ _ =>
    obtain ⟨⟨inside, rest'⟩, hc, he⟩ := Option.map_eq_some_iff.1 h
    obtain ⟨_, rfl⟩ : _ ∧ rest' = rest := by simpa using he
    exact Nat.lt_succ_of_lt (length_cutTag hc)
  · next c r _ _ _ _ _ =>
    obtain ⟨_, rfl⟩ : _ ∧ r.dropWhile (· ≠ '<') = rest := by simpa using h
    exact Nat.lt_succ_of_le (List.dropWhile_sublist _).length_le

/-- The tokens of a text, up to a tag that does not end. -/
def scan (s : List Char) : List Token :=
  match _h : cut s with
  | some (l, rest) => l ++ scan rest
  | none => []
termination_by s.length
decreasing_by exact length_cut _h

end ApiStencil.Markup
