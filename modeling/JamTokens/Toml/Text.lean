import JamTokens.Text.CharClass

/-!
# Texts in TOML

The four kinds of quoted text, bare keys, and what may stand between values:
spaces and tabs, line ends and comments.  Each reader takes the text behind
the opening mark and gives what it has read with the rest.
-/

set_option autoImplicit false

namespace JamTokens.Toml

open CharClass (isDigit isLetter)

abbrev Reader (α : Type) := List Char → Option (α × List Char)

/-- A tab is the only control character that may stand in a line. -/
def isLineChar (c : Char) : Bool := c = '\t' || (' ' ≤ c && c ≠ '\x7f')

def isSpace (c : Char) : Bool := c = ' ' || c = '\t'

def skipSpaces (text : List Char) : List Char := text.dropWhile isSpace

def prepend (chars : List Char) (read : Option (List Char × List Char)) :
    Option (List Char × List Char) :=
  read.map fun (more, rest) => (chars ++ more, rest)

/-- Skips spaces, line ends and comments.  The flag tells whether a comment is open. -/
def skipTrivia : Bool → List Char → List Char
  | _, '\r' :: '\n' :: rest => skipTrivia false rest
  | _, '\n' :: rest => skipTrivia false rest
  | true, c :: rest => if isLineChar c then skipTrivia true rest else c :: rest
  | false, c :: rest =>
    if isSpace c then skipTrivia false rest
    else if c = '#' then skipTrivia true rest
    else c :: rest
  | _, [] => []

/-- The end of a line: spaces, a comment, and a line end or the end of the text. -/
def endLine (text : List Char) : Option (List Char) :=
  let text := skipSpaces text
  let text := if text.head? = some '#' then text.dropWhile isLineChar else text
  match text with
  | '\r' :: '\n' :: rest => some rest
  | '\n' :: rest => some rest
  | [] => some []
  | _ => none

/-! ## Escapes -/

def letterEscape? : Char → Option Char
  | 'b' => some '\x08'
  | 't' => some '\t'
  | 'n' => some '\n'
  | 'f' => some '\x0c'
  | 'r' => some '\r'
  | '"' => some '"'
  | '\\' => some '\\'
  | _ => none

def hexDigit? (c : Char) : Option Nat :=
  if isDigit c then some (c.toNat - '0'.toNat)
  else if 'a' ≤ c && c ≤ 'f' then some (c.toNat - 'a'.toNat + 10)
  else if 'A' ≤ c && c ≤ 'F' then some (c.toNat - 'A'.toNat + 10)
  else none

def charOfHex? (digits : List Char) : Option Char := do
  let values ← digits.mapM hexDigit?
  let n := values.foldl (fun n d => 16 * n + d) 0
  if n.isValidChar then some (Char.ofNat n) else none

def escape? : Reader Char
  | 'u' :: rest =>
    if 4 ≤ rest.length then (charOfHex? (rest.take 4)).map (·, rest.drop 4) else none
  | 'U' :: rest =>
    if 8 ≤ rest.length then (charOfHex? (rest.take 8)).map (·, rest.drop 8) else none
  | c :: rest => (letterEscape? c).map (·, rest)
  | [] => none

theorem escape?_length {text rest : List Char} {c : Char} (h : escape? text = some (c, rest)) :
    rest.length < text.length := by
  unfold escape? at h
  split at h
  · split at h
    · obtain ⟨_, _, heq⟩ := Option.map_eq_some_iff.1 h
      simp only [Prod.mk.injEq] at heq
      rw [← heq.2]
      simp only [List.length_drop, List.length_cons]
      omega
    · simp at h
  · split at h
    · obtain ⟨_, _, heq⟩ := Option.map_eq_some_iff.1 h
      simp only [Prod.mk.injEq] at heq
      rw [← heq.2]
      simp only [List.length_drop, List.length_cons]
      omega
    · simp at h
  · obtain ⟨_, _, heq⟩ := Option.map_eq_some_iff.1 h
    simp only [Prod.mk.injEq] at heq
    rw [← heq.2]
    simp only [List.length_cons]
    omega
  · simp at h

/-! ## Quoted texts -/

def basic (text : List Char) : Option (List Char × List Char) :=
  match text with
  | '"' :: rest => some ([], rest)
  | '\\' :: rest =>
    match _h : escape? rest with
    | some (c, rest') => prepend [c] (basic rest')
    | none => none
  | c :: rest => if isLineChar c then prepend [c] (basic rest) else none
  | [] => none
termination_by text.length
decreasing_by
  · have := escape?_length _h
    simp only [List.length_cons]
    omega
  · simp only [List.length_cons]
    omega

def literal : List Char → Option (List Char × List Char)
  | '\'' :: rest => some ([], rest)
  | c :: rest => if isLineChar c then prepend [c] (literal rest) else none
  | [] => none

/-- The rest behind a backslash at the end of a line: everything up to the
next character that is neither a space nor a line end. -/
def skipLineBreak (text : List Char) : Option (List Char) :=
  match skipSpaces text with
  | '\n' :: rest => some (blank rest)
  | '\r' :: '\n' :: rest => some (blank rest)
  | _ => none
where
  blank : List Char → List Char
    | '\r' :: '\n' :: rest => blank rest
    | c :: rest => if isSpace c || c = '\n' then blank rest else c :: rest
    | [] => []

theorem blank_length (text : List Char) : (skipLineBreak.blank text).length ≤ text.length := by
  fun_induction skipLineBreak.blank text with
  | case1 rest ih => simp; omega
  | case2 c rest h h' ih => simp; omega
  | case3 => simp
  | case4 => simp

theorem skipLineBreak_length {text rest : List Char} (h : skipLineBreak text = some rest) :
    rest.length < text.length := by
  have hsp : (skipSpaces text).length ≤ text.length :=
    (List.dropWhile_suffix _).length_le
  unfold skipLineBreak at h
  split at h
  · rename_i heq
    rw [heq] at hsp
    have := blank_length (by assumption)
    simp only [Option.some.injEq] at h
    simp only [List.length_cons] at hsp
    rw [← h]
    omega
  · rename_i heq
    rw [heq] at hsp
    have := blank_length (by assumption)
    simp only [Option.some.injEq] at h
    simp only [List.length_cons] at hsp
    rw [← h]
    omega
  · simp at h

/-- A text over several lines, behind its three quotes.  Up to two quotes may
stand right before the closing ones. -/
def multiBasic (text : List Char) : Option (List Char × List Char) :=
  match text with
  | '"' :: '"' :: '"' :: '"' :: '"' :: rest => some (['"', '"'], rest)
  | '"' :: '"' :: '"' :: '"' :: rest => some (['"'], rest)
  | '"' :: '"' :: '"' :: rest => some ([], rest)
  | '\\' :: rest =>
    match _h : escape? rest with
    | some (c, rest') => prepend [c] (multiBasic rest')
    | none =>
      match _h' : skipLineBreak rest with
      | some rest' => multiBasic rest'
      | none => none
  | '\r' :: '\n' :: rest => prepend ['\n'] (multiBasic rest)
  | c :: rest => if isLineChar c || c = '\n' then prepend [c] (multiBasic rest) else none
  | [] => none
termination_by text.length
decreasing_by
  · have := escape?_length _h
    simp only [List.length_cons]
    omega
  · have := skipLineBreak_length _h'
    simp only [List.length_cons]
    omega
  · simp only [List.length_cons]
    omega
  · simp only [List.length_cons]
    omega

/-- A text over several lines without escapes, behind its three quotes. -/
def multiLiteral : List Char → Option (List Char × List Char)
  | '\'' :: '\'' :: '\'' :: '\'' :: '\'' :: rest => some (['\'', '\''], rest)
  | '\'' :: '\'' :: '\'' :: '\'' :: rest => some (['\''], rest)
  | '\'' :: '\'' :: '\'' :: rest => some ([], rest)
  | '\r' :: '\n' :: rest => prepend ['\n'] (multiLiteral rest)
  | c :: rest => if isLineChar c || c = '\n' then prepend [c] (multiLiteral rest) else none
  | [] => none

/-- A line end right behind the opening quotes is no part of the text. -/
def skipFirstLineEnd : List Char → List Char
  | '\r' :: '\n' :: rest => rest
  | '\n' :: rest => rest
  | text => text

def quoted? : Reader String
  | '"' :: '"' :: '"' :: rest =>
    (multiBasic (skipFirstLineEnd rest)).map fun (s, rest) => (String.ofList s, rest)
  | '\'' :: '\'' :: '\'' :: rest =>
    (multiLiteral (skipFirstLineEnd rest)).map fun (s, rest) => (String.ofList s, rest)
  | '"' :: rest => (basic rest).map fun (s, rest) => (String.ofList s, rest)
  | '\'' :: rest => (literal rest).map fun (s, rest) => (String.ofList s, rest)
  | _ => none

/-! ## Keys -/

def isKeyChar (c : Char) : Bool := isLetter c || isDigit c || c = '_' || c = '-'

/-- One part of a key: bare, or quoted on one line. -/
def keyPart : Reader String
  | '"' :: rest => (basic rest).map fun (s, rest) => (String.ofList s, rest)
  | '\'' :: rest => (literal rest).map fun (s, rest) => (String.ofList s, rest)
  | text =>
    let name := text.takeWhile isKeyChar
    if name.isEmpty then none else some (String.ofList name, text.dropWhile isKeyChar)

/-- A key of at most so many parts, with points between them. -/
def key : Nat → Reader (List String)
  | 0, _ => none
  | limit + 1, text => do
    let (part, rest) ← keyPart (skipSpaces text)
    match skipSpaces rest with
    | '.' :: rest =>
      let (parts, rest) ← key limit rest
      return (part :: parts, rest)
    | rest => return ([part], rest)

end JamTokens.Toml
