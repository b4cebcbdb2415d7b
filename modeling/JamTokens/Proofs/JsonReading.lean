import JamTokens.Output.Record
import JamTokens.Proofs.Constants
import JamTokens.Toml.Text

/-!
# Reading JSON objects

A reader for the part of JSON that token records are written in: one object,
whose values are strings and natural numbers.  Blanks may stand around
everything, and a string may have any of the escapes that JSON knows, also
those of the characters that two units make up.

What is written of an object is read back, whatever characters its strings
are made of.
-/

set_option autoImplicit false

namespace JamTokens

namespace Json

open CharClass (isDigit)
open Toml (Reader prepend hexDigit?)

inductive Value
  | text (s : String)
  | number (n : Nat)
  deriving DecidableEq, Repr

def isSpace (c : Char) : Bool := c = ' ' || c = '\t' || c = '\n' || c = '\r'

def skipSpaces (text : List Char) : List Char := text.dropWhile isSpace

/-! ## Strings -/

def letterEscape? : Char → Option Char
  | 'b' => some '\x08'
  | 't' => some '\t'
  | 'n' => some '\n'
  | 'f' => some '\x0c'
  | 'r' => some '\r'
  | '/' => some '/'
  | '"' => some '"'
  | '\\' => some '\\'
  | _ => none

def unit? : Reader Nat
  | a :: b :: c :: d :: rest => do
    let digits ← [a, b, c, d].mapM hexDigit?
    return (digits.foldl (fun n digit => 16 * n + digit) 0, rest)
  | _ => none

/-- The character that one unit stands for, or a high unit with a low one behind it. -/
def unicode? (text : List Char) : Option (Char × List Char) := do
  let (high, rest) ← unit? text
  if high < 0xd800 || 0xe000 ≤ high then return (Char.ofNat high, rest)
  else
    match rest with
    | '\\' :: 'u' :: rest =>
      let (low, rest) ← unit? rest
      if high < 0xdc00 && 0xdc00 ≤ low && low < 0xe000 then
        return (Char.ofNat (0x10000 + 0x400 * (high - 0xd800) + (low - 0xdc00)), rest)
      else none
    | _ => none

def escape? : Reader Char
  | 'u' :: rest => unicode? rest
  | c :: rest => (letterEscape? c).map (·, rest)
  | [] => none

theorem unit?_length {text rest : List Char} {n : Nat} (h : unit? text = some (n, rest)) :
    rest.length < text.length := by
  unfold unit? at h
  split at h
  · obtain ⟨digits, -, made⟩ := Option.bind_eq_some_iff.mp h
    cases made
    simp only [List.length_cons]
    omega
  · cases h

theorem unicode?_length {text rest : List Char} {c : Char} (h : unicode? text = some (c, rest)) :
    rest.length < text.length := by
  obtain ⟨⟨high, behind⟩, first, made⟩ := Option.bind_eq_some_iff.mp h
  have less := unit?_length first
  dsimp only at made
  split at made
  · obtain ⟨-, rfl⟩ := Prod.mk.inj (Option.some.inj made)
    exact less
  · split at made
    · obtain ⟨⟨low, last⟩, second, made⟩ := Option.bind_eq_some_iff.mp made
      have fewer := unit?_length second
      dsimp only at made
      split at made
      · obtain ⟨-, rfl⟩ := Prod.mk.inj (Option.some.inj made)
        simp only [List.length_cons] at less
        omega
      · cases made
    · cases made

theorem escape?_length {text rest : List Char} {c : Char} (h : escape? text = some (c, rest)) :
    rest.length < text.length := by
  unfold escape? at h
  split at h
  · exact Nat.lt_succ_of_lt (unicode?_length h)
  · obtain ⟨_, -, made⟩ := Option.map_eq_some_iff.mp h
    cases made
    exact Nat.lt_succ_self _
  · cases h

def string (text : List Char) : Option (List Char × List Char) :=
  match text with
  | [] => none
  | '"' :: rest => some ([], rest)
  | '\\' :: rest =>
    match _h : escape? rest with
    | none => none
    | some (c, rest) => prepend [c] (string rest)
  | c :: rest => if c < ' ' then none else prepend [c] (string rest)
termination_by text.length
decreasing_by
  · exact Nat.lt_succ_of_lt (escape?_length _h)
  · exact Nat.lt_succ_self _

/-! ## Objects -/

/-- Only zero begins with a zero. -/
def natural (text : List Char) : Option (Nat × List Char) :=
  let digits := text.takeWhile isDigit
  if digits = [] ∨ (digits.head? = some '0' ∧ digits ≠ ['0']) then none
  else some (Decimal.readDigits digits, text.dropWhile isDigit)

def value : Reader Value
  | '"' :: rest => (string rest).map fun (chars, rest) => (.text (String.ofList chars), rest)
  | text => (natural text).map fun (n, rest) => (.number n, rest)

def member (text : List Char) : Option ((String × Value) × List Char) :=
  match skipSpaces text with
  | '"' :: rest => do
    let (name, rest) ← string rest
    match skipSpaces rest with
    | ':' :: rest =>
      let (v, rest) ← value (skipSpaces rest)
      return ((String.ofList name, v), rest)
    | _ => none
  | _ => none

def members : Nat → Reader (List (String × Value))
  | 0, _ => none
  | most + 1, text => do
    let (first, rest) ← member text
    match skipSpaces rest with
    | ',' :: rest =>
      let (later, rest) ← members most rest
      return (first :: later, rest)
    | '\x7d' :: rest => return ([first], rest)
    | _ => none

def object (text : List Char) : Option (List (String × Value) × List Char) :=
  match skipSpaces text with
  | '\x7b' :: rest =>
    match skipSpaces rest with
    | '\x7d' :: rest => some ([], rest)
    -- every member takes characters of its own
    | _ => members rest.length rest
  | _ => none

def object? (text : List Char) : Option (List (String × Value)) := do
  let (read, rest) ← object text
  if skipSpaces rest = [] then return read else none

/-! ## Reading back what is written -/

theorem hexDigit?_digitChar : ∀ n < 16, hexDigit? (Nat.digitChar n) = some n := by decide

theorem escape?_letter {c letter : Char} (h : Quoted.jsonLetter? c = some letter)
    (rest : List Char) : escape? (letter :: rest) = some (c, rest) := by
  unfold Quoted.jsonLetter? at h
  split at h <;> cases h <;> rfl

theorem escape?_control {c : Char} (h : c < ' ') (rest : List Char) :
    escape? ('u' :: '0' :: '0' :: Nat.digitChar (c.toNat / 16) :: Nat.digitChar (c.toNat % 16) ::
      rest) = some (c, rest) := by
  have low : c.toNat < 32 := h
  have upper := hexDigit?_digitChar (c.toNat / 16) (by omega)
  have lower := hexDigit?_digitChar (c.toNat % 16) (by omega)
  have zero : hexDigit? '0' = some 0 := rfl
  have whole : 16 * (c.toNat / 16) + c.toNat % 16 = c.toNat := Nat.div_add_mod c.toNat 16
  have small : c.toNat < 0xd800 := by omega
  simp [escape?, unicode?, unit?, upper, lower, zero, whole, small, Char.ofNat_toNat]

theorem string_escape {text rest : List Char} {c : Char} (h : escape? text = some (c, rest)) :
    string ('\\' :: text) = prepend [c] (string rest) := by
  rw [string]
  split <;> rename_i found <;> rw [h] at found <;> cases found
  rfl

theorem string_plain {c : Char} (quote : c ≠ '"') (backslash : c ≠ '\\') (h : ¬ c < ' ')
    (rest : List Char) : string (c :: rest) = prepend [c] (string rest) := by
  rw [string]
  · rw [if_neg h]
  · exact quote
  · exact backslash

theorem string_jsonChar (c : Char) (rest : List Char) :
    string (Quoted.jsonChar c ++ rest) = prepend [c] (string rest) := by
  unfold Quoted.jsonChar
  cases letter : Quoted.jsonLetter? c with
  | some short => exact string_escape (escape?_letter letter rest)
  | none =>
      dsimp only
      split
      · rename_i control
        exact string_escape (escape?_control control rest)
      · rename_i plain
        apply string_plain _ _ plain
        · rintro rfl
          cases letter
        · rintro rfl
          cases letter

theorem string_quoted (text rest : List Char) :
    string (text.flatMap Quoted.jsonChar ++ '"' :: rest) = some (text, rest) := by
  induction text with
  | nil => rw [List.flatMap_nil, List.nil_append, string]
  | cons c text ih =>
      rw [List.flatMap_cons, List.append_assoc, string_jsonChar, ih]
      rfl

/-- A quote, a character beyond the first plane and an accented letter, all escaped. -/
example :
    string ['\\', '"', '\\', 'u', 'd', '8', '3', '4', '\\', 'u', 'D', 'D', '1', 'E', '\\', 'u', '0',
      '0', 'e', '9', '"', ':'] = some (['"', Char.ofNat 0x1d11e, 'é'], [':']) := by
  decide +kernel

theorem digitChar_ne_zero : ∀ n < 10, n ≠ 0 → Nat.digitChar n ≠ '0' := by decide

theorem head?_toDigits {n : Nat} (h : n ≠ 0) : (Nat.toDigits 10 n).head? ≠ some '0' := by
  induction n using Nat.strongRecOn with
  | ind n ih =>
      rw [Nat.toDigits_eq_if (by decide)]
      split
      · rename_i small
        simpa using digitChar_ne_zero n small h
      · have upper := ih (n / 10) (by omega) (by omega)
        rw [List.head?_append, List.head?_eq_some_head Nat.toDigits_ne_nil] at *
        exact upper

theorem natural_toString (n : Nat) (rest : List Char)
    (ends : ∀ c ∈ rest.head?, isDigit c = false) :
    natural ((toString n).toList ++ rest) = some (n, rest) := by
  obtain ⟨proper, digits⟩ := isDigits_toString n
  have nothing : rest.takeWhile isDigit = [] ∧ rest.dropWhile isDigit = rest := by
    cases rest with
    | nil => exact ⟨rfl, rfl⟩
    | cons c rest => simp [ends c rfl]
  have taken : ((toString n).toList ++ rest).takeWhile isDigit = (toString n).toList := by
    rw [List.takeWhile_append_of_pos digits, nothing.1, List.append_nil]
  have left : ((toString n).toList ++ rest).dropWhile isDigit = rest := by
    rw [List.dropWhile_append_of_pos digits, nothing.2]
  have canonical : ¬ ((toString n).toList = [] ∨
      ((toString n).toList.head? = some '0' ∧ (toString n).toList ≠ ['0'])) := by
    rintro (nothing | ⟨leading, more⟩)
    · exact proper nothing
    · by_cases zero : n = 0
      · exact more (zero ▸ rfl)
      · rw [Nat.toString_eq_repr, Nat.toList_repr] at leading
        exact head?_toDigits zero leading
  unfold natural
  rw [taken, left]
  dsimp only
  rw [if_neg canonical, readDigits_toString]

/-! ## Objects that are written -/

def Value.json : Value → String
  | text s => Quoted.json s
  | number n => toString n

theorem skipSpaces_cons {c : Char} (h : isSpace c = false) (rest : List Char) :
    skipSpaces (c :: rest) = c :: rest := by
  simp [skipSpaces, h]

theorem isSpace_of_isDigit {c : Char} (h : isDigit c = true) : isSpace c = false := by
  simp only [isSpace, Bool.or_eq_false_iff, decide_eq_false_iff_not]
  refine ⟨⟨⟨?_, ?_⟩, ?_⟩, ?_⟩ <;> rintro rfl <;> cases h

theorem toList_quoted (s : String) :
    (Quoted.json s).toList = '"' :: (s.toList.flatMap Quoted.jsonChar ++ ['"']) := by
  simp [Quoted.json]

theorem value_json (v : Value) {c : Char} (ends : isDigit c = false) (rest : List Char) :
    value (skipSpaces (v.json.toList ++ c :: rest)) = some (v, c :: rest) := by
  cases v with
  | text s =>
      rw [Value.json, toList_quoted, List.cons_append, skipSpaces_cons rfl, value,
        List.append_assoc]
      change (string (_ ++ '"' :: c :: rest)).map _ = _
      rw [string_quoted]
      simp
  | number n =>
      have read := natural_toString n (c :: rest) fun _ found => Option.some.inj found ▸ ends
      obtain ⟨proper, digits⟩ := isDigits_toString n
      obtain ⟨d, more, written⟩ := List.exists_cons_of_ne_nil proper
      have digit : isDigit d = true := digits d (written ▸ List.mem_cons_self)
      rw [written, List.cons_append] at read
      rw [Value.json, written, List.cons_append, skipSpaces_cons (isSpace_of_isDigit digit), value,
        read]
      · rfl
      · intro _ same
        obtain ⟨rfl, -⟩ := List.cons.inj same
        exact absurd digit (by decide)

theorem toList_field (name : String) (v : Value) :
    (TokenRecord.field name v.json).toList =
      '"' :: (name.toList.flatMap Quoted.jsonChar ++ '"' :: ':' :: v.json.toList) := by
  simp [TokenRecord.field, toList_quoted]

theorem member_field (name : String) (v : Value) {c : Char} (ends : isDigit c = false)
    (rest : List Char) :
    member ((TokenRecord.field name v.json).toList ++ c :: rest) = some ((name, v), c :: rest) := by
  have quote : isSpace '"' = false := rfl
  have colon : isSpace ':' = false := rfl
  rw [toList_field, member]
  simp only [List.cons_append, List.append_assoc, skipSpaces_cons quote, string_quoted,
    Option.bind_eq_bind, Option.bind_some, skipSpaces_cons colon, value_json v ends rest]
  simp

def fields (pairs : List (String × Value)) : String :=
  ",".intercalate (pairs.map fun pair => TokenRecord.field pair.1 pair.2.json)

theorem fields_singleton (pair : String × Value) :
    fields [pair] = TokenRecord.field pair.1 pair.2.json :=
  String.intercalate_singleton

theorem toList_fields_cons (first second : String × Value) (later : List (String × Value)) :
    (fields (first :: second :: later)).toList =
      (TokenRecord.field first.1 first.2.json).toList ++ ',' :: (fields (second :: later)).toList := by
  rw [fields, List.map_cons, List.map_cons, String.toList_intercalate]
  simp only [List.map_cons, List.intercalate_cons_cons, fields, String.toList_intercalate,
    List.append_assoc]
  rfl

/-- An object with members begins with a quote, and is as long as it has members. -/
theorem toList_fields {pairs : List (String × Value)} (proper : pairs ≠ []) :
    (∃ more, (fields pairs).toList = '"' :: more) ∧ pairs.length ≤ (fields pairs).toList.length := by
  induction pairs with
  | nil => exact absurd rfl proper
  | cons first later ih =>
      cases later with
      | nil =>
          rw [fields_singleton, toList_field]
          exact ⟨⟨_, rfl⟩, by simp⟩
      | cons second later =>
          have behind := (ih (List.cons_ne_nil _ _)).2
          rw [toList_fields_cons, toList_field]
          refine ⟨⟨_, rfl⟩, ?_⟩
          simp only [List.length_append, List.length_cons] at behind ⊢
          omega

theorem members_fields {pairs : List (String × Value)} (proper : pairs ≠ []) (most : Nat)
    (enough : pairs.length ≤ most) (rest : List Char) :
    members most ((fields pairs).toList ++ '\x7d' :: rest) = some (pairs, rest) := by
  have closing : isSpace '\x7d' = false := rfl
  have comma : isSpace ',' = false := rfl
  -- what stands behind a member tells whether there are more: a comma or the brace
  induction pairs generalizing most with
  | nil => exact absurd rfl proper
  | cons first later ih =>
      obtain ⟨most, rfl⟩ : ∃ fewer, most = fewer + 1 := ⟨most - 1, by simp at enough; omega⟩
      cases later with
      | nil =>
          rw [members, fields_singleton, member_field first.1 first.2 rfl rest]
          simp only [Option.bind_eq_bind, Option.bind_some, skipSpaces_cons closing]
          rfl
      | cons second later =>
          have behind := ih (List.cons_ne_nil _ _) most (by simpa using enough)
          rw [members, toList_fields_cons, List.append_assoc, List.cons_append,
            member_field first.1 first.2 rfl]
          simp only [Option.bind_eq_bind, Option.bind_some, skipSpaces_cons comma, behind]
          rfl

theorem object?_fields (pairs : List (String × Value)) (proper : pairs ≠ []) :
    object? ('\x7b' :: ((fields pairs).toList ++ ['\x7d'])) = some pairs := by
  have opening : isSpace '\x7b' = false := rfl
  have quote : isSpace '"' = false := rfl
  obtain ⟨⟨more, begins⟩, enough⟩ := toList_fields proper
  have read := members_fields proper ((fields pairs).toList ++ ['\x7d']).length
    (by rw [List.length_append]; omega) []
  rw [begins, List.cons_append] at read ⊢
  simp only [object?, object, skipSpaces_cons opening, skipSpaces_cons quote, read,
    Option.bind_eq_bind]
  rfl

/-! ## Objects have no line ends -/

theorem digitChar_ne_newline : ∀ n < 16, Nat.digitChar n ≠ '\n' := by decide

theorem newline_not_mem_jsonChar (c : Char) : '\n' ∉ Quoted.jsonChar c := by
  unfold Quoted.jsonChar
  cases letter : Quoted.jsonLetter? c with
  | some short =>
      unfold Quoted.jsonLetter? at letter
      split at letter <;> cases letter <;> decide
  | none =>
      dsimp only
      split
      · rename_i control
        have low : c.toNat < 32 := control
        have upper := digitChar_ne_newline (c.toNat / 16) (by omega)
        have lower := digitChar_ne_newline (c.toNat % 16) (by omega)
        simp [Ne.symm upper, Ne.symm lower]
      · rw [List.mem_singleton]
        rintro rfl
        cases letter

theorem newline_not_mem_value (v : Value) : '\n' ∉ v.json.toList := by
  cases v with
  | text s =>
      rw [Value.json, toList_quoted]
      simp [newline_not_mem_jsonChar]
  | number n =>
      intro found
      exact absurd ((isDigits_toString n).2 '\n' found) (by decide)

theorem newline_not_mem_field (name : String) (v : Value) :
    '\n' ∉ (TokenRecord.field name v.json).toList := by
  rw [toList_field]
  simp [newline_not_mem_jsonChar, newline_not_mem_value]

theorem newline_not_mem_fields (pairs : List (String × Value)) : '\n' ∉ (fields pairs).toList := by
  induction pairs with
  | nil => decide
  | cons first later ih =>
      cases later with
      | nil =>
          rw [fields_singleton]
          exact newline_not_mem_field first.1 first.2
      | cons second later =>
          rw [toList_fields_cons]
          simp [newline_not_mem_field, ih]

end Json

namespace TokenRecord

open Json (object? fields object?_fields)

def pairs (r : TokenRecord) : List (String × Json.Value) :=
  [("kind", .text r.kind), ("text", .text r.text), ("line", .number r.line),
   ("column", .number r.column)]

/-- The record whose fields a JSON object has, in this order and no others. -/
def ofPairs? : List (String × Json.Value) → Option TokenRecord
  | [("kind", .text kind), ("text", .text text), ("line", .number line),
     ("column", .number column)] => some ⟨kind, text, line, column⟩
  | _ => none

def ofJson? (text : List Char) : Option TokenRecord := (object? text).bind ofPairs?

theorem toList_json (r : TokenRecord) :
    r.json.toList = '\x7b' :: ((fields r.pairs).toList ++ ['\x7d']) := by
  rw [json, String.toList_append, String.toList_append]
  rfl

theorem ofJson?_json (r : TokenRecord) : ofJson? r.json.toList = some r := by
  rw [ofJson?, toList_json, object?_fields r.pairs (List.cons_ne_nil _ _)]
  rfl

theorem newline_not_mem_json (r : TokenRecord) : '\n' ∉ r.json.toList := by
  rw [toList_json]
  simp [Json.newline_not_mem_fields]

end TokenRecord

end JamTokens
