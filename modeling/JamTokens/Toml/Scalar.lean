import JamTokens.Number.Literal
import JamTokens.Toml.Node
import JamTokens.Toml.Text

/-!
# Numbers, dates and truth values in TOML

An integer has at most 64 bits with its sign, and a positive number that is
no integer must not be too large for a binary64 number.  A date must exist in
the calendar.
-/

set_option autoImplicit false

namespace JamTokens.Toml

open CharClass (isDigit)

/-! ## Numbers -/

/-- Digits with single underscores between them, after a first digit. -/
def moreDigits (isDigit : Char → Bool) : List Char → List Char × List Char
  | '_' :: c :: rest =>
    if isDigit c then
      let (digits, rest) := moreDigits isDigit rest
      (c :: digits, rest)
    else ([], '_' :: c :: rest)
  | c :: rest =>
    if isDigit c then
      let (digits, rest) := moreDigits isDigit rest
      (c :: digits, rest)
    else ([], c :: rest)
  | [] => ([], [])

def digits (isDigit : Char → Bool) : Reader (List Char)
  | c :: rest =>
    if isDigit c then
      let (more, rest) := moreDigits isDigit rest
      some (c :: more, rest)
    else none
  | [] => none

/-- A sign, which may be missing: whether it is a minus, and the rest. -/
def sign : List Char → Bool × List Char
  | '-' :: rest => (true, rest)
  | '+' :: rest => (false, rest)
  | text => (false, text)

def decimalDigits : Reader (List Char)
  | '0' :: rest => some (['0'], rest)
  | text => digits isDigit text

def valueIn (base : Nat) (digits : List Char) : Nat :=
  digits.foldl (fun n c => base * n + (hexDigit? c).getD 0) 0

def integerOf (n : Int) : Option Node :=
  if -9223372036854775808 ≤ n && n ≤ 9223372036854775807 then some (.integer n) else none

def integer (text : List Char) : Option (Node × List Char) :=
  let based (base : Nat) (isDigit : Char → Bool) (rest : List Char) : Option (Node × List Char) := do
    let (ds, rest) ← digits isDigit rest
    return (← integerOf (valueIn base ds), rest)
  match text with
  | '0' :: 'x' :: rest => based 16 (fun c => (hexDigit? c).isSome) rest
  | '0' :: 'o' :: rest => based 8 (fun c => '0' ≤ c && c ≤ '7') rest
  | '0' :: 'b' :: rest => based 2 (fun c => c = '0' || c = '1') rest
  | _ => do
    let (negative, rest) := sign text
    let (ds, rest) ← decimalDigits rest
    let n : Int := valueIn 10 ds
    return (← integerOf (if negative then -n else n), rest)

/-- Whether `digits * 10 ^ exponent` is too large for a binary64 number. -/
def isTooLarge (digits : Nat) (exponent : Int) : Bool :=
  let length := (Nat.toDigits 10 digits).length
  if digits = 0 then false
  else if (length : Int) + exponent < 300 then false
  else if 320 < (length : Int) + exponent then true
  else
    Binary64.nearest (digits * Nat.pow 10 exponent.toNat) (Nat.pow 10 (-exponent).toNat) =
      .infinite

def exponent : Reader Int
  | c :: rest =>
    if c = 'e' || c = 'E' then do
      let (negative, rest) := sign rest
      let (ds, rest) ← digits isDigit rest
      let n : Int := valueIn 10 ds
      return (if negative then -n else n, rest)
    else none
  | [] => none

/-- The part of `text` in front of `rest`, which ends it. -/
def written (text rest : List Char) : String :=
  String.ofList (text.take (text.length - rest.length))

def float (text : List Char) : Option (Node × List Char) := do
  let (negative, rest) := sign text
  match rest with
  | 'i' :: 'n' :: 'f' :: rest => return (.float (written text rest), rest)
  | 'n' :: 'a' :: 'n' :: rest => return (.float (written text rest), rest)
  | _ =>
    let (whole, rest) ← decimalDigits rest
    let (fraction, power, rest) ←
      match rest with
      | '.' :: rest => do
        let (fraction, rest) ← digits isDigit rest
        match exponent rest with
        | some (power, rest) => pure (fraction, power, rest)
        | none => pure (fraction, 0, rest)
      | _ => do
        let (power, rest) ← exponent rest
        pure ([], power, rest)
    if !negative && isTooLarge (valueIn 10 (whole ++ fraction)) (power - fraction.length) then none
    else return (.float (written text rest), rest)

/-! ## Dates and times -/

def fixed (width low high : Nat) : Reader Nat := fun text =>
  let ds := text.take width
  if ds.length = width && ds.all isDigit then
    let n := valueIn 10 ds
    if low ≤ n && n ≤ high then some (n, text.drop width) else none
  else none

/-- The rest behind an expected character. -/
def expect (c : Char) : List Char → Option (List Char)
  | c' :: rest => if c' = c then some rest else none
  | [] => none

def daysIn (year month : Nat) : Nat :=
  if month = 2 then
    if year % 4 = 0 && (year % 100 ≠ 0 || year % 400 = 0) then 29 else 28
  else if month = 4 || month = 6 || month = 9 || month = 11 then 30
  else 31

def date (text : List Char) : Option (List Char) := do
  let (year, rest) ← fixed 4 0 9999 text
  let (month, rest) ← fixed 2 1 12 (← expect '-' rest)
  let (_, rest) ← fixed 2 1 (daysIn year month) (← expect '-' rest)
  return rest

def time (text : List Char) : Option (List Char) := do
  let (_, rest) ← fixed 2 0 23 text
  let (_, rest) ← fixed 2 0 59 (← expect ':' rest)
  let (_, rest) ← fixed 2 0 60 (← expect ':' rest)
  match rest with
  | '.' :: c :: fraction => return if isDigit c then fraction.dropWhile isDigit else rest
  | _ => return rest

def offset (text : List Char) : Option (List Char) := do
  match text with
  | c :: rest =>
    if c = 'Z' || c = 'z' then return rest
    else if c = '+' || c = '-' then
      let (_, rest) ← fixed 2 0 23 rest
      let (_, rest) ← fixed 2 0 59 (← expect ':' rest)
      return rest
    else none
  | [] => none

/-- The rest behind the time that may follow a date. -/
def timeOfDate (text : List Char) : Option (List Char) := do
  match text with
  | c :: rest =>
    if c = 'T' || c = 't' || c = ' ' then
      let rest ← time rest
      return (offset rest).getD rest
    else none
  | [] => none

def datetime (text : List Char) : Option (Node × List Char) := do
  let rest ←
    match date text with
    | some rest => some ((timeOfDate rest).getD rest)
    | none => time text
  return (.datetime (written text rest), rest)

/-! ## Scalars -/

def scalar (text : List Char) : Option (Node × List Char) :=
  match text with
  | 't' :: 'r' :: 'u' :: 'e' :: rest => some (.boolean true, rest)
  | 'f' :: 'a' :: 'l' :: 's' :: 'e' :: rest => some (.boolean false, rest)
  | _ =>
    match quoted? text with
    | some (s, rest) => some (.string s, rest)
    | none => (datetime text).or ((float text).or (integer text))

end JamTokens.Toml
