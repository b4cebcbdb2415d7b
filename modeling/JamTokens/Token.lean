/-!
# Tokens of the Jam language

Apart from integer constants and identifiers, every token is one of a fixed
set.  An identifier carries the number of the act that bound it, so that two
identifiers can be spelled alike and still come from different bindings.
`Ident.sameName` and `Token.sameText` compare without looking at that number.
-/

set_option autoImplicit false

namespace JamTokens

structure Ident where
  spelling : String
  /-- The act of binding that made this identifier. -/
  binding : Nat
  deriving DecidableEq, Repr

namespace Ident

def sameName (a b : Ident) : Bool := a.spelling == b.spelling

def shares (a b : Ident) : Bool := decide (a = b)

/-- Identifiers are ordered by their spelling, character by character. -/
def order (a b : Ident) : Ordering := compare a.spelling b.spelling

end Ident

inductive Keyword
  | if | then | else | let | in | map | to | bind
  deriving DecidableEq, Repr

def Keyword.text : Keyword → String
  | .if => "if"
  | .then => "then"
  | .else => "else"
  | .let => "let"
  | .in => "in"
  | .map => "map"
  | .to => "to"
  | .bind => ":="

inductive Op
  | plus | minus | times | divide | equals | notEquals | lessThan | greaterThan
  | lessThanEquals | greaterThanEquals | not | and | or
  deriving DecidableEq, Repr

namespace Op

def text : Op → String
  | plus => "+"
  | minus => "-"
  | times => "*"
  | divide => "/"
  | equals => "="
  | notEquals => "!="
  | lessThan => "<"
  | greaterThan => ">"
  | lessThanEquals => "<="
  | greaterThanEquals => ">="
  | not => "~"
  | and => "&"
  | or => "|"

def isUnary : Op → Bool
  | plus | minus | not => true
  | _ => false

def isBinary : Op → Bool
  | not => false
  | _ => true

end Op

inductive Punct
  | leftParen | rightParen | leftBrack | rightBrack | comma | semiColon
  deriving DecidableEq, Repr

def Punct.text : Punct → String
  | .leftParen => "("
  | .rightParen => ")"
  | .leftBrack => "["
  | .rightBrack => "]"
  | .comma => ","
  | .semiColon => ";"

inductive PrimFun
  | isNumber | isFunction | isList | isNull | isCons | arity | cons | first | rest
  deriving DecidableEq, Repr

def PrimFun.text : PrimFun → String
  | .isNumber => "number?"
  | .isFunction => "function?"
  | .isList => "list?"
  | .isNull => "null?"
  | .isCons => "cons?"
  | .arity => "arity"
  | .cons => "cons"
  | .first => "first"
  | .rest => "rest"

inductive Token
  | intConstant (value : Int)
  | identifier (name : Ident)
  | keyword (k : Keyword)
  | operator (op : Op)
  | punct (p : Punct)
  | bool (value : Bool)
  | null
  | primFun (f : PrimFun)
  deriving DecidableEq, Repr

inductive TokenKind
  | intConstant | identifier | keyword | operator | punctuation | boolConstant
  | nullConstant | primFun
  deriving DecidableEq, Repr

def TokenKind.name : TokenKind → String
  | .intConstant => "IntConstant"
  | .identifier => "Identifier"
  | .keyword => "Keyword"
  | .operator => "Operator"
  | .punctuation => "Punctuation"
  | .boolConstant => "BoolConstant"
  | .nullConstant => "NullConstant"
  | .primFun => "PrimFun"

namespace Token

def kind : Token → TokenKind
  | intConstant _ => .intConstant
  | identifier _ => .identifier
  | keyword _ => .keyword
  | operator _ => .operator
  | punct _ => .punctuation
  | bool _ => .boolConstant
  | null => .nullConstant
  | primFun _ => .primFun

def text : Token → String
  | intConstant value => toString value
  | identifier name => name.spelling
  | keyword k => k.text
  | operator op => op.text
  | punct p => p.text
  | bool true => "true"
  | bool false => "false"
  | null => "null"
  | primFun f => f.text

def op? : Token → Option Op
  | operator op => some op
  | _ => none

def isUnary (t : Token) : Bool := t.op?.any Op.isUnary

def isBinary (t : Token) : Bool := t.op?.any Op.isBinary

/-- Equality of tokens, where identifiers count as equal if they are spelled alike. -/
def sameText : Token → Token → Bool
  | identifier a, identifier b => a.sameName b
  | a, b => decide (a = b)

/-- The token that a character is by itself, whatever follows it. -/
def ofChar? : Char → Option Token
  | '(' => some (punct .leftParen)
  | ')' => some (punct .rightParen)
  | '[' => some (punct .leftBrack)
  | ']' => some (punct .rightBrack)
  | ',' => some (punct .comma)
  | ';' => some (punct .semiColon)
  | '+' => some (operator .plus)
  | '-' => some (operator .minus)
  | '*' => some (operator .times)
  | '/' => some (operator .divide)
  | '~' => some (operator .not)
  | '=' => some (operator .equals)
  | '&' => some (operator .and)
  | '|' => some (operator .or)
  | _ => none

end Token

/-- A character that makes one token together with an equals sign behind it. -/
structure Pairing where
  /-- The token made with the equals sign. -/
  paired : Token
  /-- The token made without, if there is one. -/
  single : Option Token
  deriving DecidableEq, Repr

def Pairing.ofChar? : Char → Option Pairing
  | '<' => some ⟨.operator .lessThanEquals, some (.operator .lessThan)⟩
  | '>' => some ⟨.operator .greaterThanEquals, some (.operator .greaterThan)⟩
  | '!' => some ⟨.operator .notEquals, none⟩
  | ':' => some ⟨.keyword .bind, none⟩
  | _ => none

end JamTokens
