import JamTokens.Lexeme
import JamTokens.Token
import JamTokens.Text.Quoted
import JamTokens.Diagnostics.RunError

/-!
# Inspecting values

The form in which a value is shown to a programmer: the name of its
constructor with the fields behind it, texts between quotes.  An error that
ends the program is shown in this form.
-/

set_option autoImplicit false

namespace JamTokens

def inspectCall (name field : String) : String := s!"{name}({field})"

def inspectFields (name : String) (fields : List (String × String)) : String :=
  let shown := fields.map fun (field, value) => s!"{field}: {value}"
  name ++ " \x7b " ++ ", ".intercalate shown ++ " \x7d"

namespace Position

def inspect (p : Position) : String :=
  inspectFields "Position" [("line", toString p.line), ("column", toString p.column)]

end Position

namespace Keyword

def inspect : Keyword → String
  | .if => "If"
  | .then => "Then"
  | .else => "Else"
  | .let => "Let"
  | .in => "In"
  | .map => "Map"
  | .to => "To"
  | .bind => "Bind"

end Keyword

namespace Op

def inspect : Op → String
  | plus => "Plus"
  | minus => "Minus"
  | times => "Times"
  | divide => "Divide"
  | equals => "Equals"
  | notEquals => "NotEquals"
  | lessThan => "LessThan"
  | greaterThan => "GreaterThan"
  | lessThanEquals => "LessThanEquals"
  | greaterThanEquals => "GreaterThanEquals"
  | not => "Not"
  | and => "And"
  | or => "Or"

end Op

namespace Punct

def inspect : Punct → String
  | leftParen => "LeftParen"
  | rightParen => "RightParen"
  | leftBrack => "LeftBrack"
  | rightBrack => "RightBrack"
  | comma => "Comma"
  | semiColon => "SemiColon"

end Punct

namespace PrimFun

def inspect : PrimFun → String
  | isNumber => "IsNumber"
  | isFunction => "IsFunction"
  | isList => "IsList"
  | isNull => "IsNull"
  | isCons => "IsCons"
  | arity => "Arity"
  | cons => "Cons"
  | first => "First"
  | rest => "Rest"

end PrimFun

def Token.inspect : Token → String
  | intConstant value => inspectCall "IntConstant" (toString value)
  | identifier name => inspectCall "Identifier" (inspectCall "Ident" (Quoted.inspect name.spelling))
  | keyword k => inspectCall "Keyword" k.inspect
  | operator op => inspectCall "Operator" op.inspect
  | punct p => inspectCall "Punct" p.inspect
  | bool value => inspectCall "Bool" (if value then "true" else "false")
  | null => "Null"
  | primFun f => inspectCall "PrimFun" f.inspect

def Lexeme.inspect : Lexeme → String
  | word text => inspectCall "Word" (Quoted.inspect text)
  | number text => inspectCall "Number" (Quoted.inspect text)
  | char c => inspectCall "Char" (Quoted.inspectOne c)
  | endOfInput => "Eof"

def Failure.inspect (f : Failure) : String :=
  inspectFields "Custom" [("kind", f.kind.name), ("error", Quoted.inspect f.message)]

def LexError.inspect : LexError → String
  | numericOverflow literal p =>
    inspectFields "NumericOverflow"
      [("literal", Quoted.inspect literal), ("position", p.inspect)]
  | illegalCharacter c p =>
    inspectFields "IllegalCharacter" [("ch", Quoted.inspectOne c), ("position", p.inspect)]
  | illegalOperatorSequence sequence p =>
    inspectFields "IllegalOperatorSequence"
      [("sequence", Quoted.inspect sequence), ("position", p.inspect)]
  | input f => inspectCall "Input" f.inspect

def LocatedText.inspect (t : LocatedText) : String :=
  s!"Error({Quoted.inspect t.words}, line: {t.line}, column: {t.column})"

def RunError.inspect : RunError → String
  | config cause => inspectCall "Config" (Quoted.inspect cause.message)
  | lex cause => inspectCall "Lex" cause.inspect
  | io cause => inspectCall "Io" cause.inspect
  | json cause => inspectCall "Json" cause.inspect
  | recovered count => inspectFields "Recovered" [("count", toString count)]

end JamTokens
