import JamTokens.Token
import JamTokens.Text.Position
import JamTokens.Text.Quoted

/-!
# What is printed of a token

A token is printed on a line of its own, either as plain words or as a JSON
object.  The object also tells where the token starts.
-/

set_option autoImplicit false

namespace JamTokens

inductive OutputFormat
  | plain | json
  deriving DecidableEq, Repr

namespace OutputFormat

def name : OutputFormat → String
  | plain => "plain"
  | json => "json"

/-- The format of the given name, which is written in lower case. -/
def ofName? (s : String) : Option OutputFormat :=
  if s = "plain" then some plain
  else if s = "json" then some json
  else none

end OutputFormat

structure TokenRecord where
  kind : String
  text : String
  line : Nat
  column : Nat
  deriving DecidableEq, Repr

namespace TokenRecord

def ofToken (t : Token) (start : Position) : TokenRecord :=
  ⟨t.kind.name, t.text, start.line, start.column⟩

def plain (r : TokenRecord) : String := s!"Token {r.text} in {r.kind}"

def field (name value : String) : String := Quoted.json name ++ ":" ++ value

def json (r : TokenRecord) : String :=
  let fields :=
    [field "kind" (Quoted.json r.kind), field "text" (Quoted.json r.text),
     field "line" (toString r.line), field "column" (toString r.column)]
  "\x7b" ++ ",".intercalate fields ++ "\x7d"

end TokenRecord

end JamTokens
