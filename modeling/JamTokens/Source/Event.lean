import JamTokens.Source.Failure
import JamTokens.Text.Utf8

/-!
# What a source of text does

A source is read byte by byte.  Besides delivering a byte it may report that
there is no more input just now, as a console does at the end of a typed
line, and it may fail; after either it can go on.  Once its events are used
up it reports the end of input for ever.
-/

set_option autoImplicit false

namespace JamTokens

inductive SourceEvent
  | byte (b : UInt8)
  | pause
  | failure (f : Failure)
  deriving DecidableEq, Repr

abbrev Source := List SourceEvent

namespace Source

def ofBytes (bytes : List UInt8) : Source := bytes.map .byte

def ofText (text : List Char) : Source := ofBytes (Utf8.encode text)

def ofString (s : String) : Source := ofBytes s.toUTF8.data.toList

def ofFailure (f : Failure) : Source := [.failure f]

end Source

end JamTokens
