import JamTokens.Files.FileSystem

/-!
# The machine that a program runs on

What the program asks of its surroundings.  A session answers from a file
system and an input that are values; only the outermost layer asks a real
machine.
-/

set_option autoImplicit false

namespace JamTokens

class Machine (m : Type → Type) where
  isPresent : String → m Bool
  readFile : String → m (Except Failure ByteArray)
  openFile : String → m (Except Failure Source)
  standardInput : m Source
  saveFile : String → ByteArray → m (Except Failure Unit)

structure Session where
  files : FileSystem
  input : Source

instance : Machine (StateM Session) where
  isPresent path := return (← get).files.isPresent (.ofString path)
  readFile path := return (← get).files.read (.ofString path)
  openFile path := return (← get).files.openSource (.ofString path)
  standardInput := return (← get).input
  saveFile path content := do
    let session ← get
    let (result, files) := session.files.save (.ofString path) content
    set { session with files := files }
    return result

end JamTokens
