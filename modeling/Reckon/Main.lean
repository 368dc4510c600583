import Reckon.Invocation

/-!
The command line. A session is answered line by line as it is typed.
-/

set_option autoImplicit false
set_option relaxedAutoImplicit false

namespace Reckon.Main

def logVariable : String := "MINICALC_LOG"

/-- Reads bytes up to and including a line feed, or to the end of the input. -/
partial def readLine (input : IO.FS.Stream) (read : ByteArray) : IO ByteArray := do
  let next ← input.read 1
  if next.isEmpty then return read
  if next.data.back? = some Text.lineFeed then return read ++ next
  readLine input (read ++ next)

def write (reply : Reply) : IO Unit := do
  IO.print reply.out
  IO.eprint reply.err

/-- Takes turns as `Session.converse` does, with the lines as they are typed. -/
partial def interact (s : Session) : IO UInt32 := do
  let out ← IO.getStdout
  out.putStr Session.prompt
  out.flush
  let line ← readLine (← IO.getStdin) .empty
  match if line.isEmpty then .error .done else s.turn line.toList with
  | .error ending =>
    IO.eprint ending.err
    return ending.exit
  | .ok (next, reply) =>
    write reply
    interact next

end Reckon.Main

open Reckon in
def main (arguments : List String) : IO UInt32 := do
  let verbosity := Verbosity.ofSetting (← IO.getEnv Main.logVariable)
  match Request.ofArguments arguments with
  | .run ⟨showTree, none⟩ => Main.interact ⟨showTree, verbosity⟩
  | request =>
    let transcript := request.transcript verbosity []
    Main.write ⟨transcript.out, transcript.err⟩
    return transcript.exit
