import Offside.Command.Run

/-!
# `Main` — the command on a real computer

Runs the command on the file system and the standard streams. Colours are used on a terminal, and wherever
the environment asks for them.
-/

namespace Offside.Command

/-- A failure of the system, as a fault of the file. Codes of the system come with either sign. -/
def faultOf (e : IO.Error) : FileFault :=
  match e with
  | .noFileOrDirectory .. => .missing
  | .inappropriateType _ code _ =>
    if code = 20 ∨ code = -20 then .notDirectory
    else if code = 21 ∨ code = -21 then .isDirectory
    else .other (toString e)
  | _ => .other (toString e)

/-- The file system. -/
def fileSystem : FileAccess IO where
  read path := do
    try
      return decodeText (← IO.FS.readBinFile path)
    catch e => return .error (faultOf e)
  write path text := do
    try
      IO.FS.writeFile path text
      return .ok ()
    catch e => return .error (faultOf e)

/-- Colours are welcome: the environment forces them, or forbids nothing and the output is a terminal. -/
def coloursWelcome : IO Bool := do
  match ← IO.getEnv "NO_COLOR", ← IO.getEnv "CLICOLOR_FORCE" with
  | _, some force => if force ≠ "0" then return true else (← IO.getStdout).isTty
  | some _, none => return false
  | none, none => (← IO.getStdout).isTty

end Offside.Command

/-- The command. -/
def main (args : List String) : IO UInt32 := do
  let outcome ← Offside.Command.run Offside.Command.fileSystem (← Offside.Command.coloursWelcome) args
  (← IO.getStderr).putStr outcome.err
  (← IO.getStdout).putStr outcome.out
  return outcome.exit.toUInt32
