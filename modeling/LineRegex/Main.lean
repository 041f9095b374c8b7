/-
LineRegex.Main — the programs: searching files, and three interactive ones.

Everything is decided by `grep` and by the sessions; here bytes are read
and written.

  §1 Bytes     — texts of bytes, to and from the outside.
  §2 Grep      — `main`.
  §3 Sessions  — `searchMain`, `replaceMain` and `compileMain`.
-/
import LineRegex.CommandLine.Grep
import LineRegex.CommandLine.Session

namespace LineRegex

/-! ## §1 Bytes -/

/-- The text of a sequence of bytes. -/
def textOfBytes (bytes : ByteArray) : Text := (bytes.toList.map UInt8.toNat).toArray

/-- The bytes of a text. -/
def bytesOfText (t : Text) : ByteArray := ⟨t.map UInt8.ofNat⟩

/-- The bytes of a string. -/
def textOfString (s : String) : Text := textOfBytes s.toUTF8

/-- Reads a stream to its end, behind what has been read. It ends where it cannot be read on. -/
partial def readAll (stream : IO.FS.Stream) (read : ByteArray) : IO ByteArray := do
  let chunk ← try stream.read 65536 catch _ => pure .empty
  if chunk.isEmpty then return read
  readAll stream (read ++ chunk)

/-- Reads the rest of a line; nothing if the stream ends before it begins. -/
partial def readLine? (stream : IO.FS.Stream) (read : ByteArray) : IO (Option Text) := do
  let chunk ← stream.read 1
  if chunk.isEmpty then
    return if read.isEmpty then none else some (textOfBytes read)
  if chunk.toList = [10] then return some (textOfBytes read)
  readLine? stream (read ++ chunk)

/-- Writes a text at once. -/
def write (stream : IO.FS.Stream) (t : Text) : IO Unit := do
  stream.write (bytesOfText t)
  stream.flush

/-- The environment of the process, as far as it matters here. -/
def readEnvironment : IO Environment := do
  let values ← Variable.all.mapM fun v => do
    return (v.name, (← IO.getEnv v.name).map textOfString)
  return fun name => (values.lookup name).join

/-! ## §2 Grep -/

/-- Opens a file and reads it. -/
def readFile (path : String) : IO Reading := do
  match ← (IO.FS.Handle.mk path .read).toBaseIO with
  | .error _ => return .unopened
  | .ok handle =>
    match ← handle.readBinToEnd.toBaseIO with
    | .ok bytes => return .content (textOfBytes bytes)
    | .error e => return .brokenOff (textOfString ("uncaught exception: " ++ toString e ++ "\n"))

/-- Runs the search with the arguments of the process. -/
def grepMain (args : List String) : IO UInt32 := do
  let env ← readEnvironment
  let texts := args.map textOfString
  let operands :=
    match Command.ofArguments (Config.fromEnvironment env).1 texts with
    | .ok command => command.effectiveOperands
    | .error _ => []
  let files ← (args.zip texts).filterMapM fun (path, operand) => do
    if operands.contains operand && operand != standardInput then
      return some (operand, ← readFile path)
    else return none
  let input ←
    if operands.contains standardInput then readAll (← IO.getStdin) .empty else pure .empty
  let reading := fun operand => (files.lookup operand).getD .unopened
  let printed := grep ⟨env, reading, textOfBytes input⟩ texts
  write (← IO.getStderr) printed.err
  write (← IO.getStdout) printed.out
  return printed.exit.toUInt32

/-! ## §3 Sessions -/

/-- Carries a session on from a state, until the input ends. -/
partial def interactFrom {σ : Type} (session : Session σ) (s : σ) : IO Unit := do
  let out ← IO.getStdout
  write out (session.prompt s)
  match ← readLine? (← IO.getStdin) .empty with
  | none => write out (session.finish s)
  | some line =>
    let (next, printed) := session.feed s line
    write out printed
    interactFrom session next

/-- Searches targets interactively. -/
def searchMain : IO Unit := interactFrom searchSession searchSession.initial

/-- Replaces in targets interactively. -/
def replaceMain : IO Unit := interactFrom replaceSession replaceSession.initial

/-- Compiles patterns and tries them interactively. -/
def compileMain : IO Unit := do
  let session := compileSessionIn (← readEnvironment)
  interactFrom session session.initial

end LineRegex

/-- The program `[options] PATTERN [FILE...]`. -/
def main (args : List String) : IO UInt32 := LineRegex.grepMain args
