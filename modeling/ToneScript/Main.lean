import Std.Time.DateTime.Timestamp
import ToneScript.CommandLine.Run
/-!
The command line program. Texts hold one character for each byte, so bytes are read and written one by
one.
-/
namespace ToneScript.CommandLine

/-- The text of some bytes. -/
def textOfBytes (bytes : ByteArray) : String :=
  String.ofList (bytes.toList.map fun b => Char.ofNat b.toNat)

/-- The bytes of a text. -/
def bytesOfText (text : String) : ByteArray :=
  ⟨(text.toList.map fun c => UInt8.ofNat c.toNat).toArray⟩

/-- The name that the operating system knows a path by. -/
def systemPath (path : String) : String :=
  (String.fromUTF8? (bytesOfText path)).getD path

/-- The content of a file. What can be opened but not read, such as a directory, counts as empty. -/
def readFile (path : String) : IO (Option String) := do
  match ← (IO.FS.Handle.mk (systemPath path) .read).toBaseIO with
  | .error _ => return none
  | .ok handle =>
    match ← handle.readBinToEnd.toBaseIO with
    | .error _ => return some ""
    | .ok bytes => return some (textOfBytes bytes)

/-- Writes a text to a stream. -/
def writeTo (stream : IO.FS.Stream) (text : String) : IO Unit := do
  stream.write (bytesOfText text)
  stream.flush

/-- Whether the standard error output is a terminal that shows colors. -/
def showsColors : IO Bool := do
  if ← (← IO.getStderr).isTty then
    return (← IO.getEnv "TERM").any (· != "dumb")
  else return false

/-- Surroundings that are the operating system. An open log file is kept in `logFile`. -/
def systemHost (logFile : IO.Ref (Option IO.FS.Handle)) : IO (Host IO) := do
  let out ← IO.getStdout
  let err ← IO.getStderr
  let setting := (← IO.getEnv "SYNTH_LOG").getD ""
  return {
    readFile
    openLog := fun path => do
      match ← (IO.FS.Handle.mk (systemPath path) .append).toBaseIO with
      | .error _ => return false
      | .ok handle =>
        logFile.set (some handle)
        return true
    log := fun
      | .console text => writeTo err text
      | .file _ text => do
        if let some handle ← logFile.get then
          handle.write (bytesOfText text)
      | .kept .. | .flushed _ => pure ()
    out := writeTo out
    err := writeTo err
    now := return (← Std.Time.Timestamp.now).toMillisecondsSinceUnixEpoch.val
    logSetting := textOfBytes setting.toUTF8
    colors := ← showsColors }

end ToneScript.CommandLine

/-- Runs the program with the arguments of the command line. -/
def main (args : List String) : IO UInt32 := do
  let host ← ToneScript.CommandLine.systemHost (← IO.mkRef none)
  ToneScript.CommandLine.run host {} (args.map fun arg => ToneScript.CommandLine.textOfBytes arg.toUTF8)
