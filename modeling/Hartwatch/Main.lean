import Hartwatch.Program
import Std.Time.Format

/-! The executable: the program on real files, standard input and standard output. It reads a
line only when the session asks for one, and shows what was written before it waits. -/

namespace Hartwatch.Main

def orFail {α : Type} (x : Except Crash α) : IO α :=
  match x with
  | .ok v => return v
  | .error _ => throw (.userError "the machine crashed")

/-- The bytes up to the next newline, which is among them, or to the end of the input. -/
partial def readLine (input : IO.FS.Stream) (pending : ByteArray) : IO ByteArray := do
  let chunk ← input.read 1
  if chunk.isEmpty then return pending
  else if chunk.toList = [10] then return pending ++ chunk
  else readLine input (pending ++ chunk)

def perform {α : Type} (output : IO.FS.Stream) (d : Debugger) (action : Session α) :
    IO (Except Debugger.Error α × Debugger) := do
  let (result, d) ← orFail (action.on d)
  output.write d.out.bytes
  output.flush
  return (result, { d with out := .empty none })

partial def converse (input output : IO.FS.Stream) (d : Debugger) :
    IO (Except Debugger.Error Unit × Debugger) := do
  let (_, d) ← perform output d Debugger.prompt
  match Text.lines (← readLine input .empty).toList with
  | [] => return (.ok (), d)
  | none :: _ => return (.error (.stream .invalidText), d)
  | some line :: _ =>
    match ← perform output d (Debugger.respond line) with
    | (.error e, d) => return (.error e, d)
    | (.ok .leave, d) => return (.ok (), d)
    | (.ok .go, d) => converse input output d

def session (d : Debugger) : IO (Except Debugger.Error Unit × Debugger) := do
  let output ← IO.getStdout
  if d.batch then
    let (result, d) ← perform output d (Debugger.run .unlimited)
    return (result.map fun _ => (), d)
  else converse (← IO.getStdin) output d

def readFile (path : String) : IO (Except FileError (List Byte)) := do
  try return .ok ((← IO.FS.readBinFile path).toList.map UInt8.toBitVec)
  catch e => return .error (.other (toString e))

/-- Reads the image's file if there is one, the only path that is ever asked for. -/
def imageReader (o : Options) : IO (String → Except FileError (List Byte)) := do
  match o.image? with
  | none => return fun _ => .error .notFound
  | some path =>
    let content ← readFile path
    return fun _ => content

def now : IO String := do
  let wall := (← Std.Time.Timestamp.now).toWallTime Std.Time.TimeZone.UTC.offset
  return (Std.Time.PlainDateTime.ofWallTime wall).format "uuuu-MM-dd'T'HH:mm:ss.SSSSSS'Z'"

/-- Creates the log file. That a record cannot be written to it is no failure. -/
def openLog (path : String) : IO Unit := do
  let log ← IO.FS.Handle.mk path .write
  try log.putStr (Program.logOpening (← now) path); log.flush
  catch e => IO.eprintln (toString e)

def failWith (message : String) (exitCode : Nat) : IO UInt32 := do
  IO.eprintln message
  return .ofNat exitCode

def start (o : Options) : IO UInt32 := do
  if let some path := o.log? then openLog path
  match ← orFail (Program.boot (← imageReader o) o.config o.image?) with
  | .error e => failWith e.message Program.failure
  | .ok m =>
    let (result, d) ← session { Debugger.create m (.empty none) with batch := o.batch }
    match result with
    | .error e => failWith e.message Program.failure
    | .ok () => return .ofNat (Program.exitCode d)

end Hartwatch.Main

open Hartwatch in
def main (args : List String) : IO UInt32 := do
  match CommandLine.parse args with
  | .error mistake => Main.failWith mistake.message Program.badCommandLine
  | .ok .help => IO.print Program.usage; return 0
  | .ok .version => IO.print Program.version; return 0
  | .ok (.run o) =>
    try Main.start o
    catch e => Main.failWith (toString e) Program.failure
