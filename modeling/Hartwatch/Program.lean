import Hartwatch.CommandLine
import Hartwatch.Debugger.Dialogue
import Hartwatch.Files
import Hartwatch.Image

/-! The whole program: a command line and an input become an output and an exit code. The log
file is created before the image is read, so an image at the log's path is the log as it stands
then; both come before the session starts, and there is no output until then. -/

namespace Hartwatch.Program

def version : String := "rvdb 0.1.0\n"

def usage : String :=
  "RV32IM instruction-set emulator with an interactive debugger.\n\n" ++
  "Usage: rvdb [OPTIONS] [IMAGE]\n\n" ++
  "Arguments:\n" ++
  "  [IMAGE]  Raw binary image loaded at the reset vector. A built-in program runs when " ++
  "omitted\n\n" ++
  "Options:\n" ++
  "  -b, --batch                      Run the program to the end without reading commands\n" ++
  "  -l, --log <FILE>                 Write logs to FILE instead of stderr\n" ++
  "      --memory-size <MEMORY_SIZE>  Guest memory size in bytes [default: 134217728]\n" ++
  "  -h, --help                       Print help\n" ++
  "  -V, --version                    Print version\n"

structure Result where
  output : ByteArray
  exitCode : Nat
  files : Files

def badCommandLine : Nat := 2

def failure : Nat := 1

/-- The log's first record, which it gets as soon as it is created. -/
def logOpening (time path : String) : String :=
  time ++ "  INFO rvdb: Log is written to " ++ path ++ "\n"

def openLog (files : Files) (time : String) (log? : Option String) : Except FileError Files :=
  match log? with
  | none => .ok files
  | some path => files.write path ((logOpening time path).toUTF8.toList.map UInt8.toBitVec)

def boot (read : String → Except FileError (List Byte)) (config : Config)
    (image? : Option String) : Except Crash (Except Image.Error Machine) := do
  let m ← Machine.create config
  match image? with
  | none =>
    let (result, m) ← m.loadBuiltin
    return result.map fun _ => m
  | some path =>
    match read path with
    | .error e => return .error (.unreadable path e.message)
    | .ok image =>
      let (result, m) ← m.load image
      return result.map fun _ => m

def exitCode (d : Debugger) : Nat :=
  if d.machine.status.isBad then failure else 0

def converse (o : Options) (m : Machine) (input : List UInt8) : Except Crash (ByteArray × Nat) := do
  let d := { Debugger.create m (.empty none) with batch := o.batch }
  let (result, d) ← (Debugger.session input).on d
  match result with
  | .ok () => return (d.out.bytes, exitCode d)
  | .error _ => return (d.out.bytes, failure)

def start (files : Files) (time : String) (o : Options) (input : List UInt8) :
    Except Crash Result := do
  match openLog files time o.log? with
  | .error _ => return ⟨.empty, failure, files⟩
  | .ok files =>
    match ← boot files.read o.config o.image? with
    | .error _ => return ⟨.empty, failure, files⟩
    | .ok m =>
      let (output, code) ← converse o m input
      return ⟨output, code, files⟩

/-- The time is the text that log records start with. -/
def run (files : Files) (time : String) (args : List String) (input : List UInt8) :
    Except Crash Result :=
  match CommandLine.parse args with
  | .error _ => .ok ⟨.empty, badCommandLine, files⟩
  | .ok .help => .ok ⟨usage.toUTF8, 0, files⟩
  | .ok .version => .ok ⟨version.toUTF8, 0, files⟩
  | .ok (.run o) => start files time o input

end Hartwatch.Program
