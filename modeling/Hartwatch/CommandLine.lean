import Hartwatch.Machine

/-! The command line: an optional image, and options. An option's value stands behind an equals
sign or in the next argument, which may not look like an option itself; short options may
share one dash; behind `--` there are no more options. Nothing may be given twice. Arguments
are read in order, so the first request for help or the version and the first mistake win
over all that follows. -/

namespace Hartwatch

structure Options where
  image? : Option String
  batch : Bool
  log? : Option String
  memorySize? : Option Nat
  deriving DecidableEq, Repr

namespace Options

def none : Options :=
  ⟨Option.none, false, Option.none, Option.none⟩

def memorySize (o : Options) : Nat :=
  o.memorySize?.getD Config.defaultMemorySize

def config (o : Options) : Config :=
  { Config.default with memorySize := o.memorySize }

end Options

namespace CommandLine

inductive Mistake where
  | unknown (argument : String)
  | repeated (name : String)
  | missingValue (name : String)
  | unneededValue (name : String)
  | invalidValue (name : String) (value : String)
  deriving DecidableEq, Repr

inductive Request where
  | run (options : Options)
  | help
  | version
  deriving DecidableEq, Repr

def Mistake.message : Mistake → String
  | unknown argument => s!"error: unexpected argument '{argument}' found"
  | repeated name => s!"error: the argument '{name}' cannot be used multiple times"
  | missingValue name => s!"error: a value is required for '{name}' but none was supplied"
  | unneededValue name => s!"error: unexpected value for '{name}' found"
  | invalidValue name value => s!"error: invalid value '{value}' for '{name}'"

def minMemorySize : Nat := 4

def maxMemorySize : Nat := 0x80000000

/-- Takes a path that is not empty into a place that is still free. -/
def path (name : String) (place : Option String) (value : String) :
    Except Mistake (Option String) :=
  if place.isSome then .error (.repeated name)
  else if value.isEmpty then .error (.missingValue name)
  else .ok (some value)

def setImage (o : Options) (value : String) : Except Mistake Options :=
  if o.image?.isSome then .error (.unknown value)
  else do return { o with image? := ← path "[IMAGE]" o.image? value }

def setBatch (o : Options) : Except Mistake Options :=
  if o.batch then .error (.repeated "--batch") else .ok { o with batch := true }

def setLog (o : Options) (value : String) : Except Mistake Options := do
  return { o with log? := ← path "--log <FILE>" o.log? value }

def setMemorySize (o : Options) (value : String) : Except Mistake Options :=
  let name := "--memory-size <MEMORY_SIZE>"
  if o.memorySize?.isSome then .error (.repeated name)
  else match Text.natBelow? (1 <<< 64) value with
    | some n =>
      if minMemorySize ≤ n ∧ n ≤ maxMemorySize then .ok { o with memorySize? := some n }
      else .error (.invalidValue name value)
    | none => .error (.invalidValue name value)

/-- What is left to do with the argument behind the present one. -/
inductive Pending where
  | nothing
  | log
  | memorySize
  /-- All that follows is an image. -/
  | images
  deriving DecidableEq, Repr

inductive Progress where
  | next (pending : Pending) (options : Options)
  | done (request : Request)
  deriving DecidableEq, Repr

def next (o : Except Mistake Options) : Except Mistake Progress :=
  o.map (.next .nothing)

def cutAtEquals (cs : List Char) : String × Option String :=
  match cs.dropWhile (· ≠ '=') with
  | [] => (.ofList cs, none)
  | _ :: value => (.ofList (cs.takeWhile (· ≠ '=')), some (.ofList value))

def long (o : Options) (cs : List Char) : Except Mistake Progress :=
  match cutAtEquals cs with
  | ("batch", none) => next (setBatch o)
  | ("help", none) => .ok (.done .help)
  | ("version", none) => .ok (.done .version)
  | ("log", none) => .ok (.next .log o)
  | ("log", some value) => next (setLog o value)
  | ("memory-size", none) => .ok (.next .memorySize o)
  | ("memory-size", some value) => next (setMemorySize o value)
  | (name, some _) =>
    if name = "batch" ∨ name = "help" ∨ name = "version" then .error (.unneededValue ("--" ++ name))
    else .error (.unknown ("--" ++ name))
  | (name, none) => .error (.unknown ("--" ++ name))

def short (o : Options) : List Char → Except Mistake Progress
  | [] => .ok (.next .nothing o)
  | 'b' :: cs => do short (← setBatch o) cs
  | 'h' :: _ => .ok (.done .help)
  | 'V' :: _ => .ok (.done .version)
  | ['l'] => .ok (.next .log o)
  | 'l' :: '=' :: value => next (setLog o (.ofList value))
  | 'l' :: value => next (setLog o (.ofList value))
  | c :: _ => .error (.unknown (.ofList ['-', c]))

def argument (o : Options) (arg : String) : Except Mistake Progress :=
  match arg.toList with
  | ['-', '-'] => .ok (.next .images o)
  | '-' :: '-' :: cs => long o cs
  | ['-'] => next (setImage o arg)
  | '-' :: cs => short o cs
  | _ => next (setImage o arg)

def looksLikeOption (arg : String) : Bool :=
  match arg.toList with
  | '-' :: _ :: _ => true
  | _ => false

def parseFrom : Pending → Options → List String → Except Mistake Request
  | .log, _, [] => .error (.missingValue "--log <FILE>")
  | .memorySize, _, [] => .error (.missingValue "--memory-size <MEMORY_SIZE>")
  | _, o, [] => .ok (.run o)
  | pending, o, arg :: args => do
    let progress ← match pending with
      | .nothing => argument o arg
      | .images => (setImage o arg).map (.next .images)
      | .log =>
        if looksLikeOption arg then .error (.missingValue "--log <FILE>") else next (setLog o arg)
      | .memorySize =>
        if looksLikeOption arg then .error (.missingValue "--memory-size <MEMORY_SIZE>")
        else next (setMemorySize o arg)
    match progress with
    | .done request => return request
    | .next pending o => parseFrom pending o args

def parse (args : List String) : Except Mistake Request :=
  parseFrom .nothing .none args

end CommandLine

end Hartwatch
