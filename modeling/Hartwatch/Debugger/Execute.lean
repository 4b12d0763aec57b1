import Hartwatch.Debugger.Run

/-! Command lines. A line is a command's name and, behind a blank, its arguments; blanks around
either are dropped, and an empty line does nothing. -/

namespace Hartwatch

inductive Flow where
  | go
  | leave
  deriving DecidableEq, Repr

namespace Debugger

def fail {α : Type} (e : ArgumentError) : Session α :=
  throw (.argument e)

def command (name : String) : Session Command :=
  match Command.ofName? name with
  | some c => return c
  | none => throw (.unknownCommand name)

def evaluate (expr : String) : Session Word := do
  let d ← get
  match Expr.evaluate d.machine.hart.context expr with
  | .ok v => return v
  | .error e => throw (.expression e)

def singleWord (args : String) : Session String :=
  match Text.words args with
  | [] => fail .missing
  | [word] => return word
  | _ :: word :: _ => fail (.extra word)

def help (args : String) : Session Unit := do
  if args.isEmpty then Command.all.forM fun c => writeLine c.describe
  else writeLine (← command args).describe

/-- A negative count runs without a limit. -/
def stepInstructions (args : String) : Session Unit := do
  let budget ← if args.isEmpty then pure (.limited 1) else
    match Text.signed? 64 (← singleWord args) with
    | some n => pure (if n < 0 then .unlimited else .ofCount n.toNat)
    | none => fail (.stepCount args)
  let _ ← run budget

def watchpointLine (number value expr : String) : String :=
  Text.padRight 8 number ++ Text.padRight 12 value ++ expr

def listWatchpoints : Session Unit := do
  let d ← get
  if d.pool.isEmpty then writeLine "No watchpoints."
  else
    writeLine (watchpointLine "Num" "Value" "What")
    d.pool.watchpoints.forM fun w =>
      writeLine (watchpointLine (Text.decimal w.number) (Text.decimal w.value.toNat) w.expr)

def info (args : String) : Session Unit := do
  if args = "r" then write (← get).machine.hart.dump
  else if args = "w" then listWatchpoints
  else if args.isEmpty then fail .noTopic
  else fail (.unknownTopic args)

def wordsPerLine : Nat := 4

/-- Prints `count` words from the `i`-th one behind `base` on, and stops at the first one that
cannot be read, which is the answer. -/
def examineFrom (base : Word) : (count i : Nat) → Session (Option Word)
  | 0, _ => return none
  | count + 1, i => do
    let distance ← Checked.mulUnsigned 64 i 4
    let a := base + distance.setWidth 32
    if i % wordsPerLine = 0 then
      if 0 < i then write "\n"
      write (Text.wordHex a ++ ":")
    match (← get).machine.hart.readWord? a with
    | none => return some a
    | some v =>
      write ("\t" ++ Text.wordHex v)
      examineFrom base count (i + 1)

def examine (args : String) : Session Unit := do
  let some (count, expr) := Text.cutAtBlank? args | fail .examineUsage
  let some count := Text.natBelow? (1 <<< 64) count | fail .examineUsage
  let base ← evaluate expr
  let unreadable? ← examineFrom base count 0
  if 0 < count then write "\n"
  if let some a := unreadable? then throw (.expression (.memory a))

def print (args : String) : Session Unit := do
  let v ← evaluate args
  let number := (← get).printed
  writeLine s!"${Text.decimal number} = {Text.decimal v.toNat}"
  let printed ← Checked.succ number
  modify fun d => { d with printed }

def watch (args : String) : Session Unit := do
  let d ← get
  match d.pool.watch d.machine.hart.context args with
  | .error e => throw (.watchpoint e)
  | .ok (h, pool) =>
    set { d with pool }
    let value := Text.decimal (pool.slots.get h).value.toNat
    writeLine s!"watchpoint {Text.decimal h.val}: {args}, initial value: {value}"

def delete (args : String) : Session Unit := do
  let some number := Text.natBelow? (1 <<< 64) (← singleWord args) | fail (.watchpointNumber args)
  let d ← get
  let (result, pool) ← d.pool.delete number
  set { d with pool }
  if let .error e := result then throw (.watchpoint e)

def quit : Session Unit :=
  modify fun d => { d with machine := d.machine.quit }

def perform (args : String) : Command → Session Flow
  | .help => do help args; return .go
  | .resume => do let _ ← run .unlimited; return .go
  | .quit => do quit; return .leave
  | .stepInstructions => do stepInstructions args; return .go
  | .info => do info args; return .go
  | .examine => do examine args; return .go
  | .print => do print args; return .go
  | .watch => do watch args; return .go
  | .delete => do delete args; return .go

def parts (line : String) : String × String :=
  match Text.cutAtBlank? line with
  | some (name, args) => (name, Text.trim args)
  | none => (line, "")

def execute (line : String) : Session Flow := do
  let line := Text.trim line
  if line.isEmpty then return .go
  let (name, args) := parts line
  perform args (← command name)

end Debugger

end Hartwatch
