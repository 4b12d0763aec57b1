import Hartwatch.Debugger.Session

/-! Runs under watchpoints. After each retired instruction a debugger looks at its watchpoints
and stops where one changed; short runs echo their instructions. Changes are reported before
the end of the program is. -/

namespace Hartwatch.Debugger

/-- Runs of fewer steps echo their instructions. -/
def echoLimit : Nat := 10

def echoes : Budget → Bool
  | .limited n => n < echoLimit
  | .unlimited => false

structure Watcher where
  pool : WatchpointPool
  changes : List Watchpoint.Change
  out : Sink
  error? : Option Error

def echoLine (s : Step) : String :=
  s!"{Text.wordHex s.pc}: {Text.wordDigits s.word}\t{s.opcode.name}\n"

/-- Looks at the watchpoints after a step, and stops at a change or an error. -/
def lookAround (h : Hart) (w : Watcher) : Control × Watcher :=
  let found := w.pool.detect h.context
  let w := { w with pool := found.pool, changes := w.changes ++ found.changes }
  match found.error? with
  | some e => (.stop, { w with error? := some (.watchpoint e) })
  | none => (if found.changes.isEmpty then .go else .stop, w)

def watcher (echo : Bool) : Monitor Watcher :=
  fun s h w =>
    if echo then
      let (complete, out) := w.out.write (echoLine s)
      let w := { w with out }
      if complete then lookAround h w
      else (.stop, { w with error? := some (.stream .outputFull) })
    else lookAround h w

def changeText (c : Watchpoint.Change) : String :=
  s!"\nwatchpoint {Text.decimal c.number}: {c.expr}\n\nOld value = {Text.decimal c.old.toNat}\n" ++
    s!"New value = {Text.decimal c.new.toNat}\n"

def endedNotice : String :=
  "Program execution has ended. To restart the program, exit rvdb and run again."

def reportEnd : Session Unit := do
  let m := (← get).machine
  match m.status.report? with
  | none => return ()
  | some report =>
    writeLine report
    writeLine s!"total guest instructions = {Text.decimal m.retired}"

def watchedRun (budget : Budget) : Session Watcher := do
  let d ← get
  let (machine, w) ← d.machine.run budget (watcher (echoes budget)) ⟨d.pool, [], d.out, none⟩
  set { d with machine, pool := w.pool, out := w.out }
  return w

/-- Runs the program and answers with the changes that stopped it. An error on the way hides
the changes and the end of the program from the output. -/
def run (budget : Budget) : Session (List Watchpoint.Change) := do
  if (← get).machine.status.hasEnded then
    writeLine endedNotice
    return []
  else
    let w ← watchedRun budget
    match w.error? with
    | some e => throw e
    | none =>
      w.changes.forM fun c => write (changeText c)
      reportEnd
      return w.changes

end Hartwatch.Debugger
