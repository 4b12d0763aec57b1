import Hartwatch.Debugger.Command
import Hartwatch.Debugger.Sink
import Hartwatch.Machine

/-! A debugger and the actions it takes. An action ends with a value or with an error, and
either way leaves a debugger behind; only a crash leaves nothing. -/

namespace Hartwatch

structure Debugger where
  machine : Machine
  pool : WatchpointPool
  /-- The number of the next printed value. -/
  printed : Nat
  /-- Whether a session runs the program once instead of reading commands. -/
  batch : Bool
  out : Sink

def Debugger.create (machine : Machine) (out : Sink) : Debugger :=
  ⟨machine, .empty, 0, false, out⟩

abbrev Session := ExceptT Debugger.Error (StateT Debugger (Except Crash))

namespace Session

variable {α β : Type}

def on (action : Session α) (d : Debugger) : Except Crash (Except Debugger.Error α × Debugger) :=
  action.run.run d

def continueWith (next : α → Session β) :
    Except Debugger.Error α × Debugger → Except Crash (Except Debugger.Error β × Debugger)
  | (.ok x, d) => (next x).on d
  | (.error e, d) => .ok (.error e, d)

theorem on_bind (action : Session α) (next : α → Session β) (d : Debugger) :
    (action >>= next).on d = action.on d >>= continueWith next := by
  change (action.on d >>= fun x => ExceptT.bindCont next x.1 x.2) = _
  congr 1
  funext x
  obtain ⟨r, d⟩ := x
  cases r <;> rfl

theorem on_liftM (x : Except Crash α) (d : Debugger) :
    (liftM x : Session α).on d = x.map fun v => (.ok v, d) := by
  cases x <;> rfl

end Session

namespace Debugger

def write (text : String) : Session Unit := do
  let d ← get
  let (complete, out) := d.out.write text
  set { d with out }
  unless complete do throw (.stream .outputFull)

theorem on_write (text : String) (d : Debugger) :
    (write text).on d =
      .ok (if (d.out.write text).1 then .ok () else .error (.stream .outputFull),
        { d with out := (d.out.write text).2 }) := by
  change (if (d.out.write text).1 = true then pure () else throw (.stream .outputFull) :
    Session Unit).on { d with out := (d.out.write text).2 } = _
  split <;> rfl

def writeLine (text : String) : Session Unit :=
  write (text ++ "\n")

end Debugger

end Hartwatch
