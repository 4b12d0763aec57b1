import Hartwatch.Hart

/-! A machine runs a hart: it counts the instructions that retire, shows each to a monitor, and
knows in its status why it is not running. An `ebreak` and an `ecall` retire although they
trap; no other trapping instruction does. -/

namespace Hartwatch

structure Config where
  memoryBase : Word
  memorySize : Nat
  /-- Where the pc starts and images go. -/
  resetVector : Word
  deriving DecidableEq, Repr

namespace Config

def ramStart : Word := 0x80000000

def defaultMemorySize : Nat := 0x8000000

def default : Config :=
  ⟨ramStart, defaultMemorySize, ramStart⟩

end Config

inductive Status where
  | running
  | stopped
  /-- A user left the session. -/
  | quit
  /-- The program hit a breakpoint, with what it handed back. -/
  | trapped (pc : Word) (value : Word)
  /-- The program made the exit call. -/
  | halted (pc : Word) (code : Word)
  | aborted (pc : Word) (trap : Trap)
  deriving DecidableEq, Repr

namespace Status

def hasEnded : Status → Bool
  | trapped .. | halted .. | aborted .. => true
  | running | stopped | quit => false

def isBad : Status → Bool
  | quit => false
  | trapped _ value => value != 0
  | halted _ code => code != 0
  | running | stopped | aborted .. => true

def report? : Status → Option String
  | trapped pc value =>
    if value = 0 then some s!"rvdb: HIT GOOD TRAP at pc = {Text.wordHex pc}"
    else some s!"rvdb: HIT BAD TRAP at pc = {Text.wordHex pc} (a0 = {Text.hex value.toNat})"
  | halted pc code =>
    some s!"rvdb: program exited with code {Text.decimal code.toNat} at pc = {Text.wordHex pc}"
  | aborted pc trap => some s!"rvdb: ABORT at pc = {Text.wordHex pc}: {trap.message}"
  | running | stopped | quit => none

end Status

inductive Budget where
  | limited (steps : Nat)
  | unlimited
  deriving DecidableEq, Repr

namespace Budget

/-- The greatest count of 64 bits stands for no limit. -/
def ofCount (n : Nat) : Budget :=
  if n < 1 <<< 64 - 1 then limited n else unlimited

/-- A bound on the steps of a run. As each step but the last retires an instruction, and the
count of those has 64 bits, `2 ^ 64` steps are never too few. -/
def bound : Budget → Nat
  | limited n => n
  | unlimited => 1 <<< 64

end Budget

inductive Control where
  | go
  | stop
  deriving DecidableEq, Repr

/-- Sees each retired instruction, with the hart after it, and may ask to stop. -/
abbrev Monitor (σ : Type) := Step → Hart → σ → Control × σ

def Monitor.idle : Monitor Unit :=
  fun _ _ x => (.go, x)

structure Machine where
  config : Config
  hart : Hart
  status : Status
  /-- Instructions retired over all runs. -/
  retired : Nat

namespace Machine

variable {σ : Type}

/-- The number of the environment call that ends the program. -/
def exitCall : Word := 93

def create (config : Config) : Except Crash Machine := do
  let hart ← Hart.create config.memoryBase config.memorySize
  return ⟨config, { hart with pc := config.resetVector }, .stopped, 0⟩

def retire (m : Machine) (monitor : Monitor σ) (s : Step) (x : σ) : Except Crash (Machine × σ) := do
  let retired ← Checked.succ m.retired
  let (control, x) := monitor s m.hart x
  let status := if control = .stop ∧ m.status = .running then .stopped else m.status
  return ({ m with retired, status }, x)

def trapStatus (h : Hart) (pc : Word) (t : Trap) : Status :=
  match t.kind with
  | .breakpoint => .trapped pc t.value
  | .environmentCall => if t.value = exitCall then .halted pc (h.read .a0) else .aborted pc t
  | _ => .aborted pc t

/-- Fetches the instruction at `pc` again and retires it, if its trap lets it retire. -/
def retireTrapped (m : Machine) (monitor : Monitor σ) (pc : Word) (t : Trap) (x : σ) :
    Except Crash (Machine × σ) :=
  if t.retires then do
    match ← m.hart.ram.fetch pc with
    | .error _ => return (m, x)
    | .ok word => m.retire monitor (Step.straight pc word) x
  else .ok (m, x)

/-- A trap's status wins over a monitor that asks to stop. -/
def step (m : Machine) (monitor : Monitor σ) (x : σ) : Except Crash (Machine × σ) := do
  let pc := m.hart.pc
  let (result, hart) ← m.hart.step
  let m := { m with hart }
  match result with
  | .ok s => m.retire monitor s x
  | .error t =>
    let (m, x) ← m.retireTrapped monitor pc t x
    return ({ m with status := trapStatus m.hart pc t }, x)

def loop (monitor : Monitor σ) : Nat → Machine → σ → Except Crash (Machine × σ)
  | 0, m, x => .ok (m, x)
  | n + 1, m, x => do
    let (m, x) ← m.step monitor x
    if m.status = .running then loop monitor n m x else return (m, x)

def run (m : Machine) (budget : Budget) (monitor : Monitor σ) (x : σ) :
    Except Crash (Machine × σ) :=
  if m.status.hasEnded then .ok (m, x)
  else do
    let (m, x) ← loop monitor budget.bound { m with status := .running } x
    return ({ m with status := if m.status = .running then .stopped else m.status }, x)

def quit (m : Machine) : Machine :=
  { m with status := .quit }

end Machine

end Hartwatch
