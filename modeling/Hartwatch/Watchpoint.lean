import Hartwatch.Crash
import Hartwatch.Expr.Eval

/-! Watchpoints live in a pool of 32 slots. Each slot is on one of two lists that are linked
through the slots: the active watchpoints, newest first, and the free slots, of which the one
freed last is the next to be taken. -/

namespace Hartwatch

namespace Watchpoint

abbrev Handle := Fin 32

def capacity : Nat := 32

inductive Error where
  | exhausted
  | notFound (number : Nat)
  /-- A new watchpoint's expression has no value. -/
  | expression (error : Expr.Error)
  /-- The expression of an active watchpoint has no value any more. -/
  | evaluation (number : Nat) (error : Expr.Error)
  deriving DecidableEq, Repr

def Error.message : Error → String
  | exhausted => s!"no free watchpoint, all {Text.decimal capacity} are in use"
  | notFound number => s!"No watchpoint number {Text.decimal number}."
  | expression error => error.message
  | evaluation number error => s!"watchpoint {Text.decimal number}: {error.message}"

structure Change where
  number : Nat
  expr : String
  old : Word
  new : Word
  deriving DecidableEq, Repr

end Watchpoint

open Watchpoint

structure Watchpoint where
  number : Nat
  expr? : Option String
  /-- The value of the expression when it was last looked at. -/
  value : Word
  next : Option Handle
  deriving DecidableEq, Repr

/-- A slot that was taken without an expression watches the empty one. -/
def Watchpoint.expr (w : Watchpoint) : String :=
  w.expr?.getD ""

structure WatchpointPool where
  slots : Vector Watchpoint 32
  head : Option Handle
  free : Option Handle

namespace WatchpointPool

def empty : WatchpointPool :=
  ⟨.ofFn fun i => ⟨i, none, 0, if h : i.val + 1 < 32 then some ⟨i + 1, h⟩ else none⟩, none,
    some ⟨0, by decide⟩⟩

/-- The handles met by following the links, at most as many as given. -/
def follow (p : WatchpointPool) : Nat → Option Handle → List Handle
  | 0, _ => []
  | _ + 1, none => []
  | n + 1, some h => h :: p.follow n (p.slots.get h).next

def active (p : WatchpointPool) : List Handle :=
  p.follow capacity p.head

def watchpoints (p : WatchpointPool) : List Watchpoint :=
  p.active.map fun h => p.slots.get h

def isEmpty (p : WatchpointPool) : Bool :=
  p.head.isNone

def allocate (p : WatchpointPool) : Except Error (Handle × WatchpointPool) :=
  match p.free with
  | none => .error .exhausted
  | some h =>
    .ok (h, ⟨p.slots.set h { p.slots.get h with next := p.head }, some h, (p.slots.get h).next⟩)

def findIn (p : WatchpointPool) (number : Nat) (before : Option Handle) :
    List Handle → Option (Handle × Option Handle)
  | [] => none
  | h :: hs =>
    if (p.slots.get h).number = number then some (h, before) else p.findIn number (some h) hs

/-- The active watchpoint of a number, with its predecessor unless it is the first. -/
def find? (p : WatchpointPool) (number : Nat) : Option (Handle × Option Handle) :=
  p.findIn number none p.active

def get? (p : WatchpointPool) (number : Nat) : Option Watchpoint :=
  (p.find? number).map fun (h, _) => p.slots.get h

/-- What links to the successor of `before`, or to the first active watchpoint. -/
def linkBehind (p : WatchpointPool) : Option Handle → Option Handle
  | none => p.head
  | some h => (p.slots.get h).next

def setLinkBehind (p : WatchpointPool) (before next : Option Handle) : WatchpointPool :=
  match before with
  | none => { p with head := next }
  | some h => { p with slots := p.slots.set h { p.slots.get h with next } }

/-- Takes `h` out of the active list, where it has to stand behind `before`, clears its slot
and puts it in front of the free list. -/
def release (p : WatchpointPool) (h : Handle) (before : Option Handle) :
    Except Crash WatchpointPool :=
  if p.linkBehind before = some h then
    let p := p.setLinkBehind before (p.slots.get h).next
    let slot : Watchpoint := ⟨(p.slots.get h).number, none, 0, p.free⟩
    .ok { p with slots := p.slots.set h slot, free := some h }
  else .error .brokenLink

def delete (p : WatchpointPool) (number : Nat) :
    Except Crash (Except Error Unit × WatchpointPool) :=
  match p.find? number with
  | none => .ok (.error (.notFound number), p)
  | some (h, before) => do return (.ok (), ← p.release h before)

/-- Watches an expression from its present value on. Without a value nothing is taken. -/
def watch (p : WatchpointPool) (ctx : Expr.Context) (expr : String) :
    Except Error (Handle × WatchpointPool) :=
  match Expr.evaluate ctx expr with
  | .error e => .error (.expression e)
  | .ok value => do
    let (h, p) ← p.allocate
    return (h, { p with slots := p.slots.set h { p.slots.get h with expr? := some expr, value } })

/-- What looking at the watchpoints comes to; an error means that those from some point on
were not looked at. -/
structure Detection where
  pool : WatchpointPool
  changes : List Change
  error? : Option Error

/-- Looks at some watchpoints in order. One that changed takes its new value; the first one
without a value ends the search. -/
def detectIn (ctx : Expr.Context) (p : WatchpointPool) : List Handle → Detection
  | [] => ⟨p, [], none⟩
  | h :: hs =>
    let w := p.slots.get h
    match Expr.evaluate ctx w.expr with
    | .error e => ⟨p, [], some (.evaluation w.number e)⟩
    | .ok value =>
      if value = w.value then detectIn ctx p hs
      else
        let rest := detectIn ctx { p with slots := p.slots.set h { w with value } } hs
        { rest with changes := ⟨w.number, w.expr, w.value, value⟩ :: rest.changes }

def detect (p : WatchpointPool) (ctx : Expr.Context) : Detection :=
  detectIn ctx p p.active

end WatchpointPool

end Hartwatch
