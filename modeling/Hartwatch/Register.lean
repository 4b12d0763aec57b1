import Hartwatch.Text.Numeral

/-! The 32 integer registers and the names a user may give them. -/

namespace Hartwatch

abbrev Reg := Fin 32

namespace Reg

/-- Reads as zero whatever was written to it. -/
def zero : Reg := 0

/-- Holds what a breakpoint hands back and the exit code. -/
def a0 : Reg := 10

/-- Holds the number of an environment call. -/
def a7 : Reg := 17

def names : Vector String 32 :=
  #v["$0", "ra", "sp", "gp", "tp", "t0", "t1", "t2",
    "s0", "s1", "a0", "a1", "a2", "a3", "a4", "a5",
    "a6", "a7", "s2", "s3", "s4", "s5", "s6", "s7",
    "s8", "s9", "s10", "s11", "t3", "t4", "t5", "t6"]

def name (r : Reg) : String :=
  names.get r

def all : List Reg :=
  List.finRange 32

def ofNumber? (s : String) : Option Reg :=
  match s.toList with
  | 'x' :: digits => do
    let n ← Text.natBelow? (1 <<< 64) (.ofList digits)
    if h : n < 32 then some ⟨n, h⟩ else none
  | _ => none

/-- Names that several spellings share are tried in turn: `0`, the calling convention's name,
the number behind an `x`. -/
def ofName? (s : String) : Option Reg :=
  if s = "0" then some zero else (all.find? fun r => r.name = s).or (ofNumber? s)

end Reg

end Hartwatch
