import Hartwatch.Text.Numeral

/-! A trap ends an instruction instead of its effect. -/

namespace Hartwatch

inductive Trap.Kind where
  | breakpoint
  | illegalInstruction
  | environmentCall
  | instructionAccessFault
  | loadAccessFault
  | storeAccessFault
  deriving DecidableEq, Repr

/-- The value is the address of a failed access, the illegal word, the number of the
environment call or what a breakpoint hands back. -/
structure Trap where
  kind : Trap.Kind
  value : Word
  deriving DecidableEq, Repr

namespace Trap

def Kind.name : Kind → String
  | breakpoint => "Breakpoint"
  | illegalInstruction => "IllegalInstruction"
  | environmentCall => "EnvironmentCall"
  | instructionAccessFault => "InstructionAccessFault"
  | loadAccessFault => "LoadAccessFault"
  | storeAccessFault => "StoreAccessFault"

def message (t : Trap) : String :=
  t.kind.name ++ " (" ++ Text.hex t.value.toNat ++ ")"

def retires (t : Trap) : Bool :=
  t.kind = .breakpoint || t.kind = .environmentCall

end Trap

end Hartwatch
