/-! A crash is a failure of the machine that runs the guest: an operation used where it is not
defined. It is no part of the guest's world, where a failed access is a trap. Each operation
here checks what it needs and answers with a crash instead of a made-up value. -/

namespace Hartwatch

inductive Crash where
  | outOfRange
  | overflow
  | shiftTooLong
  | divisionByZero
  | allocation
  | brokenLink
  deriving DecidableEq, Repr

namespace Checked

variable {w : Nat}

def shiftLeft (x : BitVec w) (n : Nat) : Except Crash (BitVec w) :=
  if n < w then .ok (x <<< n) else .error .shiftTooLong

def shiftRight (x : BitVec w) (n : Nat) : Except Crash (BitVec w) :=
  if n < w then .ok (x >>> n) else .error .shiftTooLong

def shiftRightSigned (x : BitVec w) (n : Nat) : Except Crash (BitVec w) :=
  if n < w then .ok (x.sshiftRight n) else .error .shiftTooLong

theorem shiftLeft_of_lt (x : BitVec w) {n : Nat} (h : n < w) : shiftLeft x n = .ok (x <<< n) :=
  if_pos h

theorem shiftRight_of_lt (x : BitVec w) {n : Nat} (h : n < w) : shiftRight x n = .ok (x >>> n) :=
  if_pos h

theorem shiftRightSigned_of_lt (x : BitVec w) {n : Nat} (h : n < w) :
    shiftRightSigned x n = .ok (x.sshiftRight n) :=
  if_pos h

def mulSigned (w : Nat) (a b : Int) : Except Crash (BitVec w) :=
  let bound : Int := (1 <<< (w - 1) : Nat)
  if -bound ≤ a * b ∧ a * b < bound then .ok (.ofInt w (a * b)) else .error .overflow

def mulUnsigned (w a b : Nat) : Except Crash (BitVec w) :=
  if a * b < 1 <<< w then .ok (.ofNat w (a * b)) else .error .overflow

/-- Rounds toward zero; the most negative number by minus one is itself. -/
def divSigned (x y : BitVec w) : Except Crash (BitVec w) :=
  if y = 0 then .error .divisionByZero else .ok (x.sdiv y)

def divUnsigned (x y : BitVec w) : Except Crash (BitVec w) :=
  if y = 0 then .error .divisionByZero else .ok (x.udiv y)

def remSigned (x y : BitVec w) : Except Crash (BitVec w) :=
  if y = 0 then .error .divisionByZero else .ok (x.srem y)

def remUnsigned (x y : BitVec w) : Except Crash (BitVec w) :=
  if y = 0 then .error .divisionByZero else .ok (x.umod y)

def add (x : BitVec w) (n : Nat) : Except Crash (BitVec w) :=
  if x.toNat + n < 1 <<< w then .ok (x + .ofNat w n) else .error .overflow

def sub (x y : BitVec w) : Except Crash (BitVec w) :=
  if y ≤ x then .ok (x - y) else .error .overflow

theorem add_of_lt {x : BitVec w} {n : Nat} (h : x.toNat + n < 1 <<< w) :
    add x n = .ok (x + .ofNat w n) :=
  if_pos h

theorem sub_of_le {x y : BitVec w} (h : y ≤ x) : sub x y = .ok (x - y) :=
  if_pos h

/-- Adds one to a count that is kept in 64 bits. -/
def succ (count : Nat) : Except Crash Nat :=
  if count + 1 < 1 <<< 64 then .ok (count + 1) else .error .overflow

end Checked

end Hartwatch
