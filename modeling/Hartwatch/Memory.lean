import Hartwatch.Crash
import Hartwatch.Word
import Std.Data.TreeMap.Basic

/-! Main memory. Content is kept in little-endian lanes of 64 bits, a lane that was never
written holds zero, and a byte's place is its offset from the start. An aligned access works
on one lane, any other goes through narrower accesses. No access checks its range as a whole:
one that needs a lane beyond the last crashes. -/

namespace Hartwatch

structure Memory where
  laneCount : Nat
  lanes : Std.TreeMap Nat (BitVec 64)
  laneCount_lt : laneCount < 1 <<< 60

namespace Memory

def empty : Memory :=
  ⟨0, ∅, by decide⟩

def zeroed (capacity : Nat) : Except Crash Memory :=
  if h : (capacity + 7) / 8 < 1 <<< 60 then .ok ⟨(capacity + 7) / 8, ∅, h⟩ else .error .allocation

def capacity (m : Memory) : Nat :=
  8 * m.laneCount

theorem capacity_lt (m : Memory) : m.capacity < 1 <<< 63 := by
  have := m.laneCount_lt
  simp only [capacity]
  omega

def validRange (m : Memory) (a : Offset) (width : Nat) : Bool :=
  a.toNat + width ≤ m.capacity

def lane (m : Memory) (i : Nat) : Except Crash (BitVec 64) :=
  if i < m.laneCount then .ok (m.lanes.getD i 0) else .error .outOfRange

def setLane (m : Memory) (i : Nat) (v : BitVec 64) : Except Crash Memory :=
  if i < m.laneCount then .ok { m with lanes := m.lanes.insert i v } else .error .outOfRange

/-- The low `bits` bits of the lane of `a`, from the byte of `a` on. -/
def readLane (m : Memory) (bits : Nat) (a : Offset) : Except Crash (BitVec bits) := do
  let lane ← m.lane (a.toNat / 8)
  return (← Checked.shiftRight lane (8 * (a.toNat % 8))).setWidth bits

/-- Replaces `bits` bits of the lane of `a`, from the byte of `a` on. -/
def writeLane (m : Memory) {bits : Nat} (a : Offset) (v : BitVec bits) : Except Crash Memory := do
  let lane ← m.lane (a.toNat / 8)
  let shift := 8 * (a.toNat % 8)
  let mask ← Checked.shiftLeft ((BitVec.allOnes bits).setWidth 64) shift
  let part ← Checked.shiftLeft (v.setWidth 64) shift
  m.setLane (a.toNat / 8) ((lane &&& ~~~mask) ||| part)

def readByte (m : Memory) (a : Offset) : Except Crash Byte :=
  m.readLane 8 a

def writeByte (m : Memory) (a : Offset) (v : Byte) : Except Crash Memory :=
  m.writeLane a v

/-- Reads byte by byte, least significant first; offsets wrap around. -/
def readRun (m : Memory) (a : Offset) : Nat → Except Crash (BitVec 64)
  | 0 => .ok 0
  | width + 1 => do
    let low ← m.readByte a
    let high ← m.readRun (a + 1) width
    return low.setWidth 64 ||| high <<< 8

def writeRun (m : Memory) (a : Offset) (v : BitVec 64) : Nat → Except Crash Memory
  | 0 => .ok m
  | width + 1 => do
    let m ← m.writeByte a (v.setWidth 8)
    m.writeRun (a + 1) (v >>> 8) width

/-- A value has at most eight bytes, so a wider access crashes. -/
def readBytes (m : Memory) (a : Offset) (width : Nat) : Except Crash (BitVec 64) :=
  if width ≤ 8 then m.readRun a width else .error .shiftTooLong

def writeBytes (m : Memory) (a : Offset) (v : BitVec 64) (width : Nat) : Except Crash Memory :=
  if width ≤ 8 then m.writeRun a v width else .error .shiftTooLong

def readHalf (m : Memory) (a : Offset) : Except Crash (BitVec 16) :=
  if a.toNat % 2 = 0 then m.readLane 16 a else return (← m.readBytes a 2).setWidth 16

def writeHalf (m : Memory) (a : Offset) (v : BitVec 16) : Except Crash Memory :=
  if a.toNat % 2 = 0 then m.writeLane a v else m.writeBytes a (v.setWidth 64) 2

def readWord (m : Memory) (a : Offset) : Except Crash Word :=
  if a.toNat % 4 = 0 then m.readLane 32 a else return (← m.readBytes a 4).setWidth 32

def writeWord (m : Memory) (a : Offset) (v : Word) : Except Crash Memory :=
  if a.toNat % 4 = 0 then m.writeLane a v else m.writeBytes a (v.setWidth 64) 4

def readDouble (m : Memory) (a : Offset) : Except Crash (BitVec 64) :=
  if a.toNat % 8 = 0 then m.lane (a.toNat / 8)
  else if a.toNat % 4 = 0 then do
    let low ← m.readWord a
    let high ← m.readWord (a + 4)
    return low.setWidth 64 ||| high.setWidth 64 <<< 32
  else m.readBytes a 8

def writeDouble (m : Memory) (a : Offset) (v : BitVec 64) : Except Crash Memory :=
  if a.toNat % 8 = 0 then m.setLane (a.toNat / 8) v
  else if a.toNat % 4 = 0 then do
    let m ← m.writeWord a (v.setWidth 32)
    m.writeWord (a + 4) ((v >>> 32).setWidth 32)
  else m.writeBytes a v 8

def byte (m : Memory) (i : Nat) : Byte :=
  (m.lanes.getD (i / 8) 0 >>> (8 * (i % 8))).setWidth 8

def toList (m : Memory) : List Byte :=
  (List.range m.capacity).map m.byte

end Memory

end Hartwatch
