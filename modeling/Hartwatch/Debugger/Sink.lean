/-! Where a session's text goes. A sink may have room for a limited number of bytes: a text
that does not fit is cut where the room ends, and the write has failed. -/

namespace Hartwatch

structure Sink where
  bytes : ByteArray
  /-- How many more bytes fit, if that is limited. -/
  room? : Option Nat

namespace Sink

def empty (room? : Option Nat) : Sink :=
  ⟨.empty, room?⟩

/-- Tells whether the whole text was taken. -/
def write (s : Sink) (text : String) : Bool × Sink :=
  match s.room? with
  | none => (true, { s with bytes := s.bytes ++ text.toUTF8 })
  | some room =>
    if text.utf8ByteSize ≤ room then
      (true, ⟨s.bytes ++ text.toUTF8, some (room - text.utf8ByteSize)⟩)
    else (false, ⟨s.bytes ++ text.toUTF8.extract 0 room, some 0⟩)

end Sink

end Hartwatch
