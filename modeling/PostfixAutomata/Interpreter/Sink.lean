set_option autoImplicit false

/-!
Where output goes. A sink may have room for so many bytes only; a text that does not fit fills it
up and counts as failed.
-/

namespace PostfixAutomata

structure Sink where
  written : ByteArray := .empty
  /-- How many bytes still fit; without a number all do. -/
  room : Option Nat := none

namespace Sink

/-- Writes a text as far as it fits, and tells whether all of it did. -/
def write (sink : Sink) (text : String) : Sink × Bool :=
  let bytes := text.toByteArray
  match sink.room with
  | none => ({ sink with written := sink.written ++ bytes }, true)
  | some room =>
    ({ written := sink.written ++ bytes.extract 0 room, room := some (room - bytes.size) },
      bytes.size ≤ room)

/-- A sink with the same room and nothing in it yet. -/
def drained (sink : Sink) : Sink := { sink with written := .empty }

/-- The written text. A character that was cut off at the end shows as a replacement character. -/
def text (sink : Sink) : String :=
  let upTo (cut : Nat) : Option String :=
    String.fromUTF8? (sink.written.extract 0 (sink.written.size - cut))
  match upTo 0 with
  | some text => text
  | none => (([1, 2, 3].findSome? upTo).getD "").push '\uFFFD'

theorem write_empty (sink : Sink) : sink.write "" = (sink, true) := by
  cases sink with
  | mk written room => cases room <;> simp [write, ByteArray.ext_iff]

end Sink

end PostfixAutomata
