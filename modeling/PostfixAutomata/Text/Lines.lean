set_option autoImplicit false

/-!
Cutting bytes into lines. A line ends at a newline byte, and a carriage return just before that
byte belongs to the end of the line. What follows the last newline is a line unless it is empty.
-/

namespace PostfixAutomata

namespace Text

def newline : UInt8 := 10

def carriageReturn : UInt8 := 13

/-- A line without the carriage return that may end it. -/
def withoutReturn (line : List UInt8) : List UInt8 :=
  if line.getLast? = some carriageReturn then line.dropLast else line

/-- The lines of some bytes, without their ends. -/
def lines : List UInt8 → List (List UInt8)
  | [] => []
  | b :: rest =>
    if newline ∈ b :: rest then
      withoutReturn ((b :: rest).takeWhile (· != newline))
        :: lines ((b :: rest).dropWhile (· != newline)).tail
    else [b :: rest]
termination_by bytes => bytes.length
decreasing_by
  have shorter := (List.dropWhile_suffix (l := b :: rest) (· != newline)).length_le
  simp only [List.length_tail, List.length_cons] at shorter ⊢
  omega

/-- The text that some bytes encode in UTF-8, if they encode one. -/
def decode? (bytes : List UInt8) : Option String := String.fromUTF8? ⟨bytes.toArray⟩

end Text

end PostfixAutomata
