set_option autoImplicit false

/-!
Reading numbers in decimal.
-/

namespace PostfixAutomata

namespace Text

def isDigit (c : Char) : Bool := '0' ≤ c && c ≤ '9'

/-- The number that a string of digits denotes. -/
def valueOf (digits : List Char) : Nat :=
  digits.foldl (fun value c => 10 * value + (c.toNat - '0'.toNat)) 0

/-- The number that a text denotes, if the text is one or more digits. -/
def decimal? (text : List Char) : Option Nat :=
  if text ≠ [] ∧ text.all isDigit then some (valueOf text) else none

end Text

end PostfixAutomata
