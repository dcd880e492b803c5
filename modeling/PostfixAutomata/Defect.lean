set_option autoImplicit false

/-!
Defects end a computation for good: they mean that a limit of the library was met or that a caller
broke a rule of it, and no state survives them. Mistakes in what a user writes are no defects.
-/

namespace PostfixAutomata

inductive Defect
  /-- Every 32-bit identifier has been issued or observed. -/
  | identifiersExhausted
  /-- An automaton was merged into one that draws its states from another counter. -/
  | foreignAllocator
  /-- A degree times its count needs more than 64 bits. -/
  | productOverflow
  /-- A running total needs more than 64 bits. -/
  | sumOverflow
deriving DecidableEq

def Defect.message : Defect → String
  | identifiersExhausted => "state identifiers exhausted"
  | foreignAllocator => "absorbed automaton was built from a different allocator"
  | productOverflow => "attempt to multiply with overflow"
  | sumOverflow => "attempt to add with overflow"

end PostfixAutomata
