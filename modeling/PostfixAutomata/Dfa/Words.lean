import PostfixAutomata.Dfa

set_option autoImplicit false

/-!
The accepted inputs up to a length, shortest first and by code point within a length. Inputs grow
by one symbol a level, along defined transitions only.
-/

namespace PostfixAutomata

namespace Dfa

/-- An input that the automaton can read, last symbol first, and the state it leads to. -/
abbrev Trail := List Char × State

/-- The trails that are one symbol longer than the given ones. -/
def extend (D : Dfa) (trails : List Trail) : List Trail :=
  trails.flatMap fun (read, s) =>
    D.alphabet.toList.filterMap fun c => (D.target? s c).map (c :: read, ·)

/-- The inputs of the trails that end in a final state. -/
def acceptedOf (D : Dfa) (trails : List Trail) : List (List Char) :=
  (trails.filter fun (_, s) => D.finals.contains s).map fun (read, _) => read.reverse

/-- The accepted inputs that extend some trails by up to a number of symbols. -/
def wordsFrom (D : Dfa) (bound : Nat) (trails : List Trail) : List (List Char) :=
  match trails, bound with
  | [], _ => []
  | trails, 0 => D.acceptedOf trails
  | trails, bound + 1 => D.acceptedOf trails ++ D.wordsFrom bound (D.extend trails)
termination_by structural bound

/-- The accepted inputs of at most `bound` symbols. -/
def words (D : Dfa) (bound : Nat) : List (List Char) :=
  D.wordsFrom bound (D.start.toList.map ([], ·))

end Dfa

end PostfixAutomata
