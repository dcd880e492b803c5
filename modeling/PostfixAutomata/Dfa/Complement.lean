import PostfixAutomata.Dfa

set_option autoImplicit false

/-!
Complement. The automaton is completed with a sink, a fresh state that takes every transition that
is not defined, and then final and other states change places.
-/

namespace PostfixAutomata

namespace Dfa

/-- The pairs of a state and a symbol of the alphabet without a destination. -/
def missing (D : Dfa) : List (State × Char) :=
  D.states.toList.flatMap fun s =>
    (D.alphabet.toList.filter fun c => (D.target? s c).isNone).map (s, ·)

/-- Sends every transition that is not defined to one state. -/
def completeWith (D : Dfa) (sink : State) : Dfa :=
  let D : Dfa := D.insertState sink
  D.insertTransitions (D.missing.map fun (s, c) => (s, c, sink))

/-- The complement with a given sink. A missing start becomes the sink. -/
def complementWith (D : Dfa) (sink : State) : Dfa :=
  let complete := D.completeWith sink
  { complete with
    start := some (D.start.getD sink)
    finals := complete.states.filter (!D.finals.contains ·) }

/-- Accepts exactly the inputs over the alphabet that the automaton rejects. -/
def complement (D : Dfa) : Alloc Dfa := do
  let sink ← Alloc.fresh
  return D.complementWith sink

end Dfa

end PostfixAutomata
