import PostfixAutomata.Nfa

set_option autoImplicit false

/-!
The regular operators on nondeterministic automata: literals, concatenation, union and star, built
by linking whole automata with ε-transitions. Each operator is a pure construction from its
operands and from fresh states that it is given; the computation of the same name draws the states.
-/

namespace PostfixAutomata

namespace Nfa

/-- Adds ε-transitions from some states to one. -/
def linkAll (A : Nfa) (sources : List State) (target : State) : Nfa :=
  A.insertTransitions (sources.map fun s => (s, .epsilon, target))

/-- Adds ε-transitions from one state to some. -/
def linkTo (A : Nfa) (source : State) (targets : List State) : Nfa :=
  A.insertTransitions (targets.map fun t => (source, .epsilon, t))

/-- Adds the states, transitions and symbols of another automaton; start and final states stay. -/
def absorb (A B : Nfa) : Nfa :=
  ((A.insertStates B.states.toList).insertTransitions B.edgeList).insertSymbols B.alphabet.toList

/-- One transition between two given states. -/
def literalWith (ids : AllocatorId) (l : Label) (start stop : State) : Nfa :=
  { (Automaton.empty ids : Nfa).insertTransition start l stop with
    start := some start, finals := {stop} }

/-- One automaton and then another: what was final in the first leads into the second. -/
def append (A B : Nfa) : Nfa :=
  let joined := A.absorb B
  let linked := B.start.elim joined (joined.linkAll A.finals.toList)
  { linked with finals := B.finals }

/-- Either of two automata, between two further states. -/
def unionWith (A B : Nfa) (start stop : State) : Nfa :=
  let joined : Nfa := (A.absorb B).insertStates [start, stop]
  let entered := joined.linkTo start (A.start.toList ++ B.start.toList)
  let left := entered.linkAll (A.finals.toList ++ B.finals.toList) stop
  { left with start := some start, finals := {stop} }

/-- An automaton any number of times, between two further states. -/
def starWith (A : Nfa) (start stop : State) : Nfa :=
  let entered := (A.linkTo start (stop :: A.start.toList)).linkTo stop [start]
  let left := entered.linkAll A.finals.toList stop
  { left with start := some start, finals := {stop} }

/-- Refuses two automata of different counters: their states may clash. -/
def requireShared (A B : Nfa) : Alloc Unit :=
  if A.ids = B.ids then pure () else Alloc.fail .foreignAllocator

/-- Reads one symbol, or nothing if the label is ε. -/
def literal (ids : AllocatorId) (l : Label) : Alloc Nfa := do
  let start ← Alloc.fresh
  let stop ← Alloc.fresh
  return literalWith ids l start stop

/-- Reads what the first automaton reads and then what the second reads. -/
def concat (A B : Nfa) : Alloc Nfa := do
  requireShared A B
  return A.append B

/-- Reads what either automaton reads. -/
def union (A B : Nfa) : Alloc Nfa := do
  let start ← Alloc.fresh
  let stop ← Alloc.fresh
  requireShared A B
  return A.unionWith B start stop

/-- Reads any number of inputs of an automaton, one after another. -/
def star (A : Nfa) : Alloc Nfa := do
  let start ← Alloc.fresh
  let stop ← Alloc.fresh
  return A.starWith start stop

end Nfa

end PostfixAutomata
