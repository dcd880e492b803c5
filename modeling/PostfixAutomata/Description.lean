import PostfixAutomata.Dfa

set_option autoImplicit false

/-!
Descriptions: automata as lists, without a counter. A description may name things in any order,
more than once, or only in passing; the automaton that it describes has every state that is named
anywhere and every symbol that is listed or labels a transition.
-/

namespace PostfixAutomata

/-- An automaton written down, with entries of type `ε` in the row of each state. -/
structure Description (ε : Type) where
  start : Option State := none
  states : List State := []
  finals : List State := []
  alphabet : List Char := []
  transitions : List (State × List ε) := []

/-- A label with all its destinations. -/
abbrev Nfa.Entry := Label × List State

/-- A symbol with its destination. -/
abbrev Dfa.Entry := Char × State

namespace Automaton

variable {ρ Λ ε : Type} [TransitionRow ρ Λ]

/-- The automaton of a description, where `expand` lists the transitions of an entry. -/
def ofDescription (expand : ε → List (Λ × State)) (ids : AllocatorId) (d : Description ε) :
    Automaton ρ :=
  let named : Automaton ρ := (Automaton.empty ids).insertStates d.states
  let started := d.start.elim named named.setStart
  let marked := d.finals.foldl (fun A s => A.setFinal s true) started
  let linked := d.transitions.foldl
    (fun A (p, row) =>
      (A.insertState p).insertTransitions ((row.flatMap expand).map fun (l, q) => (p, l, q)))
    marked
  linked.insertSymbols d.alphabet

/-- The description of an automaton, where `entries` lists the entries of a row. -/
def describe (entries : ρ → List ε) (A : Automaton ρ) : Description ε where
  start := A.start
  states := A.states.toList
  finals := A.finals.toList
  alphabet := A.alphabet.toList
  transitions := A.rows.toList.map fun (p, row) => (p, entries row)

end Automaton

namespace Nfa

/-- A label without destinations leaves no trace. -/
def ofDescription (ids : AllocatorId) (d : Description Entry) : Nfa :=
  Automaton.ofDescription (fun (l, targets) => targets.map (l, ·)) ids d

def describe (A : Nfa) : Description Entry :=
  Automaton.describe (fun row => row.toList.map fun (l, targets) => (l, targets.toList)) A

end Nfa

namespace Dfa

/-- Of two destinations on one symbol the later one holds. -/
def ofDescription (ids : AllocatorId) (d : Description Entry) : Dfa :=
  Automaton.ofDescription (fun (c, q) => [(c, q)]) ids d

def describe (D : Dfa) : Description Entry :=
  Automaton.describe (fun row => row.toList) D

end Dfa

end PostfixAutomata
