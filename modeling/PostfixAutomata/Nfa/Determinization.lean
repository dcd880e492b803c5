import PostfixAutomata.Dfa
import PostfixAutomata.Nfa.EpsilonClosure

set_option autoImplicit false

/-!
The subset construction. Each state of the deterministic automaton stands for a non-empty set of
states in which the nondeterministic one may be. Subsets are numbered when they are first met: the
start first, then, for the subset met last, its successors by ascending symbol.

Every subset that is met takes an identifier and every one that is left takes none, so the subsets
that wait and the identifiers that remain are together a measure that falls by one a round.
-/

namespace PostfixAutomata

/-- A subset construction under way. -/
structure Exploration where
  /-- The state that stands for each subset met so far. -/
  numbers : Std.ExtTreeMap StateSet State
  /-- Subsets whose successors are still to be found, the next one first. -/
  pending : List (StateSet × State)
  /-- The automaton built so far, without its final states. -/
  dfa : Dfa
  counter : Counter

namespace Exploration

/-- A bound on the rounds that are left. -/
def weight (e : Exploration) : Nat := e.pending.length + (UInt32.size - e.counter.next)

/-- The explorations that weigh as much as a given one. -/
abbrev Like (e : Exploration) := { e' : Exploration // e'.weight = e.weight }

/-- The state that stands for a subset; a subset met for the first time gets a fresh one. -/
def visit (e : Exploration) (S : StateSet) : Except Defect (State × Like e) :=
  match e.numbers[S]? with
  | some q => .ok (q, ⟨e, rfl⟩)
  | none =>
    if left : e.counter.next < UInt32.size then
      let issued := e.counter.issue left
      .ok (issued.1,
        ⟨{ numbers := e.numbers.insert S issued.1
           pending := (S, issued.1) :: e.pending
           dfa := e.dfa.insertState issued.1
           counter := issued.2 }, by
          simp only [weight, issued, Counter.issue, List.length_cons]
          omega⟩)
    else .error .identifiersExhausted

end Exploration

namespace Nfa

/-- Follows one symbol from a subset. -/
def exploreSymbol (A : Nfa) (S : StateSet) (p : State) (c : Char) (e : Exploration) :
    Except Defect e.Like :=
  let next := A.successor S c
  if next.isEmpty then .ok ⟨e, rfl⟩
  else do
    let (q, ⟨e', kept⟩) ← e.visit next
    return ⟨{ e' with dfa := e'.dfa.insertTransition p c q }, kept⟩

/-- Follows some symbols from a subset, one after another. -/
def exploreRow (A : Nfa) (S : StateSet) (p : State) :
    List Char → (e : Exploration) → Except Defect e.Like
  | [], e => .ok ⟨e, rfl⟩
  | c :: symbols, e => do
    let ⟨e', kept⟩ ← A.exploreSymbol S p c e
    let ⟨e'', kept'⟩ ← A.exploreRow S p symbols e'
    return ⟨e'', kept'.trans kept⟩

/-- Follows every symbol from the subset met last, until no subset waits. -/
def explore (A : Nfa) : Exploration → Except Defect Exploration
  | ⟨numbers, [], dfa, counter⟩ => .ok ⟨numbers, [], dfa, counter⟩
  | ⟨numbers, (S, p) :: rest, dfa, counter⟩ => do
    let e ← A.exploreRow S p A.alphabet.toList ⟨numbers, rest, dfa, counter⟩
    A.explore e.val
termination_by e => e.weight
decreasing_by
  have kept := e.property
  simp only [Exploration.weight, List.length_cons] at kept ⊢
  omega

/-- Makes each state final that stands for a subset with a final state. -/
def markFinals (A : Nfa) (e : Exploration) : Dfa :=
  { e.dfa with
    finals := .ofList
      ((e.numbers.toList.filter fun (S, _) => S.toList.any A.finals.contains).map (·.2)) }

/-- The deterministic automaton of the reachable subsets, its states drawn from `target`. -/
def determinize (A : Nfa) (target : AllocatorId) : Alloc Dfa := fun counter =>
  let blank : Dfa := { Automaton.empty target with alphabet := A.alphabet }
  match A.start with
  | none => .ok (blank, counter)
  | some start => do
    let (q, ⟨e, _⟩) ← Exploration.visit { numbers := ∅, pending := [], dfa := blank, counter }
      (A.epsilonClosure [start])
    let e ← A.explore { e with dfa := e.dfa.setStart q }
    return (A.markFinals e, e.counter)

/-- The deterministic automaton with states from the automaton's own counter. -/
def toDfa (A : Nfa) : Alloc Dfa := A.determinize A.ids

/-- A deterministic automaton for a question: nobody else sees the counter of its states. -/
def scratchDfa (A : Nfa) : Except Defect Dfa := (A.determinize A.ids.another).runPrivately

end Nfa

end PostfixAutomata
