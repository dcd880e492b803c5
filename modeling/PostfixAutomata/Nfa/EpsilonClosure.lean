import PostfixAutomata.Nfa

set_option autoImplicit false

/-!
The states that an automaton reaches without reading anything. The search keeps the states that it
has seen; there are only so many states, so it ends.
-/

namespace PostfixAutomata

namespace Nfa

/-- Adds to the states seen all that is reached by ε-transitions from the pending ones without
passing through a state that was seen before. -/
def closureFrom (A : Nfa) (seen : StateSet) : List State → StateSet
  | [] => seen
  | s :: pending =>
    if s ∈ seen then closureFrom A seen pending
    else closureFrom A (seen.insert s) ((A.targets s .epsilon).toList ++ pending)
termination_by pending => (UInt32.size - seen.size, pending.length)
decreasing_by
  · exact Prod.Lex.right _ (by simp)
  · rename_i unseen
    refine Prod.Lex.left _ _ ?_
    have bound := StateSet.size_le (seen.insert s)
    simp only [Std.ExtTreeSet.size_insert, Std.ExtTreeSet.contains_iff_mem, unseen,
      ↓reduceIte] at bound ⊢
    omega

/-- The states reached from some states by ε-transitions only, those states among them. -/
def epsilonClosure (A : Nfa) (seeds : List State) : StateSet := A.closureFrom ∅ seeds

/-- The destinations of some states on a symbol; ε-transitions are not followed. -/
def step (A : Nfa) (S : StateSet) (c : Char) : StateSet :=
  S.toList.foldl (fun reached s => reached ∪ A.targets s (.symbol c)) ∅

/-- The states reached from some states by reading one symbol and then nothing. -/
def successor (A : Nfa) (S : StateSet) (c : Char) : StateSet :=
  A.epsilonClosure (A.step S c).toList

end Nfa

end PostfixAutomata
