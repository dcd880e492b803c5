import PostfixAutomata.Automaton

set_option autoImplicit false

/-!
Size statistics of automata: how many states there are, how many are final, and how many states
have each out-degree. Totals are kept within 64 bits; one that does not fit is a defect, named
after the first operation of the sum that overflows.
-/

namespace PostfixAutomata

structure Statistics where
  states : Nat
  finals : Nat
  /-- The number of states of each out-degree that occurs. -/
  degrees : Std.ExtTreeMap Nat Nat
deriving DecidableEq

namespace Statistics

/-- Adds the transitions of `count` states of one degree to a total. -/
def addTransitions (total : Nat) : Nat × Nat → Except Defect Nat
  | (degree, count) =>
    if UInt64.size ≤ degree * count then .error .productOverflow
    else if UInt64.size ≤ total + degree * count then .error .sumOverflow
    else .ok (total + degree * count)

/-- The number of transition destinations, summed up by ascending degree. -/
def transitions (S : Statistics) : Except Defect Nat :=
  S.degrees.toList.foldlM addTransitions 0

def degreeLine : Nat × Nat → String
  | (degree, count) =>
    "\n    " ++ toString count ++ " states with " ++ toString degree ++ " transitions"

def text (S : Statistics) : Except Defect String := do
  let total ← S.transitions
  return "FiniteAutomaton\n  " ++ toString S.states ++ " states\n  "
    ++ toString S.finals ++ " final states\n  "
    ++ toString total ++ " transitions"
    ++ String.join (S.degrees.toList.map degreeLine)

/-- Counts one more state of a degree. -/
def tally (degrees : Std.ExtTreeMap Nat Nat) (degree : Nat) : Std.ExtTreeMap Nat Nat :=
  degrees.insert degree (degrees.getD degree 0 + 1)

theorem getD_tally (degrees : Std.ExtTreeMap Nat Nat) (degree other : Nat) :
    (tally degrees degree).getD other 0 =
      degrees.getD other 0 + if other = degree then 1 else 0 := by
  rw [tally, Std.ExtTreeMap.getD_insert]
  by_cases same : other = degree
  · subst same
    simp
  · simp [same, Ne.symm same]

/-- The statistics print exactly when their total fits. -/
theorem text_eq_error_iff (S : Statistics) (d : Defect) :
    S.text = .error d ↔ S.transitions = .error d := by
  unfold text
  cases S.transitions with
  | error e => simp only [bind, Except.bind, Except.error.injEq]
  | ok total => exact ⟨nofun, nofun⟩

end Statistics

namespace Automaton

variable {ρ Λ : Type} [TransitionRow ρ Λ]

def statistics (A : Automaton ρ) : Statistics where
  states := A.size
  finals := A.finals.size
  degrees := (A.states.toList.map A.outDegree).foldl Statistics.tally ∅

end Automaton

end PostfixAutomata
