import PostfixAutomata.Automaton

set_option autoImplicit false

/-!
The text report of an automaton: a line each for the start, the final states, the states and the
alphabet, then a line for each entry of the transition table. Symbols are written as they are.
-/

namespace PostfixAutomata

namespace Report

/-- One line of a report, led by a percent sign. -/
def line (content : String) : String := "% " ++ content ++ "\n"

/-- The line of a set of items. -/
def setLine (name : String) (items : List String) : String :=
  line (name ++ " \x7b" ++ String.join (items.map (" " ++ ·)) ++ " \x7d")

end Report

namespace Automaton

open Report

/-- The report of an automaton whose rows are written by `entries`, one text a transition. -/
def reportWith {ρ : Type} (entries : State → ρ → List String) (A : Automaton ρ) : String :=
  line ("Start " ++ A.start.elim "" State.text)
    ++ setLine "Final" (A.finals.toList.map State.text)
    ++ setLine "States" (A.states.toList.map State.text)
    ++ setLine "Alphabet" (A.alphabet.toList.map String.singleton)
    ++ line "Transitions \x7b"
    ++ String.join ((A.rows.toList.flatMap fun (s, row) => entries s row).map line)
    ++ "% \x7d"

end Automaton

end PostfixAutomata
