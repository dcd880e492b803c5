import PostfixAutomata.Proofs.Description.Loading
import PostfixAutomata.Proofs.Session.Saving

set_option autoImplicit false

/-!
Loading any data that reads as an automaton. The loaded automaton has just what the data names, in
whatever order and however often, and its own counter goes on after the largest of its states, if
there is an identifier left.
-/

namespace PostfixAutomata

namespace Automaton

variable {ρ Λ : Type} [TransitionRow ρ Λ] (A : Automaton ρ) {c : Counter}

end Automaton

namespace Session

variable {S : Session} {m : Slot} {M : Machine}

/-! New states. -/

end Session

end PostfixAutomata
