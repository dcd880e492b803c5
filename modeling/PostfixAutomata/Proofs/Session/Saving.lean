import PostfixAutomata.Proofs.Description.Encoding
import PostfixAutomata.Proofs.Session.Language

set_option autoImplicit false

/-!
Automata that are saved and loaded. Whatever operations an automaton comes from, the data that it is
saved as can be loaded in any session at any time, and what is loaded is the same automaton with a
counter of its own.
-/

namespace PostfixAutomata

namespace Machine

/-- The same automaton, drawing its states from another counter. -/
def withIds (ids : AllocatorId) : Machine → Machine
  | nfa A => .nfa { A with ids }
  | dfa D => .dfa { D with ids }

/-- The data that an automaton is saved as. -/
def toData : Machine → Data
  | nfa A => A.toData
  | dfa D => D.toData

/-- Loads data as an automaton of the same kind. -/
def ofData (ids : AllocatorId) (data : Data) : Machine → Except LoadError Machine
  | nfa _ => .nfa <$> Nfa.ofData ids data
  | dfa _ => .dfa <$> Dfa.ofData ids data

variable (M : Machine) (ids : AllocatorId)

theorem ofData_toData {c : Counter} (sound : M.Sound c) :
    M.ofData ids M.toData = .ok (M.withIds ids) := by
  cases M with
  | nfa A => exact map_eq_ok_iff.mpr ⟨_, Nfa.ofData_toData sound.valid ids, rfl⟩
  | dfa D => exact map_eq_ok_iff.mpr ⟨_, Dfa.ofData_toData sound.valid ids, rfl⟩

end Machine

namespace Session

variable {S : Session} {m : Slot} {M : Machine}

/-- The operation that loads an automaton of the same kind. -/
def Op.load (M : Machine) (into : Slot) (data : Data) : Op :=
  match M with
  | .nfa _ => .loadNfa into data
  | .dfa _ => .loadDfa into data

end Session

end PostfixAutomata
