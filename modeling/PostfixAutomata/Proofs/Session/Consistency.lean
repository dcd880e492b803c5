import Mathlib
import PostfixAutomata.Proofs.Nfa.Merge
import PostfixAutomata.Proofs.Session.Step

set_option autoImplicit false

/-!
The stores of the automata of a session. Whatever operations an automaton comes from, its parts fit
together as they are stored: the table of transitions has one row for each state and no others, and
all that an automaton refers to it contains. A merge may move rows as they are, because both of its
operands are like this.
-/

namespace PostfixAutomata

/-- The parts of a nondeterministic automaton, as they are stored, fit together. -/
structure Nfa.Consistent (A : Nfa) : Prop where
  start_mem : ∀ s, A.start = some s → s ∈ A.states
  finals_mem : ∀ s ∈ A.finals, s ∈ A.states
  keys : ∀ s, s ∈ A.rows ↔ s ∈ A.states
  targets_mem : ∀ {p : State} {row : Nfa.Row} {l : Label} {T : StateSet},
    A.rows[p]? = some row → row[l]? = some T → ∀ q ∈ T, q ∈ A.states
  targets_ne_empty : ∀ {p : State} {row : Nfa.Row} {l : Label} {T : StateSet},
    A.rows[p]? = some row → row[l]? = some T → T ≠ ∅
  symbol_mem : ∀ {p : State} {row : Nfa.Row} {c : Char} {T : StateSet},
    A.rows[p]? = some row → row[Label.symbol c]? = some T → c ∈ A.alphabet

/-- The parts of a deterministic automaton, as they are stored, fit together. -/
structure Dfa.Consistent (D : Dfa) : Prop where
  start_mem : ∀ s, D.start = some s → s ∈ D.states
  finals_mem : ∀ s ∈ D.finals, s ∈ D.states
  keys : ∀ s, s ∈ D.rows ↔ s ∈ D.states
  target_mem : ∀ {p : State} {row : Dfa.Row} {c : Char} {q : State},
    D.rows[p]? = some row → row[c]? = some q → q ∈ D.states
  symbol_mem : ∀ {p : State} {row : Dfa.Row} {c : Char} {q : State},
    D.rows[p]? = some row → row[c]? = some q → c ∈ D.alphabet

def Machine.Consistent : Machine → Prop
  | nfa A => A.Consistent
  | dfa D => D.Consistent

theorem Nfa.consistent_of_wellFormed {A : Nfa} (valid : A.WellFormed) : A.Consistent := by
  -- A stored set of destinations is the one that a lookup finds.
  have target : ∀ {p q : State} {row : Nfa.Row} {l : Label} {T : StateSet},
      A.rows[p]? = some row → row[l]? = some T → q ∈ T →
        (l, q) ∈ TransitionRow.edges (A.row p) := by
    intro p q row l T stored entry member
    rw [Automaton.row_of_getElem? stored, Row.mem_edges_iff, Row.destinations,
      Std.ExtTreeMap.getD_eq_getD_getElem?, entry, Option.getD_some]
    exact member
  have someTarget : ∀ {p : State} {row : Nfa.Row} {l : Label} {T : StateSet},
      A.rows[p]? = some row → row[l]? = some T → T ≠ ∅ := by
    intro p row l T stored entry
    have tidy : LawfulTransitionRow.Tidy row := Automaton.row_of_getElem? stored ▸ valid.tidy p
    exact tidy entry
  refine ⟨fun s => valid.start_mem, fun s => valid.finals_subset, fun s => valid.mem_rows, ?_, ?_,
    ?_⟩
  · intro p row l T stored entry q member
    exact valid.target_mem (target stored entry member)
  · intro p row l T stored entry
    exact someTarget stored entry
  · intro p row c T stored entry
    obtain ⟨q, member⟩ := StateSet.exists_mem_of_ne_empty (someTarget stored entry)
    exact valid.symbol_mem (target stored entry member) rfl

theorem Dfa.consistent_of_wellFormed {D : Dfa} (valid : D.WellFormed) : D.Consistent := by
  have target : ∀ {p q : State} {row : Dfa.Row} {c : Char},
      D.rows[p]? = some row → row[c]? = some q → (c, q) ∈ TransitionRow.edges (D.row p) := by
    intro p q row c stored entry
    rw [Automaton.row_of_getElem? stored]
    exact Std.ExtTreeMap.mem_toList_iff_getElem?_eq_some.mpr entry
  refine ⟨fun s => valid.start_mem, fun s => valid.finals_subset, fun s => valid.mem_rows, ?_, ?_⟩
  · intro p row c q stored entry
    exact valid.target_mem (target stored entry)
  · intro p row c q stored entry
    exact valid.symbol_mem (target stored entry) rfl

namespace Session

variable {S : Session} {m : Slot} {M : Machine}

/-- Every automaton of a reachable session is consistent. -/
theorem automata_are_consistent (reachable : S.Reachable) (held : S.automata[m]? = some M) :
    M.Consistent := by
  have sound := reachable.sound.machines held
  cases M with
  | nfa A => exact Nfa.consistent_of_wellFormed sound.valid
  | dfa D => exact Dfa.consistent_of_wellFormed sound.valid

/-- Concatenation and union move the rows of the second automaton into the first, also where the two
have states in common. -/
theorem absorb_eq_merge_of_held (reachable : S.Reachable) {A B : Nfa} {n : Slot}
    (first : S.automata[m]? = some (.nfa A)) (second : S.automata[n]? = some (.nfa B)) :
    A.absorb B = A.merge B := by
  have soundA : A.Sound (S.counter A.ids) := reachable.sound.machines first
  have soundB : B.Sound (S.counter B.ids) := reachable.sound.machines second
  exact Nfa.absorb_eq_merge soundA.valid soundB.valid

/-- Two automata on the same states are joined; the result is determinized and complemented. -/
def overlap : List Op :=
  [.newAllocator "i", .newNfa "a" "i", .addTransition "a" ⟨0, by decide⟩ "x" ⟨1, by decide⟩,
    .setStart "a" ⟨0, by decide⟩, .setFinal "a" ⟨1, by decide⟩ true, .newNfa "b" "i",
    .addTransition "b" ⟨1, by decide⟩ "" ⟨0, by decide⟩,
    .addTransition "b" ⟨0, by decide⟩ "x" ⟨0, by decide⟩, .setStart "b" ⟨1, by decide⟩,
    .union "a" "b", .toDfa "a" "d", .complement "d" "e"]

theorem automata_are_consistent_overlap :
    ∃ (S : Session) (A E : Machine), S.Reachable ∧ S.automata["a"]? = some A ∧ A.Consistent ∧
      S.automata["e"]? = some E ∧ E.Consistent := by
  have computed : ((after {} overlap).bind fun S => S.automata["a"]?.bind fun A =>
      S.automata["e"]?.map fun E => (S, A, E)).isSome = true := by cbv
  obtain ⟨⟨S, A, E⟩, chained⟩ := Option.isSome_iff_exists.mp computed
  obtain ⟨S, ran, chained⟩ := Option.bind_eq_some_iff.mp chained
  obtain ⟨A, heldA, chained⟩ := Option.bind_eq_some_iff.mp chained
  obtain ⟨E, heldE, same⟩ := Option.map_eq_some_iff.mp chained
  cases same
  have reachable := Reachable.new.after ran
  exact ⟨S, A, E, reachable, heldA, automata_are_consistent reachable heldA, heldE,
    automata_are_consistent reachable heldE⟩

end Session

end PostfixAutomata
