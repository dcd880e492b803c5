import PostfixAutomata.Dfa.Complement
import PostfixAutomata.Nfa.Transitions

set_option autoImplicit false

/-!
The transition function of deterministic automata. Completion defines it where it was not defined,
and reading an automaton as a nondeterministic one keeps it.
-/

namespace PostfixAutomata

namespace Dfa

theorem target?_eq (D : Dfa) (p : State) (c : Char) : D.target? p c = (D.row p)[c]? := rfl

/-- Only the rows matter. -/
theorem target?_congr {D E : Dfa} (same : ∀ p, D.row p = E.row p) (p : State) (c : Char) :
    D.target? p c = E.target? p c := by
  rw [target?_eq, target?_eq, same]

@[simp] theorem target?_insertState (D : Dfa) (s p : State) (c : Char) :
    target? (D.insertState s) p c = D.target? p c :=
  target?_congr (D.row_insertState s) p c

theorem target?_insertTransition (D : Dfa) (p q p' : State) (c c' : Char) :
    target? (D.insertTransition p c q) p' c' =
      if p = p' ∧ c = c' then some q else D.target? p' c' := by
  simp only [target?_eq, Automaton.row_insertTransition]
  by_cases samePlace : p = p'
  · subst samePlace
    simp [TransitionRow.link, Std.ExtTreeMap.getElem?_insert]
  · simp only [samePlace, ↓reduceIte, false_and]

/-- Transitions that all go to one state define the function there and change nothing else. -/
theorem target?_insertTransitions_map (D : Dfa) (pairs : List (State × Char)) (q p : State)
    (c : Char) :
    target? (D.insertTransitions (pairs.map fun (s, c) => (s, c, q))) p c =
      if (p, c) ∈ pairs then some q else D.target? p c := by
  induction pairs generalizing D with
  | nil => simp
  | cons pair rest ih =>
      obtain ⟨s, d⟩ := pair
      rw [List.map_cons, Automaton.insertTransitions_cons, ih, target?_insertTransition]
      by_cases later : (p, c) ∈ rest
      · simp [later]
      · by_cases here : s = p ∧ d = c
        · obtain ⟨rfl, rfl⟩ := here
          simp
        · have absent : (p, c) ∉ (s, d) :: rest := by
            intro member
            rcases List.mem_cons.mp member with same | member
            · obtain ⟨rfl, rfl⟩ := Prod.mk.inj same
              exact here ⟨rfl, rfl⟩
            · exact later member
          rw [if_neg later, if_neg here, if_neg absent]

/-- The listed transitions are the transitions. -/
theorem mem_edgeList {D : Dfa} {p q : State} {c : Char} :
    (p, c, q) ∈ D.edgeList ↔ D.target? p c = some q := by
  simp only [Automaton.edgeList, TransitionRow.edges, List.mem_flatMap, List.mem_map, Prod.exists,
    Prod.mk.injEq, Std.ExtTreeMap.mem_toList_iff_getElem?_eq_some]
  constructor
  · rintro ⟨p', row, found, c', q', entry, rfl, rfl, rfl⟩
    simp [target?, Automaton.row, Std.ExtTreeMap.getD_eq_getD_getElem?, found, entry]
  · intro reached
    cases found : D.rows[p]? with
    | none =>
        simp [target?, Automaton.row, Std.ExtTreeMap.getD_eq_getD_getElem?, found,
          TransitionRow.blank] at reached
    | some row =>
        refine ⟨p, row, found, c, q, ?_, rfl, rfl, rfl⟩
        simpa [target?, Automaton.row, Std.ExtTreeMap.getD_eq_getD_getElem?, found] using reached

theorem mem_missing {D : Dfa} {s : State} {c : Char} :
    (s, c) ∈ D.missing ↔ s ∈ D.states ∧ c ∈ D.alphabet ∧ D.target? s c = none := by
  simp only [missing, List.mem_flatMap, List.mem_map, List.mem_filter, Prod.mk.injEq,
    Std.ExtTreeSet.mem_toList, Option.isNone_iff_eq_none]
  grind

/-- In the complement each state has a destination on each symbol of the alphabet: its own, or
else the sink. -/
theorem target?_complementWith (D : Dfa) (sink p : State) (c : Char) :
    (D.complementWith sink).target? p c =
      if (sink = p ∨ p ∈ D.states) ∧ c ∈ D.alphabet ∧ D.target? p c = none then some sink
      else D.target? p c := by
  change target? (D.completeWith sink) p c = _
  rw [completeWith, target?_insertTransitions_map]
  simp [mem_missing]

/-- The nondeterministic form before its start and its final states are marked. -/
def linked (D : Dfa) : Nfa :=
  (((Automaton.empty D.ids : Nfa).insertStates D.states.toList).insertTransitions
    (D.edgeList.map fun edge => (edge.1, .symbol edge.2.1, edge.2.2))).insertSymbols
      D.alphabet.toList

/-- As a nondeterministic automaton, it goes where it went, and nowhere under ε. -/
theorem mem_targets_toNfa {D : Dfa} {p q : State} {l : Label} :
    q ∈ D.toNfa.targets p l ↔ ∃ c, l = .symbol c ∧ D.target? p c = some q := by
  have rows : D.toNfa.rows = D.linked.rows := rfl
  rw [Nfa.targets_congr (Automaton.row_congr rows), linked, Nfa.targets_insertSymbols,
    Nfa.mem_targets_insertTransitions, Nfa.targets_insertStates, Nfa.targets_empty]
  simp only [List.mem_map, Prod.exists, Prod.mk.injEq, Std.ExtTreeSet.not_mem_empty, or_false]
  constructor
  · rintro ⟨p', c, q', edge, rfl, rfl, rfl⟩
    exact ⟨c, rfl, mem_edgeList.mp edge⟩
  · rintro ⟨c, rfl, reached⟩
    exact ⟨p, c, q, mem_edgeList.mpr reached, rfl, rfl, rfl⟩

end Dfa

end PostfixAutomata
