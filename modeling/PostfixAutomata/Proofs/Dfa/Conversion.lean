import PostfixAutomata.Nfa.Path
import PostfixAutomata.Proofs.Dfa.Runs
import PostfixAutomata.Proofs.Nfa.Operators

set_option autoImplicit false

/-!
A deterministic automaton read as a nondeterministic one: its paths are the runs, so it accepts the
same inputs.
-/

namespace PostfixAutomata

namespace Dfa

variable {D : Dfa}

theorem mem_states_toNfa (valid : D.WellFormed) {s : State} :
    s ∈ D.toNfa.states ↔ s ∈ D.states := by
  change s ∈ D.linked.states ↔ _
  rw [linked, Automaton.states_insertSymbols, Automaton.mem_states_insertTransitions,
    Automaton.mem_states_insertStates, Std.ExtTreeSet.mem_toList]
  constructor
  · rintro (⟨edge, listed, ends⟩ | member | member)
    · obtain ⟨⟨p, c, q⟩, original, rfl⟩ := List.mem_map.mp listed
      have inside := valid.of_mem_edgeList original
      rcases ends with rfl | rfl
      · exact inside.1
      · exact inside.2.1
    · exact member
    · exact absurd member Std.ExtTreeSet.not_mem_empty
  · exact fun member => .inr (.inl member)

theorem mem_alphabet_toNfa (valid : D.WellFormed) {c : Char} :
    c ∈ D.toNfa.alphabet ↔ c ∈ D.alphabet := by
  change c ∈ D.linked.alphabet ↔ _
  rw [linked, Automaton.mem_alphabet_insertSymbols, Automaton.mem_alphabet_insertTransitions,
    Automaton.alphabet_insertStates, Std.ExtTreeSet.mem_toList]
  constructor
  · rintro (member | ⟨edge, listed, reads⟩ | member)
    · exact member
    · obtain ⟨⟨p, d, q⟩, original, rfl⟩ := List.mem_map.mp listed
      exact (valid.of_mem_edgeList original).2.2 reads
    · exact absurd member Std.ExtTreeSet.not_mem_empty
  · exact .inl

theorem wellFormed_toNfa (valid : D.WellFormed) : D.toNfa.WellFormed := by
  have linked : D.linked.WellFormed :=
    (((Automaton.WellFormed.empty D.ids).insertStates _).insertTransitions _).insertSymbols _
  refine linked.marks ?_ ?_
  · intro s found
    exact (mem_states_toNfa valid).mpr (valid.start_mem found)
  · intro s member
    exact (mem_states_toNfa valid).mpr (valid.finals_subset member)

theorem states_toNfa (valid : D.WellFormed) : D.toNfa.states = D.states :=
  Std.ExtTreeSet.ext_mem fun _ => mem_states_toNfa valid

theorem alphabet_toNfa (valid : D.WellFormed) : D.toNfa.alphabet = D.alphabet :=
  Std.ExtTreeSet.ext_mem fun _ => mem_alphabet_toNfa valid

/-- It has the same transitions, each under the symbol that it was under. -/
theorem mem_edgeList_toNfa {p q : State} {l : Label} :
    (p, l, q) ∈ D.toNfa.edgeList ↔ ∃ c, l = .symbol c ∧ (p, c, q) ∈ D.edgeList := by
  simp only [Nfa.mem_edgeList, mem_targets_toNfa, mem_edgeList]

theorem path_toNfa_iff {p q : State} {input : List Char} :
    D.toNfa.Path p input q ↔ D.runFrom p input = some q := by
  constructor
  · intro path
    induction path with
    | refl => rfl
    | @cons p q r l rest edge _ ih =>
        obtain ⟨c, rfl, target⟩ := mem_targets_toNfa.mp edge
        change (D.target? p c).bind (D.runFrom · rest) = some r
        rw [target, Option.bind_some, ih]
  · intro reached
    induction input generalizing p with
    | nil =>
        cases reached
        exact .refl q
    | cons c rest ih =>
        obtain ⟨next, target, remaining⟩ := Option.bind_eq_some_iff.mp reached
        exact .cons (mem_targets_toNfa.mpr ⟨c, rfl, target⟩) (ih remaining)

theorem accepts_toNfa_iff {input : List Char} :
    D.toNfa.Accepts input ↔ D.accepts input = true := by
  rw [accepts_iff]
  constructor
  · rintro ⟨start, stop, begun, final, path⟩
    exact ⟨start, stop, begun, path_toNfa_iff.mp path, final⟩
  · rintro ⟨start, stop, begun, reached, final⟩
    exact ⟨start, stop, begun, final, path_toNfa_iff.mpr reached⟩

theorem ids_toNfa : D.toNfa.ids = D.ids := by
  change D.linked.ids = _
  rw [linked, Automaton.ids_insertSymbols, Automaton.ids_insertTransitions,
    Automaton.ids_insertStates]
  rfl

theorem sound_toNfa {k : Counter} (sound : D.Sound k) : D.toNfa.Sound k := by
  refine ⟨wellFormed_toNfa sound.valid, ?_⟩
  intro s member
  exact sound.below ((mem_states_toNfa sound.valid).mp member)

end Dfa

end PostfixAutomata
