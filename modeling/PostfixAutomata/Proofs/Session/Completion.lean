import PostfixAutomata.Proofs.Session.Language

set_option autoImplicit false

/-!
Complement as completion. Besides its language, the complement of an automaton of a session has a
definite shape: the automaton itself with one further state for all that it leaves undefined, and
with the final states exchanged for the others.
-/

namespace PostfixAutomata

namespace Session

variable {S : Session} {m : Slot}

/-- The complement keeps the states and the transitions of the automaton. It adds one state, new to
all automata of the counter, which takes the transitions that were not defined and never leads back;
where none were missing, nothing leads there. -/
theorem complement_completes (reachable : S.Reachable) {D : Dfa}
    (held : S.automata[m]? = some (.dfa D)) {E : Dfa} {k : Counter}
    (ran : D.complement.run (S.counter D.ids) = .ok (E, k)) :
    ∃ sink : State,
      (∀ (other : Slot) (M : Machine), S.automata[other]? = some M → M.ids = D.ids →
        sink ∉ M.states) ∧
      E.size = D.size + 1 ∧ D.CompletedBy sink E ∧
      (∀ s ∈ E.states, s ∈ E.finals ↔ s ∉ D.finals) ∧ sink ∈ E.finals ∧
      (D.Complete → D.start ≠ none → ¬E.Reached sink) := by
  have valid := (reachable.sound_dfa held).valid
  obtain ⟨sink, identifier, _, rfl⟩ := Dfa.complement_eq_ok ran
  have new : ∀ (other : Slot) (M : Machine), S.automata[other]? = some M → M.ids = D.ids →
      sink ∉ M.states := by
    intro other M found shares member
    have below := (reachable.sound.machines found).below member
    rw [shares] at below
    omega
  have fresh : sink ∉ D.states := new m (.dfa D) held rfl
  have completed := Dfa.completedBy_complementWith valid fresh
  have flipped : ∀ s ∈ (D.complementWith sink).states,
      s ∈ (D.complementWith sink).finals ↔ s ∉ D.finals := by
    intro s member
    rw [Dfa.mem_finals_complementWith]
    exact and_iff_right (Dfa.mem_states_complementWith.mp member)
  refine ⟨sink, new, ?_, completed, flipped, ?_, ?_⟩
  · have grown : (D.complementWith sink).states.size = D.states.size + 1 := by
      rw [completed.states, Std.ExtTreeSet.size_insert, if_neg (by simpa using fresh)]
    exact grown
  · apply (flipped sink (Dfa.mem_states_complementWith.mpr (.inl rfl))).mpr
    exact fun final => fresh (valid.finals_subset final)
  · intro complete begins reached
    exact fresh ((reached.of_complementWith valid complete begins).mem_states valid)

/-- A loaded automaton that lacks no transition. -/
def toggle : Data :=
  .record [("start", .natural 0), ("finals", .list [.natural 1]),
    ("transitions", .record [("0", .record [("a", .natural 1), ("b", .natural 0)]),
      ("1", .record [("a", .natural 0), ("b", .natural 1)])])]

theorem complement_completes_toggle :
    ∃ (S : Session) (D E : Dfa) (k : Counter) (sink : State), S.Reachable ∧
      S.automata["m"]? = some (.dfa D) ∧ D.complement.run (S.counter D.ids) = .ok (E, k) ∧
      D.Complete ∧ sink ∉ D.states ∧ E.size = 3 ∧ D.CompletedBy sink E ∧
      (∀ s ∈ E.states, s ∈ E.finals ↔ s ∉ D.finals) ∧ sink ∈ E.finals ∧ ¬E.Reached sink := by
  have computed : ((Dfa.ofData ⟨0⟩ toggle).toOption.bind fun D =>
      (D.complement.run (Counter.above D.states.toList)).toOption.bind fun (E, k) =>
        if D.Complete ∧ D.start ≠ none ∧ D.size = 2 then some (D, E, k)
        else none).isSome = true := by cbv
  obtain ⟨⟨D, E, k⟩, chained⟩ := Option.isSome_iff_exists.mp computed
  obtain ⟨D, loaded, chained⟩ := Option.bind_eq_some_iff.mp chained
  obtain ⟨⟨E, k⟩, ran, chained⟩ := Option.bind_eq_some_iff.mp chained
  obtain ⟨⟨complete, begins, size⟩, same⟩ := Option.ite_none_right_eq_some.mp chained
  cases same
  have ran := toOption_eq_some_iff.mp ran
  obtain ⟨S, reachable, held, counter⟩ := reachable_loadDfa "m" (toOption_eq_some_iff.mp loaded)
  rw [← counter] at ran
  obtain ⟨sink, new, grown, completed, flipped, accepts, apart⟩ :=
    complement_completes reachable held ran
  rw [size] at grown
  exact ⟨S, D, E, k, sink, reachable, held, ran, complete, new "m" (.dfa D) held rfl, grown,
    completed, flipped, accepts, apart complete begins⟩

end Session

end PostfixAutomata
