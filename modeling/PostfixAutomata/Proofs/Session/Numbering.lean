import PostfixAutomata.Proofs.Automaton.Renaming
import PostfixAutomata.Proofs.Session.Language

set_option autoImplicit false

/-!
Determinization and the numbers of states. What numbers the states of an automaton have, and in
which order, does not show in the automaton that it is determinized to; and that depends on its
counter by a shift alone.
-/

namespace PostfixAutomata

namespace Session

variable {S : Session} {m : Slot}

/-- An automaton and the same one under new names, in whatever order these are, are determinized to
automata that differ by the distance of the two counters. With equal counters the reports agree. -/
theorem determinize_ignores_numbering (reachable : S.Reachable) {A : Nfa}
    (held : S.automata[m]? = some (.nfa A)) {f : State → State}
    (injective : Set.InjOn f {s | s ∈ A.states}) {target target' : AllocatorId}
    {k k' l l' : Counter} {D D' : Dfa} (ran : (A.determinize target).run k = .ok (D, l))
    (ran' : (Nfa.determinize (A.rename f) target').run k' = .ok (D', l')) :
    (∀ s ∈ D.states, (s.shift k.next k'.next).id + k.next = s.id + k'.next) ∧
      D' = { D.rename (State.shift k.next k'.next) with ids := target' } ∧
      (k.next = k'.next → D'.report = D.report) := by
  have valid := (reachable.sound_nfa held).valid
  have validD := Nfa.wellFormed_determinize ran
  have validD' := Nfa.wellFormed_determinize ran'
  have starts : Option.Rel (fun s s' => Nfa.Renamed f A (A.epsilonClosure [s])
      (Nfa.epsilonClosure (A.rename f) [s'])) A.start (A.rename f).start := by
    change Option.Rel _ A.start (A.start.map f)
    cases found : A.start with
    | none => exact .none
    | some s => exact .some (Nfa.renamed_epsilonClosure valid injective (valid.start_mem found))
  have shift := (Nfa.mirrors_rename valid injective).shiftOf_determinize starts ran ran'
  have moves : ∀ s ∈ D.states, s.Shifted k.next k'.next (s.shift k.next k'.next) := by
    intro s member
    obtain ⟨s', _, shifted⟩ := shift.forth member
    rwa [shifted.shift_eq]
  refine ⟨fun s member => (moves s member).symm, ?_, fun same => ?_⟩
  · rw [← Nfa.ids_determinize ran']
    exact shift.eq_rename validD validD' moves
  · rw [← same] at shift
    exact shift.report_eq validD validD'

/-- A loaded automaton that leads from its last state to both of the others. -/
def detour : Data :=
  .record [("start", .natural 2), ("finals", .list [.natural 1]),
    ("transitions", .record [("2", .record [("a", .list [.natural 0, .natural 1])]),
      ("1", .record [("b", .list [.natural 2])]),
      ("0", .record [("", .list [.natural 1]), ("b", .list [.natural 0])])])]

/-- The first state and the last one exchange their names. -/
theorem determinize_ignores_numbering_detour :
    ∃ (f : State → State) (S : Session) (A : Nfa) (D D' E : Dfa) (l l' : Counter),
      f = Equiv.swap ⟨0, by decide⟩ ⟨2, by decide⟩ ∧ S.Reachable ∧
      S.automata["m"]? = some (.nfa A) ∧ (A.determinize ⟨7⟩).run ⟨5⟩ = .ok (D, l) ∧ D.size = 3 ∧
      (Nfa.determinize (A.rename f) ⟨8⟩).run ⟨100⟩ = .ok (D', l') ∧
      D' = { D.rename (State.shift 5 100) with ids := ⟨8⟩ } ∧
      (Nfa.determinize (A.rename f) ⟨8⟩).run ⟨5⟩ = .ok (E, l) ∧ E.report = D.report := by
  let exchange : Equiv.Perm State := Equiv.swap ⟨0, by decide⟩ ⟨2, by decide⟩
  have computed : ((Nfa.ofData ⟨0⟩ detour).toOption.bind fun A =>
      ((A.determinize ⟨7⟩).run ⟨5⟩).toOption.bind fun (D, l) =>
      ((Nfa.determinize (A.rename exchange) ⟨8⟩).run ⟨100⟩).toOption.bind fun (D', l') =>
      ((Nfa.determinize (A.rename exchange) ⟨8⟩).run ⟨5⟩).toOption.bind fun (E, l'') =>
        if l'' = l ∧ D.size = 3 then some (A, D, D', E, l, l') else none).isSome = true := by cbv
  obtain ⟨⟨A, D, D', E, l, l'⟩, chained⟩ := Option.isSome_iff_exists.mp computed
  obtain ⟨A, loaded, chained⟩ := Option.bind_eq_some_iff.mp chained
  obtain ⟨⟨D, l⟩, ran, chained⟩ := Option.bind_eq_some_iff.mp chained
  obtain ⟨⟨D', l'⟩, ran', chained⟩ := Option.bind_eq_some_iff.mp chained
  obtain ⟨⟨E, _⟩, again, chained⟩ := Option.bind_eq_some_iff.mp chained
  obtain ⟨⟨rfl, size⟩, same⟩ := Option.ite_none_right_eq_some.mp chained
  cases same
  have ran := toOption_eq_some_iff.mp ran
  have ran' := toOption_eq_some_iff.mp ran'
  have again := toOption_eq_some_iff.mp again
  obtain ⟨S, reachable, held⟩ := reachable_loadNfa "m" (toOption_eq_some_iff.mp loaded)
  have injective := exchange.injective.injOn (s := {s | s ∈ A.states})
  obtain ⟨_, moved, _⟩ := determinize_ignores_numbering reachable held injective ran ran'
  obtain ⟨_, _, report⟩ := determinize_ignores_numbering reachable held injective ran again
  exact ⟨exchange, S, A, D, D', E, _, _, rfl, reachable, held, ran, size, ran', moved, again,
    report rfl⟩

end Session

end PostfixAutomata
