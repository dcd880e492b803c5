import PostfixAutomata.Proofs.Automaton.Drawn
import PostfixAutomata.Proofs.Dfa.Runs
import PostfixAutomata.Proofs.State

set_option autoImplicit false

/-!
The language of a complement. A run of the completed automaton follows the run of the given one as
long as there is one and stays in the sink from then on, as long as it reads symbols of the
alphabet.
-/

namespace PostfixAutomata

namespace Dfa

variable {D : Dfa} {sink : State}

theorem ids_complementWith : (D.complementWith sink).ids = D.ids :=
  Automaton.ids_insertTransitions _ _

theorem mem_states_complementWith {s : State} :
    s ∈ (D.complementWith sink).states ↔ s = sink ∨ s ∈ D.states := by
  change s ∈ (D.completeWith sink).states ↔ _
  rw [completeWith, Automaton.mem_states_insertTransitions, Automaton.mem_states_insertState]
  constructor
  · rintro (⟨edge, listed, ends⟩ | rfl | member)
    · obtain ⟨⟨t, c⟩, absent, rfl⟩ := List.mem_map.mp listed
      have source := (mem_missing.mp absent).1
      rw [Automaton.mem_states_insertState] at source
      rcases ends with rfl | rfl
      · exact source.imp Eq.symm id
      · exact .inl rfl
    · exact .inl rfl
    · exact .inr member
  · rintro (rfl | member)
    · exact .inr (.inl rfl)
    · exact .inr (.inr member)

theorem mem_finals_complementWith {s : State} :
    s ∈ (D.complementWith sink).finals ↔ (s = sink ∨ s ∈ D.states) ∧ s ∉ D.finals := by
  have states := @mem_states_complementWith D sink s
  rw [← states]
  change s ∈ (D.completeWith sink).states.filter (!D.finals.contains ·) ↔ _
  rw [StateSet.mem_filter_iff, Bool.not_eq_true', Bool.eq_false_iff, ne_eq,
    Std.ExtTreeSet.contains_iff_mem]
  rfl

theorem mem_alphabet_complementWith {c : Char} :
    c ∈ (D.complementWith sink).alphabet ↔ c ∈ D.alphabet := by
  change c ∈ (D.completeWith sink).alphabet ↔ _
  rw [completeWith, Automaton.mem_alphabet_insertTransitions, Automaton.alphabet_insertState]
  apply or_iff_right_of_imp
  rintro ⟨edge, listed, reads⟩
  obtain ⟨⟨t, d⟩, absent, rfl⟩ := List.mem_map.mp listed
  cases reads
  exact (mem_missing.mp absent).2.1

theorem wellFormed_complementWith (valid : D.WellFormed) (sink : State) :
    (D.complementWith sink).WellFormed := by
  have complete : (D.completeWith sink).WellFormed :=
    (valid.insertState sink).insertTransitions _
  refine complete.marks ?_ ?_
  · intro s same
    rw [Option.some.injEq] at same
    rw [← same]
    refine mem_states_complementWith.mpr ?_
    cases found : D.start with
    | none => exact .inl rfl
    | some start => exact .inr (valid.start_mem found)
  · intro s member
    exact mem_states_complementWith.mpr (mem_finals_complementWith.mp member).1

/-! The completed transitions. -/

theorem target?_complementWith_of_some {p q : State} {c : Char} (edge : D.target? p c = some q) :
    (D.complementWith sink).target? p c = some q := by
  rw [target?_complementWith, if_neg (by simp [edge]), edge]

theorem target?_complementWith_of_none {p : State} {c : Char} (member : p = sink ∨ p ∈ D.states)
    (symbol : c ∈ D.alphabet) (undefined : D.target? p c = none) :
    (D.complementWith sink).target? p c = some sink := by
  rw [target?_complementWith, if_pos ⟨member.imp Eq.symm id, symbol, undefined⟩]

/-- The sink has a loop on each symbol. -/
theorem target?_complementWith_sink (valid : D.WellFormed) (fresh : sink ∉ D.states) {c : Char}
    (symbol : c ∈ D.alphabet) : (D.complementWith sink).target? sink c = some sink := by
  apply target?_complementWith_of_none (.inl rfl) symbol
  apply Option.eq_none_iff_forall_ne_some.mpr
  intro q edge
  exact fresh (source_mem valid edge)

/-- A transition was there before, or else it goes to the sink from where none was. -/
theorem eq_sink_of_target?_complementWith {p q : State} {c : Char}
    (edge : (D.complementWith sink).target? p c = some q) :
    D.target? p c = some q ∨ D.target? p c = none ∧ q = sink := by
  rw [target?_complementWith] at edge
  split at edge
  · rename_i added
    exact .inr ⟨added.2.2, (Option.some.inj edge).symm⟩
  · exact .inl edge

theorem complete_complementWith (D : Dfa) (sink : State) : (D.complementWith sink).Complete := by
  intro s member c symbol
  have state := mem_states_complementWith.mp member
  have known := mem_alphabet_complementWith.mp symbol
  cases edge : D.target? s c with
  | none => exact ⟨sink, target?_complementWith_of_none state known edge⟩
  | some t => exact ⟨t, target?_complementWith_of_some edge⟩

/-- An automaton and a completed one: the sink is added and nothing is taken away. -/
structure CompletedBy (D : Dfa) (sink : State) (E : Dfa) : Prop where
  ids : E.ids = D.ids
  states : E.states = D.states.insert sink
  alphabet : E.alphabet = D.alphabet
  start : E.start = some (D.start.getD sink)
  complete : E.Complete
  kept : ∀ {p q : State} {c : Char}, D.target? p c = some q → E.target? p c = some q
  added : ∀ {p q : State} {c : Char}, E.target? p c = some q → D.target? p c ≠ some q →
    D.target? p c = none ∧ q = sink
  loops : ∀ c ∈ E.alphabet, E.target? sink c = some sink

theorem completedBy_complementWith (valid : D.WellFormed) (fresh : sink ∉ D.states) :
    D.CompletedBy sink (D.complementWith sink) where
  ids := ids_complementWith
  states := by
    apply StateSet.ext_iff.mpr
    intro s
    rw [mem_states_complementWith, StateSet.mem_insert_iff]
  alphabet := Std.ExtTreeSet.ext_mem fun c => mem_alphabet_complementWith
  start := rfl
  complete := complete_complementWith D sink
  kept := target?_complementWith_of_some
  added := fun edge new => (eq_sink_of_target?_complementWith edge).resolve_left new
  loops := fun _ symbol =>
    target?_complementWith_sink valid fresh (mem_alphabet_complementWith.mp symbol)

/-- Where nothing is missing, what is reached was reached before. -/
theorem Reached.of_complementWith (valid : D.WellFormed) (complete : D.Complete)
    (begins : D.start ≠ none) {s : State} (reached : (D.complementWith sink).Reached s) :
    D.Reached s := by
  induction reached with
  | @start s found =>
      change some (D.start.getD sink) = some s at found
      cases first : D.start with
      | none => exact absurd first begins
      | some start =>
          rw [first, Option.getD_some] at found
          exact .start (first.trans found)
  | @step p q c _ edge ih =>
      have symbol : c ∈ D.alphabet :=
        mem_alphabet_complementWith.mp (symbol_mem (wellFormed_complementWith valid sink) edge)
      obtain ⟨t, defined⟩ := complete p (ih.mem_states valid) c symbol
      cases eq_sink_of_target?_complementWith edge with
      | inl kept => exact .step ih kept
      | inr added => exact absurd (added.1.symm.trans defined) nofun

/-! Runs of the completed automaton. -/

/-- The sink is absorbing. -/
theorem runFrom_complementWith_sink (valid : D.WellFormed) (fresh : sink ∉ D.states)
    {input : List Char} (known : ∀ c ∈ input, c ∈ D.alphabet) :
    (D.complementWith sink).runFrom sink input = some sink := by
  induction input with
  | nil => rfl
  | cons c input ih =>
      rw [runFrom, target?_complementWith_sink valid fresh (known c (by simp)), Option.bind_some]
      exact ih fun d member => known d (List.mem_cons_of_mem c member)

/-- Over the alphabet, the completed run ends where the given run ends, or else in the sink. -/
theorem runFrom_complementWith (valid : D.WellFormed) (fresh : sink ∉ D.states) {p : State}
    (member : p ∈ D.states) {input : List Char} (known : ∀ c ∈ input, c ∈ D.alphabet) :
    (D.complementWith sink).runFrom p input = some ((D.runFrom p input).getD sink) := by
  induction input generalizing p with
  | nil => rfl
  | cons c input ih =>
      have rest : ∀ d ∈ input, d ∈ D.alphabet :=
        fun d inside => known d (List.mem_cons_of_mem c inside)
      cases edge : D.target? p c with
      | none =>
          have diverted : (D.complementWith sink).target? p c = some sink :=
            target?_complementWith_of_none (.inr member) (known c (by simp)) edge
          rw [runFrom, diverted, Option.bind_some, runFrom_complementWith_sink valid fresh rest,
            runFrom, edge, Option.bind_none, Option.getD_none]
      | some q =>
          rw [runFrom, target?_complementWith_of_some edge, Option.bind_some,
            ih (target_mem valid edge) rest, runFrom, edge, Option.bind_some]

theorem accepts_complementWith_iff (valid : D.WellFormed) (fresh : sink ∉ D.states)
    {input : List Char} :
    (D.complementWith sink).accepts input = true ↔
      (∀ c ∈ input, c ∈ D.alphabet) ∧ D.accepts input = false := by
  have sinkNotFinal : sink ∉ D.finals := fun member => fresh (valid.finals_subset member)
  have begun : (D.complementWith sink).start = some (D.start.getD sink) := rfl
  by_cases known : ∀ c ∈ input, c ∈ D.alphabet
  · rw [and_iff_right known, accepts_iff_of_start begun]
    cases found : D.start with
    | none =>
        refine iff_of_true ⟨sink, ?_, ?_⟩ (accepts_of_start_eq_none found input)
        · exact runFrom_complementWith_sink valid fresh known
        · exact mem_finals_complementWith.mpr ⟨.inl rfl, sinkNotFinal⟩
    | some start =>
        have member := valid.start_mem found
        rw [← Bool.not_eq_true, accepts_iff_of_start found, Option.getD_some,
          runFrom_complementWith valid fresh member known]
        simp only [Option.some.injEq, exists_eq_left', mem_finals_complementWith]
        cases reached : D.runFrom start input with
        | none => simp [sinkNotFinal]
        | some stop => simp [runFrom_mem_states valid member reached]
  · refine iff_of_false ?_ fun both => known both.1
    intro accepted
    apply known
    intro c member
    exact mem_alphabet_complementWith.mp
      (over_alphabet_of_accepts (wellFormed_complementWith valid sink) accepted c member)

/-! Runs of the operation, which draws the sink. -/

section Runs

variable {E : Dfa} {k k' : Counter}

theorem complement_eq_ok (ran : D.complement.run k = .ok (E, k')) :
    ∃ sink, sink.id = k.next ∧ k'.next = k.next + 1 ∧ E = D.complementWith sink := by
  obtain ⟨sink, between, issued, done⟩ := Alloc.run_bind_eq_ok_iff.mp ran
  obtain ⟨rfl, rfl⟩ := Alloc.run_pure_eq_ok_iff.mp done
  obtain ⟨identifier, advanced⟩ := Alloc.run_fresh_eq_ok_iff.mp issued
  exact ⟨sink, identifier, advanced, rfl⟩

theorem onlyExhausts_complement (D : Dfa) : D.complement.OnlyExhausts :=
  Alloc.onlyExhausts_fresh.bind fun _ => Alloc.onlyExhausts_pure _

theorem drawn_complement (sound : D.Sound k) (ran : D.complement.run k = .ok (E, k')) :
    E.Drawn D.ids (· ∈ D.states) k k' := by
  obtain ⟨sink, identifier, advanced, rfl⟩ := complement_eq_ok ran
  refine ⟨⟨wellFormed_complementWith sound.valid sink, ?_⟩, ids_complementWith, by omega, ?_⟩
  · intro s member
    rcases mem_states_complementWith.mp member with rfl | member
    · omega
    · have below := sound.below member
      omega
  · intro s member
    rcases mem_states_complementWith.mp member with rfl | member
    · exact .inr (Nat.le_of_eq identifier.symm)
    · exact .inl member

/-- The complement accepts the inputs over the alphabet that the automaton rejects. -/
theorem accepts_complement_iff (sound : D.Sound k) (ran : D.complement.run k = .ok (E, k'))
    {input : List Char} :
    E.accepts input = true ↔ (∀ c ∈ input, c ∈ D.alphabet) ∧ D.accepts input = false := by
  obtain ⟨sink, identifier, _, rfl⟩ := complement_eq_ok ran
  exact accepts_complementWith_iff sound.valid (sound.fresh (Nat.le_of_eq identifier.symm))

theorem alphabet_complement (ran : D.complement.run k = .ok (E, k')) :
    E.alphabet = D.alphabet := by
  obtain ⟨sink, _, _, rfl⟩ := complement_eq_ok ran
  exact Std.ExtTreeSet.ext_mem fun c => mem_alphabet_complementWith

end Runs

end Dfa

end PostfixAutomata
