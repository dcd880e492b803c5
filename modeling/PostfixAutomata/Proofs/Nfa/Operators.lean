import PostfixAutomata.Nfa.Transitions
import PostfixAutomata.Proofs.Automaton.Drawn
import PostfixAutomata.Proofs.State

set_option autoImplicit false

/-!
What the operators on nondeterministic automata do to states and alphabets, and that they keep
automata well-formed. An operator adds the states that it is given and no others.
-/

namespace PostfixAutomata

open TransitionRow

namespace Nfa

namespace Row

theorem mem_edges_iff {r : Nfa.Row} {l : Label} {q : State} :
    (l, q) ∈ edges r ↔ q ∈ r.destinations l := by
  simp only [TransitionRow.edges, List.mem_flatMap, List.mem_map, Prod.exists, Prod.mk.injEq,
    Std.ExtTreeMap.mem_toList_iff_getElem?_eq_some, Std.ExtTreeSet.mem_toList, destinations,
    Std.ExtTreeMap.getD_eq_getD_getElem?]
  constructor
  · rintro ⟨m, targets, stored, t, member, rfl, rfl⟩
    rwa [stored, Option.getD_some]
  · intro member
    cases stored : r[l]? with
    | none =>
        rw [stored, Option.getD_none] at member
        exact absurd member Std.ExtTreeSet.not_mem_empty
    | some targets =>
        rw [stored, Option.getD_some] at member
        exact ⟨l, targets, stored, q, member, rfl, rfl⟩

/-- A tidy row stores no empty set of destinations. -/
instance : LawfulTransitionRow Nfa.Row where
  Tidy r := ∀ {l : Label} {targets : StateSet}, r[l]? = some targets → targets ≠ ∅
  tidy_blank stored := by
    rw [show (blank : Nfa.Row)[_]? = none from Std.ExtTreeMap.getElem?_empty] at stored
    cases stored
  tidy_link {r} l q tidy m targets stored := by
    change (r.insert l ((r.destinations l).insert q))[m]? = some targets at stored
    rw [Std.ExtTreeMap.getElem?_insert] at stored
    split at stored
    · cases stored
      exact Std.ExtTreeSet.insert_ne_empty
    · exact tidy stored
  edges_blank := by
    apply List.eq_nil_iff_forall_not_mem.mpr
    rintro ⟨l, q⟩ edge
    rw [mem_edges_iff] at edge
    change q ∈ (∅ : Nfa.Row).getD l ∅ at edge
    rw [Std.ExtTreeMap.getD_empty] at edge
    exact Std.ExtTreeSet.not_mem_empty edge
  of_mem_edges_link {r l m q t} edge := by
    rw [mem_edges_iff, destinations_link] at edge
    split at edge
    · rename_i same
      subst same
      rcases Std.ExtTreeSet.mem_insert.mp edge with here | there
      · exact .inl ⟨rfl, (State.compare_eq_iff.mp here).symm⟩
      · exact .inr (mem_edges_iff.mpr there)
    · exact .inr (mem_edges_iff.mpr edge)

end Row

theorem mem_edges_row {A : Nfa} {p q : State} {l : Label} :
    (l, q) ∈ edges (A.row p) ↔ q ∈ A.targets p l := by
  rw [Row.mem_edges_iff, targets_eq_destinations]

section Transitions

variable {A : Nfa} {p q : State} {l : Label}

theorem source_mem (valid : A.WellFormed) (edge : q ∈ A.targets p l) : p ∈ A.states :=
  valid.source_mem (mem_edges_row.mpr edge)

theorem target_mem (valid : A.WellFormed) (edge : q ∈ A.targets p l) : q ∈ A.states :=
  valid.target_mem (mem_edges_row.mpr edge)

theorem symbol_mem (valid : A.WellFormed) {c : Char} (edge : q ∈ A.targets p (.symbol c)) :
    c ∈ A.alphabet :=
  valid.symbol_mem (mem_edges_row.mpr edge) rfl

end Transitions

/-! States. -/

theorem mem_states_literalWith {ids : AllocatorId} {l : Label} {start stop s : State} :
    s ∈ (literalWith ids l start stop).states ↔ s = start ∨ s = stop := by
  change s ∈ ((Automaton.empty ids : Nfa).insertTransition start l stop).states ↔ _
  rw [Automaton.mem_states_insertTransition]
  simp only [Automaton.empty, Std.ExtTreeSet.not_mem_empty, or_false]
  grind

theorem mem_states_linkAll {A : Nfa} {sources : List State} {target s : State} :
    s ∈ (A.linkAll sources target).states ↔
      (sources ≠ [] ∧ s = target) ∨ s ∈ sources ∨ s ∈ A.states := by
  rw [linkAll, Automaton.mem_states_insertTransitions]
  constructor
  · rintro (⟨edge, listed, ends⟩ | member)
    · obtain ⟨p, source, rfl⟩ := List.mem_map.mp listed
      rcases ends with rfl | rfl
      · exact .inr (.inl source)
      · exact .inl ⟨List.ne_nil_of_mem source, rfl⟩
    · exact .inr (.inr member)
  · rintro (⟨some, rfl⟩ | source | member)
    · obtain ⟨p, source⟩ := List.exists_mem_of_ne_nil sources some
      exact .inl ⟨_, List.mem_map.mpr ⟨p, source, rfl⟩, .inr rfl⟩
    · exact .inl ⟨_, List.mem_map.mpr ⟨s, source, rfl⟩, .inl rfl⟩
    · exact .inr member

theorem mem_states_linkTo {A : Nfa} {source s : State} {ends : List State} :
    s ∈ (A.linkTo source ends).states ↔
      (ends ≠ [] ∧ s = source) ∨ s ∈ ends ∨ s ∈ A.states := by
  rw [linkTo, Automaton.mem_states_insertTransitions]
  constructor
  · rintro (⟨edge, listed, ends⟩ | member)
    · obtain ⟨q, target, rfl⟩ := List.mem_map.mp listed
      rcases ends with rfl | rfl
      · exact .inl ⟨List.ne_nil_of_mem target, rfl⟩
      · exact .inr (.inl target)
    · exact .inr (.inr member)
  · rintro (⟨some, rfl⟩ | target | member)
    · obtain ⟨q, target⟩ := List.exists_mem_of_ne_nil ends some
      exact .inl ⟨_, List.mem_map.mpr ⟨q, target, rfl⟩, .inl rfl⟩
    · exact .inl ⟨_, List.mem_map.mpr ⟨s, target, rfl⟩, .inr rfl⟩
    · exact .inr member

section States

variable {A B : Nfa}

theorem mem_states_absorb (valid : B.WellFormed) {s : State} :
    s ∈ (A.absorb B).states ↔ s ∈ A.states ∨ s ∈ B.states := by
  rw [absorb, Automaton.states_insertSymbols, Automaton.mem_states_insertTransitions,
    Automaton.mem_states_insertStates, Std.ExtTreeSet.mem_toList]
  constructor
  · rintro (⟨edge, listed, rfl | rfl⟩ | member | member)
    · exact .inr (valid.of_mem_edgeList listed).1
    · exact .inr (valid.of_mem_edgeList listed).2.1
    · exact .inr member
    · exact .inl member
  · rintro (member | member)
    · exact .inr (.inr member)
    · exact .inr (.inl member)

theorem mem_states_append (validA : A.WellFormed) (validB : B.WellFormed) {s : State} :
    s ∈ (A.append B).states ↔ s ∈ A.states ∨ s ∈ B.states := by
  change s ∈ (B.start.elim (A.absorb B) ((A.absorb B).linkAll A.finals.toList)).states ↔ _
  cases found : B.start with
  | none => exact mem_states_absorb validB
  | some start =>
      have startMember := validB.start_mem found
      have finalMember : ∀ {p : State}, p ∈ A.finals.toList → p ∈ A.states :=
        fun member => validA.finals_subset (Std.ExtTreeSet.mem_toList.mp member)
      change s ∈ ((A.absorb B).linkAll A.finals.toList start).states ↔ _
      rw [mem_states_linkAll, mem_states_absorb validB]
      grind

theorem mem_states_unionWith (validA : A.WellFormed) (validB : B.WellFormed)
    {start stop s : State} :
    s ∈ (A.unionWith B start stop).states ↔
      s = start ∨ s = stop ∨ s ∈ A.states ∨ s ∈ B.states := by
  have startMember : ∀ {p : State}, p ∈ A.start.toList ++ B.start.toList →
      p ∈ A.states ∨ p ∈ B.states := by
    intro p member
    rw [List.mem_append, Option.mem_toList, Option.mem_toList] at member
    exact member.imp validA.start_mem validB.start_mem
  have finalMember : ∀ {p : State}, p ∈ A.finals.toList ++ B.finals.toList →
      p ∈ A.states ∨ p ∈ B.states := by
    intro p member
    rw [List.mem_append, Std.ExtTreeSet.mem_toList, Std.ExtTreeSet.mem_toList] at member
    exact member.imp validA.finals_subset validB.finals_subset
  change s ∈ (linkAll (linkTo ((A.absorb B).insertStates [start, stop]) start
    (A.start.toList ++ B.start.toList)) (A.finals.toList ++ B.finals.toList) stop).states ↔ _
  rw [mem_states_linkAll, mem_states_linkTo, Automaton.mem_states_insertStates,
    mem_states_absorb validB]
  grind

theorem mem_states_starWith (valid : A.WellFormed) {start stop s : State} :
    s ∈ (A.starWith start stop).states ↔ s = start ∨ s = stop ∨ s ∈ A.states := by
  have finalMember : ∀ {p : State}, p ∈ A.finals.toList → p ∈ A.states :=
    fun member => valid.finals_subset (Std.ExtTreeSet.mem_toList.mp member)
  have startMember : ∀ {p : State}, p ∈ A.start.toList → p ∈ A.states :=
    fun member => valid.start_mem (Option.mem_toList.mp member)
  change s ∈ (linkAll (linkTo (linkTo A start (stop :: A.start.toList)) stop [start])
    A.finals.toList stop).states ↔ _
  rw [mem_states_linkAll, mem_states_linkTo, mem_states_linkTo]
  grind

end States

/-! Alphabets. -/

theorem mem_alphabet_literalWith {ids : AllocatorId} {l : Label} {start stop : State} {c : Char} :
    c ∈ (literalWith ids l start stop).alphabet ↔ l.symbol? = some c := by
  change c ∈ ((Automaton.empty ids : Nfa).insertTransition start l stop).alphabet ↔ _
  rw [Automaton.mem_alphabet_insertTransition]
  simp only [Automaton.empty, Std.ExtTreeSet.not_mem_empty, or_false]
  rfl

@[simp] theorem mem_alphabet_linkAll {A : Nfa} {sources : List State} {target : State} {c : Char} :
    c ∈ (A.linkAll sources target).alphabet ↔ c ∈ A.alphabet := by
  rw [linkAll, Automaton.mem_alphabet_insertTransitions]
  apply or_iff_right
  rintro ⟨edge, listed, reads⟩
  obtain ⟨p, _, rfl⟩ := List.mem_map.mp listed
  cases reads

@[simp] theorem mem_alphabet_linkTo {A : Nfa} {source : State} {ends : List State} {c : Char} :
    c ∈ (A.linkTo source ends).alphabet ↔ c ∈ A.alphabet := by
  rw [linkTo, Automaton.mem_alphabet_insertTransitions]
  apply or_iff_right
  rintro ⟨edge, listed, reads⟩
  obtain ⟨q, _, rfl⟩ := List.mem_map.mp listed
  cases reads

theorem mem_alphabet_absorb {A B : Nfa} (valid : B.WellFormed) {c : Char} :
    c ∈ (A.absorb B).alphabet ↔ c ∈ A.alphabet ∨ c ∈ B.alphabet := by
  rw [absorb, Automaton.mem_alphabet_insertSymbols, Automaton.mem_alphabet_insertTransitions,
    Automaton.alphabet_insertStates, Std.ExtTreeSet.mem_toList]
  constructor
  · rintro (member | ⟨edge, listed, reads⟩ | member)
    · exact .inr member
    · exact .inr ((valid.of_mem_edgeList listed).2.2 reads)
    · exact .inl member
  · grind

theorem mem_alphabet_append {A B : Nfa} (valid : B.WellFormed) {c : Char} :
    c ∈ (A.append B).alphabet ↔ c ∈ A.alphabet ∨ c ∈ B.alphabet := by
  rw [← mem_alphabet_absorb valid]
  change c ∈ (B.start.elim (A.absorb B) ((A.absorb B).linkAll A.finals.toList)).alphabet ↔ _
  cases B.start with
  | none => rfl
  | some start => exact mem_alphabet_linkAll

theorem mem_alphabet_unionWith {A B : Nfa} (valid : B.WellFormed) {start stop : State} {c : Char} :
    c ∈ (A.unionWith B start stop).alphabet ↔ c ∈ A.alphabet ∨ c ∈ B.alphabet := by
  change c ∈ (linkAll (linkTo ((A.absorb B).insertStates [start, stop]) start
    (A.start.toList ++ B.start.toList)) (A.finals.toList ++ B.finals.toList) stop).alphabet ↔ _
  rw [mem_alphabet_linkAll, mem_alphabet_linkTo, Automaton.alphabet_insertStates,
    mem_alphabet_absorb valid]

theorem mem_alphabet_starWith {A : Nfa} {start stop : State} {c : Char} :
    c ∈ (A.starWith start stop).alphabet ↔ c ∈ A.alphabet := by
  change c ∈ (linkAll (linkTo (linkTo A start (stop :: A.start.toList)) stop [start])
    A.finals.toList stop).alphabet ↔ _
  rw [mem_alphabet_linkAll, mem_alphabet_linkTo, mem_alphabet_linkTo]

/-! Well-formedness. -/

section WellFormed

variable {A B : Nfa}

theorem wellFormed_literalWith (ids : AllocatorId) (l : Label) (start stop : State) :
    (literalWith ids l start stop).WellFormed := by
  have states := @mem_states_literalWith ids l start stop
  refine ((Automaton.WellFormed.empty ids).insertTransition start l stop).marks ?_ ?_
  · rintro s ⟨⟩
    exact states.mpr (.inl rfl)
  · intro s member
    obtain rfl := StateSet.mem_singleton_iff.mp member
    exact states.mpr (.inr rfl)

theorem wellFormed_absorb (valid : A.WellFormed) : (A.absorb B).WellFormed :=
  ((valid.insertStates _).insertTransitions _).insertSymbols _

theorem wellFormed_append (validA : A.WellFormed) (validB : B.WellFormed) :
    (A.append B).WellFormed := by
  have linked : (B.start.elim (A.absorb B)
      ((A.absorb B).linkAll A.finals.toList)).WellFormed := by
    cases B.start with
    | none => exact wellFormed_absorb validA
    | some start => exact (wellFormed_absorb validA).insertTransitions _
  refine linked.marks linked.start_mem ?_
  intro s member
  exact (mem_states_append validA validB).mpr (.inr (validB.finals_subset member))

theorem wellFormed_unionWith (validA : A.WellFormed) (validB : B.WellFormed) (start stop : State) :
    (A.unionWith B start stop).WellFormed := by
  have linked := (((wellFormed_absorb (B := B) validA).insertStates [start, stop]).insertTransitions
    ((A.start.toList ++ B.start.toList).map fun t => (start, .epsilon, t))).insertTransitions
    ((A.finals.toList ++ B.finals.toList).map fun s => (s, .epsilon, stop))
  refine linked.marks ?_ ?_
  · rintro s ⟨⟩
    exact (mem_states_unionWith validA validB).mpr (.inl rfl)
  · intro s member
    obtain rfl := StateSet.mem_singleton_iff.mp member
    exact (mem_states_unionWith validA validB).mpr (.inr (.inl rfl))

theorem wellFormed_starWith (valid : A.WellFormed) (start stop : State) :
    (A.starWith start stop).WellFormed := by
  have linked := ((valid.insertTransitions
    ((stop :: A.start.toList).map fun t => (start, .epsilon, t))).insertTransitions
    ([start].map fun t => (stop, .epsilon, t))).insertTransitions
    (A.finals.toList.map fun s => (s, .epsilon, stop))
  refine linked.marks ?_ ?_
  · rintro s ⟨⟩
    exact (mem_states_starWith valid).mpr (.inl rfl)
  · intro s member
    obtain rfl := StateSet.mem_singleton_iff.mp member
    exact (mem_states_starWith valid).mpr (.inr (.inl rfl))

end WellFormed

/-! Runs. -/

section Runs

variable {A B C : Nfa} {ids : AllocatorId} {l : Label} {c c' : Counter}

theorem literal_eq_ok (ran : (literal ids l).run c = .ok (A, c')) :
    ∃ start stop, start.id = c.next ∧ stop.id = c.next + 1 ∧ c'.next = c.next + 2 ∧
      A = literalWith ids l start stop := by
  obtain ⟨start, stop, between, first, second, advanced, done⟩ := Alloc.run_fresh_fresh_eq_ok ran
  obtain ⟨rfl, rfl⟩ := Alloc.run_pure_eq_ok_iff.mp done
  exact ⟨start, stop, first, second, advanced, rfl⟩

theorem requireShared_eq_ok {u : Unit} (ran : (requireShared A B).run c = .ok (u, c')) :
    A.ids = B.ids ∧ c' = c := by
  unfold requireShared at ran
  split at ran
  · rename_i same
    exact ⟨same, (Alloc.run_pure_eq_ok_iff.mp ran).2.symm⟩
  · cases ran

theorem concat_eq_ok (ran : (A.concat B).run c = .ok (C, c')) :
    A.ids = B.ids ∧ c' = c ∧ C = A.append B := by
  obtain ⟨_, between, required, done⟩ := Alloc.run_bind_eq_ok_iff.mp ran
  obtain ⟨same, rfl⟩ := requireShared_eq_ok required
  obtain ⟨rfl, rfl⟩ := Alloc.run_pure_eq_ok_iff.mp done
  exact ⟨same, rfl, rfl⟩

theorem union_eq_ok (ran : (A.union B).run c = .ok (C, c')) :
    A.ids = B.ids ∧ ∃ start stop, start.id = c.next ∧ stop.id = c.next + 1 ∧
      c'.next = c.next + 2 ∧ C = A.unionWith B start stop := by
  obtain ⟨start, stop, between, first, second, advanced, ran⟩ := Alloc.run_fresh_fresh_eq_ok ran
  obtain ⟨_, after, required, done⟩ := Alloc.run_bind_eq_ok_iff.mp ran
  obtain ⟨same, rfl⟩ := requireShared_eq_ok required
  obtain ⟨rfl, rfl⟩ := Alloc.run_pure_eq_ok_iff.mp done
  exact ⟨same, start, stop, first, second, advanced, rfl⟩

theorem star_eq_ok (ran : A.star.run c = .ok (C, c')) :
    ∃ start stop, start.id = c.next ∧ stop.id = c.next + 1 ∧ c'.next = c.next + 2 ∧
      C = A.starWith start stop := by
  obtain ⟨start, stop, between, first, second, advanced, done⟩ := Alloc.run_fresh_fresh_eq_ok ran
  obtain ⟨rfl, rfl⟩ := Alloc.run_pure_eq_ok_iff.mp done
  exact ⟨start, stop, first, second, advanced, rfl⟩

theorem run_requireShared (shared : A.ids = B.ids) (c : Counter) :
    (requireShared A B).run c = .ok ((), c) := by
  rw [requireShared, if_pos shared]
  rfl

theorem concat_eq_append (shared : A.ids = B.ids) (c : Counter) :
    (A.concat B).run c = .ok (A.append B, c) :=
  Alloc.run_bind_eq_ok_iff.mpr ⟨(), c, run_requireShared shared c,
    Alloc.run_pure_eq_ok_iff.mpr ⟨rfl, rfl⟩⟩

theorem literal_of_room (ids : AllocatorId) (l : Label) {c : Counter}
    (room : c.next + 2 ≤ UInt32.size) :
    ∃ C, (literal ids l).run c = .ok (C, ⟨c.next + 2⟩) := by
  obtain ⟨start, stop, _, _, drawn⟩ := Alloc.run_fresh_fresh_of_room
    (fun start stop => return literalWith ids l start stop) room
  exact ⟨_, drawn.trans (Alloc.run_pure_eq_ok_iff.mpr ⟨rfl, rfl⟩)⟩

/-- A union succeeds while there are two identifiers left. -/
theorem union_of_room (shared : A.ids = B.ids) {c : Counter}
    (room : c.next + 2 ≤ UInt32.size) : ∃ C c', (A.union B).run c = .ok (C, c') := by
  obtain ⟨start, stop, _, _, drawn⟩ := Alloc.run_fresh_fresh_of_room
    (fun start stop => do requireShared A B; return A.unionWith B start stop) room
  refine ⟨A.unionWith B start stop, ⟨c.next + 2⟩, drawn.trans ?_⟩
  exact Alloc.run_bind_eq_ok_iff.mpr ⟨(), _, run_requireShared shared _,
    Alloc.run_pure_eq_ok_iff.mpr ⟨rfl, rfl⟩⟩

theorem union_of_spent {c : Counter} (spent : UInt32.size < c.next + 2) :
    (A.union B).run c = .error .identifiersExhausted :=
  Alloc.run_fresh_fresh_of_spent _ spent

/-- A star succeeds while there are two identifiers left. -/
theorem star_of_room {c : Counter} (room : c.next + 2 ≤ UInt32.size) :
    ∃ C c', A.star.run c = .ok (C, c') := by
  obtain ⟨start, stop, _, _, drawn⟩ := Alloc.run_fresh_fresh_of_room
    (fun start stop => return A.starWith start stop) room
  exact ⟨A.starWith start stop, ⟨c.next + 2⟩,
    drawn.trans (Alloc.run_pure_eq_ok_iff.mpr ⟨rfl, rfl⟩)⟩

theorem star_of_spent {c : Counter} (spent : UInt32.size < c.next + 2) :
    A.star.run c = .error .identifiersExhausted :=
  Alloc.run_fresh_fresh_of_spent _ spent

/-- A union has a single final state. -/
theorem finals_union (ran : (A.union B).run c = .ok (C, c')) : ∃ stop, C.finals = {stop} := by
  obtain ⟨_, start, stop, _, _, _, rfl⟩ := union_eq_ok ran
  exact ⟨stop, rfl⟩

/-- The states that a union draws are different, and new to both operands. -/
theorem union_eq_fresh (soundA : A.Sound c) (soundB : B.Sound c)
    (ran : (A.union B).run c = .ok (C, c')) :
    ∃ start stop, start ≠ stop ∧ (start ∉ A.states ∧ start ∉ B.states) ∧
      (stop ∉ A.states ∧ stop ∉ B.states) ∧ C = A.unionWith B start stop := by
  obtain ⟨_, start, stop, first, second, _, built⟩ := union_eq_ok ran
  have different : start ≠ stop := by
    intro same
    rw [same] at first
    omega
  have later : c.next ≤ start.id ∧ c.next ≤ stop.id := by omega
  exact ⟨start, stop, different, ⟨soundA.fresh later.1, soundB.fresh later.1⟩,
    ⟨soundA.fresh later.2, soundB.fresh later.2⟩, built⟩

/-- The states that a star draws are different, and new to the operand. -/
theorem star_eq_fresh (sound : A.Sound c) (ran : A.star.run c = .ok (C, c')) :
    ∃ start stop, start ≠ stop ∧ start ∉ A.states ∧ stop ∉ A.states ∧
      C = A.starWith start stop := by
  obtain ⟨start, stop, first, second, _, built⟩ := star_eq_ok ran
  have different : start ≠ stop := by
    intro same
    rw [same] at first
    omega
  exact ⟨start, stop, different, sound.fresh (by omega), sound.fresh (by omega), built⟩

theorem mem_alphabet_literal (ran : (literal ids l).run c = .ok (A, c')) {d : Char} :
    d ∈ A.alphabet ↔ l.symbol? = some d := by
  obtain ⟨start, stop, _, _, _, rfl⟩ := literal_eq_ok ran
  exact mem_alphabet_literalWith

theorem mem_alphabet_concat (valid : B.WellFormed) (ran : (A.concat B).run c = .ok (C, c'))
    {d : Char} : d ∈ C.alphabet ↔ d ∈ A.alphabet ∨ d ∈ B.alphabet := by
  obtain ⟨_, _, rfl⟩ := concat_eq_ok ran
  exact mem_alphabet_append valid

theorem mem_alphabet_union (valid : B.WellFormed) (ran : (A.union B).run c = .ok (C, c'))
    {d : Char} : d ∈ C.alphabet ↔ d ∈ A.alphabet ∨ d ∈ B.alphabet := by
  obtain ⟨_, start, stop, _, _, _, rfl⟩ := union_eq_ok ran
  exact mem_alphabet_unionWith valid

theorem mem_alphabet_star (ran : A.star.run c = .ok (C, c')) {d : Char} :
    d ∈ C.alphabet ↔ d ∈ A.alphabet := by
  obtain ⟨start, stop, _, _, _, rfl⟩ := star_eq_ok ran
  exact mem_alphabet_starWith

theorem onlyExhausts_literal (ids : AllocatorId) (l : Label) : (literal ids l).OnlyExhausts :=
  Alloc.onlyExhausts_fresh.bind fun _ => Alloc.onlyExhausts_fresh.bind fun _ =>
    Alloc.onlyExhausts_pure _

theorem onlyExhausts_star (A : Nfa) : A.star.OnlyExhausts :=
  Alloc.onlyExhausts_fresh.bind fun _ => Alloc.onlyExhausts_fresh.bind fun _ =>
    Alloc.onlyExhausts_pure _

/-- Automata of one counter are never refused. -/
theorem onlyExhausts_requireShared (shared : A.ids = B.ids) : (requireShared A B).OnlyExhausts := by
  rw [requireShared, if_pos shared]
  exact Alloc.onlyExhausts_pure _

theorem onlyExhausts_concat (shared : A.ids = B.ids) : (A.concat B).OnlyExhausts :=
  (onlyExhausts_requireShared shared).bind fun _ => Alloc.onlyExhausts_pure _

theorem onlyExhausts_union (shared : A.ids = B.ids) : (A.union B).OnlyExhausts :=
  Alloc.onlyExhausts_fresh.bind fun _ => Alloc.onlyExhausts_fresh.bind fun _ =>
    (onlyExhausts_requireShared shared).bind fun _ => Alloc.onlyExhausts_pure _

end Runs

/-! Where the states come from. -/

section Drawn

variable {A B C : Nfa} {ids : AllocatorId} {l : Label} {c c' : Counter}

theorem drawn_literal (ran : (literal ids l).run c = .ok (A, c')) :
    A.Drawn ids (fun _ => False) c c' := by
  obtain ⟨start, stop, first, second, advanced, rfl⟩ := literal_eq_ok ran
  refine ⟨⟨wellFormed_literalWith ids l start stop, ?_⟩, rfl, by omega, ?_⟩
  · intro s member
    rcases mem_states_literalWith.mp member with rfl | rfl
    · omega
    · omega
  · intro s member
    rcases mem_states_literalWith.mp member with rfl | rfl
    · exact .inr (by omega)
    · exact .inr (by omega)

theorem ids_append : (A.append B).ids = A.ids := by
  change (B.start.elim (A.absorb B) ((A.absorb B).linkAll A.finals.toList)).ids = _
  cases B.start <;> simp [linkAll, absorb]

theorem ids_unionWith {start stop : State} : (A.unionWith B start stop).ids = A.ids := by
  change (linkAll (linkTo ((A.absorb B).insertStates [start, stop]) start
    (A.start.toList ++ B.start.toList)) (A.finals.toList ++ B.finals.toList) stop).ids = _
  simp [linkAll, linkTo, absorb]

theorem ids_starWith {start stop : State} : (A.starWith start stop).ids = A.ids := by
  change (linkAll (linkTo (linkTo A start (stop :: A.start.toList)) stop [start])
    A.finals.toList stop).ids = _
  simp [linkAll, linkTo]

theorem drawn_concat (soundA : A.Sound c) (soundB : B.Sound c)
    (ran : (A.concat B).run c = .ok (C, c')) :
    C.Drawn A.ids (fun s => s ∈ A.states ∨ s ∈ B.states) c c' := by
  obtain ⟨_, rfl, rfl⟩ := concat_eq_ok ran
  have states := @mem_states_append A B soundA.valid soundB.valid
  refine ⟨⟨wellFormed_append soundA.valid soundB.valid, ?_⟩, ids_append, Nat.le_refl _,
    fun member => .inl (states.mp member)⟩
  intro s member
  rcases states.mp member with member | member
  · exact soundA.below member
  · exact soundB.below member

theorem drawn_union (soundA : A.Sound c) (soundB : B.Sound c)
    (ran : (A.union B).run c = .ok (C, c')) :
    C.Drawn A.ids (fun s => s ∈ A.states ∨ s ∈ B.states) c c' := by
  obtain ⟨_, start, stop, first, second, advanced, rfl⟩ := union_eq_ok ran
  have states := @mem_states_unionWith A B soundA.valid soundB.valid start stop
  refine ⟨⟨wellFormed_unionWith soundA.valid soundB.valid start stop, ?_⟩, ids_unionWith,
    by omega, ?_⟩
  · intro s member
    rcases states.mp member with rfl | rfl | member | member
    · omega
    · omega
    · have below := soundA.below member
      omega
    · have below := soundB.below member
      omega
  · intro s member
    rcases states.mp member with rfl | rfl | member
    · exact .inr (by omega)
    · exact .inr (by omega)
    · exact .inl member

theorem drawn_star (sound : A.Sound c) (ran : A.star.run c = .ok (C, c')) :
    C.Drawn A.ids (· ∈ A.states) c c' := by
  obtain ⟨start, stop, first, second, advanced, rfl⟩ := star_eq_ok ran
  have states := @mem_states_starWith A sound.valid start stop
  refine ⟨⟨wellFormed_starWith sound.valid start stop, ?_⟩, ids_starWith, by omega, ?_⟩
  · intro s member
    rcases states.mp member with rfl | rfl | member
    · omega
    · omega
    · have below := sound.below member
      omega
  · intro s member
    rcases states.mp member with rfl | rfl | member
    · exact .inr (by omega)
    · exact .inr (by omega)
    · exact .inl member

end Drawn

end Nfa

end PostfixAutomata
