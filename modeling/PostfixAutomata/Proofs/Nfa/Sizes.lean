import PostfixAutomata.Proofs.Automaton.Statistics
import PostfixAutomata.Proofs.Nfa.Sparse

set_option autoImplicit false

/-!
How large the operators make automata. An operand has one way in and one way out, and the two are
different states. So an operator adds the same number of transitions to all operands, none of which
was there before, and at most one to what leaves a state of an operand.
-/

namespace PostfixAutomata

open TransitionRow

namespace Nfa

variable {A B C : Nfa} {p : State}

/-! Counting transitions. -/

theorem nodup_edgeList (A : Nfa) : A.edgeList.Nodup :=
  Automaton.nodup_edgeList A Row.nodup_edges

/-- The number of transitions is the length of any list that has each of them once. -/
theorem length_edgeList_eq (edges : List (State × Label × State)) (distinct : edges.Nodup)
    (same : ∀ p l q, q ∈ A.targets p l ↔ (p, l, q) ∈ edges) :
    A.edgeList.length = edges.length := by
  have listed : A.edgeList.Perm edges := by
    apply (List.perm_ext_iff_of_nodup A.nodup_edgeList distinct).mpr
    rintro ⟨p, l, q⟩
    rw [mem_edgeList, same]
  exact listed.length_eq

/-- What an operator adds to transitions that were there, it adds to their number. -/
theorem length_edgeList_of_links {old : List (State × Label × State)}
    (links : List (State × Label × State)) (kept : old.Nodup) (distinct : links.Nodup)
    (new : ∀ edge ∈ links, edge ∉ old)
    (same : ∀ p l q, q ∈ C.targets p l ↔ (p, l, q) ∈ links ∨ (p, l, q) ∈ old) :
    C.edgeList.length = old.length + links.length := by
  have together : (links ++ old).Nodup := by
    apply List.nodup_append.mpr
    refine ⟨distinct, kept, ?_⟩
    rintro edge added _ there rfl
    exact new edge added there
  rw [length_edgeList_eq _ together fun p l q => (same p l q).trans List.mem_append.symm,
    List.length_append, Nat.add_comm]

/-- An exit adds one transition to a final state, and none to any other state. -/
theorem Extends.outDegree_le {exits : State → Prop} (extend : C.Extends A exits)
    (member : p ∈ A.states) (exit : State) (single : ∀ q, exits q → q = exit) :
    C.outDegree p ≤ A.outDegree p + 1 ∧ (p ∉ A.finals → C.outDegree p ≤ A.outDegree p) := by
  constructor
  · apply outDegree_le_length ((.epsilon, exit) :: edges (A.row p))
    intro l q edge
    rcases (extend member).mp edge with ⟨_, rfl, leaves⟩ | inner
    · rw [single q leaves]
      exact List.mem_cons_self
    · exact List.mem_cons_of_mem _ (mem_edges_row.mpr inner)
  · intro notFinal
    apply outDegree_le_length (edges (A.row p))
    intro l q edge
    rcases (extend member).mp edge with ⟨final, _⟩ | inner
    · exact absurd final notFinal
    · exact mem_edges_row.mpr inner

/-! Automata as the operators leave them. -/

/-- An automaton of some size that leads from one state to another one. At most two transitions
leave a state, and at most one leaves the final state, so that an operator may add to it. -/
structure Sized (A : Nfa) (start stop : State) (states transitions : Nat) : Prop where
  start_eq : A.start = some start
  finals_eq : A.finals = {stop}
  different : start ≠ stop
  size : A.size = states
  length : A.edgeList.length = transitions
  outDegree_le : ∀ p, A.outDegree p ≤ 2
  exit_le : A.outDegree stop ≤ 1

namespace Sized

variable {start stop startA stopA startB stopB : State} {states transitions statesA transitionsA
  statesB transitionsB : Nat}

theorem mem_finals (sized : A.Sized start stop states transitions) {s : State} :
    s ∈ A.finals ↔ s = stop := by
  rw [sized.finals_eq, StateSet.mem_singleton_iff]

theorem start_mem (sized : A.Sized start stop states transitions) (valid : A.WellFormed) :
    start ∈ A.states :=
  valid.start_mem sized.start_eq

theorem stop_mem (sized : A.Sized start stop states transitions) (valid : A.WellFormed) :
    stop ∈ A.states :=
  valid.finals_subset (sized.mem_finals.mpr rfl)

/-- The states of an operand have room for its exit. -/
theorem outDegree_le_of_extends {exits : State → Prop}
    (sized : A.Sized start stop states transitions) (extend : C.Extends A exits)
    (member : p ∈ A.states) (exit : State) (single : ∀ q, exits q → q = exit) :
    C.outDegree p ≤ 2 := by
  obtain ⟨anywhere, elsewhere⟩ := extend.outDegree_le member exit single
  by_cases final : p = stop
  · have few := sized.exit_le
    rw [final] at anywhere ⊢
    omega
  · have few := sized.outDegree_le p
    have same := elsewhere fun member => final (sized.mem_finals.mp member)
    omega

/-- The total of the statistics is the number of transitions. -/
theorem transitions_eq (sized : A.Sized start stop states transitions) (valid : A.WellFormed) :
    A.statistics.transitions = .ok transitions := by
  have fits : A.edgeList.length < UInt64.size := by
    rw [Automaton.length_edgeList valid]
    exact (Automaton.sum_outDegree_le fun s _ => sized.outDegree_le s).trans_lt (by decide)
  exact (Automaton.transitions_eq_ok_iff_length valid).mpr ⟨sized.length.symm, sized.length ▸ fits⟩

protected theorem literalWith (ids : AllocatorId) (l : Label) (different : start ≠ stop) :
    (Nfa.literalWith ids l start stop).Sized start stop 2 1 where
  start_eq := rfl
  finals_eq := rfl
  different := different
  size := by
    apply StateSet.size_eq_length [start, stop]
    · simpa using different
    · intro s
      rw [mem_states_literalWith]
      simp
  length := by
    apply length_edgeList_eq [(start, l, stop)]
    · simp
    · intro p m q
      rw [mem_targets_literalWith]
      simp
  outDegree_le := by
    intro p
    apply (outDegree_le_length [(l, stop)] ?_).trans (by simp)
    intro m q edge
    obtain ⟨_, rfl, rfl⟩ := mem_targets_literalWith.mp edge
    simp
  exit_le := by
    apply (outDegree_le_length [] ?_).trans (by simp)
    intro m q edge
    exact absurd (mem_targets_literalWith.mp edge).1 different.symm

section Pair

variable (validA : A.WellFormed) (validB : B.WellFormed) (apart : ∀ s ∈ A.states, s ∉ B.states)

include apart

omit validA validB in
theorem nodup_states : (A.states.toList ++ B.states.toList).Nodup := by
  apply List.nodup_append.mpr
  refine ⟨A.states.nodup_toList, B.states.nodup_toList, ?_⟩
  rintro s inA t inB rfl
  rw [Std.ExtTreeSet.mem_toList] at inA inB
  exact apart s inA inB

include validA validB

theorem nodup_edges : (A.edgeList ++ B.edgeList).Nodup := by
  apply List.nodup_append.mpr
  refine ⟨A.nodup_edgeList, B.nodup_edgeList, ?_⟩
  rintro edge inA edge' inB rfl
  exact apart edge.1 (validA.of_mem_edgeList inA).1 (validB.of_mem_edgeList inB).1

theorem size_append : (A.append B).size = A.size + B.size := by
  refine (StateSet.size_eq_length _ (nodup_states apart) ?_).trans (by simp [Automaton.size])
  intro s
  simp [mem_states_append validA validB]

theorem size_unionWith (different : start ≠ stop) (freshStart : start ∉ A.states ∧ start ∉ B.states)
    (freshStop : stop ∉ A.states ∧ stop ∉ B.states) :
    (A.unionWith B start stop).size = A.size + B.size + 2 := by
  refine (StateSet.size_eq_length (start :: stop :: (A.states.toList ++ B.states.toList))
    ?_ ?_).trans (by simp [Automaton.size])
  · simp [nodup_states apart, different, freshStart, freshStop]
  · intro s
    simp [mem_states_unionWith validA validB]

variable (sizedA : A.Sized startA stopA statesA transitionsA)
  (sizedB : B.Sized startB stopB statesB transitionsB)

include sizedA sizedB

/-- A concatenation adds the transition between its parts. -/
theorem length_append :
    (A.append B).edgeList.length = A.edgeList.length + B.edgeList.length + 1 := by
  have inA := sizedA.stop_mem validA
  have inB := sizedB.start_mem validB
  rw [← List.length_append]
  apply length_edgeList_of_links [(stopA, .epsilon, startB)] (nodup_edges validA validB apart)
  · exact List.nodup_singleton _
  · intro edge added there
    obtain rfl := List.mem_singleton.mp added
    rcases List.mem_append.mp there with edge | edge
    · exact apart startB (validA.of_mem_edgeList edge).2.1 inB
    · exact apart stopA inA (validB.of_mem_edgeList edge).1
  · intro p l q
    rw [mem_targets_append, sizedB.start_eq]
    simp only [sizedA.mem_finals, List.mem_singleton, Prod.mk.injEq, List.mem_append,
      mem_edgeList, Option.some.injEq, @eq_comm _ startB q, or_comm]

protected theorem append :
    (A.append B).Sized startA stopB (statesA + statesB) (transitionsA + transitionsB + 1) := by
  have first := extends_append_first apart validB
  have second := extends_append_second apart validA
  refine ⟨(start_append A B).trans sizedA.start_eq, sizedB.finals_eq, ?_, ?_, ?_, ?_, ?_⟩
  · intro same
    exact apart startA (sizedA.start_mem validA) (same ▸ sizedB.stop_mem validB)
  · rw [size_append validA validB apart, sizedA.size, sizedB.size]
  · rw [length_append validA validB apart sizedA sizedB, sizedA.length, sizedB.length]
  · intro p
    by_cases member : p ∈ A.states
    · apply sizedA.outDegree_le_of_extends first member startB
      intro q begun
      exact Option.some.inj (begun.symm.trans sizedB.start_eq)
    · by_cases member' : p ∈ B.states
      · exact sizedB.outDegree_le_of_extends second member' p fun q impossible =>
          impossible.elim
      · apply (outDegree_le_length [] ?_).trans (Nat.zero_le 2)
        intro l q edge
        rcases mem_targets_append.mp edge with ⟨final, _⟩ | edge | edge
        · exact absurd (validA.finals_subset final) member
        · exact absurd (source_mem validB edge) member'
        · exact absurd (source_mem validA edge) member
  · apply (outDegree_le_length (edges (B.row stopB)) ?_).trans sizedB.exit_le
    intro l q edge
    have inner := ((second (sizedB.stop_mem validB)).mp edge).resolve_left fun left => left.2.2
    exact mem_edges_row.mpr inner

variable (different : start ≠ stop) (freshStart : start ∉ A.states ∧ start ∉ B.states)
  (freshStop : stop ∉ A.states ∧ stop ∉ B.states)

include different freshStart freshStop

omit different in
/-- A union adds two ways in and two ways out. -/
theorem length_unionWith : (A.unionWith B start stop).edgeList.length =
    A.edgeList.length + B.edgeList.length + 4 := by
  have startInA := sizedA.start_mem validA
  have startInB := sizedB.start_mem validB
  have stopInA := sizedA.stop_mem validA
  have stopInB := sizedB.stop_mem validB
  rw [← List.length_append]
  apply length_edgeList_of_links [(start, .epsilon, startA), (start, .epsilon, startB),
    (stopA, .epsilon, stop), (stopB, .epsilon, stop)] (nodup_edges validA validB apart)
  · have starts : startA ≠ startB := fun same => apart startA startInA (same ▸ startInB)
    have stops : stopA ≠ stopB := fun same => apart stopA stopInA (same ▸ stopInB)
    have enters : start ≠ stopA ∧ start ≠ stopB :=
      ⟨fun same => freshStart.1 (same ▸ stopInA), fun same => freshStart.2 (same ▸ stopInB)⟩
    simp [starts, stops, enters]
  · intro edge added there
    -- Each link begins at the new start or ends at the new final state.
    have fresh : edge.1 = start ∨ edge.2.2 = stop := by
      simp only [List.mem_cons, List.not_mem_nil, or_false] at added
      rcases added with rfl | rfl | rfl | rfl <;> simp
    rcases List.mem_append.mp there with inner | inner
    · obtain ⟨source, target, _⟩ := validA.of_mem_edgeList inner
      rcases fresh with same | same
      · exact freshStart.1 (same ▸ source)
      · exact freshStop.1 (same ▸ target)
    · obtain ⟨source, target, _⟩ := validB.of_mem_edgeList inner
      rcases fresh with same | same
      · exact freshStart.2 (same ▸ source)
      · exact freshStop.2 (same ▸ target)
  · intro p l q
    rw [mem_targets_unionWith, sizedA.start_eq, sizedB.start_eq]
    simp only [sizedA.mem_finals, sizedB.mem_finals, List.mem_cons, List.not_mem_nil, or_false,
      Prod.mk.injEq, List.mem_append, mem_edgeList, Option.some.injEq]
    grind

protected theorem unionWith :
    (A.unionWith B start stop).Sized start stop (statesA + statesB + 2)
      (transitionsA + transitionsB + 4) := by
  have first := extends_unionWith_first apart validB stop freshStart.1
  have second := extends_unionWith_second apart validA stop freshStart.2
  have outside := @mem_targets_unionWith_outside A B validA validB start stop
  refine ⟨rfl, rfl, different, ?_, ?_, ?_, ?_⟩
  · rw [size_unionWith validA validB apart different freshStart freshStop, sizedA.size,
      sizedB.size]
  · rw [length_unionWith validA validB apart sizedA sizedB freshStart freshStop,
      sizedA.length, sizedB.length]
  · intro p
    by_cases member : p ∈ A.states
    · exact sizedA.outDegree_le_of_extends first member stop fun _ same => same
    · by_cases member' : p ∈ B.states
      · exact sizedB.outDegree_le_of_extends second member' stop fun _ same => same
      · apply outDegree_le_length [(.epsilon, startA), (.epsilon, startB)]
        intro l q edge
        obtain ⟨_, rfl, begun⟩ := (outside member member').mp edge
        rw [sizedA.start_eq, sizedB.start_eq] at begun
        rcases begun with same | same
        · simp [Option.some.inj same]
        · simp [Option.some.inj same]
  · apply (outDegree_le_length [] ?_).trans (Nat.zero_le 1)
    intro l q edge
    exact absurd ((outside freshStop.1 freshStop.2).mp edge).1 different.symm

end Pair

section Star

variable (valid : A.WellFormed) (different : start ≠ stop) (freshStart : start ∉ A.states)
  (freshStop : stop ∉ A.states)

include valid different freshStart freshStop

theorem size_starWith : (A.starWith start stop).size = A.size + 2 := by
  refine (StateSet.size_eq_length (start :: stop :: A.states.toList) ?_ ?_).trans
    (by simp [Automaton.size])
  · simp [A.states.nodup_toList, different, freshStart, freshStop]
  · intro s
    simp [mem_states_starWith valid]

variable (sized : A.Sized startA stopA statesA transitionsA)

include sized

/-- A star adds a way in, a way out, a way around its operand and a way back. -/
theorem length_starWith :
    (A.starWith start stop).edgeList.length = A.edgeList.length + 4 := by
  have startInA := sized.start_mem valid
  have stopInA := sized.stop_mem valid
  apply length_edgeList_of_links [(start, .epsilon, startA), (start, .epsilon, stop),
    (stop, .epsilon, start), (stopA, .epsilon, stop)] A.nodup_edgeList
  · have around : startA ≠ stop := fun same => freshStop (same ▸ startInA)
    have enters : start ≠ stopA := fun same => freshStart (same ▸ stopInA)
    have leaves : stop ≠ stopA := fun same => freshStop (same ▸ stopInA)
    simp [around, enters, leaves, different]
  · intro edge added there
    -- Each link begins or ends at a new state.
    have fresh : edge.1 = start ∨ edge.1 = stop ∨ edge.2.2 = stop := by
      simp only [List.mem_cons, List.not_mem_nil, or_false] at added
      rcases added with rfl | rfl | rfl | rfl <;> simp
    obtain ⟨source, target, _⟩ := valid.of_mem_edgeList there
    rcases fresh with same | same | same
    · exact freshStart (same ▸ source)
    · exact freshStop (same ▸ source)
    · exact freshStop (same ▸ target)
  · intro p l q
    rw [mem_targets_starWith, sized.start_eq]
    simp only [sized.mem_finals, List.mem_cons, List.not_mem_nil, or_false, Prod.mk.injEq,
      mem_edgeList, Option.some.injEq]
    grind

protected theorem starWith :
    (A.starWith start stop).Sized start stop (statesA + 2) (transitionsA + 4) := by
  have extend := extends_starWith freshStart freshStop
  have outside : ∀ {p l q}, p ∉ A.states → q ∈ (A.starWith start stop).targets p l →
      l = .epsilon ∧ ((p = stop ∧ q = start) ∨ (p = start ∧ (q = stop ∨ q = startA))) := by
    intro p l q notA edge
    rcases mem_targets_starWith.mp edge with ⟨final, _⟩ | back | ⟨begins, silent, enters⟩ | edge
    · exact absurd (valid.finals_subset final) notA
    · exact ⟨back.2.1, .inl ⟨back.1, back.2.2⟩⟩
    · rw [sized.start_eq, Option.some.injEq, eq_comm (a := startA)] at enters
      exact ⟨silent, .inr ⟨begins, enters⟩⟩
    · exact absurd (source_mem valid edge) notA
  refine ⟨rfl, rfl, different, ?_, ?_, ?_, ?_⟩
  · rw [size_starWith valid different freshStart freshStop, sized.size]
  · rw [length_starWith valid different freshStart freshStop sized, sized.length]
  · intro p
    by_cases member : p ∈ A.states
    · exact sized.outDegree_le_of_extends extend member stop fun _ same => same
    · by_cases last : p = stop
      · apply (outDegree_le_length [(.epsilon, start)] ?_).trans (by simp)
        intro l q edge
        obtain ⟨rfl, back | enter⟩ := outside member edge
        · simp [back.2]
        · exact absurd (enter.1.symm.trans last) different
      · apply outDegree_le_length [(.epsilon, stop), (.epsilon, startA)]
        intro l q edge
        obtain ⟨rfl, back | enter⟩ := outside member edge
        · exact absurd back.1 last
        · rcases enter.2 with rfl | rfl
          · simp
          · simp
  · apply outDegree_le_length [(.epsilon, start)]
    intro l q edge
    obtain ⟨rfl, back | enter⟩ := outside freshStop edge
    · simp [back.2]
    · exact absurd enter.1.symm different

end Star

end Sized

/-! Runs. -/

section Runs

variable {startA stopA startB stopB : State} {statesA transitionsA statesB transitionsB : Nat}
  {c c' : Counter}

theorem sized_literal {ids : AllocatorId} {l : Label}
    (ran : (literal ids l).run c = .ok (A, c')) :
    c'.next = c.next + 2 ∧ ∃ start stop, A.Sized start stop 2 1 := by
  obtain ⟨start, stop, first, second, advanced, rfl⟩ := literal_eq_ok ran
  refine ⟨advanced, start, stop, .literalWith ids l ?_⟩
  intro same
  rw [same] at first
  omega

theorem sized_star (sound : A.Sound c) (sized : A.Sized startA stopA statesA transitionsA)
    (ran : A.star.run c = .ok (C, c')) :
    c'.next = c.next + 2 ∧ ∃ start stop, C.Sized start stop (statesA + 2) (transitionsA + 4) := by
  obtain ⟨_, _, _, _, advanced, _⟩ := star_eq_ok ran
  obtain ⟨start, stop, different, freshStart, freshStop, rfl⟩ := star_eq_fresh sound ran
  exact ⟨advanced, start, stop, .starWith sound.valid different freshStart freshStop sized⟩

variable (soundA : A.Sound c) (soundB : B.Sound c) (apart : ∀ s ∈ A.states, s ∉ B.states)
  (sizedA : A.Sized startA stopA statesA transitionsA)
  (sizedB : B.Sized startB stopB statesB transitionsB)

include soundA soundB apart sizedA sizedB

theorem sized_union (ran : (A.union B).run c = .ok (C, c')) :
    c'.next = c.next + 2 ∧
      ∃ start stop,
        C.Sized start stop (statesA + statesB + 2) (transitionsA + transitionsB + 4) := by
  obtain ⟨_, _, _, _, _, advanced, _⟩ := union_eq_ok ran
  obtain ⟨start, stop, different, freshStart, freshStop, rfl⟩ := union_eq_fresh soundA soundB ran
  exact ⟨advanced, start, stop, .unionWith soundA.valid soundB.valid apart sizedA sizedB different
    freshStart freshStop⟩

theorem sized_concat (ran : (A.concat B).run c = .ok (C, c')) :
    c'.next = c.next ∧
      ∃ start stop, C.Sized start stop (statesA + statesB) (transitionsA + transitionsB + 1) := by
  obtain ⟨_, rfl, rfl⟩ := concat_eq_ok ran
  exact ⟨rfl, startA, stopB, .append soundA.valid soundB.valid apart sizedA sizedB⟩

end Runs

end Nfa

end PostfixAutomata
