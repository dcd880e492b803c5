import PostfixAutomata.Proofs.Automaton.Renaming
import PostfixAutomata.Proofs.Dfa.Conversion
import PostfixAutomata.Proofs.Nfa.Subsets

set_option autoImplicit false

/-!
The subset construction on an automaton that is deterministic already. Every subset that it meets
has one state, and these are the states that the start leads to: it copies the reached part of the
automaton. If the subset construction made the automaton, nothing is left out and the copy has the
same numbers, since both explorations meet what corresponds in the same order.
-/

namespace PostfixAutomata

namespace Dfa

variable {D E : Dfa} {start p q : State} {c : Char} {S : StateSet}

/-! Subsets of one state. -/

theorem epsilonClosure_toNfa (D : Dfa) (p : State) : D.toNfa.epsilonClosure [p] = {p} := by
  apply StateSet.ext_iff.mpr
  intro t
  rw [Nfa.mem_epsilonClosure_iff, StateSet.mem_singleton_iff]
  simp only [List.mem_singleton, exists_eq_left, ← Nfa.path_nil_iff, path_toNfa_iff, runFrom,
    Option.some.injEq]
  exact eq_comm

theorem mem_successor_toNfa : q ∈ D.toNfa.successor {p} c ↔ D.target? p c = some q := by
  rw [Nfa.mem_successor_iff]
  simp only [StateSet.mem_singleton_iff, exists_eq_left, mem_targets_toNfa, Label.symbol.injEq,
    ← Nfa.path_nil_iff, path_toNfa_iff, runFrom, Option.some.injEq, exists_eq_left',
    exists_eq_right]

theorem successor_toNfa_of_some (edge : D.target? p c = some q) :
    D.toNfa.successor {p} c = {q} := by
  apply StateSet.ext_iff.mpr
  intro t
  rw [mem_successor_toNfa, edge, StateSet.mem_singleton_iff, Option.some.injEq, eq_comm]

theorem successor_toNfa_of_none (undefined : D.target? p c = none) :
    D.toNfa.successor {p} c = ∅ := by
  apply Std.ExtTreeSet.eq_empty_iff_forall_not_mem.mpr
  intro t member
  rw [mem_successor_toNfa, undefined] at member
  cases member

/-- What the automaton reaches as a nondeterministic one is a state that it reaches, or nothing. -/
theorem eq_singleton_of_reaches (begins : D.start = some start)
    (reaches : D.toNfa.Reaches start S) : S = ∅ ∨ ∃ p, D.Reached p ∧ S = {p} := by
  induction reaches with
  | start => exact .inr ⟨start, .start begins, epsilonClosure_toNfa D start⟩
  | @successor S c _ _ ih =>
      rcases ih with rfl | ⟨p, reached, rfl⟩
      · exact .inl (Nfa.foldl_successor_empty [c])
      · cases edge : D.target? p c with
        | none => exact .inl (successor_toNfa_of_none edge)
        | some q => exact .inr ⟨q, .step reached edge, successor_toNfa_of_some edge⟩

theorem reaches_singleton (valid : D.WellFormed) (begins : D.start = some start)
    (reached : D.Reached p) : D.toNfa.Reaches start {p} := by
  induction reached with
  | @start s found =>
      obtain rfl := Option.some.inj (begins.symm.trans found)
      rw [← epsilonClosure_toNfa]
      exact .start
  | @step p q c _ edge ih =>
      rw [← successor_toNfa_of_some edge]
      exact .successor ih ((mem_alphabet_toNfa valid).mpr (symbol_mem valid edge))

theorem mem_subsets_toNfa (valid : D.WellFormed) (begins : D.start = some start) :
    S ∈ D.toNfa.subsets start ↔ ∃ p, D.Reached p ∧ S = {p} := by
  constructor
  · rintro ⟨reaches, nonempty⟩
    exact (eq_singleton_of_reaches begins reaches).resolve_left nonempty
  · rintro ⟨p, reached, rfl⟩
    exact ⟨reaches_singleton valid begins reached, StateSet.singleton_ne_empty p⟩

/-- The subsets of the automaton are as many as the states that it reaches. -/
theorem bijOn_singleton (valid : D.WellFormed) (begins : D.start = some start) :
    Set.BijOn (fun p => ({p} : StateSet)) {p | D.Reached p} (D.toNfa.subsets start) := by
  refine ⟨?_, ?_, ?_⟩
  · intro p reached
    exact (mem_subsets_toNfa valid begins).mpr ⟨p, reached, rfl⟩
  · intro p _ q _ same
    exact StateSet.singleton_inj.mp same
  · intro S member
    obtain ⟨p, reached, rfl⟩ := (mem_subsets_toNfa valid begins).mp member
    exact ⟨p, reached, rfl⟩

/-! The reached part. -/

/-- An automaton that is the reached part of another one, each state `s` of which is `f s` in it. -/
structure IsReachedPart (D : Dfa) (f : State → State) (E : Dfa) : Prop where
  bijective : Set.BijOn f {s | D.Reached s} {s | s ∈ E.states}
  start : E.start = D.start.map f
  edges : ∀ p c q, (p, c, q) ∈ E.edgeList ↔
    ∃ s t, D.Reached s ∧ (s, c, t) ∈ D.edgeList ∧ f s = p ∧ f t = q
  finals : ∀ p, p ∈ E.finals ↔ ∃ s, D.Reached s ∧ s ∈ D.finals ∧ f s = p
  alphabet : E.alphabet = D.alphabet

/-- An automaton of subsets that have one state each is the reached part. -/
theorem isReachedPart_of_subsets {first : Nat} {number : StateSet → State} (valid : D.WellFormed)
    (validE : E.WellFormed) (begins : D.start = some start)
    (shape : D.toNfa.IsSubsetAutomaton start first number E) :
    D.IsReachedPart (fun s => number {s}) E := by
  have inside : ∀ {s}, D.Reached s → ({s} : StateSet) ∈ D.toNfa.subsets start :=
    fun reached => (mem_subsets_toNfa valid begins).mpr ⟨_, reached, rfl⟩
  have onto : ∀ {p}, p ∈ E.states → ∃ s, D.Reached s ∧ number {s} = p := by
    intro p member
    obtain ⟨S, subset, rfl⟩ := shape.bijective.surjOn member
    obtain ⟨s, reached, rfl⟩ := (mem_subsets_toNfa valid begins).mp subset
    exact ⟨s, reached, rfl⟩
  refine ⟨shape.bijective.comp (bijOn_singleton valid begins), ?_, ?_, ?_, ?_⟩
  · rw [shape.start_eq, epsilonClosure_toNfa, begins, Option.map_some]
  · intro p c q
    rw [mem_edgeList]
    constructor
    · intro edge
      obtain ⟨s, reached, rfl⟩ := onto (source_mem validE edge)
      obtain ⟨nonempty, rfl⟩ := (shape.target _ (inside reached) c q).mp edge
      cases found : D.target? s c with
      | none => exact absurd (successor_toNfa_of_none found) nonempty
      | some t =>
          exact ⟨s, t, reached, mem_edgeList.mpr found, rfl, by rw [successor_toNfa_of_some found]⟩
    · rintro ⟨s, t, reached, edge, rfl, rfl⟩
      have next := successor_toNfa_of_some (mem_edgeList.mp edge)
      apply (shape.target _ (inside reached) c _).mpr
      rw [next]
      exact ⟨StateSet.singleton_ne_empty t, rfl⟩
  · intro p
    constructor
    · intro final
      obtain ⟨s, reached, rfl⟩ := onto (validE.finals_subset final)
      obtain ⟨t, member, accepting⟩ := (shape.final _ (inside reached)).mp final
      obtain rfl := StateSet.mem_singleton_iff.mp member
      exact ⟨t, reached, accepting, rfl⟩
    · rintro ⟨s, reached, accepting, rfl⟩
      exact (shape.final _ (inside reached)).mpr
        ⟨s, StateSet.mem_singleton_iff.mpr rfl, accepting⟩
  · rw [shape.alphabet, alphabet_toNfa valid]

theorem not_reached_of_no_start (missing : D.start = none) : ¬D.Reached p := by
  intro reached
  induction reached with
  | start found => exact absurd (missing.symm.trans found) nofun
  | step _ _ ih => exact ih

/-- An automaton without a start has nothing to copy but its alphabet. -/
theorem isReachedPart_of_no_start (valid : D.WellFormed) (missing : D.start = none)
    (target : AllocatorId) : D.IsReachedPart id (D.toNfa.blankDfa target) := by
  have unlinked : ∀ {p c q}, (p, c, q) ∉ (D.toNfa.blankDfa target).edgeList :=
    fun edge => Std.ExtTreeSet.not_mem_empty
      (source_mem (D.toNfa.wellFormed_blankDfa target) (mem_edgeList.mp edge))
  have unreached : ∀ {p}, ¬D.Reached p := not_reached_of_no_start missing
  refine ⟨⟨fun _ reached => (unreached reached).elim, fun _ reached => (unreached reached).elim,
    fun _ member => absurd member Std.ExtTreeSet.not_mem_empty⟩, ?_, ?_, ?_, alphabet_toNfa valid⟩
  · rw [missing]
    rfl
  · intro p c q
    refine iff_of_false unlinked ?_
    rintro ⟨s, _, reached, _⟩
    exact unreached reached
  · intro p
    refine iff_of_false Std.ExtTreeSet.not_mem_empty ?_
    rintro ⟨s, reached, _⟩
    exact unreached reached

/-- Determinized once more, an automaton loses the states that it does not reach. -/
theorem exists_isReachedPart (valid : D.WellFormed) {target : AllocatorId} {k k' : Counter}
    (ran : (D.toNfa.determinize target).run k = .ok (E, k')) : ∃ f, D.IsReachedPart f E := by
  cases begins : D.start with
  | none =>
      rw [Nfa.run_determinize_of_no_start begins] at ran
      cases ran
      exact ⟨id, isReachedPart_of_no_start valid begins target⟩
  | some start =>
      obtain ⟨_, _, number, shape⟩ :=
        Nfa.isSubsetAutomaton_of_determinize (wellFormed_toNfa valid) begins ran
      exact ⟨_, isReachedPart_of_subsets valid (Nfa.wellFormed_determinize ran) begins shape⟩

/-! The reached part of what was determinized before. -/

section Again

variable {A : Nfa} {first : Nat} {number : StateSet → State}

/-- A subset of the first automaton and the state that stands for it, as a subset of the second. -/
def Stands (A : Nfa) (start : State) (number : StateSet → State) (S S' : StateSet) : Prop :=
  S = ∅ ∧ S' = ∅ ∨ S ∈ A.subsets start ∧ S' = {number S}

theorem Stands.successor {S' : StateSet} (valid : A.WellFormed)
    (shape : A.IsSubsetAutomaton start first number D) (stands : Stands A start number S S')
    (c : Char) : Stands A start number (A.successor S c) (D.toNfa.successor S' c) := by
  rcases stands with ⟨rfl, rfl⟩ | ⟨inside, rfl⟩
  · exact .inl ⟨Nfa.foldl_successor_empty [c], Nfa.foldl_successor_empty [c]⟩
  · have goes := shape.target S inside c
    by_cases nowhere : A.successor S c = ∅
    · have undefined : D.target? (number S) c = none :=
        Option.eq_none_iff_forall_ne_some.mpr fun q edge => ((goes q).mp edge).1 nowhere
      exact .inl ⟨nowhere, successor_toNfa_of_none undefined⟩
    · have symbol := Nfa.mem_alphabet_of_successor_ne_empty valid nowhere
      have edge := (goes _).mpr ⟨nowhere, rfl⟩
      exact .inr ⟨Nfa.successor_mem_subsets inside symbol nowhere, successor_toNfa_of_some edge⟩

theorem mirrors_toNfa (valid : A.WellFormed) (validD : D.WellFormed)
    (shape : A.IsSubsetAutomaton start first number D) :
    A.Mirrors D.toNfa (Stands A start number) where
  alphabet := by rw [alphabet_toNfa validD, shape.alphabet]
  eq_iff {S T S' T'} := by
    rintro (⟨rfl, rfl⟩ | ⟨inside, rfl⟩) (⟨rfl, rfl⟩ | ⟨inside', rfl⟩)
    · exact iff_of_true rfl rfl
    · exact iff_of_false inside'.2.symm (StateSet.singleton_ne_empty _).symm
    · exact iff_of_false inside.2 (StateSet.singleton_ne_empty _)
    · constructor
      · rintro rfl
        rfl
      · intro same
        exact shape.bijective.injOn inside inside' (StateSet.singleton_inj.mp same)
  empty_iff {S S'} := by
    rintro (⟨rfl, rfl⟩ | ⟨inside, rfl⟩)
    · exact iff_of_true rfl rfl
    · exact iff_of_false inside.2 (StateSet.singleton_ne_empty _)
  successor c stands := stands.successor valid shape c
  final_iff {S S'} := by
    rintro (⟨rfl, rfl⟩ | ⟨inside, rfl⟩)
    · simp only [Std.ExtTreeSet.not_mem_empty, false_and, exists_false]
    · simp only [StateSet.mem_singleton_iff, exists_eq_left]
      exact (shape.final S inside).symm

/-- It reaches each of its states, so it has as many subsets as states, and as many as before. -/
theorem ncard_subsets_toNfa (validD : D.WellFormed) (begins : D.start = some p)
    (shape : A.IsSubsetAutomaton start first number D) :
    (D.toNfa.subsets p).ncard = (A.subsets start).ncard := by
  have reached : {s | D.Reached s} = {s | s ∈ D.states} := by
    apply Set.ext
    intro s
    constructor
    · intro reached
      exact reached.mem_states validD
    · intro member
      obtain ⟨input, ran⟩ := shape.reached s member
      rw [begins, Option.bind_some] at ran
      exact Reached.runFrom (.start begins) ran
  calc
    (D.toNfa.subsets p).ncard = {s | D.Reached s}.ncard := by
      rw [← (bijOn_singleton validD begins).image_eq,
        (bijOn_singleton validD begins).injOn.ncard_image]
    _ = {s | s ∈ D.states}.ncard := by rw [reached]
    _ = (A.subsets start).ncard := by
      rw [← shape.bijective.image_eq, shape.bijective.injOn.ncard_image]

/-- What was determinized is determinized to itself, number for number, from the same counter. -/
theorem determinize_toNfa_of_determinize (valid : A.WellFormed) {target : AllocatorId}
    {k l : Counter} (ran : (A.determinize target).run k = .ok (D, l)) (target' : AllocatorId) :
    (D.toNfa.determinize target').run k = .ok ({ D with ids := target' }, l) := by
  have validD := Nfa.wellFormed_determinize ran
  cases begins : A.start with
  | none =>
      rw [Nfa.run_determinize_of_no_start begins] at ran
      cases ran
      have same : (A.blankDfa target).toNfa.blankDfa target' =
          { A.blankDfa target with ids := target' } := by
        rw [Nfa.blankDfa, alphabet_toNfa validD]
        rfl
      rw [Nfa.run_determinize_of_no_start rfl, same]
  | some start =>
      obtain ⟨moved, room, number, shape⟩ := Nfa.isSubsetAutomaton_of_determinize valid begins ran
      have same := ncard_subsets_toNfa validD shape.start_eq shape
      obtain ⟨E, l', _, again, moved', _⟩ := Nfa.determinize_of_room (k := k)
        (wellFormed_toNfa validD) shape.start_eq target' (by omega)
      have starts : Option.Rel (fun s s' => Stands A start number (A.epsilonClosure [s])
          (D.toNfa.epsilonClosure [s'])) A.start D.toNfa.start := by
        rw [begins, show D.toNfa.start = D.start from rfl, shape.start_eq]
        exact .some (.inr ⟨A.epsilonClosure_mem_subsets start, epsilonClosure_toNfa D _⟩)
      have shift := (mirrors_toNfa valid validD shape).shiftOf_determinize starts ran again
      have equal := shift.eq_of_same validD (Nfa.wellFormed_determinize again)
      have counter : l' = l := by
        have next : l'.next = l.next := by omega
        cases l
        cases l'
        exact congrArg Counter.mk next
      rw [again, counter, equal, Nfa.ids_determinize again]

end Again

end Dfa

end PostfixAutomata
