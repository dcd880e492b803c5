import Mathlib.Data.Set.Function
import PostfixAutomata.Proofs.Description.Loading
import PostfixAutomata.Proofs.Nfa.Lockstep

set_option autoImplicit false

/-!
Other names for the states of an automaton. If different states get different names, the automaton
stays the same but for these; and the subset construction cannot tell it from the one that it was,
whatever order the names put the states in.
-/

namespace PostfixAutomata

open TransitionRow

namespace Automaton

variable {ρ Λ : Type} [TransitionRow ρ Λ] {A : Automaton ρ} {f : State → State} {s : State}

/-- The transitions of an automaton between the new names of its states. -/
def renamedEdges (f : State → State) (A : Automaton ρ) : List (State × Λ × State) :=
  A.edgeList.map fun (p, l, q) => (f p, l, f q)

/-- The renamed automaton, before its start and its final states are marked. -/
def renamedRows (f : State → State) (A : Automaton ρ) : Automaton ρ :=
  (((empty A.ids).insertStates (A.states.toList.map f)).insertTransitions
    (A.renamedEdges f)).insertSymbols A.alphabet.toList

/-- The automaton with each state `s` replaced by `f s`. -/
def rename (f : State → State) (A : Automaton ρ) : Automaton ρ :=
  { A.renamedRows f with start := A.start.map f, finals := .ofList (A.finals.toList.map f) }

theorem mem_finals_rename : s ∈ (A.rename f).finals ↔ ∃ t ∈ A.finals, f t = s := by
  change s ∈ Std.ExtTreeSet.ofList (A.finals.toList.map f) _ ↔ _
  rw [Std.ExtTreeSet.mem_ofList, List.contains_iff_mem]
  simp only [List.mem_map, Std.ExtTreeSet.mem_toList]

/-- A row takes up the renamed transitions of its state. -/
theorem row_rename (f : State → State) (A : Automaton ρ) (p : State) :
    (A.rename f).row p = linkRow blank (leaving (A.renamedEdges f) p) := by
  have nothing : (empty A.ids : Automaton ρ).row p = blank := Std.ExtTreeMap.getD_empty
  have rows : (A.rename f).rows = (A.renamedRows f).rows := rfl
  rw [row_congr rows, renamedRows, row_insertSymbols, row_insertTransitions, row_insertStates,
    nothing]

theorem mem_leaving_renamed {p q : State} {l : Λ} :
    (l, q) ∈ leaving (A.renamedEdges f) p ↔
      ∃ s t, (s, l, t) ∈ A.edgeList ∧ f s = p ∧ f t = q := by
  rw [mem_leaving, renamedEdges]
  simp only [List.mem_map, Prod.exists, Prod.mk.injEq]
  constructor
  · rintro ⟨s, l, t, edge, rfl, rfl, rfl⟩
    exact ⟨s, t, edge, rfl, rfl⟩
  · rintro ⟨s, t, edge, rfl, rfl⟩
    exact ⟨s, l, t, edge, rfl, rfl, rfl⟩

variable [LawfulTransitionRow ρ]

theorem mem_states_rename (valid : A.WellFormed) :
    s ∈ (A.rename f).states ↔ ∃ t ∈ A.states, f t = s := by
  change s ∈ (A.renamedRows f).states ↔ _
  rw [renamedRows, states_insertSymbols, mem_states_insertTransitions, mem_states_insertStates]
  simp only [renamedEdges, List.mem_map, Std.ExtTreeSet.mem_toList]
  constructor
  · rintro (⟨_, ⟨edge, listed, rfl⟩, ends⟩ | renamed | member)
    · obtain ⟨source, target, _⟩ := valid.of_mem_edgeList listed
      rcases ends with rfl | rfl
      · exact ⟨_, source, rfl⟩
      · exact ⟨_, target, rfl⟩
    · exact renamed
    · exact absurd member Std.ExtTreeSet.not_mem_empty
  · exact fun renamed => .inr (.inl renamed)

theorem alphabet_rename (valid : A.WellFormed) : (A.rename f).alphabet = A.alphabet := by
  refine Std.ExtTreeSet.ext_mem fun c => ?_
  change c ∈ (A.renamedRows f).alphabet ↔ _
  rw [renamedRows, mem_alphabet_insertSymbols, mem_alphabet_insertTransitions,
    alphabet_insertStates, Std.ExtTreeSet.mem_toList]
  refine ⟨?_, .inl⟩
  rintro (member | ⟨_, listed, reads⟩ | member)
  · exact member
  · obtain ⟨edge, original, rfl⟩ := List.mem_map.mp listed
    exact (valid.of_mem_edgeList original).2.2 reads
  · exact absurd member Std.ExtTreeSet.not_mem_empty

theorem wellFormed_rename (valid : A.WellFormed) : (A.rename f).WellFormed := by
  have rows : (A.renamedRows f).WellFormed :=
    (((WellFormed.empty A.ids).insertStates _).insertTransitions _).insertSymbols _
  refine rows.marks ?_ ?_
  · intro s found
    obtain ⟨t, start, rfl⟩ := Option.map_eq_some_iff.mp found
    exact (mem_states_rename valid).mpr ⟨t, valid.start_mem start, rfl⟩
  · intro s final
    obtain ⟨t, member, rfl⟩ := mem_finals_rename.mp final
    exact (mem_states_rename valid).mpr ⟨t, valid.finals_subset member, rfl⟩

end Automaton

/-! Nondeterministic automata. -/

namespace Nfa

variable {A : Nfa} {f : State → State} {p q : State} {l : Label} {c : Char} {S S' : StateSet}

theorem mem_targets_rename :
    q ∈ targets (A.rename f) p l ↔ ∃ s t, t ∈ A.targets s l ∧ f s = p ∧ f t = q := by
  rw [targets_eq_destinations, Automaton.row_rename, Row.mem_destinations_linkRow,
    Automaton.mem_leaving_renamed]
  simp only [mem_edgeList]
  exact or_iff_left Std.ExtTreeSet.not_mem_empty

variable (valid : A.WellFormed) (injective : Set.InjOn f {s | s ∈ A.states})

include valid injective

/-- Under its new name a state goes where it went. -/
theorem mem_targets_rename_apply (member : p ∈ A.states) :
    q ∈ targets (A.rename f) (f p) l ↔ ∃ t ∈ A.targets p l, f t = q := by
  rw [mem_targets_rename]
  constructor
  · rintro ⟨s, t, edge, same, rfl⟩
    obtain rfl := injective (source_mem valid edge) member same
    exact ⟨t, edge, rfl⟩
  · rintro ⟨t, edge, rfl⟩
    exact ⟨p, t, edge, rfl, rfl⟩

theorem epsilonPath_rename_iff (member : p ∈ A.states) :
    EpsilonPath (A.rename f) (f p) q ↔ ∃ t, A.EpsilonPath p t ∧ f t = q := by
  constructor
  · intro path
    generalize origin : f p = p' at path
    induction path generalizing p with
    | refl => exact ⟨p, .refl p, origin⟩
    | cons edge _ ih =>
        rw [← origin] at edge
        obtain ⟨s, inner, same⟩ := (mem_targets_rename_apply valid injective member).mp edge
        obtain ⟨t, rest, ends⟩ := ih (target_mem valid inner) same
        exact ⟨t, .cons inner rest, ends⟩
  · rintro ⟨t, path, rfl⟩
    induction path with
    | refl => exact .refl _
    | cons edge _ ih =>
        refine .cons ?_ (ih (target_mem valid edge))
        exact (mem_targets_rename_apply valid injective member).mpr ⟨_, edge, rfl⟩

omit valid injective in
/-- Whether a subset of the renamed automaton is a subset of the automaton under new names. -/
def Renamed (f : State → State) (A : Nfa) (S S' : StateSet) : Prop :=
  (∀ s ∈ S, s ∈ A.states) ∧ ∀ {t : State}, t ∈ S' ↔ ∃ s ∈ S, f s = t

theorem renamed_epsilonClosure (member : p ∈ A.states) :
    Renamed f A (A.epsilonClosure [p]) (epsilonClosure (A.rename f) [f p]) := by
  refine ⟨fun s inside => ?_, fun {t} => ?_⟩
  · obtain ⟨_, seeded, path⟩ := mem_epsilonClosure_iff.mp inside
    cases List.mem_singleton.mp seeded
    exact path.toPath.mem_states valid member
  · rw [mem_epsilonClosure_iff]
    simp only [List.mem_singleton, exists_eq_left, mem_epsilonClosure_iff]
    exact epsilonPath_rename_iff valid injective member

theorem Renamed.successor (renamed : Renamed f A S S') (c : Char) :
    Renamed f A (A.successor S c) (Nfa.successor (A.rename f) S' c) := by
  refine ⟨fun s inside => ?_, fun {t} => ?_⟩
  · obtain ⟨p, _, q, edge, path⟩ := mem_successor_iff.mp inside
    exact path.toPath.mem_states valid (target_mem valid edge)
  · simp only [mem_successor_iff]
    constructor
    · rintro ⟨p', inside, q', edge, path⟩
      obtain ⟨p, member, rfl⟩ := renamed.2.mp inside
      obtain ⟨q, inner, rfl⟩ :=
        (mem_targets_rename_apply valid injective (renamed.1 p member)).mp edge
      obtain ⟨s, rest, rfl⟩ :=
        (epsilonPath_rename_iff valid injective (target_mem valid inner)).mp path
      exact ⟨s, ⟨p, member, q, inner, rest⟩, rfl⟩
    · rintro ⟨s, ⟨p, member, q, edge, path⟩, rfl⟩
      exact ⟨f p, renamed.2.mpr ⟨p, member, rfl⟩, f q,
        (mem_targets_rename_apply valid injective (renamed.1 p member)).mpr ⟨q, edge, rfl⟩,
        (epsilonPath_rename_iff valid injective (target_mem valid edge)).mpr ⟨s, path, rfl⟩⟩

/-- Subsets correspond to what they are under new names. -/
theorem mirrors_rename : A.Mirrors (A.rename f) (Renamed f A) where
  alphabet := (Automaton.alphabet_rename valid).symm
  eq_iff {S T S' T'} first second := by
    constructor
    · rintro rfl
      exact StateSet.ext_iff.mpr fun t => first.2.trans second.2.symm
    · rintro rfl
      have included : ∀ {S T : StateSet}, Renamed f A S S' → Renamed f A T S' → ∀ s ∈ S, s ∈ T := by
        intro S T first second s member
        obtain ⟨t, there, same⟩ := second.2.mp (first.2.mpr ⟨s, member, rfl⟩)
        obtain rfl := injective (second.1 t there) (first.1 s member) same
        exact there
      exact StateSet.ext_iff.mpr fun s =>
        ⟨included first second s, included second first s⟩
  empty_iff {S S'} renamed := by
    simp only [Std.ExtTreeSet.eq_empty_iff_forall_not_mem, renamed.2]
    grind
  successor c renamed := renamed.successor valid injective c
  final_iff {S S'} renamed := by
    constructor
    · rintro ⟨t, member, final⟩
      exact ⟨f t, renamed.2.mpr ⟨t, member, rfl⟩, Automaton.mem_finals_rename.mpr ⟨t, final, rfl⟩⟩
    · rintro ⟨t', member, final⟩
      obtain ⟨s, inside, rfl⟩ := renamed.2.mp member
      obtain ⟨t, accepting, same⟩ := Automaton.mem_finals_rename.mp final
      obtain rfl := injective (valid.finals_subset accepting) (renamed.1 s inside) same
      exact ⟨t, inside, accepting⟩

end Nfa

/-! Deterministic automata. -/

namespace Dfa

variable {D D' : Dfa} {f : State → State} {p q : State} {c : Char} {k k' : Nat}

theorem target?_rename (valid : D.WellFormed) (injective : Set.InjOn f {s | s ∈ D.states}) :
    target? (D.rename f) p c = some q ↔ ∃ s t, D.target? s c = some t ∧ f s = p ∧ f t = q := by
  have functional : ∀ {c q q'}, (c, q) ∈ Automaton.leaving (D.renamedEdges f) p →
      (c, q') ∈ Automaton.leaving (D.renamedEdges f) p → q = q' := by
    intro c q q' first second
    obtain ⟨s, t, edge, rfl, rfl⟩ := Automaton.mem_leaving_renamed.mp first
    obtain ⟨s', t', edge', same, rfl⟩ := Automaton.mem_leaving_renamed.mp second
    rw [mem_edgeList] at edge edge'
    obtain rfl := injective (source_mem valid edge') (source_mem valid edge) same
    rw [Option.some.inj (edge.symm.trans edge')]
  rw [target?_eq, Automaton.row_rename, Row.getElem?_linkRow_blank functional,
    Automaton.mem_leaving_renamed]
  simp only [mem_edgeList]

/-- An automaton that differs from another one by a shift of its states is that one under new
names. -/
theorem ShiftOf.eq_rename (shift : D.ShiftOf k k' D') (valid : D.WellFormed)
    (valid' : D'.WellFormed) (moves : ∀ s ∈ D.states, s.Shifted k k' (f s)) :
    D' = { D.rename f with ids := D'.ids } := by
  have injective : Set.InjOn f {s | s ∈ D.states} := fun s member t member' same =>
    ((moves s member).eq_iff (moves t member')).mpr same
  have determined : ∀ {s s'}, s ∈ D.states → s.Shifted k k' s' → f s = s' :=
    fun member shifted => ((moves _ member).eq_iff shifted).mp rfl
  have renamed := Automaton.wellFormed_rename (f := f) valid
  have again : Automaton.WellFormed { D.rename f with ids := D'.ids } :=
    ⟨renamed.start_mem, renamed.finals_subset, renamed.mem_rows, renamed.target_mem,
      renamed.symbol_mem, renamed.tidy⟩
  refine Automaton.ext_of_wellFormed valid' again rfl ?_ ?_ ?_ ?_ ?_
  · change D'.start = D.start.map f
    cases found : D.start with
    | none => exact eq_none_of_rel_none (found ▸ shift.start)
    | some s =>
        obtain ⟨s', found', shifted⟩ := exists_of_rel_some (found ▸ shift.start)
        rw [found', Option.map_some, determined (valid.start_mem found) shifted]
  · intro s'
    refine Iff.trans ?_ (Automaton.mem_states_rename valid).symm
    constructor
    · intro member'
      obtain ⟨s, member, shifted⟩ := shift.back member'
      exact ⟨s, member, determined member shifted⟩
    · rintro ⟨s, member, rfl⟩
      obtain ⟨s', member', shifted⟩ := shift.forth member
      rwa [determined member shifted]
  · intro s'
    refine Iff.trans ?_ Automaton.mem_finals_rename.symm
    constructor
    · intro final'
      obtain ⟨s, member, shifted⟩ := shift.back (valid'.finals_subset final')
      exact ⟨s, (shift.final_iff shifted).mpr final', determined member shifted⟩
    · rintro ⟨s, final, rfl⟩
      exact (shift.final_iff (moves s (valid.finals_subset final))).mp final
  · intro c
    change c ∈ D'.alphabet ↔ c ∈ (D.rename f).alphabet
    rw [Automaton.alphabet_rename valid, shift.alphabet]
  · intro p
    refine Std.ExtTreeMap.ext_getElem? fun c => Option.ext fun q => ?_
    change D'.target? p c = some q ↔ target? (D.rename f) p c = some q
    rw [target?_rename valid injective]
    constructor
    · intro edge'
      obtain ⟨s, member, shifted⟩ := shift.back (source_mem valid' edge')
      obtain ⟨t, edge, shifted'⟩ := exists_of_rel_some' (edge' ▸ shift.target shifted c)
      exact ⟨s, t, edge, determined member shifted, determined (target_mem valid edge) shifted'⟩
    · rintro ⟨s, t, edge, rfl, rfl⟩
      obtain ⟨t', edge', shifted⟩ :=
        exists_of_rel_some (edge ▸ shift.target (moves s (source_mem valid edge)) c)
      rw [edge', determined (target_mem valid edge) shifted]

theorem ShiftOf.refl (k : Nat) (D : Dfa) : D.ShiftOf k k D := by
  have eq_of_shifted : ∀ {p p' : State}, p.Shifted k k p' → p = p' :=
    fun shifted => State.ext (Nat.add_right_cancel shifted)
  have related : ∀ x : Option State, Option.Rel (State.Shifted k k) x x := by
    intro x
    cases x with
    | none => exact .none
    | some p => exact .some rfl
  refine ⟨related _, fun member => ⟨_, member, rfl⟩, fun member => ⟨_, member, rfl⟩, ?_, rfl, ?_⟩
  · intro p p' shifted
    rw [eq_of_shifted shifted]
  · intro p p' shifted c
    rw [eq_of_shifted shifted]
    exact related _

/-- Automata that differ by no shift are equal but for the counter. -/
theorem ShiftOf.eq_of_same (shift : D.ShiftOf k k D') (valid : D.WellFormed)
    (valid' : D'.WellFormed) : D' = { D with ids := D'.ids } := by
  have still : ∀ s ∈ D.states, s.Shifted k k (id s) := fun _ _ => rfl
  have other := shift.eq_rename valid valid' still
  have own := (ShiftOf.refl k D).eq_rename valid valid still
  calc
    D' = { D.rename id with ids := D'.ids } := other
    _ = { ({ D.rename id with ids := D.ids } : Dfa) with ids := D'.ids } := rfl
    _ = { D with ids := D'.ids } := by rw [← own]

/-- Automata that differ by no shift have the same report, which does not show the counter. -/
theorem ShiftOf.report_eq (shift : D.ShiftOf k k D') (valid : D.WellFormed)
    (valid' : D'.WellFormed) : D'.report = D.report := by
  calc
    D'.report = report { D with ids := D'.ids } := congrArg report (shift.eq_of_same valid valid')
    _ = D.report := rfl

end Dfa

end PostfixAutomata
