import PostfixAutomata.Machine
import PostfixAutomata.Proofs.Dfa.Complement
import PostfixAutomata.Proofs.Dfa.Conversion
import PostfixAutomata.Proofs.Nfa.Determinization

set_option autoImplicit false

/-!
Where the states of automata of either kind come from.
-/

namespace PostfixAutomata

namespace Machine

/-- A well-formed automaton whose states a counter will not issue again. -/
def Sound : Machine → Counter → Prop
  | nfa A, c => A.Sound c
  | dfa D, c => D.Sound c

/-- The automaton comes from states with the property `old` and from those that a counter issued
between `c` and `c'`. -/
structure Drawn (M : Machine) (ids : AllocatorId) (old : State → Prop) (c c' : Counter) :
    Prop where
  sound : M.Sound c'
  ids_eq : M.ids = ids
  grows : c.next ≤ c'.next
  origin : ∀ {s : State}, s ∈ M.states → old s ∨ c.next ≤ s.id

variable {M : Machine} {ids : AllocatorId} {old : State → Prop} {c c' : Counter}

theorem Drawn.ofNfa {A : Nfa} (drawn : A.Drawn ids old c c') : (nfa A).Drawn ids old c c' :=
  ⟨drawn.sound, drawn.ids_eq, drawn.grows, drawn.origin⟩

theorem Drawn.ofDfa {D : Dfa} (drawn : D.Drawn ids old c c') : (dfa D).Drawn ids old c c' :=
  ⟨drawn.sound, drawn.ids_eq, drawn.grows, drawn.origin⟩

theorem drawn_map_nfa {x : Alloc Nfa}
    (draws : ∀ {A : Nfa} {c' : Counter}, x.run c = .ok (A, c') → A.Drawn ids old c c')
    (ran : (nfa <$> x).run c = .ok (M, c')) : M.Drawn ids old c c' := by
  obtain ⟨A, computed, rfl⟩ := Alloc.run_map_eq_ok_iff.mp ran
  exact .ofNfa (draws computed)

theorem drawn_map_dfa {x : Alloc Dfa}
    (draws : ∀ {D : Dfa} {c' : Counter}, x.run c = .ok (D, c') → D.Drawn ids old c c')
    (ran : (dfa <$> x).run c = .ok (M, c')) : M.Drawn ids old c c' := by
  obtain ⟨D, computed, rfl⟩ := Alloc.run_map_eq_ok_iff.mp ran
  exact .ofDfa (draws computed)

theorem Drawn.mono {old' : State → Prop} (drawn : M.Drawn ids old c c')
    (weaker : ∀ {s : State}, old s → old' s) : M.Drawn ids old' c c' :=
  ⟨drawn.sound, drawn.ids_eq, drawn.grows, fun member => (drawn.origin member).imp_left weaker⟩

theorem Sound.mono (sound : M.Sound c) (grows : c.next ≤ c'.next) : M.Sound c' := by
  cases M with
  | nfa A => exact Automaton.Sound.mono sound grows
  | dfa D => exact Automaton.Sound.mono sound grows

theorem Sound.below (sound : M.Sound c) {s : State} (member : s ∈ M.states) : s.id < c.next := by
  cases M with
  | nfa A => exact Automaton.Sound.below sound member
  | dfa D => exact Automaton.Sound.below sound member

theorem ids_toNfa : M.toNfa.ids = M.ids := by
  cases M with
  | nfa A => rfl
  | dfa D => exact Dfa.ids_toNfa

theorem Sound.toNfa (sound : M.Sound c) : M.toNfa.Sound c := by
  cases M with
  | nfa A => exact sound
  | dfa D => exact Dfa.sound_toNfa sound

theorem mem_states_toNfa (sound : M.Sound c) {s : State} :
    s ∈ M.toNfa.states ↔ s ∈ M.states := by
  cases M with
  | nfa A => rfl
  | dfa D => exact Dfa.mem_states_toNfa sound.valid

theorem drawn_toDfa (sound : M.Sound c) {D : Dfa} (ran : M.toDfa.run c = .ok (D, c')) :
    D.Drawn M.ids (· ∈ M.states) c c' := by
  cases M with
  | nfa A => exact (Nfa.drawn_determinize ran).mono False.elim
  | dfa E =>
      obtain ⟨rfl, rfl⟩ := Alloc.run_pure_eq_ok_iff.mp ran
      exact Automaton.Sound.drawn sound

theorem drawn_complement (sound : M.Sound c) {E : Dfa} (ran : M.complement.run c = .ok (E, c')) :
    E.Drawn M.ids (· ∈ M.states) c c' := by
  obtain ⟨D, between, first, second⟩ := Alloc.run_bind_eq_ok_iff.mp ran
  have converted := drawn_toDfa sound first
  have complemented := Dfa.drawn_complement converted.sound second
  refine ⟨complemented.sound, complemented.ids_eq.trans converted.ids_eq,
    Nat.le_trans converted.grows complemented.grows, ?_⟩
  intro s member
  rcases complemented.origin member with member | issued
  · exact converted.origin member
  · exact .inr (Nat.le_trans converted.grows issued)

theorem drawn_star (sound : M.Sound c) {A : Nfa} (ran : M.toNfa.star.run c = .ok (A, c')) :
    A.Drawn M.ids (· ∈ M.states) c c' := by
  have drawn := (Nfa.drawn_star sound.toNfa ran).mono (mem_states_toNfa sound).mp
  rwa [ids_toNfa] at drawn

/-! Defects. -/

theorem onlyExhausts_toDfa (M : Machine) : M.toDfa.OnlyExhausts := by
  cases M with
  | nfa A => exact Nfa.onlyExhausts_determinize A A.ids
  | dfa D => exact Alloc.onlyExhausts_pure D

theorem onlyExhausts_complement (M : Machine) : M.complement.OnlyExhausts :=
  M.onlyExhausts_toDfa.bind Dfa.onlyExhausts_complement

theorem scratchDfa_eq_error {d : Defect} (failed : M.scratchDfa = .error d) :
    d = .identifiersExhausted := by
  cases M with
  | nfa A => exact (Nfa.onlyExhausts_determinize A A.ids.another).runPrivately failed
  | dfa D => cases failed

end Machine

end PostfixAutomata
