import PostfixAutomata.Proofs.Allocation
import PostfixAutomata.Proofs.Automaton.WellFormed

set_option autoImplicit false

/-!
Where the states of an automaton come from. An operation takes states from its operands, is given
them by its caller, or draws them from a counter; the counter ends up above all of them.
-/

namespace PostfixAutomata

namespace Automaton

variable {ρ Λ : Type} [TransitionRow ρ Λ] [LawfulTransitionRow ρ]

/-- A well-formed automaton whose states a counter will not issue again. -/
structure Sound (A : Automaton ρ) (c : Counter) : Prop where
  valid : A.WellFormed
  below : ∀ {s : State}, s ∈ A.states → s.id < c.next

/-- The automaton `A` comes from states with the property `old` and from those that a counter issued
between `c` and `c'`. -/
structure Drawn (A : Automaton ρ) (ids : AllocatorId) (old : State → Prop) (c c' : Counter) :
    Prop where
  sound : A.Sound c'
  ids_eq : A.ids = ids
  grows : c.next ≤ c'.next
  origin : ∀ {s : State}, s ∈ A.states → old s ∨ c.next ≤ s.id

variable {A : Automaton ρ} {c c' : Counter} {s : State}

theorem Sound.mono (sound : A.Sound c) (grows : c.next ≤ c'.next) : A.Sound c' :=
  ⟨sound.valid, fun member => Nat.lt_of_lt_of_le (sound.below member) grows⟩

/-- A state that is still to be issued belongs to no automaton of the counter. -/
theorem Sound.fresh (sound : A.Sound c) (later : c.next ≤ s.id) : s ∉ A.states := by
  intro member
  have below := sound.below member
  omega

theorem Sound.observe (sound : A.Sound c) (t : State) : A.Sound (c.observe t) :=
  sound.mono (Nat.le_max_left _ _)

protected theorem Sound.empty (ids : AllocatorId) (c : Counter) :
    (Automaton.empty ids : Automaton ρ).Sound c :=
  ⟨.empty ids, fun member => absurd member Std.ExtTreeSet.not_mem_empty⟩

theorem Sound.insertState (sound : A.Sound c) (below : s.id < c.next) :
    (A.insertState s).Sound c := by
  refine ⟨sound.valid.insertState s, ?_⟩
  intro t member
  rcases mem_states_insertState.mp member with rfl | member
  · exact below
  · exact sound.below member

/-- An automaton of the counter drawn from itself. -/
theorem Sound.drawn (sound : A.Sound c) : A.Drawn A.ids (· ∈ A.states) c c :=
  ⟨sound, rfl, Nat.le_refl _, .inl⟩

protected theorem Drawn.empty (ids : AllocatorId) (old : State → Prop) (c : Counter) :
    (Automaton.empty ids : Automaton ρ).Drawn ids old c c :=
  ⟨.empty ids c, rfl, Nat.le_refl _, fun member => absurd member Std.ExtTreeSet.not_mem_empty⟩

theorem Drawn.mono {ids : AllocatorId} {old old' : State → Prop}
    (drawn : A.Drawn ids old c c') (weaker : ∀ {s : State}, old s → old' s) :
    A.Drawn ids old' c c' :=
  ⟨drawn.sound, drawn.ids_eq, drawn.grows, fun member => (drawn.origin member).imp_left weaker⟩

/-! Operations of the store. -/

omit [LawfulTransitionRow ρ] in
theorem newState_eq_ok {B : Automaton ρ} (ran : A.newState.run c = .ok ((s, B), c')) :
    s.id = c.next ∧ c'.next = c.next + 1 ∧ B = A.insertState s := by
  obtain ⟨t, between, issued, done⟩ := Alloc.run_bind_eq_ok_iff.mp ran
  obtain ⟨same, rfl⟩ := Alloc.run_pure_eq_ok_iff.mp done
  cases same
  obtain ⟨identifier, advanced⟩ := Alloc.run_fresh_eq_ok_iff.mp issued
  exact ⟨identifier, advanced, rfl⟩

theorem drawn_newState (sound : A.Sound c) {B : Automaton ρ}
    (ran : A.newState.run c = .ok ((s, B), c')) : B.Drawn A.ids (· ∈ A.states) c c' := by
  obtain ⟨identifier, advanced, rfl⟩ := newState_eq_ok ran
  refine ⟨(sound.mono (by omega)).insertState (by omega), rfl, by omega, ?_⟩
  intro t member
  rcases mem_states_insertState.mp member with rfl | member
  · exact .inr (Nat.le_of_eq identifier.symm)
  · exact .inl member

/-- An operation that is given a state observes it before the automaton contains it. -/
theorem drawn_observing (sound : A.Sound c) {B C : Automaton ρ} (valid : C.WellFormed)
    (ids : C.ids = A.ids) (states : ∀ {t : State}, t ∈ C.states → s = t ∨ t ∈ A.states)
    (ran : (do Alloc.observe s; return C : Alloc (Automaton ρ)).run c = .ok (B, c')) :
    B.Drawn A.ids (fun t => s = t ∨ t ∈ A.states) c c' := by
  obtain ⟨_, between, observed, done⟩ := Alloc.run_bind_eq_ok_iff.mp ran
  obtain ⟨rfl, rfl⟩ := Alloc.run_pure_eq_ok_iff.mp done
  obtain rfl := Alloc.run_observe_eq_ok_iff.mp observed
  refine ⟨⟨valid, ?_⟩, ids, Nat.le_max_left _ _, fun member => .inl (states member)⟩
  intro t member
  rcases states member with rfl | member
  · exact Nat.lt_of_lt_of_le (Nat.lt_succ_self _) (Nat.le_max_right _ _)
  · exact (sound.observe s).below member

theorem drawn_addState (sound : A.Sound c) {B : Automaton ρ}
    (ran : (A.addState s).run c = .ok (B, c')) :
    B.Drawn A.ids (fun t => s = t ∨ t ∈ A.states) c c' :=
  drawn_observing sound (sound.valid.insertState s) rfl mem_states_insertState.mp ran

theorem drawn_markStart (sound : A.Sound c) {B : Automaton ρ}
    (ran : (A.markStart s).run c = .ok (B, c')) :
    B.Drawn A.ids (fun t => s = t ∨ t ∈ A.states) c c' :=
  drawn_observing sound (sound.valid.setStart s) rfl mem_states_insertState.mp ran

theorem drawn_markFinal (sound : A.Sound c) {accept : Bool} {B : Automaton ρ}
    (ran : (A.markFinal s accept).run c = .ok (B, c')) :
    B.Drawn A.ids (fun t => s = t ∨ t ∈ A.states) c c' :=
  drawn_observing sound (sound.valid.setFinal s accept) rfl mem_states_insertState.mp ran

theorem drawn_addTransition (sound : A.Sound c) {p q : State} {l : Λ} {B : Automaton ρ}
    (ran : (A.addTransition p l q).run c = .ok (B, c')) :
    B.Drawn A.ids (fun t => q = t ∨ p = t ∨ t ∈ A.states) c c' := by
  obtain ⟨_, first, observed, ran⟩ := Alloc.run_bind_eq_ok_iff.mp ran
  obtain ⟨_, second, observed', done⟩ := Alloc.run_bind_eq_ok_iff.mp ran
  obtain ⟨rfl, rfl⟩ := Alloc.run_pure_eq_ok_iff.mp done
  obtain rfl := Alloc.run_observe_eq_ok_iff.mp observed
  obtain rfl := Alloc.run_observe_eq_ok_iff.mp observed'
  refine ⟨⟨sound.valid.insertTransition p l q, ?_⟩, rfl, ?_,
    fun member => .inl (mem_states_insertTransition.mp member)⟩
  · intro t member
    simp only [Counter.next_observe]
    rcases mem_states_insertTransition.mp member with rfl | rfl | member
    · omega
    · omega
    · have below := sound.below member
      omega
  · simp only [Counter.next_observe]
    omega

/-- A symbol adds no states. -/
theorem drawn_insertSymbol (sound : A.Sound c) {d : Char} {B : Automaton ρ}
    (ran : (pure (A.insertSymbol d) : Alloc (Automaton ρ)).run c = .ok (B, c')) :
    B.Drawn A.ids (· ∈ A.states) c c' := by
  obtain ⟨rfl, rfl⟩ := Alloc.run_pure_eq_ok_iff.mp ran
  exact ⟨⟨sound.valid.insertSymbol d, sound.below⟩, rfl, Nat.le_refl _, .inl⟩

/-- A description leads to an automaton below the counter that lies just above its states. -/
theorem sound_ofDescription {ε : Type} (expand : ε → List (Λ × State)) (ids : AllocatorId)
    (d : Description ε) :
    (Automaton.ofDescription expand ids d : Automaton ρ).Sound
      (Counter.above (Automaton.ofDescription expand ids d : Automaton ρ).states.toList) := by
  refine ⟨.ofDescription expand ids d, ?_⟩
  intro s member
  exact (Counter.next_above_le_iff _ _).mp (Nat.le_refl _) s (Std.ExtTreeSet.mem_toList.mpr member)

end Automaton

end PostfixAutomata
