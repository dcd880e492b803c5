import PostfixAutomata.Allocation

set_option autoImplicit false

/-!
Runs of computations on a counter, one step at a time: what a run that succeeds went through, and
that the only way to fail at a counter is to find it exhausted.
-/

namespace PostfixAutomata

theorem bind_eq_ok_iff {ε α β : Type} {x : Except ε α} {next : α → Except ε β} {b : β} :
    (x >>= next) = .ok b ↔ ∃ a, x = .ok a ∧ next a = .ok b := by
  cases x with
  | error e => simp [bind, Except.bind]
  | ok a => simp [bind, Except.bind]

theorem bind_eq_error_iff {ε α β : Type} {x : Except ε α} {next : α → Except ε β} {e : ε} :
    (x >>= next) = .error e ↔ x = .error e ∨ ∃ a, x = .ok a ∧ next a = .error e := by
  cases x with
  | error e' => simp [bind, Except.bind]
  | ok a => simp [bind, Except.bind]

theorem map_eq_ok_iff {ε α β : Type} {x : Except ε α} {f : α → β} {b : β} :
    f <$> x = .ok b ↔ ∃ a, x = .ok a ∧ f a = b := by
  cases x with
  | error e => simp [Functor.map, Except.map]
  | ok a => simp [Functor.map, Except.map]

theorem map_eq_error_iff {ε α β : Type} {x : Except ε α} {f : α → β} {e : ε} :
    f <$> x = .error e ↔ x = .error e := by
  cases x with
  | error e' => simp [Functor.map, Except.map]
  | ok a => simp [Functor.map, Except.map]

theorem toOption_eq_some_iff {ε α : Type} {x : Except ε α} {a : α} :
    x.toOption = some a ↔ x = .ok a := by
  cases x with
  | error e => simp [Except.toOption]
  | ok b => simp [Except.toOption]

namespace Alloc

variable {α β : Type}

theorem run_pure_eq_ok_iff {a b : α} {c c' : Counter} :
    (pure a : Alloc α).run c = .ok (b, c') ↔ a = b ∧ c = c' := by
  rw [StateT.run_pure]
  change Except.ok (a, c) = Except.ok (b, c') ↔ _
  rw [Except.ok.injEq, Prod.mk.injEq]

theorem run_bind_eq_ok_iff {x : Alloc α} {next : α → Alloc β} {b : β} {c c' : Counter} :
    (x >>= next).run c = .ok (b, c') ↔
      ∃ a between, x.run c = .ok (a, between) ∧ (next a).run between = .ok (b, c') := by
  rw [StateT.run_bind, bind_eq_ok_iff, Prod.exists]

theorem run_map_eq_ok_iff {x : Alloc α} {f : α → β} {b : β} {c c' : Counter} :
    (f <$> x).run c = .ok (b, c') ↔ ∃ a, x.run c = .ok (a, c') ∧ f a = b := by
  rw [StateT.run_map, map_eq_ok_iff]
  simp only [Prod.exists, Prod.mk.injEq]
  constructor
  · rintro ⟨a, between, ran, same, rfl⟩
    exact ⟨a, ran, same⟩
  · rintro ⟨a, ran, same⟩
    exact ⟨a, c', ran, same, rfl⟩

/-- A fresh state is the next one of the counter, which then moves by one. -/
theorem run_fresh_eq_ok_iff {s : State} {c c' : Counter} :
    fresh.run c = .ok (s, c') ↔ s.id = c.next ∧ c'.next = c.next + 1 := by
  rw [← Counter.fresh?_eq_some_iff]
  change fresh c = _ ↔ _
  unfold fresh
  cases c.fresh? with
  | none => simp
  | some issued => rw [Except.ok.injEq, Option.some.injEq]

/-- Two fresh states are the next two of the counter. -/
theorem run_fresh_fresh_eq_ok {next : State → State → Alloc α} {a : α} {c c' : Counter}
    (ran : (do let s ← fresh; let t ← fresh; next s t).run c = .ok (a, c')) :
    ∃ s t between, s.id = c.next ∧ t.id = c.next + 1 ∧ between.next = c.next + 2 ∧
      (next s t).run between = .ok (a, c') := by
  obtain ⟨s, middle, first, ran⟩ := run_bind_eq_ok_iff.mp ran
  obtain ⟨t, between, second, ran⟩ := run_bind_eq_ok_iff.mp ran
  obtain ⟨firstId, firstNext⟩ := run_fresh_eq_ok_iff.mp first
  obtain ⟨secondId, secondNext⟩ := run_fresh_eq_ok_iff.mp second
  exact ⟨s, t, between, firstId, by omega, by omega, ran⟩

theorem run_fresh_of_room {c : Counter} (room : c.next < UInt32.size) :
    fresh.run c = .ok (c.issue room) := by
  change fresh c = _
  simp only [fresh, Counter.fresh?, room, ↓reduceDIte]

theorem run_fresh_of_spent {c : Counter} (spent : UInt32.size ≤ c.next) :
    fresh.run c = .error .identifiersExhausted := by
  change fresh c = _
  simp only [fresh, Counter.fresh?_eq_none_iff.mpr spent]

/-- Two fresh states can be drawn while there are two identifiers left. -/
theorem run_fresh_fresh_of_room (next : State → State → Alloc α) {c : Counter}
    (room : c.next + 2 ≤ UInt32.size) :
    ∃ s t, s.id = c.next ∧ t.id = c.next + 1 ∧
      (do let s ← fresh; let t ← fresh; next s t).run c = (next s t).run ⟨c.next + 2⟩ := by
  refine ⟨⟨c.next, by omega⟩, ⟨c.next + 1, by omega⟩, rfl, rfl, ?_⟩
  have first := run_fresh_of_room (show c.next < UInt32.size by omega)
  have second := run_fresh_of_room (c := ⟨c.next + 1⟩) (show c.next + 1 < UInt32.size by omega)
  rw [StateT.run_bind, first]
  change (fresh >>= next ⟨c.next, _⟩).run ⟨c.next + 1⟩ = _
  rw [StateT.run_bind, second]
  rfl

/-- With fewer than two identifiers left, one of two draws fails. -/
theorem run_fresh_fresh_of_spent (next : State → State → Alloc α) {c : Counter}
    (spent : UInt32.size < c.next + 2) :
    (do let s ← fresh; let t ← fresh; next s t).run c = .error .identifiersExhausted := by
  by_cases room : c.next < UInt32.size
  · have second := run_fresh_of_spent (c := ⟨c.next + 1⟩) (show UInt32.size ≤ c.next + 1 by omega)
    rw [StateT.run_bind, run_fresh_of_room room]
    change (fresh >>= next ⟨c.next, _⟩).run ⟨c.next + 1⟩ = _
    rw [StateT.run_bind, second]
    rfl
  · rw [StateT.run_bind, run_fresh_of_spent (by omega)]
    rfl

theorem run_observe_eq_ok_iff {s : State} {u : Unit} {c c' : Counter} :
    (observe s).run c = .ok (u, c') ↔ c' = c.observe s := by
  change Except.ok ((), c.observe s) = .ok (u, c') ↔ _
  simp [eq_comm]

theorem runPrivately_eq_ok_iff {x : Alloc α} {a : α} :
    x.runPrivately = .ok a ↔ ∃ c, x.run {} = .ok (a, c) := by
  change Prod.fst <$> x.run {} = .ok a ↔ _
  rw [map_eq_ok_iff]
  simp

/-- Whether a computation can fail in no other way than by an exhausted counter. -/
def OnlyExhausts (x : Alloc α) : Prop :=
  ∀ ⦃c : Counter⦄ ⦃d : Defect⦄, x.run c = .error d → d = .identifiersExhausted

theorem onlyExhausts_pure (a : α) : OnlyExhausts (pure a : Alloc α) := nofun

theorem OnlyExhausts.bind {x : Alloc α} {next : α → Alloc β} (first : OnlyExhausts x)
    (second : ∀ a, OnlyExhausts (next a)) : OnlyExhausts (x >>= next) := by
  intro c d failed
  rw [StateT.run_bind, bind_eq_error_iff] at failed
  rcases failed with failed | ⟨⟨a, between⟩, _, failed⟩
  · exact first failed
  · exact second a failed

theorem OnlyExhausts.map {x : Alloc α} (f : α → β) (total : OnlyExhausts x) :
    OnlyExhausts (f <$> x) := by
  intro c d failed
  rw [StateT.run_map, map_eq_error_iff] at failed
  exact total failed

theorem onlyExhausts_fresh : OnlyExhausts fresh := by
  intro c d failed
  change fresh c = _ at failed
  unfold fresh at failed
  cases issued : c.fresh? with
  | none =>
      rw [issued] at failed
      exact (Except.error.inj failed).symm
  | some issue =>
      rw [issued] at failed
      cases failed

theorem OnlyExhausts.runPrivately {x : Alloc α} (total : OnlyExhausts x) {d : Defect}
    (failed : x.runPrivately = .error d) : d = .identifiersExhausted :=
  total (map_eq_error_iff.mp (show Prod.fst <$> x.run {} = .error d from failed))

end Alloc

end PostfixAutomata
