import PostfixAutomata.Proofs.Nfa.Language

set_option autoImplicit false

/-!
What the operators leave of their operands, transition by transition. An operand stays as it is but
for ε-transitions from its final states along one link; the new states have the transitions that
enter the operands and lead around them, and no others.
-/

namespace PostfixAutomata

namespace Nfa

variable {A B C : Nfa} {start stop : State}

/-- The automaton `C` contains `A`. What leaves a state of `A` on a symbol is what left it, and so is
what leaves it on ε, but that a final state of `A` goes on along a link, if there is one. The link
leads out of `A`, so it is none of the transitions that were there. -/
structure Keeps (C A : Nfa) (link : Option State) : Prop where
  states : ∀ s ∈ A.states, s ∈ C.states
  symbol : ∀ p ∈ A.states, ∀ c, C.targets p (.symbol c) = A.targets p (.symbol c)
  epsilon_final : ∀ p ∈ A.states, p ∈ A.finals → ∀ q,
    q ∈ C.targets p .epsilon ↔ q ∈ A.targets p .epsilon ∨ link = some q
  epsilon_other : ∀ p ∈ A.states, p ∉ A.finals → C.targets p .epsilon = A.targets p .epsilon
  leads_out : ∀ s, link = some s → s ∉ A.states

/-- A concatenation is made of its operands and a link from the first to the second. -/
structure Chains (C A B : Nfa) : Prop where
  states : ∀ s, s ∈ C.states ↔ s ∈ A.states ∨ s ∈ B.states
  first : C.Keeps A B.start
  second : C.Keeps B none
  start_eq : C.start = A.start
  finals_eq : C.finals = B.finals

/-- A union is made of its operands and two further states. The one enters both operands, the other
is where both lead to. -/
structure Joins (C A B : Nfa) (start stop : State) : Prop where
  different : start ≠ stop
  fresh : ∀ s, s = start ∨ s = stop → s ∉ A.states ∧ s ∉ B.states
  states : ∀ s, s ∈ C.states ↔ (s ∈ A.states ∨ s ∈ B.states) ∨ s = start ∨ s = stop
  first : C.Keeps A (some stop)
  second : C.Keeps B (some stop)
  entry : ∀ l q, q ∈ C.targets start l ↔ l = .epsilon ∧ (A.start = some q ∨ B.start = some q)
  exit : ∀ l, C.targets stop l = ∅
  start_eq : C.start = some start
  finals_eq : C.finals = {stop}

/-- A star is made of its operand and two further states. The one enters the operand, the other is
where it leads to, and there is a way from either to the other. -/
structure Repeats (C A : Nfa) (start stop : State) : Prop where
  different : start ≠ stop
  fresh : ∀ s, s = start ∨ s = stop → s ∉ A.states
  states : ∀ s, s ∈ C.states ↔ s ∈ A.states ∨ s = start ∨ s = stop
  operand : C.Keeps A (some stop)
  entry : ∀ l q, q ∈ C.targets start l ↔ l = .epsilon ∧ (q = stop ∨ A.start = some q)
  exit : ∀ l q, q ∈ C.targets stop l ↔ l = .epsilon ∧ q = start
  start_eq : C.start = some start
  finals_eq : C.finals = {stop}

/-- An automaton that extends an operand by way of a link keeps the operand. -/
theorem Extends.keeps {exits : State → Prop} {link : Option State} (extend : C.Extends A exits)
    (along : ∀ q, exits q ↔ link = some q) (states : ∀ s ∈ A.states, s ∈ C.states)
    (leadsOut : ∀ s, link = some s → s ∉ A.states) : C.Keeps A link := by
  refine ⟨states, fun p member c => ?_, fun p member final q => ?_, fun p member other => ?_,
    leadsOut⟩
  · apply Std.ExtTreeSet.ext_mem
    intro q
    rw [extend member]
    exact or_iff_right nofun
  · rw [extend member, along, or_comm]
    simp only [final, true_and]
  · apply Std.ExtTreeSet.ext_mem
    intro q
    rw [extend member]
    exact or_iff_right fun exit => other exit.1

theorem chains_append (validA : A.WellFormed) (validB : B.WellFormed)
    (apart : ∀ s ∈ A.states, s ∉ B.states) : (A.append B).Chains A B where
  states _ := mem_states_append validA validB
  first := by
    refine (extends_append_first apart validB).keeps (fun _ => Iff.rfl) ?_ ?_
    · exact fun s member => (mem_states_append validA validB).mpr (.inl member)
    · exact fun s entered member => apart s member (validB.start_mem entered)
  second := by
    refine (extends_append_second apart validA).keeps (fun _ => ⟨nofun, nofun⟩) ?_ nofun
    exact fun s member => (mem_states_append validA validB).mpr (.inr member)
  start_eq := start_append A B
  finals_eq := rfl

theorem joins_unionWith (validA : A.WellFormed) (validB : B.WellFormed)
    (apart : ∀ s ∈ A.states, s ∉ B.states) (different : start ≠ stop)
    (fresh : ∀ s, s = start ∨ s = stop → s ∉ A.states ∧ s ∉ B.states) :
    (A.unionWith B start stop).Joins A B start stop where
  different := different
  fresh := fresh
  states s := by
    rw [mem_states_unionWith validA validB]
    grind
  first := by
    have extend := extends_unionWith_first apart validB stop (fresh start (.inl rfl)).1
    refine extend.keeps (fun q => ?_) ?_ ?_
    · rw [Option.some.injEq, eq_comm]
    · exact fun s member => (mem_states_unionWith validA validB).mpr (.inr (.inr (.inl member)))
    · rintro s ⟨⟩
      exact (fresh stop (.inr rfl)).1
  second := by
    have extend := extends_unionWith_second apart validA stop (fresh start (.inl rfl)).2
    refine extend.keeps (fun q => ?_) ?_ ?_
    · rw [Option.some.injEq, eq_comm]
    · exact fun s member => (mem_states_unionWith validA validB).mpr (.inr (.inr (.inr member)))
    · rintro s ⟨⟩
      exact (fresh stop (.inr rfl)).2
  entry l q := by
    obtain ⟨notA, notB⟩ := fresh start (.inl rfl)
    rw [mem_targets_unionWith_outside validA validB notA notB]
    exact and_iff_right rfl
  exit l := by
    obtain ⟨notA, notB⟩ := fresh stop (.inr rfl)
    apply Std.ExtTreeSet.eq_empty_iff_forall_not_mem.mpr
    intro q edge
    have entered := (mem_targets_unionWith_outside validA validB notA notB).mp edge
    exact different entered.1.symm
  start_eq := rfl
  finals_eq := rfl

theorem repeats_starWith (valid : A.WellFormed) (different : start ≠ stop)
    (fresh : ∀ s, s = start ∨ s = stop → s ∉ A.states) :
    (A.starWith start stop).Repeats A start stop := by
  have freshStart := fresh start (.inl rfl)
  have freshStop := fresh stop (.inr rfl)
  have outside : ∀ {p q : State} {l : Label}, p ∉ A.states →
      (q ∈ (A.starWith start stop).targets p l ↔ (p = stop ∧ l = .epsilon ∧ q = start) ∨
        (p = start ∧ l = .epsilon ∧ (q = stop ∨ A.start = some q))) := by
    intro p q l new
    have notFinal : p ∉ A.finals := fun final => new (valid.finals_subset final)
    have noEdge : q ∉ A.targets p l := fun edge => new (source_mem valid edge)
    rw [mem_targets_starWith]
    simp only [notFinal, noEdge, false_and, false_or, or_false]
  refine ⟨different, fresh, fun s => ?_, ?_, fun l q => ?_, fun l q => ?_, rfl, rfl⟩
  · rw [mem_states_starWith valid]
    grind
  · refine (extends_starWith freshStart freshStop).keeps (fun q => ?_) ?_ ?_
    · rw [Option.some.injEq, eq_comm]
    · exact fun s member => (mem_states_starWith valid).mpr (.inr (.inr member))
    · rintro s ⟨⟩
      exact freshStop
  · rw [outside freshStart]
    simp only [different, false_and, false_or, true_and]
  · rw [outside freshStop]
    simp only [different.symm, false_and, or_false, true_and]

/-! Runs of the operators, which draw the states that they add. -/

section Runs

variable {c c' : Counter}

theorem joins_union (soundA : A.Sound c) (soundB : B.Sound c)
    (apart : ∀ s ∈ A.states, s ∉ B.states) (ran : (A.union B).run c = .ok (C, c')) :
    ∃ start stop, start.id = c.next ∧ stop.id = c.next + 1 ∧ C.Joins A B start stop := by
  obtain ⟨_, start, stop, first, second, _, rfl⟩ := union_eq_ok ran
  refine ⟨start, stop, first, second, joins_unionWith soundA.valid soundB.valid apart ?_ ?_⟩
  · rintro rfl
    omega
  · rintro s (rfl | rfl)
    · exact ⟨soundA.fresh (by omega), soundB.fresh (by omega)⟩
    · exact ⟨soundA.fresh (by omega), soundB.fresh (by omega)⟩

theorem repeats_star (sound : A.Sound c) (ran : A.star.run c = .ok (C, c')) :
    ∃ start stop, start.id = c.next ∧ stop.id = c.next + 1 ∧ C.Repeats A start stop := by
  obtain ⟨start, stop, first, second, _, rfl⟩ := star_eq_ok ran
  refine ⟨start, stop, first, second, repeats_starWith sound.valid ?_ ?_⟩
  · rintro rfl
    omega
  · rintro s (rfl | rfl)
    · exact sound.fresh (by omega)
    · exact sound.fresh (by omega)

end Runs

end Nfa

end PostfixAutomata
