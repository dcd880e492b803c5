import Mathlib.Data.Option.Basic
import PostfixAutomata.Proofs.Nfa.Determinization

set_option autoImplicit false

/-!
Two subset constructions in step. The exploration looks at a subset only to find what follows it, to
see whether that is empty and to tell it from the subsets met before. So explorations of two
automata whose subsets correspond in these respects meet corresponding subsets in the same order,
and draw states for them that are equally far from where their counters began.
-/

namespace PostfixAutomata

section Related

variable {α β : Type} {r : α → β → Prop}

theorem exists_of_rel_some {a : α} {y : Option β} (related : Option.Rel r (some a) y) :
    ∃ b, y = some b ∧ r a b := by
  cases related with
  | some related => exact ⟨_, rfl, related⟩

theorem exists_of_rel_some' {x : Option α} {b : β} (related : Option.Rel r x (some b)) :
    ∃ a, x = some a ∧ r a b := by
  cases related with
  | some related => exact ⟨_, rfl, related⟩

theorem eq_none_of_rel_none {y : Option β} (related : Option.Rel r none y) : y = none := by
  cases related
  rfl

end Related

/-- Whether a state is as far from one number as another state is from another number. -/
def State.Shifted (k k' : Nat) (p p' : State) : Prop := p.id + k' = p'.id + k

theorem State.Shifted.eq_iff {k k' : Nat} {p p' q q' : State} (first : p.Shifted k k' p')
    (second : q.Shifted k k' q') : p = q ↔ p' = q' := by
  unfold Shifted at first second
  rw [State.ext_iff, State.ext_iff]
  omega

/-- Moves a state by the distance of two numbers, if that leads to a state. -/
def State.shift (k k' : Nat) (s : State) : State := (ofNat? (s.id + k' - k)).getD s

theorem State.Shifted.shift_eq {k k' : Nat} {p p' : State} (shifted : p.Shifted k k' p') :
    p.shift k k' = p' := by
  have found : ofNat? (p.id + k' - k) = some p' := by
    rw [ofNat?_eq_some_iff]
    unfold Shifted at shifted
    omega
  rw [shift, found, Option.getD_some]

/-- A correspondence between subsets that holds for whatever the subset construction asks. -/
structure Nfa.Mirrors (A A' : Nfa) (R : StateSet → StateSet → Prop) : Prop where
  alphabet : A.alphabet = A'.alphabet
  eq_iff : ∀ {S T S' T' : StateSet}, R S S' → R T T' → (S = T ↔ S' = T')
  empty_iff : ∀ {S S' : StateSet}, R S S' → (S = ∅ ↔ S' = ∅)
  successor : ∀ {S S' : StateSet} (c : Char), R S S' → R (A.successor S c) (A'.successor S' c)
  final_iff : ∀ {S S' : StateSet}, R S S' →
    ((∃ t ∈ S, t ∈ A.finals) ↔ ∃ t ∈ S', t ∈ A'.finals)

variable {A A' : Nfa} {R : StateSet → StateSet → Prop} {k k' : Nat}

namespace Exploration

/-- Two explorations that have met corresponding subsets, with the same differences between the
states that stand for them. -/
structure InStep (R : StateSet → StateSet → Prop) (k k' : Nat) (e e' : Exploration) : Prop where
  forth : ∀ {S : StateSet} {p : State}, e.numbers[S]? = some p → ∃ S', R S S'
  back : ∀ {S' : StateSet} {p' : State}, e'.numbers[S']? = some p' → ∃ S, R S S'
  numbers : ∀ {S S' : StateSet}, R S S' →
    Option.Rel (State.Shifted k k') e.numbers[S]? e'.numbers[S']?
  pending : List.Forall₂ (fun x x' => R x.1 x'.1 ∧ x.2.Shifted k k' x'.2) e.pending e'.pending
  start : Option.Rel (State.Shifted k k') e.dfa.start e'.dfa.start
  target : ∀ {p p' : State}, p.Shifted k k' p' → ∀ c,
    Option.Rel (State.Shifted k k') (e.dfa.target? p c) (e'.dfa.target? p' c)
  counter : e.counter.next + k' = e'.counter.next + k

variable {e e' : Exploration} {S S' : StateSet} {p p' q q' : State} {c : Char}

/-- Subsets that correspond are met for the first time in both explorations. -/
theorem InStep.meet (mirrors : A.Mirrors A' R) (inStep : e.InStep R k k' e') (related : R S S')
    (shifted : q.Shifted k k' q') :
    InStep R k k'
      { numbers := e.numbers.insert S q
        pending := (S, q) :: e.pending
        dfa := e.dfa.insertState q
        counter := ⟨e.counter.next + 1⟩ }
      { numbers := e'.numbers.insert S' q'
        pending := (S', q') :: e'.pending
        dfa := e'.dfa.insertState q'
        counter := ⟨e'.counter.next + 1⟩ } := by
  refine ⟨?_, ?_, ?_, .cons ⟨related, shifted⟩ inStep.pending, inStep.start, ?_, ?_⟩
  · intro T p met
    simp only [Std.ExtTreeMap.getElem?_insert, Std.LawfulEqCmp.compare_eq_iff_eq] at met
    split at met
    · rename_i same
      exact ⟨S', same ▸ related⟩
    · exact inStep.forth met
  · intro T' p' met
    simp only [Std.ExtTreeMap.getElem?_insert, Std.LawfulEqCmp.compare_eq_iff_eq] at met
    split at met
    · rename_i same
      exact ⟨S, same ▸ related⟩
    · exact inStep.back met
  · intro T T' related'
    simp only [Std.ExtTreeMap.getElem?_insert, Std.LawfulEqCmp.compare_eq_iff_eq]
    have same := mirrors.eq_iff related related'
    by_cases here : S = T
    · rw [if_pos here, if_pos (same.mp here)]
      exact .some shifted
    · rw [if_neg here, if_neg (mt same.mpr here)]
      exact inStep.numbers related'
  · intro p p' shifted' c
    rw [Dfa.target?_insertState, Dfa.target?_insertState]
    exact inStep.target shifted' c
  · have counter := inStep.counter
    simp only
    omega

theorem InStep.visit (mirrors : A.Mirrors A' R) (inStep : e.InStep R k k' e') (related : R S S')
    {e₁ : e.Like} {e₁' : e'.Like} (ran : e.visit S = .ok (q, e₁))
    (ran' : e'.visit S' = .ok (q', e₁')) :
    q.Shifted k k' q' ∧ e₁.val.InStep R k k' e₁'.val := by
  have same := inStep.numbers related
  rcases visit_eq_ok ran with ⟨known, unchanged⟩ | ⟨unknown, identifier, grown⟩
  · obtain ⟨p', met', shifted⟩ := exists_of_rel_some (known ▸ same)
    rcases visit_eq_ok ran' with ⟨known', unchanged'⟩ | ⟨unknown', _, _⟩
    · obtain rfl := Option.some.inj (met'.symm.trans known')
      rw [unchanged, unchanged']
      exact ⟨shifted, inStep⟩
    · rw [unknown'] at met'
      cases met'
  · have unmet' := eq_none_of_rel_none (unknown ▸ same)
    rcases visit_eq_ok ran' with ⟨known', _⟩ | ⟨unknown', identifier', grown'⟩
    · rw [unmet'] at known'
      cases known'
    · have shifted : q.Shifted k k' q' := by
        have counter := inStep.counter
        unfold State.Shifted
        omega
      rw [grown, grown']
      exact ⟨shifted, inStep.meet mirrors related shifted⟩

theorem InStep.insertTransition (inStep : e.InStep R k k' e') (source : p.Shifted k k' p')
    (target : q.Shifted k k' q') :
    InStep R k k' { e with dfa := e.dfa.insertTransition p c q }
      { e' with dfa := e'.dfa.insertTransition p' c q' } := by
  refine ⟨inStep.forth, inStep.back, inStep.numbers, inStep.pending, inStep.start, ?_,
    inStep.counter⟩
  intro r r' shifted d
  rw [Dfa.target?_insertTransition, Dfa.target?_insertTransition]
  have same : (p = r ∧ c = d) ↔ (p' = r' ∧ c = d) := and_congr_left' (source.eq_iff shifted)
  by_cases here : p = r ∧ c = d
  · rw [if_pos here, if_pos (same.mp here)]
    exact .some target
  · rw [if_neg here, if_neg (mt same.mpr here)]
    exact inStep.target shifted d

theorem InStep.setStart (inStep : e.InStep R k k' e') (shifted : p.Shifted k k' p') :
    InStep R k k' { e with dfa := e.dfa.setStart p } { e' with dfa := e'.dfa.setStart p' } := by
  refine ⟨inStep.forth, inStep.back, inStep.numbers, inStep.pending, .some shifted, ?_,
    inStep.counter⟩
  intro r r' shifted d
  change Option.Rel _ (Dfa.target? (e.dfa.insertState p) r d)
    (Dfa.target? (e'.dfa.insertState p') r' d)
  rw [Dfa.target?_insertState, Dfa.target?_insertState]
  exact inStep.target shifted d

theorem InStep.exploreSymbol (mirrors : A.Mirrors A' R) (inStep : e.InStep R k k' e')
    (related : R S S') (source : p.Shifted k k' p') {e₁ : e.Like} {e₁' : e'.Like}
    (ran : A.exploreSymbol S p c e = .ok e₁) (ran' : A'.exploreSymbol S' p' c e' = .ok e₁') :
    e₁.val.InStep R k k' e₁'.val := by
  have follows := mirrors.successor c related
  have empty := mirrors.empty_iff follows
  rcases Nfa.exploreSymbol_eq_ok ran with ⟨nowhere, same⟩ | ⟨nonempty, q, e₂, visited, same⟩
  · rcases Nfa.exploreSymbol_eq_ok ran' with ⟨_, same'⟩ | ⟨nonempty', _⟩
    · rw [same, same']
      exact inStep
    · exact absurd (empty.mp nowhere) nonempty'
  · rcases Nfa.exploreSymbol_eq_ok ran' with ⟨nowhere', _⟩ | ⟨_, q', e₂', visited', same'⟩
    · exact absurd (empty.mpr nowhere') nonempty
    · obtain ⟨target, inStep₂⟩ := inStep.visit mirrors follows visited visited'
      rw [same, same']
      exact inStep₂.insertTransition source target

theorem InStep.exploreRow (mirrors : A.Mirrors A' R) {symbols : List Char}
    (inStep : e.InStep R k k' e') (related : R S S') (source : p.Shifted k k' p') {e₁ : e.Like}
    {e₁' : e'.Like} (ran : A.exploreRow S p symbols e = .ok e₁)
    (ran' : A'.exploreRow S' p' symbols e' = .ok e₁') : e₁.val.InStep R k k' e₁'.val := by
  induction symbols generalizing e e' with
  | nil =>
      cases ran
      cases ran'
      exact inStep
  | cons c symbols ih =>
      obtain ⟨e₂, first, ran⟩ := bind_eq_ok_iff.mp ran
      obtain ⟨e₃, later, done⟩ := bind_eq_ok_iff.mp ran
      cases done
      obtain ⟨e₂', first', ran'⟩ := bind_eq_ok_iff.mp ran'
      obtain ⟨e₃', later', done'⟩ := bind_eq_ok_iff.mp ran'
      cases done'
      exact ih (inStep.exploreSymbol mirrors related source first first') later later'

/-- Explorations that begin in step end in step: corresponding subsets wait in the same order. -/
theorem InStep.explore (mirrors : A.Mirrors A' R) (inStep : e.InStep R k k' e')
    {e₁ e₁' : Exploration} (ran : A.explore e = .ok e₁) (ran' : A'.explore e' = .ok e₁') :
    e₁.InStep R k k' e₁' := by
  induction e using Nfa.explore.induct generalizing e' with
  | case1 numbers dfa counter =>
      obtain ⟨numbers', pending', dfa', counter'⟩ := e'
      cases inStep.pending
      rw [Nfa.explore] at ran ran'
      cases ran
      cases ran'
      exact inStep
  | case2 numbers S p rest dfa counter ih =>
      obtain ⟨numbers', pending', dfa', counter'⟩ := e'
      obtain ⟨S', p', rest', rfl, ⟨related, shifted⟩, waiting⟩ : ∃ S' p' rest',
          pending' = (S', p') :: rest' ∧ (R S S' ∧ p.Shifted k k' p') ∧
            List.Forall₂ (fun x x' => R x.1 x'.1 ∧ x.2.Shifted k k' x'.2) rest rest' := by
        cases inStep.pending with
        | cons first waiting => exact ⟨_, _, _, rfl, first, waiting⟩
      rw [Nfa.explore] at ran ran'
      obtain ⟨e₂, first, ran⟩ := bind_eq_ok_iff.mp ran
      obtain ⟨e₂', first', ran'⟩ := bind_eq_ok_iff.mp ran'
      have popped : InStep R k k' ⟨numbers, rest, dfa, counter⟩ ⟨numbers', rest', dfa', counter'⟩ :=
        ⟨inStep.forth, inStep.back, inStep.numbers, waiting, inStep.start, inStep.target,
          inStep.counter⟩
      rw [← mirrors.alphabet] at first'
      exact ih e₂ (popped.exploreRow mirrors related shifted first first') ran ran'

/-- Before anything is met, explorations are in step. -/
theorem inStep_blank (R : StateSet → StateSet → Prop) (A A' : Nfa) (target target' : AllocatorId)
    (k k' : Counter) :
    InStep R k.next k'.next ⟨∅, [], A.blankDfa target, k⟩ ⟨∅, [], A'.blankDfa target', k'⟩ := by
  have unmet : ∀ S : StateSet, (∅ : Std.ExtTreeMap StateSet State)[S]? = none :=
    fun _ => Std.ExtTreeMap.getElem?_empty
  have unlinked : ∀ (A : Nfa) (target : AllocatorId) (p : State) (c : Char),
      (A.blankDfa target).target? p c = none := by
    intro A target p c
    refine Option.eq_none_iff_forall_ne_some.mpr fun q edge => ?_
    exact Std.ExtTreeSet.not_mem_empty (Dfa.source_mem (A.wellFormed_blankDfa target) edge)
  refine ⟨?_, ?_, ?_, .nil, .none, ?_, Nat.add_comm ..⟩
  · intro S p met
    rw [unmet] at met
    cases met
  · intro S p met
    rw [unmet] at met
    cases met
  · intro S S' _
    rw [unmet, unmet]
    exact .none
  · intro p p' _ c
    rw [unlinked, unlinked]
    exact .none

end Exploration

/-- Two deterministic automata that differ by a constant shift of their states. -/
structure Dfa.ShiftOf (k k' : Nat) (D D' : Dfa) : Prop where
  start : Option.Rel (State.Shifted k k') D.start D'.start
  forth : ∀ {p : State}, p ∈ D.states → ∃ p' ∈ D'.states, p.Shifted k k' p'
  back : ∀ {p' : State}, p' ∈ D'.states → ∃ p ∈ D.states, p.Shifted k k' p'
  final_iff : ∀ {p p' : State}, p.Shifted k k' p' → (p ∈ D.finals ↔ p' ∈ D'.finals)
  alphabet : D.alphabet = D'.alphabet
  target : ∀ {p p' : State}, p.Shifted k k' p' → ∀ c,
    Option.Rel (State.Shifted k k') (D.target? p c) (D'.target? p' c)

namespace Exploration.InStep

variable {e e' : Exploration} {S S' : StateSet} {p p' : State}

/-- A subset that one exploration has met corresponds to one that the other has met. -/
theorem exists_numbers (inStep : e.InStep R k k' e') (met : e.numbers[S]? = some p) :
    ∃ S' p', R S S' ∧ e'.numbers[S']? = some p' ∧ p.Shifted k k' p' := by
  obtain ⟨S', related⟩ := inStep.forth met
  obtain ⟨p', met', shifted⟩ := exists_of_rel_some (met ▸ inStep.numbers related)
  exact ⟨S', p', related, met', shifted⟩

theorem exists_numbers' (inStep : e.InStep R k k' e') (met' : e'.numbers[S']? = some p') :
    ∃ S p, R S S' ∧ e.numbers[S]? = some p ∧ p.Shifted k k' p' := by
  obtain ⟨S, related⟩ := inStep.back met'
  obtain ⟨p, met, shifted⟩ := exists_of_rel_some' (met' ▸ inStep.numbers related)
  exact ⟨S, p, related, met, shifted⟩

theorem final_iff (mirrors : A.Mirrors A' R) (inStep : e.InStep R k k' e')
    (shifted : p.Shifted k k' p') :
    p ∈ (A.markFinals e).finals ↔ p' ∈ (A'.markFinals e').finals := by
  rw [Nfa.mem_finals_markFinals, Nfa.mem_finals_markFinals]
  constructor
  · rintro ⟨S, met, final⟩
    obtain ⟨S', q', related, met', shifted'⟩ := inStep.exists_numbers met
    obtain rfl := (shifted.eq_iff shifted').mp rfl
    exact ⟨S', met', (mirrors.final_iff related).mp final⟩
  · rintro ⟨S', met', final⟩
    obtain ⟨S, q, related, met, shifted'⟩ := inStep.exists_numbers' met'
    obtain rfl := (shifted.eq_iff shifted').mpr rfl
    exact ⟨S, met, (mirrors.final_iff related).mpr final⟩

end Exploration.InStep

/-- Automata whose subsets correspond, and whose starts do, are determinized to automata that differ
by the distance of the counters. -/
theorem Nfa.Mirrors.shiftOf_determinize {target target' : AllocatorId} {k k' l l' : Counter}
    {D D' : Dfa} (mirrors : A.Mirrors A' R)
    (starts : Option.Rel (fun s s' => R (A.epsilonClosure [s]) (A'.epsilonClosure [s'])) A.start
      A'.start)
    (ran : (A.determinize target).run k = .ok (D, l))
    (ran' : (A'.determinize target').run k' = .ok (D', l')) :
    D.ShiftOf k.next k'.next D' := by
  have alphabet : D.alphabet = D'.alphabet := by
    rw [alphabet_determinize ran, alphabet_determinize ran', mirrors.alphabet]
  have blank := Exploration.inStep_blank R A A' target target' k k'
  cases found : A.start with
  | none =>
      have found' := eq_none_of_rel_none (found ▸ starts)
      rw [run_determinize_of_no_start found] at ran
      rw [run_determinize_of_no_start found'] at ran'
      cases ran
      cases ran'
      exact ⟨.none, fun member => absurd member Std.ExtTreeSet.not_mem_empty,
        fun member => absurd member Std.ExtTreeSet.not_mem_empty,
        fun _ => iff_of_false Std.ExtTreeSet.not_mem_empty Std.ExtTreeSet.not_mem_empty, alphabet,
        blank.target⟩
  | some start =>
      obtain ⟨start', found', related⟩ := exists_of_rel_some (found ▸ starts)
      obtain ⟨e₀, e, begun, explored, rfl, _⟩ := (determinize_eq_ok_iff found).mp ran
      obtain ⟨e₀', e', begun', explored', rfl, _⟩ := (determinize_eq_ok_iff found').mp ran'
      have faithful := (explored_of_outset begun explored).faithful
      have faithful' := (explored_of_outset begun' explored').faithful
      obtain ⟨p, e₁, visited, _, rfl⟩ := outset_eq_ok begun
      obtain ⟨p', e₁', visited', _, rfl⟩ := outset_eq_ok begun'
      obtain ⟨shifted, first⟩ := blank.visit mirrors related visited visited'
      have inStep := (first.setStart shifted).explore mirrors explored explored'
      refine ⟨inStep.start, ?_, ?_, inStep.final_iff mirrors, alphabet, ?_⟩
      · intro q member
        obtain ⟨S, met⟩ := faithful.mem_states.mp member
        obtain ⟨S', q', _, met', shifted⟩ := inStep.exists_numbers met
        exact ⟨q', faithful'.mem_states.mpr ⟨S', met'⟩, shifted⟩
      · intro q' member
        obtain ⟨S', met'⟩ := faithful'.mem_states.mp member
        obtain ⟨S, q, _, met, shifted⟩ := inStep.exists_numbers' met'
        exact ⟨q, faithful.mem_states.mpr ⟨S, met⟩, shifted⟩
      · intro q q' shifted c
        rw [target?_markFinals, target?_markFinals]
        exact inStep.target shifted c

end PostfixAutomata
