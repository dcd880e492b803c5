import Mathlib.Data.Set.Card
import PostfixAutomata.Proofs.Nfa.Determinization

set_option autoImplicit false

/-!
The extent of the subset construction. The exploration meets the non-empty subsets that inputs over
the alphabet lead to and no others, gives them identifiers in a row, and settles one of them a
round. So it ends after as many rounds as there are such subsets, and it fails exactly when they
need more identifiers than are left. What it builds is the automaton of these subsets.
-/

namespace PostfixAutomata

instance : Finite State :=
  Finite.of_injective (fun s : State => (⟨s.id, s.id_lt⟩ : Fin UInt32.size))
    fun _ _ same => State.ext (Fin.mk.inj same)

instance : Finite StateSet :=
  Finite.of_injective (fun S : StateSet => {s : State | s ∈ S})
    fun _ _ same => StateSet.ext_iff.mpr (Set.ext_iff.mp same)

theorem ncard_numbered (numbers : Std.ExtTreeMap StateSet State) :
    {S | S ∈ numbers}.ncard = numbers.size := by
  classical
  have listed : {S | S ∈ numbers} = (numbers.keys.toFinset : Set StateSet) := by
    ext S
    simp only [Set.mem_ofPred_eq, List.coe_toFinset, Std.ExtTreeMap.mem_keys]
  rw [listed, Set.ncard_coe_finset, List.toFinset_card_of_nodup Std.ExtTreeMap.nodup_keys,
    Std.ExtTreeMap.length_keys]

namespace Nfa

/-- The sets of states that inputs over the alphabet lead to. -/
inductive Reaches (A : Nfa) (start : State) : StateSet → Prop
  | start : Reaches A start (A.epsilonClosure [start])
  | successor {S : StateSet} {c : Char} :
    Reaches A start S → c ∈ A.alphabet → Reaches A start (A.successor S c)

/-- The subsets that states stand for: all that are reached, but for the empty one. -/
def subsets (A : Nfa) (start : State) : Set StateSet := {S | A.Reaches start S ∧ S ≠ ∅}

variable {A : Nfa} {start : State} {S : StateSet} {c : Char}

theorem finite_subsets (A : Nfa) (start : State) : (A.subsets start).Finite := Set.toFinite _

theorem epsilonClosure_mem_subsets (A : Nfa) (start : State) :
    A.epsilonClosure [start] ∈ A.subsets start := by
  refine ⟨.start, ?_⟩
  intro nothing
  have member : start ∈ A.epsilonClosure [start] :=
    mem_epsilonClosure_iff.mpr ⟨start, List.mem_singleton_self _, .refl _⟩
  rw [nothing] at member
  exact Std.ExtTreeSet.not_mem_empty member

theorem successor_mem_subsets (member : S ∈ A.subsets start) (symbol : c ∈ A.alphabet)
    (nonempty : A.successor S c ≠ ∅) : A.successor S c ∈ A.subsets start :=
  ⟨.successor member.1 symbol, nonempty⟩

theorem ne_empty_of_successor_ne_empty (nonempty : A.successor S c ≠ ∅) : S ≠ ∅ := by
  rintro rfl
  exact nonempty (foldl_successor_empty [c])

/-- One round of the exploration: the subset met last no longer waits and its row is followed. -/
inductive Round (A : Nfa) : Exploration → Exploration → Prop
  | follow {numbers : Std.ExtTreeMap StateSet State} {S : StateSet} {p : State}
    {rest : List (StateSet × State)} {dfa : Dfa} {counter : Counter}
    {e : Exploration.Like ⟨numbers, rest, dfa, counter⟩} :
    A.exploreRow S p A.alphabet.toList ⟨numbers, rest, dfa, counter⟩ = .ok e →
      Round A ⟨numbers, (S, p) :: rest, dfa, counter⟩ e.val

/-- A number of rounds one after another. -/
inductive Rounds (A : Nfa) : Nat → Exploration → Exploration → Prop
  | none (e : Exploration) : Rounds A 0 e e
  | more {n : Nat} {e₁ e₂ e₃ : Exploration} :
    A.Round e₁ e₂ → Rounds A n e₂ e₃ → Rounds A (n + 1) e₁ e₃

/-- The exploration is rounds until nothing waits. -/
theorem explore_eq_ok_iff {e e' : Exploration} :
    A.explore e = .ok e' ↔ (∃ n, A.Rounds n e e') ∧ e'.pending = [] := by
  constructor
  · intro ran
    induction e using explore.induct with
    | case1 numbers dfa counter =>
        rw [explore] at ran
        cases ran
        exact ⟨⟨0, .none _⟩, rfl⟩
    | case2 numbers S p rest dfa counter ih =>
        rw [explore] at ran
        obtain ⟨e₁, first, ran⟩ := bind_eq_ok_iff.mp ran
        obtain ⟨⟨n, rounds⟩, finished⟩ := ih e₁ ran
        exact ⟨⟨n + 1, .more (.follow first) rounds⟩, finished⟩
  · rintro ⟨⟨n, rounds⟩, finished⟩
    induction rounds with
    | none e =>
        obtain ⟨numbers, pending, dfa, counter⟩ := e
        cases finished
        rw [explore]
    | more round _ ih =>
        obtain ⟨first⟩ := round
        rw [explore, first]
        exact ih finished

/-- An exploration that fails does so in the round after some others. -/
theorem explore_eq_error_rounds {e : Exploration} {d : Defect} (failed : A.explore e = .error d) :
    ∃ n numbers S p rest dfa counter,
      A.Rounds n e ⟨numbers, (S, p) :: rest, dfa, counter⟩ ∧
        A.exploreRow S p A.alphabet.toList ⟨numbers, rest, dfa, counter⟩ = .error d := by
  induction e using explore.induct with
  | case1 numbers dfa counter =>
      rw [explore] at failed
      cases failed
  | case2 numbers S p rest dfa counter ih =>
      rw [explore] at failed
      rcases bind_eq_error_iff.mp failed with failed | ⟨e₁, first, failed⟩
      · exact ⟨0, numbers, S, p, rest, dfa, counter, .none _, failed⟩
      · obtain ⟨n, last⟩ := ih e₁ failed
        obtain ⟨numbers', S', p', rest', dfa', counter', rounds, failed⟩ := last
        exact ⟨n + 1, numbers', S', p', rest', dfa', counter', .more (.follow first) rounds, failed⟩

end Nfa

namespace Exploration

/-- What an exploration has met are subsets that are reached, under identifiers in a row from
`floor` on. All of them wait but for `settled` ones. -/
structure Counted (e : Exploration) (A : Nfa) (start : State) (floor settled : Nat) : Prop where
  reached : ∀ {S : StateSet}, S ∈ e.numbers → S ∈ A.subsets start
  waiting : ∀ {S : StateSet} {p : State}, (S, p) ∈ e.pending → S ∈ A.subsets start
  counter : e.counter.next = floor + e.numbers.size
  -- Only what was drawn is known to fit: an exploration may begin with all identifiers spent.
  fits : e.numbers.size = 0 ∨ e.counter.next ≤ UInt32.size
  settled : settled + e.pending.length = e.numbers.size

namespace Counted

variable {e e' : Exploration} {A : Nfa} {start p q : State} {floor settled : Nat} {S : StateSet}
  {c : Char} {d : Defect}

theorem size_le (counted : e.Counted A start floor settled) :
    e.numbers.size ≤ (A.subsets start).ncard := by
  rw [← ncard_numbered]
  exact Set.ncard_le_ncard (fun _ met => counted.reached met) (A.finite_subsets start)

/-- While some subset has not been met, fewer have been met than there are. -/
theorem size_lt (counted : e.Counted A start floor settled) (member : S ∈ A.subsets start)
    (unknown : S ∉ e.numbers) : e.numbers.size < (A.subsets start).ncard := by
  rw [← ncard_numbered]
  refine Set.ncard_lt_ncard ⟨fun _ met => counted.reached met, ?_⟩ (A.finite_subsets start)
  exact fun all => unknown (all member)

theorem visit (counted : e.Counted A start floor settled) (member : S ∈ A.subsets start)
    {e' : e.Like} (ran : e.visit S = .ok (q, e')) : e'.val.Counted A start floor settled := by
  rcases visit_eq_ok ran with ⟨_, same⟩ | ⟨unknown, identifier, same⟩
  · rw [same]
    exact counted
  rw [same]
  have absent : e.numbers.contains S = false := by
    rw [Std.ExtTreeMap.contains_eq_isSome_getElem?, unknown]
    rfl
  have size : (e.numbers.insert S q).size = e.numbers.size + 1 := by
    rw [Std.ExtTreeMap.size_insert, absent]
    rfl
  refine ⟨?_, ?_, ?_, ?_, ?_⟩
  · intro T met
    rw [Std.ExtTreeMap.mem_insert, Std.LawfulEqCmp.compare_eq_iff_eq] at met
    rcases met with rfl | met
    · exact member
    · exact counted.reached met
  · intro T p waits
    rcases List.mem_cons.mp waits with same | waits
    · cases same
      exact member
    · exact counted.waiting waits
  · have before := counted.counter
    simp only [size]
    omega
  · -- The last identifier that was drawn is `q`, and states have small ones only.
    have bound := q.id_lt
    simp only
    omega
  · have before := counted.settled
    simp only [size, List.length_cons]
    omega

/-- A visit that fails meets one subset more than there are identifiers for. -/
theorem lt_of_visit_eq_error (counted : e.Counted A start floor settled)
    (member : S ∈ A.subsets start) (failed : e.visit S = .error d) :
    UInt32.size < floor + (A.subsets start).ncard := by
  obtain ⟨_, unknown, spent⟩ := visit_eq_error failed
  have absent : S ∉ e.numbers := by
    rw [Std.ExtTreeMap.mem_iff_isSome_getElem?, unknown]
    exact nofun
  have smaller := counted.size_lt member absent
  have row := counted.counter
  omega

theorem exploreSymbol (counted : e.Counted A start floor settled) (member : S ∈ A.subsets start)
    (symbol : c ∈ A.alphabet) {e' : e.Like} (ran : A.exploreSymbol S p c e = .ok e') :
    e'.val.Counted A start floor settled := by
  rcases Nfa.exploreSymbol_eq_ok ran with ⟨_, same⟩ | ⟨nonempty, q, e₁, visited, same⟩
  · rw [same]
    exact counted
  · have next := counted.visit (Nfa.successor_mem_subsets member symbol nonempty) visited
    rw [same]
    exact ⟨next.reached, next.waiting, next.counter, next.fits, next.settled⟩

theorem lt_of_exploreSymbol_eq_error (counted : e.Counted A start floor settled)
    (member : S ∈ A.subsets start) (symbol : c ∈ A.alphabet)
    (failed : A.exploreSymbol S p c e = .error d) :
    UInt32.size < floor + (A.subsets start).ncard := by
  obtain ⟨nonempty, failed⟩ := Nfa.exploreSymbol_eq_error failed
  exact counted.lt_of_visit_eq_error (Nfa.successor_mem_subsets member symbol nonempty) failed

theorem exploreRow {symbols : List Char} (counted : e.Counted A start floor settled)
    (member : S ∈ A.subsets start) (known : ∀ c ∈ symbols, c ∈ A.alphabet) {e' : e.Like}
    (ran : A.exploreRow S p symbols e = .ok e') : e'.val.Counted A start floor settled := by
  induction symbols generalizing e with
  | nil =>
      cases ran
      exact counted
  | cons c symbols ih =>
      obtain ⟨symbol, known⟩ := List.forall_mem_cons.mp known
      obtain ⟨e₁, first, ran⟩ := bind_eq_ok_iff.mp ran
      obtain ⟨e₂, later, done⟩ := bind_eq_ok_iff.mp ran
      cases done
      exact ih (counted.exploreSymbol member symbol first) known later

theorem lt_of_exploreRow_eq_error {symbols : List Char}
    (counted : e.Counted A start floor settled) (member : S ∈ A.subsets start)
    (known : ∀ c ∈ symbols, c ∈ A.alphabet) (failed : A.exploreRow S p symbols e = .error d) :
    UInt32.size < floor + (A.subsets start).ncard := by
  induction symbols generalizing e with
  | nil => cases failed
  | cons c symbols ih =>
      obtain ⟨symbol, known⟩ := List.forall_mem_cons.mp known
      rcases bind_eq_error_iff.mp failed with failed | ⟨e₁, first, failed⟩
      · exact counted.lt_of_exploreSymbol_eq_error member symbol failed
      · rcases bind_eq_error_iff.mp failed with failed | ⟨e₂, _, failed⟩
        · exact ih (counted.exploreSymbol member symbol first) known failed
        · cases failed

/-- The subset that waits first is settled by the round that follows its row. -/
theorem pop {numbers : Std.ExtTreeMap StateSet State} {rest : List (StateSet × State)} {dfa : Dfa}
    {counter : Counter} (counted : Counted ⟨numbers, (S, p) :: rest, dfa, counter⟩ A start floor
      settled) :
    S ∈ A.subsets start ∧ Counted ⟨numbers, rest, dfa, counter⟩ A start floor (settled + 1) := by
  refine ⟨counted.waiting (List.mem_cons_self ..), counted.reached,
    fun waits => counted.waiting (List.mem_cons_of_mem _ waits), counted.counter, counted.fits, ?_⟩
  have before := counted.settled
  simp only [List.length_cons] at before ⊢
  omega

theorem round (counted : e.Counted A start floor settled) (round : A.Round e e') :
    e'.Counted A start floor (settled + 1) := by
  obtain ⟨ran⟩ := round
  obtain ⟨member, popped⟩ := counted.pop
  exact popped.exploreRow member (fun _ symbol => Std.ExtTreeSet.mem_toList.mp symbol) ran

/-- Every round settles one more subset. -/
theorem rounds {n : Nat} (counted : e.Counted A start floor settled) (rounds : A.Rounds n e e') :
    e'.Counted A start floor (settled + n) := by
  induction rounds generalizing settled with
  | none => exact counted
  | more first _ ih =>
      have later := ih (counted.round first)
      rwa [Nat.add_right_comm, Nat.add_assoc] at later

theorem lt_of_explore_eq_error (counted : e.Counted A start floor settled)
    (failed : A.explore e = .error d) : UInt32.size < floor + (A.subsets start).ncard := by
  obtain ⟨n, numbers, S, p, rest, dfa, counter, before, failed⟩ :=
    Nfa.explore_eq_error_rounds failed
  obtain ⟨member, popped⟩ := (counted.rounds before).pop
  exact popped.lt_of_exploreRow_eq_error member
    (fun _ symbol => Std.ExtTreeSet.mem_toList.mp symbol) failed

end Counted

end Exploration

namespace Nfa

variable {A : Nfa} {target : AllocatorId} {k k' : Counter} {start p q : State} {e e₀ : Exploration}
  {S : StateSet} {c : Char} {D : Dfa} {d : Defect}

/-! From the outset to the end. -/

theorem counted_blank (A : Nfa) (target : AllocatorId) (k : Counter) (start : State) :
    Exploration.Counted ⟨∅, [], A.blankDfa target, k⟩ A start k.next 0 :=
  ⟨fun met => absurd met Std.ExtTreeMap.not_mem_empty, nofun, rfl, .inl rfl, rfl⟩

theorem counted_outset (begun : A.outset target k start = .ok e) :
    e.Counted A start k.next 0 := by
  obtain ⟨p, e₁, visited, _, rfl⟩ := outset_eq_ok begun
  have first := (counted_blank A target k start).visit (A.epsilonClosure_mem_subsets start) visited
  exact ⟨first.reached, first.waiting, first.counter, first.fits, first.settled⟩

theorem lt_of_outset_eq_error (failed : A.outset target k start = .error d) :
    UInt32.size < k.next + (A.subsets start).ncard :=
  (counted_blank A target k start).lt_of_visit_eq_error (A.epsilonClosure_mem_subsets start)
    (outset_eq_error failed)

/-- There are no more rounds than subsets, whatever identifiers are left. -/
theorem rounds_le_ncard (begun : A.outset target k start = .ok e₀) {n : Nat}
    (rounds : A.Rounds n e₀ e) : n ≤ (A.subsets start).ncard := by
  have counted := (counted_outset begun).rounds rounds
  have settled := counted.settled
  have met := counted.size_le
  omega

/-! At the end. -/

section Finished

variable {settled : Nat}

/-- Whatever is reached and not empty has been met, on a way that the automaton can go too. -/
theorem Explored.exists_run (explored : A.Explored target k start e) (reaches : A.Reaches start S)
    (nonempty : S ≠ ∅) :
    ∃ p input, e.numbers[S]? = some p ∧ e.dfa.start.bind (e.dfa.runFrom · input) = some p := by
  -- By the way on which the set is reached. Nothing follows the empty set, so none on it is empty.
  induction reaches with
  | start =>
      obtain ⟨p, begun, met⟩ := explored.start
      exact ⟨p, [], met, by rw [begun]; rfl⟩
  | @successor S c _ symbol ih =>
      obtain ⟨p, input, met, reached⟩ := ih (ne_empty_of_successor_ne_empty nonempty)
      obtain ⟨origin, begun, ran⟩ := Option.bind_eq_some_iff.mp reached
      obtain ⟨q, edge, next⟩ :=
        explored.faithful.exists_target explored.finished met symbol nonempty
      refine ⟨q, input ++ [c], next, ?_⟩
      rw [begun, Option.bind_some, Dfa.runFrom_append, ran, Option.bind_some, Dfa.runFrom, edge]
      rfl

/-- Each subset that is reached and not empty has a state, and nothing else has one. -/
theorem Explored.exists_numbering (explored : A.Explored target k start e)
    (counted : e.Counted A start k.next settled) :
    ∃ number : StateSet → State, ∀ {S : StateSet} {p : State},
      e.numbers[S]? = some p ↔ S ∈ A.subsets start ∧ number S = p := by
  obtain ⟨origin, _, _⟩ := explored.start
  refine ⟨fun S => e.numbers.getD S origin, ?_⟩
  intro S p
  change _ ↔ _ ∧ e.numbers.getD S origin = p
  rw [Std.ExtTreeMap.getD_eq_getD_getElem?]
  constructor
  · intro met
    have known : S ∈ e.numbers := Std.ExtTreeMap.mem_iff_isSome_getElem?.mpr (met ▸ rfl)
    exact ⟨counted.reached known, by rw [met, Option.getD_some]⟩
  · rintro ⟨⟨reaches, nonempty⟩, same⟩
    obtain ⟨q, _, met, _⟩ := explored.exists_run reaches nonempty
    rw [met, ← same, met, Option.getD_some]

theorem Explored.size_eq (explored : A.Explored target k start e)
    (counted : e.Counted A start k.next settled) :
    e.numbers.size = (A.subsets start).ncard := by
  obtain ⟨number, met_iff⟩ := explored.exists_numbering counted
  rw [← ncard_numbered]
  refine congrArg Set.ncard (Set.ext fun S => ⟨counted.reached, fun inside => ?_⟩)
  have met := met_iff.mpr ⟨inside, rfl⟩
  exact Std.ExtTreeMap.mem_iff_isSome_getElem?.mpr (met ▸ rfl)

/-- In the end the counter has moved by the number of subsets, and no further than it can. -/
theorem Explored.counter_eq (explored : A.Explored target k start e)
    (counted : e.Counted A start k.next settled) :
    e.counter.next = k.next + (A.subsets start).ncard ∧ e.counter.next ≤ UInt32.size := by
  have size := explored.size_eq counted
  have positive : 0 < (A.subsets start).ncard :=
    (Set.ncard_pos (A.finite_subsets start)).mpr ⟨_, A.epsilonClosure_mem_subsets start⟩
  have row := counted.counter
  have fits := counted.fits
  omega

/-- An exploration that does not fail ends after one round for each subset. -/
theorem rounds_of_explore_eq_ok (begun : A.outset target k start = .ok e₀)
    (ran : A.explore e₀ = .ok e) : A.Rounds (A.subsets start).ncard e₀ e := by
  obtain ⟨⟨n, rounds⟩, finished⟩ := explore_eq_ok_iff.mp ran
  have counted := (counted_outset begun).rounds rounds
  have settled := counted.settled
  rw [(explored_of_outset begun ran).size_eq counted, finished, List.length_nil] at settled
  obtain rfl : n = (A.subsets start).ncard := by omega
  exact rounds

end Finished

/-- A deterministic automaton of the subsets of `A` that are reached from a state, with identifiers
from `first` on: each subset has the state that `number` gives to it. -/
structure IsSubsetAutomaton (A : Nfa) (start : State) (first : Nat) (number : StateSet → State)
    (D : Dfa) : Prop where
  states : ∀ s, s ∈ D.states ↔ first ≤ s.id ∧ s.id < first + (A.subsets start).ncard
  bijective : Set.BijOn number (A.subsets start) {s | s ∈ D.states}
  start_eq : D.start = some (number (A.epsilonClosure [start]))
  start_id : (number (A.epsilonClosure [start])).id = first
  target : ∀ S ∈ A.subsets start, ∀ c q,
    D.target? (number S) c = some q ↔ A.successor S c ≠ ∅ ∧ q = number (A.successor S c)
  final : ∀ S ∈ A.subsets start, number S ∈ D.finals ↔ ∃ s ∈ S, s ∈ A.finals
  reached : ∀ s ∈ D.states, ∃ input : List Char, D.start.bind (D.runFrom · input) = some s
  alphabet : D.alphabet = A.alphabet

section Numbered

variable {number : StateSet → State}

theorem Explored.bijOn (explored : A.Explored target k start e)
    (met_iff : ∀ {S p}, e.numbers[S]? = some p ↔ S ∈ A.subsets start ∧ number S = p) :
    Set.BijOn number (A.subsets start) {s | s ∈ (A.markFinals e).states} := by
  refine ⟨?_, ?_, ?_⟩
  · intro S inside
    exact explored.faithful.mem_states.mpr ⟨S, met_iff.mpr ⟨inside, rfl⟩⟩
  · intro S inside T inside' same
    exact explored.faithful.injective (met_iff.mpr ⟨inside, same⟩) (met_iff.mpr ⟨inside', rfl⟩)
  · intro s member
    obtain ⟨S, met⟩ := explored.faithful.mem_states.mp member
    exact ⟨S, met_iff.mp met⟩

/-- The number of a subset leads on a symbol to the number of the subset that follows, if one
does. -/
theorem Explored.target?_number (valid : A.WellFormed) (explored : A.Explored target k start e)
    (met_iff : ∀ {S p}, e.numbers[S]? = some p ↔ S ∈ A.subsets start ∧ number S = p)
    (inside : S ∈ A.subsets start) :
    e.dfa.target? (number S) c = some q ↔
      A.successor S c ≠ ∅ ∧ q = number (A.successor S c) := by
  have met := met_iff.mpr ⟨inside, rfl⟩
  constructor
  · intro edge
    obtain ⟨next, same⟩ := met_iff.mp (explored.faithful.numbers_of_target? met edge)
    exact ⟨next.2, same.symm⟩
  · rintro ⟨nonempty, rfl⟩
    have symbol := mem_alphabet_of_successor_ne_empty valid nonempty
    obtain ⟨q, edge, next⟩ := explored.faithful.exists_target explored.finished met symbol nonempty
    rw [edge, (met_iff.mp next).2]

/-- What a finished exploration makes is an automaton of the subsets. -/
theorem Explored.isSubsetAutomaton (valid : A.WellFormed)
    (explored : A.Explored target k start e) {settled : Nat}
    (counted : e.Counted A start k.next settled)
    (met_iff : ∀ {S p}, e.numbers[S]? = some p ↔ S ∈ A.subsets start ∧ number S = p) :
    A.IsSubsetAutomaton start k.next number (A.markFinals e) := by
  obtain ⟨origin, begun, first⟩ := explored.start
  obtain ⟨_, rfl⟩ := met_iff.mp first
  refine ⟨?_, explored.bijOn met_iff, begun, explored.first begun, ?_, ?_, ?_, ?_⟩
  · intro s
    change s ∈ e.dfa.states ↔ _
    rw [← (explored.counter_eq counted).1, explored.faithful.mem_states]
    constructor
    · rintro ⟨S, met⟩
      exact explored.faithful.within met
    · rintro ⟨above, below⟩
      exact explored.issued above below
  · intro S inside c q
    rw [target?_markFinals]
    exact explored.target?_number valid met_iff inside
  · intro S inside
    have met := met_iff.mpr ⟨inside, rfl⟩
    rw [mem_finals_markFinals]
    constructor
    · rintro ⟨T, same, final⟩
      rwa [explored.faithful.injective met same]
    · exact fun final => ⟨S, met, final⟩
  · intro s member
    obtain ⟨S, met⟩ := explored.faithful.mem_states.mp member
    obtain ⟨⟨reaches, nonempty⟩, _⟩ := met_iff.mp met
    obtain ⟨p, input, same, reached⟩ := explored.exists_run reaches nonempty
    obtain rfl := Option.some.inj (same.symm.trans met)
    refine ⟨input, ?_⟩
    change e.dfa.start.bind ((A.markFinals e).runFrom · input) = some p
    simpa only [runFrom_markFinals] using reached
  · apply Std.ExtTreeSet.ext_mem
    intro c
    exact explored.faithful.mem_alphabet

end Numbered

/-- With room for every subset the construction makes the automaton of the subsets. -/
theorem determinize_of_room (valid : A.WellFormed) (found : A.start = some start)
    (target : AllocatorId) (room : k.next + (A.subsets start).ncard ≤ UInt32.size) :
    ∃ D k' number, (A.determinize target).run k = .ok (D, k') ∧
      k'.next = k.next + (A.subsets start).ncard ∧
      A.IsSubsetAutomaton start k.next number D := by
  cases begun : A.outset target k start with
  | error d =>
      have spent := lt_of_outset_eq_error begun
      omega
  | ok e₀ =>
      cases ran : A.explore e₀ with
      | error d =>
          have spent := (counted_outset begun).lt_of_explore_eq_error ran
          omega
      | ok e =>
          have explored := explored_of_outset begun ran
          have counted := (counted_outset begun).rounds (rounds_of_explore_eq_ok begun ran)
          obtain ⟨number, met_iff⟩ := explored.exists_numbering counted
          exact ⟨A.markFinals e, e.counter, number,
            (determinize_eq_ok_iff found).mpr ⟨e₀, e, begun, ran, rfl, rfl⟩,
            (explored.counter_eq counted).1, explored.isSubsetAutomaton valid counted met_iff⟩

/-- With too few identifiers for the subsets it fails. -/
theorem determinize_of_spent (found : A.start = some start) (target : AllocatorId)
    (spent : UInt32.size < k.next + (A.subsets start).ncard) :
    (A.determinize target).run k = .error .identifiersExhausted := by
  cases ran : (A.determinize target).run k with
  | error d => rw [onlyExhausts_determinize A target ran]
  | ok result =>
      obtain ⟨D, k'⟩ := result
      obtain ⟨e₀, e, begun, ran, _, _⟩ := (determinize_eq_ok_iff found).mp ran
      have counted := (counted_outset begun).rounds (rounds_of_explore_eq_ok begun ran)
      obtain ⟨row, fits⟩ := (explored_of_outset begun ran).counter_eq counted
      omega

/-- Whatever the construction returns is the automaton of the subsets. -/
theorem isSubsetAutomaton_of_determinize (valid : A.WellFormed) (found : A.start = some start)
    (ran : (A.determinize target).run k = .ok (D, k')) :
    k'.next = k.next + (A.subsets start).ncard ∧ k'.next ≤ UInt32.size ∧
      ∃ number, A.IsSubsetAutomaton start k.next number D := by
  have room : k.next + (A.subsets start).ncard ≤ UInt32.size := by
    by_contra less
    rw [determinize_of_spent found target (Nat.lt_of_not_le less)] at ran
    cases ran
  obtain ⟨_, _, number, same, moved, shape⟩ := determinize_of_room valid found target room
  cases ran.symm.trans same
  exact ⟨moved, moved ▸ room, number, shape⟩

end Nfa

end PostfixAutomata
