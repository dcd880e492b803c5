import Mathlib
import PostfixAutomata.Automaton.Statistics
import PostfixAutomata.Proofs.Allocation
import PostfixAutomata.Proofs.Automaton.WellFormed
import PostfixAutomata.Proofs.State

set_option autoImplicit false

/-!
The totals of size statistics. Only overflow keeps a total from being computed, and where the
out-degrees are small there is none. A total that is computed is the number of transitions.
-/

namespace PostfixAutomata

namespace Statistics

theorem addTransitions_eq_error {total : Nat} {entry : Nat × Nat} {d : Defect}
    (failed : addTransitions total entry = .error d) :
    d = .productOverflow ∨ d = .sumOverflow := by
  obtain ⟨degree, count⟩ := entry
  unfold addTransitions at failed
  dsimp only at failed
  split at failed
  · exact .inl (Except.error.inj failed).symm
  · split at failed
    · exact .inr (Except.error.inj failed).symm
    · cases failed

theorem foldlM_addTransitions_eq_error {entries : List (Nat × Nat)} {total : Nat} {d : Defect}
    (failed : entries.foldlM addTransitions total = .error d) :
    d = .productOverflow ∨ d = .sumOverflow := by
  induction entries generalizing total with
  | nil => cases failed
  | cons entry rest ih =>
      rw [List.foldlM_cons] at failed
      rcases bind_eq_error_iff.mp failed with failed | ⟨next, _, failed⟩
      · exact addTransitions_eq_error failed
      · exact ih failed

theorem transitions_eq_error {S : Statistics} {d : Defect} (failed : S.transitions = .error d) :
    d = .productOverflow ∨ d = .sumOverflow :=
  foldlM_addTransitions_eq_error failed

theorem text_of_transitions {S : Statistics} {total : Nat} (computed : S.transitions = .ok total) :
    ∃ text, S.text = .ok text := by
  cases written : S.text with
  | ok text => exact ⟨text, rfl⟩
  | error d =>
      rw [text_eq_error_iff, computed] at written
      cases written

theorem addTransitions_of_fits {total degree count : Nat}
    (fits : total + degree * count < UInt64.size) :
    addTransitions total (degree, count) = .ok (total + degree * count) := by
  unfold addTransitions
  dsimp only
  rw [if_neg (by omega), if_neg (by omega)]

/-- The defect of the states of a degree that make a total too large. -/
def overflowOf : Nat × Nat → Defect
  | (degree, count) => if UInt64.size ≤ degree * count then .productOverflow else .sumOverflow

theorem addTransitions_of_overflow {total degree count : Nat}
    (large : UInt64.size ≤ total + degree * count) :
    addTransitions total (degree, count) = .error (overflowOf (degree, count)) := by
  unfold addTransitions overflowOf
  by_cases product : UInt64.size ≤ degree * count
  · simp only [product, ↓reduceIte]
  · simp only [product, large, ↓reduceIte]

/-- A total is computed exactly when it fits: whatever is added up on the way fits as well. -/
theorem foldlM_addTransitions_eq_ok_iff {entries : List (Nat × Nat)} {total sum : Nat}
    (fits : total < UInt64.size) :
    entries.foldlM addTransitions total = .ok sum ↔
      sum = total + (entries.map fun entry => entry.1 * entry.2).sum ∧ sum < UInt64.size := by
  induction entries generalizing total with
  | nil =>
      rw [List.foldlM_nil, List.map_nil, List.sum_nil, Nat.add_zero]
      constructor
      · intro same
        cases same
        exact ⟨rfl, fits⟩
      · rintro ⟨rfl, _⟩
        rfl
  | cons entry rest ih =>
      obtain ⟨degree, count⟩ := entry
      rw [List.foldlM_cons, List.map_cons, List.sum_cons, ← Nat.add_assoc]
      dsimp only
      by_cases next : total + degree * count < UInt64.size
      · rw [addTransitions_of_fits next]
        exact ih next
      · rw [addTransitions_of_overflow (by omega)]
        refine iff_of_false nofun ?_
        rintro ⟨rfl, small⟩
        omega

/-! Histograms. -/

theorem mem_tally_iff {degrees : Std.ExtTreeMap Nat Nat} {degree other : Nat} :
    other ∈ tally degrees degree ↔ degree = other ∨ other ∈ degrees := by
  rw [tally, Std.ExtTreeMap.mem_insert, Nat.compare_eq_eq]

theorem mem_foldl_tally_iff {numbers : List Nat} {degrees : Std.ExtTreeMap Nat Nat} {degree : Nat} :
    degree ∈ numbers.foldl tally degrees ↔ degree ∈ numbers ∨ degree ∈ degrees := by
  induction numbers generalizing degrees with
  | nil => simp
  | cons n rest ih =>
      rw [List.foldl_cons, ih, mem_tally_iff, List.mem_cons]
      constructor
      · rintro (later | rfl | old)
        · exact .inl (.inr later)
        · exact .inl (.inl rfl)
        · exact .inr old
      · rintro ((rfl | later) | old)
        · exact .inr (.inl rfl)
        · exact .inl later
        · exact .inr (.inr old)

/-- A degree is counted once for each time that it occurs. -/
theorem getD_foldl_tally (numbers : List Nat) (degrees : Std.ExtTreeMap Nat Nat) (degree : Nat) :
    (numbers.foldl tally degrees).getD degree 0 =
      degrees.getD degree 0 + numbers.count degree := by
  induction numbers generalizing degrees with
  | nil => rfl
  | cons n rest ih =>
      rw [List.foldl_cons, ih, getD_tally, List.count_cons]
      by_cases here : degree = n
      · simp only [here, ↓reduceIte, BEq.rfl]
        omega
      · simp [here, Ne.symm here]

/-- Where each degree weighs something, the degrees of a histogram, each as often as it is counted,
weigh what the numbers weigh. -/
theorem sum_foldl_tally (weight : Nat → Nat) (numbers : List Nat) :
    ((numbers.foldl tally ∅).toList.map fun entry => weight entry.1 * entry.2).sum =
      (numbers.map weight).sum := by
  let degrees : Std.ExtTreeMap Nat Nat := numbers.foldl tally ∅
  have listed : numbers.toFinset ⊆ degrees.keys.toFinset := by
    intro degree member
    rw [List.mem_toFinset] at member ⊢
    exact Std.ExtTreeMap.mem_keys.mpr (mem_foldl_tally_iff.mpr (.inl member))
  calc
    (degrees.toList.map fun entry => weight entry.1 * entry.2).sum =
        (degrees.keys.map fun degree => numbers.count degree • weight degree).sum := by
      rw [← Std.ExtTreeMap.map_fst_toList_eq_keys, List.map_map]
      congr 1
      apply List.map_congr_left
      rintro ⟨degree, times⟩ member
      have stored := Std.ExtTreeMap.mem_toList_iff_getElem?_eq_some.mp member
      have value := getD_foldl_tally numbers ∅ degree
      rw [Std.ExtTreeMap.getD_empty, Nat.zero_add, Std.ExtTreeMap.getD_eq_getD_getElem?] at value
      rw [stored, Option.getD_some] at value
      rw [Function.comp_apply, ← value, smul_eq_mul, Nat.mul_comm]
    _ = ∑ degree ∈ numbers.toFinset, numbers.count degree • weight degree := by
      rw [← List.sum_toFinset _ Std.ExtTreeMap.nodup_keys]
      refine (Finset.sum_subset listed fun degree _ absent => ?_).symm
      rw [List.mem_toFinset] at absent
      rw [List.count_eq_zero.mpr absent, zero_smul]
    _ = (numbers.map weight).sum := (Finset.sum_list_map_count numbers weight).symm

end Statistics

namespace Automaton

variable {ρ Λ : Type} [TransitionRow ρ Λ]

/-- The out-degrees, each times the number of states that have it, add up to all out-degrees. -/
theorem sum_degrees (A : Automaton ρ) :
    (A.statistics.degrees.toList.map fun entry => entry.1 * entry.2).sum =
      (A.states.toList.map A.outDegree).sum :=
  (Statistics.sum_foldl_tally id _).trans (congrArg List.sum (List.map_id _))

/-- The total is the sum of the out-degrees, as long as that fits. -/
theorem transitions_eq_ok_iff {A : Automaton ρ} {total : Nat} :
    A.statistics.transitions = .ok total ↔
      total = (A.states.toList.map A.outDegree).sum ∧ total < UInt64.size := by
  rw [← sum_degrees, ← Nat.zero_add (List.sum _)]
  exact Statistics.foldlM_addTransitions_eq_ok_iff (by decide)

/-- There are no more states than identifiers, so small out-degrees have a small sum. -/
theorem sum_outDegree_le {A : Automaton ρ} {bound : Nat}
    (small : ∀ s ∈ A.states, A.outDegree s ≤ bound) :
    (A.states.toList.map A.outDegree).sum ≤ UInt32.size * bound := by
  have each : ∀ n ∈ A.states.toList.map A.outDegree, n ≤ bound := by
    intro n member
    obtain ⟨s, listed, rfl⟩ := List.mem_map.mp member
    exact small s (Std.ExtTreeSet.mem_toList.mp listed)
  have few : (A.states.toList.map A.outDegree).length ≤ UInt32.size := by
    rw [List.length_map, Std.ExtTreeSet.length_toList]
    exact A.states.size_le
  exact (List.sum_le_card_nsmul _ bound each).trans (Nat.mul_le_mul_right bound few)

/-- Automata whose out-degrees are small have a total number of transitions. -/
theorem transitions_of_small {A : Automaton ρ} {bound : Nat}
    (small : ∀ s ∈ A.states, A.outDegree s ≤ bound) (fits : UInt32.size * bound < UInt64.size) :
    ∃ total ≤ UInt32.size * bound, A.statistics.transitions = .ok total := by
  have bounded := sum_outDegree_le small
  exact ⟨_, bounded, transitions_eq_ok_iff.mpr ⟨rfl, bounded.trans_lt fits⟩⟩

/-- Every transition leaves one state. -/
theorem length_edgeList [LawfulTransitionRow ρ] {A : Automaton ρ} (valid : A.WellFormed) :
    A.edgeList.length = (A.states.toList.map A.outDegree).sum := by
  have same : A.rows.keys.Perm A.states.toList := by
    apply (List.perm_ext_iff_of_nodup Std.ExtTreeMap.nodup_keys A.states.nodup_toList).mpr
    intro s
    rw [Std.ExtTreeMap.mem_keys, Std.ExtTreeSet.mem_toList, valid.mem_rows]
  calc
    A.edgeList.length =
        (A.rows.toList.map fun entry => (TransitionRow.edges entry.2).length).sum := by
      simp only [edgeList, List.length_flatMap, List.length_map]
    _ = (A.rows.keys.map A.outDegree).sum := by
      rw [← Std.ExtTreeMap.map_fst_toList_eq_keys, List.map_map]
      congr 1
      apply List.map_congr_left
      rintro ⟨s, row⟩ member
      have stored := Std.ExtTreeMap.mem_toList_iff_getElem?_eq_some.mp member
      simp only [Function.comp_apply, outDegree, row_of_getElem? stored]
    _ = (A.states.toList.map A.outDegree).sum := (same.map A.outDegree).sum_eq

/-- The total is the number of transitions, as long as that fits. -/
theorem transitions_eq_ok_iff_length [LawfulTransitionRow ρ] {A : Automaton ρ}
    (valid : A.WellFormed) {total : Nat} :
    A.statistics.transitions = .ok total ↔ total = A.edgeList.length ∧ total < UInt64.size := by
  rw [length_edgeList valid]
  exact transitions_eq_ok_iff

end Automaton

/-! Statistics against the transitions as a relation. -/

theorem ncard_eq_length {α : Type} {S : Set α} {items : List α} (distinct : items.Nodup)
    (same : ∀ a, a ∈ S ↔ a ∈ items) : S.ncard = items.length := by
  classical
  have listed : S = items.toFinset := by
    ext a
    rw [same, Finset.mem_coe, List.mem_toFinset]
  rw [listed, Set.ncard_coe_finset, List.toFinset_card_of_nodup distinct]

/-- Statistics that are right about some states and the transitions between them: each state is
counted once, under the number of transitions that leave it, and the total counts them all; it is
missing only where it does not fit. -/
structure Statistics.RightAbout {Λ : Type} (T : Statistics) (states : StateSet)
    (leads : State → Λ → State → Prop) : Prop where
  states_eq : T.states = states.size
  sum_counts : (T.degrees.toList.map Prod.snd).sum = states.size
  count_eq : ∀ degree, T.degrees.getD degree 0 =
    {s | s ∈ states ∧ {edge : Λ × State | leads s edge.1 edge.2}.ncard = degree}.ncard
  mem_degrees : ∀ degree, degree ∈ T.degrees ↔
    ∃ s ∈ states, {edge : Λ × State | leads s edge.1 edge.2}.ncard = degree
  finite : {edge : State × Λ × State | leads edge.1 edge.2.1 edge.2.2}.Finite
  total_iff : ∀ total, T.transitions = .ok total ↔
    total = {edge : State × Λ × State | leads edge.1 edge.2.1 edge.2.2}.ncard ∧ total < UInt64.size

namespace Automaton

open TransitionRow

variable {ρ Λ : Type} [TransitionRow ρ Λ] {A : Automaton ρ} {leads : State → Λ → State → Prop}

/-- A histogram counts every state once. -/
theorem sum_counts (A : Automaton ρ) :
    (A.statistics.degrees.toList.map Prod.snd).sum = A.states.size := by
  have whole := Statistics.sum_foldl_tally (fun _ => 1) (A.states.toList.map A.outDegree)
  simp only [Nat.one_mul, List.map_const', List.sum_replicate, smul_eq_mul, Nat.mul_one,
    List.length_map, Std.ExtTreeSet.length_toList] at whole
  exact whole

/-- Under a degree stand the states that have it. -/
theorem count_eq (A : Automaton ρ) (degree : Nat) :
    A.statistics.degrees.getD degree 0 = {s | s ∈ A.states ∧ A.outDegree s = degree}.ncard := by
  have counted := Statistics.getD_foldl_tally (A.states.toList.map A.outDegree) ∅ degree
  rw [Std.ExtTreeMap.getD_empty, Nat.zero_add] at counted
  refine counted.trans ?_
  rw [List.count, List.countP_map, List.countP_eq_length_filter]
  refine (ncard_eq_length (A.states.nodup_toList.filter _) fun s => ?_).symm
  simp only [Set.mem_ofPred_eq, List.mem_filter, Std.ExtTreeSet.mem_toList, Function.comp_apply,
    beq_iff_eq]

theorem count_le (A : Automaton ρ) (degree : Nat) :
    A.statistics.degrees.getD degree 0 ≤ UInt32.size := by
  have counted := Statistics.getD_foldl_tally (A.states.toList.map A.outDegree) ∅ degree
  rw [Std.ExtTreeMap.getD_empty, Nat.zero_add] at counted
  refine (counted.trans_le List.count_le_length).trans ?_
  rw [List.length_map, Std.ExtTreeSet.length_toList]
  exact A.states.size_le

theorem mem_degrees (A : Automaton ρ) (degree : Nat) :
    degree ∈ A.statistics.degrees ↔ ∃ s ∈ A.states, A.outDegree s = degree := by
  refine Statistics.mem_foldl_tally_iff.trans ((or_iff_left Std.ExtTreeMap.not_mem_empty).trans ?_)
  simp only [List.mem_map, Std.ExtTreeSet.mem_toList]

/-- Where each row lists its transitions once, the automaton does. -/
theorem nodup_edgeList (A : Automaton ρ) (distinct : ∀ row : ρ, (edges row).Nodup) :
    A.edgeList.Nodup := by
  unfold edgeList
  rw [List.nodup_flatMap]
  constructor
  · intro entry _
    exact (distinct entry.2).map fun _ _ same => (Prod.mk.inj same).2
  · refine A.rows.distinct_keys_toList.imp ?_
    intro entry entry' apart edge inFirst inSecond
    obtain ⟨_, _, rfl⟩ := List.mem_map.mp inFirst
    obtain ⟨_, _, same⟩ := List.mem_map.mp inSecond
    exact apart (State.compare_eq_iff.mpr (Prod.mk.inj same).1.symm)

/-- Statistics are right about an automaton whose rows list each transition once. -/
theorem rightAbout [LawfulTransitionRow ρ] (valid : A.WellFormed)
    (distinct : ∀ row : ρ, (edges row).Nodup)
    (inRow : ∀ p l q, leads p l q ↔ (l, q) ∈ edges (A.row p))
    (inList : ∀ p l q, leads p l q ↔ (p, l, q) ∈ A.edgeList) :
    A.statistics.RightAbout A.states leads := by
  have degree : ∀ s, {edge : Λ × State | leads s edge.1 edge.2}.ncard = A.outDegree s :=
    fun s => ncard_eq_length (distinct (A.row s)) fun edge => inRow s edge.1 edge.2
  have same : ∀ edge : State × Λ × State,
      edge ∈ {edge : State × Λ × State | leads edge.1 edge.2.1 edge.2.2} ↔ edge ∈ A.edgeList :=
    fun edge => inList edge.1 edge.2.1 edge.2.2
  have whole := ncard_eq_length (A.nodup_edgeList distinct) same
  refine ⟨rfl, A.sum_counts, ?_, ?_, A.edgeList.finite_toSet.subset fun edge => (same edge).mp, ?_⟩
  · simpa only [degree] using A.count_eq
  · simpa only [degree] using A.mem_degrees
  · rw [whole]
    exact fun total => transitions_eq_ok_iff_length valid

end Automaton

end PostfixAutomata
