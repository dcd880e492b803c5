import PostfixAutomata.Proofs.Automaton.Statistics

set_option autoImplicit false

/-!
When the total of size statistics overflows. The degrees are added up in ascending order, so the
first degree up to which the exact sum is too large decides the defect: its own product may be too
large already, or else only the sum is.
-/

namespace PostfixAutomata

namespace Statistics

/-- The transitions that some entries of a histogram stand for, counted without a limit. -/
def exactSum (entries : List (Nat × Nat)) : Nat :=
  (entries.map fun (degree, count) => degree * count).sum

/-- The transitions of all states, counted without a limit. -/
def exactTotal (S : Statistics) : Nat := exactSum S.degrees.toList

/-- The transitions of the states of a degree and of the degrees below it, counted without a
limit. -/
def exactUpTo (S : Statistics) (degree : Nat) : Nat :=
  exactSum (S.degrees.toList.filter (·.1 ≤ degree))

/-- The least degree up to which the transitions no longer fit into 64 bits. -/
structure OverflowsAt (S : Statistics) (degree count : Nat) : Prop where
  stored : S.degrees[degree]? = some count
  large : UInt64.size ≤ S.exactUpTo degree
  least : ∀ lower < degree, S.exactUpTo lower < UInt64.size

theorem exactSum_append (first second : List (Nat × Nat)) :
    exactSum (first ++ second) = exactSum first + exactSum second := by
  rw [exactSum, List.map_append, List.sum_append]
  rfl

theorem exactSum_singleton (degree count : Nat) : exactSum [(degree, count)] = degree * count :=
  List.sum_singleton

theorem exactSum_sublist {first second : List (Nat × Nat)} (inside : first.Sublist second) :
    exactSum first ≤ exactSum second :=
  (inside.map _).sum_le_sum fun _ _ => Nat.zero_le _

/-- A sum fails at the first entry up to which the exact sum is too large, with the defect of that
entry. -/
theorem foldlM_addTransitions_eq_error_iff {entries : List (Nat × Nat)} {total : Nat} {d : Defect}
    (fits : total < UInt64.size) :
    entries.foldlM addTransitions total = .error d ↔
      ∃ before entry after, entries = before ++ entry :: after ∧
        total + exactSum before < UInt64.size ∧
        UInt64.size ≤ total + exactSum (before ++ [entry]) ∧ overflowOf entry = d := by
  induction entries generalizing total with
  | nil =>
      refine iff_of_false nofun ?_
      rintro ⟨before, entry, after, split, _⟩
      exact List.append_ne_nil_of_right_ne_nil before (List.cons_ne_nil entry after) split.symm
  | cons entry rest ih =>
      obtain ⟨degree, count⟩ := entry
      have shift : ∀ entries, total + exactSum ((degree, count) :: entries) =
          total + degree * count + exactSum entries := by
        intro entries
        rw [← List.singleton_append, exactSum_append, exactSum_singleton, Nat.add_assoc]
      rw [List.foldlM_cons]
      by_cases next : total + degree * count < UInt64.size
      · -- The first entry fits, so the one that fails comes after it.
        rw [addTransitions_of_fits next]
        refine (ih next).trans ⟨?_, ?_⟩
        · rintro ⟨before, entry, after, rfl, small, large, kind⟩
          exact ⟨(degree, count) :: before, entry, after, rfl, by rwa [shift],
            by rwa [List.cons_append, shift], kind⟩
        · rintro ⟨before, entry, after, split, small, large, kind⟩
          rcases List.cons_eq_append_iff.mp split with ⟨rfl, here⟩ | ⟨before', rfl, there⟩
          · cases here
            rw [List.nil_append, exactSum_singleton] at large
            omega
          · rw [shift] at small
            rw [List.cons_append, shift] at large
            exact ⟨before', entry, after, there, small, large, kind⟩
      · rw [addTransitions_of_overflow (Nat.le_of_not_lt next)]
        constructor
        · intro failed
          refine ⟨[], (degree, count), rest, rfl, fits, ?_, Except.error.inj failed⟩
          rw [List.nil_append, exactSum_singleton]
          exact Nat.le_of_not_lt next
        · rintro ⟨before, entry, after, split, small, large, rfl⟩
          rcases List.cons_eq_append_iff.mp split with ⟨rfl, here⟩ | ⟨before', rfl, there⟩
          · cases here
            rfl
          · rw [shift] at small
            omega

/-! Histograms list their degrees in ascending order. -/

section Ascending

variable {S : Statistics} {before after : List (Nat × Nat)} {degree count : Nat}

theorem degrees_ascending (S : Statistics) :
    S.degrees.toList.Pairwise fun entry entry' => entry.1 < entry'.1 :=
  S.degrees.ordered_keys_toList.imp Nat.compare_eq_lt.mp

/-- The entries up to a degree are those that are listed up to it. -/
theorem exactUpTo_of_split (split : S.degrees.toList = before ++ (degree, count) :: after) :
    S.exactUpTo degree = exactSum (before ++ [(degree, count)]) := by
  have ascending := S.degrees_ascending
  rw [split, List.pairwise_append, List.pairwise_cons] at ascending
  obtain ⟨_, ⟨above, _⟩, below⟩ := ascending
  have kept : before.filter (·.1 ≤ degree) = before :=
    List.filter_eq_self.mpr fun entry member =>
      decide_eq_true (below entry member _ List.mem_cons_self).le
  have dropped : after.filter (·.1 ≤ degree) = [] :=
    List.filter_eq_nil_iff.mpr fun entry member => by
      simpa only [decide_eq_true_eq, Nat.not_le] using above entry member
  rw [exactUpTo, split, List.filter_append, kept, List.filter_cons, dropped]
  simp only [Nat.le_refl, decide_true, ↓reduceIte]

/-- Up to a lower degree there are only entries that are listed before it. -/
theorem exactUpTo_of_lt (split : S.degrees.toList = before ++ (degree, count) :: after)
    {lower : Nat} (lt : lower < degree) : S.exactUpTo lower ≤ exactSum before := by
  have ascending := S.degrees_ascending
  rw [split, List.pairwise_append, List.pairwise_cons] at ascending
  obtain ⟨_, ⟨above, _⟩, _⟩ := ascending
  have dropped : ((degree, count) :: after).filter (·.1 ≤ lower) = [] := by
    refine List.filter_eq_nil_iff.mpr fun entry member => ?_
    rw [decide_eq_true_eq, Nat.not_le]
    rcases List.mem_cons.mp member with rfl | later
    · exact lt
    · exact lt.trans (above entry later)
  rw [exactUpTo, split, List.filter_append, dropped, List.append_nil]
  exact exactSum_sublist List.filter_sublist

/-- The entries before the least degree up to which the sum is too large still fit. -/
theorem OverflowsAt.exactSum_lt (overflows : S.OverflowsAt degree count)
    (split : S.degrees.toList = before ++ (degree, count) :: after) :
    exactSum before < UInt64.size := by
  rcases List.eq_nil_or_concat before with rfl | ⟨init, ⟨lower, times⟩, rfl⟩
  · exact (by decide : 0 < UInt64.size)
  · rw [List.concat_eq_append] at split ⊢
    have ascending := S.degrees_ascending
    rw [split, List.pairwise_append] at ascending
    have lt : lower < degree := ascending.2.2 (lower, times) (by simp) _ List.mem_cons_self
    rw [List.append_assoc, List.singleton_append] at split
    rw [← exactUpTo_of_split split]
    exact overflows.least lower lt

end Ascending

/-- A total fails with the defect of the least degree up to which it is too large. -/
theorem transitions_eq_error_iff {S : Statistics} {d : Defect} :
    S.transitions = .error d ↔
      ∃ degree count, S.OverflowsAt degree count ∧ overflowOf (degree, count) = d := by
  rw [transitions, foldlM_addTransitions_eq_error_iff (by decide)]
  simp only [Nat.zero_add]
  constructor
  · rintro ⟨before, ⟨degree, count⟩, after, split, small, large, kind⟩
    have member : (degree, count) ∈ S.degrees.toList := by simp [split]
    refine ⟨degree, count, ⟨?_, ?_, ?_⟩, kind⟩
    · exact Std.ExtTreeMap.mem_toList_iff_getElem?_eq_some.mp member
    · rwa [exactUpTo_of_split split]
    · exact fun lower lt => (exactUpTo_of_lt split lt).trans_lt small
  · rintro ⟨degree, count, overflows, kind⟩
    have member := Std.ExtTreeMap.mem_toList_iff_getElem?_eq_some.mpr overflows.stored
    obtain ⟨before, after, split⟩ := List.append_of_mem member
    refine ⟨before, (degree, count), after, split, overflows.exactSum_lt split, ?_, kind⟩
    rw [← exactUpTo_of_split split]
    exact overflows.large

theorem transitions_eq_ok_iff {S : Statistics} {total : Nat} :
    S.transitions = .ok total ↔ total = S.exactTotal ∧ S.exactTotal < UInt64.size := by
  rw [transitions, foldlM_addTransitions_eq_ok_iff (by decide), Nat.zero_add]
  change total = S.exactTotal ∧ total < UInt64.size ↔ _
  exact and_congr_right fun same => by rw [same]

theorem overflowOf_eq_productOverflow_iff {degree count : Nat} :
    overflowOf (degree, count) = .productOverflow ↔ UInt64.size ≤ degree * count := by
  unfold overflowOf
  by_cases product : UInt64.size ≤ degree * count
  · simp [product]
  · simp [product]

theorem overflowOf_eq_sumOverflow_iff {degree count : Nat} :
    overflowOf (degree, count) = .sumOverflow ↔ degree * count < UInt64.size := by
  unfold overflowOf
  by_cases product : UInt64.size ≤ degree * count
  · simp [product]
  · simp [product, Nat.lt_of_not_le product]

/-- The total is exact as long as it fits into 64 bits, and otherwise it fails: for the product of
the least degree up to which it is too large if that is too large by itself, and for the sum if it
is not. The statistics are printed unless their total fails. -/
theorem total_overflows_at_least_degree (S : Statistics) :
    (∀ total, S.transitions = .ok total ↔ total = S.exactTotal ∧ S.exactTotal < UInt64.size) ∧
    (UInt64.size ≤ S.exactTotal ↔
      S.transitions = .error .productOverflow ∨ S.transitions = .error .sumOverflow) ∧
    (S.transitions = .error .productOverflow ↔
      ∃ degree count, S.OverflowsAt degree count ∧ UInt64.size ≤ degree * count) ∧
    (S.transitions = .error .sumOverflow ↔
      ∃ degree count, S.OverflowsAt degree count ∧ degree * count < UInt64.size) ∧
    ∀ d, S.text = .error d ↔ S.transitions = .error d := by
  refine ⟨fun _ => transitions_eq_ok_iff, ?_, ?_, ?_, S.text_eq_error_iff⟩
  · cases computed : S.transitions with
    | error d =>
        have large : UInt64.size ≤ S.exactTotal := by
          refine Nat.le_of_not_lt fun fits => ?_
          rw [transitions_eq_ok_iff.mpr ⟨rfl, fits⟩] at computed
          cases computed
        simpa only [large, true_iff, Except.error.injEq] using transitions_eq_error computed
    | ok total =>
        refine iff_of_false (Nat.not_le.mpr (transitions_eq_ok_iff.mp computed).2) ?_
        rintro (failed | failed)
        · cases failed
        · cases failed
  · simp only [transitions_eq_error_iff, overflowOf_eq_productOverflow_iff]
  · simp only [transitions_eq_error_iff, overflowOf_eq_sumOverflow_iff]

/-- The sum is too large before the larger product is looked at. -/
example : transitions ⟨0, 0, .ofList [(3, 2 ^ 63), (1, 2 ^ 64 - 1), (2, 1)]⟩ =
    .error .sumOverflow := by cbv

end Statistics

end PostfixAutomata
