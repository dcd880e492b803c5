import Mathlib.Data.List.Perm.Subperm
import PostfixAutomata.Label
import PostfixAutomata.State

set_option autoImplicit false

/-!
Further facts on sets of states, and how large alphabets can be.
-/

namespace PostfixAutomata

namespace StateSet

theorem mem_insert_iff {S : StateSet} {s t : State} : s ∈ S.insert t ↔ s = t ∨ s ∈ S := by
  rw [Std.ExtTreeSet.mem_insert, State.compare_eq_iff, eq_comm]

theorem mem_singleton_iff {s t : State} : s ∈ ({t} : StateSet) ↔ s = t := by
  change s ∈ (∅ : StateSet).insert t ↔ _
  rw [mem_insert_iff]
  exact or_iff_left Std.ExtTreeSet.not_mem_empty

theorem singleton_inj {s t : State} : ({s} : StateSet) = {t} ↔ s = t := by
  constructor
  · intro same
    have member := mem_singleton_iff.mpr (Eq.refl s)
    rw [same] at member
    exact mem_singleton_iff.mp member
  · rintro rfl
    rfl

theorem singleton_ne_empty (s : State) : ({s} : StateSet) ≠ ∅ := by
  intro nothing
  have member := mem_singleton_iff.mpr (Eq.refl s)
  rw [nothing] at member
  exact Std.ExtTreeSet.not_mem_empty member

theorem mem_filter_iff {S : StateSet} {keep : State → Bool} {s : State} :
    s ∈ S.filter keep ↔ s ∈ S ∧ keep s = true := by
  rw [Std.ExtTreeSet.mem_filter]
  simp only [Std.ExtTreeSet.get_eq, exists_prop]

theorem ext_iff {S T : StateSet} : S = T ↔ ∀ s, s ∈ S ↔ s ∈ T :=
  ⟨fun same _ => same ▸ Iff.rfl, Std.ExtTreeSet.ext_mem⟩

theorem nodup_toList (S : StateSet) : S.toList.Nodup :=
  S.distinct_toList.imp fun apart same => apart (State.compare_eq_iff.mpr same)

theorem size_eq_length {S : StateSet} (states : List State) (distinct : states.Nodup)
    (same : ∀ s, s ∈ S ↔ s ∈ states) : S.size = states.length := by
  have listed : S.toList.Perm states := by
    apply (List.perm_ext_iff_of_nodup S.nodup_toList distinct).mpr
    intro s
    rw [Std.ExtTreeSet.mem_toList, same]
  rw [← Std.ExtTreeSet.length_toList, listed.length_eq]

theorem size_le_length {S : StateSet} (states : List State) (listed : ∀ s ∈ S, s ∈ states) :
    S.size ≤ states.length := by
  rw [← Std.ExtTreeSet.length_toList]
  exact (List.subperm_of_subset S.nodup_toList fun s member =>
    listed s (Std.ExtTreeSet.mem_toList.mp member)).length_le

theorem exists_mem_of_ne_empty {S : StateSet} (some : S ≠ ∅) : ∃ s, s ∈ S := by
  apply Classical.byContradiction
  intro nothing
  exact some (Std.ExtTreeSet.eq_empty_iff_forall_not_mem.mpr fun s member => nothing ⟨s, member⟩)

end StateSet

namespace Alphabet

/-- Symbols out of a range are no more than the numbers of the range. -/
theorem size_le_of_range {alphabet : Alphabet} (low count : Nat)
    (inside : ∀ c ∈ alphabet, low ≤ c.toNat ∧ c.toNat < low + count) : alphabet.size ≤ count := by
  have nodup : (alphabet.toList.map Char.toNat).Nodup := by
    refine List.pairwise_map.mpr (alphabet.distinct_toList.imp ?_)
    intro c d apart same
    exact apart (Std.LawfulEqCmp.compare_eq_iff_eq.mpr (Char.toNat_inj.mp same))
  have subset : alphabet.toList.map Char.toNat ⊆ List.range' low count := by
    intro n member
    obtain ⟨c, listed, rfl⟩ := List.mem_map.mp member
    exact List.mem_range'_1.mpr (inside c (Std.ExtTreeSet.mem_toList.mp listed))
  have length := (List.subperm_of_subset nodup subset).length_le
  simpa using length

/-- There are no more symbols than code points. -/
theorem size_le (alphabet : Alphabet) : alphabet.size ≤ 0x110000 := by
  apply size_le_of_range 0
  intro c _
  have scalar : c.toNat.isValidChar := c.valid
  unfold Nat.isValidChar at scalar
  omega

end Alphabet

end PostfixAutomata
