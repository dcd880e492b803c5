import Std.Data.ExtTreeSet

set_option autoImplicit false

/-!
States of finite automata. A state is a 32-bit identifier and nothing more; sets of states are
ordered by identifier and equal when they have the same members. The bound on their size,
`StateSet.size_le`, is what makes every search through states end.
-/

namespace PostfixAutomata

/-- An automaton state, known by its identifier alone. -/
structure State where
  id : Nat
  id_lt : id < UInt32.size
deriving DecidableEq

namespace State

/-- The state with a given identifier, if the identifier fits into 32 bits. -/
def ofNat? (id : Nat) : Option State :=
  if fits : id < UInt32.size then some ⟨id, fits⟩ else none

/-- A state is written as its identifier in decimal. -/
def text (s : State) : String := toString s.id

@[ext] theorem ext {s t : State} (same : s.id = t.id) : s = t := by
  cases s
  cases t
  exact (State.mk.injEq ..).mpr same

instance : Ord State := ⟨compareOn id⟩

instance : Std.TransOrd State := inferInstanceAs (Std.TransCmp (compareOn id))

instance : Std.LawfulEqOrd State where
  eq_of_compare same := State.ext (Std.LawfulEqOrd.eq_of_compare same)

theorem ofNat?_eq_some_iff {n : Nat} {s : State} : ofNat? n = some s ↔ s.id = n := by
  unfold ofNat?
  split
  · rw [Option.some.injEq]
    exact ⟨fun same => same ▸ rfl, fun same => State.ext same.symm⟩
  · rename_i large
    constructor
    · intro impossible
      cases impossible
    · intro same
      exact absurd (same ▸ s.id_lt) large

@[simp] theorem compare_eq_iff {s t : State} : compare s t = .eq ↔ s = t :=
  Std.LawfulEqCmp.compare_eq_iff_eq

theorem compare_lt_iff {s t : State} : compare s t = .lt ↔ s.id < t.id :=
  Nat.compare_eq_lt

end State

/-- A finite set of states, listed in ascending order. -/
abbrev StateSet := Std.ExtTreeSet State

namespace StateSet

private theorem length_le_of_ascending (bound : Nat) (numbers : List Nat)
    (ascending : numbers.Pairwise (· < ·)) (lower : Nat)
    (inside : ∀ n ∈ numbers, lower ≤ n ∧ n < bound) : numbers.length ≤ bound - lower := by
  induction numbers generalizing lower with
  | nil => simp
  | cons n rest ih =>
      obtain ⟨above, ascending⟩ := List.pairwise_cons.mp ascending
      have first := inside n (by simp)
      have remaining := ih ascending (n + 1) fun m member =>
        ⟨above m member, (inside m (by simp [member])).2⟩
      simp only [List.length_cons]
      omega

theorem ids_ascending (S : StateSet) : (S.toList.map State.id).Pairwise (· < ·) := by
  rw [List.pairwise_map]
  exact S.ordered_toList.imp State.compare_lt_iff.mp

/-- There are no more states than identifiers. -/
theorem size_le (S : StateSet) : S.size ≤ UInt32.size := by
  have bounded := length_le_of_ascending (UInt32.size) (S.toList.map State.id) S.ids_ascending 0 (by
    intro n member
    obtain ⟨s, _, rfl⟩ := List.mem_map.mp member
    exact ⟨Nat.zero_le _, s.id_lt⟩)
  simpa using bounded

instance : Ord StateSet := ⟨compareOn Std.ExtTreeSet.toList⟩

instance : Std.TransOrd StateSet :=
  inferInstanceAs (Std.TransCmp (compareOn (Std.ExtTreeSet.toList : StateSet → List State)))

instance : Std.LawfulEqOrd StateSet where
  eq_of_compare same := Std.ExtTreeSet.toList_inj.mp (Std.LawfulEqOrd.eq_of_compare same)

end StateSet

end PostfixAutomata
