import PostfixAutomata.Proofs.Nfa.Operators

set_option autoImplicit false

/-!
Merging two automata part by part: the states and the alphabet of one are put to those of the other,
and its rows are moved into the table as they are stored, set by set. No state is added on the way,
so what is referred to is there only because both automata are well-formed. For well-formed automata
this is `absorb`, whether or not they have states in common.
-/

namespace PostfixAutomata

section MergeInto

variable {κ β γ : Type} [Ord κ] [Std.TransOrd κ]

/-- Moves one entry into `m`; `f` puts it to what is there already. -/
def mergeEntry (f : β → γ → β) (fallback : β) (m : Std.ExtTreeMap κ β) (entry : κ × γ) :
    Std.ExtTreeMap κ β :=
  m.insert entry.1 (f (m.getD entry.1 fallback) entry.2)

/-- Moves all entries of `other` into `m`. -/
def mergeInto (f : β → γ → β) (fallback : β) (m : Std.ExtTreeMap κ β)
    (other : Std.ExtTreeMap κ γ) : Std.ExtTreeMap κ β :=
  other.toList.foldl (mergeEntry f fallback) m

variable {f : β → γ → β} {fallback : β} {entries : List (κ × γ)} {m : Std.ExtTreeMap κ β} {k : κ}

/-- Entries under other keys do not matter to a key. -/
theorem getElem?_mergeEntries_of_absent (absent : ∀ entry ∈ entries, ¬compare entry.1 k = .eq) :
    (entries.foldl (mergeEntry f fallback) m)[k]? = m[k]? := by
  induction entries generalizing m with
  | nil => rfl
  | cons entry rest ih =>
      rw [List.foldl_cons, ih fun entry member => absent entry (List.mem_cons_of_mem _ member),
        mergeEntry, Std.ExtTreeMap.getElem?_insert, if_neg (absent entry List.mem_cons_self)]

theorem getElem?_mergeEntries_of_mem {v : γ}
    (distinct : entries.Pairwise fun a b => ¬compare a.1 b.1 = .eq) (member : (k, v) ∈ entries) :
    (entries.foldl (mergeEntry f fallback) m)[k]? = some (f (m.getD k fallback) v) := by
  induction entries generalizing m with
  | nil => cases member
  | cons entry rest ih =>
      obtain ⟨others, distinct⟩ := List.pairwise_cons.mp distinct
      rw [List.foldl_cons]
      rcases List.mem_cons.mp member with rfl | later
      · have absent : ∀ entry ∈ rest, ¬compare entry.1 k = .eq :=
          fun entry listed same => others entry listed (Std.OrientedCmp.eq_symm same)
        rw [getElem?_mergeEntries_of_absent absent, mergeEntry,
          Std.ExtTreeMap.getElem?_insert_self]
      · rw [ih distinct later, mergeEntry, Std.ExtTreeMap.getD_insert, if_neg (others _ later)]

variable [Std.LawfulEqOrd κ]

theorem getElem?_mergeInto (m : Std.ExtTreeMap κ β) (other : Std.ExtTreeMap κ γ) (k : κ) :
    (mergeInto f fallback m other)[k]? =
      other[k]?.elim m[k]? fun v => some (f (m.getD k fallback) v) := by
  unfold mergeInto
  cases stored : other[k]? with
  | none =>
      apply getElem?_mergeEntries_of_absent
      intro entry listed same
      obtain rfl := Std.LawfulEqCmp.compare_eq_iff_eq.mp same
      rw [Std.ExtTreeMap.mem_toList_iff_getElem?_eq_some.mp listed] at stored
      cases stored
  | some v =>
      exact getElem?_mergeEntries_of_mem Std.ExtTreeMap.distinct_keys_toList
        (Std.ExtTreeMap.mem_toList_iff_getElem?_eq_some.mpr stored)

theorem mem_mergeInto {m : Std.ExtTreeMap κ β} {other : Std.ExtTreeMap κ γ} {k : κ} :
    k ∈ mergeInto f fallback m other ↔ k ∈ m ∨ k ∈ other := by
  simp only [Std.ExtTreeMap.mem_iff_isSome_getElem?, getElem?_mergeInto]
  cases other[k]? <;> simp

end MergeInto

namespace Nfa

namespace Row

/-- The destinations that either row has. -/
def merge (r t : Nfa.Row) : Nfa.Row := mergeInto (fun own targets => own ∪ targets) ∅ r t

theorem mem_destinations_merge {r t : Nfa.Row} {l : Label} {q : State} :
    q ∈ (r.merge t).destinations l ↔ q ∈ r.destinations l ∨ q ∈ t.destinations l := by
  simp only [destinations, merge, Std.ExtTreeMap.getD_eq_getD_getElem?, getElem?_mergeInto]
  cases t[l]? <;> simp

/-- A merge of tidy rows stores no empty set either. -/
theorem tidy_merge {r t : Nfa.Row} (tidyR : LawfulTransitionRow.Tidy r)
    (tidyT : LawfulTransitionRow.Tidy t) : LawfulTransitionRow.Tidy (r.merge t) := by
  intro l targets stored
  rw [merge, getElem?_mergeInto] at stored
  cases entry : t[l]? with
  | none =>
      rw [entry] at stored
      exact tidyR stored
  | some added =>
      rw [entry] at stored
      cases stored
      obtain ⟨q, member⟩ := StateSet.exists_mem_of_ne_empty (tidyT entry)
      intro nothing
      have inside : q ∈ r.getD l ∅ ∪ added := Std.ExtTreeSet.mem_union_of_right member
      rw [nothing] at inside
      exact Std.ExtTreeSet.not_mem_empty inside

/-- Tidy rows are equal if they have the same destinations. -/
theorem ext_of_tidy {r t : Nfa.Row} (tidyR : LawfulTransitionRow.Tidy r)
    (tidyT : LawfulTransitionRow.Tidy t) (same : ∀ l q, q ∈ r.destinations l ↔ q ∈ t.destinations l) :
    r = t := by
  have equal : ∀ l, r.destinations l = t.destinations l := fun l => StateSet.ext_iff.mpr (same l)
  refine Std.ExtTreeMap.ext_getElem? fun l => ?_
  have here := equal l
  simp only [destinations, Std.ExtTreeMap.getD_eq_getD_getElem?] at here
  cases inR : r[l]? with
  | none =>
      cases inT : t[l]? with
      | none => rfl
      | some targets =>
          rw [inR, inT] at here
          exact absurd here.symm (tidyT inT)
  | some targets =>
      cases inT : t[l]? with
      | none =>
          rw [inR, inT] at here
          exact absurd here (tidyR inR)
      | some others =>
          rw [inR, inT] at here
          exact congrArg some here

end Row

/-- Moves the parts of `B` into `A` as they are stored; start and final states stay. -/
def merge (A B : Nfa) : Nfa :=
  { A with
    states := A.states ∪ B.states
    alphabet := A.alphabet ∪ B.alphabet
    rows := mergeInto Row.merge ∅ A.rows B.rows }

section Merge

variable {A B : Nfa}

theorem mem_states_merge {s : State} : s ∈ (A.merge B).states ↔ s ∈ A.states ∨ s ∈ B.states :=
  Std.ExtTreeSet.mem_union_iff

theorem mem_alphabet_merge {c : Char} :
    c ∈ (A.merge B).alphabet ↔ c ∈ A.alphabet ∨ c ∈ B.alphabet :=
  Std.ExtTreeSet.mem_union_iff

theorem row_merge (p : State) :
    (A.merge B).row p = B.rows[p]?.elim (A.row p) (A.row p).merge := by
  change (mergeInto Row.merge ∅ A.rows B.rows).getD p ∅ = _
  rw [Std.ExtTreeMap.getD_eq_getD_getElem?, getElem?_mergeInto]
  cases B.rows[p]? with
  | none => exact Std.ExtTreeMap.getD_eq_getD_getElem?.symm
  | some row => rfl

theorem mem_targets_merge {p q : State} {l : Label} :
    q ∈ (A.merge B).targets p l ↔ q ∈ A.targets p l ∨ q ∈ B.targets p l := by
  simp only [targets_eq_destinations]
  rw [row_merge]
  cases stored : B.rows[p]? with
  | none =>
      have blankRow : B.row p = ∅ := by
        rw [Automaton.row, Std.ExtTreeMap.getD_eq_getD_getElem?, stored]
        rfl
      rw [blankRow, Option.elim_none]
      simp [Row.destinations]
  | some row =>
      rw [Automaton.row_of_getElem? stored, Option.elim_some]
      exact Row.mem_destinations_merge

/-- What is moved over is there afterwards because it was there before. -/
theorem wellFormed_merge (validA : A.WellFormed) (validB : B.WellFormed) :
    (A.merge B).WellFormed := by
  have edge : ∀ {p q : State} {l : Label}, (l, q) ∈ TransitionRow.edges ((A.merge B).row p) →
      (l, q) ∈ TransitionRow.edges (A.row p) ∨ (l, q) ∈ TransitionRow.edges (B.row p) := by
    intro p q l inside
    simp only [mem_edges_row] at inside ⊢
    exact mem_targets_merge.mp inside
  refine ⟨?_, ?_, ?_, ?_, ?_, ?_⟩
  · intro s start
    exact mem_states_merge.mpr (.inl (validA.start_mem start))
  · intro s final
    exact mem_states_merge.mpr (.inl (validA.finals_subset final))
  · intro s
    rw [mem_states_merge, ← validA.mem_rows, ← validB.mem_rows]
    exact mem_mergeInto
  · intro p q l inside
    exact mem_states_merge.mpr ((edge inside).imp validA.target_mem validB.target_mem)
  · intro p q l c inside reads
    exact mem_alphabet_merge.mpr ((edge inside).imp (validA.symbol_mem · reads)
      (validB.symbol_mem · reads))
  · intro p
    rw [row_merge]
    cases stored : B.rows[p]? with
    | none => exact validA.tidy p
    | some row =>
        have tidyB : LawfulTransitionRow.Tidy row :=
          Automaton.row_of_getElem? stored ▸ validB.tidy p
        exact @Row.tidy_merge _ _ (validA.tidy p) tidyB

/-- Well-formed automata are equal if they have the same states, symbols and transitions. -/
theorem ext_of_wellFormed (validA : A.WellFormed) (validB : B.WellFormed) (ids : A.ids = B.ids)
    (start : A.start = B.start) (finals : A.finals = B.finals)
    (states : ∀ s, s ∈ A.states ↔ s ∈ B.states) (alphabet : ∀ c, c ∈ A.alphabet ↔ c ∈ B.alphabet)
    (targets : ∀ p l q, q ∈ A.targets p l ↔ q ∈ B.targets p l) : A = B := by
  refine Automaton.ext_of_wellFormed validA validB ids start states ?_ alphabet ?_
  · intro s
    rw [finals]
  · intro p
    refine Row.ext_of_tidy (validA.tidy p) (validB.tidy p) fun l q => ?_
    rw [← targets_eq_destinations, ← targets_eq_destinations]
    exact targets p l q

/-- Adding states and transitions one by one comes to the same as moving whole rows. -/
theorem absorb_eq_merge (validA : A.WellFormed) (validB : B.WellFormed) :
    A.absorb B = A.merge B := by
  refine ext_of_wellFormed (wellFormed_absorb validA) (wellFormed_merge validA validB) ?_ ?_ ?_ ?_
    ?_ ?_
  · simp [absorb, merge]
  · simp [absorb, merge, Automaton.insertSymbols_eq]
  · simp [absorb, merge, Automaton.insertSymbols_eq]
  · intro s
    rw [mem_states_absorb validB, mem_states_merge]
  · intro c
    rw [mem_alphabet_absorb validB, mem_alphabet_merge]
  · intro p l q
    rw [mem_targets_absorb, mem_targets_merge, or_comm]

end Merge

end Nfa

end PostfixAutomata
