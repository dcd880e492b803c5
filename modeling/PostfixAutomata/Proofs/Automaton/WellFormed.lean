import PostfixAutomata.Automaton.Lemmas
import PostfixAutomata.Description

set_option autoImplicit false

/-!
The invariant of the store. Every state has a row and only states have rows; whatever an automaton
refers to, it contains. The operations of the store keep it, whichever kind of row they work on, and
a description leads to an automaton that has it.
-/

namespace PostfixAutomata

open TransitionRow

/-- What a kind of row promises: a blank row has no transitions, and a link adds none but its own.
A tidy row holds nothing that stands for no transition. -/
class LawfulTransitionRow (ρ : Type) {Λ : outParam Type} [TransitionRow ρ Λ] where
  Tidy : ρ → Prop
  tidy_blank : Tidy blank
  tidy_link {r : ρ} (l : Λ) (q : State) : Tidy r → Tidy (link r l q)
  edges_blank : edges (blank : ρ) = []
  of_mem_edges_link {r : ρ} {l m : Λ} {q t : State} :
    (m, t) ∈ edges (link r l q) → (m = l ∧ t = q) ∨ (m, t) ∈ edges r

namespace Automaton

open LawfulTransitionRow

variable {ρ Λ : Type} [TransitionRow ρ Λ] [LawfulTransitionRow ρ]

/-- Whatever the automaton refers to, it contains. -/
structure WellFormed (A : Automaton ρ) : Prop where
  start_mem : ∀ {s : State}, A.start = some s → s ∈ A.states
  finals_subset : ∀ {s : State}, s ∈ A.finals → s ∈ A.states
  mem_rows : ∀ {s : State}, s ∈ A.rows ↔ s ∈ A.states
  target_mem : ∀ {p q : State} {l : Λ}, (l, q) ∈ edges (A.row p) → q ∈ A.states
  symbol_mem : ∀ {p q : State} {l : Λ} {c : Char},
    (l, q) ∈ edges (A.row p) → symbol? ρ l = some c → c ∈ A.alphabet
  tidy : ∀ p : State, Tidy (A.row p)

namespace WellFormed

variable {A : Automaton ρ}

/-- Transitions leave states only. -/
theorem source_mem (valid : A.WellFormed) {p q : State} {l : Λ} (edge : (l, q) ∈ edges (A.row p)) :
    p ∈ A.states := by
  rw [← valid.mem_rows]
  apply Decidable.byContradiction
  intro absent
  have blankRow : A.row p = blank := Std.ExtTreeMap.getD_eq_fallback absent
  rw [blankRow, edges_blank] at edge
  cases edge

theorem of_mem_edgeList (valid : A.WellFormed) {edge : State × Λ × State}
    (member : edge ∈ A.edgeList) :
    edge.1 ∈ A.states ∧ edge.2.2 ∈ A.states ∧
      ∀ {c : Char}, symbol? ρ edge.2.1 = some c → c ∈ A.alphabet := by
  simp only [edgeList, List.mem_flatMap, List.mem_map, Prod.exists] at member
  obtain ⟨p, row, stored, l, q, inRow, rfl⟩ := member
  rw [Std.ExtTreeMap.mem_toList_iff_getElem?_eq_some] at stored
  rw [← row_of_getElem? stored] at inRow
  exact ⟨valid.source_mem inRow, valid.target_mem inRow, valid.symbol_mem inRow⟩

protected theorem empty (ids : AllocatorId) : (Automaton.empty ids : Automaton ρ).WellFormed := by
  have blankRow : ∀ p, (Automaton.empty ids : Automaton ρ).row p = blank :=
    fun _ => Std.ExtTreeMap.getD_empty
  refine ⟨nofun, fun member => absurd member Std.ExtTreeSet.not_mem_empty, ?_, ?_, ?_, ?_⟩
  · intro s
    exact iff_of_false Std.ExtTreeMap.not_mem_empty Std.ExtTreeSet.not_mem_empty
  · intro p q l edge
    rw [blankRow, edges_blank] at edge
    cases edge
  · intro p q l c edge
    rw [blankRow, edges_blank] at edge
    cases edge
  · intro p
    rw [blankRow]
    exact tidy_blank

/-- Start and final states may be chosen anew among the states. -/
theorem marks (valid : A.WellFormed) {start : Option State} {finals : StateSet}
    (startMember : ∀ {s : State}, start = some s → s ∈ A.states)
    (finalsMember : ∀ {s : State}, s ∈ finals → s ∈ A.states) :
    WellFormed { A with start, finals } :=
  ⟨startMember, finalsMember, valid.mem_rows, valid.target_mem, valid.symbol_mem, valid.tidy⟩

/-- A fold keeps the invariant if its step does. -/
theorem foldl {α : Type} {step : Automaton ρ → α → Automaton ρ}
    (keeps : ∀ {B : Automaton ρ} (a : α), B.WellFormed → (step B a).WellFormed)
    (valid : A.WellFormed) (items : List α) : (items.foldl step A).WellFormed := by
  induction items generalizing A with
  | nil => exact valid
  | cons a rest ih => exact ih (keeps a valid)

theorem insertState (valid : A.WellFormed) (s : State) : (A.insertState s).WellFormed := by
  have kept : ∀ {t : State}, t ∈ A.states → t ∈ (A.insertState s).states :=
    fun member => mem_states_insertState.mpr (.inr member)
  refine ⟨fun same => kept (valid.start_mem same), fun member => kept (valid.finals_subset member),
    ?_, ?_, ?_, ?_⟩
  · intro t
    rw [mem_rows_insertState, mem_states_insertState, valid.mem_rows]
  · intro p q l edge
    rw [row_insertState] at edge
    exact kept (valid.target_mem edge)
  · intro p q l c edge
    rw [row_insertState] at edge
    exact valid.symbol_mem edge
  · intro p
    rw [row_insertState]
    exact valid.tidy p

theorem insertStates (valid : A.WellFormed) (states : List State) :
    (A.insertStates states).WellFormed :=
  valid.foldl (fun s inner => inner.insertState s) states

theorem insertSymbols (valid : A.WellFormed) (symbols : List Char) :
    (A.insertSymbols symbols).WellFormed := by
  rw [insertSymbols_eq]
  refine ⟨valid.start_mem, valid.finals_subset, valid.mem_rows, valid.target_mem, ?_, valid.tidy⟩
  intro p q l c edge reads
  exact Std.ExtTreeSet.mem_insertMany_list.mpr (.inl (valid.symbol_mem edge reads))

theorem insertSymbol (valid : A.WellFormed) (c : Char) : (A.insertSymbol c).WellFormed :=
  valid.insertSymbols [c]

theorem setStart (valid : A.WellFormed) (s : State) : (A.setStart s).WellFormed := by
  have inserted := valid.insertState s
  refine inserted.marks ?_ inserted.finals_subset
  rintro t ⟨⟩
  exact mem_states_insertState.mpr (.inl rfl)

theorem setFinal (valid : A.WellFormed) (s : State) (accept : Bool) :
    (A.setFinal s accept).WellFormed := by
  have inserted := valid.insertState s
  refine inserted.marks inserted.start_mem ?_
  intro t member
  rw [mem_states_insertState]
  cases accept with
  | true =>
      rcases Std.ExtTreeSet.mem_insert.mp member with same | member
      · exact .inl (State.compare_eq_iff.mp same)
      · exact .inr (valid.finals_subset member)
  | false => exact .inr (valid.finals_subset (Std.ExtTreeSet.mem_erase.mp member).2)

theorem insertTransition (valid : A.WellFormed) (p : State) (l : Λ) (q : State) :
    (A.insertTransition p l q).WellFormed := by
  have kept : ∀ {t : State}, t ∈ A.states → t ∈ (A.insertTransition p l q).states :=
    fun member => mem_states_insertTransition.mpr (.inr (.inr member))
  -- A transition afterwards is either the new one or one that was there.
  have edgeCases : ∀ {s t : State} {m : Λ}, (m, t) ∈ edges ((A.insertTransition p l q).row s) →
      (m = l ∧ t = q) ∨ (m, t) ∈ edges (A.row s) := by
    intro s t m edge
    rw [row_insertTransition] at edge
    split at edge
    · rename_i same
      subst same
      exact of_mem_edges_link edge
    · exact .inr edge
  refine ⟨fun same => kept (valid.start_mem same), fun member => kept (valid.finals_subset member),
    ?_, ?_, ?_, ?_⟩
  · intro t
    rw [mem_rows_insertTransition, mem_states_insertTransition, valid.mem_rows]
  · intro s t m edge
    rcases edgeCases edge with ⟨_, rfl⟩ | edge
    · exact mem_states_insertTransition.mpr (.inl rfl)
    · exact kept (valid.target_mem edge)
  · intro s t m c edge reads
    rw [mem_alphabet_insertTransition]
    rcases edgeCases edge with ⟨rfl, _⟩ | edge
    · exact .inl reads
    · exact .inr (valid.symbol_mem edge reads)
  · intro s
    rw [row_insertTransition]
    split
    · exact tidy_link l q (valid.tidy p)
    · exact valid.tidy s

theorem insertTransitions (valid : A.WellFormed) (edges : List (State × Λ × State)) :
    (A.insertTransitions edges).WellFormed :=
  valid.foldl (fun edge inner => inner.insertTransition edge.1 edge.2.1 edge.2.2) edges

/-- Every description, consistent or not, leads to a well-formed automaton. -/
theorem ofDescription {ε : Type} (expand : ε → List (Λ × State)) (ids : AllocatorId)
    (d : Description ε) : (Automaton.ofDescription expand ids d : Automaton ρ).WellFormed := by
  have named := (WellFormed.empty (ρ := ρ) ids).insertStates d.states
  have started : (d.start.elim ((Automaton.empty ids : Automaton ρ).insertStates d.states)
      ((Automaton.empty ids : Automaton ρ).insertStates d.states).setStart).WellFormed := by
    cases d.start with
    | none => exact named
    | some s => exact named.setStart s
  have marked := started.foldl (fun s inner => inner.setFinal s true) d.finals
  refine insertSymbols (marked.foldl ?_ d.transitions) d.alphabet
  intro B entry inner
  exact (inner.insertState entry.1).insertTransitions _

end WellFormed

/-- Well-formed automata are equal if they have the same parts, state by state. -/
theorem ext_of_wellFormed {A B : Automaton ρ} (validA : A.WellFormed) (validB : B.WellFormed)
    (ids : A.ids = B.ids) (start : A.start = B.start) (states : ∀ s, s ∈ A.states ↔ s ∈ B.states)
    (finals : ∀ s, s ∈ A.finals ↔ s ∈ B.finals) (alphabet : ∀ c, c ∈ A.alphabet ↔ c ∈ B.alphabet)
    (row : ∀ p, A.row p = B.row p) : A = B := by
  have rows : A.rows = B.rows := by
    refine Std.ExtTreeMap.ext_getElem? fun p => ?_
    have same := row p
    have keys : p ∈ A.rows ↔ p ∈ B.rows := by
      rw [validA.mem_rows, validB.mem_rows, states]
    simp only [Std.ExtTreeMap.mem_iff_isSome_getElem?] at keys
    cases inA : A.rows[p]? with
    | none =>
        rw [inA] at keys
        cases inB : B.rows[p]? with
        | none => rfl
        | some row => simp [inB] at keys
    | some row =>
        rw [inA] at keys
        cases inB : B.rows[p]? with
        | none => simp [inB] at keys
        | some other =>
            rw [row_of_getElem? inA, row_of_getElem? inB] at same
            exact congrArg some same
  have sameStates : A.states = B.states := Std.ExtTreeSet.ext_mem states
  have sameFinals : A.finals = B.finals := Std.ExtTreeSet.ext_mem finals
  have sameAlphabet : A.alphabet = B.alphabet := Std.ExtTreeSet.ext_mem alphabet
  cases A
  cases B
  simp_all

/-! Folds, by their steps. -/

section Folds

omit [TransitionRow ρ Λ] [LawfulTransitionRow ρ]

variable {α β : Type} {step : Automaton ρ → α → Automaton ρ}

/-- A part that no step changes. -/
theorem foldl_eq (part : Automaton ρ → β) (keeps : ∀ B a, part (step B a) = part B)
    (items : List α) (A : Automaton ρ) : part (items.foldl step A) = part A := by
  induction items generalizing A with
  | nil => rfl
  | cons a rest ih => exact (ih _).trans (keeps A a)

/-- Something that each step may add. -/
theorem foldl_iff (has : Automaton ρ → Prop) {adds : α → Prop}
    (grows : ∀ B a, has (step B a) ↔ adds a ∨ has B) (items : List α) (A : Automaton ρ) :
    has (items.foldl step A) ↔ (∃ a ∈ items, adds a) ∨ has A := by
  induction items generalizing A with
  | nil => simp
  | cons a rest ih =>
      rw [List.foldl_cons, ih, grows]
      simp only [List.mem_cons, exists_eq_or_imp]
      rw [← or_assoc, or_comm (a := ∃ a ∈ rest, adds a)]

end Folds

omit [LawfulTransitionRow ρ] in
theorem ids_ofDescription {ε : Type} (expand : ε → List (Λ × State)) (ids : AllocatorId)
    (d : Description ε) : (Automaton.ofDescription expand ids d : Automaton ρ).ids = ids := by
  refine (ids_insertSymbols _ _).trans ((foldl_eq Automaton.ids ?_ _ _).trans
    ((foldl_eq Automaton.ids ?_ _ _).trans ?_))
  · exact fun B entry => ids_insertTransitions _ _
  · exact fun B s => rfl
  · cases d.start with
    | none => exact ids_insertStates _ _
    | some s => exact ids_insertStates _ _

end Automaton

end PostfixAutomata
