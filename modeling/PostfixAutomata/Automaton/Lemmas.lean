import PostfixAutomata.Automaton

set_option autoImplicit false

/-!
What each operation of the store does to the parts of an automaton: its states, its alphabet and
its rows. With these no other module needs to look into an operation.
-/

namespace PostfixAutomata

namespace Automaton

open TransitionRow

variable {ρ Λ : Type} [TransitionRow ρ Λ]

/-- What leaves a state depends on the rows alone. -/
theorem row_congr {A B : Automaton ρ} (same : A.rows = B.rows) (s : State) :
    A.row s = B.row s := by
  unfold row
  rw [same]

/-- What leaves a state is what is stored for it. -/
theorem row_of_getElem? {A : Automaton ρ} {s : State} {r : ρ} (stored : A.rows[s]? = some r) :
    A.row s = r := by
  rw [row, Std.ExtTreeMap.getD_eq_getD_getElem?, stored, Option.getD_some]

/-! Adding a state. -/

@[simp] theorem ids_insertState (A : Automaton ρ) (s : State) :
    (A.insertState s).ids = A.ids := rfl

@[simp] theorem start_insertState (A : Automaton ρ) (s : State) :
    (A.insertState s).start = A.start := rfl

@[simp] theorem finals_insertState (A : Automaton ρ) (s : State) :
    (A.insertState s).finals = A.finals := rfl

@[simp] theorem alphabet_insertState (A : Automaton ρ) (s : State) :
    (A.insertState s).alphabet = A.alphabet := rfl

@[simp] theorem mem_states_insertState {A : Automaton ρ} {s t : State} :
    t ∈ (A.insertState s).states ↔ s = t ∨ t ∈ A.states := by
  simp [insertState]

@[simp] theorem mem_rows_insertState {A : Automaton ρ} {s t : State} :
    t ∈ (A.insertState s).rows ↔ s = t ∨ t ∈ A.rows := by
  simp [insertState]

/-- A new state has a blank row, which is what it had before. -/
@[simp] theorem row_insertState (A : Automaton ρ) (s t : State) :
    (A.insertState s).row t = A.row t := by
  unfold row insertState
  rw [Std.ExtTreeMap.getD_insertIfNew]
  split
  · rename_i new
    obtain ⟨same, absent⟩ := new
    rw [State.compare_eq_iff] at same
    subst same
    exact (Std.ExtTreeMap.getD_eq_fallback absent).symm
  · rfl

/-! Adding a transition. -/

@[simp] theorem ids_insertTransition (A : Automaton ρ) (p : State) (l : Λ) (q : State) :
    (A.insertTransition p l q).ids = A.ids := rfl

@[simp] theorem start_insertTransition (A : Automaton ρ) (p : State) (l : Λ) (q : State) :
    (A.insertTransition p l q).start = A.start := rfl

@[simp] theorem finals_insertTransition (A : Automaton ρ) (p : State) (l : Λ) (q : State) :
    (A.insertTransition p l q).finals = A.finals := rfl

@[simp] theorem mem_states_insertTransition {A : Automaton ρ} {p q t : State} {l : Λ} :
    t ∈ (A.insertTransition p l q).states ↔ q = t ∨ p = t ∨ t ∈ A.states := by
  simp [insertTransition]

@[simp] theorem mem_rows_insertTransition {A : Automaton ρ} {p q t : State} {l : Λ} :
    t ∈ (A.insertTransition p l q).rows ↔ q = t ∨ p = t ∨ t ∈ A.rows := by
  simp only [insertTransition, Std.ExtTreeMap.mem_insert, State.compare_eq_iff,
    mem_rows_insertState]
  grind

@[simp] theorem mem_alphabet_insertTransition {A : Automaton ρ} {p q : State} {l : Λ} {c : Char} :
    c ∈ (A.insertTransition p l q).alphabet ↔ symbol? ρ l = some c ∨ c ∈ A.alphabet := by
  simp only [insertTransition, Std.ExtTreeSet.mem_insertMany_list, alphabet_insertState]
  cases symbol? ρ l <;> simp [or_comm, eq_comm]

theorem row_insertTransition (A : Automaton ρ) (p q t : State) (l : Λ) :
    (A.insertTransition p l q).row t = if p = t then link (A.row p) l q else A.row t := by
  have unchanged : (((A.insertState p).insertState q).row t) = A.row t := by simp
  unfold row at unchanged ⊢
  simp only [insertTransition, Std.ExtTreeMap.getD_insert, State.compare_eq_iff, unchanged]
  split
  · rw [row_insertState, row_insertState]
    rfl
  · rfl

/-! Adding many. -/

@[simp] theorem insertTransitions_nil (A : Automaton ρ) : A.insertTransitions [] = A := rfl

@[simp] theorem insertTransitions_cons (A : Automaton ρ) (p : State) (l : Λ) (q : State)
    (rest : List (State × Λ × State)) :
    A.insertTransitions ((p, l, q) :: rest) = (A.insertTransition p l q).insertTransitions rest :=
  rfl

@[simp] theorem ids_insertTransitions (A : Automaton ρ) (edges : List (State × Λ × State)) :
    (A.insertTransitions edges).ids = A.ids := by
  induction edges generalizing A with
  | nil => rfl
  | cons edge rest ih => exact ih _

@[simp] theorem start_insertTransitions (A : Automaton ρ) (edges : List (State × Λ × State)) :
    (A.insertTransitions edges).start = A.start := by
  induction edges generalizing A with
  | nil => rfl
  | cons edge rest ih => exact ih _

@[simp] theorem finals_insertTransitions (A : Automaton ρ) (edges : List (State × Λ × State)) :
    (A.insertTransitions edges).finals = A.finals := by
  induction edges generalizing A with
  | nil => rfl
  | cons edge rest ih => exact ih _

theorem mem_states_insertTransitions {A : Automaton ρ} {edges : List (State × Λ × State)}
    {t : State} :
    t ∈ (A.insertTransitions edges).states ↔
      (∃ edge ∈ edges, edge.1 = t ∨ edge.2.2 = t) ∨ t ∈ A.states := by
  induction edges generalizing A with
  | nil => simp
  | cons edge rest ih =>
      obtain ⟨p, l, q⟩ := edge
      rw [insertTransitions_cons, ih]
      simp only [mem_states_insertTransition, List.mem_cons, exists_eq_or_imp]
      grind

theorem mem_rows_insertTransitions {A : Automaton ρ} {edges : List (State × Λ × State)}
    {t : State} :
    t ∈ (A.insertTransitions edges).rows ↔
      (∃ edge ∈ edges, edge.1 = t ∨ edge.2.2 = t) ∨ t ∈ A.rows := by
  induction edges generalizing A with
  | nil => simp
  | cons edge rest ih =>
      obtain ⟨p, l, q⟩ := edge
      rw [insertTransitions_cons, ih]
      simp only [mem_rows_insertTransition, List.mem_cons, exists_eq_or_imp]
      grind

theorem mem_alphabet_insertTransitions {A : Automaton ρ} {edges : List (State × Λ × State)}
    {c : Char} :
    c ∈ (A.insertTransitions edges).alphabet ↔
      (∃ edge ∈ edges, symbol? ρ edge.2.1 = some c) ∨ c ∈ A.alphabet := by
  induction edges generalizing A with
  | nil => simp
  | cons edge rest ih =>
      obtain ⟨p, l, q⟩ := edge
      rw [insertTransitions_cons, ih]
      simp only [mem_alphabet_insertTransition, List.mem_cons, exists_eq_or_imp]
      grind

@[simp] theorem ids_insertStates (A : Automaton ρ) (states : List State) :
    (A.insertStates states).ids = A.ids := by
  induction states generalizing A with
  | nil => rfl
  | cons s rest ih => exact ih _

@[simp] theorem start_insertStates (A : Automaton ρ) (states : List State) :
    (A.insertStates states).start = A.start := by
  induction states generalizing A with
  | nil => rfl
  | cons s rest ih => exact ih _

@[simp] theorem finals_insertStates (A : Automaton ρ) (states : List State) :
    (A.insertStates states).finals = A.finals := by
  induction states generalizing A with
  | nil => rfl
  | cons s rest ih => exact ih _

@[simp] theorem alphabet_insertStates (A : Automaton ρ) (states : List State) :
    (A.insertStates states).alphabet = A.alphabet := by
  induction states generalizing A with
  | nil => rfl
  | cons s rest ih => exact ih _

@[simp] theorem row_insertStates (A : Automaton ρ) (states : List State) (t : State) :
    (A.insertStates states).row t = A.row t := by
  induction states generalizing A with
  | nil => rfl
  | cons s rest ih => exact (ih _).trans (row_insertState A s t)

@[simp] theorem mem_states_insertStates {A : Automaton ρ} {states : List State} {t : State} :
    t ∈ (A.insertStates states).states ↔ t ∈ states ∨ t ∈ A.states := by
  induction states generalizing A with
  | nil => simp [insertStates]
  | cons s rest ih =>
      have tail := ih (A := A.insertState s)
      rw [mem_states_insertState] at tail
      rw [List.mem_cons]
      exact tail.trans (by grind)

@[simp] theorem mem_rows_insertStates {A : Automaton ρ} {states : List State} {t : State} :
    t ∈ (A.insertStates states).rows ↔ t ∈ states ∨ t ∈ A.rows := by
  induction states generalizing A with
  | nil => simp [insertStates]
  | cons s rest ih =>
      have tail := ih (A := A.insertState s)
      rw [mem_rows_insertState] at tail
      rw [List.mem_cons]
      exact tail.trans (by grind)

/-- Adding symbols changes the alphabet and nothing else. -/
theorem insertSymbols_eq (A : Automaton ρ) (symbols : List Char) :
    A.insertSymbols symbols = { A with alphabet := A.alphabet.insertMany symbols } := by
  induction symbols generalizing A with
  | nil => rfl
  | cons c rest ih =>
      refine (ih (A.insertSymbol c)).trans ?_
      rw [Std.ExtTreeSet.insertMany_cons]
      rfl

@[simp] theorem ids_insertSymbols (A : Automaton ρ) (symbols : List Char) :
    (A.insertSymbols symbols).ids = A.ids := by
  rw [insertSymbols_eq]

@[simp] theorem states_insertSymbols (A : Automaton ρ) (symbols : List Char) :
    (A.insertSymbols symbols).states = A.states := by
  rw [insertSymbols_eq]

@[simp] theorem mem_alphabet_insertSymbols {A : Automaton ρ} {symbols : List Char} {c : Char} :
    c ∈ (A.insertSymbols symbols).alphabet ↔ c ∈ symbols ∨ c ∈ A.alphabet := by
  simp [insertSymbols_eq, Std.ExtTreeSet.mem_insertMany_list, or_comm]

@[simp] theorem row_insertSymbols (A : Automaton ρ) (symbols : List Char) (t : State) :
    (A.insertSymbols symbols).row t = A.row t := by
  rw [insertSymbols_eq]
  rfl

end Automaton

end PostfixAutomata
