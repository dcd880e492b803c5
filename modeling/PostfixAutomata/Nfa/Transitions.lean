import PostfixAutomata.Automaton.Lemmas
import PostfixAutomata.Nfa.Operators

set_option autoImplicit false

/-!
The transitions of nondeterministic automata as a relation: `q ∈ A.targets p l` says that there is
a transition from `p` to `q` under `l`. Each operator adds just the transitions that it names.
-/

namespace PostfixAutomata

namespace Nfa

theorem targets_eq_destinations (A : Nfa) (p : State) (l : Label) :
    A.targets p l = (A.row p).destinations l :=
  Std.ExtTreeMap.getD_eq_getD_getElem?.symm

theorem Row.destinations_link (r : Nfa.Row) (l m : Label) (q : State) :
    Row.destinations (TransitionRow.link r l q) m =
      if l = m then (r.destinations l).insert q else r.destinations m := by
  simp [Row.destinations, TransitionRow.link, Std.ExtTreeMap.getD_insert]

@[simp] theorem targets_empty (ids : AllocatorId) (p : State) (l : Label) :
    targets (Automaton.empty ids) p l = ∅ := by
  simp [targets_eq_destinations, Automaton.empty, Automaton.row, Row.destinations,
    TransitionRow.blank]

/-- Only the rows matter. -/
theorem targets_congr {A B : Nfa} (same : ∀ p, A.row p = B.row p) (p : State) (l : Label) :
    A.targets p l = B.targets p l := by
  rw [targets_eq_destinations, targets_eq_destinations, same]

@[simp] theorem targets_insertState (A : Nfa) (s p : State) (l : Label) :
    targets (A.insertState s) p l = A.targets p l :=
  targets_congr (A.row_insertState s) p l

@[simp] theorem targets_insertStates (A : Nfa) (states : List State) (p : State) (l : Label) :
    targets (A.insertStates states) p l = A.targets p l :=
  targets_congr (A.row_insertStates states) p l

@[simp] theorem targets_insertSymbols (A : Nfa) (symbols : List Char) (p : State) (l : Label) :
    targets (A.insertSymbols symbols) p l = A.targets p l :=
  targets_congr (A.row_insertSymbols symbols) p l

theorem targets_insertTransition (A : Nfa) (p q p' : State) (l l' : Label) :
    targets (A.insertTransition p l q) p' l' =
      if p = p' ∧ l = l' then (A.targets p l).insert q else A.targets p' l' := by
  simp only [targets_eq_destinations, Automaton.row_insertTransition]
  by_cases samePlace : p = p'
  · subst samePlace
    simp only [↓reduceIte, true_and, Row.destinations_link]
  · simp only [samePlace, ↓reduceIte, false_and]

theorem mem_targets_insertTransition {A : Nfa} {p q p' q' : State} {l l' : Label} :
    q' ∈ targets (A.insertTransition p l q) p' l' ↔
      (p', l', q') = (p, l, q) ∨ q' ∈ A.targets p' l' := by
  rw [targets_insertTransition]
  by_cases same : p = p' ∧ l = l'
  · obtain ⟨rfl, rfl⟩ := same
    simp only [and_self, ↓reduceIte, Std.ExtTreeSet.mem_insert, State.compare_eq_iff]
    grind
  · rw [if_neg same]
    grind

theorem mem_targets_insertTransitions {A : Nfa} {edges : List (State × Label × State)}
    {p q : State} {l : Label} :
    q ∈ targets (A.insertTransitions edges) p l ↔ (p, l, q) ∈ edges ∨ q ∈ A.targets p l := by
  induction edges generalizing A with
  | nil => simp
  | cons edge rest ih =>
      obtain ⟨p', l', q'⟩ := edge
      rw [Automaton.insertTransitions_cons, ih, mem_targets_insertTransition, List.mem_cons]
      grind

/-- The listed transitions are the transitions. -/
theorem mem_edgeList {A : Nfa} {p q : State} {l : Label} :
    (p, l, q) ∈ A.edgeList ↔ q ∈ A.targets p l := by
  simp only [Automaton.edgeList, TransitionRow.edges, List.mem_flatMap, List.mem_map, Prod.exists,
    Prod.mk.injEq, Std.ExtTreeMap.mem_toList_iff_getElem?_eq_some, Std.ExtTreeSet.mem_toList]
  constructor
  · rintro ⟨p', row, found, l', q', ⟨l'', T, entry, q'', member, rfl, rfl⟩, rfl, rfl, rfl⟩
    simp [targets, targets?, Automaton.row, Std.ExtTreeMap.getD_eq_getD_getElem?, found, entry,
      member]
  · intro member
    cases found : A.rows[p]? with
    | none =>
        simp [targets, targets?, Automaton.row, Std.ExtTreeMap.getD_eq_getD_getElem?, found,
          TransitionRow.blank] at member
    | some row =>
        have shape : A.row p = row := by
          simp [Automaton.row, Std.ExtTreeMap.getD_eq_getD_getElem?, found]
        cases entry : row[l]? with
        | none => simp [targets, targets?, shape, entry] at member
        | some T =>
            refine ⟨p, row, found, l, q, ⟨l, T, entry, q, ?_, rfl, rfl⟩, rfl, rfl, rfl⟩
            simpa [targets, targets?, shape, entry] using member

theorem mem_targets_linkAll {A : Nfa} {sources : List State} {target p q : State} {l : Label} :
    q ∈ targets (A.linkAll sources target) p l ↔
      (p ∈ sources ∧ l = .epsilon ∧ q = target) ∨ q ∈ A.targets p l := by
  simp only [linkAll, mem_targets_insertTransitions, List.mem_map, Prod.mk.injEq]
  grind

theorem mem_targets_linkTo {A : Nfa} {source p q : State} {ends : List State} {l : Label} :
    q ∈ targets (A.linkTo source ends) p l ↔
      (p = source ∧ l = .epsilon ∧ q ∈ ends) ∨ q ∈ A.targets p l := by
  simp only [linkTo, mem_targets_insertTransitions, List.mem_map, Prod.mk.injEq]
  grind

theorem mem_targets_absorb {A B : Nfa} {p q : State} {l : Label} :
    q ∈ (A.absorb B).targets p l ↔ q ∈ B.targets p l ∨ q ∈ A.targets p l := by
  simp [absorb, mem_targets_insertTransitions, mem_edgeList]

/-- A literal has its one transition. -/
theorem mem_targets_literalWith {ids : AllocatorId} {l m : Label} {start stop p q : State} :
    q ∈ (literalWith ids l start stop).targets p m ↔ p = start ∧ m = l ∧ q = stop := by
  change q ∈ targets ((Automaton.empty ids : Nfa).insertTransition start l stop) p m ↔ _
  rw [mem_targets_insertTransition]
  simp

/-- Appending links the final states of the first automaton to the start of the second. -/
theorem mem_targets_append {A B : Nfa} {p q : State} {l : Label} :
    q ∈ (A.append B).targets p l ↔
      (p ∈ A.finals ∧ l = .epsilon ∧ B.start = some q) ∨ q ∈ B.targets p l ∨
        q ∈ A.targets p l := by
  change q ∈ targets (B.start.elim (A.absorb B) ((A.absorb B).linkAll A.finals.toList)) p l ↔ _
  cases B.start with
  | none => simp [mem_targets_absorb]
  | some start => simp [mem_targets_linkAll, mem_targets_absorb, eq_comm]

/-- A union leads from its start to those of its parts, and from their final states to its own. -/
theorem mem_targets_unionWith {A B : Nfa} {start stop p q : State} {l : Label} :
    q ∈ (A.unionWith B start stop).targets p l ↔
      ((p ∈ A.finals ∨ p ∈ B.finals) ∧ l = .epsilon ∧ q = stop) ∨
        (p = start ∧ l = .epsilon ∧ (A.start = some q ∨ B.start = some q)) ∨
        q ∈ B.targets p l ∨ q ∈ A.targets p l := by
  change q ∈ targets (linkAll (linkTo ((A.absorb B).insertStates [start, stop]) start
    (A.start.toList ++ B.start.toList)) (A.finals.toList ++ B.finals.toList) stop) p l ↔ _
  rw [mem_targets_linkAll, mem_targets_linkTo, targets_insertStates, mem_targets_absorb]
  simp

/-- A star leads around in a circle, and through the automaton on the way forward. -/
theorem mem_targets_starWith {A : Nfa} {start stop p q : State} {l : Label} :
    q ∈ (A.starWith start stop).targets p l ↔
      (p ∈ A.finals ∧ l = .epsilon ∧ q = stop) ∨ (p = stop ∧ l = .epsilon ∧ q = start) ∨
        (p = start ∧ l = .epsilon ∧ (q = stop ∨ A.start = some q)) ∨ q ∈ A.targets p l := by
  change q ∈ targets (linkAll (linkTo (linkTo A start (stop :: A.start.toList)) stop [start])
    A.finals.toList stop) p l ↔ _
  rw [mem_targets_linkAll, mem_targets_linkTo, mem_targets_linkTo]
  simp

end Nfa

end PostfixAutomata
