import Mathlib.Data.List.Perm.Subperm
import Mathlib.Computability.Language
import PostfixAutomata.Dfa.Transitions
import PostfixAutomata.Proofs.Automaton.WellFormed

set_option autoImplicit false

/-!
Runs of deterministic automata and the language that they accept. A run of a well-formed automaton
stays among its states and reads symbols of its alphabet only.
-/

namespace PostfixAutomata

open TransitionRow

namespace Dfa

namespace Row

theorem mem_edges_iff {r : Dfa.Row} {c : Char} {q : State} :
    (c, q) ∈ edges r ↔ r[c]? = some q :=
  Std.ExtTreeMap.mem_toList_iff_getElem?_eq_some

theorem nodup_edges (r : Dfa.Row) : (edges r).Nodup :=
  r.distinct_keys_toList.imp fun apart same =>
    apart (Std.LawfulEqCmp.compare_eq_iff_eq.mpr (congrArg Prod.fst same))

/-- Every row is tidy: what it stores are its transitions. -/
instance : LawfulTransitionRow Dfa.Row where
  Tidy _ := True
  tidy_blank := trivial
  tidy_link _ _ _ := trivial
  edges_blank := by
    apply List.eq_nil_iff_forall_not_mem.mpr
    rintro ⟨c, q⟩ edge
    rw [mem_edges_iff] at edge
    change (∅ : Dfa.Row)[c]? = some q at edge
    rw [Std.ExtTreeMap.getElem?_empty] at edge
    cases edge
  of_mem_edges_link {r c d q t} edge := by
    rw [mem_edges_iff] at edge ⊢
    change (r.insert c q)[d]? = some t at edge
    rw [Std.ExtTreeMap.getElem?_insert] at edge
    split at edge
    · rename_i same
      cases edge
      exact .inl ⟨(Std.LawfulEqCmp.compare_eq_iff_eq.mp same).symm, rfl⟩
    · exact .inr edge

end Row

theorem mem_edges_row {D : Dfa} {p q : State} {c : Char} :
    (c, q) ∈ edges (D.row p) ↔ D.target? p c = some q :=
  Row.mem_edges_iff

/-- The inputs that the automaton accepts. -/
def language (D : Dfa) : Language Char := {input | D.accepts input = true}

theorem mem_language_iff {D : Dfa} {input : List Char} :
    input ∈ D.language ↔ D.accepts input = true := Iff.rfl

theorem accepts_iff_of_start {D : Dfa} {start : State} (found : D.start = some start)
    {input : List Char} :
    D.accepts input = true ↔ ∃ stop, D.runFrom start input = some stop ∧ stop ∈ D.finals := by
  unfold accepts
  rw [found, Option.bind_some]
  cases reached : D.runFrom start input <;> simp

theorem accepts_iff {D : Dfa} {input : List Char} :
    D.accepts input = true ↔
      ∃ start stop, D.start = some start ∧ D.runFrom start input = some stop ∧ stop ∈ D.finals := by
  cases found : D.start with
  | none => simp [accepts_of_start_eq_none found]
  | some start => simp [accepts_iff_of_start found]

/-- The states that transitions lead to from the start. -/
inductive Reached (D : Dfa) : State → Prop
  | start {s : State} : D.start = some s → Reached D s
  | step {p q : State} {c : Char} : Reached D p → D.target? p c = some q → Reached D q

/-- Every state has a destination on every symbol of the alphabet. -/
def Complete (D : Dfa) : Prop := ∀ s ∈ D.states, ∀ c ∈ D.alphabet, ∃ t, D.target? s c = some t

theorem Reached.runFrom {D : Dfa} {p q : State} {input : List Char} (reached : D.Reached p)
    (ran : D.runFrom p input = some q) : D.Reached q := by
  induction input generalizing p with
  | nil =>
      cases ran
      exact reached
  | cons c input ih =>
      obtain ⟨next, edge, rest⟩ := Option.bind_eq_some_iff.mp ran
      exact ih (reached.step edge) rest

theorem complete_iff {D : Dfa} : D.Complete ↔ D.missing = [] := by
  rw [List.eq_nil_iff_forall_not_mem]
  constructor
  · rintro complete ⟨s, c⟩ undefined
    obtain ⟨member, symbol, nothing⟩ := mem_missing.mp undefined
    obtain ⟨t, edge⟩ := complete s member c symbol
    exact absurd (nothing.symm.trans edge) nofun
  · intro nothingMissing s member c symbol
    apply Option.isSome_iff_exists.mp
    apply Option.isSome_iff_ne_none.mpr
    intro nothing
    exact nothingMissing (s, c) (mem_missing.mpr ⟨member, symbol, nothing⟩)

instance (D : Dfa) : Decidable D.Complete := decidable_of_iff _ complete_iff.symm

/-- Only the rows matter for runs. -/
theorem runFrom_congr {D E : Dfa} (same : ∀ p, D.row p = E.row p) (p : State)
    (input : List Char) : D.runFrom p input = E.runFrom p input := by
  induction input generalizing p with
  | nil => rfl
  | cons c input ih => simp only [runFrom, target?_congr same, ih]

section WellFormed

variable {D : Dfa} {p q : State} {c : Char}

theorem source_mem (valid : D.WellFormed) (edge : D.target? p c = some q) : p ∈ D.states :=
  valid.source_mem (mem_edges_row.mpr edge)

theorem target_mem (valid : D.WellFormed) (edge : D.target? p c = some q) : q ∈ D.states :=
  valid.target_mem (mem_edges_row.mpr edge)

theorem symbol_mem (valid : D.WellFormed) (edge : D.target? p c = some q) : c ∈ D.alphabet :=
  valid.symbol_mem (mem_edges_row.mpr edge) rfl

/-- A state goes to one state under each symbol at most. -/
theorem outDegree_le (valid : D.WellFormed) (p : State) : D.outDegree p ≤ D.alphabet.size := by
  let listed : List (Char × State) :=
    D.alphabet.toList.map fun c => (c, (D.target? p c).getD p)
  have subset : edges (D.row p) ⊆ listed := by
    intro edge member
    obtain ⟨c, q⟩ := edge
    have target := mem_edges_row.mp member
    have symbol := symbol_mem valid target
    simp [listed, symbol, target]
  have length : listed.length = D.alphabet.size := by simp [listed]
  rw [← length]
  exact (List.subperm_of_subset (Row.nodup_edges _) subset).length_le

theorem runFrom_mem_states (valid : D.WellFormed) {input : List Char} (member : p ∈ D.states)
    (reached : D.runFrom p input = some q) : q ∈ D.states := by
  induction input generalizing p with
  | nil =>
      cases reached
      exact member
  | cons c input ih =>
      obtain ⟨next, edge, rest⟩ := Option.bind_eq_some_iff.mp reached
      exact ih (target_mem valid edge) rest

theorem Reached.mem_states (valid : D.WellFormed) (reached : D.Reached p) : p ∈ D.states := by
  induction reached with
  | start found => exact valid.start_mem found
  | step _ edge _ => exact target_mem valid edge

theorem runFrom_over_alphabet (valid : D.WellFormed) {input : List Char}
    (reached : D.runFrom p input = some q) : ∀ d ∈ input, d ∈ D.alphabet := by
  induction input generalizing p with
  | nil => exact nofun
  | cons c input ih =>
      obtain ⟨next, edge, rest⟩ := Option.bind_eq_some_iff.mp reached
      intro d member
      rcases List.mem_cons.mp member with rfl | later
      · exact symbol_mem valid edge
      · exact ih rest d later

/-- What is accepted is written in the alphabet. -/
theorem over_alphabet_of_accepts (valid : D.WellFormed) {input : List Char}
    (accepted : D.accepts input = true) : ∀ d ∈ input, d ∈ D.alphabet := by
  obtain ⟨start, stop, _, reached, _⟩ := accepts_iff.mp accepted
  exact runFrom_over_alphabet valid reached

end WellFormed

end Dfa

end PostfixAutomata
