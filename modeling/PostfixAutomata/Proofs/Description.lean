import PostfixAutomata.Proofs.Automaton.WellFormed

set_option autoImplicit false

/-!
What a description describes, part by part, and the description of an automaton. Building an
automaton from a description adds its parts one by one; an automaton that is built from its own
description comes back as it was, if its rows do.
-/

namespace PostfixAutomata

open TransitionRow

variable {ρ Λ ε : Type} {expand : ε → List (Λ × State)}

/-- The transitions that a description lists, in its order. -/
def Description.edges (expand : ε → List (Λ × State)) (d : Description ε) :
    List (State × Λ × State) :=
  d.transitions.flatMap fun (p, row) => (row.flatMap expand).map (p, ·)

theorem Description.exists_mem_edges {d : Description ε} {has : State × Λ × State → Prop} :
    (∃ edge ∈ d.edges expand, has edge) ↔
      ∃ entry ∈ d.transitions, ∃ edge ∈ entry.2.flatMap expand, has (entry.1, edge) := by
  simp only [edges, List.mem_flatMap, List.mem_map]
  constructor
  · rintro ⟨_, ⟨entry, listed, edge, inRow, rfl⟩, holds⟩
    exact ⟨entry, listed, edge, inRow, holds⟩
  · rintro ⟨entry, listed, edge, inRow, holds⟩
    exact ⟨_, ⟨entry, listed, edge, inRow, rfl⟩, holds⟩

namespace Automaton

variable [TransitionRow ρ Λ] {ids : AllocatorId} {d : Description ε} {t : State} {c : Char}

/-! Rows. -/

/-- Adds transitions to a row. -/
def linkRow (r : ρ) (edges : List (Λ × State)) : ρ :=
  edges.foldl (fun r edge => link r edge.1 edge.2) r

/-- Those of some transitions that leave a state. -/
def leaving (edges : List (State × Λ × State)) (t : State) : List (Λ × State) :=
  (edges.filter (·.1 = t)).map Prod.snd

theorem linkRow_append (r : ρ) (edges rest : List (Λ × State)) :
    linkRow r (edges ++ rest) = linkRow (linkRow r edges) rest :=
  List.foldl_append

theorem leaving_append (edges rest : List (State × Λ × State)) (t : State) :
    leaving (edges ++ rest) t = leaving edges t ++ leaving rest t := by
  rw [leaving, List.filter_append, List.map_append]
  rfl

/-- Of the transitions of one state either all leave a state or none. -/
theorem leaving_map (p t : State) (edges : List (Λ × State)) :
    leaving (edges.map (p, ·)) t = if p = t then edges else [] := by
  by_cases same : p = t
  · simp [leaving, List.filter_map, Function.comp_def, same]
  · simp [leaving, List.filter_map, Function.comp_def, same]

theorem row_insertTransitions (A : Automaton ρ) (edges : List (State × Λ × State)) (t : State) :
    (A.insertTransitions edges).row t = linkRow (A.row t) (leaving edges t) := by
  induction edges generalizing A with
  | nil => rfl
  | cons edge rest ih =>
      obtain ⟨p, l, q⟩ := edge
      rw [insertTransitions_cons, ih, row_insertTransition]
      by_cases same : p = t
      · have first : leaving ((p, l, q) :: rest) t = (l, q) :: leaving rest t := by
          simp [leaving, same]
        rw [if_pos same, first, same]
        rfl
      · have others : leaving ((p, l, q) :: rest) t = leaving rest t := by
          simp [leaving, same]
        rw [if_neg same, others]

/-! The steps that lead from a description to an automaton. -/

/-- The automaton of a description, before transitions are added. -/
def marked (ids : AllocatorId) (d : Description ε) : Automaton ρ :=
  d.finals.foldl (fun A s => A.setFinal s true)
    (d.start.elim ((empty ids).insertStates d.states) ((empty ids).insertStates d.states).setStart)

/-- Adds a state with some transitions. -/
def insertRow (expand : ε → List (Λ × State)) (A : Automaton ρ) (entry : State × List ε) :
    Automaton ρ :=
  (A.insertState entry.1).insertTransitions ((entry.2.flatMap expand).map (entry.1, ·))

theorem ofDescription_eq (expand : ε → List (Λ × State)) (ids : AllocatorId) (d : Description ε) :
    (ofDescription expand ids d : Automaton ρ) =
      (d.transitions.foldl (insertRow expand) (marked ids d)).insertSymbols d.alphabet := rfl

theorem start_marked : (marked ids d : Automaton ρ).start = d.start := by
  have step : ∀ (B : Automaton ρ) (s : State), (B.setFinal s true).start = B.start :=
    fun B s => rfl
  rw [marked, foldl_eq Automaton.start step]
  cases d.start with
  | none => exact start_insertStates _ _
  | some s => rfl

theorem mem_finals_marked : t ∈ (marked ids d : Automaton ρ).finals ↔ t ∈ d.finals := by
  have step : ∀ (B : Automaton ρ) (s : State),
      t ∈ (B.setFinal s true).finals ↔ s = t ∨ t ∈ B.finals := by
    intro B s
    simp [setFinal]
  have first : t ∉ (d.start.elim ((empty ids).insertStates d.states)
      ((empty ids).insertStates d.states).setStart : Automaton ρ).finals := by
    cases d.start with
    | none => simp [empty]
    | some s => simp [setStart, empty]
  rw [marked, foldl_iff (fun B => t ∈ B.finals) step, or_iff_left first]
  simp

theorem mem_states_marked : t ∈ (marked ids d : Automaton ρ).states ↔
    t ∈ d.states ∨ d.start = some t ∨ t ∈ d.finals := by
  have step : ∀ (B : Automaton ρ) (s : State),
      t ∈ (B.setFinal s true).states ↔ s = t ∨ t ∈ B.states :=
    fun B s => mem_states_insertState
  rw [marked, foldl_iff (fun B => t ∈ B.states) step]
  cases d.start with
  | none => simp [empty, or_comm]
  | some s => simp [setStart, empty, or_comm, or_assoc, or_left_comm]

theorem alphabet_marked : (marked ids d : Automaton ρ).alphabet = ∅ := by
  have step : ∀ (B : Automaton ρ) (s : State), (B.setFinal s true).alphabet = B.alphabet :=
    fun B s => rfl
  rw [marked, foldl_eq Automaton.alphabet step]
  cases d.start with
  | none => exact alphabet_insertStates _ _
  | some s => exact alphabet_insertStates _ _

theorem row_marked : (marked ids d : Automaton ρ).row t = blank := by
  have step : ∀ (B : Automaton ρ) (s : State), (B.setFinal s true).row t = B.row t :=
    fun B s => row_insertState B s t
  have start : (empty ids : Automaton ρ).row t = blank := Std.ExtTreeMap.getD_empty
  rw [marked, foldl_eq (fun B => B.row t) step]
  cases d.start with
  | none => exact (row_insertStates _ _ t).trans start
  | some s => exact (row_insertState _ s t).trans ((row_insertStates _ _ t).trans start)

section InsertRow

variable (A : Automaton ρ) (entry : State × List ε)

theorem start_insertRow : (A.insertRow expand entry).start = A.start :=
  start_insertTransitions _ _

theorem finals_insertRow : (A.insertRow expand entry).finals = A.finals :=
  finals_insertTransitions _ _

theorem mem_states_insertRow : t ∈ (A.insertRow expand entry).states ↔
    (entry.1 = t ∨ ∃ edge ∈ entry.2.flatMap expand, edge.2 = t) ∨ t ∈ A.states := by
  rw [insertRow, mem_states_insertTransitions, mem_states_insertState]
  simp only [List.mem_map, Prod.exists]
  grind

theorem mem_alphabet_insertRow : c ∈ (A.insertRow expand entry).alphabet ↔
    (∃ edge ∈ entry.2.flatMap expand, symbol? ρ edge.1 = some c) ∨ c ∈ A.alphabet := by
  rw [insertRow, mem_alphabet_insertTransitions, alphabet_insertState]
  simp only [List.mem_map, Prod.exists]
  grind

theorem row_insertRow : (A.insertRow expand entry).row t =
    linkRow (A.row t) (if entry.1 = t then entry.2.flatMap expand else []) := by
  rw [insertRow, row_insertTransitions, row_insertState, leaving_map]

end InsertRow

/-! The parts of the automaton of a description. -/

theorem start_ofDescription :
    (ofDescription expand ids d : Automaton ρ).start = d.start := by
  rw [ofDescription_eq, insertSymbols_eq]
  exact (foldl_eq Automaton.start start_insertRow _ _).trans start_marked

theorem mem_finals_ofDescription :
    t ∈ (ofDescription expand ids d : Automaton ρ).finals ↔ t ∈ d.finals := by
  rw [ofDescription_eq, insertSymbols_eq, foldl_eq Automaton.finals finals_insertRow]
  exact mem_finals_marked

theorem mem_states_ofDescription :
    t ∈ (ofDescription expand ids d : Automaton ρ).states ↔
      t ∈ d.states ∨ d.start = some t ∨ t ∈ d.finals ∨ (∃ entry ∈ d.transitions, entry.1 = t) ∨
        ∃ edge ∈ d.edges expand, edge.2.2 = t := by
  rw [ofDescription_eq, states_insertSymbols,
    foldl_iff (fun B => t ∈ B.states) mem_states_insertRow, mem_states_marked,
    Description.exists_mem_edges]
  simp only [and_or_left, exists_or]
  rw [or_comm, or_assoc, or_assoc]

theorem mem_alphabet_ofDescription :
    c ∈ (ofDescription expand ids d : Automaton ρ).alphabet ↔
      c ∈ d.alphabet ∨ ∃ edge ∈ d.edges expand, symbol? ρ edge.2.1 = some c := by
  rw [ofDescription_eq, mem_alphabet_insertSymbols,
    foldl_iff (fun B => c ∈ B.alphabet) mem_alphabet_insertRow, alphabet_marked,
    or_iff_left Std.ExtTreeSet.not_mem_empty, Description.exists_mem_edges]

theorem row_foldl_insertRow (rows : List (State × List ε)) (A : Automaton ρ) (t : State) :
    (rows.foldl (insertRow expand) A).row t =
      linkRow (A.row t) (leaving (rows.flatMap fun (p, row) =>
        (row.flatMap expand).map (p, ·)) t) := by
  induction rows generalizing A with
  | nil => rfl
  | cons entry rest ih =>
      rw [List.foldl_cons, ih, row_insertRow, List.flatMap_cons, leaving_append, leaving_map,
        linkRow_append]

/-- A row takes up the transitions of its state in their order. -/
theorem row_ofDescription :
    (ofDescription expand ids d : Automaton ρ).row t =
      linkRow blank (leaving (d.edges expand) t) := by
  rw [ofDescription_eq, row_insertSymbols, row_foldl_insertRow, row_marked]
  rfl

/-- An automaton with what a description names anywhere, and with nothing else. -/
structure DescribedBy (expand : ε → List (Λ × State)) (d : Description ε) (A : Automaton ρ) :
    Prop where
  start_eq : A.start = d.start
  mem_states : ∀ {s : State}, s ∈ A.states ↔
    s ∈ d.states ∨ d.start = some s ∨ s ∈ d.finals ∨ (∃ entry ∈ d.transitions, entry.1 = s) ∨
      ∃ edge ∈ d.edges expand, edge.2.2 = s
  mem_finals : ∀ {s : State}, s ∈ A.finals ↔ s ∈ d.finals
  mem_edgeList : ∀ {edge : State × Λ × State}, edge ∈ A.edgeList ↔ edge ∈ d.edges expand
  mem_alphabet : ∀ {c : Char}, c ∈ A.alphabet ↔
    c ∈ d.alphabet ∨ ∃ edge ∈ d.edges expand, symbol? ρ edge.2.1 = some c

omit [TransitionRow ρ Λ] in
theorem mem_leaving {edges : List (State × Λ × State)} {l : Λ} {q : State} :
    (l, q) ∈ leaving edges t ↔ (t, l, q) ∈ edges := by
  simp only [leaving, List.mem_map, List.mem_filter, decide_eq_true_eq, Prod.exists, Prod.mk.injEq]
  constructor
  · rintro ⟨p, m, s, ⟨member, rfl⟩, rfl, rfl⟩
    exact member
  · intro member
    exact ⟨t, l, q, ⟨member, rfl⟩, rfl, rfl⟩

/-! The description of an automaton. -/

section Described

variable {rows : List (State × ρ)} {r : ρ} {A : Automaton ρ}

theorem leaving_rows_of_absent (absent : ∀ entry ∈ rows, entry.1 ≠ t) :
    leaving (rows.flatMap fun (s, row) => (edges row).map (s, ·)) t = [] := by
  induction rows with
  | nil => rfl
  | cons entry rest ih =>
      rw [List.flatMap_cons, leaving_append, leaving_map, if_neg (absent entry List.mem_cons_self),
        ih fun entry member => absent entry (List.mem_cons_of_mem _ member)]
      rfl

theorem leaving_rows_of_mem (distinct : rows.Pairwise fun a b => a.1 ≠ b.1)
    (member : (t, r) ∈ rows) :
    leaving (rows.flatMap fun (s, row) => (edges row).map (s, ·)) t = edges r := by
  induction rows with
  | nil => cases member
  | cons entry rest ih =>
      obtain ⟨others, distinct⟩ := List.pairwise_cons.mp distinct
      rw [List.flatMap_cons, leaving_append, leaving_map]
      rcases List.mem_cons.mp member with rfl | later
      · rw [if_pos rfl, leaving_rows_of_absent fun entry listed => (others entry listed).symm,
          List.append_nil]
      · rw [if_neg (others _ later), ih distinct later, List.nil_append]

variable [LawfulTransitionRow ρ]

open LawfulTransitionRow

theorem tidy_linkRow (tidy : Tidy r) (edges : List (Λ × State)) : Tidy (linkRow r edges) := by
  induction edges generalizing r with
  | nil => exact tidy
  | cons edge rest ih => exact ih (tidy_link edge.1 edge.2 tidy)

/-- Among all transitions, those of a state are those of its row. -/
theorem leaving_edgeList (A : Automaton ρ) (t : State) :
    leaving A.edgeList t = edges (A.row t) := by
  cases stored : A.rows[t]? with
  | none =>
      have blankRow : A.row t = blank := by
        rw [row, Std.ExtTreeMap.getD_eq_getD_getElem?, stored, Option.getD_none]
      rw [blankRow, edges_blank]
      refine leaving_rows_of_absent fun entry listed same => ?_
      rw [← same, Std.ExtTreeMap.mem_toList_iff_getElem?_eq_some.mp listed] at stored
      cases stored
  | some r =>
      have distinct : A.rows.toList.Pairwise fun a b => a.1 ≠ b.1 :=
        Std.ExtTreeMap.distinct_keys_toList.imp fun different same =>
          different (State.compare_eq_iff.mpr same)
      rw [row_of_getElem? stored]
      exact leaving_rows_of_mem distinct (Std.ExtTreeMap.mem_toList_iff_getElem?_eq_some.mpr stored)

/-- A description describes its automaton if rows take up all of its transitions. -/
theorem describedBy_ofDescription (takes : ∀ p l q,
      (l, q) ∈ edges (linkRow (blank : ρ) (leaving (d.edges expand) p)) ↔
        (l, q) ∈ leaving (d.edges expand) p) :
    DescribedBy expand d (ofDescription expand ids d : Automaton ρ) where
  start_eq := start_ofDescription
  mem_states := mem_states_ofDescription
  mem_finals := mem_finals_ofDescription
  mem_edgeList := by
    rintro ⟨p, l, q⟩
    rw [← mem_leaving, leaving_edgeList, row_ofDescription, takes, mem_leaving]
  mem_alphabet := mem_alphabet_ofDescription

/-- Rows that are written as entries come back from them. -/
structure Lossless (entries : ρ → List ε) (expand : ε → List (Λ × State)) : Prop where
  edges_eq : ∀ r, (entries r).flatMap expand = edges r
  linkRow_eq : ∀ {r : ρ}, Tidy r → linkRow blank (edges r) = r

variable {entries : ρ → List ε}

omit [LawfulTransitionRow ρ] in
theorem edges_describe (expands : ∀ r, (entries r).flatMap expand = edges r) (A : Automaton ρ) :
    (describe entries A).edges expand = A.edgeList := by
  simp only [Description.edges, describe, List.flatMap_map, expands]
  rfl

/-- A well-formed automaton comes back from its description, with any counter. -/
theorem ofDescription_describe (lossless : Lossless entries expand) (valid : A.WellFormed)
    (ids : AllocatorId) : ofDescription expand ids (describe entries A) = { A with ids } := by
  have again : WellFormed { A with ids } :=
    ⟨valid.start_mem, valid.finals_subset, valid.mem_rows, valid.target_mem, valid.symbol_mem,
      valid.tidy⟩
  refine ext_of_wellFormed (.ofDescription expand ids _) again (ids_ofDescription expand ids _)
    start_ofDescription ?_ ?_ ?_ ?_
  · intro s
    rw [mem_states_ofDescription, edges_describe lossless.edges_eq]
    refine ⟨?_, fun member => .inl (Std.ExtTreeSet.mem_toList.mpr member)⟩
    rintro (member | start | final | ⟨entry, listed, rfl⟩ | ⟨edge, listed, rfl⟩)
    · exact Std.ExtTreeSet.mem_toList.mp member
    · exact valid.start_mem start
    · exact valid.finals_subset (Std.ExtTreeSet.mem_toList.mp final)
    · obtain ⟨⟨p, row⟩, stored, rfl⟩ := List.mem_map.mp listed
      refine valid.mem_rows.mp (Std.ExtTreeMap.mem_iff_isSome_getElem?.mpr ?_)
      rw [Std.ExtTreeMap.mem_toList_iff_getElem?_eq_some.mp stored]
      rfl
    · exact (valid.of_mem_edgeList listed).2.1
  · intro s
    rw [mem_finals_ofDescription]
    exact Std.ExtTreeSet.mem_toList
  · intro c
    rw [mem_alphabet_ofDescription, edges_describe lossless.edges_eq]
    refine ⟨?_, fun member => .inl (Std.ExtTreeSet.mem_toList.mpr member)⟩
    rintro (member | ⟨edge, listed, reads⟩)
    · exact Std.ExtTreeSet.mem_toList.mp member
    · exact (valid.of_mem_edgeList listed).2.2 reads
  · intro p
    rw [row_ofDescription, edges_describe lossless.edges_eq, leaving_edgeList]
    exact lossless.linkRow_eq (valid.tidy p)

end Described

end Automaton

end PostfixAutomata
