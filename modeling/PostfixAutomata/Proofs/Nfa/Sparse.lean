import PostfixAutomata.Proofs.Dfa.Conversion
import PostfixAutomata.Proofs.Nfa.Language
import PostfixAutomata.Proofs.State

set_option autoImplicit false

/-!
How many transitions leave a state. The operators give a state one destination under a symbol and
two under ε at most, and a final state only one under ε, so that an operator can still link it.
-/

namespace PostfixAutomata

namespace Nfa

/-- One destination under each symbol and two under ε at most. -/
structure SparseAt (A : Nfa) (p : State) : Prop where
  symbol_unique : ∀ {q r : State} {c : Char}, q ∈ A.targets p (.symbol c) →
    r ∈ A.targets p (.symbol c) → q = r
  epsilon_two : ∃ x y, ∀ q ∈ A.targets p .epsilon, q = x ∨ q = y

structure Sparse (A : Nfa) : Prop where
  everywhere : ∀ p : State, A.SparseAt p
  final_unique : ∀ {p q r : State}, p ∈ A.finals → q ∈ A.targets p .epsilon →
    r ∈ A.targets p .epsilon → q = r

variable {A B C : Nfa} {p : State}

/-- What at most one state satisfies, some state bounds. -/
theorem exists_bound {property : State → Prop} (p : State)
    (unique : ∀ {q r : State}, property q → property r → q = r) :
    ∃ x, ∀ q, property q → q = x := by
  by_cases inhabited : ∃ x, property x
  · obtain ⟨x, holds⟩ := inhabited
    exact ⟨x, fun q holdsToo => unique holdsToo holds⟩
  · exact ⟨p, fun q holds => absurd ⟨q, holds⟩ inhabited⟩

theorem sparseAt_of_no_targets (none : ∀ q l, q ∉ A.targets p l) : A.SparseAt p :=
  ⟨fun edge => absurd edge (none _ _), p, p, fun q edge => absurd edge (none q _)⟩

/-- If all that leaves a state leaves it under ε, to two states at most, it is sparse there. -/
theorem sparseAt_of_epsilon {x y : State}
    (only : ∀ {q l}, q ∈ A.targets p l → l = .epsilon ∧ (q = x ∨ q = y)) : A.SparseAt p :=
  ⟨fun edge => absurd (only edge).1 (by simp), x, y, fun _ edge => (only edge).2⟩

theorem SparseAt.size_symbol_le (sparse : A.SparseAt p) (c : Char) :
    (A.targets p (.symbol c)).size ≤ 1 := by
  obtain ⟨x, only⟩ := exists_bound p fun edge edge' => sparse.symbol_unique edge edge'
  exact StateSet.size_le_length [x] fun q edge => List.mem_singleton.mpr (only q edge)

theorem SparseAt.size_epsilon_le (sparse : A.SparseAt p) : (A.targets p .epsilon).size ≤ 2 := by
  obtain ⟨x, y, only⟩ := sparse.epsilon_two
  exact StateSet.size_le_length [x, y] fun q edge => List.mem_pair.mpr (only q edge)

theorem Sparse.size_final_le (sparse : A.Sparse) (final : p ∈ A.finals) :
    (A.targets p .epsilon).size ≤ 1 := by
  obtain ⟨x, only⟩ := exists_bound p fun edge edge' => sparse.final_unique final edge edge'
  exact StateSet.size_le_length [x] fun q edge => List.mem_singleton.mpr (only q edge)

/-- An exit out of the final states, to one state at most, leaves the operand sparse. -/
theorem Sparse.extends (sparse : A.Sparse) {exits : State → Prop} (extend : C.Extends A exits)
    (single : ∀ {q r : State}, exits q → exits r → q = r) (member : p ∈ A.states) :
    C.SparseAt p := by
  have symbols : ∀ {q : State} {c : Char}, q ∈ C.targets p (.symbol c) →
      q ∈ A.targets p (.symbol c) := by
    intro q c edge
    cases (extend member).mp edge with
    | inl left => cases left.2.1
    | inr inner => exact inner
  refine ⟨fun edge edge' => (sparse.everywhere p).symbol_unique (symbols edge) (symbols edge'), ?_⟩
  by_cases final : p ∈ A.finals
  · obtain ⟨x, inner⟩ := exists_bound p fun edge edge' => sparse.final_unique final edge edge'
    obtain ⟨y, outer⟩ := exists_bound p single
    refine ⟨x, y, ?_⟩
    intro q edge
    cases (extend member).mp edge with
    | inl left => exact .inr (outer q left.2.2)
    | inr edge => exact .inl (inner q edge)
  · obtain ⟨x, y, bounded⟩ := (sparse.everywhere p).epsilon_two
    refine ⟨x, y, ?_⟩
    intro q edge
    cases (extend member).mp edge with
    | inl left => exact absurd left.1 final
    | inr edge => exact bounded q edge

theorem sparse_literalWith (ids : AllocatorId) (l : Label) (start stop : State) :
    (literalWith ids l start stop).Sparse := by
  have edges := @mem_targets_literalWith ids l
  have single : ∀ {p q r : State} {m : Label}, q ∈ (literalWith ids l start stop).targets p m →
      r ∈ (literalWith ids l start stop).targets p m → q = r := by
    intro p q r m edge edge'
    rw [(edges.mp edge).2.2, (edges.mp edge').2.2]
  refine ⟨fun p => ⟨single, stop, stop, ?_⟩, fun _ => single⟩
  intro q edge
  exact .inl (edges.mp edge).2.2

theorem sparse_append (validA : A.WellFormed) (validB : B.WellFormed)
    (apart : ∀ s ∈ A.states, s ∉ B.states) (sparseA : A.Sparse) (sparseB : B.Sparse) :
    (A.append B).Sparse := by
  have first := extends_append_first apart validB
  have second := extends_append_second apart validA
  constructor
  · intro p
    by_cases inA : p ∈ A.states
    · refine sparseA.extends first ?_ inA
      intro q r begun begun'
      rw [begun] at begun'
      exact Option.some.inj begun'
    · by_cases inB : p ∈ B.states
      · exact sparseB.extends second (fun absurd _ => absurd.elim) inB
      · apply sparseAt_of_no_targets
        intro q l edge
        rcases mem_targets_append.mp edge with ⟨final, _⟩ | edge | edge
        · exact inA (validA.finals_subset final)
        · exact inB (source_mem validB edge)
        · exact inA (source_mem validA edge)
  · intro p q r final edge edge'
    change p ∈ B.finals at final
    have inner : ∀ {q}, q ∈ (A.append B).targets p .epsilon → q ∈ B.targets p .epsilon := by
      intro q edge
      exact ((second (validB.finals_subset final)).mp edge).resolve_left fun left => left.2.2
    exact sparseB.final_unique final (inner edge) (inner edge')

theorem sparse_unionWith (validA : A.WellFormed) (validB : B.WellFormed)
    (apart : ∀ s ∈ A.states, s ∉ B.states) {start stop : State} (different : start ≠ stop)
    (freshStart : start ∉ A.states ∧ start ∉ B.states)
    (freshStop : stop ∉ A.states ∧ stop ∉ B.states) (sparseA : A.Sparse) (sparseB : B.Sparse) :
    (A.unionWith B start stop).Sparse := by
  have first := extends_unionWith_first apart validB stop freshStart.1
  have second := extends_unionWith_second apart validA stop freshStart.2
  constructor
  · intro p
    by_cases inA : p ∈ A.states
    · exact sparseA.extends first (fun same same' => same.trans same'.symm) inA
    · by_cases inB : p ∈ B.states
      · exact sparseB.extends second (fun same same' => same.trans same'.symm) inB
      · refine sparseAt_of_epsilon (x := A.start.getD p) (y := B.start.getD p) ?_
        intro q l edge
        obtain ⟨_, silent, begun⟩ := (mem_targets_unionWith_outside validA validB inA inB).mp edge
        refine ⟨silent, begun.imp ?_ ?_⟩
        · intro found
          rw [found, Option.getD_some]
        · intro found
          rw [found, Option.getD_some]
  · intro p q r final edge
    obtain rfl := StateSet.mem_singleton_iff.mp final
    have entered := (mem_targets_unionWith_outside validA validB freshStop.1 freshStop.2).mp edge
    exact absurd entered.1 different.symm

theorem sparse_starWith (valid : A.WellFormed) {start stop : State} (different : start ≠ stop)
    (freshStart : start ∉ A.states) (freshStop : stop ∉ A.states) (sparse : A.Sparse) :
    (A.starWith start stop).Sparse := by
  have extend := extends_starWith freshStart freshStop
  have outside : ∀ {p q l}, p ∉ A.states → q ∈ (A.starWith start stop).targets p l →
      l = .epsilon ∧ ((p = stop ∧ q = start) ∨ (p = start ∧ (q = stop ∨ A.start = some q))) := by
    intro p q l notA edge
    rcases mem_targets_starWith.mp edge with ⟨final, _⟩ | back | enter | edge
    · exact absurd (valid.finals_subset final) notA
    · exact ⟨back.2.1, .inl ⟨back.1, back.2.2⟩⟩
    · exact ⟨enter.2.1, .inr ⟨enter.1, enter.2.2⟩⟩
    · exact absurd (source_mem valid edge) notA
  constructor
  · intro p
    by_cases inA : p ∈ A.states
    · exact sparse.extends extend (fun same same' => same.trans same'.symm) inA
    · by_cases isStop : p = stop
      · refine sparseAt_of_epsilon (x := start) (y := start) ?_
        intro q l edge
        obtain ⟨silent, back | enter⟩ := outside inA edge
        · exact ⟨silent, .inl back.2⟩
        · exact absurd (enter.1.symm.trans isStop) different
      · refine sparseAt_of_epsilon (x := stop) (y := A.start.getD p) ?_
        intro q l edge
        obtain ⟨silent, back | enter⟩ := outside inA edge
        · exact absurd back.1 isStop
        · refine ⟨silent, enter.2.imp_right ?_⟩
          intro found
          rw [found, Option.getD_some]
  · intro p q r final edge edge'
    obtain rfl := StateSet.mem_singleton_iff.mp final
    have back : ∀ {q}, q ∈ (A.starWith start p).targets p .epsilon → q = start := by
      intro q edge
      cases (outside freshStop edge).2 with
      | inl back => exact back.2
      | inr enter => exact absurd enter.1.symm different
    rw [back edge, back edge']

/-- A deterministic automaton has no ε-transitions and one destination under a symbol. -/
theorem sparse_toNfa (D : Dfa) : D.toNfa.Sparse := by
  have silent : ∀ {p q : State}, q ∉ D.toNfa.targets p .epsilon := by
    intro p q edge
    obtain ⟨c, same, _⟩ := Dfa.mem_targets_toNfa.mp edge
    cases same
  constructor
  · intro p
    refine ⟨?_, p, p, fun q edge => absurd edge silent⟩
    intro q r c edge edge'
    obtain ⟨d, same, found⟩ := Dfa.mem_targets_toNfa.mp edge
    obtain ⟨d', same', found'⟩ := Dfa.mem_targets_toNfa.mp edge'
    cases same
    cases same'
    rw [found] at found'
    exact Option.some.inj found'
  · exact fun _ edge => absurd edge silent

section Runs

variable {c c' : Counter}

theorem sparse_literal {ids : AllocatorId} {l : Label}
    (ran : (literal ids l).run c = .ok (A, c')) : A.Sparse := by
  obtain ⟨start, stop, _, _, _, rfl⟩ := literal_eq_ok ran
  exact sparse_literalWith ids l start stop

theorem sparse_concat (soundA : A.Sound c) (soundB : B.Sound c)
    (apart : ∀ s ∈ A.states, s ∉ B.states) (sparseA : A.Sparse) (sparseB : B.Sparse)
    (ran : (A.concat B).run c = .ok (C, c')) : C.Sparse := by
  obtain ⟨_, _, rfl⟩ := concat_eq_ok ran
  exact sparse_append soundA.valid soundB.valid apart sparseA sparseB

theorem sparse_union (soundA : A.Sound c) (soundB : B.Sound c)
    (apart : ∀ s ∈ A.states, s ∉ B.states) (sparseA : A.Sparse) (sparseB : B.Sparse)
    (ran : (A.union B).run c = .ok (C, c')) : C.Sparse := by
  obtain ⟨start, stop, different, freshStart, freshStop, rfl⟩ := union_eq_fresh soundA soundB ran
  exact sparse_unionWith soundA.valid soundB.valid apart different freshStart freshStop
    sparseA sparseB

theorem sparse_star (sound : A.Sound c) (sparse : A.Sparse)
    (ran : A.star.run c = .ok (C, c')) : C.Sparse := by
  obtain ⟨start, stop, different, freshStart, freshStop, rfl⟩ := star_eq_fresh sound ran
  exact sparse_starWith sound.valid different freshStart freshStop sparse

end Runs

/-! Out-degrees. -/

theorem Row.nodup_edges (r : Nfa.Row) : (TransitionRow.edges r).Nodup := by
  change (r.toList.flatMap fun entry => entry.2.toList.map (entry.1, ·)).Nodup
  rw [List.nodup_flatMap]
  constructor
  · intro entry _
    exact List.Nodup.map (fun q r same => (Prod.mk.inj same).2) entry.2.nodup_toList
  · refine r.distinct_keys_toList.imp ?_
    intro entry entry' apart edge listed listed'
    obtain ⟨q, _, rfl⟩ := List.mem_map.mp listed
    obtain ⟨q', _, same⟩ := List.mem_map.mp listed'
    exact apart (Std.LawfulEqCmp.compare_eq_iff_eq.mpr (Prod.mk.inj same).1.symm)

theorem outDegree_le_length (leaving : List (Label × State))
    (listed : ∀ {l q}, q ∈ A.targets p l → (l, q) ∈ leaving) :
    A.outDegree p ≤ leaving.length := by
  apply (List.subperm_of_subset (Row.nodup_edges (A.row p)) ?_).length_le
  rintro ⟨l, q⟩ edge
  exact listed (mem_edges_row.mp edge)

/-- Where a sparse automaton goes from a state: to two states under ε and to one under each symbol
of its alphabet at most. -/
theorem outDegree_le (valid : A.WellFormed) (sparse : A.SparseAt p) :
    A.outDegree p ≤ A.alphabet.size + 2 := by
  obtain ⟨x, y, bounded⟩ := sparse.epsilon_two
  let target (c : Char) : State := ((A.targets p (.symbol c)).toList.head?).getD p
  let listed : List (Label × State) :=
    (.epsilon, x) :: (.epsilon, y) :: A.alphabet.toList.map fun c => (.symbol c, target c)
  have length : listed.length = A.alphabet.size + 2 := by simp [listed]
  rw [← length]
  apply outDegree_le_length
  intro l q edge
  cases l with
  | epsilon =>
      cases bounded q edge with
      | inl same => simp [listed, same]
      | inr same => simp [listed, same]
  | symbol c =>
      have symbol := symbol_mem valid edge
      have found : target c = q := by
        cases first : (A.targets p (.symbol c)).toList with
        | nil =>
            have inside := Std.ExtTreeSet.mem_toList.mpr edge
            rw [first] at inside
            cases inside
        | cons r rest =>
            have other : r ∈ A.targets p (.symbol c) := by
              rw [← Std.ExtTreeSet.mem_toList, first]
              exact List.mem_cons_self
            simp only [target, first, List.head?_cons, Option.getD_some]
            exact sparse.symbol_unique other edge
      simp [listed, symbol, found]

end Nfa

end PostfixAutomata
