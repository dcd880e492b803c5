import Mathlib.Data.List.Nodup
import Mathlib.Data.List.Perm.Subperm
import Mathlib.Order.Bounds.Basic
import PostfixAutomata.Nfa.Path
import PostfixAutomata.Proofs.State

set_option autoImplicit false

/-!
The search for the ε-closure in any order. A search may take whichever pending state it likes, and
it may leave out or repeat destinations that it has seen: it ends all the same, after at most as
many turns as there are seeds and ε-transitions, and what it has seen then is the least set with
the seeds that ε-transitions do not leave.
-/

namespace PostfixAutomata

namespace Nfa

/-- The closure has the ε-destinations of its members. -/
theorem target_mem_epsilonClosure {A : Nfa} {seeds : List State} {p q : State}
    (member : p ∈ A.epsilonClosure seeds) (edge : q ∈ A.targets p .epsilon) :
    q ∈ A.epsilonClosure seeds := by
  obtain ⟨s, seed, path⟩ := mem_epsilonClosure_iff.mp member
  exact mem_epsilonClosure_iff.mpr ⟨s, seed, path.trans (.cons edge (.refl q))⟩

/-- A search between two turns: what it has seen, and what it has yet to look at. -/
structure Search where
  seen : StateSet
  pending : List State

namespace Search

/-- A search that has only its seeds. -/
def begin (seeds : List State) : Search := ⟨∅, seeds⟩

/-- One turn of a search. A pending state that was seen before is passed over. Any other is seen
now, and each of its ε-destinations is pending unless it was seen; those that were may be pending
again. -/
inductive Turn (A : Nfa) : Search → Search → Prop
  | known {seen : StateSet} {s : State} (before : List State) {after : List State} :
    s ∈ seen → Turn A ⟨seen, before ++ s :: after⟩ ⟨seen, before ++ after⟩
  | new {seen : StateSet} {s : State} (before : List State) {added after : List State} :
    s ∉ seen → added.Subperm (A.targets s .epsilon).toList →
      (∀ t ∈ A.targets s .epsilon, t ∈ seen.insert s ∨ t ∈ added) →
      Turn A ⟨seen, before ++ s :: after⟩ ⟨seen.insert s, before ++ added ++ after⟩

/-- A number of turns one after another. -/
inductive Turns (A : Nfa) : Nat → Search → Search → Prop
  | none (now : Search) : Turns A 0 now now
  | more {n : Nat} {now next last : Search} :
    Turn A now next → Turns A n next last → Turns A (n + 1) now last

/-- What holds of a search between any two turns. -/
structure From (seeds : List State) (A : Nfa) (now : Search) : Prop where
  met : ∀ s ∈ seeds, s ∈ now.seen ∨ s ∈ now.pending
  guarded : ∀ p ∈ now.seen, ∀ q ∈ A.targets p .epsilon, q ∈ now.seen ∨ q ∈ now.pending
  reached : ∀ t, t ∈ now.seen ∨ t ∈ now.pending → t ∈ A.epsilonClosure seeds

variable {A : Nfa} {seeds : List State} {now next last : Search} {n : Nat}

/-! What the turns see. -/

/-- Nothing is lost in a turn. -/
theorem Turn.kept (turn : Turn A now next) {t : State} (met : t ∈ now.seen ∨ t ∈ now.pending) :
    t ∈ next.seen ∨ t ∈ next.pending := by
  cases turn with
  | known _ inside =>
      simp only [List.mem_append, List.mem_cons] at met ⊢
      rcases met with seen | early | rfl | late
      · exact .inl seen
      · exact .inr (.inl early)
      · exact .inl inside
      · exact .inr (.inr late)
  | new =>
      simp only [List.mem_append, List.mem_cons, StateSet.mem_insert_iff] at met ⊢
      rcases met with seen | early | rfl | late
      · exact .inl (.inr seen)
      · exact .inr (.inl (.inl early))
      · exact .inl (.inl rfl)
      · exact .inr (.inr late)

theorem from_begin (A : Nfa) (seeds : List State) : From seeds A (begin seeds) where
  met := fun _ seed => .inr seed
  guarded := fun _ seen => absurd seen Std.ExtTreeSet.not_mem_empty
  reached := by
    rintro t (seen | seed)
    · exact absurd seen Std.ExtTreeSet.not_mem_empty
    · exact mem_epsilonClosure_iff.mpr ⟨t, seed, .refl t⟩

theorem From.turn (begun : From seeds A now) (turn : Turn A now next) : From seeds A next where
  met := fun s seed => turn.kept (begun.met s seed)
  guarded := by
    intro p seen q edge
    cases turn with
    | known before inside =>
        exact (Turn.known (A := A) before inside).kept (begun.guarded p seen q edge)
    | new before unseen few all =>
        rcases StateSet.mem_insert_iff.mp seen with rfl | earlier
        · rcases all q edge with old | added
          · exact .inl old
          · exact .inr (by simp [added])
        · exact (Turn.new before unseen few all).kept (begun.guarded p earlier q edge)
  reached := by
    intro t met
    cases turn with
    | known _ inside =>
        apply begun.reached
        simp only [List.mem_append, List.mem_cons] at met ⊢
        tauto
    | @new seen s before added after unseen few all =>
        have here : s ∈ A.epsilonClosure seeds := begun.reached s (.inr (by simp))
        simp only [List.mem_append, StateSet.mem_insert_iff] at met
        rcases met with (rfl | earlier) | (early | fresh) | late
        · exact here
        · exact begun.reached t (.inl earlier)
        · exact begun.reached t (.inr (by simp [early]))
        · exact target_mem_epsilonClosure here (Std.ExtTreeSet.mem_toList.mp (few.subset fresh))
        · exact begun.reached t (.inr (by simp [late]))

theorem From.turns (begun : From seeds A now) (turns : Turns A n now last) :
    From seeds A last := by
  induction turns with
  | none => exact begun
  | more turn _ ih => exact ih (begun.turn turn)

/-- A search with nothing left to look at has seen the closure of its seeds. -/
theorem From.seen_eq (begun : From seeds A now) (finished : now.pending = []) :
    now.seen = A.epsilonClosure seeds := by
  have closed : ∀ p ∈ now.seen, ∀ q ∈ A.targets p .epsilon, q ∈ now.seen := by
    intro p seen q edge
    exact (begun.guarded p seen q edge).resolve_right (by simp [finished])
  apply StateSet.ext_iff.mpr
  intro t
  constructor
  · intro seen
    exact begun.reached t (.inl seen)
  · intro member
    obtain ⟨s, seed, path⟩ := mem_epsilonClosure_iff.mp member
    exact path.mem_of_closed closed ((begun.met s seed).resolve_right (by simp [finished]))

/-! How many turns there are. -/

/-- The number of ε-transitions that leave states not seen. -/
def ahead (A : Nfa) (seen : StateSet) : Nat :=
  A.edgeList.countP fun edge => edge.2.1 = .epsilon ∧ edge.1 ∉ seen

/-- The ε-transitions that leave a state are no longer ahead once it is seen. -/
theorem ahead_insert {seen : StateSet} {s : State} (unseen : s ∉ seen) :
    ahead A (seen.insert s) +
        A.edgeList.countP (fun edge => edge.1 = s ∧ edge.2.1 = .epsilon) =
      ahead A seen := by
  unfold ahead
  induction A.edgeList with
  | nil => rfl
  | cons edge rest ih =>
      have one : ((if edge.2.1 = .epsilon ∧ edge.1 ∉ seen.insert s then 1 else 0) +
          if edge.1 = s ∧ edge.2.1 = .epsilon then 1 else 0) =
            if edge.2.1 = .epsilon ∧ edge.1 ∉ seen then 1 else 0 := by
        by_cases leaves : edge.1 = s
        · simp [leaves, unseen]
        · simp [leaves, Ne.symm leaves]
      simp only [List.countP_cons, decide_eq_true_eq]
      rw [← ih, ← one]
      omega

theorem length_targets_le (A : Nfa) (s : State) : (A.targets s .epsilon).toList.length ≤
    A.edgeList.countP fun edge => edge.1 = s ∧ edge.2.1 = .epsilon := by
  have distinct : ((A.targets s .epsilon).toList.map fun t => (s, Label.epsilon, t)).Nodup :=
    (StateSet.nodup_toList _).map fun _ _ same => (Prod.mk.inj (Prod.mk.inj same).2).2
  rw [List.countP_eq_length_filter, ← List.length_map fun t => (s, Label.epsilon, t)]
  apply (List.subperm_of_subset distinct _).length_le
  intro edge member
  obtain ⟨t, target, rfl⟩ := List.mem_map.mp member
  have listed := mem_edgeList.mpr (Std.ExtTreeSet.mem_toList.mp target)
  simp [listed]

/-- Each turn uses up a pending state or ε-transitions that were ahead. -/
theorem Turn.shorter (turn : Turn A now next) :
    next.pending.length + ahead A next.seen < now.pending.length + ahead A now.seen := by
  cases turn with
  | known =>
      simp only [List.length_append, List.length_cons]
      omega
  | new _ unseen few =>
      have left := ahead_insert (A := A) unseen
      have added := few.length_le.trans (length_targets_le A _)
      simp only [List.length_append, List.length_cons]
      omega

theorem Turns.bounded (turns : Turns A n now last) :
    n + (last.pending.length + ahead A last.seen) ≤ now.pending.length + ahead A now.seen := by
  induction turns with
  | none => omega
  | more turn _ ih =>
      have first := turn.shorter
      omega

/-- A search that has something pending goes on. -/
theorem exists_turn (A : Nfa) (waiting : now.pending ≠ []) : ∃ next, Turn A now next := by
  obtain ⟨seen, pending⟩ := now
  cases pending with
  | nil => exact absurd rfl waiting
  | cons s rest =>
      by_cases inside : s ∈ seen
      · exact ⟨_, .known [] inside⟩
      · refine ⟨_, .new [] inside (.refl _) ?_⟩
        intro t target
        exact .inr (Std.ExtTreeSet.mem_toList.mpr target)

/-- The search of the model is one of these. -/
theorem turns_closureFrom (A : Nfa) (seen : StateSet) (pending : List State) :
    ∃ n, Turns A n ⟨seen, pending⟩ ⟨A.closureFrom seen pending, []⟩ := by
  fun_induction closureFrom A seen pending with
  | case1 seen => exact ⟨0, .none _⟩
  | case2 seen s rest inside ih =>
      obtain ⟨n, turns⟩ := ih
      exact ⟨n + 1, .more (.known [] inside) turns⟩
  | case3 seen s rest unseen ih =>
      obtain ⟨n, turns⟩ := ih
      refine ⟨n + 1, .more (.new [] unseen (.refl _) ?_) turns⟩
      intro t target
      exact .inr (Std.ExtTreeSet.mem_toList.mpr target)

end Search

variable {A : Nfa} {seeds : List State}

/-- The ε-closure of states depends on which states they are, not on their order or number. -/
theorem epsilonClosure_congr {others : List State} (same : ∀ s, s ∈ seeds ↔ s ∈ others) :
    A.epsilonClosure seeds = A.epsilonClosure others := by
  apply StateSet.ext_iff.mpr
  intro t
  simp only [mem_epsilonClosure_iff, same]

theorem epsilonClosure_append (A : Nfa) (seeds others : List State) :
    A.epsilonClosure (seeds ++ others) = A.epsilonClosure seeds ∪ A.epsilonClosure others := by
  apply StateSet.ext_iff.mpr
  intro t
  simp only [Std.ExtTreeSet.mem_union_iff, mem_epsilonClosure_iff, List.mem_append, or_and_right,
    exists_or]

theorem epsilonClosure_mono {more : List State} (fewer : ∀ s ∈ seeds, s ∈ more) {t : State}
    (member : t ∈ A.epsilonClosure seeds) : t ∈ A.epsilonClosure more := by
  obtain ⟨s, seed, path⟩ := mem_epsilonClosure_iff.mp member
  exact mem_epsilonClosure_iff.mpr ⟨s, fewer s seed, path⟩

theorem epsilonClosure_toList (A : Nfa) (seeds : List State) :
    A.epsilonClosure (A.epsilonClosure seeds).toList = A.epsilonClosure seeds := by
  apply StateSet.ext_iff.mpr
  intro t
  simp only [mem_epsilonClosure_iff, Std.ExtTreeSet.mem_toList]
  constructor
  · rintro ⟨p, ⟨s, seed, first⟩, second⟩
    exact ⟨s, seed, first.trans second⟩
  · rintro ⟨s, seed, path⟩
    exact ⟨s, ⟨s, seed, .refl s⟩, path⟩

/-- The ε-closure is the least set with the seeds that ε-transitions do not leave. -/
theorem isLeast_epsilonClosure (A : Nfa) (seeds : List State) :
    IsLeast {T : Set State | (∀ s ∈ seeds, s ∈ T) ∧ ∀ p ∈ T, ∀ q ∈ A.targets p .epsilon, q ∈ T}
      {t | t ∈ A.epsilonClosure seeds} := by
  constructor
  · constructor
    · intro s seed
      exact mem_epsilonClosure_iff.mpr ⟨s, seed, .refl s⟩
    · intro p member q edge
      exact target_mem_epsilonClosure member edge
  · rintro T ⟨seeded, closed⟩ t member
    obtain ⟨s, seed, path⟩ := mem_epsilonClosure_iff.mp member
    have start := seeded s seed
    clear seed member
    induction path with
    | refl => exact start
    | cons edge _ ih => exact ih (closed _ start _ edge)

/-- The ε-closure of any states of any automaton, known to it or not. The search for it ends in
whichever order it takes the states that are pending: it has at most one turn for each seed and
each ε-transition, it goes on while something is pending, and what it has seen in the end is what
ε-transitions reach from the seeds. -/
theorem epsilonClosure_is_reachability (A : Nfa) (seeds : List State) :
    (∃ n, Search.Turns A n (.begin seeds) ⟨A.epsilonClosure seeds, []⟩) ∧
    (∀ n last, Search.Turns A n (.begin seeds) last →
      n ≤ seeds.length + A.edgeList.countP (fun edge => edge.2.1 = .epsilon) ∧
      (last.pending = [] → last.seen = A.epsilonClosure seeds) ∧
      (last.pending ≠ [] → ∃ next, Search.Turn A last next)) ∧
    (∀ t, t ∈ A.epsilonClosure seeds ↔ ∃ s ∈ seeds, A.EpsilonPath s t) ∧
    IsLeast {T : Set State | (∀ s ∈ seeds, s ∈ T) ∧ ∀ p ∈ T, ∀ q ∈ A.targets p .epsilon, q ∈ T}
      {t | t ∈ A.epsilonClosure seeds} ∧
    A.epsilonClosure (A.epsilonClosure seeds).toList = A.epsilonClosure seeds ∧
    (∀ others, (∀ s ∈ seeds, s ∈ others) →
      ∀ t ∈ A.epsilonClosure seeds, t ∈ A.epsilonClosure others) ∧
    (∀ others, (∀ s, s ∈ seeds ↔ s ∈ others) →
      A.epsilonClosure seeds = A.epsilonClosure others) ∧
    (∀ others, A.epsilonClosure (seeds ++ others) =
      A.epsilonClosure seeds ∪ A.epsilonClosure others) := by
  have ends : ∀ n last, Search.Turns A n (.begin seeds) last →
      n ≤ seeds.length + A.edgeList.countP (fun edge => edge.2.1 = .epsilon) ∧
      (last.pending = [] → last.seen = A.epsilonClosure seeds) ∧
      (last.pending ≠ [] → ∃ next, Search.Turn A last next) := by
    intro n last turns
    have bounded := turns.bounded
    have atFirst : Search.ahead A ∅ = A.edgeList.countP (fun edge => edge.2.1 = .epsilon) := by
      simp [Search.ahead]
    simp only [Search.begin, atFirst] at bounded
    refine ⟨by omega, ?_, Search.exists_turn A⟩
    exact ((Search.from_begin A seeds).turns turns).seen_eq
  refine ⟨Search.turns_closureFrom A ∅ seeds, ends, ?_, isLeast_epsilonClosure A seeds,
    epsilonClosure_toList A seeds, ?_, ?_, epsilonClosure_append A seeds⟩
  · intro t
    exact mem_epsilonClosure_iff
  · intro others fewer t member
    exact epsilonClosure_mono fewer member
  · intro others same
    exact epsilonClosure_congr same

end Nfa

end PostfixAutomata
