import Mathlib.Computability.Language
import PostfixAutomata.Nfa.Path
import PostfixAutomata.Proofs.Nfa.Operators

set_option autoImplicit false

/-!
The languages of literals, concatenations, unions and stars. Each operator keeps the paths inside of
its operands and lets them out through final states only; so a path through the result is cut where
it leaves an operand.
-/

namespace PostfixAutomata

namespace Nfa

open scoped Computability

/-- The inputs that the automaton accepts. -/
def language (A : Nfa) : Language Char := {input | A.Accepts input}

/-- Whether an input leads from a state to a final one. -/
def Finishes (A : Nfa) (p : State) (input : List Char) : Prop :=
  ∃ stop, stop ∈ A.finals ∧ A.Path p input stop

theorem mem_language_iff {A : Nfa} {input : List Char} :
    input ∈ A.language ↔ ∃ start, A.start = some start ∧ A.Finishes start input := by
  change A.Accepts input ↔ _
  simp only [Accepts, Finishes, exists_and_left]

theorem Path.mem_states {A : Nfa} (valid : A.WellFormed) {p q : State} {input : List Char}
    (path : A.Path p input q) (member : p ∈ A.states) : q ∈ A.states := by
  induction path with
  | refl => exact member
  | cons edge _ ih => exact ih (target_mem valid edge)

/-- Inside of the states of `A`, the automaton `C` goes where `A` goes, and from the final states of
`A` it goes on to some further states without reading. -/
def Extends (C A : Nfa) (exits : State → Prop) : Prop :=
  ∀ ⦃p q : State⦄ ⦃l : Label⦄, p ∈ A.states →
    (q ∈ C.targets p l ↔ (p ∈ A.finals ∧ l = .epsilon ∧ exits q) ∨ q ∈ A.targets p l)

namespace Extends

variable {A C : Nfa} {exits : State → Prop} {p q : State} {input : List Char}

theorem path (valid : A.WellFormed) (extend : C.Extends A exits) (inner : A.Path p input q) :
    C.Path p input q := by
  induction inner with
  | refl => exact .refl _
  | cons edge _ ih => exact .cons ((extend (source_mem valid edge)).mpr (.inr edge)) ih

/-- A path that starts inside stays there, or is cut where it leaves for the first time. -/
theorem split (valid : A.WellFormed) (extend : C.Extends A exits) (outer : C.Path p input q)
    (member : p ∈ A.states) :
    A.Path p input q ∨ ∃ before after next, input = before ++ after ∧ A.Finishes p before ∧
      exits next ∧ C.Path next after q := by
  induction outer with
  | refl => exact .inl (.refl _)
  | @cons p q r l rest edge tail ih =>
      rcases (extend member).mp edge with ⟨final, rfl, leaves⟩ | inner
      · exact .inr ⟨[], rest, q, rfl, ⟨p, final, .refl p⟩, leaves, tail⟩
      · rcases ih (target_mem valid inner) with
          path | ⟨before, after, next, rfl, done, leaves, path⟩
        · exact .inl (.cons inner path)
        · obtain ⟨stop, final, front⟩ := done
          exact .inr ⟨l.reads ++ before, after, next, (List.append_assoc ..).symm,
            ⟨stop, final, .cons inner front⟩, leaves, path⟩

/-- If the only exit is a dead end outside, the paths to it are those to a final state. -/
theorem path_exit_iff {stop : State} (valid : A.WellFormed) (extend : C.Extends A (· = stop))
    (outside : stop ∉ A.states) (dead : ∀ q l, q ∉ C.targets stop l) (member : p ∈ A.states) :
    C.Path p input stop ↔ A.Finishes p input := by
  constructor
  · intro outer
    rcases extend.split valid outer member with inner | ⟨before, after, _, rfl, done, rfl, rest⟩
    · exact absurd (inner.mem_states valid member) outside
    · cases rest with
      | refl =>
          rw [List.append_nil]
          exact done
      | cons edge _ => exact absurd edge (dead _ _)
  · rintro ⟨final, isFinal, inner⟩
    have out : stop ∈ C.targets final .epsilon :=
      (extend (inner.mem_states valid member)).mpr (.inl ⟨isFinal, rfl, rfl⟩)
    have whole := (extend.path valid inner).trans (.single out)
    rwa [show Label.epsilon.reads = [] from rfl, List.append_nil] at whole

end Extends

/-! Literals. -/

theorem language_literalWith (ids : AllocatorId) (l : Label) {start stop : State}
    (apart : start ≠ stop) : (literalWith ids l start stop).language = {l.reads} := by
  have edges := @mem_targets_literalWith ids l
  apply Set.ext
  intro input
  change input ∈ language _ ↔ input = l.reads
  rw [mem_language_iff]
  constructor
  · rintro ⟨_, ⟨⟩, finish, final, path⟩
    obtain rfl := StateSet.mem_singleton_iff.mp final
    cases path with
    | refl => exact absurd rfl apart
    | cons edge rest =>
        obtain ⟨_, rfl, rfl⟩ := edges.mp edge
        cases rest with
        | refl => exact List.append_nil _
        | cons further _ => exact absurd (edges.mp further).1.symm apart
  · rintro rfl
    exact ⟨start, rfl, stop, StateSet.mem_singleton_iff.mpr rfl,
      .single (edges.mpr ⟨rfl, rfl, rfl⟩)⟩

section Binary

variable {A B : Nfa}

/-! Concatenations. -/

theorem extends_append_first (apart : ∀ s ∈ A.states, s ∉ B.states) (validB : B.WellFormed) :
    (A.append B).Extends A (B.start = some ·) := by
  intro p q l member
  rw [mem_targets_append]
  have foreign : q ∉ B.targets p l := fun edge => apart p member (source_mem validB edge)
  simp only [foreign, false_or]

theorem extends_append_second (apart : ∀ s ∈ A.states, s ∉ B.states) (validA : A.WellFormed) :
    (A.append B).Extends B fun _ => False := by
  intro p q l member
  rw [mem_targets_append]
  have notFinal : p ∉ A.finals := fun final => apart p (validA.finals_subset final) member
  have foreign : q ∉ A.targets p l := fun edge => apart p (source_mem validA edge) member
  simp only [notFinal, foreign, false_and, and_false, false_or, or_false]

theorem start_append (A B : Nfa) : (A.append B).start = A.start := by
  change (B.start.elim (A.absorb B) ((A.absorb B).linkAll A.finals.toList)).start = _
  have absorbed : (A.absorb B).start = A.start := by
    rw [absorb, Automaton.insertSymbols_eq, Automaton.start_insertTransitions,
      Automaton.start_insertStates]
  cases B.start with
  | none => exact absorbed
  | some start => exact (Automaton.start_insertTransitions _ _).trans absorbed

theorem language_append (validA : A.WellFormed) (validB : B.WellFormed)
    (apart : ∀ s ∈ A.states, s ∉ B.states) :
    (A.append B).language = A.language * B.language := by
  have first := extends_append_first apart validB
  have second := extends_append_second apart validA
  apply Set.ext
  intro input
  change input ∈ language _ ↔ input ∈ A.language * B.language
  rw [Language.mem_mul, mem_language_iff, start_append]
  constructor
  · rintro ⟨start, begun, stop, final, path⟩
    change stop ∈ B.finals at final
    rcases first.split validA path (validA.start_mem begun) with
      inner | ⟨before, after, next, rfl, done, entered, rest⟩
    · have inside := inner.mem_states validA (validA.start_mem begun)
      exact absurd (validB.finals_subset final) (apart stop inside)
    · refine ⟨before, mem_language_iff.mpr ⟨start, begun, done⟩, after, ?_, rfl⟩
      rcases second.split validB rest (validB.start_mem entered) with inner | ⟨_, _, _, _, _, ⟨⟩, _⟩
      exact mem_language_iff.mpr ⟨next, entered, stop, final, inner⟩
  · rintro ⟨before, left, after, right, rfl⟩
    obtain ⟨start, begun, middle, through, front⟩ := mem_language_iff.mp left
    obtain ⟨next, entered, stop, final, back⟩ := mem_language_iff.mp right
    have link : next ∈ (A.append B).targets middle .epsilon :=
      mem_targets_append.mpr (.inl ⟨through, rfl, entered⟩)
    exact ⟨start, begun, stop, final,
      (first.path validA front).trans (.cons link (second.path validB back))⟩

/-! Unions. -/

theorem extends_unionWith_first (apart : ∀ s ∈ A.states, s ∉ B.states) (validB : B.WellFormed)
    {start : State} (stop : State) (fresh : start ∉ A.states) :
    (A.unionWith B start stop).Extends A (· = stop) := by
  intro p q l member
  rw [mem_targets_unionWith]
  have foreign : q ∉ B.targets p l := fun edge => apart p member (source_mem validB edge)
  have notFinal : p ∉ B.finals := fun final => apart p member (validB.finals_subset final)
  have notStart : p ≠ start := fun same => fresh (same ▸ member)
  simp only [foreign, notFinal, notStart, false_and, false_or, or_false]

theorem extends_unionWith_second (apart : ∀ s ∈ A.states, s ∉ B.states) (validA : A.WellFormed)
    {start : State} (stop : State) (fresh : start ∉ B.states) :
    (A.unionWith B start stop).Extends B (· = stop) := by
  intro p q l member
  rw [mem_targets_unionWith]
  have foreign : q ∉ A.targets p l := fun edge => apart p (source_mem validA edge) member
  have notFinal : p ∉ A.finals := fun final => apart p (validA.finals_subset final) member
  have notStart : p ≠ start := fun same => fresh (same ▸ member)
  simp only [foreign, notFinal, notStart, false_and, false_or, or_false]

/-- Outside of the operands only the new start has transitions: it enters an operand by its
start. -/
theorem mem_targets_unionWith_outside (validA : A.WellFormed) (validB : B.WellFormed)
    {start stop p q : State} {l : Label} (notA : p ∉ A.states) (notB : p ∉ B.states) :
    q ∈ (A.unionWith B start stop).targets p l ↔
      p = start ∧ l = .epsilon ∧ (A.start = some q ∨ B.start = some q) := by
  have finalA : p ∉ A.finals := fun final => notA (validA.finals_subset final)
  have finalB : p ∉ B.finals := fun final => notB (validB.finals_subset final)
  have edgeA : q ∉ A.targets p l := fun edge => notA (source_mem validA edge)
  have edgeB : q ∉ B.targets p l := fun edge => notB (source_mem validB edge)
  rw [mem_targets_unionWith]
  simp only [finalA, finalB, edgeA, edgeB, or_self, false_and, false_or, or_false]

theorem language_unionWith (validA : A.WellFormed) (validB : B.WellFormed)
    (apart : ∀ s ∈ A.states, s ∉ B.states) {start stop : State} (different : start ≠ stop)
    (freshStart : start ∉ A.states ∧ start ∉ B.states)
    (freshStop : stop ∉ A.states ∧ stop ∉ B.states) :
    (A.unionWith B start stop).language = A.language + B.language := by
  have first := extends_unionWith_first apart validB stop freshStart.1
  have second := extends_unionWith_second apart validA stop freshStart.2
  have dead : ∀ q l, q ∉ (A.unionWith B start stop).targets stop l := by
    intro q l edge
    have entered := (mem_targets_unionWith_outside validA validB freshStop.1 freshStop.2).mp edge
    exact different entered.1.symm
  have entry : ∀ {q l}, q ∈ (A.unionWith B start stop).targets start l ↔
      l = .epsilon ∧ (A.start = some q ∨ B.start = some q) := by
    intro q l
    rw [mem_targets_unionWith_outside validA validB freshStart.1 freshStart.2]
    exact and_iff_right rfl
  apply Set.ext
  intro input
  change input ∈ language _ ↔ input ∈ A.language + B.language
  rw [Language.mem_add, mem_language_iff, mem_language_iff, mem_language_iff]
  constructor
  · rintro ⟨_, ⟨⟩, finish, final, path⟩
    obtain rfl := StateSet.mem_singleton_iff.mp final
    cases path with
    | refl => exact absurd rfl different
    | @cons _ q _ _ rest edge tail =>
        obtain ⟨rfl, begun | begun⟩ := entry.mp edge
        · have member := validA.start_mem begun
          exact .inl ⟨q, begun, (first.path_exit_iff validA freshStop.1 dead member).mp tail⟩
        · have member := validB.start_mem begun
          exact .inr ⟨q, begun, (second.path_exit_iff validB freshStop.2 dead member).mp tail⟩
  · have enter : ∀ {q}, A.start = some q ∨ B.start = some q →
        (A.unionWith B start stop).Path q input stop →
          ∃ s, (A.unionWith B start stop).start = some s ∧
            (A.unionWith B start stop).Finishes s input := by
      intro q begun tail
      exact ⟨start, rfl, stop, StateSet.mem_singleton_iff.mpr rfl,
        .cons (entry.mpr ⟨rfl, begun⟩) tail⟩
    rintro (⟨q, begun, done⟩ | ⟨q, begun, done⟩)
    · have member := validA.start_mem begun
      exact enter (.inl begun) ((first.path_exit_iff validA freshStop.1 dead member).mpr done)
    · have member := validB.start_mem begun
      exact enter (.inr begun) ((second.path_exit_iff validB freshStop.2 dead member).mpr done)

end Binary

/-! Stars. -/

section Star

variable {A : Nfa} {start stop : State}

/-- From the two new states a star reads a repetition; from inside it first has to finish the
operand. -/
theorem path_starWith_cases (valid : A.WellFormed) (freshStart : start ∉ A.states)
    (freshStop : stop ∉ A.states) {p q : State} {input : List Char}
    (path : (A.starWith start stop).Path p input q) (ends : q = stop) :
    (p = start ∨ p = stop → input ∈ A.language∗) ∧
      (p ∈ A.states → ∃ before after, input = before ++ after ∧ A.Finishes p before ∧
        after ∈ A.language∗) := by
  induction path with
  | refl s =>
      subst ends
      exact ⟨fun _ => Language.nil_mem_kstar _, fun member => absurd member freshStop⟩
  | @cons p q r l rest edge tail ih =>
      obtain ⟨outer, inner⟩ := ih ends
      rcases mem_targets_starWith.mp edge with
        ⟨final, rfl, rfl⟩ | ⟨rfl, rfl, rfl⟩ | ⟨rfl, rfl, target⟩ | edge
      · have member := valid.finals_subset final
        refine ⟨?_, fun _ => ⟨[], rest, rfl, ⟨p, final, .refl p⟩, outer (.inr rfl)⟩⟩
        rintro (rfl | rfl)
        · exact absurd member freshStart
        · exact absurd member freshStop
      · exact ⟨fun _ => outer (.inl rfl), fun member => absurd member freshStop⟩
      · refine ⟨fun _ => ?_, fun member => absurd member freshStart⟩
        rcases target with rfl | begun
        · exact outer (.inr rfl)
        · obtain ⟨before, after, rfl, done, repeated⟩ := inner (valid.start_mem begun)
          have word : before ∈ A.language := mem_language_iff.mpr ⟨q, begun, done⟩
          have product := Language.append_mem_mul word repeated
          have absorbed : A.language * A.language∗ ≤ A.language∗ := mul_kstar_le_kstar
          exact absorbed product
      · have source := source_mem valid edge
        refine ⟨?_, fun _ => ?_⟩
        · rintro (rfl | rfl)
          · exact absurd source freshStart
          · exact absurd source freshStop
        · obtain ⟨before, after, rfl, ⟨f, final, front⟩, repeated⟩ := inner (target_mem valid edge)
          exact ⟨l.reads ++ before, after, (List.append_assoc ..).symm,
            ⟨f, final, .cons edge front⟩, repeated⟩

theorem extends_starWith (freshStart : start ∉ A.states) (freshStop : stop ∉ A.states) :
    (A.starWith start stop).Extends A (· = stop) := by
  intro p q l member
  have notStart : p ≠ start := fun same => freshStart (same ▸ member)
  have notStop : p ≠ stop := fun same => freshStop (same ▸ member)
  rw [mem_targets_starWith]
  simp only [notStart, notStop, false_and, false_or]

theorem language_starWith (valid : A.WellFormed) (freshStart : start ∉ A.states)
    (freshStop : stop ∉ A.states) : (A.starWith start stop).language = A.language∗ := by
  have extend := extends_starWith freshStart freshStop
  have back : start ∈ (A.starWith start stop).targets stop .epsilon :=
    mem_targets_starWith.mpr (.inr (.inl ⟨rfl, rfl, rfl⟩))
  have skip : stop ∈ (A.starWith start stop).targets start .epsilon :=
    mem_targets_starWith.mpr (.inr (.inr (.inl ⟨rfl, rfl, .inl rfl⟩)))
  have around : ∀ words : List (List Char), (∀ word ∈ words, word ∈ A.language) →
      (A.starWith start stop).Path stop words.flatten stop := by
    intro words
    induction words with
    | nil => exact fun _ => .refl stop
    | cons word words ih =>
        intro accepted
        obtain ⟨q, begun, f, final, inner⟩ := mem_language_iff.mp (accepted word (by simp))
        have enter : q ∈ (A.starWith start stop).targets start .epsilon :=
          mem_targets_starWith.mpr (.inr (.inr (.inl ⟨rfl, rfl, .inr begun⟩)))
        have leave : stop ∈ (A.starWith start stop).targets f .epsilon :=
          mem_targets_starWith.mpr (.inl ⟨final, rfl, rfl⟩)
        have rest := ih fun w member => accepted w (List.mem_cons_of_mem word member)
        exact .cons back (.cons enter ((extend.path valid inner).trans (.cons leave rest)))
  apply Set.ext
  intro input
  change input ∈ language _ ↔ input ∈ A.language∗
  rw [mem_language_iff]
  constructor
  · rintro ⟨_, ⟨⟩, finish, final, path⟩
    have ends := StateSet.mem_singleton_iff.mp final
    exact (path_starWith_cases valid freshStart freshStop path ends).1 (.inl rfl)
  · intro repeated
    obtain ⟨words, rfl, accepted⟩ := Language.mem_kstar.mp repeated
    exact ⟨start, rfl, stop, StateSet.mem_singleton_iff.mpr rfl, .cons skip (around words accepted)⟩

end Star

/-! Runs of the operators, which draw the states that they add. -/

section Runs

variable {A B C : Nfa} {c c' : Counter}

theorem language_literal {ids : AllocatorId} {l : Label}
    (ran : (literal ids l).run c = .ok (A, c')) : A.language = {l.reads} := by
  obtain ⟨start, stop, first, second, _, rfl⟩ := literal_eq_ok ran
  apply language_literalWith
  rintro rfl
  omega

theorem language_concat (soundA : A.Sound c) (soundB : B.Sound c)
    (apart : ∀ s ∈ A.states, s ∉ B.states) (ran : (A.concat B).run c = .ok (C, c')) :
    C.language = A.language * B.language := by
  obtain ⟨_, _, rfl⟩ := concat_eq_ok ran
  exact language_append soundA.valid soundB.valid apart

theorem language_union (soundA : A.Sound c) (soundB : B.Sound c)
    (apart : ∀ s ∈ A.states, s ∉ B.states) (ran : (A.union B).run c = .ok (C, c')) :
    C.language = A.language + B.language := by
  obtain ⟨start, stop, different, freshStart, freshStop, rfl⟩ := union_eq_fresh soundA soundB ran
  exact language_unionWith soundA.valid soundB.valid apart different freshStart freshStop

theorem language_star (sound : A.Sound c) (ran : A.star.run c = .ok (C, c')) :
    C.language = A.language∗ := by
  obtain ⟨start, stop, _, freshStart, freshStop, rfl⟩ := star_eq_fresh sound ran
  exact language_starWith sound.valid freshStart freshStop

end Runs

end Nfa

end PostfixAutomata
