import PostfixAutomata.Nfa.EpsilonClosure
import PostfixAutomata.Nfa.Transitions

set_option autoImplicit false

/-!
Paths through a nondeterministic automaton, and what it accepts. A path spells the symbols of its
transitions, those under ε left out. The search for the ε-closure finds exactly the states at the
end of paths that spell nothing (`mem_epsilonClosure_iff`).
-/

namespace PostfixAutomata

namespace Nfa

/-- A path from one state to another that spells an input. -/
inductive Path (A : Nfa) : State → List Char → State → Prop
  | refl (s : State) : Path A s [] s
  | cons {p q r : State} {l : Label} {input : List Char} :
    q ∈ A.targets p l → Path A q input r → Path A p (l.reads ++ input) r

/-- Some path from the start to a final state spells the input. -/
def Accepts (A : Nfa) (input : List Char) : Prop :=
  ∃ start stop, A.start = some start ∧ stop ∈ A.finals ∧ A.Path start input stop

/-- A path under ε alone. -/
inductive EpsilonPath (A : Nfa) : State → State → Prop
  | refl (s : State) : EpsilonPath A s s
  | cons {p q r : State} : q ∈ A.targets p .epsilon → EpsilonPath A q r → EpsilonPath A p r

variable {A : Nfa}

theorem Path.trans {p q r : State} {input rest : List Char} (first : A.Path p input q)
    (second : A.Path q rest r) : A.Path p (input ++ rest) r := by
  induction first with
  | refl => exact second
  | cons edge _ ih =>
      rw [List.append_assoc]
      exact .cons edge (ih second)

theorem Path.single {p q : State} {l : Label} (edge : q ∈ A.targets p l) :
    A.Path p l.reads q := by
  have path := Path.cons edge (.refl q)
  rwa [List.append_nil] at path

theorem EpsilonPath.trans {p q r : State} (first : A.EpsilonPath p q)
    (second : A.EpsilonPath q r) : A.EpsilonPath p r := by
  induction first with
  | refl => exact second
  | cons edge _ ih => exact .cons edge (ih second)

theorem EpsilonPath.toPath {p q : State} (path : A.EpsilonPath p q) : A.Path p [] q := by
  induction path with
  | refl => exact .refl _
  | cons edge _ ih => exact .cons edge ih

theorem Path.epsilonPath {p q : State} {input : List Char} (path : A.Path p input q)
    (silent : input = []) : A.EpsilonPath p q := by
  induction path with
  | refl => exact .refl _
  | @cons p q r l rest edge _ ih =>
      obtain ⟨nothing, tail⟩ := List.append_eq_nil_iff.mp silent
      cases l with
      | epsilon => exact .cons edge (ih tail)
      | symbol c => cases nothing

/-- ε-paths are the paths that spell nothing. -/
theorem path_nil_iff {p q : State} : A.Path p [] q ↔ A.EpsilonPath p q :=
  ⟨fun path => path.epsilonPath rfl, EpsilonPath.toPath⟩

/-- A path that reads a symbol reads nothing, then that symbol, and then the rest. -/
theorem path_cons_iff {p r : State} {c : Char} {input : List Char} :
    A.Path p (c :: input) r ↔
      ∃ s t, A.EpsilonPath p s ∧ t ∈ A.targets s (.symbol c) ∧ A.Path t input r := by
  constructor
  · intro path
    generalize spelled : c :: input = word at path
    induction path with
    | refl => cases spelled
    | @cons p q r l rest edge tail ih =>
        cases l with
        | epsilon =>
            obtain ⟨s, t, silent, step, path⟩ := ih spelled
            exact ⟨s, t, .cons edge silent, step, path⟩
        | symbol d =>
            obtain ⟨rfl, rfl⟩ := List.cons.inj spelled
            exact ⟨p, q, .refl p, edge, tail⟩
  · rintro ⟨s, t, silent, step, path⟩
    exact silent.toPath.trans (.cons step path)

/-! The search. -/

theorem subset_closureFrom (seen : StateSet) (pending : List State) :
    ∀ s ∈ seen, s ∈ A.closureFrom seen pending := by
  fun_induction closureFrom A seen pending with
  | case1 => exact fun _ member => member
  | case2 seen s rest _ ih => exact ih
  | case3 seen s rest _ ih =>
      intro t member
      exact ih t (Std.ExtTreeSet.mem_insert.mpr (.inr member))

theorem pending_subset_closureFrom (seen : StateSet) (pending : List State) :
    ∀ s ∈ pending, s ∈ A.closureFrom seen pending := by
  fun_induction closureFrom A seen pending with
  | case1 => exact nofun
  | case2 seen s rest known ih =>
      intro t member
      rcases List.mem_cons.mp member with rfl | later
      · exact subset_closureFrom seen rest t known
      · exact ih t later
  | case3 seen s rest _ ih =>
      intro t member
      rcases List.mem_cons.mp member with rfl | later
      · exact subset_closureFrom _ _ t Std.ExtTreeSet.mem_insert_self
      · exact ih t (List.mem_append_right _ later)

/-- If all that leaves the states seen is seen or pending, the result is closed. -/
theorem closureFrom_closed (seen : StateSet) (pending : List State)
    (guarded : ∀ p ∈ seen, ∀ q ∈ A.targets p .epsilon, q ∈ seen ∨ q ∈ pending) :
    ∀ p ∈ A.closureFrom seen pending, ∀ q ∈ A.targets p .epsilon,
      q ∈ A.closureFrom seen pending := by
  fun_induction closureFrom A seen pending with
  | case1 seen =>
      intro p member q edge
      exact (guarded p member q edge).resolve_right nofun
  | case2 seen s rest known ih =>
      apply ih
      intro p member q edge
      rcases guarded p member q edge with inside | waiting
      · exact .inl inside
      · rcases List.mem_cons.mp waiting with rfl | later
        · exact .inl known
        · exact .inr later
  | case3 seen s rest _ ih =>
      apply ih
      intro p member q edge
      rw [Std.ExtTreeSet.mem_insert, State.compare_eq_iff] at member ⊢
      rcases member with rfl | member
      · exact .inr (List.mem_append_left _ (Std.ExtTreeSet.mem_toList.mpr edge))
      · rcases guarded p member q edge with inside | waiting
        · exact .inl (.inr inside)
        · rcases List.mem_cons.mp waiting with rfl | later
          · exact .inl (.inl rfl)
          · exact .inr (List.mem_append_right _ later)

/-- All that is found was seen before or is reached from a pending state. -/
theorem of_mem_closureFrom (seen : StateSet) (pending : List State) :
    ∀ t ∈ A.closureFrom seen pending, t ∈ seen ∨ ∃ s ∈ pending, A.EpsilonPath s t := by
  fun_induction closureFrom A seen pending with
  | case1 => exact fun _ member => .inl member
  | case2 seen s rest _ ih =>
      intro t member
      rcases ih t member with inside | ⟨p, waiting, path⟩
      · exact .inl inside
      · exact .inr ⟨p, List.mem_cons_of_mem _ waiting, path⟩
  | case3 seen s rest _ ih =>
      intro t member
      rcases ih t member with inside | ⟨p, waiting, path⟩
      · rw [Std.ExtTreeSet.mem_insert, State.compare_eq_iff] at inside
        rcases inside with rfl | inside
        · exact .inr ⟨s, by simp, .refl s⟩
        · exact .inl inside
      · rcases List.mem_append.mp waiting with edge | later
        · exact .inr ⟨s, by simp, .cons (Std.ExtTreeSet.mem_toList.mp edge) path⟩
        · exact .inr ⟨p, List.mem_cons_of_mem _ later, path⟩

/-- A set that ε-transitions do not leave holds the ends of the ε-paths from its members. -/
theorem EpsilonPath.mem_of_closed {S : StateSet} {p q : State} (path : A.EpsilonPath p q)
    (closed : ∀ s ∈ S, ∀ t ∈ A.targets s .epsilon, t ∈ S) (member : p ∈ S) : q ∈ S := by
  induction path with
  | refl => exact member
  | cons edge _ ih => exact ih (closed _ member _ edge)

/-- The ε-closure of some states is what ε-paths reach from them. -/
theorem mem_epsilonClosure_iff {seeds : List State} {t : State} :
    t ∈ A.epsilonClosure seeds ↔ ∃ s ∈ seeds, A.EpsilonPath s t := by
  constructor
  · intro member
    exact (of_mem_closureFrom ∅ seeds t member).resolve_left Std.ExtTreeSet.not_mem_empty
  · rintro ⟨s, seed, path⟩
    exact path.mem_of_closed
      (closureFrom_closed ∅ seeds fun p member => absurd member Std.ExtTreeSet.not_mem_empty)
      (pending_subset_closureFrom ∅ seeds s seed)

theorem mem_step_iff {S : StateSet} {c : Char} {q : State} :
    q ∈ A.step S c ↔ ∃ p ∈ S, q ∈ A.targets p (.symbol c) := by
  have folded : ∀ (states : List State) (reached : StateSet),
      q ∈ states.foldl (fun reached s => reached ∪ A.targets s (.symbol c)) reached ↔
        q ∈ reached ∨ ∃ p ∈ states, q ∈ A.targets p (.symbol c) := by
    intro states
    induction states with
    | nil => simp
    | cons s rest ih =>
        intro reached
        rw [List.foldl_cons, ih, Std.ExtTreeSet.mem_union_iff]
        simp only [List.mem_cons, exists_eq_or_imp, or_assoc]
  rw [step, folded]
  simp

/-- What follows a set of states on a symbol is what paths reach that read the symbol first. -/
theorem mem_successor_iff {S : StateSet} {c : Char} {q : State} :
    q ∈ A.successor S c ↔
      ∃ p ∈ S, ∃ t ∈ A.targets p (.symbol c), A.EpsilonPath t q := by
  rw [successor, mem_epsilonClosure_iff]
  simp only [Std.ExtTreeSet.mem_toList, mem_step_iff]
  grind

end Nfa

end PostfixAutomata
