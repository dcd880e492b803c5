import Mathlib
import PostfixAutomata.Proofs.Automaton.Statistics
import PostfixAutomata.Proofs.Interpreter.Runs
import PostfixAutomata.Proofs.Machine.Drawn

set_option autoImplicit false

/-!
Who owns the states on the stack. All automata draw from the counter of the interpreter, it is above
all of their states, and no two of them share a state: an operation takes the states of its
operands, which leave the stack, and draws the rest. So no word meets an automaton of a foreign
counter.
-/

namespace PostfixAutomata

namespace Interpreter

/-- The interpreters that words lead to from a new one, whatever the sink and whether or not a word
fails. -/
inductive Reachable : Interpreter → Prop
  | new : Reachable {}
  | step {i : Interpreter} {sink : Sink} {word : String} {outcome : Outcome Flow} :
    Reachable i → i.execute sink word = .ok outcome → Reachable outcome.interpreter

structure Owned (i : Interpreter) : Prop where
  ids_eq : ∀ {M : Machine}, M ∈ i.stack → M.ids = i.ids
  sound : ∀ {M : Machine}, M ∈ i.stack → M.Sound i.counter
  apart : i.stack.Pairwise fun M N => ∀ s ∈ M.states, s ∉ N.states

variable {i : Interpreter} {word : String} {effect : Effect} {d : Defect}

theorem owned_new : Owned {} := ⟨nofun, nofun, .nil⟩

theorem Owned.sound_top (owned : i.Owned) {top : Machine} {rest : List Machine}
    (found : i.stack = top :: rest) : top.Sound i.counter := by
  apply owned.sound
  rw [found]
  exact List.mem_cons_self

theorem Owned.sound_pair (owned : i.Owned) {second first : Machine} {rest : List Machine}
    (found : i.stack = second :: first :: rest) :
    first.Sound i.counter ∧ second.Sound i.counter := by
  refine ⟨?_, owned.sound_top found⟩
  apply owned.sound
  rw [found]
  exact List.mem_cons_of_mem _ List.mem_cons_self

/-- An automaton that is drawn from some topmost ones and from the counter may take their place. -/
theorem Owned.exchange (owned : i.Owned) (consumed : List Machine) {rest : List Machine}
    (split : i.stack = consumed ++ rest) {M : Machine} {old : State → Prop} {c : Counter}
    (drawn : M.Drawn i.ids old i.counter c)
    (taken : ∀ {s : State}, old s → ∃ N ∈ consumed, s ∈ N.states) :
    Owned { i with counter := c, stack := M :: rest } := by
  have kept : ∀ {N : Machine}, N ∈ rest → N ∈ i.stack := by
    intro N member
    rw [split]
    exact List.mem_append_right consumed member
  have apart := owned.apart
  rw [split, List.pairwise_append] at apart
  obtain ⟨_, apartRest, apartBetween⟩ := apart
  refine ⟨?_, ?_, List.pairwise_cons.mpr ⟨?_, apartRest⟩⟩
  · intro N member
    rcases List.mem_cons.mp member with rfl | member
    · exact drawn.ids_eq
    · exact owned.ids_eq (kept member)
  · intro N member
    rcases List.mem_cons.mp member with rfl | member
    · exact drawn.sound
    · exact (owned.sound (kept member)).mono drawn.grows
  · intro N member s inside shared
    rcases drawn.origin inside with known | issued
    · obtain ⟨K, used, origin⟩ := taken known
      exact apartBetween K used N member s origin shared
    · have below := (owned.sound (kept member)).below shared
      omega

/-- Every command keeps the ownership of states. -/
theorem Turn.owned {command : Command} {i' : Interpreter} (turn : i.Turn command i')
    (owned : i.Owned) : i'.Owned := by
  have drawnFromTop : ∀ {top M : Machine} {rest : List Machine} {c : Counter},
      i.stack = top :: rest → M.Drawn top.ids (· ∈ top.states) i.counter c →
        Owned { i with counter := c, stack := M :: rest } := by
    intro top M rest c found drawn
    rw [owned.ids_eq (by simp [found])] at drawn
    exact owned.exchange [top] found drawn fun inside => ⟨top, by simp, inside⟩
  have drawnFromTwo : ∀ {second first : Machine} {A : Nfa} {rest : List Machine} {c : Counter},
      i.stack = second :: first :: rest → A.Drawn first.toNfa.ids
        (fun s => s ∈ first.toNfa.states ∨ s ∈ second.toNfa.states) i.counter c →
        Owned { i with counter := c, stack := .nfa A :: rest } := by
    intro second first A rest c found drawn
    obtain ⟨soundFirst, soundSecond⟩ := owned.sound_pair found
    rw [Machine.ids_toNfa, owned.ids_eq (by simp [found])] at drawn
    refine owned.exchange [second, first] found (.ofNfa drawn) ?_
    intro s inside
    cases inside with
    | inl inside => exact ⟨first, by simp, (Machine.mem_states_toNfa soundFirst).mp inside⟩
    | inr inside => exact ⟨second, by simp, (Machine.mem_states_toNfa soundSecond).mp inside⟩
  cases turn with
  | keep => exact owned
  | literal built => exact owned.exchange [] rfl (.ofNfa (Nfa.drawn_literal built)) False.elim
  | determinize found ran =>
      exact drawnFromTop found (.ofDfa (Machine.drawn_toDfa (owned.sound_top found) ran))
  | complement found ran =>
      exact drawnFromTop found (.ofDfa (Machine.drawn_complement (owned.sound_top found) ran))
  | star found ran =>
      exact drawnFromTop found (.ofNfa (Machine.drawn_star (owned.sound_top found) ran))
  | union found ran =>
      obtain ⟨soundFirst, soundSecond⟩ := owned.sound_pair found
      exact drawnFromTwo found (Nfa.drawn_union soundFirst.toNfa soundSecond.toNfa ran)
  | concat found ran =>
      obtain ⟨soundFirst, soundSecond⟩ := owned.sound_pair found
      exact drawnFromTwo found (Nfa.drawn_concat soundFirst.toNfa soundSecond.toNfa ran)

theorem Reachable.owned (reachable : i.Reachable) : i.Owned := by
  induction reachable with
  | new => exact owned_new
  | @step i sink word outcome _ ran ih =>
      rcases execute_eq_ok ran with same | turn
      · rw [same]
        exact ih
      · exact turn.owned ih

theorem Reachable.executeEach (reachable : i.Reachable) {sink : Sink} {words : List String}
    {outcomes : List (Outcome Flow)} (ran : i.executeEach sink words = .ok outcomes) :
    ∀ outcome ∈ outcomes, outcome.interpreter.Reachable := by
  induction words generalizing i sink outcomes with
  | nil =>
      cases ran
      exact nofun
  | cons word rest ih =>
      obtain ⟨first, executed, remaining⟩ := bind_eq_ok_iff.mp ran
      obtain ⟨later, continued, done⟩ := bind_eq_ok_iff.mp remaining
      cases done
      intro outcome member
      have next := reachable.step executed
      rcases List.mem_cons.mp member with rfl | member
      · exact next
      · exact ih next continued outcome member

/-! Defects. -/

theorem replace_eq_exhausted {change : Machine → Alloc Machine}
    (total : ∀ M : Machine, (change M).OnlyExhausts) (failed : i.replace word change = .error d) :
    d = .identifiersExhausted := by
  obtain ⟨top, _, _, failed⟩ := replace_eq_error failed
  exact total top failed

theorem combine_eq_exhausted (owned : i.Owned) {operator : Nfa → Nfa → Alloc Nfa}
    (total : ∀ {A B : Nfa}, A.ids = B.ids → (operator A B).OnlyExhausts)
    (failed : i.combine word operator = .error d) : d = .identifiersExhausted := by
  obtain ⟨second, first, rest, found, failed⟩ := combine_eq_error failed
  have idsFirst : first.ids = i.ids := owned.ids_eq (by simp [found])
  have idsSecond : second.ids = i.ids := owned.ids_eq (by simp [found])
  refine total ?_ failed
  rw [Machine.ids_toNfa, Machine.ids_toNfa, idsFirst, idsSecond]

/-- A command runs out of identifiers, or else it asks for statistics whose total overflows. -/
theorem perform_eq_error (owned : i.Owned) {command : Command}
    (failed : i.perform word command = .error d) :
    d = .identifiersExhausted ∨
      ∃ top rest, i.stack = top :: rest ∧ top.statistics.transitions = .error d := by
  cases command with
  | done => cases failed
  | size =>
      obtain ⟨_, _, _, failed⟩ := answer_eq_error failed
      cases failed
  | print =>
      obtain ⟨_, _, _, failed⟩ := answer_eq_error failed
      cases failed
  | statistics =>
      obtain ⟨top, rest, found, failed⟩ := answer_eq_error failed
      rcases bind_eq_error_iff.mp failed with failed | ⟨text, _, failed⟩
      · exact .inr ⟨top, rest, found, (Statistics.text_eq_error_iff _ _).mp failed⟩
      · cases failed
  | generate bound =>
      obtain ⟨top, _, _, failed⟩ := answer_eq_error failed
      rcases bind_eq_error_iff.mp (map_eq_error_iff.mp failed) with failed | ⟨D, _, failed⟩
      · exact .inl (Machine.scratchDfa_eq_error failed)
      · cases failed
  | test input =>
      obtain ⟨top, _, _, failed⟩ := answer_eq_error failed
      rcases bind_eq_error_iff.mp (map_eq_error_iff.mp failed) with failed | ⟨D, _, failed⟩
      · exact .inl (Machine.scratchDfa_eq_error failed)
      · cases failed
  | determinize => exact .inl (replace_eq_exhausted (fun M => M.onlyExhausts_toDfa.map _) failed)
  | complement =>
      exact .inl (replace_eq_exhausted (fun M => M.onlyExhausts_complement.map _) failed)
  | star =>
      exact .inl (replace_eq_exhausted (fun M => (Nfa.onlyExhausts_star M.toNfa).map _) failed)
  | literal l => exact .inl (Nfa.onlyExhausts_literal i.ids l (push_eq_error failed))
  | union => exact .inl (combine_eq_exhausted owned Nfa.onlyExhausts_union failed)
  | concat => exact .inl (combine_eq_exhausted owned Nfa.onlyExhausts_concat failed)
  | unknown => cases failed

/-- In every reachable interpreter the stack owns its states: all automata draw from the counter of
the interpreter, which is above all of their states, and no two of them share a state. So no word
meets an automaton of a foreign counter. -/
theorem stack_owns_states (reachable : i.Reachable) :
    (∀ M ∈ i.stack, M.ids = i.ids ∧ ∀ s ∈ M.states, s.id < i.counter.next) ∧
      i.stack.Pairwise (fun M N => ∀ s ∈ M.states, s ∉ N.states) ∧
      ∀ (sink : Sink) (word : String), i.execute sink word ≠ .error .foreignAllocator := by
  have owned := reachable.owned
  refine ⟨?_, owned.apart, ?_⟩
  · intro M member
    exact ⟨owned.ids_eq member, fun s inside => (owned.sound member).below inside⟩
  · intro sink word failed
    rcases perform_eq_error owned (execute_eq_error failed) with same | ⟨top, _, _, overflow⟩
    · cases same
    · rcases Statistics.transitions_eq_error overflow with same | same
      · cases same
      · cases same

theorem stack_owns_states_complement :
    ∃ i : Interpreter, i.Reachable ∧ i.stack.length = 2 ∧
      (∀ M ∈ i.stack, M.ids = i.ids ∧ ∀ s ∈ M.states, s.id < i.counter.next) ∧
      i.stack.Pairwise (fun M N => ∀ s ∈ M.states, s ∉ N.states) ∧
      ∀ (sink : Sink) (word : String), i.execute sink word ≠ .error .foreignAllocator := by
  have computed : ((executeEach {} {} ["a", "COMPLEMENT", "b", "|", "c"]).toOption.bind
      (·.getLast?)).map (·.interpreter.stack.length) = some 2 := by cbv
  obtain ⟨outcome, found, two⟩ := Option.map_eq_some_iff.mp computed
  obtain ⟨outcomes, ran, last⟩ := Option.bind_eq_some_iff.mp found
  have reachable := Reachable.new.executeEach (toOption_eq_some_iff.mp ran) outcome
    (List.mem_of_getLast? last)
  exact ⟨outcome.interpreter, reachable, two, stack_owns_states reachable⟩

end Interpreter

end PostfixAutomata
