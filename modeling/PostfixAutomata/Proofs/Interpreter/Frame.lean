import PostfixAutomata.Proofs.Interpreter.Queries
import PostfixAutomata.Proofs.Interpreter.Reading

set_option autoImplicit false

/-!
Automata further down the stack. A word takes its operands from the top and draws its states from
the counter, so words that succeed do the same with any automata below the ones they have, and leave
those where they are.
-/

namespace PostfixAutomata

namespace Interpreter

variable {i : Interpreter} {below : List Machine} {word : String} {effect : Effect}
  {command : Command}

/-! More automata below. -/

/-- An interpreter with further automata below its own. -/
def above (i : Interpreter) (below : List Machine) : Interpreter :=
  { i with stack := i.stack ++ below }

def Effect.above (effect : Effect) (below : List Machine) : Effect :=
  { effect with next := effect.next.above below }

def Outcome.above {α : Type} (outcome : Outcome α) (below : List Machine) : Outcome α :=
  { outcome with interpreter := outcome.interpreter.above below }

theorem stack_above_of_cons {top : Machine} {rest : List Machine} (found : i.stack = top :: rest) :
    (i.above below).stack = top :: (rest ++ below) := by
  rw [above, found, List.cons_append]

/-! Commands. -/

theorem answer_above {question : Machine → Except Defect String}
    (ran : i.answer word question = .ok (.ok effect)) :
    (i.above below).answer word question = .ok (.ok (effect.above below)) := by
  obtain ⟨top, rest, text, found, answered, rfl⟩ := answer_eq_ok ran
  rw [answer, stack_above_of_cons found]
  exact bind_eq_ok_iff.mpr ⟨text, answered, rfl⟩

theorem replace_above {change : Machine → Alloc Machine}
    (ran : i.replace word change = .ok (.ok effect)) :
    (i.above below).replace word change = .ok (.ok (effect.above below)) := by
  obtain ⟨top, rest, m, counter, found, changed, rfl⟩ := replace_eq_ok ran
  rw [replace, stack_above_of_cons found]
  exact bind_eq_ok_iff.mpr ⟨(m, counter), changed, rfl⟩

theorem combine_above {operator : Nfa → Nfa → Alloc Nfa}
    (ran : i.combine word operator = .ok (.ok effect)) :
    (i.above below).combine word operator = .ok (.ok (effect.above below)) := by
  obtain ⟨second, first, rest, A, counter, found, combined, rfl⟩ := combine_eq_ok ran
  rw [combine, stack_above_of_cons found]
  exact bind_eq_ok_iff.mpr ⟨(A, counter), combined, rfl⟩

theorem push_above {build : Alloc Nfa} (ran : i.push build = .ok (.ok effect)) :
    (i.above below).push build = .ok (.ok (effect.above below)) := by
  obtain ⟨A, counter, built, rfl⟩ := push_eq_ok ran
  exact bind_eq_ok_iff.mpr ⟨(A, counter), built, rfl⟩

/-- A command that is carried out is carried out alike with further automata below. -/
theorem perform_above (ran : i.perform word command = .ok (.ok effect)) :
    (i.above below).perform word command = .ok (.ok (effect.above below)) := by
  cases command with
  | done =>
      cases ran
      rfl
  | unknown =>
      cases ran
      rfl
  | size | print | statistics | generate | test => exact answer_above ran
  | determinize | complement | star => exact replace_above ran
  | union | concat => exact combine_above ran
  | literal => exact push_above ran

/-! Words. -/

variable {sink : Sink} {outcome : Outcome Flow} {flow : Flow} {words : List String}
  {outcomes : List (Outcome Flow)}

theorem execute_above (ran : i.execute sink word = .ok outcome)
    (succeeds : outcome.result = .ok flow) :
    (i.above below).execute sink word = .ok (outcome.above below) := by
  rcases taken : sink.write (remark word (Command.read word.toList).2) with ⟨between, written⟩
  cases written with
  | false =>
      rw [execute_of_unremarked taken] at ran
      cases ran
      cases succeeds
  | true =>
      rw [execute_of_remarked taken] at ran ⊢
      obtain ⟨performed, carried, rfl⟩ := map_eq_ok_iff.mp ran
      cases performed with
      | error fault => cases succeeds
      | ok effect => exact map_eq_ok_iff.mpr ⟨_, perform_above carried, rfl⟩

theorem executeEach_above (ran : i.executeEach sink words = .ok outcomes)
    (succeed : ∀ outcome ∈ outcomes, ∃ flow, outcome.result = .ok flow) :
    (i.above below).executeEach sink words = .ok (outcomes.map (·.above below)) ∧
      (i.above below).settled (outcomes.map (·.above below)) =
        (i.settled outcomes).above below := by
  induction words generalizing i sink outcomes with
  | nil =>
      cases ran
      exact ⟨rfl, rfl⟩
  | cons word words ih =>
      obtain ⟨outcome, executed, remaining⟩ := bind_eq_ok_iff.mp ran
      obtain ⟨later, continued, done⟩ := bind_eq_ok_iff.mp remaining
      cases done
      obtain ⟨⟨flow, succeeds⟩, succeed⟩ := List.forall_mem_cons.mp succeed
      obtain ⟨replayed, settles⟩ := ih continued succeed
      refine ⟨?_, settles⟩
      exact bind_eq_ok_iff.mpr
        ⟨_, execute_above executed succeeds, bind_eq_ok_iff.mpr ⟨_, replayed, rfl⟩⟩

theorem executeAll_above (ran : i.executeAll sink words = .ok outcome)
    (succeeds : outcome.result = .ok flow) :
    (i.above below).executeAll sink words = .ok (outcome.above below) := by
  induction words generalizing i sink with
  | nil =>
      cases ran
      rfl
  | cons word words ih =>
      rw [executeAll_cons] at ran ⊢
      obtain ⟨first, executed, ran⟩ := bind_eq_ok_iff.mp ran
      by_cases proceeds : first.result = .ok .proceed
      · rw [Outcome.andThen_of_proceeds proceeds] at ran
        have still : (first.above below).result = .ok .proceed := proceeds
        refine bind_eq_ok_iff.mpr ⟨_, execute_above executed proceeds, ?_⟩
        rw [Outcome.andThen_of_proceeds still]
        exact ih ran
      · rw [Outcome.andThen_of_stops proceeds] at ran
        cases ran
        have still : (outcome.above below).result ≠ .ok .proceed := proceeds
        refine bind_eq_ok_iff.mpr ⟨_, execute_above executed succeeds, ?_⟩
        rw [Outcome.andThen_of_stops still]

/-- The stack is used from its top. Words that all succeed do the same above further automata: each
comes to the same result with the same output and the same counter, and leaves its automata above
those further ones. The same holds of words that are executed up to one that ends the run. -/
theorem words_leave_stack_below (i : Interpreter) (below : List Machine) (sink : Sink)
    (words : List String) :
    (∀ outcomes, i.executeEach sink words = .ok outcomes →
      (∀ outcome ∈ outcomes, ∃ flow, outcome.result = .ok flow) →
      (i.above below).executeEach sink words = .ok (outcomes.map (·.above below)) ∧
        (i.above below).settled (outcomes.map (·.above below)) = (i.settled outcomes).above below) ∧
    ∀ outcome flow, i.executeAll sink words = .ok outcome → outcome.result = .ok flow →
      (i.above below).executeAll sink words = .ok (outcome.above below) :=
  ⟨fun _ ran succeed => executeEach_above ran succeed,
    fun _ _ ran succeeds => executeAll_above ran succeeds⟩

/-- A union that is determinized and asked, and one that ends the run, above an automaton that was
there before. -/
theorem words_leave_stack_below_union :
    ∃ A counter outcomes outcome, (Nfa.literal ⟨0⟩ (.symbol 'c')).run {} = .ok (A, counter) ∧
      executeEach { counter } {} ["a", "b", "|", "DFA", "\"b\""] = .ok outcomes ∧
      executeEach { counter, stack := [.nfa A] } {} ["a", "b", "|", "DFA", "\"b\""] =
        .ok (outcomes.map (·.above [.nfa A])) ∧
      executeAll { counter } {} ["a", "b", "|", "DONE", "|"] = .ok outcome ∧
      executeAll { counter, stack := [.nfa A] } {} ["a", "b", "|", "DONE", "|"] =
        .ok (outcome.above [.nfa A]) := by
  obtain ⟨A, built⟩ : ∃ A, (Nfa.literal ⟨0⟩ (.symbol 'c')).run {} = .ok (A, ⟨2⟩) := ⟨_, rfl⟩
  have computed : (fun outcomes => outcomes.all (·.result.isOk)) <$>
      executeEach { counter := ⟨2⟩ } {} ["a", "b", "|", "DFA", "\"b\""] = .ok true := by cbv
  obtain ⟨outcomes, ran, all⟩ := map_eq_ok_iff.mp computed
  have ends : Outcome.result <$>
      executeAll { counter := ⟨2⟩ } {} ["a", "b", "|", "DONE", "|"] = .ok (.ok .done) := by cbv
  obtain ⟨outcome, ran', done⟩ := map_eq_ok_iff.mp ends
  have succeed : ∀ outcome ∈ outcomes, ∃ flow, outcome.result = .ok flow := by
    intro outcome member
    have succeeds := List.all_eq_true.mp all outcome member
    cases found : outcome.result with
    | error fault =>
        rw [found] at succeeds
        cases succeeds
    | ok flow => exact ⟨flow, rfl⟩
  exact ⟨A, ⟨2⟩, outcomes, outcome, built, ran,
    ((words_leave_stack_below { counter := ⟨2⟩ } [.nfa A] {} _).1 outcomes ran succeed).1, ran',
    (words_leave_stack_below { counter := ⟨2⟩ } [.nfa A] {} _).2 outcome .done ran' done⟩

end Interpreter

end PostfixAutomata
