import PostfixAutomata.Interpreter
import PostfixAutomata.Proofs.Allocation
import PostfixAutomata.Proofs.Interpreter.Command

set_option autoImplicit false

/-!
What a command makes of an interpreter when it succeeds, in one relation with a case for each way
to change the stack (`Turn`), and where a fault or a defect comes from.
-/

namespace PostfixAutomata

namespace Interpreter

variable {i : Interpreter} {word : String} {effect : Effect} {fault : Fault} {d : Defect}

/-! Questions. -/

section Answer

variable {question : Machine → Except Defect String}

theorem answer_eq_ok (ran : i.answer word question = .ok (.ok effect)) :
    ∃ top rest text, i.stack = top :: rest ∧ question top = .ok text ∧
      effect = { text, next := i } := by
  unfold answer at ran
  cases found : i.stack with
  | nil =>
      rw [found] at ran
      cases ran
  | cons top rest =>
      rw [found] at ran
      obtain ⟨text, answered, done⟩ := bind_eq_ok_iff.mp ran
      exact ⟨top, rest, text, rfl, answered, (Except.ok.inj (Except.ok.inj done)).symm⟩

theorem answer_eq_fault (failed : i.answer word question = .ok (.error fault)) :
    i.stack.length < 1 ∧ fault = .underflow word 1 := by
  unfold answer at failed
  cases found : i.stack with
  | nil =>
      rw [found] at failed
      exact ⟨Nat.one_pos, (Except.error.inj (Except.ok.inj failed)).symm⟩
  | cons top rest =>
      rw [found] at failed
      obtain ⟨text, _, done⟩ := bind_eq_ok_iff.mp failed
      cases done

theorem answer_eq_error (failed : i.answer word question = .error d) :
    ∃ top rest, i.stack = top :: rest ∧ question top = .error d := by
  unfold answer at failed
  cases found : i.stack with
  | nil =>
      rw [found] at failed
      cases failed
  | cons top rest =>
      rw [found] at failed
      rcases bind_eq_error_iff.mp failed with failed | ⟨text, _, failed⟩
      · exact ⟨top, rest, rfl, failed⟩
      · cases failed

end Answer

/-! Replacements of the topmost automaton. -/

section Replace

variable {change : Machine → Alloc Machine}

theorem replace_eq_ok (ran : i.replace word change = .ok (.ok effect)) :
    ∃ top rest m counter, i.stack = top :: rest ∧ (change top).run i.counter = .ok (m, counter) ∧
      effect = { next := { i with counter, stack := m :: rest } } := by
  unfold replace at ran
  cases found : i.stack with
  | nil =>
      rw [found] at ran
      cases ran
  | cons top rest =>
      rw [found] at ran
      obtain ⟨⟨m, counter⟩, changed, done⟩ := bind_eq_ok_iff.mp ran
      exact ⟨top, rest, m, counter, rfl, changed, (Except.ok.inj (Except.ok.inj done)).symm⟩

theorem replace_eq_fault (failed : i.replace word change = .ok (.error fault)) :
    i.stack.length < 1 ∧ fault = .underflow word 1 := by
  unfold replace at failed
  cases found : i.stack with
  | nil =>
      rw [found] at failed
      exact ⟨Nat.one_pos, (Except.error.inj (Except.ok.inj failed)).symm⟩
  | cons top rest =>
      rw [found] at failed
      obtain ⟨changed, _, done⟩ := bind_eq_ok_iff.mp failed
      cases done

theorem replace_eq_error (failed : i.replace word change = .error d) :
    ∃ top rest, i.stack = top :: rest ∧ (change top).run i.counter = .error d := by
  unfold replace at failed
  cases found : i.stack with
  | nil =>
      rw [found] at failed
      cases failed
  | cons top rest =>
      rw [found] at failed
      rcases bind_eq_error_iff.mp failed with failed | ⟨m, _, failed⟩
      · exact ⟨top, rest, rfl, failed⟩
      · cases failed

end Replace

/-! Operators on the two topmost automata. -/

section Combine

variable {operator : Nfa → Nfa → Alloc Nfa}

theorem combine_eq_ok (ran : i.combine word operator = .ok (.ok effect)) :
    ∃ second first rest A counter, i.stack = second :: first :: rest ∧
      (operator first.toNfa second.toNfa).run i.counter = .ok (A, counter) ∧
      effect = { next := { i with counter, stack := .nfa A :: rest } } := by
  unfold combine at ran
  split at ran
  · rename_i second first rest found
    obtain ⟨⟨A, counter⟩, changed, done⟩ := bind_eq_ok_iff.mp ran
    exact ⟨second, first, rest, A, counter, found, changed,
      (Except.ok.inj (Except.ok.inj done)).symm⟩
  · cases ran

theorem combine_eq_fault (failed : i.combine word operator = .ok (.error fault)) :
    i.stack.length < 2 ∧ fault = .underflow word 2 := by
  unfold combine at failed
  cases found : i.stack with
  | nil =>
      rw [found] at failed
      exact ⟨Nat.two_pos, (Except.error.inj (Except.ok.inj failed)).symm⟩
  | cons second rest =>
      cases rest with
      | nil =>
          rw [found] at failed
          exact ⟨Nat.one_lt_two, (Except.error.inj (Except.ok.inj failed)).symm⟩
      | cons first rest =>
          rw [found] at failed
          obtain ⟨combined, _, done⟩ := bind_eq_ok_iff.mp failed
          cases done

theorem combine_eq_error (failed : i.combine word operator = .error d) :
    ∃ second first rest, i.stack = second :: first :: rest ∧
      (operator first.toNfa second.toNfa).run i.counter = .error d := by
  unfold combine at failed
  split at failed
  · rename_i second first rest found
    rcases bind_eq_error_iff.mp failed with failed | ⟨A, _, failed⟩
    · exact ⟨second, first, rest, found, failed⟩
    · cases failed
  · cases failed

end Combine

/-! New automata on top. -/

section Push

variable {build : Alloc Nfa}

theorem push_eq_ok (ran : i.push build = .ok (.ok effect)) :
    ∃ A counter, build.run i.counter = .ok (A, counter) ∧
      effect = { next := { i with counter, stack := .nfa A :: i.stack } } := by
  obtain ⟨⟨A, counter⟩, built, done⟩ := bind_eq_ok_iff.mp ran
  exact ⟨A, counter, built, (Except.ok.inj (Except.ok.inj done)).symm⟩

theorem push_eq_error (failed : i.push build = .error d) : build.run i.counter = .error d := by
  rcases bind_eq_error_iff.mp failed with failed | ⟨A, _, failed⟩
  · exact failed
  · cases failed

end Push

/-! Commands. -/

/-- What a command makes of an interpreter when it succeeds. -/
inductive Turn (i : Interpreter) : Command → Interpreter → Prop
  /-- The commands that ask, end the run or are unknown leave everything as it is. -/
  | keep {command : Command} : command.keepsStack = true → Turn i command i
  | literal {l : Label} {A : Nfa} {counter : Counter} :
    (Nfa.literal i.ids l).run i.counter = .ok (A, counter) →
      Turn i (.literal l) { i with counter, stack := .nfa A :: i.stack }
  | determinize {top : Machine} {rest : List Machine} {D : Dfa} {counter : Counter} :
    i.stack = top :: rest → top.toDfa.run i.counter = .ok (D, counter) →
      Turn i .determinize { i with counter, stack := .dfa D :: rest }
  | complement {top : Machine} {rest : List Machine} {D : Dfa} {counter : Counter} :
    i.stack = top :: rest → top.complement.run i.counter = .ok (D, counter) →
      Turn i .complement { i with counter, stack := .dfa D :: rest }
  | star {top : Machine} {rest : List Machine} {A : Nfa} {counter : Counter} :
    i.stack = top :: rest → top.toNfa.star.run i.counter = .ok (A, counter) →
      Turn i .star { i with counter, stack := .nfa A :: rest }
  | union {second first : Machine} {rest : List Machine} {A : Nfa} {counter : Counter} :
    i.stack = second :: first :: rest →
    (first.toNfa.union second.toNfa).run i.counter = .ok (A, counter) →
      Turn i .union { i with counter, stack := .nfa A :: rest }
  | concat {second first : Machine} {rest : List Machine} {A : Nfa} {counter : Counter} :
    i.stack = second :: first :: rest →
    (first.toNfa.concat second.toNfa).run i.counter = .ok (A, counter) →
      Turn i .concat { i with counter, stack := .nfa A :: rest }

theorem perform_eq_ok {command : Command} (ran : i.perform word command = .ok (.ok effect)) :
    i.Turn command effect.next := by
  have asked : ∀ {question : Machine → Except Defect String}, command.keepsStack = true →
      i.answer word question = .ok (.ok effect) → i.Turn command effect.next := by
    intro question keeps answered
    obtain ⟨_, _, _, _, _, rfl⟩ := answer_eq_ok answered
    exact .keep keeps
  cases command with
  | done =>
      cases ran
      exact .keep rfl
  | size => exact asked rfl ran
  | print => exact asked rfl ran
  | statistics => exact asked rfl ran
  | generate bound => exact asked rfl ran
  | test input => exact asked rfl ran
  | determinize =>
      obtain ⟨top, rest, M, counter, found, changed, rfl⟩ := replace_eq_ok ran
      obtain ⟨D, determinized, rfl⟩ := Alloc.run_map_eq_ok_iff.mp changed
      exact .determinize found determinized
  | complement =>
      obtain ⟨top, rest, M, counter, found, changed, rfl⟩ := replace_eq_ok ran
      obtain ⟨D, complemented, rfl⟩ := Alloc.run_map_eq_ok_iff.mp changed
      exact .complement found complemented
  | star =>
      obtain ⟨top, rest, M, counter, found, changed, rfl⟩ := replace_eq_ok ran
      obtain ⟨A, starred, rfl⟩ := Alloc.run_map_eq_ok_iff.mp changed
      exact .star found starred
  | literal l =>
      obtain ⟨A, counter, built, rfl⟩ := push_eq_ok ran
      exact .literal built
  | union =>
      obtain ⟨second, first, rest, A, counter, found, combined, rfl⟩ := combine_eq_ok ran
      exact .union found combined
  | concat =>
      obtain ⟨second, first, rest, A, counter, found, combined, rfl⟩ := combine_eq_ok ran
      exact .concat found combined
  | unknown =>
      cases ran
      exact .keep rfl

/-- Only one command ends the run. -/
theorem flow_of_perform {command : Command} (ran : i.perform word command = .ok (.ok effect)) :
    effect.flow = .done ↔ command = .done := by
  cases command with
  | done =>
      cases ran
      exact ⟨fun _ => rfl, fun _ => rfl⟩
  | unknown =>
      cases ran
      exact ⟨nofun, nofun⟩
  | literal l =>
      obtain ⟨_, _, _, rfl⟩ := push_eq_ok ran
      exact ⟨nofun, nofun⟩
  | size | print | statistics | generate | test =>
      obtain ⟨_, _, _, _, _, rfl⟩ := answer_eq_ok ran
      exact ⟨nofun, nofun⟩
  | determinize | complement | star =>
      obtain ⟨_, _, _, _, _, _, rfl⟩ := replace_eq_ok ran
      exact ⟨nofun, nofun⟩
  | union | concat =>
      obtain ⟨_, _, _, _, _, _, _, rfl⟩ := combine_eq_ok ran
      exact ⟨nofun, nofun⟩

/-- A command is refused for want of operands only. -/
theorem perform_eq_fault {command : Command}
    (failed : i.perform word command = .ok (.error fault)) :
    i.stack.length < command.operands ∧ fault = .underflow word command.operands := by
  cases command with
  | done => cases failed
  | unknown => cases failed
  | literal l =>
      obtain ⟨built, _, done⟩ := bind_eq_ok_iff.mp failed
      cases done
  | size => exact answer_eq_fault failed
  | print => exact answer_eq_fault failed
  | statistics => exact answer_eq_fault failed
  | generate bound => exact answer_eq_fault failed
  | test input => exact answer_eq_fault failed
  | determinize => exact replace_eq_fault failed
  | complement => exact replace_eq_fault failed
  | star => exact replace_eq_fault failed
  | union => exact combine_eq_fault failed
  | concat => exact combine_eq_fault failed

/-! Words. -/

variable {sink : Sink} {outcome : Outcome Flow}

/-- What a word comes to whose remark is written and whose command is carried out or refused. -/
def deliver (i : Interpreter) (sink : Sink) : Except Fault Effect → Outcome Flow
  | .error fault => ⟨.error fault, i, sink⟩
  | .ok effect =>
    ⟨if (sink.write effect.text).2 then .ok effect.flow else .error .sinkFull, effect.next,
      (sink.write effect.text).1⟩

theorem execute_of_remarked {between : Sink}
    (taken : sink.write (remark word (Command.read word.toList).2) = (between, true)) :
    i.execute sink word = i.deliver between <$> i.perform word (Command.read word.toList).1 := by
  simp only [execute, taken]
  rcases i.perform word (Command.read word.toList).1 with d | fault | effect
  · rfl
  · rfl
  · dsimp only [bind, Except.bind, Functor.map, Except.map, deliver]
    rcases between.write effect.text with ⟨after, written⟩
    cases written <;> rfl

theorem execute_of_unremarked {between : Sink}
    (refused : sink.write (remark word (Command.read word.toList).2) = (between, false)) :
    i.execute sink word = .ok ⟨.error .sinkFull, i, between⟩ := by
  simp only [execute, refused]

/-- After a word the interpreter is what it was, or what the command of the word makes of it. -/
theorem execute_eq_ok (ran : i.execute sink word = .ok outcome) :
    outcome.interpreter = i ∨ i.Turn (Command.read word.toList).1 outcome.interpreter := by
  rcases taken : sink.write (remark word (Command.read word.toList).2) with ⟨between, written⟩
  cases written with
  | false =>
      rw [execute_of_unremarked taken] at ran
      cases ran
      exact .inl rfl
  | true =>
      rw [execute_of_remarked taken] at ran
      obtain ⟨performed, carried, rfl⟩ := map_eq_ok_iff.mp ran
      cases performed with
      | error fault => exact .inl rfl
      | ok effect => exact .inr (perform_eq_ok carried)

/-- A word that does not fail has its command carried out. -/
theorem perform_of_execute (ran : i.execute sink word = .ok outcome) {flow : Flow}
    (succeeds : outcome.result = .ok flow) :
    ∃ effect, i.perform word (Command.read word.toList).1 = .ok (.ok effect) ∧
      effect.flow = flow ∧ effect.next = outcome.interpreter := by
  rcases taken : sink.write (remark word (Command.read word.toList).2) with ⟨between, written⟩
  cases written with
  | false =>
      rw [execute_of_unremarked taken] at ran
      cases ran
      cases succeeds
  | true =>
      rw [execute_of_remarked taken] at ran
      obtain ⟨performed, carried, rfl⟩ := map_eq_ok_iff.mp ran
      cases performed with
      | error fault => cases succeeds
      | ok effect =>
          refine ⟨effect, carried, ?_, rfl⟩
          simp only [deliver] at succeeds
          split at succeeds
          · exact Except.ok.inj succeeds
          · cases succeeds

theorem turn_of_execute (ran : i.execute sink word = .ok outcome) {flow : Flow}
    (succeeds : outcome.result = .ok flow) :
    i.Turn (Command.read word.toList).1 outcome.interpreter := by
  obtain ⟨effect, carried, _, next⟩ := perform_of_execute ran succeeds
  rw [← next]
  exact perform_eq_ok carried

/-- Only a word of its own ends the run. -/
theorem flow_of_execute (ran : i.execute sink word = .ok outcome) {flow : Flow}
    (succeeds : outcome.result = .ok flow) :
    flow = .done ↔ (Command.read word.toList).1 = .done := by
  obtain ⟨effect, carried, rfl, _⟩ := perform_of_execute ran succeeds
  exact flow_of_perform carried

/-- A defect of a word is one of its command. -/
theorem execute_eq_error (failed : i.execute sink word = .error d) :
    i.perform word (Command.read word.toList).1 = .error d := by
  rcases taken : sink.write (remark word (Command.read word.toList).2) with ⟨between, written⟩
  cases written with
  | false =>
      rw [execute_of_unremarked taken] at failed
      cases failed
  | true =>
      rw [execute_of_remarked taken] at failed
      exact map_eq_error_iff.mp failed

end Interpreter

end PostfixAutomata
