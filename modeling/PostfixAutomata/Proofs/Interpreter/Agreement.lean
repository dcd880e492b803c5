import Mathlib
import PostfixAutomata.Proofs.Interpreter.Meaning

set_option autoImplicit false

/-!
Runs of words against what the words mean. As long as every text fits, each word leaves a stack that
stands for what it should stand for, and answers what it should answer.
-/

namespace PostfixAutomata

theorem Sink.write_of_unlimited {sink : Sink} (unlimited : sink.room = none) (text : String) :
    sink.write text = ({ sink with written := sink.written ++ text.toByteArray }, true) := by
  unfold write
  rw [unlimited]

namespace Interpreter

variable {i : Interpreter} {sink : Sink} {word : String} {command : Command}
variable {effect : Effect} {outcome : Outcome Flow} {d : Defect}

/-! One word. -/

/-- If every text fits, a word is refused as its command is, and then nothing changes, or else it
has the effect of its command and writes its remark and its text. -/
theorem execute_unlimited (unlimited : sink.room = none) (ran : i.execute sink word = .ok outcome) :
    outcome.sink.room = none ∧
      ((∃ fault, i.perform word (Command.read word.toList).1 = .ok (.error fault) ∧
          outcome.interpreter = i) ∨
        ∃ effect, i.perform word (Command.read word.toList).1 = .ok (.ok effect) ∧
          outcome.interpreter = effect.next ∧
          outcome.sink.written = sink.written
            ++ (remark word (Command.read word.toList).2).toByteArray
            ++ effect.text.toByteArray) := by
  rw [execute_of_remarked (Sink.write_of_unlimited unlimited _)] at ran
  obtain ⟨performed, carried, rfl⟩ := map_eq_ok_iff.mp ran
  cases performed with
  | error fault => exact ⟨unlimited, .inl ⟨fault, carried, rfl⟩⟩
  | ok effect =>
      rw [deliver, Sink.write_of_unlimited]
      · exact ⟨unlimited, .inr ⟨effect, carried, rfl, rfl⟩⟩
      · exact unlimited

/-- The text of a question is an answer about the language of the topmost automaton. -/
theorem Owned.answers (owned : i.Owned) {M : Machine} {rest : List Machine}
    (found : i.stack = M :: rest) (ran : i.perform word command = .ok (.ok effect)) :
    M.meaning.Answers effect.text.toByteArray command := by
  have sound := owned.sound_top found
  cases command with
  | test input =>
      obtain ⟨top, below, text, same, answered, rfl⟩ := answer_eq_ok ran
      cases found.symm.trans same
      obtain ⟨accepted, decided, rfl⟩ := map_eq_ok_iff.mp answered
      have verdict := Machine.accepts_eq_ok sound decided
      refine ⟨fun inside => ?_, fun outside => ?_⟩
      · rw [verdict.mpr inside]
        rfl
      · rw [Bool.eq_false_iff.mpr fun accepts => outside (verdict.mp accepts)]
        rfl
  | generate bound =>
      obtain ⟨top, below, text, same, answered, rfl⟩ := answer_eq_ok ran
      cases found.symm.trans same
      obtain ⟨inputs, listed, rfl⟩ := map_eq_ok_iff.mp answered
      obtain ⟨complete, ordered⟩ := Machine.words_eq_ok sound listed
      exact ⟨inputs, complete, ordered, rfl⟩
  | _ => trivial

/-- What a word should come to on a stack of pairs. -/
structure Agrees (stack : List Meaning) (word : String) (outcome : Outcome Flow) : Prop where
  stack_eq : outcome.interpreter.stack.map Machine.meaning =
    Meaning.step stack (Command.read word.toList).1
  answers : ∀ {top : Meaning} {rest : List Meaning}, stack = top :: rest →
    top.Answers outcome.sink.written (Command.read word.toList).1

theorem Reachable.execute_agrees (reachable : i.Reachable) (unlimited : sink.room = none)
    (empty : sink.written = .empty) (ran : i.execute sink word = .ok outcome) :
    Agrees (i.stack.map Machine.meaning) word outcome := by
  have owned := reachable.owned
  cases (execute_unlimited unlimited ran).2 with
  | inl refused =>
      obtain ⟨fault, refused, same⟩ := refused
      have short := (perform_eq_fault refused).1
      refine ⟨?_, ?_⟩
      · rw [same, Meaning.step_of_short (by rwa [List.length_map])]
      · intro top rest stack
        have height := congrArg List.length stack
        rw [List.length_map, List.length_cons] at height
        apply Meaning.answers_of_question
        intro _ one
        omega
  | inr carried =>
      obtain ⟨effect, carried, next, wrote⟩ := carried
      refine ⟨?_, ?_⟩
      · rw [next]
        exact (perform_eq_ok carried).meaning owned
      · intro top rest stack
        obtain ⟨M, below, found, rfl, _⟩ := List.map_eq_cons_iff.mp stack
        apply Meaning.answers_of_question
        intro keeps _
        have text : outcome.sink.written = effect.text.toByteArray := by
          rw [wrote, empty, Command.legal_of_keepsStack keeps]
          simp [remark]
        rw [text]
        exact owned.answers found carried

/-! Runs of words. -/

theorem executeEach_agrees (reachable : i.Reachable) (unlimited : sink.room = none)
    {words : List String} {outcomes : List (Outcome Flow)}
    (ran : i.executeEach sink words = .ok outcomes) :
    outcomes.length = words.length ∧
      ∀ {n : Nat} {word : String} {outcome : Outcome Flow}, words[n]? = some word →
        outcomes[n]? = some outcome →
          Agrees (Meaning.evaluate (i.stack.map Machine.meaning) (words.take n)) word outcome := by
  induction words generalizing i sink outcomes with
  | nil =>
      cases ran
      exact ⟨rfl, nofun⟩
  | cons first rest ih =>
      obtain ⟨next, executed, ran⟩ := bind_eq_ok_iff.mp ran
      obtain ⟨later, continued, done⟩ := bind_eq_ok_iff.mp ran
      cases done
      have drained : sink.drained.room = none := unlimited
      have agrees := reachable.execute_agrees drained rfl executed
      have room := (execute_unlimited drained executed).1
      obtain ⟨length, ih⟩ := ih (reachable.step executed) room continued
      refine ⟨congrArg (· + 1) length, ?_⟩
      intro n word outcome asked given
      cases n with
      | zero =>
          cases asked
          cases given
          exact agrees
      | succ n =>
          have remaining := ih asked given
          rw [agrees.stack_eq] at remaining
          exact remaining

theorem executeEach_eq_error (reachable : i.Reachable) {words : List String}
    (failed : i.executeEach sink words = .error d) : d = .identifiersExhausted := by
  induction words generalizing i sink with
  | nil => cases failed
  | cons word rest ih =>
      cases bind_eq_error_iff.mp failed with
      | inl failed => exact reachable.execute_eq_error failed
      | inr continued =>
          obtain ⟨outcome, executed, failed⟩ := continued
          cases bind_eq_error_iff.mp failed with
          | inl failed => exact ih (reachable.step executed) failed
          | inr returned =>
              obtain ⟨later, _, returned⟩ := returned
              cases returned

/-- The stack machine computes meanings. As long as no identifiers run out and every text fits, each
word of a run leaves a stack that stands for what the words so far mean, and each question is
answered about the meaning on top. -/
theorem executeEach_computes_meanings {sink : Sink} {words : List String}
    (unlimited : sink.room = none)
    (enough : executeEach {} sink words ≠ .error .identifiersExhausted) :
    ∃ outcomes, executeEach {} sink words = .ok outcomes ∧ outcomes.length = words.length ∧
      ∀ {n : Nat} {word : String} {outcome : Outcome Flow},
        words[n]? = some word → outcomes[n]? = some outcome →
          outcome.interpreter.stack.map Machine.meaning =
              Meaning.evaluate [] (words.take (n + 1)) ∧
            ∀ {top : Meaning} {rest : List Meaning},
              Meaning.evaluate [] (words.take n) = top :: rest →
                top.Answers outcome.sink.written (Command.read word.toList).1 := by
  cases ran : executeEach {} sink words with
  | error d =>
      have exhausted := executeEach_eq_error .new ran
      rw [ran, exhausted] at enough
      exact absurd rfl enough
  | ok outcomes =>
      obtain ⟨length, agrees⟩ := executeEach_agrees .new unlimited ran
      refine ⟨outcomes, rfl, length, ?_⟩
      intro n word outcome asked given
      have agrees := agrees asked given
      refine ⟨?_, agrees.answers⟩
      rw [agrees.stack_eq, List.take_add_one, asked]
      exact (Meaning.evaluate_concat _ _ _).symm

theorem executeEach_computes_meanings_union :
    ∃ outcomes, executeEach {} {} ["a", "b", "|", "\"b\""] = .ok outcomes ∧
      outcomes.length = 4 ∧ ∀ outcome, outcomes[3]? = some outcome →
        outcome.interpreter.stack.map Machine.meaning =
            [⟨{'a'} ∪ {'b'}, {['a']} + {['b']}⟩] ∧
          outcome.sink.written = "Accept b\n".toByteArray := by
  have computed : (executeEach {} {} ["a", "b", "|", "\"b\""]).isOk = true := by cbv
  have meaning : Meaning.evaluate [] ["a", "b", "|"] =
      [⟨{'a'} ∪ {'b'}, {['a']} + {['b']}⟩] := rfl
  have question : (Command.read "\"b\"".toList).1 = .test ['b'] := by decide
  have enough : executeEach {} {} ["a", "b", "|", "\"b\""] ≠ .error .identifiersExhausted := by
    intro failed
    rw [failed] at computed
    cases computed
  obtain ⟨outcomes, ran, length, agrees⟩ := executeEach_computes_meanings rfl enough
  refine ⟨outcomes, ran, length, ?_⟩
  intro outcome given
  obtain ⟨stack, answers⟩ := agrees rfl given
  refine ⟨stack.trans meaning, ?_⟩
  have answer := answers meaning
  rw [question] at answer
  exact answer.1 (.inr rfl)

end Interpreter

end PostfixAutomata
