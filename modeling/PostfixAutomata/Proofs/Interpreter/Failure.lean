import PostfixAutomata.Proofs.Interpreter.Slim

set_option autoImplicit false

/-!
Words that fail, with any writer. A word writes before it changes anything or it does not write at
all, and it asks for all of its operands before it takes the first. So a failure, of the writer or
for want of operands, leaves the interpreter as it was.
-/

namespace PostfixAutomata

/-- A writer: what becomes of it, and whether it took all of a text, in however many pieces. -/
abbrev Writer (σ : Type) := σ → String → σ × Bool

namespace Writer

variable {σ : Type} {w : Writer σ}

/-- Hands a text to a writer. It does not hear of an empty one. -/
def put (w : Writer σ) (s : σ) (text : String) : σ × Bool :=
  if text = "" then (s, true) else w s text

def NeverFails (w : Writer σ) : Prop := ∀ s text, (w s text).2 = true

theorem put_empty (s : σ) : w.put s "" = (s, true) := if_pos rfl

theorem NeverFails.put (reliable : w.NeverFails) (s : σ) (text : String) :
    (w.put s text).2 = true := by
  unfold Writer.put
  split
  · rfl
  · exact reliable s text

/-- A sink is a writer. -/
theorem put_sink (sink : Sink) (text : String) : put Sink.write sink text = sink.write text := by
  unfold put
  split
  · rename_i empty
    rw [empty, Sink.write_empty]
  · rfl

end Writer

namespace Interpreter

variable {σ : Type} {i : Interpreter} {w : Writer σ} {s : σ} {word : String} {command : Command}
  {effect : Effect} {fault : Fault} {d : Defect}

/-- Where things stand after a word that was executed with a writer. -/
structure Delivery (σ : Type) where
  result : Except Fault Flow
  interpreter : Interpreter
  writer : σ

/-- Executes one word with any writer. -/
def executeWith (i : Interpreter) (w : Writer σ) (s : σ) (word : String) :
    Except Defect (Delivery σ) :=
  let (command, illegal) := Command.read word.toList
  match w.put s (remark word illegal) with
  | (s, false) => .ok ⟨.error .sinkFull, i, s⟩
  | (s, true) => do
    match ← i.perform word command with
    | .error fault => return ⟨.error fault, i, s⟩
    | .ok effect =>
      match w.put s effect.text with
      | (s, false) => return ⟨.error .sinkFull, effect.next, s⟩
      | (s, true) => return ⟨.ok effect.flow, effect.next, s⟩

def Delivery.outcome (d : Delivery Sink) : Outcome Flow := ⟨d.result, d.interpreter, d.writer⟩

/-- Execution with a sink is execution with the writer that the sink is. -/
theorem execute_eq_executeWith (i : Interpreter) (sink : Sink) (word : String) :
    i.execute sink word = Delivery.outcome <$> i.executeWith Sink.write sink word := by
  unfold execute executeWith
  simp only [Writer.put_sink]
  rcases sink.write (remark word (Command.read word.toList).2) with ⟨between, taken⟩
  cases taken with
  | false => rfl
  | true =>
      rcases i.perform word (Command.read word.toList).1 with d | fault | effect
      · rfl
      · rfl
      · dsimp only [bind, Except.bind]
        rcases between.write effect.text with ⟨after, taken⟩
        cases taken <;> rfl

/-- The ways that the execution of a word goes. -/
inductive Course (i : Interpreter) (w : Writer σ) (word : String) : Delivery σ → Prop
  /-- The remark on the word is not taken. -/
  | unremarked {s s' : σ} : w.put s (remark word (Command.read word.toList).2) = (s', false) →
      Course i w word ⟨.error .sinkFull, i, s'⟩
  /-- The command is refused. -/
  | refused {s' : σ} {fault : Fault} :
    i.perform word (Command.read word.toList).1 = .ok (.error fault) →
      Course i w word ⟨.error fault, i, s'⟩
  /-- The command is carried out, but its text is not taken. -/
  | unwritten {s s' : σ} {effect : Effect} :
    i.perform word (Command.read word.toList).1 = .ok (.ok effect) →
    w.put s effect.text = (s', false) → Course i w word ⟨.error .sinkFull, effect.next, s'⟩
  | carried {s' : σ} {effect : Effect} :
    i.perform word (Command.read word.toList).1 = .ok (.ok effect) →
      Course i w word ⟨.ok effect.flow, effect.next, s'⟩

theorem executeWith_eq_ok {delivery : Delivery σ} (ran : i.executeWith w s word = .ok delivery) :
    i.Course w word delivery := by
  unfold executeWith at ran
  dsimp only at ran
  split at ran
  · rename_i refused
    cases ran
    exact .unremarked refused
  · obtain ⟨performed, carried, ran⟩ := bind_eq_ok_iff.mp ran
    cases performed with
    | error fault =>
        cases ran
        exact .refused carried
    | ok effect =>
        dsimp only at ran
        split at ran
        · rename_i refused
          cases ran
          exact .unwritten carried refused
        · cases ran
          exact .carried carried

theorem executeWith_eq_error (failed : i.executeWith w s word = .error d) :
    i.perform word (Command.read word.toList).1 = .error d := by
  unfold executeWith at failed
  dsimp only at failed
  split at failed
  · cases failed
  · rcases bind_eq_error_iff.mp failed with failed | ⟨performed, _, failed⟩
    · exact failed
    · cases performed with
      | error fault => cases failed
      | ok effect =>
          dsimp only at failed
          split at failed
          · cases failed
          · cases failed

/-- A command that writes changes nothing. -/
theorem text_eq_empty_or_next_eq (ran : i.perform word command = .ok (.ok effect)) :
    effect.text = "" ∨ effect.next = i := by
  have asked : ∀ {question : Machine → Except Defect String},
      i.answer word question = .ok (.ok effect) → effect.text = "" ∨ effect.next = i := by
    intro question answered
    obtain ⟨_, _, _, _, _, rfl⟩ := answer_eq_ok answered
    exact .inr rfl
  have replaced : ∀ {change : Machine → Alloc Machine},
      i.replace word change = .ok (.ok effect) → effect.text = "" ∨ effect.next = i := by
    intro change changed
    obtain ⟨_, _, _, _, _, _, rfl⟩ := replace_eq_ok changed
    exact .inl rfl
  have combined : ∀ {operator : Nfa → Nfa → Alloc Nfa},
      i.combine word operator = .ok (.ok effect) → effect.text = "" ∨ effect.next = i := by
    intro operator changed
    obtain ⟨_, _, _, _, _, _, _, rfl⟩ := combine_eq_ok changed
    exact .inl rfl
  cases command with
  | done =>
      cases ran
      exact .inr rfl
  | unknown =>
      cases ran
      exact .inr rfl
  | literal l =>
      obtain ⟨_, _, _, rfl⟩ := push_eq_ok ran
      exact .inl rfl
  | size => exact asked ran
  | print => exact asked ran
  | statistics => exact asked ran
  | generate bound => exact asked ran
  | test input => exact asked ran
  | determinize => exact replaced ran
  | complement => exact replaced ran
  | star => exact replaced ran
  | union => exact combined ran
  | concat => exact combined ran

/-- A command without enough operands is refused. -/
theorem perform_of_short (short : i.stack.length < command.operands) :
    i.perform word command = .ok (.error (.underflow word command.operands)) := by
  have empty : command.operands = 1 → i.stack = [] := by
    intro one
    rw [one] at short
    exact List.eq_nil_of_length_eq_zero (Nat.lt_one_iff.mp short)
  have combined : ∀ operator : Nfa → Nfa → Alloc Nfa, i.stack.length < 2 →
      i.combine word operator = .ok (.error (.underflow word 2)) := by
    intro operator few
    unfold combine
    split
    · rename_i found
      rw [found, List.length_cons, List.length_cons] at few
      omega
    · rfl
  cases command with
  | done | literal | unknown => cases short
  | union => exact combined Nfa.union short
  | concat => exact combined Nfa.concat short
  | size | print | statistics | generate | test =>
      simp only [perform, answer, empty rfl]
      rfl
  | determinize | complement | star =>
      simp only [perform, replace, empty rfl]
      rfl

/-- However a word fails, the interpreter stays what it was. -/
theorem Course.interpreter_eq {delivery : Delivery σ} (course : i.Course w word delivery)
    (failed : delivery.result = .error fault) : delivery.interpreter = i := by
  cases course with
  | unremarked => rfl
  | refused => rfl
  | unwritten performed refused =>
      rcases text_eq_empty_or_next_eq performed with empty | same
      · rw [empty, Writer.put_empty] at refused
        cases refused
      · exact same
  | carried => cases failed

theorem Course.fault_eq {delivery : Delivery σ} (course : i.Course w word delivery)
    (failed : delivery.result = .error fault) :
    (i.stack.length < (Command.read word.toList).1.operands ∧
      fault = .underflow word (Command.read word.toList).1.operands) ∨
        fault = .sinkFull ∧ ¬w.NeverFails := by
  cases course with
  | @unremarked s s' refused =>
      cases failed
      refine .inr ⟨rfl, fun reliable => ?_⟩
      have taken := reliable.put s (remark word (Command.read word.toList).2)
      rw [refused] at taken
      cases taken
  | refused performed =>
      cases failed
      exact .inl (perform_eq_fault performed)
  | @unwritten s s' effect _ refused =>
      cases failed
      refine .inr ⟨rfl, fun reliable => ?_⟩
      have taken := reliable.put s effect.text
      rw [refused] at taken
      cases taken
  | carried => cases failed

theorem executeWith_of_short (reliable : w.NeverFails)
    (short : i.stack.length < (Command.read word.toList).1.operands) :
    ∃ s', i.executeWith w s word =
      .ok ⟨.error (.underflow word (Command.read word.toList).1.operands), i, s'⟩ := by
  have taken := reliable.put s (remark word (Command.read word.toList).2)
  unfold executeWith
  dsimp only
  split
  · rename_i refused
    rw [refused] at taken
    cases taken
  · rename_i s' _
    refine ⟨s', ?_⟩
    rw [perform_of_short short]
    rfl

/-! Whatever happens with some writer happens with a sink that has room for everything. -/

theorem execute_of_perform_eq_ok
    (performed : i.perform word (Command.read word.toList).1 = .ok (.ok effect)) :
    ∃ sink, i.execute {} word = .ok ⟨.ok effect.flow, effect.next, sink⟩ := by
  unfold execute
  dsimp only [Sink.write]
  rw [performed]
  exact ⟨_, rfl⟩

theorem execute_of_perform_eq_error
    (failed : i.perform word (Command.read word.toList).1 = .error d) :
    i.execute {} word = .error d := by
  unfold execute
  dsimp only [Sink.write]
  rw [failed]
  rfl

/-- Other writers lead to no other interpreters. -/
theorem Reachable.executeWith (reachable : i.Reachable) {delivery : Delivery σ}
    (ran : i.executeWith w s word = .ok delivery) : delivery.interpreter.Reachable := by
  cases executeWith_eq_ok ran with
  | unremarked => exact reachable
  | refused => exact reachable
  | unwritten performed =>
      obtain ⟨sink, executed⟩ := execute_of_perform_eq_ok performed
      exact reachable.step executed
  | carried performed =>
      obtain ⟨sink, executed⟩ := execute_of_perform_eq_ok performed
      exact reachable.step executed

/-- A word that fails leaves the interpreter as it was. If the writer never fails, a word fails
exactly when its command lacks operands, and says so; nothing but an exhausted counter ends it
otherwise. -/
theorem failed_words_change_nothing (reachable : i.Reachable) (word : String) {σ : Type}
    (w : Writer σ) (s : σ) :
    (∀ {delivery : Delivery σ} {fault : Fault}, i.executeWith w s word = .ok delivery →
      delivery.result = .error fault → delivery.interpreter = i ∧
        (fault = .underflow word (Command.read word.toList).1.operands ∨ fault = .sinkFull)) ∧
    (w.NeverFails →
      ((∃ delivery fault, i.executeWith w s word = .ok delivery ∧ delivery.result = .error fault) ↔
        i.stack.length < (Command.read word.toList).1.operands) ∧
      (∀ {delivery : Delivery σ} {fault : Fault}, i.executeWith w s word = .ok delivery →
        delivery.result = .error fault →
          fault = .underflow word (Command.read word.toList).1.operands) ∧
      ∀ {d : Defect}, i.executeWith w s word = .error d → d = .identifiersExhausted) := by
  have fails : ∀ {delivery : Delivery σ} {fault : Fault},
      i.executeWith w s word = .ok delivery → delivery.result = .error fault →
        (i.stack.length < (Command.read word.toList).1.operands ∧
          fault = .underflow word (Command.read word.toList).1.operands) ∨
            fault = .sinkFull ∧ ¬w.NeverFails :=
    fun ran failed => (executeWith_eq_ok ran).fault_eq failed
  refine ⟨?_, ?_⟩
  · intro delivery fault ran failed
    exact ⟨(executeWith_eq_ok ran).interpreter_eq failed, (fails ran failed).imp And.right And.left⟩
  · intro reliable
    have refused : ∀ {delivery : Delivery σ} {fault : Fault},
        i.executeWith w s word = .ok delivery → delivery.result = .error fault →
          i.stack.length < (Command.read word.toList).1.operands ∧
            fault = .underflow word (Command.read word.toList).1.operands :=
      fun ran failed => (fails ran failed).resolve_right fun full => full.2 reliable
    refine ⟨⟨?_, ?_⟩, ?_, ?_⟩
    · rintro ⟨delivery, fault, ran, failed⟩
      exact (refused ran failed).1
    · intro short
      obtain ⟨s', ran⟩ := executeWith_of_short (s := s) reliable short
      exact ⟨_, _, ran, rfl⟩
    · intro delivery fault ran failed
      exact (refused ran failed).2
    · intro d failed
      exact reachable.execute_eq_error (execute_of_perform_eq_error (executeWith_eq_error failed))

/-- One automaton is too few for a union, and a writer that takes nothing is of no use to a question
about it. -/
theorem failed_words_change_nothing_single :
    ∃ (i : Interpreter) (r t : Delivery Nat), i.Reachable ∧ i.stack.length = 1 ∧
      i.executeWith (fun n text => (n + text.length, true)) 0 "|" = .ok r ∧
      r.result = .error (.underflow "|" 2) ∧ r.interpreter = i ∧
      i.executeWith (fun n _ => (n + 1, false)) 0 "SIZE" = .ok t ∧
      t.result.toOption = none ∧ t.interpreter = i := by
  have computed : ((execute {} {} "a").toOption.bind fun o =>
      (o.interpreter.executeWith (fun n _ => (n + 1, false)) (0 : Nat) "SIZE").toOption.bind fun t =>
        if o.interpreter.stack.length = 1 ∧ t.result.toOption = none then some (o, t)
        else none).isSome = true := by cbv
  obtain ⟨⟨o, t⟩, chained⟩ := Option.isSome_iff_exists.mp computed
  obtain ⟨o, executed, chained⟩ := Option.bind_eq_some_iff.mp chained
  obtain ⟨t, asked, chained⟩ := Option.bind_eq_some_iff.mp chained
  obtain ⟨⟨single, refused⟩, same⟩ := Option.ite_none_right_eq_some.mp chained
  cases same
  have asked := toOption_eq_some_iff.mp asked
  have reachable := Reachable.new.step (toOption_eq_some_iff.mp executed)
  have alone := failed_words_change_nothing reachable "|"
    (fun n text => (n + text.length, true)) 0
  obtain ⟨iff, carries, _⟩ := alone.2 fun _ _ => rfl
  have needs : (Command.read "|".toList).1.operands = 2 := by cbv
  obtain ⟨r, fault, ran, failed⟩ := iff.mpr (by omega)
  obtain ⟨same, _⟩ := alone.1 ran failed
  have carried := carries ran failed
  rw [needs] at carried
  obtain ⟨full, failedFull⟩ : ∃ full, t.result = .error full := by
    cases outcome : t.result with
    | error full => exact ⟨full, rfl⟩
    | ok flow =>
        rw [outcome] at refused
        cases refused
  obtain ⟨unchanged, _⟩ :=
    (failed_words_change_nothing reachable "SIZE" (fun n _ => (n + 1, false)) 0).1 asked failedFull
  exact ⟨o.interpreter, r, t, reachable, single, ran, failed.trans (congrArg _ carried), same, asked,
    refused, unchanged⟩

end Interpreter

end PostfixAutomata
