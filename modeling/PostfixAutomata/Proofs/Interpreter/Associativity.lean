import PostfixAutomata.Proofs.Interpreter.Agreement
import PostfixAutomata.Proofs.Interpreter.Reading
import PostfixAutomata.Proofs.Nfa.Merge
import PostfixAutomata.Proofs.Session.Operators

set_option autoImplicit false

/-!
Concatenations of three automata. It does not matter which two are concatenated first: the outcome
is the same automaton, states, transitions and all. So it does not matter either at which of two
places between three operands an interpreter is told to concatenate the first two.
-/

namespace PostfixAutomata

/-- Concatenation is associative, whatever the automata have in common or lack. Each link goes from
a final state of one to the start of the next, and is put in whichever concatenation comes first. -/
theorem Nfa.append_assoc {A B C : Nfa} (validA : A.WellFormed) (validB : B.WellFormed)
    (validC : C.WellFormed) : (A.append B).append C = A.append (B.append C) := by
  have first := wellFormed_append validA validB
  have second := wellFormed_append validB validC
  refine ext_of_wellFormed (wellFormed_append first validC) (wellFormed_append validA second)
    ?_ ?_ rfl ?_ ?_ ?_
  · rw [ids_append, ids_append, ids_append]
  · rw [start_append, start_append, start_append]
  · intro s
    rw [mem_states_append first validC, mem_states_append validA validB,
      mem_states_append validA second, mem_states_append validB validC, or_assoc]
  · intro c
    rw [mem_alphabet_append validC, mem_alphabet_append validB, mem_alphabet_append second,
      mem_alphabet_append validC, or_assoc]
  · intro p l q
    have finals : (A.append B).finals = B.finals := rfl
    simp only [mem_targets_append, start_append, finals]
    tauto

theorem Machine.toNfa_nfa (A : Nfa) : (nfa A).toNfa = A := rfl

namespace Session

variable {S : Session} {a b c : Slot} {A B C : Nfa}

/-- Names that are given up and taken again do not tell in which order that happened. -/
theorem store_release_store_release (S : Session) (X Y D : Machine) :
    (((S.release b).store a X).release c).store a D =
      (((S.release c).store b Y).release b).store a D := by
  have same : (((S.automata.erase b).insert a X).erase c).insert a D =
      (((S.automata.erase c).insert b Y).erase b).insert a D := by
    refine Std.ExtTreeMap.ext_getElem? fun m => ?_
    simp only [Std.ExtTreeMap.getElem?_insert, Std.ExtTreeMap.getElem?_erase,
      Std.LawfulEqCmp.compare_eq_iff_eq]
    grind
  exact congrArg (fun automata => { S with automata }) same

/-- Three automata of one counter are concatenated in either order, to the same session. -/
theorem step_concat_concat (reachable : S.Reachable) (heldA : S.automata[a]? = some (.nfa A))
    (heldB : S.automata[b]? = some (.nfa B)) (heldC : S.automata[c]? = some (.nfa C))
    (ab : a ≠ b) (ac : a ≠ c) (bc : b ≠ c) (sharedAB : A.ids = B.ids) (sharedBC : B.ids = C.ids) :
    ∃ S₁ S₂ S' : Session,
      S.step (.concat a b) = .ok (.ok (.report (A.append B).report, S₁)) ∧
      S₁.step (.concat a c) = .ok (.ok (.report ((A.append B).append C).report, S')) ∧
      S.step (.concat b c) = .ok (.ok (.report (B.append C).report, S₂)) ∧
      S₂.step (.concat a b) = .ok (.ok (.report ((A.append B).append C).report, S')) ∧
      S'.automata[a]? = some (.nfa ((A.append B).append C)) ∧ S'.counters = S.counters := by
  have assoc := Nfa.append_assoc (reachable.sound_nfa heldA).valid
    (reachable.sound_nfa heldB).valid (reachable.sound_nfa heldC).valid
  let S₁ := (S.release b).store a (.nfa (A.append B))
  let S₂ := (S.release c).store b (.nfa (B.append C))
  have stillC : S₁.automata[c]? = some (.nfa C) := by
    change ((S.automata.erase b).insert a _)[c]? = _
    grind
  have stillA : S₂.automata[a]? = some (.nfa A) := by
    change ((S.automata.erase c).insert b _)[a]? = _
    grind
  have first : S₁.automata[a]? = some (.nfa (A.append B)) := Std.ExtTreeMap.getElem?_insert_self
  have second : S₂.automata[b]? = some (.nfa (B.append C)) := Std.ExtTreeMap.getElem?_insert_self
  have lastC := step_concat first stillC (Nfa.ids_append.trans (sharedAB.trans sharedBC))
  have lastB := step_concat stillA second (sharedAB.trans Nfa.ids_append.symm)
  rw [store_release_store_release S _ (.nfa (B.append C))] at lastC
  rw [← assoc] at lastB
  exact ⟨S₁, S₂, _, step_concat heldA heldB sharedAB, lastC, step_concat heldB heldC sharedBC,
    lastB, Std.ExtTreeMap.getElem?_insert_self, rfl⟩

end Session

namespace Interpreter

variable {i : Interpreter} {sink : Sink} {word : String} {command : Command}

/-! Words without a remark. -/

theorem execute_of_legal (read : Command.read word.toList = (command, false)) :
    i.execute sink word = i.deliver sink <$> i.perform word command := by
  have taken : sink.write (remark word (Command.read word.toList).2) = (sink, true) := by
    rw [read]
    exact sink.write_empty
  rw [execute_of_remarked taken, read]

/-- A word that only changes the interpreter writes nothing. -/
theorem deliver_silent (next : Interpreter) :
    i.deliver sink (.ok { next }) = ⟨.ok .proceed, next, sink⟩ := by
  simp only [deliver, sink.write_empty, ↓reduceIte]

theorem executeAll_of_silent {next : Interpreter}
    (read : Command.read word.toList = (command, false))
    (carried : i.perform word command = .ok (.ok { next })) (rest : List String) :
    i.executeAll sink (word :: rest) = next.executeAll sink rest := by
  rw [executeAll_cons, execute_of_legal read, carried]
  exact congrArg (·.andThen fun i sink => i.executeAll sink rest) (deliver_silent next)

theorem executeAll_of_defect {d : Defect} (read : Command.read word.toList = (command, false))
    (failed : i.perform word command = .error d) (rest : List String) :
    i.executeAll sink (word :: rest) = .error d := by
  rw [executeAll_cons, execute_of_legal read, failed]
  rfl

/-! Literals and concatenations. -/

variable {ids : AllocatorId} {counter counter' : Counter} {stack rest : List Machine}
  {second first : Machine} {l : Label} {A B C : Nfa}

theorem literal_ok (built : (Nfa.literal ids l).run counter = .ok (C, counter')) :
    C.ids = ids ∧ C.WellFormed :=
  have drawn := Nfa.drawn_literal built
  ⟨drawn.ids_eq, drawn.sound.valid⟩

theorem executeAll_literal (read : Command.read word.toList = (.literal l, false))
    (built : (Nfa.literal ids l).run counter = .ok (C, counter')) (words : List String) :
    executeAll ⟨ids, counter, stack⟩ sink (word :: words) =
      executeAll ⟨ids, counter', .nfa C :: stack⟩ sink words := by
  apply executeAll_of_silent read
  rw [perform, push, built]
  rfl

theorem executeAll_literal_of_defect (read : Command.read word.toList = (.literal l, false))
    {d : Defect} (failed : (Nfa.literal ids l).run counter = .error d) (words : List String) :
    executeAll ⟨ids, counter, stack⟩ sink (word :: words) = .error d := by
  apply executeAll_of_defect read
  rw [perform, push, failed]
  rfl

theorem executeAll_concat (isA : first.toNfa = A) (isB : second.toNfa = B)
    (shared : A.ids = B.ids) (words : List String) :
    executeAll ⟨ids, counter, second :: first :: rest⟩ sink ("." :: words) =
      executeAll ⟨ids, counter, .nfa (A.append B) :: rest⟩ sink words := by
  have read : Command.read ".".toList = (.concat, false) := by decide
  apply executeAll_of_silent read
  simp only [perform, combine, isA, isB, Nfa.concat_eq_append shared]
  rfl

/-- A literal may be put between two concatenations or before both of them. -/
theorem executeAll_concat_literal (isA : first.toNfa = A) (isB : second.toNfa = B)
    (idsA : A.ids = ids) (idsB : B.ids = ids) (validA : A.WellFormed) (validB : B.WellFormed)
    (read : Command.read word.toList = (.literal l, false)) (words : List String) :
    executeAll ⟨ids, counter, second :: first :: rest⟩ sink ("." :: word :: "." :: words) =
      executeAll ⟨ids, counter, second :: first :: rest⟩ sink (word :: "." :: "." :: words) := by
  rw [executeAll_concat isA isB (idsA.trans idsB.symm)]
  -- The literal draws the same states before and after, as a concatenation draws none.
  cases built : (Nfa.literal ids l).run counter with
  | error d => rw [executeAll_literal_of_defect read built, executeAll_literal_of_defect read built]
  | ok drawn =>
      obtain ⟨C, counter'⟩ := drawn
      obtain ⟨idsC, validC⟩ := literal_ok built
      rw [executeAll_literal read built, executeAll_literal read built,
        executeAll_concat (Machine.toNfa_nfa _) (Machine.toNfa_nfa C)
          (Nfa.ids_append.trans (idsA.trans idsC.symm)),
        executeAll_concat isB (Machine.toNfa_nfa C) (idsB.trans idsC.symm),
        executeAll_concat isA (Machine.toNfa_nfa _) (idsA.trans (Nfa.ids_append.trans idsB).symm),
        Nfa.append_assoc validA validB validC]

section Three

variable {x y z : String} {k m n : Label}
  (readX : Command.read x.toList = (.literal k, false))
  (readY : Command.read y.toList = (.literal m, false))
  (readZ : Command.read z.toList = (.literal n, false))

include readX readY readZ

/-- Three literals are concatenated in either order, whatever comes after them and whether or not
there are states for all of them. -/
theorem executeAll_three_literals (i : Interpreter) (sink : Sink) (words : List String) :
    i.executeAll sink (x :: y :: "." :: z :: "." :: words) =
      i.executeAll sink (x :: y :: z :: "." :: "." :: words) := by
  obtain ⟨ids, counter, stack⟩ := i
  cases builtX : (Nfa.literal ids k).run counter with
  | error d =>
      rw [executeAll_literal_of_defect readX builtX, executeAll_literal_of_defect readX builtX]
  | ok drawnX =>
      obtain ⟨A, counter'⟩ := drawnX
      obtain ⟨idsA, validA⟩ := literal_ok builtX
      rw [executeAll_literal readX builtX, executeAll_literal readX builtX]
      cases builtY : (Nfa.literal ids m).run counter' with
      | error d =>
          rw [executeAll_literal_of_defect readY builtY, executeAll_literal_of_defect readY builtY]
      | ok drawnY =>
          obtain ⟨B, counter''⟩ := drawnY
          obtain ⟨idsB, validB⟩ := literal_ok builtY
          rw [executeAll_literal readY builtY, executeAll_literal readY builtY]
          exact executeAll_concat_literal (Machine.toNfa_nfa A) (Machine.toNfa_nfa B) idsA idsB
            validA validB readZ words

/-- While there are states for them, three literals leave one automaton on the stack. -/
theorem executeAll_three_literals_of_room (i : Interpreter)
    (room : i.counter.next + 6 ≤ UInt32.size) :
    ∃ D : Nfa, ∀ sink words, i.executeAll sink (x :: y :: "." :: z :: "." :: words) =
      executeAll ⟨i.ids, ⟨i.counter.next + 6⟩, .nfa D :: i.stack⟩ sink words := by
  obtain ⟨A, builtA⟩ : ∃ A : Nfa, (Nfa.literal i.ids k).run i.counter =
      .ok (A, ⟨i.counter.next + 2⟩) := Nfa.literal_of_room i.ids k (by omega)
  obtain ⟨B, builtB⟩ : ∃ B : Nfa, (Nfa.literal i.ids m).run ⟨i.counter.next + 2⟩ =
      .ok (B, ⟨i.counter.next + 4⟩) := Nfa.literal_of_room i.ids m (Nat.le_trans (by simp) room)
  obtain ⟨C, builtC⟩ : ∃ C : Nfa, (Nfa.literal i.ids n).run ⟨i.counter.next + 4⟩ =
      .ok (C, ⟨i.counter.next + 6⟩) := Nfa.literal_of_room i.ids n room
  obtain ⟨idsA, _⟩ := literal_ok builtA
  obtain ⟨idsB, _⟩ := literal_ok builtB
  obtain ⟨idsC, _⟩ := literal_ok builtC
  refine ⟨(A.append B).append C, fun sink words => ?_⟩
  rw [executeAll_literal readX builtA, executeAll_literal readY builtB,
    executeAll_concat (Machine.toNfa_nfa A) (Machine.toNfa_nfa B) (idsA.trans idsB.symm),
    executeAll_literal readZ builtC, executeAll_concat (Machine.toNfa_nfa _) (Machine.toNfa_nfa C)
      (Nfa.ids_append.trans (idsA.trans idsC.symm))]

end Three

theorem executeAll_print (unlimited : sink.room = none) (D : Nfa) :
    executeAll ⟨ids, counter, .nfa D :: rest⟩ sink ["PRINT"] =
      .ok ⟨.ok .proceed, ⟨ids, counter, .nfa D :: rest⟩,
        { sink with written := sink.written ++ (D.report ++ "\n").toByteArray }⟩ := by
  have read : Command.read "PRINT".toList = (.print, false) := by decide
  have performed : perform ⟨ids, counter, .nfa D :: rest⟩ "PRINT" .print =
    .ok (.ok { text := D.report ++ "\n", next := ⟨ids, counter, .nfa D :: rest⟩ }) := rfl
  have taken := Sink.write_of_unlimited unlimited (D.report ++ "\n")
  rw [executeAll_cons, execute_of_legal read, performed]
  simp only [Functor.map, Except.map, deliver, taken, if_true]
  rfl

end Interpreter

/-- Concatenation is associative on the nose. Whatever three automata of one counter are held under
three names, concatenating the first two and then the third, and concatenating the second with the
third and then the first with that, lead to the same session, with the same automaton and the same
report, and no counter moves. So an interpreter goes on in the same way after three literals and two
concatenations, wherever the first concatenation stands, and it prints the same report. -/
theorem concat_is_associative :
    (∀ {S : Session} {a b c : Slot} {A B C : Nfa}, S.Reachable →
      S.automata[a]? = some (.nfa A) → S.automata[b]? = some (.nfa B) →
      S.automata[c]? = some (.nfa C) → a ≠ b → a ≠ c → b ≠ c → A.ids = B.ids → B.ids = C.ids →
      ∃ (D : Nfa) (S₁ S₂ S' : Session),
        S.step (.concat a b) = .ok (.ok (.report (A.append B).report, S₁)) ∧
        S₁.step (.concat a c) = .ok (.ok (.report D.report, S')) ∧
        S.step (.concat b c) = .ok (.ok (.report (B.append C).report, S₂)) ∧
        S₂.step (.concat a b) = .ok (.ok (.report D.report, S')) ∧
        S'.automata[a]? = some (.nfa D) ∧ S'.counters = S.counters) ∧
    ∀ (i : Interpreter) (sink : Sink) (x y z : Char), Command.isLiteral x = true →
      Command.isLiteral y = true → Command.isLiteral z = true →
      (∀ words, i.executeAll sink
          (.singleton x :: .singleton y :: "." :: .singleton z :: "." :: words) =
        i.executeAll sink (.singleton x :: .singleton y :: .singleton z :: "." :: "." :: words)) ∧
      (i.counter.next + 6 ≤ UInt32.size → sink.room = none →
        ∃ (D : Nfa) (outcome : Interpreter.Outcome Flow),
          i.executeAll sink [.singleton x, .singleton y, ".", .singleton z, ".", "PRINT"] =
            .ok outcome ∧
          i.executeAll sink [.singleton x, .singleton y, .singleton z, ".", ".", "PRINT"] =
            .ok outcome ∧
          outcome.result = .ok .proceed ∧ outcome.interpreter.stack = .nfa D :: i.stack ∧
          outcome.sink.written = sink.written ++ (D.report ++ "\n").toByteArray) := by
  constructor
  · intro S a b c A B C reachable heldA heldB heldC ab ac bc sharedAB sharedBC
    exact ⟨_, Session.step_concat_concat reachable heldA heldB heldC ab ac bc sharedAB sharedBC⟩
  · intro i sink x y z literalX literalY literalZ
    have read : ∀ {c : Char}, Command.isLiteral c = true →
        ∃ l, Command.read (String.singleton c).toList = (.literal l, false) := by
      intro c literal
      rw [String.toList_singleton]
      exact ⟨_, Command.read_literal literal⟩
    obtain ⟨k, readX⟩ := read literalX
    obtain ⟨m, readY⟩ := read literalY
    obtain ⟨n, readZ⟩ := read literalZ
    have same := Interpreter.executeAll_three_literals readX readY readZ i sink
    refine ⟨same, fun room unlimited => ?_⟩
    obtain ⟨D, ends⟩ := Interpreter.executeAll_three_literals_of_room readX readY readZ i room
    have printed := (ends sink ["PRINT"]).trans (Interpreter.executeAll_print unlimited D)
    exact ⟨D, _, printed, (same ["PRINT"]).symm.trans printed, rfl, rfl, rfl⟩

/-- An automaton and its complement, which have states in common, and an automaton that has none. -/
def crowded : List Session.Op :=
  [.newAllocator "i", .literal "a" "i" "x", .toDfa "a" "a", .complement "a" "b", .toNfa "a" "a",
    .toNfa "b" "b", .newNfa "c" "i"]

theorem concat_is_associative_crowded :
    (∃ (S S₁ S₂ S' : Session) (A B C D : Nfa), S.Reachable ∧ S.automata["a"]? = some (.nfa A) ∧
      S.automata["b"]? = some (.nfa B) ∧ S.automata["c"]? = some (.nfa C) ∧
      (∃ s, s ∈ A.states ∧ s ∈ B.states) ∧ C.start = none ∧
      S.step (.concat "a" "b") = .ok (.ok (.report (A.append B).report, S₁)) ∧
      S₁.step (.concat "a" "c") = .ok (.ok (.report D.report, S')) ∧
      S.step (.concat "b" "c") = .ok (.ok (.report (B.append C).report, S₂)) ∧
      S₂.step (.concat "a" "b") = .ok (.ok (.report D.report, S')) ∧
      S'.automata["a"]? = some (.nfa D) ∧ S'.counters = S.counters) ∧
    ∃ outcome : Interpreter.Outcome Flow,
      Interpreter.executeAll {} {} ["a", "b", ".", "E", ".", "PRINT"] = .ok outcome ∧
      Interpreter.executeAll {} {} ["a", "b", "E", ".", ".", "PRINT"] = .ok outcome ∧
      outcome.result = .ok .proceed := by
  have computed : ((Session.after {} crowded).bind fun S => (S.nfa? "a").bind fun A =>
      (S.nfa? "b").bind fun B => (S.nfa? "c").bind fun C =>
        if A.ids = B.ids ∧ B.ids = C.ids ∧ (∃ s ∈ A.states.toList, s ∈ B.states) ∧ C.start = none
        then some (S, A, B, C) else none).isSome = true := by cbv
  obtain ⟨⟨S, A, B, C⟩, chained⟩ := Option.isSome_iff_exists.mp computed
  obtain ⟨S, ran, chained⟩ := Option.bind_eq_some_iff.mp chained
  obtain ⟨A, heldA, chained⟩ := Option.bind_eq_some_iff.mp chained
  obtain ⟨B, heldB, chained⟩ := Option.bind_eq_some_iff.mp chained
  obtain ⟨C, heldC, chained⟩ := Option.bind_eq_some_iff.mp chained
  obtain ⟨⟨sharedAB, sharedBC, ⟨s, inA, inB⟩, unstarted⟩, same⟩ :=
    Option.ite_none_right_eq_some.mp chained
  cases same
  have reachable := Session.Reachable.new.after ran
  have heldA := Session.nfa?_eq_some_iff.mp heldA
  have heldB := Session.nfa?_eq_some_iff.mp heldB
  have heldC := Session.nfa?_eq_some_iff.mp heldC
  obtain ⟨D, S₁, S₂, S', steps⟩ := concat_is_associative.1 reachable heldA heldB heldC (by decide)
    (by decide) (by decide) sharedAB sharedBC
  obtain ⟨_, printed⟩ := concat_is_associative.2 {} {} 'a' 'b' 'E' (by decide) (by decide)
    (by decide)
  obtain ⟨_, outcome, early, late, proceeds, _⟩ := printed (by decide) rfl
  exact ⟨⟨S, S₁, S₂, S', A, B, C, D, reachable, heldA, heldB, heldC,
    ⟨s, Std.ExtTreeSet.mem_toList.mp inA, inB⟩, unstarted, steps⟩, outcome, early, late, proceeds⟩

end PostfixAutomata
