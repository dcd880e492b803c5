import PostfixAutomata.Proofs.Interpreter.Agreement

set_option autoImplicit false

/-!
Questions to the stack machine are invisible to the rest of a session. A question may determinize an
automaton to find its answer, but the states of that come from a counter of its own; so the stack
and the counter stay what they are, and words that come later cannot tell whether it was asked.
-/

namespace PostfixAutomata

/-- Whether a command only asks about the topmost automaton, or is unknown and ignored. -/
def Command.isQuery : Command → Bool
  | .size | .print | .statistics | .generate _ | .test _ | .unknown => true
  | .done | .determinize | .complement | .literal _ | .star | .union | .concat => false

theorem Command.keepsStack_of_isQuery {command : Command} (query : command.isQuery = true) :
    command.keepsStack = true := by
  cases command with
  | size | print | statistics | generate | test | unknown => rfl
  | done | determinize | complement | literal | star | union | concat => cases query

namespace Interpreter

variable {i i' : Interpreter} {sink sink' : Sink} {word : String} {outcome : Outcome Flow}

/-- What is left of a list without the items at some positions. -/
def without {α : Type} (omitted : Nat → Bool) : List α → List α
  | [] => []
  | a :: rest =>
    if omitted 0 then without (omitted <| · + 1) rest
    else a :: without (omitted <| · + 1) rest

/-- The interpreter after the words with some outcomes. -/
def settled (i : Interpreter) (outcomes : List (Outcome Flow)) : Interpreter :=
  outcomes.foldl (fun _ outcome => outcome.interpreter) i

@[simp] theorem settled_cons (i : Interpreter) (outcome : Outcome Flow)
    (later : List (Outcome Flow)) :
    i.settled (outcome :: later) = outcome.interpreter.settled later := rfl

theorem Turn.eq_of_keepsStack {command : Command} (turn : i.Turn command i')
    (keeps : command.keepsStack = true) : i' = i := by
  cases turn with
  | keep => rfl
  | literal | determinize | complement | star | union | concat => cases keeps

/-- A question leaves the whole interpreter as it is, whether or not it is answered. -/
theorem interpreter_of_query (query : (Command.read word.toList).1.isQuery = true)
    (ran : i.execute sink word = .ok outcome) : outcome.interpreter = i := by
  rcases execute_eq_ok ran with same | turn
  · exact same
  · exact turn.eq_of_keepsStack (Command.keepsStack_of_isQuery query)

/-- Of the sink only its room matters: each word starts on an empty one. -/
theorem executeEach_congr (room : sink.room = sink'.room) (words : List String) :
    i.executeEach sink words = i.executeEach sink' words := by
  have drained : sink.drained = sink'.drained := by
    rw [Sink.drained, Sink.drained, room]
  cases words with
  | nil => rfl
  | cons word rest => simp only [executeEach, drained]

/-- Questions may be left out of a run. If every text fits and the run goes through, the words that
remain come to what they came to, each with the same output, and leave the same interpreter. -/
theorem queries_are_invisible (unlimited : sink.room = none) {words : List String}
    {outcomes : List (Outcome Flow)} (ran : i.executeEach sink words = .ok outcomes)
    {omitted : Nat → Bool} (queries : ∀ {n : Nat} {word : String}, words[n]? = some word →
      omitted n = true → (Command.read word.toList).1.isQuery = true) :
    i.executeEach sink (without omitted words) = .ok (without omitted outcomes) ∧
      i.settled (without omitted outcomes) = i.settled outcomes := by
  induction words generalizing i sink outcomes omitted with
  | nil =>
      cases ran
      exact ⟨rfl, rfl⟩
  | cons word rest ih =>
      obtain ⟨outcome, executed, remaining⟩ := bind_eq_ok_iff.mp ran
      obtain ⟨later, continued, done⟩ := bind_eq_ok_iff.mp remaining
      cases done
      have drained : sink.drained.room = none := unlimited
      have room : outcome.sink.room = none := (execute_unlimited drained executed).1
      obtain ⟨replayed, settles⟩ :=
        ih room continued fun {n word} asked => queries (n := n + 1) asked
      simp only [without]
      cases left : omitted 0 with
      | false =>
          refine ⟨?_, settles⟩
          exact bind_eq_ok_iff.mpr ⟨outcome, executed, bind_eq_ok_iff.mpr ⟨_, replayed, rfl⟩⟩
      | true =>
          -- The word left out is a question, so the rest runs from the interpreter before it.
          have same := interpreter_of_query (queries (n := 0) rfl left) executed
          rw [same] at replayed settles
          refine ⟨?_, ?_⟩
          · rw [executeEach_congr (unlimited.trans room.symm)]
            exact replayed
          · rw [settled_cons, same]
            exact settles

/-- Three questions between two literals, of which two determinize the first one: the states of the
second literal are the same without them. -/
theorem queries_are_invisible_numbering :
    ∃ outcomes, executeEach {} {} ["a", "\"a\"", "GENSTR1", "SIZE", "b", "PRINT"] = .ok outcomes ∧
      executeEach {} {} ["a", "b", "PRINT"] = .ok (without ([1, 2, 3].contains ·) outcomes) ∧
      settled {} (without ([1, 2, 3].contains ·) outcomes) = settled {} outcomes := by
  have computed : (executeEach {} {}
      ["a", "\"a\"", "GENSTR1", "SIZE", "b", "PRINT"]).isOk = true := by cbv
  cases ran : executeEach {} {} ["a", "\"a\"", "GENSTR1", "SIZE", "b", "PRINT"] with
  | error d =>
      rw [ran] at computed
      cases computed
  | ok outcomes =>
      have queries : ∀ {n : Nat} {word : String},
          ["a", "\"a\"", "GENSTR1", "SIZE", "b", "PRINT"][n]? = some word →
            [1, 2, 3].contains n = true → (Command.read word.toList).1.isQuery = true := by
        intro n word asked omitted
        have position : n = 1 ∨ n = 2 ∨ n = 3 := by simpa using omitted
        rcases position with rfl | rfl | rfl
        · cases asked
          decide
        · cases asked
          decide
        · cases asked
          decide
      exact ⟨outcomes, rfl, queries_are_invisible rfl ran queries⟩

end Interpreter

end PostfixAutomata
