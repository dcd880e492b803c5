import PostfixAutomata.Interpreter
import PostfixAutomata.Proofs.Allocation
import PostfixAutomata.Proofs.Interpreter.Runs
import PostfixAutomata.Proofs.Text.Lines

set_option autoImplicit false

/-!
Reading input. A run executes the words of its lines in order, as if they were one list of words, up
to the first line that is no text; that line ends the run, unless a word before it has. Where the
input as a whole is text, its words are those of its lines, so that a run executes the words of the
text.
-/

namespace PostfixAutomata

namespace Interpreter

variable {i : Interpreter} {sink : Sink} {word : String} {outcome : Outcome Flow}

/-- What follows an outcome: `next`, if the words so far have neither failed nor ended the run. -/
def Outcome.andThen (outcome : Outcome Flow)
    (next : Interpreter → Sink → Except Defect (Outcome Flow)) : Except Defect (Outcome Flow) :=
  match outcome.result with
  | .ok .proceed => next outcome.interpreter outcome.sink
  | _ => .ok outcome

/-- The words of the lines before the first one that is no text. -/
def readable : List (List UInt8) → List String
  | [] => []
  | line :: rest =>
    match Text.decode? line with
    | none => []
    | some text => wordsOf text ++ readable rest

/-- What a run comes to that has executed all of its words. -/
def ending (lines : List (List UInt8)) : Except Fault Flow :=
  if lines.all fun line => (Text.decode? line).isSome then .ok .proceed else .error .undecodable

/-- What a run comes to whose words come to an outcome. -/
def Outcome.ended (lines : List (List UInt8)) (outcome : Outcome Flow) : Outcome Flow :=
  { outcome with
    result := match outcome.result with
      | .ok .proceed => ending lines
      | result => result }

theorem Outcome.andThen_of_proceeds {outcome : Outcome Flow}
    (proceeds : outcome.result = .ok .proceed)
    (next : Interpreter → Sink → Except Defect (Outcome Flow)) :
    outcome.andThen next = next outcome.interpreter outcome.sink := by
  rw [Outcome.andThen, proceeds]

theorem Outcome.andThen_of_stops {outcome : Outcome Flow}
    (stops : outcome.result ≠ .ok .proceed)
    (next : Interpreter → Sink → Except Defect (Outcome Flow)) :
    outcome.andThen next = .ok outcome := by
  unfold Outcome.andThen
  split
  · rename_i proceeds
    exact absurd proceeds stops
  · rfl

theorem Outcome.andThen_andThen (outcome : Outcome Flow)
    (next last : Interpreter → Sink → Except Defect (Outcome Flow)) :
    (outcome.andThen next >>= fun between => between.andThen last) =
      outcome.andThen fun i sink => next i sink >>= fun between => between.andThen last := by
  obtain ⟨result, interpreter, sink⟩ := outcome
  cases result with
  | error fault => rfl
  | ok flow =>
      cases flow with
      | proceed => rfl
      | done => rfl

/-- Where words have stopped, the run has ended. -/
theorem Outcome.ended_andThen (outcome : Outcome Flow) (lines : List (List UInt8))
    (next : Interpreter → Sink → Except Defect (Outcome Flow)) :
    ended lines <$> outcome.andThen next =
      outcome.andThen fun i sink => ended lines <$> next i sink := by
  obtain ⟨result, interpreter, sink⟩ := outcome
  cases result with
  | error fault => rfl
  | ok flow =>
      cases flow with
      | proceed => rfl
      | done => rfl

theorem executeAll_cons (word : String) (rest : List String) :
    i.executeAll sink (word :: rest) =
      i.execute sink word >>= fun outcome =>
        outcome.andThen fun i sink => i.executeAll sink rest := rfl

theorem executeAll_append (words rest : List String) :
    i.executeAll sink (words ++ rest) =
      i.executeAll sink words >>= fun outcome =>
        outcome.andThen fun i sink => i.executeAll sink rest := by
  induction words generalizing i sink with
  | nil => rfl
  | cons word words ih =>
      rw [List.cons_append, executeAll_cons, executeAll_cons, bind_assoc]
      refine bind_congr fun outcome => ?_
      rw [Outcome.andThen_andThen]
      simp only [ih]

/-- A run executes one list of words, and then it ends as its lines tell. -/
theorem runLines_eq (lines : List (List UInt8)) :
    i.runLines sink lines = Outcome.ended lines <$> i.executeAll sink (readable lines) := by
  induction lines generalizing i sink with
  | nil => rfl
  | cons line rest ih =>
      cases decoded : Text.decode? line with
      | none =>
          have fails : ending (line :: rest) = .error .undecodable := by
            simp [ending, decoded]
          simp only [runLines, readable, decoded, executeAll]
          rw [← fails]
          rfl
      | some text =>
          have passes : Outcome.ended (line :: rest) = Outcome.ended rest := by
            simp [funext_iff, Outcome.ended, ending, decoded]
          have step : i.runLines sink (line :: rest) =
              i.executeAll sink (wordsOf text) >>= fun outcome =>
                outcome.andThen fun i sink => i.runLines sink rest := by
            simp only [runLines, decoded]
            rfl
          rw [step, passes]
          simp only [readable, decoded, executeAll_append, map_bind, Outcome.ended_andThen, ih]

/-! The words that bytes encode. -/

/-- The words of the text that some bytes encode, if they encode one. -/
def wordsIn? (bytes : List UInt8) : Option (List String) := wordsOf <$> Text.decode? bytes

theorem isSome_wordsIn? (bytes : List UInt8) :
    (wordsIn? bytes).isSome = (Text.decode? bytes).isSome := by
  simp [wordsIn?]

theorem wordsIn?_nil : wordsIn? [] = some [] := by
  simp [wordsIn?, wordsOf, Text.words]

theorem wordsOf_append_cons {c : Char} (blank : Text.isBlank c = true) (first last : String) :
    wordsOf (first ++ String.ofList (c :: last.toList)) = wordsOf first ++ wordsOf last := by
  simp [wordsOf, Text.words_append_cons blank]

/-- Words may be looked for on both sides of a byte that is a blank by itself. -/
theorem wordsIn?_append_cons {c : Char} {b : UInt8} (single : String.utf8EncodeChar c = [b])
    (blank : Text.isBlank c = true) (before after : List UInt8) :
    wordsIn? (before ++ b :: after) = do
      let first ← wordsIn? before
      let last ← wordsIn? after
      return first ++ last := by
  simp only [wordsIn?, Text.decode?_append_cons single]
  cases Text.decode? before with
  | none => rfl
  | some first =>
      cases Text.decode? after with
      | none => rfl
      | some last => exact congrArg some (wordsOf_append_cons blank first last)

theorem wordsIn?_newline_cons (before after : List UInt8) :
    wordsIn? (before ++ Text.newline :: after) = do
      let first ← wordsIn? before
      let last ← wordsIn? after
      return first ++ last :=
  wordsIn?_append_cons (c := '\n') (by decide) (by decide) before after

/-- A carriage return is no part of a word. -/
theorem wordsIn?_withoutReturn (line : List UInt8) :
    wordsIn? (Text.withoutReturn line) = wordsIn? line := by
  unfold Text.withoutReturn
  split
  · rename_i returns
    have whole := List.dropLast_append_getLast? _ returns
    have parted := wordsIn?_append_cons (c := '\r') (b := Text.carriageReturn)
      (by decide) (by decide) line.dropLast []
    rw [whole, wordsIn?_nil] at parted
    rw [parted]
    cases wordsIn? line.dropLast with
    | none => rfl
    | some first => exact congrArg some (List.append_nil first).symm
  · rfl

/-! Lines and the bytes between newlines. -/

section Lines

variable {line : List UInt8} {rest : List (List UInt8)}

theorem readable_cons (line : List UInt8) (rest : List (List UInt8)) :
    readable (line :: rest) = ((wordsIn? line).map (· ++ readable rest)).getD [] := by
  rw [readable, wordsIn?]
  cases Text.decode? line with
  | none => rfl
  | some text => rfl

theorem ending_of_undecodable (member : line ∈ rest) (fails : Text.decode? line = none) :
    ending rest = .error .undecodable := by
  refine if_neg fun all => ?_
  have decodes := List.all_eq_true.mp all line member
  rw [fails] at decodes
  cases decodes

/-- The words of lines are those between newlines. -/
theorem readable_lines (input : List UInt8) :
    readable (Text.lines input) = readable (input.splitOn Text.newline) := by
  induction input using Text.byLine with
  | last line single =>
      rw [Text.lines_of_notMem single, Text.splitOn_of_notMem single]
      split
      · rename_i empty
        rw [empty, readable_cons, wordsIn?_nil]
        rfl
      · rfl
  | more line rest single ih =>
      rw [Text.lines_append_cons single, Text.splitOn_append_cons single, readable_cons,
        readable_cons, wordsIn?_withoutReturn, ih]

theorem ending_lines (input : List UInt8) :
    ending (Text.lines input) = ending (input.splitOn Text.newline) := by
  induction input using Text.byLine with
  | last line single =>
      rw [Text.lines_of_notMem single, Text.splitOn_of_notMem single]
      split
      · rename_i empty
        simp [empty, ending]
      · rfl
  | more line rest single ih =>
      rw [Text.lines_append_cons single, Text.splitOn_append_cons single]
      simp only [ending, List.all_cons, ← isSome_wordsIn?, wordsIn?_withoutReturn] at ih ⊢
      cases (wordsIn? line).isSome with
      | false => rfl
      | true => exact ih

/-- Bytes encode text if all of its lines do, and then its words are theirs. -/
theorem wordsIn?_eq_readable (input : List UInt8) :
    wordsIn? input =
      if (input.splitOn Text.newline).all fun line => (Text.decode? line).isSome then
        some (readable (input.splitOn Text.newline))
      else none := by
  induction input using Text.byLine with
  | last line single =>
      rw [Text.splitOn_of_notMem single, readable_cons, List.all_cons, List.all_nil,
        ← isSome_wordsIn?]
      cases wordsIn? line with
      | none => rfl
      | some found => simp [readable]
  | more line rest single ih =>
      rw [wordsIn?_newline_cons, ih, Text.splitOn_append_cons single, readable_cons, List.all_cons,
        ← isSome_wordsIn?]
      cases wordsIn? line with
      | none => rfl
      | some found =>
          split
          · rename_i all
            simp [all]
          · rename_i not_all
            simp [not_all]

theorem run_eq (input : List UInt8) :
    i.run sink input = Outcome.ended (input.splitOn Text.newline) <$>
      i.executeAll sink (readable (input.splitOn Text.newline)) := by
  rw [run, runLines_eq, readable_lines]
  congr 1
  funext outcome
  simp only [Outcome.ended, ending_lines]

/-- The first of some lines that is no text comes right after those that encode some texts. -/
def BreaksAfter (texts : List String) (lines : List (List UInt8)) : Prop :=
  ∃ earlier line later, lines = earlier ++ line :: later ∧
    earlier.map Text.decode? = texts.map some ∧ Text.decode? line = none

theorem exists_breaksAfter (member : line ∈ rest) (fails : Text.decode? line = none) :
    ∃ texts, BreaksAfter texts rest := by
  induction rest with
  | nil => cases member
  | cons first rest ih =>
      cases decoded : Text.decode? first with
      | none => exact ⟨[], [], first, rest, rfl, rfl, decoded⟩
      | some text =>
          have later : line ∈ rest := by
            rcases List.mem_cons.mp member with rfl | later
            · rw [fails] at decoded
              cases decoded
            · exact later
          obtain ⟨texts, earlier, broken, behind, rfl, decodes, breaks⟩ := ih later
          refine ⟨text :: texts, first :: earlier, broken, behind, rfl, ?_, breaks⟩
          rw [List.map_cons, List.map_cons, decoded, decodes]

theorem BreaksAfter.readable_eq {texts : List String} (breaks : BreaksAfter texts rest) :
    readable rest = texts.flatMap wordsOf := by
  obtain ⟨earlier, line, later, rfl, decoded, fails⟩ := breaks
  induction texts generalizing earlier with
  | nil =>
      rw [List.map_eq_nil_iff.mp decoded]
      simp [readable, fails]
  | cons text texts ih =>
      obtain ⟨first, rest, rfl, here, there⟩ := List.map_eq_cons_iff.mp decoded
      simp only [List.cons_append, readable, here, ih _ there, List.flatMap_cons]

end Lines

/-! Faults. -/

/-- No word ends in the fault of a line that is no text. -/
theorem execute_ne_undecodable (ran : i.execute sink word = .ok outcome) :
    outcome.result ≠ .error .undecodable := by
  rcases taken : sink.write (remark word (Command.read word.toList).2) with ⟨between, written⟩
  cases written with
  | false =>
      rw [execute_of_unremarked taken] at ran
      cases ran
      exact nofun
  | true =>
      rw [execute_of_remarked taken] at ran
      obtain ⟨performed, carried, rfl⟩ := map_eq_ok_iff.mp ran
      cases performed with
      | error fault =>
          obtain ⟨_, rfl⟩ := perform_eq_fault carried
          exact nofun
      | ok effect =>
          unfold deliver
          dsimp only
          split <;> exact nofun

theorem executeAll_ne_undecodable {words : List String}
    (ran : i.executeAll sink words = .ok outcome) : outcome.result ≠ .error .undecodable := by
  induction words generalizing i sink with
  | nil =>
      cases ran
      exact nofun
  | cons word words ih =>
      rw [executeAll_cons] at ran
      obtain ⟨first, executed, ran⟩ := bind_eq_ok_iff.mp ran
      by_cases proceeds : first.result = .ok .proceed
      · rw [Outcome.andThen_of_proceeds proceeds] at ran
        exact ih ran
      · rw [Outcome.andThen_of_stops proceeds] at ran
        cases ran
        exact execute_ne_undecodable executed

/-! Runs on whole texts. -/

theorem all_isSome_iff {input : List UInt8} :
    ((input.splitOn Text.newline).all fun line => (Text.decode? line).isSome) = true ↔
      (Text.decode? input).isSome = true := by
  rw [← isSome_wordsIn?, wordsIn?_eq_readable]
  split
  · rename_i all
    simp [all]
  · rename_i not_all
    simp [not_all]

theorem Outcome.ended_of_ending {lines : List (List UInt8)} (ends : ending lines = .ok .proceed)
    (outcome : Outcome Flow) : outcome.ended lines = outcome := by
  obtain ⟨result, interpreter, sink⟩ := outcome
  rcases result with fault | _ | _
  · rfl
  · rw [ended, ends]
  · rfl

/-- Input that is text as a whole is run by its words, wherever its lines end. -/
theorem run_of_decodes {input : List UInt8} {text : String}
    (decoded : Text.decode? input = some text) :
    i.run sink input = i.executeAll sink (wordsOf text) := by
  have all := all_isSome_iff.mpr (Option.isSome_of_mem decoded)
  have words := wordsIn?_eq_readable input
  rw [if_pos all, wordsIn?, decoded] at words
  rw [run_eq, ← Option.some.inj words]
  have ends : ending (input.splitOn Text.newline) = .ok .proceed := if_pos all
  simp only [funext (Outcome.ended_of_ending ends)]
  exact id_map _

/-- Input that is no text as a whole has a line that is none. -/
theorem decode?_eq_none_iff {input : List UInt8} :
    Text.decode? input = none ↔ ∃ texts, BreaksAfter texts (input.splitOn Text.newline) := by
  rw [← Option.not_isSome_iff_eq_none, ← all_isSome_iff]
  constructor
  · intro some_fails
    obtain ⟨line, member, fails⟩ :
        ∃ line ∈ input.splitOn Text.newline, Text.decode? line = none := by
      simpa using some_fails
    exact exists_breaksAfter member fails
  · rintro ⟨_, earlier, line, later, split, _, fails⟩
    simp [split, fails]

theorem Outcome.ended_of_undecodable {lines : List (List UInt8)}
    (ends : ending lines = .error .undecodable) (known : outcome.result ≠ .error .undecodable) :
    ∃ result, outcome.ended lines = { outcome with result } ∧
      (result = .error .undecodable ↔ outcome.result = .ok .proceed) ∧
      (outcome.result ≠ .ok .proceed → result = outcome.result) := by
  obtain ⟨result, interpreter, sink⟩ := outcome
  refine ⟨_, rfl, ?_⟩
  rcases result with fault | _ | _
  · simpa using known
  · simp [ends]
  · simp

/-- Reading by lines is reading as a whole. A run on input that is text executes the words of the
text; one on other input executes the words of the lines before the first line that is no text, and
fails with that line unless one of those words fails or ends the run. -/
theorem run_reads_text (i : Interpreter) (sink : Sink) (input : List UInt8) :
    (∀ text, Text.decode? input = some text →
      i.run sink input = i.executeAll sink (wordsOf text)) ∧
    (Text.decode? input = none ↔ ∃ texts, BreaksAfter texts (input.splitOn Text.newline)) ∧
    ∀ texts, BreaksAfter texts (input.splitOn Text.newline) →
      (∀ d, i.executeAll sink (texts.flatMap wordsOf) = .error d →
        i.run sink input = .error d) ∧
      ∀ before, i.executeAll sink (texts.flatMap wordsOf) = .ok before →
        ∃ result, i.run sink input = .ok { before with result } ∧
          (result = .error .undecodable ↔ before.result = .ok .proceed) ∧
          (before.result ≠ .ok .proceed → result = before.result) := by
  refine ⟨fun text decoded => run_of_decodes decoded, decode?_eq_none_iff, ?_⟩
  intro texts breaks
  have ran : i.run sink input = Outcome.ended (input.splitOn Text.newline) <$>
      i.executeAll sink (texts.flatMap wordsOf) := by
    rw [run_eq, breaks.readable_eq]
  have ends : ending (input.splitOn Text.newline) = .error .undecodable := by
    obtain ⟨earlier, line, later, split, _, fails⟩ := breaks
    exact ending_of_undecodable (by simp [split]) fails
  constructor
  · intro d failed
    rw [ran, failed]
    rfl
  · intro before executed
    obtain ⟨result, ended, shape⟩ :=
      Outcome.ended_of_undecodable ends (executeAll_ne_undecodable executed)
    refine ⟨result, ?_, shape⟩
    rw [ran, executed, ← ended]
    rfl

/-- Two words on lines with a blank one between them, of which the first ends in a carriage return;
and a word before a line that is no text, with another one after it. -/
theorem run_reads_text_torn :
    run {} {} [97, 13, 10, 10, 32, 98] = executeAll {} {} ["a", "b"] ∧
      ∃ before, executeAll {} {} ["a"] = .ok before ∧
        run {} {} [97, 13, 10, 255, 10, 98] =
          .ok { before with result := .error .undecodable } := by
  have decoded : Text.decode? [97, 13, 10, 10, 32, 98] = some "a\r\n\n b" :=
    Text.decode?_eq_some_iff.mpr (by decide)
  have words : wordsOf "a\r\n\n b" = ["a", "b"] := by cbv
  refine ⟨?_, ?_⟩
  · rw [← words]
    exact (run_reads_text {} {} _).1 _ decoded
  · have first : Text.decode? [97, 13] = some "a\r" := Text.decode?_eq_some_iff.mpr (by decide)
    have breaks : BreaksAfter ["a\r"] (List.splitOn Text.newline [97, 13, 10, 255, 10, 98]) := by
      refine ⟨[[97, 13]], [255], [[98]], by decide, ?_, by decide⟩
      rw [List.map_singleton, first]
      rfl
    have words : ["a\r"].flatMap wordsOf = ["a"] := by cbv
    obtain ⟨before, ran, proceeds⟩ : ∃ before, executeAll {} {} ["a"] = .ok before ∧
        before.result = .ok .proceed := ⟨_, rfl, rfl⟩
    obtain ⟨result, reads, fails, _⟩ :=
      ((run_reads_text {} {} _).2.2 _ breaks).2 before (words ▸ ran)
    rw [fails.mpr proceeds] at reads
    exact ⟨before, ran, reads⟩

end Interpreter

end PostfixAutomata
