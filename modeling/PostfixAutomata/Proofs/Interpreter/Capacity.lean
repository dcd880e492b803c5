import PostfixAutomata.Proofs.Interpreter.Failure
import PostfixAutomata.Proofs.Interpreter.Agreement
import PostfixAutomata.Proofs.Interpreter.Reading

set_option autoImplicit false

/-!
Runs whose sink has room for so many bytes only. Such a run goes like one with room for everything
until its output would pass that number; it writes what fits of the word that passes it, and ends
there with the interpreter from before that word. The output is cut, and never different.
-/

namespace PostfixAutomata

namespace Sink

variable {sink sink' : Sink} {n : Nat}

/-- What a sink with room for `n` bytes holds after being offered what this one holds. -/
def cut (sink : Sink) (n : Nat) : Sink where
  written := sink.written.extract 0 n
  room := some (n - sink.written.size)

/-- The sink `sink'` takes everything, and it holds what `sink` holds and perhaps more after it. -/
structure Extends (sink' sink : Sink) : Prop where
  unlimited : sink'.room = none
  written_eq : ∃ more : ByteArray, sink'.written = sink.written ++ more

theorem Extends.refl (unlimited : sink.room = none) : sink.Extends sink :=
  ⟨unlimited, .empty, ByteArray.append_empty.symm⟩

theorem Extends.trans {sink'' : Sink} (second : sink''.Extends sink') (first : sink'.Extends sink) :
    sink''.Extends sink := by
  obtain ⟨more, written⟩ := first.written_eq
  obtain ⟨further, written'⟩ := second.written_eq
  refine ⟨second.unlimited, more ++ further, ?_⟩
  rw [written', written, ByteArray.append_assoc]

theorem Extends.size_le (grown : sink'.Extends sink) : sink.written.size ≤ sink'.written.size := by
  obtain ⟨more, written⟩ := grown.written_eq
  rw [written, ByteArray.size_append]
  exact Nat.le_add_right _ _

theorem extends_write (unlimited : sink.room = none) (text : String) :
    (sink.write text).1.Extends sink := by
  rw [write_of_unlimited unlimited]
  exact ⟨unlimited, _, rfl⟩

theorem cut_of_fits (fits : sink.written.size ≤ n) :
    sink.cut n = { written := sink.written, room := some (n - sink.written.size) } := by
  have whole := ByteArray.extract_zero_max_size (a := sink.written) (i := n)
  rw [Nat.max_eq_left fits] at whole
  rw [cut, whole]

theorem cut_of_passes (passes : n < sink.written.size) :
    sink.cut n = { written := sink.written.extract 0 n, room := some 0 } := by
  rw [cut, Nat.sub_eq_zero_of_le (Nat.le_of_lt passes)]

/-- What comes after the first `n` bytes is not seen. -/
theorem Extends.cut_eq (grown : sink'.Extends sink) (full : n ≤ sink.written.size) :
    sink'.cut n = sink.cut n := by
  obtain ⟨more, written⟩ := grown.written_eq
  have nothing : more.extract (0 - sink.written.size) (n - sink.written.size) = .empty := by
    rw [ByteArray.extract_eq_empty_iff]
    omega
  have spent : n - sink'.written.size = n - sink.written.size := by
    have := grown.size_le
    omega
  rw [cut, cut, spent, written, ByteArray.extract_append, nothing, ByteArray.append_empty]

/-- As long as everything before it fits, a cut sink takes of a text what the cut leaves of it, and
fails if that is not all. -/
theorem write_cut (unlimited : sink.room = none) (fits : sink.written.size ≤ n) (text : String) :
    (sink.cut n).write text =
      ((sink.write text).1.cut n, decide ((sink.write text).1.written.size ≤ n)) := by
  have zero : 0 - sink.written.size = 0 := Nat.zero_sub _
  rw [write_of_unlimited unlimited]
  simp only [write, cut, ByteArray.extract_append, ByteArray.size_append, zero, Nat.sub_sub,
    Nat.le_sub_iff_add_le fits, Nat.add_comm]

/-- Writes texts one after another, up to the first one that does not fit. -/
def writeEach (sink : Sink) : List String → Sink × Bool
  | [] => (sink, true)
  | text :: rest =>
    match sink.write text with
    | (sink, true) => sink.writeEach rest
    | refused => refused

theorem write_append (sink : Sink) (first second : String) :
    sink.write (first ++ second) =
      match sink.write first with
      | (between, true) => between.write second
      | refused => refused := by
  obtain ⟨written, room⟩ := sink
  cases room with
  | none => simp only [write, String.toByteArray_append, ByteArray.append_assoc]
  | some room =>
      simp only [write, String.toByteArray_append, ByteArray.size_append, ByteArray.extract_append]
      have zero : 0 - first.toByteArray.size = 0 := Nat.zero_sub _
      rw [zero]
      by_cases fits : first.toByteArray.size ≤ room
      · have left : (first.toByteArray.size + second.toByteArray.size ≤ room) =
            (second.toByteArray.size ≤ room - first.toByteArray.size) := by
          rw [Nat.le_sub_iff_add_le fits, Nat.add_comm]
        rw [decide_eq_true fits]
        simp only [left, Nat.sub_sub, ByteArray.append_assoc]
      · -- The first text has filled the sink, and nothing of the second is written.
        have full : room - first.toByteArray.size = 0 := by omega
        have passes : ¬first.toByteArray.size + second.toByteArray.size ≤ room := by omega
        rw [decide_eq_false fits]
        simp only [← Nat.sub_sub, full, decide_eq_false passes, Nat.zero_sub,
          ByteArray.extract_same, ByteArray.append_empty]

/-- It does not matter in how many pieces a text is written. -/
theorem writeEach_eq_write_join (sink : Sink) (texts : List String) :
    sink.writeEach texts = sink.write (String.join texts) := by
  induction texts generalizing sink with
  | nil => exact sink.write_empty.symm
  | cons text rest ih =>
      rw [String.join_cons, write_append, writeEach]
      split
      · exact ih _
      · rfl

end Sink

namespace Interpreter

variable {i : Interpreter} {sink : Sink} {word : String} {words : List String} {n : Nat}
  {outcome : Outcome Flow}

/-! One word. -/

theorem deliver_extends (unlimited : sink.room = none) (performed : Except Fault Effect) :
    (i.deliver sink performed).sink.Extends sink := by
  cases performed with
  | error fault => exact .refl unlimited
  | ok effect => exact Sink.extends_write unlimited effect.text

theorem execute_extends (unlimited : sink.room = none) (ran : i.execute sink word = .ok outcome) :
    outcome.sink.Extends sink := by
  have remarked := Sink.extends_write unlimited (remark word (Command.read word.toList).2)
  rw [execute_of_remarked (Sink.write_of_unlimited unlimited _)] at ran
  obtain ⟨performed, _, rfl⟩ := map_eq_ok_iff.mp ran
  rw [Sink.write_of_unlimited unlimited] at remarked
  exact (deliver_extends remarked.unlimited performed).trans remarked

/-- What a word comes to when only `n` bytes fit, if it comes to `outcome` when everything fits. -/
def Outcome.cut (i : Interpreter) (n : Nat) (outcome : Outcome Flow) : Outcome Flow :=
  if outcome.sink.written.size ≤ n then { outcome with sink := outcome.sink.cut n }
  else ⟨.error .sinkFull, i, outcome.sink.cut n⟩

theorem deliver_cut (unlimited : sink.room = none) (fits : sink.written.size ≤ n)
    {performed : Except Fault Effect} {command : Command}
    (carried : i.perform word command = .ok performed) :
    i.deliver (sink.cut n) performed = (i.deliver sink performed).cut i n := by
  cases performed with
  | error fault => exact (if_pos fits).symm
  | ok effect =>
      have whole : (sink.write effect.text).2 = true := by
        rw [Sink.write_of_unlimited unlimited]
      simp only [deliver, Outcome.cut, Sink.write_cut unlimited fits, whole, decide_eq_true_eq,
        ↓reduceIte]
      by_cases enough : (sink.write effect.text).1.written.size ≤ n
      · rw [if_pos enough, if_pos enough]
      · -- A text that does not fit is not empty, and then the command has changed nothing.
        have unchanged : effect.next = i := by
          refine (text_eq_empty_or_next_eq carried).resolve_left fun empty => enough ?_
          rw [empty, Sink.write_empty]
          exact fits
        rw [if_neg enough, if_neg enough, unchanged]

/-- A word that does not fit is cut off and changes nothing. -/
theorem execute_cut (unlimited : sink.room = none) (fits : sink.written.size ≤ n)
    (ran : i.execute sink word = .ok outcome) :
    i.execute (sink.cut n) word = .ok (outcome.cut i n) := by
  have remarked := Sink.extends_write unlimited (remark word (Command.read word.toList).2)
  have taken := Sink.write_cut unlimited fits (remark word (Command.read word.toList).2)
  rw [execute_of_remarked (Sink.write_of_unlimited unlimited _)] at ran
  obtain ⟨performed, carried, rfl⟩ := map_eq_ok_iff.mp ran
  rw [Sink.write_of_unlimited unlimited] at remarked taken
  by_cases enough : (sink.written ++
      (remark word (Command.read word.toList).2).toByteArray).size ≤ n
  · rw [decide_eq_true enough] at taken
    rw [execute_of_remarked taken]
    exact map_eq_ok_iff.mpr ⟨performed, carried, deliver_cut remarked.unlimited enough carried⟩
  · rw [decide_eq_false enough] at taken
    rw [execute_of_unremarked taken]
    have grown := deliver_extends (i := i) remarked.unlimited performed
    have passed : n < (i.deliver { sink with written := sink.written ++
        (remark word (Command.read word.toList).2).toByteArray } performed).sink.written.size :=
      Nat.lt_of_lt_of_le (Nat.lt_of_not_le enough) grown.size_le
    rw [Outcome.cut, if_neg (Nat.not_le_of_lt passed), grown.cut_eq (Nat.le_of_not_le enough)]

/-! Runs. -/

theorem Outcome.andThen_extends {last : Outcome Flow}
    {next : Interpreter → Sink → Except Defect (Outcome Flow)}
    (unlimited : last.sink.room = none)
    (later : next last.interpreter last.sink = .ok outcome → outcome.sink.Extends last.sink)
    (ran : last.andThen next = .ok outcome) : outcome.sink.Extends last.sink := by
  by_cases proceeds : last.result = .ok .proceed
  · rw [Outcome.andThen_of_proceeds proceeds] at ran
    exact later ran
  · rw [Outcome.andThen_of_stops proceeds] at ran
    cases ran
    exact .refl unlimited

theorem executeAll_extends (unlimited : sink.room = none)
    (ran : i.executeAll sink words = .ok outcome) : outcome.sink.Extends sink := by
  induction words generalizing i sink with
  | nil =>
      cases ran
      exact .refl unlimited
  | cons word rest ih =>
      rw [executeAll_cons] at ran
      obtain ⟨first, executed, ran⟩ := bind_eq_ok_iff.mp ran
      have grown := execute_extends unlimited executed
      have continues := Outcome.andThen_extends grown.unlimited (ih grown.unlimited) ran
      exact continues.trans grown

/-- The word of a run with which its output passes `n` bytes. -/
structure Crossing (i : Interpreter) (sink : Sink) (words : List String) (n : Nat)
    (final : Sink) where
  earlier : List String
  word : String
  later : List String
  words_eq : words = earlier ++ word :: later
  /-- The interpreter just before the word. -/
  interpreter : Interpreter
  before : Sink
  reached : i.executeAll sink earlier = .ok ⟨.ok .proceed, interpreter, before⟩
  after : Outcome Flow
  executed : interpreter.execute before word = .ok after
  begins : before.written.size ≤ n
  passes : n < after.sink.written.size
  continues : final.Extends after.sink

/-- A word does not cross earlier for being run after another one. -/
def Crossing.cons {first : Outcome Flow} {final : Sink} (executed : i.execute sink word = .ok first)
    (proceeds : first.result = .ok .proceed)
    (crossing : first.interpreter.Crossing first.sink words n final) :
    i.Crossing sink (word :: words) n final :=
  { crossing with
    earlier := word :: crossing.earlier
    words_eq := congrArg (word :: ·) crossing.words_eq
    reached := by
      rw [executeAll_cons]
      refine bind_eq_ok_iff.mpr ⟨first, executed, ?_⟩
      rw [Outcome.andThen_of_proceeds proceeds]
      exact crossing.reached }

/-- What a run comes to when only `n` bytes fit, if it comes to `outcome` when everything fits. -/
def Truncated (i : Interpreter) (sink : Sink) (words : List String) (n : Nat)
    (outcome bounded : Outcome Flow) : Prop :=
  (outcome.sink.written.size ≤ n → bounded = { outcome with sink := outcome.sink.cut n }) ∧
    (n < outcome.sink.written.size → ∃ crossing : i.Crossing sink words n outcome.sink,
      bounded = ⟨.error .sinkFull, crossing.interpreter, outcome.sink.cut n⟩)

theorem truncated_of_fits (fits : outcome.sink.written.size ≤ n) :
    i.Truncated sink words n outcome { outcome with sink := outcome.sink.cut n } :=
  ⟨fun _ => rfl, fun passes => absurd fits (Nat.not_le_of_lt passes)⟩

theorem Truncated.cons {first bounded : Outcome Flow} (executed : i.execute sink word = .ok first)
    (proceeds : first.result = .ok .proceed)
    (truncated : first.interpreter.Truncated first.sink words n outcome bounded) :
    i.Truncated sink (word :: words) n outcome bounded := by
  refine ⟨truncated.1, fun passes => ?_⟩
  obtain ⟨crossing, stopped⟩ := truncated.2 passes
  exact ⟨crossing.cons executed proceeds, stopped⟩

/-- The first word of a run passes `n` bytes, and what comes after it is not executed. -/
theorem truncated_of_passes {first : Outcome Flow} (fits : sink.written.size ≤ n)
    (executed : i.execute sink word = .ok first) (passes : n < first.sink.written.size)
    (continues : outcome.sink.Extends first.sink) :
    i.Truncated sink (word :: words) n outcome ⟨.error .sinkFull, i, first.sink.cut n⟩ := by
  refine ⟨fun enough => ?_, fun _ => ?_⟩
  · exact absurd (continues.size_le.trans enough) (Nat.not_le_of_lt passes)
  · rw [continues.cut_eq (Nat.le_of_lt passes)]
    exact ⟨⟨[], word, words, rfl, i, sink, rfl, first, executed, fits, passes, continues⟩, rfl⟩

theorem executeAll_cut (unlimited : sink.room = none) (fits : sink.written.size ≤ n)
    (ran : i.executeAll sink words = .ok outcome) :
    ∃ bounded, i.executeAll (sink.cut n) words = .ok bounded ∧
      i.Truncated sink words n outcome bounded := by
  induction words generalizing i sink with
  | nil =>
      cases ran
      exact ⟨_, rfl, truncated_of_fits fits⟩
  | cons word rest ih =>
      rw [executeAll_cons] at ran ⊢
      obtain ⟨first, executed, ran⟩ := bind_eq_ok_iff.mp ran
      have grown := execute_extends unlimited executed
      rw [execute_cut unlimited fits executed, Outcome.cut]
      by_cases enough : first.sink.written.size ≤ n
      · rw [if_pos enough]
        by_cases proceeds : first.result = .ok .proceed
        · rw [Outcome.andThen_of_proceeds proceeds] at ran
          obtain ⟨bounded, run, truncated⟩ := ih grown.unlimited enough ran
          refine ⟨bounded, bind_eq_ok_iff.mpr ⟨_, rfl, ?_⟩, truncated.cons executed proceeds⟩
          rw [Outcome.andThen_of_proceeds]
          · exact run
          · exact proceeds
        · rw [Outcome.andThen_of_stops proceeds] at ran
          cases ran
          refine ⟨_, bind_eq_ok_iff.mpr ⟨_, rfl, Outcome.andThen_of_stops ?_ _⟩,
            truncated_of_fits enough⟩
          exact proceeds
      · rw [if_neg enough]
        have continues := Outcome.andThen_extends grown.unlimited
          (executeAll_extends grown.unlimited) ran
        exact ⟨_, rfl, truncated_of_passes fits executed (Nat.lt_of_not_le enough) continues⟩

/-- Running with little room is running with room for everything, cut off. If all the output of a
run fits into `n` bytes, nothing is different. If not, the output is the first `n` bytes, the run
fails for want of room, and it leaves the interpreter from before the word whose output passes
them. -/
theorem bounded_runs_are_cut {input : List UInt8} (ran : i.run {} input = .ok outcome) (n : Nat) :
    (outcome.sink.written.size ≤ n →
      i.run { room := some n } input = .ok { outcome with
        sink := { written := outcome.sink.written
                  room := some (n - outcome.sink.written.size) } }) ∧
    (n < outcome.sink.written.size →
      ∃ crossing : i.Crossing {} (readable (Text.lines input)) n outcome.sink,
        i.run { room := some n } input = .ok ⟨.error .sinkFull, crossing.interpreter,
          { written := outcome.sink.written.extract 0 n, room := some 0 }⟩) := by
  have start : ({} : Sink).cut n = { room := some n } := Sink.cut_of_fits (Nat.zero_le n)
  rw [run, runLines_eq] at ran ⊢
  obtain ⟨last, executed, rfl⟩ := map_eq_ok_iff.mp ran
  obtain ⟨bounded, cut, whole, partly⟩ := executeAll_cut rfl (Nat.zero_le n) executed
  rw [← start, cut]
  refine ⟨fun fits => ?_, fun passes => ?_⟩
  · rw [whole fits, ← Sink.cut_of_fits fits]
    rfl
  · obtain ⟨crossing, stopped⟩ := partly passes
    rw [← Sink.cut_of_passes passes, stopped]
    exact ⟨crossing, rfl⟩

/-- The remark on the third word does not fit into what the first two have left of ten bytes. -/
theorem bounded_runs_are_cut_remark :
    ∃ outcome, run {} {} "a SIZE ab SIZE".toByteArray.data.toList = .ok outcome ∧
      ∃ crossing : Crossing {} {} (readable (Text.lines "a SIZE ab SIZE".toByteArray.data.toList))
          10 outcome.sink,
        run {} { room := some 10 } "a SIZE ab SIZE".toByteArray.data.toList =
          .ok ⟨.error .sinkFull, crossing.interpreter,
            { written := outcome.sink.written.extract 0 10, room := some 0 }⟩ := by
  have computed : (fun outcome => decide (10 < outcome.sink.written.size)) <$>
      run {} {} "a SIZE ab SIZE".toByteArray.data.toList = .ok true := by cbv
  obtain ⟨outcome, ran, passes⟩ := map_eq_ok_iff.mp computed
  exact ⟨outcome, ran, (bounded_runs_are_cut ran 10).2 (of_decide_eq_true passes)⟩

end Interpreter

end PostfixAutomata
