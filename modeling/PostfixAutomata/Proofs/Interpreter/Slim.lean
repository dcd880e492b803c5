import PostfixAutomata.Proofs.Interpreter.Command
import PostfixAutomata.Proofs.Interpreter.Ownership
import PostfixAutomata.Proofs.Machine.Language
import PostfixAutomata.Proofs.Nfa.Sparse

set_option autoImplicit false

/-!
The automata on the stack are slim: their alphabets are made of lowercase letters, and few
transitions leave a state. So statistics never overflow, and what is left to fail of a command is an
exhausted counter.
-/

namespace PostfixAutomata

namespace Machine

/-- A lowercase alphabet and, if the automaton is nondeterministic, few transitions a state. -/
structure Slim (M : Machine) : Prop where
  lowercase : ∀ {c : Char}, c ∈ M.alphabet → Command.isLowercase c = true
  sparse : M.toNfa.Sparse

variable {M : Machine} {c : Counter}

theorem Slim.ofDfa {D : Dfa} (lowercase : ∀ {c : Char}, c ∈ D.alphabet →
    Command.isLowercase c = true) : (dfa D).Slim :=
  ⟨lowercase, Nfa.sparse_toNfa D⟩

theorem Slim.outDegree_le (sound : M.Sound c) (slim : M.Slim) (s : State) :
    M.outDegree s ≤ 28 := by
  have letters := Alphabet.size_le_of_lowercase fun c symbol => slim.lowercase symbol
  cases M with
  | nfa A =>
      have bounded := Nfa.outDegree_le sound.valid (slim.sparse.everywhere s)
      change A.outDegree s ≤ 28
      change A.alphabet.size ≤ 26 at letters
      omega
  | dfa D =>
      have bounded := Dfa.outDegree_le sound.valid s
      change D.outDegree s ≤ 28
      change D.alphabet.size ≤ 26 at letters
      omega

/-- No degree is counted more often than there are identifiers. -/
theorem count_le (M : Machine) (degree : Nat) :
    M.statistics.degrees.getD degree 0 ≤ UInt32.size := by
  cases M with
  | nfa A => exact A.count_le degree
  | dfa D => exact D.count_le degree

theorem Slim.transitions_eq_ok (sound : M.Sound c) (slim : M.Slim) :
    ∃ total ≤ UInt32.size * 28, M.statistics.transitions = .ok total := by
  have bounded := slim.outDegree_le sound
  cases M with
  | nfa A => exact Automaton.transitions_of_small (fun s _ => bounded s) (by decide)
  | dfa D => exact Automaton.transitions_of_small (fun s _ => bounded s) (by decide)

end Machine

namespace Interpreter

variable {i i' : Interpreter} {word : String} {command : Command} {d : Defect}

def Slim (i : Interpreter) : Prop := ∀ M ∈ i.stack, M.Slim

theorem Owned.apart_pair (owned : i.Owned) {second first : Machine} {rest : List Machine}
    (found : i.stack = second :: first :: rest) :
    ∀ s ∈ first.toNfa.states, s ∉ second.toNfa.states := by
  obtain ⟨soundFirst, soundSecond⟩ := owned.sound_pair found
  intro s inside shared
  rw [Machine.mem_states_toNfa soundFirst] at inside
  rw [Machine.mem_states_toNfa soundSecond] at shared
  have apart := owned.apart
  rw [found] at apart
  exact (List.pairwise_cons.mp apart).1 first List.mem_cons_self s shared inside

/-- Every command keeps the automata slim, as long as its literal is a lowercase letter. -/
theorem Turn.slim (turn : i.Turn command i') (owned : i.Owned) (slim : i.Slim)
    (letter : ∀ {c : Char}, command = .literal (.symbol c) → Command.isLowercase c = true) :
    i'.Slim := by
  have top : ∀ {top : Machine} {rest : List Machine}, i.stack = top :: rest → top.Slim := by
    intro top rest found
    exact slim top (by simp [found])
  have pair : ∀ {second first : Machine} {rest : List Machine},
      i.stack = second :: first :: rest → first.Slim ∧ second.Slim := by
    intro second first rest found
    exact ⟨slim first (by simp [found]), slim second (by simp [found])⟩
  have exchange : ∀ (consumed : List Machine) {rest : List Machine} {M : Machine}
      {counter : Counter}, i.stack = consumed ++ rest → M.Slim →
        Slim { i with counter, stack := M :: rest } := by
    intro consumed rest M counter split new N member
    cases List.mem_cons.mp member with
    | inl same => exact same ▸ new
    | inr member =>
        apply slim
        rw [split]
        exact List.mem_append_right consumed member
  cases turn with
  | keep => exact slim
  | @literal l A counter ran =>
      refine exchange [] rfl ⟨?_, Nfa.sparse_literal ran⟩
      intro c symbol
      have reads := (Nfa.mem_alphabet_literal ran).mp symbol
      cases l with
      | epsilon => cases reads
      | symbol d =>
          cases reads
          exact letter rfl
  | determinize found ran =>
      refine exchange [_] found (.ofDfa ?_)
      intro c symbol
      rw [Machine.alphabet_toDfa ran] at symbol
      exact (top found).lowercase symbol
  | complement found ran =>
      refine exchange [_] found (.ofDfa ?_)
      intro c symbol
      rw [Machine.alphabet_complement ran] at symbol
      exact (top found).lowercase symbol
  | star found ran =>
      have sound := owned.sound_top found
      refine exchange [_] found ⟨?_, Nfa.sparse_star sound.toNfa (top found).sparse ran⟩
      intro c symbol
      exact (top found).lowercase ((Machine.mem_alphabet_star sound ran).mp symbol)
  | union found ran =>
      obtain ⟨soundFirst, soundSecond⟩ := owned.sound_pair found
      obtain ⟨slimFirst, slimSecond⟩ := pair found
      refine exchange [_, _] found ⟨?_, Nfa.sparse_union soundFirst.toNfa
        soundSecond.toNfa (owned.apart_pair found) slimFirst.sparse slimSecond.sparse ran⟩
      intro c symbol
      cases (Machine.mem_alphabet_union soundFirst soundSecond ran).mp symbol with
      | inl old => exact slimFirst.lowercase old
      | inr old => exact slimSecond.lowercase old
  | concat found ran =>
      obtain ⟨soundFirst, soundSecond⟩ := owned.sound_pair found
      obtain ⟨slimFirst, slimSecond⟩ := pair found
      refine exchange [_, _] found ⟨?_, Nfa.sparse_concat soundFirst.toNfa
        soundSecond.toNfa (owned.apart_pair found) slimFirst.sparse slimSecond.sparse ran⟩
      intro c symbol
      cases (Machine.mem_alphabet_concat soundFirst soundSecond ran).mp symbol with
      | inl old => exact slimFirst.lowercase old
      | inr old => exact slimSecond.lowercase old

theorem Reachable.slim (reachable : i.Reachable) : i.Slim := by
  induction reachable with
  | new => exact nofun
  | @step i sink word outcome before ran ih =>
      cases execute_eq_ok ran with
      | inl same =>
          rw [same]
          exact ih
      | inr turn => exact turn.slim before.owned ih Command.isLowercase_of_read

/-- The only way for a word to end everything is an exhausted counter. -/
theorem Reachable.execute_eq_error (reachable : i.Reachable) {sink : Sink}
    (failed : i.execute sink word = .error d) : d = .identifiersExhausted := by
  have owned := reachable.owned
  cases perform_eq_error owned (Interpreter.execute_eq_error failed) with
  | inl exhausted => exact exhausted
  | inr overflow =>
      obtain ⟨top, rest, found, overflow⟩ := overflow
      obtain ⟨total, _, computed⟩ :=
        (reachable.slim top (by simp [found])).transitions_eq_ok (owned.sound_top found)
      rw [computed] at overflow
      cases overflow

/-- The statistics of the topmost automaton can be written. -/
theorem Reachable.statistics_text (reachable : i.Reachable) {top : Machine} {rest : List Machine}
    (found : i.stack = top :: rest) : ∃ text, top.statistics.text = .ok text := by
  have sound := reachable.owned.sound_top found
  obtain ⟨total, _, computed⟩ := (reachable.slim top (by simp [found])).transitions_eq_ok sound
  exact Statistics.text_of_transitions computed

/-- Statistics never overflow. In every reachable interpreter a state of a nondeterministic
automaton has one destination under a symbol and two under ε at most, and a final state only one
under ε; symbols are lowercase letters. So every out-degree is at most 28, the counts of states and the total
fit, and the statistics of the topmost automaton are written whenever they are asked for. -/
theorem statistics_never_overflow (reachable : i.Reachable) :
    (∀ A : Nfa, .nfa A ∈ i.stack → ∀ p : State,
      (∀ c : Char, (A.targets p (.symbol c)).size ≤ 1) ∧ (A.targets p .epsilon).size ≤ 2 ∧
        (p ∈ A.finals → (A.targets p .epsilon).size ≤ 1)) ∧
    (∀ M ∈ i.stack, (∀ c ∈ M.alphabet, 'a' ≤ c ∧ c ≤ 'z') ∧ (∀ s : State, M.outDegree s ≤ 28) ∧
      (∀ degree, M.statistics.degrees.getD degree 0 ≤ UInt32.size) ∧
      ∃ total ≤ UInt32.size * 28, M.statistics.transitions = .ok total) ∧
    (∀ top rest, i.stack = top :: rest → ∃ text, top.statistics.text = .ok text ∧
      ∀ word, i.perform word .statistics = .ok (.ok { text := text ++ "\n", next := i })) ∧
    ∀ sink : Sink, ∃ outcome, i.execute sink "STAT" = .ok outcome := by
  have printed : ∀ top rest, i.stack = top :: rest → ∃ text, top.statistics.text = .ok text ∧
      ∀ word, i.perform word .statistics = .ok (.ok { text := text ++ "\n", next := i }) := by
    intro top rest found
    obtain ⟨text, written⟩ := reachable.statistics_text found
    refine ⟨text, written, fun word => ?_⟩
    simp only [perform, answer, found, written]
    rfl
  refine ⟨?_, ?_, printed, ?_⟩
  · intro A member p
    have sparse : A.Sparse := (reachable.slim _ member).sparse
    exact ⟨(sparse.everywhere p).size_symbol_le, (sparse.everywhere p).size_epsilon_le,
      sparse.size_final_le⟩
  · intro M member
    have slim := reachable.slim M member
    have sound := reachable.owned.sound member
    refine ⟨?_, slim.outDegree_le sound, M.count_le, slim.transitions_eq_ok sound⟩
    intro c symbol
    simpa [Command.isLowercase] using slim.lowercase symbol
  · intro sink
    cases ran : i.execute sink "STAT" with
    | ok outcome => exact ⟨outcome, rfl⟩
    | error d =>
        have failed : i.perform "STAT" .statistics = .error d := Interpreter.execute_eq_error ran
        cases found : i.stack with
        | nil =>
            rw [perform, answer, found] at failed
            cases failed
        | cons top rest =>
            obtain ⟨text, _, performed⟩ := printed top rest found
            rw [performed] at failed
            cases failed

/-- The only automaton on the stack, if it is a nondeterministic one. -/
def onlyNfa? (i : Interpreter) : Option Nfa :=
  match i.stack with
  | [.nfa A] => some A
  | _ => none

theorem onlyNfa?_eq_some_iff {A : Nfa} : i.onlyNfa? = some A ↔ i.stack = [.nfa A] := by
  unfold onlyNfa?
  split
  · rename_i only
    rw [only, Option.some.injEq, List.cons.injEq, Machine.nfa.injEq, and_iff_left rfl]
  · rename_i other
    exact iff_of_false nofun (other A)

/-- The star of a complement is joined with a literal. -/
theorem statistics_never_overflow_complement :
    ∃ (i : Interpreter) (A : Nfa), i.Reachable ∧ i.stack = [.nfa A] ∧
      (∀ p : State, (∀ c : Char, (A.targets p (.symbol c)).size ≤ 1) ∧
        (A.targets p .epsilon).size ≤ 2 ∧ (p ∈ A.finals → (A.targets p .epsilon).size ≤ 1)) ∧
      (∀ c ∈ A.alphabet, 'a' ≤ c ∧ c ≤ 'z') ∧ (∀ s : State, A.outDegree s ≤ 28) ∧
      ∃ text, A.statistics.text = .ok text ∧
        ∃ outcome, i.execute {} "STAT" = .ok outcome := by
  have computed : (((executeEach {} {} ["a", "COMPLEMENT", "*", "b", "|"]).toOption.bind
      (·.getLast?)).bind fun outcome =>
        outcome.interpreter.onlyNfa?.map fun A => (outcome, A)).isSome = true := by cbv
  obtain ⟨⟨outcome, A⟩, chained⟩ := Option.isSome_iff_exists.mp computed
  obtain ⟨outcome, found, chained⟩ := Option.bind_eq_some_iff.mp chained
  obtain ⟨outcomes, ran, last⟩ := Option.bind_eq_some_iff.mp found
  obtain ⟨A, only, same⟩ := Option.map_eq_some_iff.mp chained
  cases same
  have only := onlyNfa?_eq_some_iff.mp only
  have reachable := Reachable.new.executeEach (toOption_eq_some_iff.mp ran) outcome
    (List.mem_of_getLast? last)
  have top : .nfa A ∈ outcome.interpreter.stack := by
    rw [only]
    exact List.mem_singleton_self _
  obtain ⟨few, small, printed, asked⟩ := statistics_never_overflow reachable
  obtain ⟨letters, degrees, _⟩ := small _ top
  obtain ⟨text, written, _⟩ := printed _ _ only
  exact ⟨outcome.interpreter, A, reachable, only, few A top, letters, degrees, text, written,
    asked {}⟩

end Interpreter

end PostfixAutomata
