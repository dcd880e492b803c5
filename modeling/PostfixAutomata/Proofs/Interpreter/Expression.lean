import PostfixAutomata.Proofs.Interpreter.Queries
import PostfixAutomata.Proofs.Interpreter.Reading
import PostfixAutomata.Proofs.Nfa.Sizes

set_option autoImplicit false

/-!
Expressions and the automata that they are built into. The words that build leave an expression for
each automaton on the stack: the words of the expressions, the lowest first, are all words that were
read, but for those that ask. How large an automaton is can be counted in its words.
-/

namespace PostfixAutomata

/-- Whether a command builds an automaton from literals by operators. -/
def Command.builds : Command → Bool
  | .literal _ | .star | .union | .concat => true
  | .done | .size | .print | .statistics | .determinize | .complement | .generate _ | .test _
  | .unknown => false

theorem Command.builds_eq_false_of_keepsStack {command : Command}
    (keeps : command.keepsStack = true) : command.builds = false := by
  cases command with
  | done | size | print | statistics | generate | test | unknown => rfl
  | determinize | complement | literal | star | union | concat => cases keeps

/-- Whether a command puts a deterministic automaton on the stack. -/
def Command.determinizes : Command → Bool
  | .determinize | .complement => true
  | .done | .size | .print | .statistics | .generate _ | .test _ | .literal _ | .star | .union
  | .concat | .unknown => false

/-- What an automaton is built from. -/
inductive Expression
  | literal (l : Label)
  | star (e : Expression)
  | union (e f : Expression)
  | concat (e f : Expression)

namespace Expression

/-- The commands that build an expression, each operator after its operands. -/
def spelling : Expression → List Command
  | literal l => [.literal l]
  | star e => e.spelling ++ [.star]
  | union e f => e.spelling ++ f.spelling ++ [.union]
  | concat e f => e.spelling ++ f.spelling ++ [.concat]

/-- The commands that build a stack of expressions, the topmost of which is the first. -/
def spellings (stack : List Expression) : List Command := stack.reverse.flatMap spelling

@[simp] theorem spellings_cons (e : Expression) (stack : List Expression) :
    spellings (e :: stack) = spellings stack ++ e.spelling := by
  simp [spellings]

/-! Spellings are read in one way only. -/

/-- The stack after a command. A command that wants for operands changes nothing. -/
def assemble : List Expression → Command → List Expression
  | stack, .literal l => literal l :: stack
  | e :: rest, .star => star e :: rest
  | f :: e :: rest, .union => union e f :: rest
  | f :: e :: rest, .concat => concat e f :: rest
  | stack, _ => stack

theorem foldl_assemble_spelling (e : Expression) (stack : List Expression) :
    e.spelling.foldl assemble stack = e :: stack := by
  induction e generalizing stack with
  | literal l => rfl
  | star e ih =>
      rw [spelling, List.foldl_append, ih]
      rfl
  | union e f ihE ihF =>
      rw [spelling, List.foldl_append, List.foldl_append, ihE, ihF]
      rfl
  | concat e f ihE ihF =>
      rw [spelling, List.foldl_append, List.foldl_append, ihE, ihF]
      rfl

theorem foldl_assemble_spellings (stack : List Expression) :
    (spellings stack).foldl assemble [] = stack := by
  induction stack with
  | nil => rfl
  | cons e rest ih => rw [spellings_cons, List.foldl_append, ih, foldl_assemble_spelling]

/-- No two stacks have the same words. So it is determined which of the words that were read belong
to which automaton. -/
theorem spellings_injective : Function.Injective spellings := by
  intro stack stack' same
  rw [← foldl_assemble_spellings stack, same, foldl_assemble_spellings]

/-! Counting words. -/

def literals (e : Expression) : Nat := e.spelling.countP fun command => command matches .literal _

def stars (e : Expression) : Nat := e.spelling.count .star

def unions (e : Expression) : Nat := e.spelling.count .union

def concats (e : Expression) : Nat := e.spelling.count .concat

/-- The number of states of the automaton of an expression. -/
def states (e : Expression) : Nat := 2 * (e.literals + e.unions + e.stars)

/-- The number of transitions of the automaton of an expression. -/
def transitions (e : Expression) : Nat := e.literals + e.concats + 4 * (e.unions + e.stars)

variable (e f : Expression)

theorem states_literal (l : Label) : (literal l).states = 2 := rfl

theorem states_star : e.star.states = e.states + 2 := by
  simp [states, literals, unions, stars, spelling]
  omega

theorem transitions_star : e.star.transitions = e.transitions + 4 := by
  simp [transitions, literals, unions, stars, concats, spelling]
  omega

theorem states_union : (e.union f).states = e.states + f.states + 2 := by
  simp [states, literals, unions, stars, spelling]
  omega

theorem transitions_union : (e.union f).transitions = e.transitions + f.transitions + 4 := by
  simp [transitions, literals, unions, stars, concats, spelling]
  omega

theorem states_concat : (e.concat f).states = e.states + f.states := by
  simp [states, literals, unions, stars, spelling]
  omega

theorem transitions_concat : (e.concat f).transitions = e.transitions + f.transitions + 1 := by
  simp [transitions, literals, unions, stars, concats, spelling]
  omega

/-! The automata of expressions. -/

/-- An automaton of the size that an expression makes it, which an operator may take. -/
def Builds (M : Machine) (e : Expression) : Prop :=
  ∃ A start stop, M = .nfa A ∧ A.Sized start stop e.states e.transitions

theorem Builds.size_eq {M : Machine} {e : Expression} (built : Builds M e) :
    M.size = e.states := by
  obtain ⟨A, start, stop, rfl, sized⟩ := built
  exact sized.size

end Expression

namespace Interpreter

open Expression (spellings)

variable {i i' : Interpreter} {commands : List Command} {command : Command}
  {expressions : List Expression}

/-- The automata of an interpreter are those that some commands build, and the counter has drawn
just their states. -/
structure Built (i : Interpreter) (commands : List Command) (expressions : List Expression) :
    Prop where
  spelled : spellings expressions = commands.filter Command.builds
  builds : List.Forall₂ Expression.Builds i.stack expressions
  next_eq : i.counter.next = (i.stack.map Machine.size).sum

theorem built_new (ids : AllocatorId) : Built { ids } [] [] := ⟨rfl, .nil, rfl⟩

theorem filter_builds_concat (builds : command.builds = true) (commands : List Command) :
    (commands ++ [command]).filter Command.builds =
      commands.filter Command.builds ++ [command] := by
  rw [List.filter_append, List.filter_cons_of_pos builds, List.filter_nil]

/-- A new automaton on top of ones that are built. -/
theorem Built.cons {ids : AllocatorId} {counter : Counter} {A : Nfa} {start stop : State}
    {e : Expression} {below : List Expression} {rest : List Machine}
    (sized : A.Sized start stop e.states e.transitions)
    (builds : List.Forall₂ Expression.Builds rest below)
    (spelled : spellings below ++ e.spelling = commands.filter Command.builds)
    (next : counter.next = e.states + (rest.map Machine.size).sum) :
    Built { ids, counter, stack := .nfa A :: rest } commands (e :: below) := by
  have built : Expression.Builds (.nfa A) e := ⟨A, start, stop, rfl, sized⟩
  refine ⟨(Expression.spellings_cons e below).trans spelled, .cons built builds, ?_⟩
  rw [List.map_cons, List.sum_cons, built.size_eq]
  exact next

theorem Built.of_top (built : i.Built commands expressions) {top : Machine} {rest : List Machine}
    (found : i.stack = top :: rest) :
    ∃ A start stop e below, top = .nfa A ∧ A.Sized start stop e.states e.transitions ∧
      List.Forall₂ Expression.Builds rest below ∧ expressions = e :: below ∧
      i.counter.next = e.states + (rest.map Machine.size).sum := by
  have builds := built.builds
  rw [found, List.forall₂_cons_left_iff] at builds
  obtain ⟨e, below, builtTop, builds, split⟩ := builds
  have next := built.next_eq
  rw [found, List.map_cons, List.sum_cons, builtTop.size_eq] at next
  obtain ⟨A, start, stop, isNfa, sized⟩ := builtTop
  exact ⟨A, start, stop, e, below, isNfa, sized, builds, split, next⟩

theorem Built.of_pair (built : i.Built commands expressions) {second first : Machine}
    {rest : List Machine} (found : i.stack = second :: first :: rest) :
    ∃ A B startA stopA startB stopB e f below, first = .nfa A ∧ second = .nfa B ∧
      A.Sized startA stopA e.states e.transitions ∧
      B.Sized startB stopB f.states f.transitions ∧
      List.Forall₂ Expression.Builds rest below ∧ expressions = f :: e :: below ∧
      i.counter.next = f.states + e.states + (rest.map Machine.size).sum := by
  obtain ⟨B, startB, stopB, f, _, isNfaB, sizedB, builds, split, next⟩ := built.of_top found
  rw [List.forall₂_cons_left_iff] at builds
  obtain ⟨e, below, builtFirst, builds, rfl⟩ := builds
  rw [List.map_cons, List.sum_cons, builtFirst.size_eq, ← Nat.add_assoc] at next
  obtain ⟨A, startA, stopA, isNfaA, sizedA⟩ := builtFirst
  exact ⟨A, B, startA, stopA, startB, stopB, e, f, below, isNfaA, isNfaB, sizedA, sizedB, builds,
    split, next⟩

/-- A command that builds takes an expression for each automaton that it takes. -/
theorem Turn.built (turn : i.Turn command i') (owned : i.Owned)
    (built : i.Built commands expressions) (plain : command.determinizes = false) :
    ∃ expressions', i'.Built (commands ++ [command]) expressions' := by
  have spelled := built.spelled
  cases turn with
  | keep keeps =>
      refine ⟨expressions, ?_, built.builds, built.next_eq⟩
      rw [List.filter_append, spelled]
      simp [Command.builds_eq_false_of_keepsStack keeps]
  | determinize | complement => cases plain
  | @literal l A counter ran =>
      obtain ⟨advanced, start, stop, sized⟩ := Nfa.sized_literal ran
      have next := built.next_eq
      refine ⟨.literal l :: expressions, .cons sized built.builds ?_ ?_⟩
      · rw [filter_builds_concat rfl, ← spelled]
        rfl
      · rw [Expression.states_literal]
        omega
  | @star top rest C counter found ran =>
      obtain ⟨A, _, _, e, below, rfl, sizedA, builds, rfl, next⟩ := built.of_top found
      obtain ⟨advanced, start, stop, sized⟩ :=
        Nfa.sized_star (owned.sound_top found).toNfa sizedA ran
      rw [← e.states_star, ← e.transitions_star] at sized
      refine ⟨e.star :: below, .cons sized builds ?_ ?_⟩
      · rw [filter_builds_concat rfl, ← spelled]
        simp [Expression.spelling]
      · rw [e.states_star]
        omega
  | @union second first rest C counter found ran =>
      obtain ⟨A, B, _, _, _, _, e, f, below, rfl, rfl, sizedA, sizedB, builds, rfl, next⟩ :=
        built.of_pair found
      obtain ⟨soundA, soundB⟩ := owned.sound_pair found
      obtain ⟨advanced, start, stop, sized⟩ :=
        Nfa.sized_union soundA.toNfa soundB.toNfa (owned.apart_pair found) sizedA sizedB ran
      rw [← e.states_union, ← e.transitions_union] at sized
      refine ⟨e.union f :: below, .cons sized builds ?_ ?_⟩
      · rw [filter_builds_concat rfl, ← spelled]
        simp [Expression.spelling]
      · rw [e.states_union]
        omega
  | @concat second first rest C counter found ran =>
      obtain ⟨A, B, _, _, _, _, e, f, below, rfl, rfl, sizedA, sizedB, builds, rfl, next⟩ :=
        built.of_pair found
      obtain ⟨soundA, soundB⟩ := owned.sound_pair found
      obtain ⟨advanced, start, stop, sized⟩ :=
        Nfa.sized_concat soundA.toNfa soundB.toNfa (owned.apart_pair found) sizedA sizedB ran
      rw [← e.states_concat, ← e.transitions_concat] at sized
      refine ⟨e.concat f :: below, .cons sized builds ?_ ?_⟩
      · rw [filter_builds_concat rfl, ← spelled]
        simp [Expression.spelling]
      · rw [e.states_concat]
        omega

/-! Sizes. -/

/-- The commands that build are read as expressions in just one way, and the automata of the
interpreter are as large as the words of their expressions say. Each has two states for a literal, a
union and a star, and one way out, which is not the way in; it has one transition for a literal and
a concatenation and four for a union and a star, and no more than two that leave one state. The
counter has drawn no further states. -/
def SizedBy (i : Interpreter) (commands : List Command) : Prop :=
  ∃ expressions,
    (∀ stack, spellings stack = commands.filter Command.builds ↔ stack = expressions) ∧
    List.Forall₂ (fun M e => ∃ A start stop, M = .nfa A ∧
      A.size = 2 * (e.literals + e.unions + e.stars) ∧
      A.start = some start ∧ A.finals = {stop} ∧ stop ≠ start ∧
      A.statistics.transitions = .ok (e.literals + e.concats + 4 * (e.unions + e.stars)) ∧
      A.edgeList.length = e.literals + e.concats + 4 * (e.unions + e.stars) ∧
      ∀ s, A.outDegree s ≤ 2) i.stack expressions ∧
    i.counter.next = (i.stack.map Machine.size).sum

theorem Built.sizedBy (built : i.Built commands expressions) (owned : i.Owned) :
    i.SizedBy commands := by
  have read : ∀ stack, spellings stack = commands.filter Command.builds ↔ stack = expressions := by
    intro stack
    rw [← built.spelled]
    exact Expression.spellings_injective.eq_iff
  refine ⟨expressions, read, ?_, built.next_eq⟩
  have together := (List.forall₂_and_left _ _).mpr
    ⟨fun M (member : M ∈ i.stack) => owned.sound member, built.builds⟩
  refine together.imp ?_
  rintro _ e ⟨sound, A, start, stop, rfl, sized⟩
  exact ⟨A, start, stop, rfl, sized.size, sized.start_eq, sized.finals_eq, sized.different.symm,
    sized.transitions_eq sound.toNfa.valid, sized.length, sized.outDegree_le⟩

/-! Runs. -/

variable {sink : Sink} {words : List String}

theorem built_execute {word : String} {outcome : Outcome Flow} {flow : Flow} (owned : i.Owned)
    (built : i.Built commands expressions)
    (plain : (Command.read word.toList).1.determinizes = false)
    (ran : i.execute sink word = .ok outcome) (succeeds : outcome.result = .ok flow) :
    outcome.interpreter.Owned ∧ ∃ expressions',
      outcome.interpreter.Built (commands ++ [(Command.read word.toList).1]) expressions' :=
  have turn := turn_of_execute ran succeeds
  ⟨turn.owned owned, turn.built owned built plain⟩

theorem sizedBy_executeEach {outcomes : List (Outcome Flow)} (owned : i.Owned)
    (built : i.Built commands expressions)
    (plain : ∀ word ∈ words, (Command.read word.toList).1.determinizes = false)
    (ran : i.executeEach sink words = .ok outcomes)
    (succeed : ∀ outcome ∈ outcomes, ∃ flow, outcome.result = .ok flow) :
    (i.settled outcomes).SizedBy
      (commands ++ words.map fun word => (Command.read word.toList).1) := by
  induction words generalizing i sink outcomes commands expressions with
  | nil =>
      cases ran
      rw [List.map_nil, List.append_nil]
      exact built.sizedBy owned
  | cons word rest ih =>
      obtain ⟨outcome, executed, remaining⟩ := bind_eq_ok_iff.mp ran
      obtain ⟨later, continued, done⟩ := bind_eq_ok_iff.mp remaining
      cases done
      obtain ⟨⟨flow, succeeds⟩, succeed⟩ := List.forall_mem_cons.mp succeed
      obtain ⟨first, plain⟩ := List.forall_mem_cons.mp plain
      obtain ⟨owned, _, built⟩ := built_execute owned built first executed succeeds
      rw [settled_cons, List.map_cons, List.append_cons]
      exact ih owned built plain continued succeed

theorem sizedBy_executeAll {outcome : Outcome Flow} {flow : Flow} (owned : i.Owned)
    (built : i.Built commands expressions)
    (plain : ∀ word ∈ words, (Command.read word.toList).1.determinizes = false)
    (ran : i.executeAll sink words = .ok outcome) (succeeds : outcome.result = .ok flow) :
    outcome.interpreter.SizedBy
      (commands ++ (words.map fun word => (Command.read word.toList).1).takeWhile (· ≠ .done)) := by
  induction words generalizing i sink commands expressions with
  | nil =>
      cases ran
      rw [List.map_nil, List.takeWhile_nil, List.append_nil]
      exact built.sizedBy owned
  | cons word rest ih =>
      rw [executeAll_cons] at ran
      obtain ⟨next, executed, ran⟩ := bind_eq_ok_iff.mp ran
      obtain ⟨first, plain⟩ := List.forall_mem_cons.mp plain
      rw [List.map_cons]
      by_cases proceeds : next.result = .ok .proceed
      · rw [Outcome.andThen_of_proceeds proceeds] at ran
        have goesOn : (Command.read word.toList).1 ≠ .done := fun ends =>
          nomatch (flow_of_execute executed proceeds).mpr ends
        obtain ⟨owned, _, built⟩ := built_execute owned built first executed proceeds
        rw [List.takeWhile_cons_of_pos (by simpa using goesOn), List.append_cons]
        exact ih owned built plain ran
      · rw [Outcome.andThen_of_stops proceeds] at ran
        cases ran
        have ends : (Command.read word.toList).1 = .done := by
          apply (flow_of_execute executed succeeds).mp
          cases flow with
          | done => rfl
          | proceed => exact absurd succeeds proceeds
        have turn := turn_of_execute executed succeeds
        rw [ends] at turn
        rw [turn.eq_of_keepsStack rfl, List.takeWhile_cons_of_neg (by simp [ends]),
          List.append_nil]
        exact built.sizedBy owned

/-- The sizes of the automata on the stack can be read off the words. After words that succeed and
determinize nothing, executed one by one or up to the one that ends the run, each automaton is of
the size of its own expression, and the expressions are those that the words spell. -/
theorem words_size_stack {ids : AllocatorId}
    (plain : ∀ word ∈ words, (Command.read word.toList).1.determinizes = false) :
    (∀ outcomes, executeEach { ids } sink words = .ok outcomes →
      (∀ outcome ∈ outcomes, ∃ flow, outcome.result = .ok flow) →
        (settled { ids } outcomes).SizedBy
          (words.map fun word => (Command.read word.toList).1)) ∧
    ∀ outcome flow, executeAll { ids } sink words = .ok outcome → outcome.result = .ok flow →
      outcome.interpreter.SizedBy
        ((words.map fun word => (Command.read word.toList).1).takeWhile (· ≠ .done)) :=
  have owned : Owned { ids } := ⟨nofun, nofun, .nil⟩
  ⟨fun _ ran succeed => sizedBy_executeEach owned (built_new ids) plain ran succeed,
    fun _ _ ran succeeds => sizedBy_executeAll owned (built_new ids) plain ran succeeds⟩

/-- A star over a union, concatenated with the empty string, and a literal above it. -/
theorem words_size_stack_star :
    ∃ outcomes outcome,
      executeEach {} {} ["a", "b", "|", "*", "STAT", "E", ".", "SIZE", "c"] = .ok outcomes ∧
      (settled {} outcomes).SizedBy [.literal (.symbol 'a'), .literal (.symbol 'b'), .union, .star,
        .statistics, .literal .epsilon, .concat, .size, .literal (.symbol 'c')] ∧
      executeAll {} {} ["a", "b", "|", "*", "DONE", "|"] = .ok outcome ∧
      outcome.interpreter.SizedBy
        [.literal (.symbol 'a'), .literal (.symbol 'b'), .union, .star] := by
  have computed : List.map Outcome.result <$>
      executeEach {} {} ["a", "b", "|", "*", "STAT", "E", ".", "SIZE", "c"] =
        .ok (List.replicate 9 (.ok .proceed)) := by cbv
  obtain ⟨outcomes, ran, results⟩ := map_eq_ok_iff.mp computed
  have ends : Outcome.result <$> executeAll {} {} ["a", "b", "|", "*", "DONE", "|"] =
      .ok (.ok .done) := by cbv
  obtain ⟨outcome, ran', done⟩ := map_eq_ok_iff.mp ends
  have succeed : ∀ outcome ∈ outcomes, ∃ flow, outcome.result = .ok flow := by
    intro outcome member
    have listed := List.mem_map_of_mem (f := Outcome.result) member
    rw [results] at listed
    exact ⟨.proceed, List.eq_of_mem_replicate listed⟩
  exact ⟨outcomes, outcome, ran, (words_size_stack (by decide)).1 outcomes ran succeed, ran',
    (words_size_stack (by decide)).2 outcome .done ran' done⟩

end Interpreter

end PostfixAutomata
