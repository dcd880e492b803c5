import PostfixAutomata.Proofs.Interpreter.Slim

set_option autoImplicit false

/-!
What words mean without automata. An automaton stands for its alphabet and its language; a stack of
such pairs is enough to say what each word does, and the interpreter does just that. Whatever it
builds in between, an answer is an answer about the language.
-/

namespace PostfixAutomata

open scoped Computability

/-- An alphabet and a language over it. -/
@[ext] structure Meaning where
  alphabet : Set Char
  language : Language Char

namespace Meaning

/-- The stack after a command, the topmost pair first. A command that wants for operands changes
nothing. -/
def step : List Meaning → Command → List Meaning
  | stack, .literal (.symbol c) => ⟨{c}, {[c]}⟩ :: stack
  | stack, .literal .epsilon => ⟨∅, {[]}⟩ :: stack
  | M :: rest, .star => ⟨M.alphabet, M.language∗⟩ :: rest
  | upper :: lower :: rest, .union =>
    ⟨lower.alphabet ∪ upper.alphabet, lower.language + upper.language⟩ :: rest
  | upper :: lower :: rest, .concat =>
    ⟨lower.alphabet ∪ upper.alphabet, lower.language * upper.language⟩ :: rest
  | M :: rest, .complement =>
    ⟨M.alphabet, {input | (∀ c ∈ input, c ∈ M.alphabet) ∧ input ∉ M.language}⟩ :: rest
  | stack, _ => stack

/-- The stack after some words. -/
def evaluate (stack : List Meaning) (words : List String) : List Meaning :=
  words.foldl (fun stack word => step stack (Command.read word.toList).1) stack

theorem evaluate_concat (stack : List Meaning) (words : List String) (word : String) :
    evaluate stack (words ++ [word]) =
      step (evaluate stack words) (Command.read word.toList).1 := by
  rw [evaluate, List.foldl_append]
  rfl

/-- What a question about the topmost pair writes: a verdict for a test, and for a listing every
input of the language within the bound, once, shortest first and by code point within a length. -/
def Answers (M : Meaning) (written : ByteArray) : Command → Prop
  | .test input =>
    (input ∈ M.language → written = ("Accept " ++ String.ofList input ++ "\n").toByteArray) ∧
      (input ∉ M.language → written = ("Reject " ++ String.ofList input ++ "\n").toByteArray)
  | .generate bound => ∃ inputs : List (List Char),
    (∀ input, input ∈ inputs ↔ input ∈ M.language ∧ input.length ≤ bound) ∧
      inputs.Pairwise Precedes ∧
      written = (String.join (inputs.map fun input => "\"" ++ String.ofList input ++ "\" ")
        ++ "\n").toByteArray
  | _ => True

/-- Only a question about one pair has an answer to get wrong. -/
theorem answers_of_question {M : Meaning} {written : ByteArray} {command : Command}
    (answers : command.keepsStack = true → command.operands = 1 → M.Answers written command) :
    M.Answers written command := by
  cases command with
  | test input => exact answers rfl rfl
  | generate bound => exact answers rfl rfl
  | _ => trivial

theorem step_of_keepsStack {command : Command} (keeps : command.keepsStack = true)
    (stack : List Meaning) : step stack command = stack := by
  cases command with
  | done => cases stack <;> rfl
  | size => cases stack <;> rfl
  | print => cases stack <;> rfl
  | statistics => cases stack <;> rfl
  | generate bound => cases stack <;> rfl
  | test input => cases stack <;> rfl
  | unknown => cases stack <;> rfl
  | determinize => cases keeps
  | complement => cases keeps
  | literal l => cases keeps
  | star => cases keeps
  | union => cases keeps
  | concat => cases keeps

/-- Too few operands leave the stack alone. -/
theorem step_of_short {command : Command} {stack : List Meaning}
    (short : stack.length < command.operands) : step stack command = stack := by
  match stack with
  | [] =>
      cases command with
      | literal l => cases short
      | _ => rfl
  | [M] =>
      cases command with
      | union => rfl
      | concat => rfl
      | literal l => cases short
      | done => rfl
      | unknown => rfl
      | _ => exact absurd short (Nat.lt_irrefl 1)
  | M :: N :: rest =>
      exfalso
      have few : command.operands ≤ 2 := by cases command <;> simp [Command.operands]
      simp only [List.length_cons] at short
      omega

end Meaning

/-- What an automaton stands for. -/
def Machine.meaning (M : Machine) : Meaning := ⟨{c | c ∈ M.alphabet}, M.language⟩

namespace Interpreter

variable {i i' : Interpreter} {word : String} {command : Command} {effect : Effect}

/-- Every command does to the stack what it does to the pairs that the stack stands for. -/
theorem Turn.meaning (turn : i.Turn command i') (owned : i.Owned) :
    i'.stack.map Machine.meaning = Meaning.step (i.stack.map Machine.meaning) command := by
  cases turn with
  | keep keeps => exact (Meaning.step_of_keepsStack keeps _).symm
  | @literal l A counter ran =>
      have alphabet := @Nfa.mem_alphabet_literal _ _ _ _ _ ran
      have language := Nfa.language_literal ran
      cases l with
      | epsilon =>
          refine congrArg (· :: i.stack.map Machine.meaning) (Meaning.ext ?_ language)
          exact Set.eq_empty_of_forall_notMem fun c symbol => nomatch alphabet.mp symbol
      | symbol c =>
          refine congrArg (· :: i.stack.map Machine.meaning) (Meaning.ext ?_ language)
          apply Set.ext
          intro d
          change d ∈ A.alphabet ↔ d = c
          rw [alphabet]
          exact ⟨fun same => (Option.some.inj same).symm, fun same => congrArg some same.symm⟩
  | determinize found ran =>
      rw [found]
      refine congrArg (· :: _) (Meaning.ext ?_ (Machine.language_toDfa (owned.sound_top found) ran))
      change {c | c ∈ Automaton.alphabet _} = _
      rw [Machine.alphabet_toDfa ran]
      rfl
  | complement found ran =>
      rw [found]
      refine congrArg (· :: _) (Meaning.ext ?_ ?_)
      · change {c | c ∈ Automaton.alphabet _} = _
        rw [Machine.alphabet_complement ran]
        rfl
      · exact Set.ext fun input => Machine.mem_language_complement (owned.sound_top found) ran
  | star found ran =>
      have sound := owned.sound_top found
      rw [found]
      refine congrArg (· :: _) (Meaning.ext ?_ (Machine.language_star sound ran))
      exact Set.ext fun c => Machine.mem_alphabet_star sound ran
  | union found ran =>
      obtain ⟨soundFirst, soundSecond⟩ := owned.sound_pair found
      have apart := owned.apart_pair found
      rw [found]
      refine congrArg (· :: _) (Meaning.ext ?_ ?_)
      · exact Set.ext fun c => Machine.mem_alphabet_union soundFirst soundSecond ran
      · exact Machine.language_union soundFirst soundSecond apart ran
  | concat found ran =>
      obtain ⟨soundFirst, soundSecond⟩ := owned.sound_pair found
      have apart := owned.apart_pair found
      rw [found]
      refine congrArg (· :: _) (Meaning.ext ?_ ?_)
      · exact Set.ext fun c => Machine.mem_alphabet_concat soundFirst soundSecond ran
      · exact Machine.language_concat soundFirst soundSecond apart ran

end Interpreter

end PostfixAutomata
