import PostfixAutomata.Proofs.Interpreter.Grammar
import PostfixAutomata.Proofs.State

set_option autoImplicit false

/-!
What the reading of words promises of commands. Symbols are lowercase letters, so alphabets made of
them are small, and a word with an illegal reading is a literal or an operator.
-/

namespace PostfixAutomata

namespace Command

/-- A literal that is a word of its own is read as itself, and there is nothing to remark. -/
theorem read_literal {c : Char} (literal : isLiteral c = true) :
    read [c] = (literalOf c, false) := by
  have long : ∀ {text : String}, text.toList.length ≠ 1 → (String.singleton c == text) = false := by
    intro text other
    rw [beq_eq_false_iff_ne]
    rintro rfl
    exact other (by simp)
  have keyword : keyword? [c] = none := by
    simp [keyword?, List.lookup_cons, long]
  have listing : listing? [c] = none := by
    simp [listing?]
  have quoted : quoted? [c] = none := by
    simp [quoted?, quotedFrom?]
  have lenient : lenient? [c] = some (literalOf c) := by
    simp [lenient?, literal]
  simp [read, keyword, listing, quoted, lenient]

/-- Whether a command leaves the stack as it is. -/
def keepsStack : Command → Bool
  | .done | .size | .print | .statistics | .generate _ | .test _ | .unknown => true
  | .determinize | .complement | .literal _ | .star | .union | .concat => false

theorem ne_literal_of_keyword {word : List Char} {command : Command}
    (found : keyword? word = some command) (l : Label) : command ≠ .literal l := by
  intro literal
  obtain ⟨before, after, split, _⟩ := List.lookup_eq_some_iff.mp found
  have member : (String.ofList word, command) ∈ before ++ (String.ofList word, command) :: after :=
    List.mem_append_right before List.mem_cons_self
  rw [← split, literal] at member
  simp at member

theorem isLowercase_of_lenient {word : List Char} {c : Char}
    (found : lenient? word = some (.literal (.symbol c))) : isLowercase c = true := by
  cases lenient?_eq_some_iff.mp found with
  | symbol _ letter => exact isLowercase_iff.mpr letter

/-- The symbol of a literal is a lowercase letter. -/
theorem isLowercase_of_read {word : List Char} {c : Char}
    (found : (read word).1 = .literal (.symbol c)) : isLowercase c = true := by
  unfold read at found
  split at found
  · rename_i command keyword
    exact absurd found (ne_literal_of_keyword keyword _)
  · split at found
    · cases found
    · split at found
      · cases found
      · split at found
        · rename_i command lenient
          dsimp only at found
          rw [found] at lenient
          exact isLowercase_of_lenient lenient
        · cases found

theorem keepsStack_of_lenient {word : List Char} {command : Command}
    (found : lenient? word = some command) : command.keepsStack = false := by
  cases lenient?_eq_some_iff.mp found with
  | symbol | epsilon | star | union | concat => rfl

/-- Commands that leave the stack alone are never read leniently. -/
theorem legal_of_keepsStack {word : List Char} (keeps : (read word).1.keepsStack = true) :
    (read word).2 = false := by
  unfold read at keeps ⊢
  split
  · rfl
  · split
    · rfl
    · split
      · rfl
      · split
        · rename_i lenient
          simp only [*, keepsStack_of_lenient lenient] at keeps
          cases keeps
        · rfl

end Command

/-- There are only 26 lowercase letters. -/
theorem Alphabet.size_le_of_lowercase {alphabet : Alphabet}
    (lowercase : ∀ c ∈ alphabet, Command.isLowercase c = true) : alphabet.size ≤ 26 := by
  apply Alphabet.size_le_of_range 97
  intro c symbol
  have range := lowercase c symbol
  simp only [Command.isLowercase, Bool.and_eq_true, decide_eq_true_eq, Char.le_def] at range
  have low := UInt32.le_iff_toNat_le.mp range.1
  have high := UInt32.le_iff_toNat_le.mp range.2
  exact ⟨low, Nat.lt_succ_of_le high⟩

end PostfixAutomata
