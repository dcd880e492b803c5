import PostfixAutomata.Proofs.Dfa.Words
import PostfixAutomata.Proofs.Machine.Drawn

set_option autoImplicit false

/-!
Languages of automata of either kind. Conversions keep the language and the alphabet; the questions
that go through a deterministic form are questions about the language.
-/

namespace PostfixAutomata

open scoped Computability

namespace Machine

/-- The inputs that the automaton accepts. -/
def language : Machine → Language Char
  | nfa A => A.language
  | dfa D => D.language

variable {M : Machine} {c c' : Counter}

/-! Conversions. -/

theorem language_toNfa (M : Machine) : M.toNfa.language = M.language := by
  cases M with
  | nfa A => rfl
  | dfa D => exact Set.ext fun input => Dfa.accepts_toNfa_iff

theorem mem_alphabet_toNfa (sound : M.Sound c) {d : Char} :
    d ∈ M.toNfa.alphabet ↔ d ∈ M.alphabet := by
  cases M with
  | nfa A => rfl
  | dfa D => exact Dfa.mem_alphabet_toNfa sound.valid

theorem language_toDfa (sound : M.Sound c) {D : Dfa} (ran : M.toDfa.run c = .ok (D, c')) :
    D.language = M.language := by
  cases M with
  | nfa A => exact Set.ext fun input => Nfa.accepts_determinize_iff sound.valid ran
  | dfa E =>
      obtain ⟨rfl, _⟩ := Alloc.run_pure_eq_ok_iff.mp ran
      rfl

theorem alphabet_toDfa {D : Dfa} (ran : M.toDfa.run c = .ok (D, c')) :
    D.alphabet = M.alphabet := by
  cases M with
  | nfa A => exact Nfa.alphabet_determinize ran
  | dfa E =>
      obtain ⟨rfl, _⟩ := Alloc.run_pure_eq_ok_iff.mp ran
      rfl

/-! Complements. -/

theorem mem_language_complement (sound : M.Sound c) {E : Dfa}
    (ran : M.complement.run c = .ok (E, c')) {input : List Char} :
    input ∈ E.language ↔ (∀ d ∈ input, d ∈ M.alphabet) ∧ input ∉ M.language := by
  obtain ⟨D, between, first, second⟩ := Alloc.run_bind_eq_ok_iff.mp ran
  rw [Dfa.mem_language_iff, Dfa.accepts_complement_iff (drawn_toDfa sound first).sound second,
    alphabet_toDfa first, ← Bool.not_eq_true, ← Dfa.mem_language_iff, language_toDfa sound first]

theorem alphabet_complement {E : Dfa} (ran : M.complement.run c = .ok (E, c')) :
    E.alphabet = M.alphabet := by
  obtain ⟨D, between, first, second⟩ := Alloc.run_bind_eq_ok_iff.mp ran
  exact (Dfa.alphabet_complement second).trans (alphabet_toDfa first)

/-! Operators on nondeterministic forms. -/

section Operators

variable {N : Machine} {A : Nfa} {d : Char}

theorem mem_alphabet_star (sound : M.Sound c) (ran : M.toNfa.star.run c = .ok (A, c')) :
    d ∈ A.alphabet ↔ d ∈ M.alphabet :=
  (Nfa.mem_alphabet_star ran).trans (mem_alphabet_toNfa sound)

theorem language_star (sound : M.Sound c) (ran : M.toNfa.star.run c = .ok (A, c')) :
    A.language = M.language∗ := by
  rw [Nfa.language_star sound.toNfa ran, language_toNfa]

theorem mem_alphabet_union (soundM : M.Sound c) (soundN : N.Sound c)
    (ran : (M.toNfa.union N.toNfa).run c = .ok (A, c')) :
    d ∈ A.alphabet ↔ d ∈ M.alphabet ∨ d ∈ N.alphabet := by
  rw [Nfa.mem_alphabet_union soundN.toNfa.valid ran, mem_alphabet_toNfa soundM,
    mem_alphabet_toNfa soundN]

theorem language_union (soundM : M.Sound c) (soundN : N.Sound c)
    (apart : ∀ s ∈ M.toNfa.states, s ∉ N.toNfa.states)
    (ran : (M.toNfa.union N.toNfa).run c = .ok (A, c')) :
    A.language = M.language + N.language := by
  rw [Nfa.language_union soundM.toNfa soundN.toNfa apart ran, language_toNfa, language_toNfa]

theorem mem_alphabet_concat (soundM : M.Sound c) (soundN : N.Sound c)
    (ran : (M.toNfa.concat N.toNfa).run c = .ok (A, c')) :
    d ∈ A.alphabet ↔ d ∈ M.alphabet ∨ d ∈ N.alphabet := by
  rw [Nfa.mem_alphabet_concat soundN.toNfa.valid ran, mem_alphabet_toNfa soundM,
    mem_alphabet_toNfa soundN]

theorem language_concat (soundM : M.Sound c) (soundN : N.Sound c)
    (apart : ∀ s ∈ M.toNfa.states, s ∉ N.toNfa.states)
    (ran : (M.toNfa.concat N.toNfa).run c = .ok (A, c')) :
    A.language = M.language * N.language := by
  rw [Nfa.language_concat soundM.toNfa soundN.toNfa apart ran, language_toNfa, language_toNfa]

end Operators

/-! Questions. -/

theorem scratchDfa_eq_ok (sound : M.Sound c) {D : Dfa} (ran : M.scratchDfa = .ok D) :
    D.WellFormed ∧ D.language = M.language := by
  cases M with
  | nfa A =>
      obtain ⟨k, determinized⟩ := Alloc.runPrivately_eq_ok_iff.mp ran
      exact ⟨Nfa.wellFormed_determinize determinized,
        Set.ext fun input => Nfa.accepts_determinize_iff sound.valid determinized⟩
  | dfa E =>
      cases ran
      exact ⟨sound.valid, rfl⟩

theorem accepts_eq_ok (sound : M.Sound c) {input : List Char} {accepted : Bool}
    (ran : M.accepts input = .ok accepted) : accepted = true ↔ input ∈ M.language := by
  obtain ⟨D, scratch, done⟩ := bind_eq_ok_iff.mp ran
  cases done
  rw [← (scratchDfa_eq_ok sound scratch).2, Dfa.mem_language_iff]

theorem words_eq_ok (sound : M.Sound c) {bound : Nat} {inputs : List (List Char)}
    (ran : M.words bound = .ok inputs) :
    (∀ input, input ∈ inputs ↔ input ∈ M.language ∧ input.length ≤ bound) ∧
      inputs.Pairwise Precedes := by
  obtain ⟨D, scratch, done⟩ := bind_eq_ok_iff.mp ran
  cases done
  obtain ⟨valid, same⟩ := scratchDfa_eq_ok sound scratch
  rw [← same]
  exact ⟨fun input => Dfa.mem_words_iff valid, Dfa.words_pairwise valid bound⟩

end Machine

end PostfixAutomata
