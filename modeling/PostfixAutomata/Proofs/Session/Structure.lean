import PostfixAutomata.Proofs.Nfa.Structure
import PostfixAutomata.Proofs.Session.Operators

set_option autoImplicit false

/-!
What operators do to the automata of a session: a frame around their operands. Whatever shape the
operands have, their states keep their transitions, and all that is added is named.
-/

namespace PostfixAutomata

namespace Session

variable {S : Session} {m : Slot} {A : Nfa}

/-- Concatenations, unions and stars keep the states and transitions of their operands. A
concatenation adds no states; unions and stars add the next two of the counter, and fail only if it
has no two left. -/
theorem operators_keep_operands (reachable : S.Reachable)
    (held : S.automata[m]? = some (.nfa A)) :
    (∀ {n : Slot} {B : Nfa}, S.automata[n]? = some (.nfa B) → A.ids = B.ids →
      (∀ s ∈ A.states, s ∉ B.states) →
      (∃ C S', S.step (.concat m n) = .ok (.ok (.report (Nfa.report C), S')) ∧
        S'.automata[m]? = some (.nfa C) ∧ C.Chains A B) ∧
      ((S.counter A.ids).next + 2 ≤ UInt32.size →
        ∃ C S' start stop, S.step (.union m n) = .ok (.ok (.report (Nfa.report C), S')) ∧
          S'.automata[m]? = some (.nfa C) ∧ start.id = (S.counter A.ids).next ∧
          stop.id = (S.counter A.ids).next + 1 ∧ C.Joins A B start stop) ∧
      (UInt32.size < (S.counter A.ids).next + 2 →
        S.step (.union m n) = .error .identifiersExhausted)) ∧
    ((S.counter A.ids).next + 2 ≤ UInt32.size →
      ∃ C S' start stop, S.step (.star m) = .ok (.ok (.report (Nfa.report C), S')) ∧
        S'.automata[m]? = some (.nfa C) ∧ start.id = (S.counter A.ids).next ∧
        stop.id = (S.counter A.ids).next + 1 ∧ C.Repeats A start stop) ∧
    (UInt32.size < (S.counter A.ids).next + 2 →
      S.step (.star m) = .error .identifiersExhausted) := by
  have soundA := reachable.sound_nfa held
  refine ⟨fun {n B} second shared apart => ⟨?_, ?_, ?_⟩, ?_, ?_⟩
  · obtain ⟨S', stepped, kept⟩ := step_concat_of_held held second shared
    have validB := (reachable.sound_nfa second).valid
    exact ⟨A.append B, S', stepped, kept, Nfa.chains_append soundA.valid validB apart⟩
  · intro room
    have soundB : B.Sound (S.counter A.ids) := shared ▸ reachable.sound_nfa second
    obtain ⟨C, c, ran⟩ := Nfa.union_of_room shared room
    obtain ⟨S', stepped, kept⟩ := build_of_ok (S := S.release n) (m := m) ran
    obtain ⟨start, stop, first, last, joins⟩ := Nfa.joins_union soundA soundB apart ran
    rw [step_union_of_held held second]
    exact ⟨C, S', start, stop, stepped, kept, first, last, joins⟩
  · intro spent
    rw [step_union_of_held held second]
    exact build_of_error (S := S.release n) (Nfa.union_of_spent spent)
  · intro room
    obtain ⟨C, c, ran⟩ := Nfa.star_of_room room
    obtain ⟨S', stepped, kept⟩ := build_of_ok (m := m) ran
    obtain ⟨start, stop, first, last, repeats⟩ := Nfa.repeats_star soundA ran
    rw [step_star_of_held held]
    exact ⟨C, S', start, stop, stepped, kept, first, last, repeats⟩
  · intro spent
    rw [step_star_of_held held]
    exact build_of_error (Nfa.star_of_spent spent)

/-- The operands are two automata on circles; the start of the first is one of its final states. -/
theorem operators_keep_operands_circles :
    ∃ (S S₁ S₂ S₃ : Session) (A B C₁ C₂ C₃ : Nfa) (start stop : State), S.Reachable ∧
      S.automata["a"]? = some (.nfa A) ∧ S.automata["b"]? = some (.nfa B) ∧ A.ids = B.ids ∧
      (∀ s ∈ A.states, s ∉ B.states) ∧
      (S.step (.concat "a" "b") = .ok (.ok (.report (Nfa.report C₁), S₁)) ∧
        S₁.automata["a"]? = some (.nfa C₁) ∧ C₁.Chains A B) ∧
      (S.step (.union "a" "b") = .ok (.ok (.report (Nfa.report C₂), S₂)) ∧
        S₂.automata["a"]? = some (.nfa C₂) ∧ C₂.Joins A B start stop) ∧
      S.step (.star "a") = .ok (.ok (.report (Nfa.report C₃), S₃)) ∧
        S₃.automata["a"]? = some (.nfa C₃) ∧ C₃.Repeats A start stop := by
  obtain ⟨S, A, B, reachable, first, second, shared, apart, room⟩ := circles_held
  obtain ⟨binary, starred, _⟩ := operators_keep_operands reachable first
  obtain ⟨⟨C₁, S₁, chained⟩, joined, _⟩ := binary second shared apart
  obtain ⟨C₂, S₂, start, stop, stepped, kept, low, high, joins⟩ := joined room
  obtain ⟨C₃, S₃, start', stop', stepped', kept', low', high', repeats⟩ := starred room
  -- Both operations draw from the same counter, so they draw the same states.
  obtain rfl : start' = start := State.ext (low'.trans low.symm)
  obtain rfl : stop' = stop := State.ext (high'.trans high.symm)
  exact ⟨S, S₁, S₂, S₃, A, B, C₁, C₂, C₃, start', stop', reachable, first, second, shared, apart,
    chained, ⟨stepped, kept, joins⟩, stepped', kept', repeats⟩

end Session

end PostfixAutomata
