import Mathlib
import PostfixAutomata.Proofs.Nfa.Language
import PostfixAutomata.Proofs.Session.Language

set_option autoImplicit false

/-!
Languages of the automata that operators put together. The operands may be of any shape, as long as
they draw from one counter and have no states in common.
-/

namespace PostfixAutomata

namespace Session

variable {S : Session} {m n : Slot} {A B : Nfa}

/-- Automata of one counter can be concatenated; no states are drawn for it. -/
theorem step_concat (first : S.automata[m]? = some (.nfa A))
    (second : S.automata[n]? = some (.nfa B)) (shared : A.ids = B.ids) :
    S.step (.concat m n) = .ok (.ok (.report (A.append B).report,
      (S.release n).store m (.nfa (A.append B)))) := by
  have built : (Machine.nfa <$> A.concat B).run ((S.release n).counter A.ids) =
      .ok (.nfa (A.append B), S.counter A.ids) :=
    Alloc.run_map_eq_ok_iff.mpr ⟨_, Nfa.concat_eq_append shared _, rfl⟩
  have same : (S.release n).setCounter A.ids (S.counter A.ids) = S.release n :=
    setCounter_counter (S.release n) A.ids
  rw [step, withNfa_of_held first, withNfa_of_held second, build, alloc, built]
  exact congrArg (fun T : Session => T.keep m (.nfa (A.append B))) same

theorem step_concat_of_held (first : S.automata[m]? = some (.nfa A))
    (second : S.automata[n]? = some (.nfa B)) (shared : A.ids = B.ids) :
    ∃ S', S.step (.concat m n) = .ok (.ok (.report (A.append B).report, S')) ∧
      S'.automata[m]? = some (.nfa (A.append B)) :=
  ⟨_, step_concat first second shared, Std.ExtTreeMap.getElem?_insert_self⟩

/-- A concatenation accepts what its operands accept one after the other. -/
theorem concat_accepts_iff (reachable : S.Reachable) (first : S.automata[m]? = some (.nfa A))
    (second : S.automata[n]? = some (.nfa B)) (shared : A.ids = B.ids)
    (apart : ∀ s ∈ A.states, s ∉ B.states) :
    ∃ C S', S.step (.concat m n) = .ok (.ok (.report (Nfa.report C), S')) ∧
      S'.automata[m]? = some (.nfa C) ∧
      (∀ input : List Char, C.Accepts input ↔
        ∃ before after, input = before ++ after ∧ A.Accepts before ∧ B.Accepts after) ∧
      ∀ c : Char, c ∈ C.alphabet ↔ c ∈ A.alphabet ∨ c ∈ B.alphabet := by
  have validA := (reachable.sound_nfa first).valid
  have validB := (reachable.sound_nfa second).valid
  obtain ⟨S', stepped, held⟩ := step_concat_of_held first second shared
  refine ⟨A.append B, S', stepped, held, fun input => ?_, fun c => ?_⟩
  · have language := Nfa.language_append validA validB apart
    have member : (A.append B).Accepts input ↔ input ∈ A.language * B.language := by
      rw [← language]
      exact Iff.rfl
    rw [member, Language.mem_mul]
    constructor
    · rintro ⟨before, front, after, back, rfl⟩
      exact ⟨before, after, rfl, front, back⟩
    · rintro ⟨before, after, rfl, front, back⟩
      exact ⟨before, front, after, back, rfl⟩
  · exact Nfa.mem_alphabet_append validB

/-- Two automata on circles. The first one is determinized, so its start is among several final
states, and it reads on from there. -/
def circles : List Op :=
  [.newAllocator "i", .literal "a" "i" "x", .star "a", .toDfa "a" "a", .toNfa "a" "a",
    .literal "b" "i" "y", .star "b"]

theorem concat_accepts_iff_circles :
    ∃ (S S' : Session) (A B C : Nfa), S.Reachable ∧ S.automata["a"]? = some (.nfa A) ∧
      S.automata["b"]? = some (.nfa B) ∧
      S.step (.concat "a" "b") = .ok (.ok (.report (Nfa.report C), S')) ∧
      S'.automata["a"]? = some (.nfa C) ∧
      (∀ input : List Char, C.Accepts input ↔
        ∃ before after, input = before ++ after ∧ A.Accepts before ∧ B.Accepts after) ∧
      ∀ c : Char, c ∈ C.alphabet ↔ c ∈ A.alphabet ∨ c ∈ B.alphabet := by
  have computed : ((after {} circles).bind fun S => (S.nfa? "a").bind fun A =>
      (S.nfa? "b").bind fun B =>
        if A.ids = B.ids ∧ ∀ s ∈ A.states.toList, s ∉ B.states then some (S, A, B)
        else none).isSome = true := by cbv
  obtain ⟨⟨S, A, B⟩, chained⟩ := Option.isSome_iff_exists.mp computed
  obtain ⟨S, ran, chained⟩ := Option.bind_eq_some_iff.mp chained
  obtain ⟨A, first, chained⟩ := Option.bind_eq_some_iff.mp chained
  obtain ⟨B, second, chained⟩ := Option.bind_eq_some_iff.mp chained
  obtain ⟨⟨shared, apart⟩, same⟩ := Option.ite_none_right_eq_some.mp chained
  cases same
  have reachable := Reachable.new.after ran
  have first := nfa?_eq_some_iff.mp first
  have second := nfa?_eq_some_iff.mp second
  obtain ⟨C, S', stepped, held, accepts, alphabet⟩ := concat_accepts_iff reachable first second
    shared fun s inside => apart s (Std.ExtTreeSet.mem_toList.mpr inside)
  exact ⟨S, S', A, B, C, reachable, first, second, stepped, held, accepts, alphabet⟩

/-- What the two automata on circles have in common: a counter with room for a union, no states. -/
theorem circles_held :
    ∃ (S : Session) (A B : Nfa), S.Reachable ∧ S.automata["a"]? = some (.nfa A) ∧
      S.automata["b"]? = some (.nfa B) ∧ A.ids = B.ids ∧ (∀ s ∈ A.states, s ∉ B.states) ∧
      (S.counter A.ids).next + 2 ≤ UInt32.size := by
  have computed : ((after {} circles).bind fun S => (S.nfa? "a").bind fun A =>
      (S.nfa? "b").bind fun B =>
        if A.ids = B.ids ∧ (∀ s ∈ A.states.toList, s ∉ B.states) ∧
          (S.counter A.ids).next + 2 ≤ UInt32.size then some (S, A, B)
        else none).isSome = true := by cbv
  obtain ⟨⟨S, A, B⟩, chained⟩ := Option.isSome_iff_exists.mp computed
  obtain ⟨S, ran, chained⟩ := Option.bind_eq_some_iff.mp chained
  obtain ⟨A, first, chained⟩ := Option.bind_eq_some_iff.mp chained
  obtain ⟨B, second, chained⟩ := Option.bind_eq_some_iff.mp chained
  obtain ⟨⟨shared, apart, room⟩, same⟩ := Option.ite_none_right_eq_some.mp chained
  cases same
  exact ⟨S, A, B, Reachable.new.after ran, nfa?_eq_some_iff.mp first,
    nfa?_eq_some_iff.mp second, shared,
    fun s inside => apart s (Std.ExtTreeSet.mem_toList.mpr inside), room⟩

/-! Unions. -/

theorem step_union_of_held (first : S.automata[m]? = some (.nfa A))
    (second : S.automata[n]? = some (.nfa B)) :
    S.step (.union m n) = (S.release n).build m A.ids (.nfa <$> A.union B) := by
  rw [step, withNfa_of_held first, withNfa_of_held second]

/-- A union accepts what either operand accepts, and has one final state. It fails only for want of
the two identifiers that it draws. -/
theorem union_accepts_iff (reachable : S.Reachable) (first : S.automata[m]? = some (.nfa A))
    (second : S.automata[n]? = some (.nfa B)) (shared : A.ids = B.ids)
    (apart : ∀ s ∈ A.states, s ∉ B.states) :
    (UInt32.size < (S.counter A.ids).next + 2 →
      S.step (.union m n) = .error .identifiersExhausted) ∧
    ((S.counter A.ids).next + 2 ≤ UInt32.size →
      ∃ C S', S.step (.union m n) = .ok (.ok (.report (Nfa.report C), S')) ∧
        S'.automata[m]? = some (.nfa C) ∧
        (∀ input : List Char, C.Accepts input ↔ A.Accepts input ∨ B.Accepts input) ∧
        (∀ c : Char, c ∈ C.alphabet ↔ c ∈ A.alphabet ∨ c ∈ B.alphabet) ∧
        ∃ stop, C.finals = {stop}) := by
  have soundA := reachable.sound_nfa first
  have soundB : B.Sound (S.counter A.ids) := shared ▸ reachable.sound_nfa second
  rw [step_union_of_held first second]
  constructor
  · intro spent
    exact build_of_error (S := S.release n) (Nfa.union_of_spent spent)
  · intro room
    obtain ⟨C, c, ran⟩ := Nfa.union_of_room shared room
    obtain ⟨S', stepped, held⟩ := build_of_ok (S := S.release n) ran
    have language := Nfa.language_union soundA soundB apart ran
    refine ⟨C, S', stepped, held, fun input => ?_, fun c => ?_, Nfa.finals_union ran⟩
    · change input ∈ C.language ↔ input ∈ A.language ∨ input ∈ B.language
      rw [language, Language.mem_add]
    · exact Nfa.mem_alphabet_union soundB.valid ran

theorem union_accepts_iff_circles :
    ∃ (S S' : Session) (A B C : Nfa), S.Reachable ∧ S.automata["a"]? = some (.nfa A) ∧
      S.automata["b"]? = some (.nfa B) ∧ A.ids = B.ids ∧ (∀ s ∈ A.states, s ∉ B.states) ∧
      S.step (.union "a" "b") = .ok (.ok (.report (Nfa.report C), S')) ∧
      S'.automata["a"]? = some (.nfa C) ∧
      (∀ input : List Char, C.Accepts input ↔ A.Accepts input ∨ B.Accepts input) ∧
      (∀ c : Char, c ∈ C.alphabet ↔ c ∈ A.alphabet ∨ c ∈ B.alphabet) ∧
      ∃ stop, C.finals = {stop} := by
  obtain ⟨S, A, B, reachable, first, second, shared, apart, room⟩ := circles_held
  obtain ⟨C, S', result⟩ := (union_accepts_iff reachable first second shared apart).2 room
  exact ⟨S, S', A, B, C, reachable, first, second, shared, apart, result⟩

/-! Stars. -/

theorem step_star_of_held (held : S.automata[m]? = some (.nfa A)) :
    S.step (.star m) = S.build m A.ids (.nfa <$> A.star) := by
  rw [step, withNfa_of_held held]

/-- A star accepts what is made of inputs that its operand accepts, none of them included. It fails
only for want of the two identifiers that it draws. -/
theorem star_accepts_iff (reachable : S.Reachable) (held : S.automata[m]? = some (.nfa A)) :
    (UInt32.size < (S.counter A.ids).next + 2 →
      S.step (.star m) = .error .identifiersExhausted) ∧
    ((S.counter A.ids).next + 2 ≤ UInt32.size →
      ∃ C S', S.step (.star m) = .ok (.ok (.report (Nfa.report C), S')) ∧
        S'.automata[m]? = some (.nfa C) ∧
        (∀ input : List Char, C.Accepts input ↔
          ∃ parts : List (List Char), input = parts.flatten ∧ ∀ part ∈ parts, A.Accepts part) ∧
        C.alphabet = A.alphabet) := by
  rw [step_star_of_held held]
  constructor
  · intro spent
    exact build_of_error (Nfa.star_of_spent spent)
  · intro room
    obtain ⟨C, c, ran⟩ := Nfa.star_of_room room
    obtain ⟨S', stepped, kept⟩ := build_of_ok ran
    have language := Nfa.language_star (reachable.sound_nfa held) ran
    refine ⟨C, S', stepped, kept, fun input => ?_, ?_⟩
    · change input ∈ C.language ↔ _
      rw [language]
      exact Language.mem_kstar
    · apply Std.ExtTreeSet.ext_mem
      intro c
      exact Nfa.mem_alphabet_star ran

/-- The star of an automaton that reads on from its final states, the start among them. -/
theorem star_accepts_iff_circles :
    ∃ (S S' : Session) (A C : Nfa), S.Reachable ∧ S.automata["a"]? = some (.nfa A) ∧
      S.step (.star "a") = .ok (.ok (.report (Nfa.report C), S')) ∧
      S'.automata["a"]? = some (.nfa C) ∧
      (∀ input : List Char, C.Accepts input ↔
        ∃ parts : List (List Char), input = parts.flatten ∧ ∀ part ∈ parts, A.Accepts part) ∧
      C.alphabet = A.alphabet := by
  obtain ⟨S, A, _, reachable, held, _, _, _, room⟩ := circles_held
  obtain ⟨C, S', result⟩ := (star_accepts_iff reachable held).2 room
  exact ⟨S, S', A, C, reachable, held, result⟩

end Session

end PostfixAutomata
