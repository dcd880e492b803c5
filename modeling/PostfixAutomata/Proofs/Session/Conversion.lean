import PostfixAutomata.Proofs.Dfa.Reached
import PostfixAutomata.Proofs.Session.Language

set_option autoImplicit false

/-!
Deterministic automata there and back. Read as a nondeterministic automaton, an automaton of a
session stays what it is; determinized again, it loses the states that its start does not lead to
and nothing else.
-/

namespace PostfixAutomata

namespace Session

variable {S : Session} {m : Slot}

/-- Conversion keeps every part of an automaton, and determinization after it copies the part that
the start leads to. What was determinized from some counter comes out the same, number for number,
if it is determinized again from where the counter was; so from one new counter and another. -/
theorem conversion_drops_unreached (reachable : S.Reachable) {D : Dfa}
    (held : S.automata[m]? = some (.dfa D)) :
    (D.toNfa.start = D.start ∧ D.toNfa.states = D.states ∧ D.toNfa.finals = D.finals ∧
      D.toNfa.alphabet = D.alphabet ∧
      (∀ p l q, (p, l, q) ∈ D.toNfa.edgeList ↔ ∃ c, l = .symbol c ∧ (p, c, q) ∈ D.edgeList) ∧
      ∀ input : List Char, D.toNfa.Accepts input ↔ D.accepts input = true) ∧
    (∀ {target : AllocatorId} {k k' : Counter} {E : Dfa},
      (D.toNfa.determinize target).run k = .ok (E, k') → ∃ f, D.IsReachedPart f E) ∧
    ∀ {T : Session} {n : Slot} {A : Nfa}, T.Reachable → T.automata[n]? = some (.nfa A) →
      ∀ {target : AllocatorId} {k l : Counter}, (A.determinize target).run k = .ok (D, l) →
        ∀ target' : AllocatorId,
          (D.toNfa.determinize target').run k = .ok ({ D with ids := target' }, l) := by
  have valid := (reachable.sound_dfa held).valid
  refine ⟨⟨rfl, Dfa.states_toNfa valid, rfl, Dfa.alphabet_toNfa valid, ?_, ?_⟩,
    fun ran => Dfa.exists_isReachedPart valid ran, ?_⟩
  · intro p l q
    exact Dfa.mem_edgeList_toNfa
  · intro input
    exact Dfa.accepts_toNfa_iff
  · intro T n A reachableA heldA target k l ran target'
    exact Dfa.determinize_toNfa_of_determinize (reachableA.sound_nfa heldA).valid ran target'

/-- Determinization on a counter that an allocator names. -/
theorem step_determinize_of_ok {A : Nfa} {D : Dfa} {slot : Slot} (into : Slot)
    {ids : AllocatorId} {l : Counter} (held : S.automata[m]? = some (.nfa A))
    (named : S.allocators[slot]? = some ids)
    (ran : (A.determinize ids).run (S.counter ids) = .ok (D, l)) :
    S.step (.determinize m slot into) =
      give (.report D.report) ((S.setCounter ids l).store into (.dfa D)) := by
  have mapped : (Machine.dfa <$> A.determinize ids).run (S.counter ids) = .ok (.dfa D, l) :=
    Alloc.run_map_eq_ok_iff.mpr ⟨D, ran, rfl⟩
  change S.withNfa m _ = _
  rw [withNfa_of_held held, withAllocator, named]
  change S.build into ids (Machine.dfa <$> A.determinize ids) = _
  rw [build, alloc, mapped]
  rfl

/-- A loaded automaton with a state that nothing leads to. -/
def island : Data :=
  .record [("start", .natural 1), ("finals", .list [.natural 0, .natural 2]),
    ("transitions", .record [("1", .record [("a", .natural 2)]),
      ("0", .record [("b", .natural 1)])])]

/-- A loaded automaton that guesses when the last symbol begins. -/
def last : Data :=
  .record [("start", .natural 0), ("finals", .list [.natural 1]),
    ("transitions", .record [("0", .record [("a", .list [.natural 0, .natural 1])])])]

/-- The island is lost. What was determinized on a new counter comes back on another one. -/
theorem conversion_drops_unreached_island :
    (∃ (S : Session) (D E : Dfa) (k : Counter), S.Reachable ∧ S.automata["m"]? = some (.dfa D) ∧
      D.size = 3 ∧ (D.toNfa.determinize ⟨7⟩).run {} = .ok (E, k) ∧ E.size = 2 ∧
      ∃ f, D.IsReachedPart f E) ∧
    ∃ (T S : Session) (A : Nfa) (D : Dfa) (l : Counter), T.Reachable ∧
      T.automata["n"]? = some (.nfa A) ∧ (A.determinize ⟨1⟩).run {} = .ok (D, l) ∧ D.size = 2 ∧
      S.Reachable ∧ S.automata["d"]? = some (.dfa D) ∧
      (D.toNfa.determinize ⟨7⟩).run {} = .ok ({ D with ids := ⟨7⟩ }, l) := by
  constructor
  · have computed : ((Dfa.ofData ⟨0⟩ island).toOption.bind fun D =>
        ((D.toNfa.determinize ⟨7⟩).run {}).toOption.bind fun (E, k) =>
          if D.size = 3 ∧ E.size = 2 then some (D, E, k) else none).isSome = true := by cbv
    obtain ⟨⟨D, E, k⟩, chained⟩ := Option.isSome_iff_exists.mp computed
    obtain ⟨D, loaded, chained⟩ := Option.bind_eq_some_iff.mp chained
    obtain ⟨⟨E, k⟩, ran, chained⟩ := Option.bind_eq_some_iff.mp chained
    obtain ⟨⟨before, after⟩, same⟩ := Option.ite_none_right_eq_some.mp chained
    cases same
    have ran := toOption_eq_some_iff.mp ran
    obtain ⟨S, reachable, held, _⟩ := reachable_loadDfa "m" (toOption_eq_some_iff.mp loaded)
    exact ⟨S, D, E, k, reachable, held, before, ran, after,
      (conversion_drops_unreached reachable held).2.1 ran⟩
  · have computed : ((({} : Session).after [.loadNfa "n" last, .newAllocator "ids"]).bind fun T =>
        (T.nfa? "n").bind fun A => ((A.determinize ⟨1⟩).run {}).toOption.bind fun (D, l) =>
          if T.allocators["ids"]? = some ⟨1⟩ ∧ T.counter ⟨1⟩ = {} ∧ D.size = 2 then
            some (T, A, D, l) else none).isSome = true := by cbv
    obtain ⟨⟨T, A, D, l⟩, chained⟩ := Option.isSome_iff_exists.mp computed
    obtain ⟨T, began, chained⟩ := Option.bind_eq_some_iff.mp chained
    obtain ⟨A, heldA, chained⟩ := Option.bind_eq_some_iff.mp chained
    obtain ⟨⟨D, l⟩, ran, chained⟩ := Option.bind_eq_some_iff.mp chained
    obtain ⟨⟨named, new, size⟩, same⟩ := Option.ite_none_right_eq_some.mp chained
    cases same
    have ran := toOption_eq_some_iff.mp ran
    have heldA := nfa?_eq_some_iff.mp heldA
    have reachableT : T.Reachable := Reachable.new.after began
    have stepped := step_determinize_of_ok "d" heldA named (by rw [new]; exact ran)
    have held : ((T.setCounter ⟨1⟩ l).store "d" (.dfa D)).automata["d"]? = some (.dfa D) :=
      Std.ExtTreeMap.getElem?_insert_self
    exact ⟨T, _, A, D, l, reachableT, heldA, ran, size, reachableT.step stepped, held,
      (conversion_drops_unreached (reachableT.step stepped) held).2.2 reachableT heldA ran ⟨7⟩⟩

end Session

end PostfixAutomata
