import PostfixAutomata.Proofs.Automaton.Report
import PostfixAutomata.Proofs.Nfa.Sizes
import PostfixAutomata.Proofs.Session.Language

set_option autoImplicit false

/-!
The statistics of the automata of a session. They count what the automaton is made of and what its
report lists, and only an automaton that may go on to many states under one label can be too large
for them.
-/

namespace PostfixAutomata

namespace Nfa

/-- The destinations of all entries are the transitions. -/
theorem sum_entries (A : Nfa) :
    (A.entries.map fun entry => entry.2.2.size).sum =
      {edge : State × Label × State | edge.2.2 ∈ A.targets edge.1 edge.2.1}.ncard := by
  have whole : {edge : State × Label × State | edge.2.2 ∈ A.targets edge.1 edge.2.1}.ncard =
      A.edgeList.length :=
    ncard_eq_length A.nodup_edgeList fun edge => mem_edgeList.symm
  rw [whole, A.edgeList_eq, List.length_flatMap]
  simp only [List.length_map, Std.ExtTreeSet.length_toList]

theorem rightAbout {A : Nfa} (valid : A.WellFormed) :
    A.statistics.RightAbout A.states fun p l q => q ∈ A.targets p l :=
  Automaton.rightAbout valid Row.nodup_edges (fun _ _ _ => mem_edges_row.symm)
    fun _ _ _ => mem_edgeList.symm

end Nfa

namespace Dfa

theorem length_edgeList (D : Dfa) :
    D.edgeList.length =
      {edge : State × Char × State | D.target? edge.1 edge.2.1 = some edge.2.2}.ncard :=
  (ncard_eq_length (Automaton.nodup_edgeList D Row.nodup_edges) fun _ =>
    mem_edgeList.symm).symm

theorem rightAbout {D : Dfa} (valid : D.WellFormed) :
    D.statistics.RightAbout D.states fun p c q => D.target? p c = some q :=
  Automaton.rightAbout valid Row.nodup_edges (fun _ _ _ => mem_edges_row.symm)
    fun _ _ _ => mem_edgeList.symm

/-- There are at most 2³² states and fewer than 2²¹ symbols, and under each symbol a state goes to
one state. -/
theorem length_edgeList_lt {D : Dfa} (valid : D.WellFormed) :
    D.edgeList.length < UInt64.size := by
  rw [Automaton.length_edgeList valid]
  have small : ∀ p ∈ D.states, D.outDegree p ≤ 0x110000 := fun p _ =>
    (outDegree_le valid p).trans D.alphabet.size_le
  exact (Automaton.sum_outDegree_le small).trans_lt (by decide)

end Dfa

namespace Session

variable {S : Session} {m : Slot}

/-- Statistics are answered when their total is computed. -/
theorem step_statistics {M : Machine} (held : S.automata[m]? = some M) {total : Nat}
    (computed : M.statistics.transitions = .ok total) :
    ∃ text, M.statistics.text = .ok text ∧
      S.step (.statistics m) = .ok (.ok (.statistics M.statistics total text, S)) := by
  obtain ⟨text, printed⟩ := Statistics.text_of_transitions computed
  refine ⟨text, printed, ?_⟩
  simp only [step, withMachine, held, computed, printed]
  rfl

/-- The statistics of an automaton are right about its states and transitions, and their total is
the number of destinations that its report lists. It is answered as long as it fits into 64 bits,
and that of a deterministic automaton always does. -/
theorem statistics_agree (reachable : S.Reachable) :
    (∀ {m : Slot} {A : Nfa}, S.automata[m]? = some (.nfa A) →
      A.statistics.RightAbout A.states (fun p l q => q ∈ A.targets p l) ∧
      ∃ entries : List (State × Label × StateSet), A.Lists Nfa.entryText A.report entries ∧
        (entries.map fun entry => entry.2.2.size).sum =
          {edge : State × Label × State | edge.2.2 ∈ A.targets edge.1 edge.2.1}.ncard ∧
        ((entries.map fun entry => entry.2.2.size).sum < UInt64.size →
          ∃ text, A.statistics.text = .ok text ∧ S.step (.statistics m) =
            .ok (.ok (.statistics A.statistics
              (entries.map fun entry => entry.2.2.size).sum text, S)))) ∧
    ∀ {m : Slot} {D : Dfa}, S.automata[m]? = some (.dfa D) →
      D.statistics.RightAbout D.states (fun p c q => D.target? p c = some q) ∧
      ∃ entries : List (State × Char × State), D.Lists Dfa.entryText D.report entries ∧
        entries.length =
          {edge : State × Char × State | D.target? edge.1 edge.2.1 = some edge.2.2}.ncard ∧
        entries.length < UInt64.size ∧
        ∃ text, D.statistics.text = .ok text ∧ S.step (.statistics m) =
          .ok (.ok (.statistics D.statistics entries.length text, S)) := by
  constructor
  · intro m A held
    have right := Nfa.rightAbout (reachable.sound_nfa held).valid
    refine ⟨right, A.entries, A.lists_entries, A.sum_entries, fun fits => ?_⟩
    exact step_statistics held ((right.total_iff _).mpr ⟨A.sum_entries, fits⟩)
  · intro m D held
    have valid := (reachable.sound_dfa held).valid
    have right := Dfa.rightAbout valid
    have fits := Dfa.length_edgeList_lt valid
    refine ⟨right, D.edgeList, D.lists_edgeList, D.length_edgeList, fits, ?_⟩
    exact step_statistics held ((right.total_iff _).mpr ⟨D.length_edgeList, fits⟩)

/-- An automaton that goes on to two states under one label, and its deterministic form. -/
def branching : List Op :=
  [.loadNfa "a" (.record [("start", .natural 0), ("finals", .list [.natural 1]),
    ("transitions", .record [("0", .record [("x", .list [.natural 0, .natural 1])]),
      ("1", .record [("", .list [.natural 0])])])]), .toDfa "a" "d"]

theorem statistics_agree_branching :
    ∃ (S : Session) (A : Nfa) (D : Dfa) (text text' : String), S.Reachable ∧
      S.automata["a"]? = some (.nfa A) ∧ S.automata["d"]? = some (.dfa D) ∧
      {edge : State × Label × State | edge.2.2 ∈ A.targets edge.1 edge.2.1}.ncard = 3 ∧
      {edge : State × Char × State | D.target? edge.1 edge.2.1 = some edge.2.2}.ncard = 2 ∧
      S.step (.statistics "a") = .ok (.ok (.statistics A.statistics 3 text, S)) ∧
      S.step (.statistics "d") = .ok (.ok (.statistics D.statistics 2 text', S)) := by
  have computed : ((after {} branching).bind fun S => (S.nfa? "a").bind fun A =>
      (S.dfa? "d").bind fun D =>
        if A.statistics.transitions = .ok 3 ∧ D.statistics.transitions = .ok 2 then
          some (S, A, D) else none).isSome = true := by cbv
  obtain ⟨⟨S, A, D⟩, chained⟩ := Option.isSome_iff_exists.mp computed
  obtain ⟨S, ran, chained⟩ := Option.bind_eq_some_iff.mp chained
  obtain ⟨A, heldA, chained⟩ := Option.bind_eq_some_iff.mp chained
  obtain ⟨D, heldD, chained⟩ := Option.bind_eq_some_iff.mp chained
  obtain ⟨⟨three, two⟩, same⟩ := Option.ite_none_right_eq_some.mp chained
  cases same
  have heldA := nfa?_eq_some_iff.mp heldA
  have heldD := dfa?_eq_some_iff.mp heldD
  have reachable := Reachable.new.after ran
  obtain ⟨nfas, dfas⟩ := statistics_agree reachable
  obtain ⟨rightA, _, _, sum, answers⟩ := nfas heldA
  obtain ⟨rightD, _, _, length, _, text', _, answered⟩ := dfas heldD
  obtain ⟨edges, _⟩ := (rightA.total_iff 3).mp three
  obtain ⟨edges', _⟩ := (rightD.total_iff 2).mp two
  rw [← edges] at sum
  rw [← edges'] at length
  rw [sum] at answers
  rw [length] at answered
  obtain ⟨text, _, answer⟩ := answers (by decide)
  exact ⟨S, A, D, text, text', reachable, heldA, heldD, edges.symm, edges'.symm, answer, answered⟩

end Session

end PostfixAutomata
