import Mathlib
import PostfixAutomata.Proofs.Session.Step

set_option autoImplicit false

/-!
Fresh states. The result of an operation that draws states consists of the states that the operation
takes over and of those that one counter issued for it. The counter is above every state of every
automaton that draws from it, under whatever name, so what it issues is new to all of them.
-/

namespace PostfixAutomata

namespace Session

namespace Op

/-- Whether an operation draws states for its result. -/
def draws : Op → Bool
  | .literal _ _ _ | .toDfa _ _ | .determinize _ _ _ | .complement _ _ | .newState _
  | .becomeLiteral _ _ | .star _ | .union _ _ => true
  | _ => false

/-- The number of states that an operation draws, unless that depends on its operand. -/
def drawn? : Op → Option Nat
  | .complement _ _ | .newState _ => some 1
  | .literal _ _ _ | .becomeLiteral _ _ | .star _ | .union _ _ => some 2
  | _ => none

end Op

variable {S S' : Session} {op : Op} {m into : Slot} {ids : AllocatorId} {M R : Machine}
  {answer : Answer}

/-- The states that an operation takes over from its operands. -/
def Takes (S : Session) (op : Op) (s : State) : Prop :=
  ∃ m ∈ op.takes, ∃ K : Machine, S.automata[m]? = some K ∧ s ∈ K.states

/-- The states that a counter issued between two sessions. -/
def Issued (S S' : Session) (ids : AllocatorId) (s : State) : Prop :=
  (S.counter ids).next ≤ s.id ∧ s.id < (S'.counter ids).next

/-- What an operation that draws states keeps. -/
structure Introduces (S : Session) (op : Op) (S' : Session) (into : Slot) (R : Machine) : Prop where
  held : S'.automata[into]? = some R
  states : ∀ s, s ∈ R.states ↔ S.Takes op s ∨ S.Issued S' R.ids s
  number : ∀ n, op.drawn? = some n → (S'.counter R.ids).next = (S.counter R.ids).next + n

/-- An issued state belongs to no automaton of its counter. -/
theorem Sound.not_mem_of_issued (sound : S.Sound) (held : S.automata[m]? = some M) {s : State}
    (issued : S.Issued S' M.ids s) : s ∉ M.states := by
  intro member
  have below := (sound.machines held).below member
  have above := issued.1
  omega

theorem not_takes (nothing : op.takes = []) (s : State) : ¬S.Takes op s := by
  rintro ⟨m, taken, _⟩
  rw [nothing] at taken
  cases taken

theorem takes_one (one : op.takes = [m]) (held : S.automata[m]? = some M) {s : State} :
    S.Takes op s ↔ s ∈ M.states := by
  simp [Takes, one, held]

theorem takes_two {other : Slot} {N : Machine} (two : op.takes = [m, other])
    (first : S.automata[m]? = some M) (second : S.automata[other]? = some N) {s : State} :
    S.Takes op s ↔ s ∈ M.states ∨ s ∈ N.states := by
  simp [Takes, two, first, second]

theorem counter_setCounter_store (known : S.Knows ids) (own : R.ids = ids) (c : Counter) :
    ((S.setCounter ids c).store into R).counter R.ids = c := by
  rw [own]
  exact counter_setCounter_self known c

theorem Introduces.ofStore (known : S.Knows ids) (own : R.ids = ids) {c : Counter}
    (states : ∀ s, s ∈ R.states ↔ S.Takes op s ∨ (S.counter ids).next ≤ s.id ∧ s.id < c.next)
    (number : ∀ n, op.drawn? = some n → c.next = (S.counter ids).next + n) :
    S.Introduces op (((S.freed op).setCounter ids c).store into R) into R := by
  have counter : (((S.freed op).setCounter ids c).store into R).counter R.ids = c :=
    counter_setCounter_store (S := S.freed op) known own c
  refine ⟨Std.ExtTreeMap.getElem?_insert_self, ?_, ?_⟩
  · intro s
    rw [states, Issued, counter, own]
  · rw [counter, own]
    exact number

theorem Introduces.ofOne (known : S.Knows ids) (own : R.ids = ids) (one : op.drawn? = some 1)
    {t : State} {c : Counter} (issued : t.id = (S.counter ids).next)
    (advanced : c.next = (S.counter ids).next + 1)
    (states : ∀ s, s ∈ R.states ↔ s = t ∨ S.Takes op s) :
    S.Introduces op (((S.freed op).setCounter ids c).store into R) into R := by
  refine .ofStore known own ?_ ?_
  · intro s
    rw [states, State.ext_iff, or_comm]
    apply or_congr_right
    omega
  · intro n number
    cases one.symm.trans number
    exact advanced

theorem Introduces.ofTwo (known : S.Knows ids) (own : R.ids = ids) (two : op.drawn? = some 2)
    {start stop : State} {c : Counter} (first : start.id = (S.counter ids).next)
    (second : stop.id = (S.counter ids).next + 1) (advanced : c.next = (S.counter ids).next + 2)
    (states : ∀ s, s ∈ R.states ↔ s = start ∨ s = stop ∨ S.Takes op s) :
    S.Introduces op (((S.freed op).setCounter ids c).store into R) into R := by
  refine .ofStore known own ?_ ?_
  · intro s
    rw [states, State.ext_iff, State.ext_iff, ← or_assoc, or_comm]
    apply or_congr_right
    omega
  · intro n number
    cases two.symm.trans number
    exact advanced

/-- A literal of two fresh states takes over nothing. -/
theorem Introduces.ofLiteral (known : S.Knows ids) (nothing : op.takes = [])
    (two : op.drawn? = some 2) {l : Label} {A : Nfa} {c : Counter}
    (built : (Nfa.literal ids l).run (S.counter ids) = .ok (A, c)) :
    S.Introduces op (((S.freed op).setCounter ids c).store into (.nfa A)) into (.nfa A) := by
  obtain ⟨start, stop, first, second, advanced, rfl⟩ := Nfa.literal_eq_ok built
  refine .ofTwo known rfl two first second advanced ?_
  intro s
  rw [or_iff_left (not_takes nothing s)]
  exact Nfa.mem_states_literalWith

/-- The states of a determinized automaton are all fresh, whatever counter they come from. -/
theorem Introduces.ofDeterminize (known : S.Knows ids) (nothing : op.takes = [])
    (unfixed : op.drawn? = none) {A : Nfa} {D : Dfa} {c : Counter}
    (built : (A.determinize ids).run (S.counter ids) = .ok (D, c)) :
    S.Introduces op (((S.freed op).setCounter ids c).store into (.dfa D)) into (.dfa D) := by
  have own : (Machine.dfa D).ids = ids := Nfa.ids_determinize built
  refine .ofStore known own ?_ ?_
  · intro s
    rw [or_iff_right (not_takes nothing s)]
    exact Nfa.mem_states_determinize_iff built
  · intro n number
    cases unfixed.symm.trans number

theorem issued_of_eq (known : S.Knows ids) (own : R.ids = ids) {s : State} {c : Counter}
    (identifier : s.id = (S.counter ids).next) (advanced : c.next = (S.counter ids).next + 1) :
    S.Issued ((S.setCounter ids c).store into R) R.ids s := by
  rw [Issued, counter_setCounter_store known own, own]
  omega

theorem Introduces.ofNewState {ρ Λ : Type} [TransitionRow ρ Λ] {A B : Automaton ρ} {s : State}
    {c : Counter} (known : S.Knows A.ids) (wrap : Automaton ρ → Machine)
    (ids : ∀ C, (wrap C).ids = C.ids) (states : ∀ C, (wrap C).states = C.states)
    (held : S.automata[m]? = some (wrap A))
    (ran : A.newState.run (S.counter A.ids) = .ok ((s, B), c)) :
    S.Introduces (.newState m) ((S.setCounter A.ids c).store m (wrap B)) m (wrap B) := by
  obtain ⟨identifier, advanced, rfl⟩ := Automaton.newState_eq_ok ran
  have one : (Op.newState m).drawn? = some 1 := rfl
  refine Introduces.ofOne (S := S) known (ids (A.insertState s)) one identifier advanced ?_
  intro t
  rw [takes_one rfl held, states, states, Automaton.mem_states_insertState, eq_comm]

theorem step_introduces (sound : S.Sound) (draws : op.draws = true)
    (ran : S.step op = .ok (.ok (answer, S'))) :
    ∃ into R, op.result? = some into ∧ S.Introduces op S' into R := by
  have valid : ∀ {slot : Slot} {A : Nfa}, S.automata[slot]? = some (.nfa A) →
      S.Knows A.ids ∧ A.WellFormed :=
    fun held => ⟨sound.known held, Automaton.Sound.valid (sound.machines held)⟩
  cases op with
  | literal m slot label =>
      obtain ⟨l, _, ran⟩ := withLabel_eq_ok ran
      obtain ⟨ids, found, ran⟩ := withAllocator_eq_ok ran
      obtain ⟨R, c, computed, rfl⟩ := build_eq_ok ran
      obtain ⟨A, built, rfl⟩ := Alloc.run_map_eq_ok_iff.mp computed
      exact ⟨m, _, rfl, .ofLiteral (sound.allocators found) rfl rfl built⟩
  | becomeLiteral m label =>
      obtain ⟨l, _, ran⟩ := withLabel_eq_ok ran
      obtain ⟨A, found, ran⟩ := withNfa_eq_ok ran
      obtain ⟨R, c, computed, rfl⟩ := build_eq_ok ran
      obtain ⟨B, built, rfl⟩ := Alloc.run_map_eq_ok_iff.mp computed
      exact ⟨m, _, rfl, .ofLiteral (valid found).1 rfl rfl built⟩
  | toDfa m into =>
      obtain ⟨A, found, ran⟩ := withNfa_eq_ok ran
      obtain ⟨R, c, computed, rfl⟩ := build_eq_ok ran
      obtain ⟨D, built, rfl⟩ := Alloc.run_map_eq_ok_iff.mp computed
      exact ⟨into, _, rfl, .ofDeterminize (valid found).1 rfl rfl built⟩
  | determinize m slot into =>
      obtain ⟨A, _, ran⟩ := withNfa_eq_ok ran
      obtain ⟨ids, found, ran⟩ := withAllocator_eq_ok ran
      obtain ⟨R, c, computed, rfl⟩ := build_eq_ok ran
      obtain ⟨D, built, rfl⟩ := Alloc.run_map_eq_ok_iff.mp computed
      exact ⟨into, _, rfl, .ofDeterminize (sound.allocators found) rfl rfl built⟩
  | complement m into =>
      obtain ⟨D, found, ran⟩ := withDfa_eq_ok ran
      obtain ⟨R, c, computed, rfl⟩ := build_eq_ok ran
      obtain ⟨E, built, rfl⟩ := Alloc.run_map_eq_ok_iff.mp computed
      obtain ⟨sink, identifier, advanced, rfl⟩ := Dfa.complement_eq_ok built
      have own : (Machine.dfa (D.complementWith sink)).ids = D.ids := Dfa.ids_complementWith
      refine ⟨into, _, rfl, .ofOne (sound.known found) own rfl identifier advanced ?_⟩
      intro s
      rw [takes_one rfl found]
      exact Dfa.mem_states_complementWith
  | newState m =>
      obtain ⟨M, found, ran⟩ := withMachine_eq_ok ran
      cases M with
      | nfa A =>
          obtain ⟨⟨⟨s, B⟩, S₁⟩, allocated, ran⟩ := bind_eq_ok_iff.mp ran
          obtain ⟨c, computed, rfl⟩ := alloc_eq_ok allocated
          cases ran
          exact ⟨m, _, rfl, .ofNewState (sound.known found) .nfa (fun _ => rfl) (fun _ => rfl)
            found computed⟩
      | dfa D =>
          obtain ⟨⟨⟨s, E⟩, S₁⟩, allocated, ran⟩ := bind_eq_ok_iff.mp ran
          obtain ⟨c, computed, rfl⟩ := alloc_eq_ok allocated
          cases ran
          exact ⟨m, _, rfl, .ofNewState (sound.known found) .dfa (fun _ => rfl) (fun _ => rfl)
            found computed⟩
  | star m =>
      obtain ⟨A, found, ran⟩ := withNfa_eq_ok ran
      obtain ⟨R, c, computed, rfl⟩ := build_eq_ok ran
      obtain ⟨B, built, rfl⟩ := Alloc.run_map_eq_ok_iff.mp computed
      obtain ⟨start, stop, first, second, advanced, rfl⟩ := Nfa.star_eq_ok built
      have own : (Machine.nfa (A.starWith start stop)).ids = A.ids := Nfa.ids_starWith
      refine ⟨m, _, rfl, .ofTwo (valid found).1 own rfl first second advanced ?_⟩
      intro s
      rw [takes_one rfl found]
      exact Nfa.mem_states_starWith (valid found).2
  | union m other =>
      obtain ⟨A, foundA, ran⟩ := withNfa_eq_ok ran
      obtain ⟨B, foundB, ran⟩ := withNfa_eq_ok ran
      obtain ⟨R, c, computed, rfl⟩ := build_eq_ok ran
      obtain ⟨C, built, rfl⟩ := Alloc.run_map_eq_ok_iff.mp computed
      obtain ⟨_, start, stop, first, second, advanced, rfl⟩ := Nfa.union_eq_ok built
      have own : (Machine.nfa (A.unionWith B start stop)).ids = A.ids := Nfa.ids_unionWith
      refine ⟨m, _, rfl, Introduces.ofTwo (S := S) (valid foundA).1 own rfl first second advanced ?_⟩
      intro s
      rw [takes_two rfl foundA foundB]
      exact Nfa.mem_states_unionWith (valid foundA).2 (valid foundB).2
  | _ => cases draws

/-- Asking for a new state answers with the state that is issued. -/
theorem newState_answers (sound : S.Sound)
    (ran : S.step (.newState m) = .ok (.ok (answer, S'))) :
    ∃ s text R, answer = .newState s text ∧ S'.automata[m]? = some R ∧ S.Issued S' R.ids s := by
  obtain ⟨M, found, ran⟩ := withMachine_eq_ok ran
  cases M with
  | nfa A =>
      obtain ⟨⟨⟨s, B⟩, S₁⟩, allocated, ran⟩ := bind_eq_ok_iff.mp ran
      obtain ⟨c, computed, rfl⟩ := alloc_eq_ok allocated
      cases ran
      obtain ⟨identifier, advanced, rfl⟩ := Automaton.newState_eq_ok computed
      have known : S.Knows A.ids := sound.known found
      exact ⟨s, _, .nfa (A.insertState s), rfl, Std.ExtTreeMap.getElem?_insert_self,
        issued_of_eq known rfl identifier advanced⟩
  | dfa D =>
      obtain ⟨⟨⟨s, E⟩, S₁⟩, allocated, ran⟩ := bind_eq_ok_iff.mp ran
      obtain ⟨c, computed, rfl⟩ := alloc_eq_ok allocated
      cases ran
      obtain ⟨identifier, advanced, rfl⟩ := Automaton.newState_eq_ok computed
      have known : S.Knows D.ids := sound.known found
      exact ⟨s, _, .dfa (D.insertState s), rfl, Std.ExtTreeMap.getElem?_insert_self,
        issued_of_eq known rfl identifier advanced⟩

/-- The states of every automaton are below its counter. So whatever an operation introduces besides
the states of its operands belongs to no automaton that draws from the same counter. -/
theorem issued_states_are_fresh (reachable : S.Reachable) :
    (∀ {slot : Slot} {M : Machine}, S.automata[slot]? = some M →
      ∀ s ∈ M.states, s.id < (S.counter M.ids).next) ∧
    (∀ {m : Slot} {answer : Answer} {S' : Session}, S.step (.newState m) = .ok (.ok (answer, S')) →
      ∃ s text R, answer = .newState s text ∧ S'.automata[m]? = some R ∧ S.Issued S' R.ids s) ∧
    ∀ {op : Op} {answer : Answer} {S' : Session}, op.draws = true →
      S.step op = .ok (.ok (answer, S')) →
      ∃ into R, op.result? = some into ∧ S'.automata[into]? = some R ∧
        (∀ s, s ∈ R.states ↔ S.Takes op s ∨ S.Issued S' R.ids s) ∧
        (∀ n, op.drawn? = some n → (S'.counter R.ids).next = (S.counter R.ids).next + n) ∧
        ∀ s, S.Issued S' R.ids s → ∀ {slot : Slot} {N : Machine},
          S.automata[slot]? = some N → N.ids = R.ids → s ∉ N.states := by
  have sound := reachable.sound
  refine ⟨fun held s member => (sound.machines held).below member, newState_answers sound, ?_⟩
  intro op answer S' draws ran
  obtain ⟨into, R, result, introduced⟩ := step_introduces sound draws ran
  refine ⟨into, R, result, introduced.held, introduced.states, introduced.number, ?_⟩
  intro s issued slot N held shared
  rw [← shared] at issued
  exact sound.not_mem_of_issued held issued

/-- Two literals of one counter under two names, and an automaton that names a state far ahead. -/
def crowd : List Op :=
  [.newAllocator "i", .cloneAllocator "j" "i", .literal "a" "i" "x", .literal "b" "j" "y",
    .newDfa "d" "j", .addState "d" ⟨40, by decide⟩]

theorem issued_states_are_fresh_union :
    ∃ (S S' : Session) (answer : Answer) (R : Machine), S.Reachable ∧
      S.step (.union "a" "b") = .ok (.ok (answer, S')) ∧ S'.automata["a"]? = some R ∧
      (S'.counter R.ids).next = (S.counter R.ids).next + 2 ∧
      ∀ s, S.Issued S' R.ids s → ∀ {slot : Slot} {N : Machine},
        S.automata[slot]? = some N → N.ids = R.ids → s ∉ N.states := by
  have computed : ((after {} crowd).bind fun S =>
      (S.step (.union "a" "b")).toOption.bind fun result =>
        result.toOption.map fun (answer, S') => (S, answer, S')).isSome = true := by cbv
  obtain ⟨⟨S, answer, S'⟩, chained⟩ := Option.isSome_iff_exists.mp computed
  obtain ⟨S, ran, chained⟩ := Option.bind_eq_some_iff.mp chained
  obtain ⟨result, stepped, chained⟩ := Option.bind_eq_some_iff.mp chained
  obtain ⟨⟨answer, S'⟩, done, same⟩ := Option.map_eq_some_iff.mp chained
  cases same
  have stepped := toOption_eq_some_iff.mp stepped
  rw [toOption_eq_some_iff.mp done] at stepped
  have reachable := Reachable.new.after ran
  obtain ⟨into, R, result, held, _, number, fresh⟩ :=
    (issued_states_are_fresh reachable).2.2 rfl stepped
  cases result
  exact ⟨S, S', answer, R, reachable, stepped, held, number 2 rfl, fresh⟩

end Session

end PostfixAutomata
