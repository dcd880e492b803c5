import PostfixAutomata.Proofs.Session.Sound

set_option autoImplicit false

/-!
What an operation does to a session. An operation that is carried out moves counters on, and either
it leaves the automata alone or it keeps one automaton under one name; the states of that one come
from automata that the operation takes over, from its caller, or from the counter that it draws
from. Whatever holds of all sessions follows from this case analysis by induction.
-/

namespace PostfixAutomata

namespace Session

namespace Op

/-- The name under which an operation keeps an automaton, if it keeps one. -/
def result? : Op → Option Slot
  | .newNfa m _ | .newDfa m _ | .standaloneNfa m | .standaloneDfa m | .literal m _ _
  | .loadNfa m _ | .loadDfa m _ | .newState m | .addState m _ | .setStart m _ | .setFinal m _ _
  | .addTransition m _ _ _ | .addSymbol m _ | .becomeLiteral m _ | .star m | .concat m _
  | .union m _ => some m
  | .reload _ into | .toDfa _ into | .determinize _ _ into | .complement _ into
  | .toNfa _ into => some into
  | _ => none

/-- The names of the automata whose states an operation takes over. -/
def takes : Op → List Slot
  | .newState m | .addState m _ | .setStart m _ | .setFinal m _ _ | .addTransition m _ _ _
  | .addSymbol m _ | .star m | .complement m _ | .toNfa m _ => [m]
  | .concat m other | .union m other => [m, other]
  | _ => []

/-- The states that the caller of an operation names for the automaton to contain. -/
def names : Op → List State
  | .addState _ s | .setStart _ s | .setFinal _ s _ => [s]
  | .addTransition _ p _ q => [p, q]
  | _ => []

/-- The name that an operation gives up. -/
def frees? : Op → Option Slot
  | .toNfa m _ => some m
  | .concat _ other | .union _ other => some other
  | _ => none

/-- An operation without a result gives up no name. -/
theorem frees?_of_result? {op : Op} (nothing : op.result? = none) : op.frees? = none := by
  cases op with
  | toNfa | concat | union => cases nothing
  | _ => rfl

end Op

variable {S S' : Session} {op : Op} {m into slot : Slot} {ids : AllocatorId} {M : Machine}
  {answer : Answer}

/-- The session without the name that an operation gives up. -/
def freed (S : Session) (op : Op) : Session :=
  { S with automata := op.frees?.elim S.automata S.automata.erase }

/-- The states that an operation may put into an automaton of a counter without drawing them: those
of the automata that it takes over, and those that its caller names. -/
def Supplies (S : Session) (op : Op) (ids : AllocatorId) (s : State) : Prop :=
  ∃ m ∈ op.takes, ∃ K : Machine, S.automata[m]? = some K ∧ K.ids = ids ∧
    (s ∈ K.states ∨ s ∈ op.names)

/-- What an operation that is carried out does to a session. -/
inductive Effect (S : Session) (op : Op) (S' : Session) : Prop
  /-- The automata stay as they are. -/
  | rest : S.Later S' → op.result? = none → S'.automata = S.automata → Effect S op S'
  /-- One automaton is kept. -/
  | kept {into : Slot} {R : Machine} {ids : AllocatorId} :
    S.Later S' → op.result? = some into → S'.Knows ids →
      R.Drawn ids (S.Supplies op ids) (S.counter ids) (S'.counter ids) →
      S'.automata = (S.freed op).automata.insert into R → Effect S op S'

/-! The parts of operations. -/

section Parts

variable {result : Answer × Session}

theorem withAllocator_eq_ok {next : AllocatorId → Result}
    (ran : S.withAllocator slot next = .ok (.ok result)) :
    ∃ ids, S.allocators[slot]? = some ids ∧ next ids = .ok (.ok result) := by
  unfold withAllocator at ran
  cases found : S.allocators[slot]? with
  | none =>
      rw [found] at ran
      cases ran
  | some ids =>
      rw [found] at ran
      exact ⟨ids, rfl, ran⟩

theorem withMachine_eq_ok {next : Machine → Result}
    (ran : S.withMachine slot next = .ok (.ok result)) :
    ∃ M, S.automata[slot]? = some M ∧ next M = .ok (.ok result) := by
  unfold withMachine at ran
  cases found : S.automata[slot]? with
  | none =>
      rw [found] at ran
      cases ran
  | some M =>
      rw [found] at ran
      exact ⟨M, rfl, ran⟩

theorem withNfa_eq_ok {next : Nfa → Result} (ran : S.withNfa slot next = .ok (.ok result)) :
    ∃ A, S.automata[slot]? = some (.nfa A) ∧ next A = .ok (.ok result) := by
  obtain ⟨M, found, ran⟩ := withMachine_eq_ok ran
  cases M with
  | nfa A => exact ⟨A, found, ran⟩
  | dfa D => cases ran

theorem withDfa_eq_ok {next : Dfa → Result} (ran : S.withDfa slot next = .ok (.ok result)) :
    ∃ D, S.automata[slot]? = some (.dfa D) ∧ next D = .ok (.ok result) := by
  obtain ⟨M, found, ran⟩ := withMachine_eq_ok ran
  cases M with
  | nfa A => cases ran
  | dfa D => exact ⟨D, found, ran⟩

theorem withLabel_eq_ok {label : String} {next : Label → Result}
    (ran : withLabel label next = .ok (.ok result)) :
    ∃ l, Label.ofText label = .ok l ∧ next l = .ok (.ok result) := by
  unfold withLabel at ran
  cases read : Label.ofText label with
  | error e =>
      rw [read] at ran
      cases ran
  | ok l =>
      rw [read] at ran
      exact ⟨l, rfl, ran⟩

theorem withSymbol_eq_ok {label : String} {next : Char → Result}
    (ran : withSymbol label next = .ok (.ok result)) :
    ∃ c, Label.ofText label = .ok (.symbol c) ∧ next c = .ok (.ok result) := by
  obtain ⟨l, read, ran⟩ := withLabel_eq_ok ran
  cases l with
  | epsilon => cases ran
  | symbol c => exact ⟨c, read, ran⟩

theorem alloc_eq_ok {α : Type} {x : Alloc α} {a : α} (ran : S.alloc ids x = .ok (a, S')) :
    ∃ c, x.run (S.counter ids) = .ok (a, c) ∧ S' = S.setCounter ids c := by
  obtain ⟨⟨a', c⟩, computed, done⟩ := bind_eq_ok_iff.mp ran
  cases done
  exact ⟨c, computed, rfl⟩

theorem build_eq_ok {x : Alloc Machine} (ran : S.build into ids x = .ok (.ok (answer, S'))) :
    ∃ R c, x.run (S.counter ids) = .ok (R, c) ∧ S' = (S.setCounter ids c).store into R := by
  obtain ⟨⟨R, S₁⟩, allocated, kept⟩ := bind_eq_ok_iff.mp ran
  obtain ⟨c, computed, rfl⟩ := alloc_eq_ok allocated
  cases kept
  exact ⟨R, c, computed, rfl⟩

theorem withNfa_of_held {A : Nfa} (held : S.automata[m]? = some (.nfa A)) (next : Nfa → Result) :
    S.withNfa m next = next A := by
  simp only [withNfa, withMachine, held]

theorem build_of_ok {x : Alloc Nfa} {C : Nfa} {c : Counter}
    (ran : x.run (S.counter ids) = .ok (C, c)) :
    ∃ S', S.build m ids (.nfa <$> x) = .ok (.ok (.report C.report, S')) ∧
      S'.automata[m]? = some (.nfa C) := by
  have mapped : (Machine.nfa <$> x).run (S.counter ids) = .ok (.nfa C, c) :=
    Alloc.run_map_eq_ok_iff.mpr ⟨C, ran, rfl⟩
  refine ⟨(S.setCounter ids c).store m (.nfa C), ?_, Std.ExtTreeMap.getElem?_insert_self⟩
  rw [build, alloc, mapped]
  rfl

theorem build_of_error {x : Alloc Nfa} {d : Defect}
    (failed : x.run (S.counter ids) = .error d) :
    S.build m ids (.nfa <$> x) = .error d := by
  have mapped : (Machine.nfa <$> x).run (S.counter ids) = .error d := by
    rw [StateT.run_map, failed]
    rfl
  rw [build, alloc, mapped]
  rfl

/-- A loaded automaton has a counter of its own, which lies just above its states. -/
theorem adopt_eq_ok {loaded : AllocatorId → Except LoadError Machine}
    (ran : S.adopt into loaded = .ok (.ok (answer, S'))) :
    ∃ R, loaded ⟨S.counters.size⟩ = .ok R ∧
      S' = (S.addCounter (Counter.above R.states.toList)).2.store into R := by
  unfold adopt at ran
  cases read : loaded ⟨S.counters.size⟩ with
  | error e =>
      rw [read] at ran
      cases ran
  | ok R =>
      rw [read] at ran
      cases ran
      exact ⟨R, rfl, rfl⟩

theorem adopt_of_ok (into : Slot) {loaded : AllocatorId → Except LoadError Machine}
    (built : loaded ⟨S.counters.size⟩ = .ok M) :
    S.adopt into loaded = .ok (.ok (.report M.report,
      (S.addCounter (Counter.above M.states.toList)).2.store into M)) := by
  rw [adopt, built]
  rfl

end Parts

/-! Effects. -/

theorem getElem?_automata_freed {N : Machine} (found : (S.freed op).automata[slot]? = some N) :
    op.frees? ≠ some slot ∧ S.automata[slot]? = some N := by
  unfold freed at found
  cases given : op.frees? with
  | none =>
      rw [given] at found
      exact ⟨nofun, found⟩
  | some other =>
      rw [given] at found
      change (S.automata.erase other)[slot]? = some N at found
      rw [Std.ExtTreeMap.getElem?_erase] at found
      split at found
      · cases found
      · rename_i different
        refine ⟨?_, found⟩
        rintro ⟨⟩
        exact different (Std.LawfulEqCmp.compare_eq_iff_eq.mpr rfl)

theorem freed_eq_self (keepsNames : op.frees? = none) : S.freed op = S := by
  unfold freed
  rw [keepsNames]
  rfl

/-- An answer leaves the session as it is. -/
theorem Effect.ofGive (sound : S.Sound) (result : op.result? = none) {given : Answer}
    (ran : give given S = .ok (.ok (answer, S'))) : S.Effect op S' := by
  cases ran
  exact .rest sound.later result rfl

/-- An automaton may be kept once its counter is past its states. -/
theorem Effect.ofStore {S₁ : Session} (later : S.Later S₁) (same : S₁.automata = S.automata)
    (result : op.result? = some into) (known : S₁.Knows ids)
    (drawn : M.Drawn ids (S.Supplies op ids) (S.counter ids) (S₁.counter ids)) :
    S.Effect op ((S₁.freed op).store into M) := by
  refine .kept ⟨later.knows, later.counter, later.allocators⟩ result known drawn ?_
  unfold freed
  rw [← same]
  rfl

/-- What is drawn from a counter of the session may be kept. -/
theorem Effect.ofDrawn (sound : S.Sound) (known : S.Knows ids) (result : op.result? = some into)
    {c : Counter} (drawn : M.Drawn ids (S.Supplies op ids) (S.counter ids) c) :
    S.Effect op (((S.freed op).setCounter ids c).store into M) := by
  refine .ofStore (sound.later_setCounter known drawn.grows) rfl result
    (knows_setCounter.mpr known) ?_
  rw [counter_setCounter_self known]
  exact drawn

theorem Effect.ofBuild (sound : S.Sound) (known : S.Knows ids) (result : op.result? = some into)
    {x : Alloc Machine} (draws : ∀ {R : Machine} {c : Counter},
      x.run (S.counter ids) = .ok (R, c) → R.Drawn ids (S.Supplies op ids) (S.counter ids) c)
    (ran : (S.freed op).build into ids x = .ok (.ok (answer, S'))) : S.Effect op S' := by
  obtain ⟨R, c, computed, rfl⟩ := build_eq_ok ran
  exact .ofDrawn sound known result (draws computed)

/-- A change of an automaton may add states that the caller names. -/
theorem Effect.ofChange (sound : S.Sound) (result : op.result? = some m) (taken : m ∈ op.takes)
    (keepsNames : op.frees? = none) {nfa : Nfa → Alloc Nfa} {dfa : Dfa → Alloc Dfa}
    (drawsNfa : ∀ {A B : Nfa} {c c' : Counter}, A.Sound c → (nfa A).run c = .ok (B, c') →
      B.Drawn A.ids (fun s => s ∈ A.states ∨ s ∈ op.names) c c')
    (drawsDfa : ∀ {D E : Dfa} {c c' : Counter}, D.Sound c → (dfa D).run c = .ok (E, c') →
      E.Drawn D.ids (fun s => s ∈ D.states ∨ s ∈ op.names) c c')
    (ran : S.change m nfa dfa = .ok (.ok (answer, S'))) : S.Effect op S' := by
  obtain ⟨M, found, ran⟩ := withMachine_eq_ok ran
  have start : S.freed op = S := freed_eq_self keepsNames
  cases M with
  | nfa A =>
      rw [← start] at ran
      refine .ofBuild sound (sound.known found) result (Machine.drawn_map_nfa fun computed => ?_) ran
      exact (drawsNfa (sound.machines found) computed).mono fun supplied =>
        ⟨m, taken, _, found, rfl, supplied⟩
  | dfa D =>
      rw [← start] at ran
      refine .ofBuild sound (sound.known found) result (Machine.drawn_map_dfa fun computed => ?_) ran
      exact (drawsDfa (sound.machines found) computed).mono fun supplied =>
        ⟨m, taken, _, found, rfl, supplied⟩

/-- A further counter comes with an automaton that draws from it. -/
theorem Effect.ofAddCounter (sound : S.Sound) (result : op.result? = some into)
    (keepsNames : op.frees? = none) {c : Counter} (valid : M.Sound c)
    (own : M.ids = (S.addCounter c).1) : S.Effect op ((S.addCounter c).2.store into M) := by
  have unknown : ¬S.Knows (S.addCounter c).1 := Nat.lt_irrefl S.counters.size
  have drawn : M.Drawn M.ids (S.Supplies op M.ids) (S.counter M.ids)
      ((S.addCounter c).2.counter M.ids) := by
    rw [own, counter_addCounter_new, counter_of_not_knows unknown]
    exact ⟨valid, own, Nat.zero_le _, fun _ => .inr (Nat.zero_le _)⟩
  have known : (S.addCounter c).2.Knows M.ids := by
    rw [own]
    exact knows_addCounter S c
  have start : (S.addCounter c).2.freed op = (S.addCounter c).2 := freed_eq_self keepsNames
  rw [← start]
  exact .ofStore (sound.later_addCounter c) rfl result known drawn

theorem Effect.ofAdopt (sound : S.Sound) (result : op.result? = some into)
    (keepsNames : op.frees? = none) {loaded : AllocatorId → Except LoadError Machine}
    (fits : ∀ {ids : AllocatorId} {R : Machine}, loaded ids = .ok R →
      R.ids = ids ∧ R.Sound (Counter.above R.states.toList))
    (ran : S.adopt into loaded = .ok (.ok (answer, S'))) : S.Effect op S' := by
  obtain ⟨R, read, rfl⟩ := adopt_eq_ok ran
  obtain ⟨own, valid⟩ := fits read
  exact .ofAddCounter sound result keepsNames valid own

theorem Effect.ofLoadNfa (sound : S.Sound) (result : op.result? = some into)
    (keepsNames : op.frees? = none) {data : Data}
    (ran : S.loadNfa into data = .ok (.ok (answer, S'))) : S.Effect op S' := by
  refine .ofAdopt sound result keepsNames ?_ ran
  intro ids R read
  obtain ⟨A, built, rfl⟩ := map_eq_ok_iff.mp read
  obtain ⟨d, _, done⟩ := bind_eq_ok_iff.mp built
  obtain rfl := Except.ok.inj done
  exact ⟨Automaton.ids_ofDescription _ ids d, Automaton.sound_ofDescription _ ids d⟩

theorem Effect.ofLoadDfa (sound : S.Sound) (result : op.result? = some into)
    (keepsNames : op.frees? = none) {data : Data}
    (ran : S.loadDfa into data = .ok (.ok (answer, S'))) : S.Effect op S' := by
  refine .ofAdopt sound result keepsNames ?_ ran
  intro ids R read
  obtain ⟨D, built, rfl⟩ := map_eq_ok_iff.mp read
  obtain ⟨d, _, done⟩ := bind_eq_ok_iff.mp built
  obtain rfl := Except.ok.inj done
  exact ⟨Automaton.ids_ofDescription _ ids d, Automaton.sound_ofDescription _ ids d⟩

/-- Every operation that is carried out has such an effect. -/
theorem step_effect (sound : S.Sound) (ran : S.step op = .ok (.ok (answer, S'))) :
    S.Effect op S' := by
  have machine : ∀ {slot : Slot} {M : Machine}, S.automata[slot]? = some M →
      S.Knows M.ids ∧ M.Sound (S.counter M.ids) :=
    fun found => ⟨sound.known found, sound.machines found⟩
  -- Two automata that may be merged share their counter.
  have partner : ∀ {slot : Slot} {A B : Nfa}, S.automata[slot]? = some (.nfa B) → A.ids = B.ids →
      B.Sound (S.counter A.ids) := by
    intro slot A B found shared
    rw [shared]
    exact sound.machines found
  have supply : ∀ {slot : Slot} {M : Machine} {ids : AllocatorId} {s : State}, slot ∈ op.takes →
      S.automata[slot]? = some M → M.ids = ids → s ∈ M.states → S.Supplies op ids s :=
    fun taken found own inside => ⟨_, taken, _, found, own, .inl inside⟩
  have named : ∀ {s t : State} {inside : Prop}, s = t ∨ inside → inside ∨ t ∈ [s] :=
    fun origin => origin.symm.imp_right fun same => List.mem_singleton.mpr same.symm
  cases op with
  | newAllocator slot =>
      cases ran
      exact .rest ((sound.later_addCounter {}).nameAllocator (knows_addCounter S {}) slot) rfl rfl
  | cloneAllocator slot source =>
      obtain ⟨ids, found, ran⟩ := withAllocator_eq_ok ran
      cases ran
      exact .rest (sound.later.nameAllocator (sound.allocators found) slot) rfl rfl
  | allocatorOf m slot =>
      obtain ⟨M, found, ran⟩ := withMachine_eq_ok ran
      cases ran
      exact .rest (sound.later.nameAllocator (machine found).1 slot) rfl rfl
  | issue slot =>
      obtain ⟨ids, found, ran⟩ := withAllocator_eq_ok ran
      obtain ⟨⟨s, S₁⟩, allocated, ran⟩ := bind_eq_ok_iff.mp ran
      obtain ⟨c, issued, rfl⟩ := alloc_eq_ok allocated
      cases ran
      have advanced := (Alloc.run_fresh_eq_ok_iff.mp issued).2
      exact .rest (sound.later_setCounter (sound.allocators found) (by omega)) rfl rfl
  | observe slot s =>
      obtain ⟨ids, found, ran⟩ := withAllocator_eq_ok ran
      obtain ⟨⟨u, S₁⟩, allocated, ran⟩ := bind_eq_ok_iff.mp ran
      obtain ⟨c, observed, rfl⟩ := alloc_eq_ok allocated
      cases ran
      obtain rfl := Alloc.run_observe_eq_ok_iff.mp observed
      exact .rest (sound.later_setCounter (sound.allocators found) (Nat.le_max_left _ _)) rfl rfl
  | shares slot other =>
      obtain ⟨_, _, ran⟩ := withAllocator_eq_ok ran
      obtain ⟨_, _, ran⟩ := withAllocator_eq_ok ran
      exact .ofGive sound rfl ran
  | newNfa m slot =>
      obtain ⟨ids, found, ran⟩ := withAllocator_eq_ok ran
      cases ran
      exact .ofStore sound.later rfl rfl (sound.allocators found) (.ofNfa (.empty ids _ _))
  | newDfa m slot =>
      obtain ⟨ids, found, ran⟩ := withAllocator_eq_ok ran
      cases ran
      exact .ofStore sound.later rfl rfl (sound.allocators found) (.ofDfa (.empty ids _ _))
  | standaloneNfa m =>
      cases ran
      exact .ofAddCounter sound rfl rfl (M := .nfa _) (Automaton.Sound.empty _ {}) rfl
  | standaloneDfa m =>
      cases ran
      exact .ofAddCounter sound rfl rfl (M := .dfa _) (Automaton.Sound.empty _ {}) rfl
  | literal m slot label =>
      obtain ⟨l, _, ran⟩ := withLabel_eq_ok ran
      obtain ⟨ids, found, ran⟩ := withAllocator_eq_ok ran
      exact .ofBuild sound (sound.allocators found) rfl
        (Machine.drawn_map_nfa fun built => (Nfa.drawn_literal built).mono False.elim) ran
  | loadNfa m data => exact .ofLoadNfa sound rfl rfl ran
  | loadDfa m data => exact .ofLoadDfa sound rfl rfl ran
  | reload m into =>
      obtain ⟨M, found, ran⟩ := withMachine_eq_ok ran
      cases M with
      | nfa A => exact .ofLoadNfa sound rfl rfl ran
      | dfa D => exact .ofLoadDfa sound rfl rfl ran
  | toDfa m into =>
      obtain ⟨A, found, ran⟩ := withNfa_eq_ok ran
      exact .ofBuild sound (machine found).1 rfl
        (Machine.drawn_map_dfa fun built => (Nfa.drawn_determinize built).mono False.elim) ran
  | determinize m slot into =>
      obtain ⟨A, _, ran⟩ := withNfa_eq_ok ran
      obtain ⟨ids, found, ran⟩ := withAllocator_eq_ok ran
      exact .ofBuild sound (sound.allocators found) rfl
        (Machine.drawn_map_dfa fun built => (Nfa.drawn_determinize built).mono False.elim) ran
  | complement m into =>
      obtain ⟨D, found, ran⟩ := withDfa_eq_ok ran
      exact .ofBuild sound (machine found).1 rfl
        (Machine.drawn_map_dfa fun built => (Dfa.drawn_complement (machine found).2 built).mono
          fun inside => supply (List.mem_singleton_self m) found rfl inside) ran
  | toNfa m into =>
      obtain ⟨D, found, ran⟩ := withDfa_eq_ok ran
      cases ran
      have valid := (machine found).2
      refine .ofStore sound.later rfl rfl (machine found).1
        (.ofNfa ⟨Dfa.sound_toNfa valid, Dfa.ids_toNfa, Nat.le_refl _, ?_⟩)
      intro s inside
      have member := (Dfa.mem_states_toNfa (Automaton.Sound.valid valid)).mp inside
      exact .inl (supply (List.mem_singleton_self m) found rfl member)
  | destination m p label =>
      obtain ⟨M, _, ran⟩ := withMachine_eq_ok ran
      cases M with
      | nfa A =>
          obtain ⟨_, _, ran⟩ := withLabel_eq_ok ran
          exact .ofGive sound rfl ran
      | dfa D =>
          obtain ⟨_, _, ran⟩ := withSymbol_eq_ok ran
          exact .ofGive sound rfl ran
  | epsilonClosure m seeds =>
      obtain ⟨_, _, ran⟩ := withNfa_eq_ok ran
      exact .ofGive sound rfl ran
  | accepts | words =>
      obtain ⟨_, _, ran⟩ := withDfa_eq_ok ran
      exact .ofGive sound rfl ran
  | hasState | isFinal | outDegree | inspect =>
      obtain ⟨_, _, ran⟩ := withMachine_eq_ok ran
      exact .ofGive sound rfl ran
  | statistics m =>
      obtain ⟨M, _, ran⟩ := withMachine_eq_ok ran
      obtain ⟨total, _, ran⟩ := bind_eq_ok_iff.mp ran
      obtain ⟨text, _, ran⟩ := bind_eq_ok_iff.mp ran
      exact .ofGive sound rfl ran
  | save m =>
      obtain ⟨M, _, ran⟩ := withMachine_eq_ok ran
      cases M with
      | nfa | dfa => exact .ofGive sound rfl ran
  | newState m =>
      obtain ⟨M, found, ran⟩ := withMachine_eq_ok ran
      cases M with
      | nfa A =>
          obtain ⟨⟨⟨s, B⟩, S₁⟩, allocated, ran⟩ := bind_eq_ok_iff.mp ran
          obtain ⟨c, computed, rfl⟩ := alloc_eq_ok allocated
          cases ran
          have drawn := Automaton.drawn_newState (machine found).2 computed
          exact .ofDrawn sound (machine found).1 rfl (.ofNfa (drawn.mono fun inside =>
            supply (List.mem_singleton_self m) found rfl inside))
      | dfa D =>
          obtain ⟨⟨⟨s, E⟩, S₁⟩, allocated, ran⟩ := bind_eq_ok_iff.mp ran
          obtain ⟨c, computed, rfl⟩ := alloc_eq_ok allocated
          cases ran
          have drawn := Automaton.drawn_newState (machine found).2 computed
          exact .ofDrawn sound (machine found).1 rfl (.ofDfa (drawn.mono fun inside =>
            supply (List.mem_singleton_self m) found rfl inside))
  | addState m s =>
      exact .ofChange sound rfl (List.mem_singleton_self m) rfl
        (fun valid ran => (Automaton.drawn_addState valid ran).mono named)
        (fun valid ran => (Automaton.drawn_addState valid ran).mono named) ran
  | setStart m s =>
      exact .ofChange sound rfl (List.mem_singleton_self m) rfl
        (fun valid ran => (Automaton.drawn_markStart valid ran).mono named)
        (fun valid ran => (Automaton.drawn_markStart valid ran).mono named) ran
  | setFinal m s accept =>
      exact .ofChange sound rfl (List.mem_singleton_self m) rfl
        (fun valid ran => (Automaton.drawn_markFinal valid ran).mono named)
        (fun valid ran => (Automaton.drawn_markFinal valid ran).mono named) ran
  | addTransition m p label q =>
      have supplied : ∀ {M : Machine} {s : State}, S.automata[m]? = some M →
          q = s ∨ p = s ∨ s ∈ M.states → S.Supplies (.addTransition m p label q) M.ids s := by
        intro M s found origin
        refine ⟨m, List.mem_singleton_self m, M, found, rfl, ?_⟩
        rcases origin with rfl | rfl | inside
        · exact .inr (by simp [Op.names])
        · exact .inr (by simp [Op.names])
        · exact .inl inside
      obtain ⟨M, found, ran⟩ := withMachine_eq_ok ran
      cases M with
      | nfa A =>
          obtain ⟨l, _, ran⟩ := withLabel_eq_ok ran
          exact .ofBuild sound (machine found).1 rfl (Machine.drawn_map_nfa fun computed =>
            (Automaton.drawn_addTransition (machine found).2 computed).mono (supplied found)) ran
      | dfa D =>
          obtain ⟨c, _, ran⟩ := withSymbol_eq_ok ran
          exact .ofBuild sound (machine found).1 rfl (Machine.drawn_map_dfa fun computed =>
            (Automaton.drawn_addTransition (machine found).2 computed).mono (supplied found)) ran
  | addSymbol m c =>
      exact .ofChange sound rfl (List.mem_singleton_self m) rfl
        (fun valid ran => (Automaton.drawn_insertSymbol valid ran).mono .inl)
        (fun valid ran => (Automaton.drawn_insertSymbol valid ran).mono .inl) ran
  | becomeLiteral m label =>
      obtain ⟨l, _, ran⟩ := withLabel_eq_ok ran
      obtain ⟨A, found, ran⟩ := withNfa_eq_ok ran
      exact .ofBuild sound (machine found).1 rfl
        (Machine.drawn_map_nfa fun built => (Nfa.drawn_literal built).mono False.elim) ran
  | star m =>
      obtain ⟨A, found, ran⟩ := withNfa_eq_ok ran
      exact .ofBuild sound (machine found).1 rfl
        (Machine.drawn_map_nfa fun built => (Nfa.drawn_star (machine found).2 built).mono
          fun inside => supply (List.mem_singleton_self m) found rfl inside) ran
  | concat m other =>
      obtain ⟨A, first, ran⟩ := withNfa_eq_ok ran
      obtain ⟨B, second, ran⟩ := withNfa_eq_ok ran
      refine .ofBuild sound (machine first).1 rfl (Machine.drawn_map_nfa fun computed => ?_) ran
      have shared := (Nfa.concat_eq_ok computed).1
      refine (Nfa.drawn_concat (machine first).2 (partner second shared) computed).mono ?_
      rintro s (inside | inside)
      · exact supply List.mem_cons_self first rfl inside
      · exact supply (List.mem_pair.mpr (.inr rfl)) second shared.symm inside
  | union m other =>
      obtain ⟨A, first, ran⟩ := withNfa_eq_ok ran
      obtain ⟨B, second, ran⟩ := withNfa_eq_ok ran
      refine .ofBuild sound (machine first).1 rfl (Machine.drawn_map_nfa fun computed => ?_) ran
      have shared := (Nfa.union_eq_ok computed).1
      refine (Nfa.drawn_union (machine first).2 (partner second shared) computed).mono ?_
      rintro s (inside | inside)
      · exact supply List.mem_cons_self first rfl inside
      · exact supply (List.mem_pair.mpr (.inr rfl)) second shared.symm inside

/-! What follows for the session afterwards. -/

theorem Effect.later (effect : S.Effect op S') : S.Later S' := by
  cases effect with
  | rest later => exact later
  | kept later => exact later

/-- An automaton afterwards was there under its name, which the operation neither gave up nor used
for its result, or it is the result. -/
theorem Effect.origin (effect : S.Effect op S') {N : Machine}
    (found : S'.automata[slot]? = some N) :
    (op.result? ≠ some slot ∧ op.frees? ≠ some slot ∧ S.automata[slot]? = some N) ∨
      (op.result? = some slot ∧ S'.Knows N.ids ∧
        N.Drawn N.ids (S.Supplies op N.ids) (S.counter N.ids) (S'.counter N.ids)) := by
  cases effect with
  | rest later result same =>
      rw [same] at found
      rw [result, Op.frees?_of_result? result]
      exact .inl ⟨nofun, nofun, found⟩
  | @kept into R ids later result known drawn automata =>
      rw [automata, Std.ExtTreeMap.getElem?_insert] at found
      split at found
      · rename_i here
        obtain rfl := Std.LawfulEqCmp.compare_eq_iff_eq.mp here
        cases found
        rw [drawn.ids_eq]
        exact .inr ⟨result, known, drawn⟩
      · rename_i elsewhere
        refine .inl ⟨?_, getElem?_automata_freed found⟩
        rw [result]
        rintro ⟨⟩
        exact elsewhere (Std.LawfulEqCmp.compare_eq_iff_eq.mpr rfl)

/-- Every effect keeps the invariant. -/
theorem Effect.sound (sound : S.Sound) (effect : S.Effect op S') : S'.Sound := by
  have both : ∀ {slot : Slot} {N : Machine}, S'.automata[slot]? = some N →
      S'.Knows N.ids ∧ N.Sound (S'.counter N.ids) := by
    intro slot N found
    rcases effect.origin found with ⟨_, _, there⟩ | ⟨_, known, drawn⟩
    · exact ⟨effect.later.knows (sound.known there),
        (sound.machines there).mono (effect.later.counter N.ids)⟩
    · exact ⟨known, drawn.sound⟩
  exact ⟨effect.later.allocators, fun found => (both found).1, fun found => (both found).2⟩

theorem Reachable.sound (reachable : S.Reachable) : S.Sound := by
  induction reachable with
  | new => exact sound_new
  | step _ ran ih => exact (step_effect ih ran).sound ih

end Session

end PostfixAutomata
