import Mathlib
import PostfixAutomata.Proofs.Dfa.Words
import PostfixAutomata.Proofs.Nfa.Subsets
import PostfixAutomata.Proofs.Session.Step

set_option autoImplicit false

/-!
Languages of the automata of a session. Whatever operations an automaton comes from, determinization
keeps its language by way of exactly the subsets that it reaches, complement is the complement of
its language over its alphabet, and the listing of its inputs up to a length misses none.
-/

namespace PostfixAutomata

namespace Session

variable {S : Session} {m : Slot}

/-- The automata of a reachable session are below their counters. -/
theorem Reachable.sound_nfa (reachable : S.Reachable) {A : Nfa}
    (held : S.automata[m]? = some (.nfa A)) : A.Sound (S.counter A.ids) :=
  reachable.sound.machines held

theorem Reachable.sound_dfa (reachable : S.Reachable) {D : Dfa}
    (held : S.automata[m]? = some (.dfa D)) : D.Sound (S.counter D.ids) :=
  reachable.sound.machines held

/-- An automaton that can be loaded is held by a session, and its counter is just above it. -/
theorem reachable_adopt {op : Op} {loaded : AllocatorId → Except LoadError Machine}
    (adopts : Session.step {} op = adopt {} m loaded) {M : Machine}
    (built : loaded ⟨0⟩ = .ok M) (ids : M.ids = ⟨0⟩) :
    ∃ S : Session, S.Reachable ∧ S.automata[m]? = some M ∧
      S.counter M.ids = Counter.above M.states.toList := by
  let S := (({} : Session).addCounter (Counter.above M.states.toList)).2.store m M
  have stepped : Session.step {} op = .ok (.ok (.report M.report, S)) := by
    rw [adopts]
    exact adopt_of_ok m built
  refine ⟨S, .step .new stepped, Std.ExtTreeMap.getElem?_insert_self, ?_⟩
  rw [ids]
  exact counter_addCounter_new {} _

theorem reachable_loadNfa (m : Slot) {data : Data} {A : Nfa}
    (loaded : Nfa.ofData ⟨0⟩ data = .ok A) :
    ∃ S : Session, S.Reachable ∧ S.automata[m]? = some (.nfa A) := by
  obtain ⟨d, _, done⟩ := bind_eq_ok_iff.mp loaded
  obtain rfl := Except.ok.inj done
  have adopts : Session.step {} (.loadNfa m data) =
    adopt {} m fun ids => .nfa <$> Nfa.ofData ids data := rfl
  obtain ⟨S, reachable, held, _⟩ := reachable_adopt adopts (map_eq_ok_iff.mpr ⟨_, loaded, rfl⟩)
    (Automaton.ids_ofDescription _ ⟨0⟩ d)
  exact ⟨S, reachable, held⟩

theorem reachable_loadDfa (m : Slot) {data : Data} {D : Dfa}
    (loaded : Dfa.ofData ⟨0⟩ data = .ok D) :
    ∃ S : Session, S.Reachable ∧ S.automata[m]? = some (.dfa D) ∧
      S.counter D.ids = Counter.above D.states.toList := by
  obtain ⟨d, _, done⟩ := bind_eq_ok_iff.mp loaded
  obtain rfl := Except.ok.inj done
  have adopts : Session.step {} (.loadDfa m data) =
    adopt {} m fun ids => .dfa <$> Dfa.ofData ids data := rfl
  exact reachable_adopt adopts (map_eq_ok_iff.mpr ⟨_, loaded, rfl⟩)
    (Automaton.ids_ofDescription _ ⟨0⟩ d)

/-- Determinization, with states from any counter, keeps the language and the alphabet. -/
theorem determinize_keeps_language (reachable : S.Reachable) {A : Nfa}
    (held : S.automata[m]? = some (.nfa A)) {target : AllocatorId} {k k' : Counter} {D : Dfa}
    (ran : (A.determinize target).run k = .ok (D, k')) :
    (∀ input : List Char, D.accepts input = true ↔ A.Accepts input) ∧ D.alphabet = A.alphabet := by
  have valid := (reachable.sound_nfa held).valid
  exact ⟨fun input => Nfa.accepts_determinize_iff valid ran, Nfa.alphabet_determinize ran⟩

/-- A loaded automaton whose two states lie on a circle of ε-transitions; only one of them reads,
and one symbol labels nothing. -/
def circle : Data :=
  .record [("start", .natural 0), ("finals", .list [.natural 1]), ("alphabet", .list [.text "b"]),
    ("transitions", .record
      [("0", .record [("", .list [.natural 1]), ("a", .list [.natural 0])]),
        ("1", .record [("", .list [.natural 0])])])]

theorem determinize_keeps_language_circle :
    ∃ (S : Session) (A : Nfa) (D : Dfa) (k : Counter), S.Reachable ∧
      S.automata["m"]? = some (.nfa A) ∧ (A.determinize ⟨7⟩).run ⟨5⟩ = .ok (D, k) ∧
      (∀ input : List Char, D.accepts input = true ↔ A.Accepts input) ∧
      D.alphabet = A.alphabet := by
  have computed : ((Nfa.ofData ⟨0⟩ circle).toOption.bind fun A =>
      ((A.determinize ⟨7⟩).run ⟨5⟩).toOption).isSome = true := by cbv
  obtain ⟨⟨D, k⟩, chained⟩ := Option.isSome_iff_exists.mp computed
  obtain ⟨A, loaded, ran⟩ := Option.bind_eq_some_iff.mp chained
  have ran := toOption_eq_some_iff.mp ran
  obtain ⟨S, reachable, held⟩ := reachable_loadNfa "m" (toOption_eq_some_iff.mp loaded)
  exact ⟨S, A, D, k, reachable, held, ran, determinize_keeps_language reachable held ran⟩

/-- The construction makes the automaton of the non-empty subsets that the start leads to, under the
identifiers that follow each other from the counter on. It takes a round for each of them and never
more, and fails exactly when there are fewer identifiers than subsets. -/
theorem determinize_builds_subsets (reachable : S.Reachable) {A : Nfa}
    (held : S.automata[m]? = some (.nfa A)) {start : State} (begins : A.start = some start)
    (target : AllocatorId) (k : Counter) :
    (A.subsets start).Finite ∧
    (∀ e₀ : Exploration, A.outset target k start = .ok e₀ →
      (∀ n e, A.Rounds n e₀ e → n ≤ (A.subsets start).ncard) ∧
      ∀ e, A.explore e₀ = .ok e → A.Rounds (A.subsets start).ncard e₀ e) ∧
    (k.next + (A.subsets start).ncard ≤ UInt32.size →
      ∃ D k' number, (A.determinize target).run k = .ok (D, k') ∧
        k'.next = k.next + (A.subsets start).ncard ∧
        A.IsSubsetAutomaton start k.next number D) ∧
    (UInt32.size < k.next + (A.subsets start).ncard →
      (A.determinize target).run k = .error .identifiersExhausted) := by
  have valid := (reachable.sound_nfa held).valid
  refine ⟨A.finite_subsets start, ?_, Nfa.determinize_of_room valid begins target,
    Nfa.determinize_of_spent begins target⟩
  intro e₀ begun
  exact ⟨fun _ _ rounds => Nfa.rounds_le_ncard begun rounds,
    fun _ ran => Nfa.rounds_of_explore_eq_ok begun ran⟩

/-- A loaded automaton that guesses when the last two symbols begin. -/
def guess : Data :=
  .record [("start", .natural 0), ("finals", .list [.natural 2]),
    ("transitions", .record
      [("0", .record [("a", .list [.natural 0, .natural 1]), ("b", .list [.natural 0])]),
        ("1", .record [("a", .list [.natural 2]), ("b", .list [.natural 2])])])]

/-- It reaches four subsets, so three identifiers are not enough. -/
theorem determinize_builds_subsets_guess :
    ∃ (S : Session) (A : Nfa) (start : State) (D : Dfa) (k' : Counter), S.Reachable ∧
      S.automata["m"]? = some (.nfa A) ∧ A.start = some start ∧ (A.subsets start).ncard = 4 ∧
      (A.determinize ⟨7⟩).run ⟨5⟩ = .ok (D, k') ∧ k'.next = 9 ∧
      (∃ number, A.IsSubsetAutomaton start 5 number D) ∧
      (A.determinize ⟨7⟩).run ⟨UInt32.size - 3⟩ = .error .identifiersExhausted := by
  have computed : ((Nfa.ofData ⟨0⟩ guess).toOption.bind fun A => A.start.bind fun start =>
      ((A.determinize ⟨7⟩).run ⟨5⟩).toOption.bind fun (D, k') =>
        if k'.next = 9 then some (A, start, D, k') else none).isSome = true := by cbv
  obtain ⟨⟨A, start, D, k'⟩, chained⟩ := Option.isSome_iff_exists.mp computed
  obtain ⟨A, loaded, chained⟩ := Option.bind_eq_some_iff.mp chained
  obtain ⟨start, begins, chained⟩ := Option.bind_eq_some_iff.mp chained
  obtain ⟨⟨D, k'⟩, ran, chained⟩ := Option.bind_eq_some_iff.mp chained
  obtain ⟨moved, same⟩ := Option.ite_none_right_eq_some.mp chained
  cases same
  have ran := toOption_eq_some_iff.mp ran
  obtain ⟨S, reachable, held⟩ := reachable_loadNfa "m" (toOption_eq_some_iff.mp loaded)
  obtain ⟨_, _, made, spent⟩ := determinize_builds_subsets reachable held begins ⟨7⟩ ⟨5⟩
  have room : 5 + (A.subsets start).ncard ≤ UInt32.size := by
    by_contra less
    rw [spent (Nat.lt_of_not_le less)] at ran
    cases ran
  obtain ⟨D', _, number, ran', counted, shape⟩ := made room
  cases ran.symm.trans ran'
  have size : (A.subsets start).ncard = 4 := by
    have : 5 + (A.subsets start).ncard = 9 := counted.symm.trans moved
    omega
  obtain ⟨_, _, _, fails⟩ :=
    determinize_builds_subsets reachable held begins ⟨7⟩ ⟨UInt32.size - 3⟩
  refine ⟨S, A, start, D, _, reachable, held, begins, size, ran, moved, ⟨number, shape⟩, fails ?_⟩
  rw [size]
  decide

/-- The complement accepts the inputs over the alphabet that the automaton rejects; the complement
of that, computed at any later time, accepts what the automaton accepts. -/
theorem complement_is_complement (reachable : S.Reachable) {D : Dfa}
    (held : S.automata[m]? = some (.dfa D)) {E : Dfa} {k : Counter}
    (ran : D.complement.run (S.counter D.ids) = .ok (E, k)) :
    (∀ input : List Char, E.accepts input = true ↔
      (∀ c ∈ input, c ∈ D.alphabet) ∧ D.accepts input = false) ∧
    E.alphabet = D.alphabet ∧
    ∀ {later k' : Counter} {F : Dfa}, k.next ≤ later.next → E.complement.run later = .ok (F, k') →
      ∀ input : List Char, F.accepts input = D.accepts input := by
  have sound := reachable.sound_dfa held
  have once : ∀ input : List Char, E.accepts input = true ↔
      (∀ c ∈ input, c ∈ D.alphabet) ∧ D.accepts input = false :=
    fun input => Dfa.accepts_complement_iff sound ran
  have alphabet := Dfa.alphabet_complement ran
  refine ⟨once, alphabet, ?_⟩
  intro later k' F passed ranAgain input
  have soundE := (Dfa.drawn_complement sound ran).sound.mono passed
  rw [Bool.eq_iff_iff, Dfa.accepts_complement_iff soundE ranAgain, alphabet, ← Bool.not_eq_true,
    once, ← Bool.not_eq_true]
  constructor
  · rintro ⟨known, twice⟩
    exact Decidable.byContradiction fun rejected => twice ⟨known, rejected⟩
  · intro accepted
    exact ⟨Dfa.over_alphabet_of_accepts sound.valid accepted, fun once => once.2 accepted⟩

/-- A loaded automaton that stops after one symbol, with a further symbol that labels nothing. -/
def dash : Data :=
  .record [("start", .natural 0), ("finals", .list [.natural 1]), ("alphabet", .list [.text "b"]),
    ("transitions", .record [("0", .record [("a", .natural 1)])])]

theorem complement_is_complement_dash :
    ∃ (S : Session) (D E F : Dfa) (k k' : Counter), S.Reachable ∧
      S.automata["m"]? = some (.dfa D) ∧ D.complement.run (S.counter D.ids) = .ok (E, k) ∧
      E.complement.run k = .ok (F, k') ∧
      (∀ input : List Char, E.accepts input = true ↔
        (∀ c ∈ input, c ∈ D.alphabet) ∧ D.accepts input = false) ∧
      E.alphabet = D.alphabet ∧ ∀ input : List Char, F.accepts input = D.accepts input := by
  have computed : ((Dfa.ofData ⟨0⟩ dash).toOption.bind fun D =>
      (D.complement.run (Counter.above D.states.toList)).toOption.bind fun (E, k) =>
        (E.complement.run k).toOption).isSome = true := by cbv
  obtain ⟨⟨F, k'⟩, chained⟩ := Option.isSome_iff_exists.mp computed
  obtain ⟨D, loaded, chained⟩ := Option.bind_eq_some_iff.mp chained
  obtain ⟨⟨E, k⟩, ran, chained⟩ := Option.bind_eq_some_iff.mp chained
  have ran := toOption_eq_some_iff.mp ran
  have ranAgain := toOption_eq_some_iff.mp chained
  obtain ⟨S, reachable, held, counter⟩ := reachable_loadDfa "m" (toOption_eq_some_iff.mp loaded)
  rw [← counter] at ran
  obtain ⟨once, alphabet, twice⟩ := complement_is_complement reachable held ran
  exact ⟨S, D, E, F, k, k', reachable, held, ran, ranAgain, once, alphabet,
    twice (Nat.le_refl _) ranAgain⟩

/-- The listing up to a bound holds the accepted inputs within it, each once, shortest first and by
code point within a length. Trying all inputs over the alphabet gives the same list, and a greater
bound continues it. -/
theorem words_list_accepted (reachable : S.Reachable) {D : Dfa}
    (held : S.automata[m]? = some (.dfa D)) (bound : Nat) :
    (∀ input : List Char, input ∈ D.words bound ↔
      (∀ c ∈ input, c ∈ D.alphabet) ∧ input.length ≤ bound ∧ D.accepts input = true) ∧
    (D.words bound).Nodup ∧ (D.words bound).Pairwise Precedes ∧
    D.words bound = (Alphabet.inputsUpTo D.alphabet bound).filter D.accepts ∧
    ∀ longer : Nat, bound ≤ longer → D.words bound <+: D.words longer := by
  have valid := (reachable.sound_dfa held).valid
  have ordered := Dfa.words_pairwise valid bound
  refine ⟨fun input => ?_, nodup_of_precedes ordered, ordered, Dfa.words_eq_filter valid bound,
    fun longer within => D.words_isPrefix within⟩
  rw [Dfa.mem_words_iff valid]
  constructor
  · rintro ⟨accepted, within⟩
    exact ⟨Dfa.over_alphabet_of_accepts valid accepted, within, accepted⟩
  · rintro ⟨_, within, accepted⟩
    exact ⟨accepted, within⟩

/-- A loaded automaton with two ways to a final state, a state that nothing leaves, and a symbol
that labels nothing. -/
def fork : Data :=
  .record [("start", .natural 0), ("finals", .list [.natural 0, .natural 2]),
    ("alphabet", .list [.text "c"]),
    ("transitions", .record
      [("0", .record [("b", .natural 2), ("a", .natural 1)]),
        ("1", .record [("a", .natural 2), ("b", .natural 3)])])]

theorem words_list_accepted_fork :
    ∃ (S : Session) (D : Dfa), S.Reachable ∧ S.automata["m"]? = some (.dfa D) ∧
      D.words 2 = [[], ['b'], ['a', 'a']] ∧
      (∀ input : List Char, input ∈ D.words 2 ↔
        (∀ c ∈ input, c ∈ D.alphabet) ∧ input.length ≤ 2 ∧ D.accepts input = true) ∧
      (D.words 2).Nodup ∧ (D.words 2).Pairwise Precedes ∧
      D.words 2 = (Alphabet.inputsUpTo D.alphabet 2).filter D.accepts ∧
      ∀ longer : Nat, 2 ≤ longer → D.words 2 <+: D.words longer := by
  have computed : ((Dfa.ofData ⟨0⟩ fork).toOption.bind fun D =>
      if D.words 2 = [[], ['b'], ['a', 'a']] then some D else none).isSome = true := by cbv
  obtain ⟨D, chained⟩ := Option.isSome_iff_exists.mp computed
  obtain ⟨D, loaded, chained⟩ := Option.bind_eq_some_iff.mp chained
  obtain ⟨listed, same⟩ := Option.ite_none_right_eq_some.mp chained
  cases same
  obtain ⟨S, reachable, held, _⟩ := reachable_loadDfa "m" (toOption_eq_some_iff.mp loaded)
  exact ⟨S, D, reachable, held, listed, words_list_accepted reachable held 2⟩

end Session

end PostfixAutomata
