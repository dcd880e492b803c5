import Mathlib
import PostfixAutomata.Proofs.Nfa.Language
import PostfixAutomata.Proofs.Session.Step

set_option autoImplicit false

/-!
Which automata of a session have states in common. As long as callers name no states but those that
an automaton already contains, automata of one counter are apart, so any two of them can be merged;
but for one exception. The complement of an automaton that stays where it is shares all states of
that automaton: only the sink is drawn, while determinization draws every state afresh. Merging the
two goes wrong without notice, since they have the same counter.
-/

namespace PostfixAutomata

namespace Session

/-- The automaton whose states an operation copies while the automaton stays. -/
def Op.copies? : Op → Option Slot
  | .complement m into => if m = into then none else some m
  | _ => none

/-- An automaton whose states are taken over becomes the result, is given up, or is copied. -/
theorem Op.mem_takes {op : Op} {m : Slot} (taken : m ∈ op.takes) :
    op.result? = some m ∨ op.frees? = some m ∨ op.copies? = some m := by
  cases op with
  | complement m into =>
      obtain rfl := List.mem_singleton.mp taken
      by_cases same : m = into
      · exact .inl (congrArg some same.symm)
      · exact .inr (.inr (if_neg same))
  | toNfa m into =>
      obtain rfl := List.mem_singleton.mp taken
      exact .inr (.inl rfl)
  | concat m other | union m other =>
      rcases List.mem_pair.mp taken with rfl | rfl
      · exact .inl rfl
      · exact .inr (.inl rfl)
  | newState | addState | setStart | setFinal | addTransition | addSymbol | star =>
      obtain rfl := List.mem_singleton.mp taken
      exact .inl rfl
  | _ => cases taken

variable {S S' : Session} {op : Op} {m n : Slot} {M N : Machine} {answer : Answer}
  {copied : AllocatorId → State → Prop}

/-- Whether every state that a caller names belongs to the automaton already. -/
def Respects (S : Session) (op : Op) : Prop :=
  ∀ m ∈ op.takes, ∀ {K : Machine}, S.automata[m]? = some K → ∀ s ∈ op.names, s ∈ K.states

/-- The states that an operation copies. -/
def Copies (S : Session) (op : Op) (ids : AllocatorId) (s : State) : Prop :=
  ∃ m K, op.copies? = some m ∧ S.automata[m]? = some K ∧ K.ids = ids ∧ s ∈ K.states

/-- The sessions in which states come into being only by being drawn, each with the states that it
copied on the way. -/
inductive Disciplined : Session → (AllocatorId → State → Prop) → Prop
  | new : Disciplined {} fun _ _ => False
  | step {S S' : Session} {copied : AllocatorId → State → Prop} {op : Op} {answer : Answer} :
    Disciplined S copied → S.Respects op → S.step op = .ok (.ok (answer, S')) →
      Disciplined S' fun ids s => copied ids s ∨ S.Copies op ids s

theorem Disciplined.reachable (disciplined : S.Disciplined copied) : S.Reachable := by
  induction disciplined with
  | new => exact .new
  | step _ _ ran ih => exact ih.step ran

/-- Operations for which their callers name no states keep the discipline. -/
theorem Disciplined.after {ops : List Op} (disciplined : S.Disciplined copied)
    (nameless : ∀ op ∈ ops, op.names = []) (ran : S.after ops = some S') :
    ∃ copied', S'.Disciplined copied' ∧
      ((∀ op ∈ ops, op.copies? = none) → ∀ ids s, copied' ids s → copied ids s) := by
  induction ops generalizing S copied with
  | nil =>
      cases ran
      exact ⟨copied, disciplined, fun _ _ _ => id⟩
  | cons op rest ih =>
      obtain ⟨here, later⟩ := List.forall_mem_cons.mp nameless
      have respects : S.Respects op := by
        intro m taken K held s named
        rw [here] at named
        cases named
      unfold Session.after at ran
      split at ran
      · rename_i stepped
        obtain ⟨copied', disciplined', less⟩ := ih (disciplined.step respects stepped) later ran
        refine ⟨copied', disciplined', ?_⟩
        intro uncopied ids s member
        obtain ⟨keeps, uncopied⟩ := List.forall_mem_cons.mp uncopied
        rcases less uncopied ids s member with before | ⟨m, K, copies, _⟩
        · exact before
        · rw [keeps] at copies
          cases copies
      · cases ran

/-- Different automata of one counter have no states in common but those that were copied. -/
def Apart (S : Session) (copied : AllocatorId → State → Prop) : Prop :=
  ∀ ⦃m n : Slot⦄ ⦃M N : Machine⦄, m ≠ n → S.automata[m]? = some M → S.automata[n]? = some N →
    M.ids = N.ids → ∀ ⦃s : State⦄, s ∈ M.states → s ∈ N.states → copied M.ids s

/-- The result of an operation meets an automaton that stays only in copied states: what is drawn is
new, and what is taken over belonged to another automaton. -/
theorem Apart.copied_of_drawn (apart : S.Apart copied) (sound : S.Sound) (respects : S.Respects op)
    {c : Counter} (drawn : M.Drawn M.ids (S.Supplies op M.ids) (S.counter M.ids) c)
    (stays : op.result? ≠ some n ∧ op.frees? ≠ some n) (held : S.automata[n]? = some N)
    (shared : M.ids = N.ids) {s : State} (inside : s ∈ M.states) (also : s ∈ N.states) :
    copied M.ids s ∨ S.Copies op M.ids s := by
  rcases drawn.origin inside with ⟨k, taken, K, heldK, idsK, source⟩ | issued
  · have member : s ∈ K.states := source.elim id (respects k taken heldK s)
    by_cases same : k = n
    · subst same
      rcases Op.mem_takes taken with result | given | copies
      · exact absurd result stays.1
      · exact absurd given stays.2
      · exact .inr ⟨k, K, copies, heldK, idsK, member⟩
    · left
      rw [← idsK]
      exact apart same heldK held (idsK.trans shared) member also
  · have below := (sound.machines held).below also
    rw [← shared] at below
    omega

theorem Effect.apart (sound : S.Sound) (apart : S.Apart copied) (respects : S.Respects op)
    (effect : S.Effect op S') : S'.Apart fun ids s => copied ids s ∨ S.Copies op ids s := by
  intro m n M N different heldM heldN shared s inside also
  rcases effect.origin heldM with ⟨leftM, freesM, oldM⟩ | ⟨resultM, _, drawnM⟩
  · rcases effect.origin heldN with ⟨_, _, oldN⟩ | ⟨_, _, drawnN⟩
    · exact .inl (apart different oldM oldN shared inside also)
    · rw [shared]
      exact apart.copied_of_drawn sound respects drawnN ⟨leftM, freesM⟩ oldM shared.symm also
        inside
  · rcases effect.origin heldN with ⟨leftN, freesN, oldN⟩ | ⟨resultN, _, _⟩
    · exact apart.copied_of_drawn sound respects drawnM ⟨leftN, freesN⟩ oldN shared inside also
    · exact absurd (Option.some.inj (resultM.symm.trans resultN)) different

theorem Disciplined.apart (disciplined : S.Disciplined copied) : S.Apart copied := by
  induction disciplined with
  | new =>
      intro m n M N _ held
      rw [Std.ExtTreeMap.getElem?_empty] at held
      cases held
  | step before respects ran ih =>
      have sound := before.reachable.sound
      exact (step_effect sound ran).apart sound ih respects

/-! Merging. -/

/-- Two automata of one counter share no states but copied ones; if no state of the first was copied
they can be merged. A union needs two more identifiers. -/
theorem automata_share_copies_only (disciplined : S.Disciplined copied) (different : m ≠ n)
    (heldM : S.automata[m]? = some M) (heldN : S.automata[n]? = some N) (shared : M.ids = N.ids) :
    (∀ s, s ∈ M.states → s ∈ N.states → copied M.ids s) ∧
    ∀ {A B : Nfa}, M = .nfa A → N = .nfa B → (∀ s ∈ A.states, ¬copied A.ids s) →
      (∃ C S', S.step (.concat m n) = .ok (.ok (.report (Nfa.report C), S')) ∧
        S'.automata[m]? = some (.nfa C) ∧ C.language = A.language * B.language) ∧
      ((S.counter A.ids).next + 2 ≤ UInt32.size →
        ∃ C S', S.step (.union m n) = .ok (.ok (.report (Nfa.report C), S')) ∧
          S'.automata[m]? = some (.nfa C) ∧ C.language = A.language + B.language) := by
  have common : ∀ s, s ∈ M.states → s ∈ N.states → copied M.ids s :=
    fun _ inside also => disciplined.apart different heldM heldN shared inside also
  refine ⟨common, ?_⟩
  rintro A B rfl rfl original
  have apart : ∀ s ∈ A.states, s ∉ B.states :=
    fun s inside also => original s inside (common s inside also)
  have same : A.ids = B.ids := shared
  have sound := disciplined.reachable.sound
  have soundA : A.Sound (S.counter A.ids) := sound.machines heldM
  have soundB : B.Sound (S.counter A.ids) := same ▸ sound.machines heldN
  constructor
  · have merges : S.step (.concat m n) = (S.release n).build m A.ids (.nfa <$> A.concat B) := by
      rw [step, withNfa_of_held heldM, withNfa_of_held heldN]
    have ran := Nfa.concat_eq_append same (S.counter A.ids)
    obtain ⟨S', built, held⟩ := build_of_ok (S := S.release n) (m := m) ran
    exact ⟨A.append B, S', merges.trans built, held, Nfa.language_concat soundA soundB apart ran⟩
  · intro room
    have merges : S.step (.union m n) = (S.release n).build m A.ids (.nfa <$> A.union B) := by
      rw [step, withNfa_of_held heldM, withNfa_of_held heldN]
    obtain ⟨C, c, ran⟩ := Nfa.union_of_room same room
    obtain ⟨S', built, held⟩ := build_of_ok (S := S.release n) (m := m) ran
    exact ⟨C, S', merges.trans built, held, Nfa.language_union soundA soundB apart ran⟩

/-- Two literals, of which the second is determinized and complemented where it stands. -/
def neighbours : List Op :=
  [.newAllocator "i", .literal "a" "i" "x", .literal "b" "i" "y", .toDfa "b" "d",
    .complement "d" "d", .toNfa "d" "d"]

theorem automata_share_copies_only_neighbours :
    ∃ (S : Session) (A B : Nfa), S.counters.size = 1 ∧ S.automata["a"]? = some (.nfa A) ∧
      S.automata["d"]? = some (.nfa B) ∧ (∀ s, s ∈ A.states → s ∉ B.states) ∧
      (∃ C S', S.step (.concat "a" "d") = .ok (.ok (.report (Nfa.report C), S')) ∧
        S'.automata["a"]? = some (.nfa C) ∧ C.language = A.language * B.language) ∧
      ∃ C S', S.step (.union "a" "d") = .ok (.ok (.report (Nfa.report C), S')) ∧
        S'.automata["a"]? = some (.nfa C) ∧ C.language = A.language + B.language := by
  have computed : ((after {} neighbours).bind fun S => (S.nfa? "a").bind fun A =>
      (S.nfa? "d").bind fun B =>
        if S.counters.size = 1 ∧ A.ids = B.ids ∧ (S.counter A.ids).next + 2 ≤ UInt32.size then
          some (S, A, B) else none).isSome = true := by cbv
  obtain ⟨⟨S, A, B⟩, chained⟩ := Option.isSome_iff_exists.mp computed
  obtain ⟨S, ran, chained⟩ := Option.bind_eq_some_iff.mp chained
  obtain ⟨A, heldA, chained⟩ := Option.bind_eq_some_iff.mp chained
  obtain ⟨B, heldB, chained⟩ := Option.bind_eq_some_iff.mp chained
  obtain ⟨⟨single, shared, room⟩, same⟩ := Option.ite_none_right_eq_some.mp chained
  cases same
  have heldA := nfa?_eq_some_iff.mp heldA
  have heldB := nfa?_eq_some_iff.mp heldB
  obtain ⟨copied, disciplined, less⟩ := Disciplined.new.after (by decide) ran
  have original : ∀ ids s, ¬copied ids s := less (by decide)
  obtain ⟨common, merges⟩ := automata_share_copies_only disciplined (by decide) heldA heldB shared
  obtain ⟨concat, union⟩ := merges rfl rfl fun s _ => original _ s
  exact ⟨S, A, B, single, heldA, heldB, fun s inside also => original _ s (common s inside also),
    concat, union room⟩

/-- A complement beside its automaton: the two have a state in common. Appending the one to the
other is not refused, and the outcome accepts the empty input, which the first does not accept. -/
theorem complement_shares_states :
    ∃ (S S' : Session) (copied : AllocatorId → State → Prop) (D E R : Dfa),
      S.Disciplined copied ∧ S.counters.size = 1 ∧ S.automata["d"]? = some (.dfa D) ∧
      S.automata["e"]? = some (.dfa E) ∧ (∃ s, s ∈ D.states ∧ s ∈ E.states) ∧
      D.accepts [] = false ∧
      S.after [.toNfa "d" "d", .toNfa "e" "e", .concat "d" "e", .toDfa "d" "r"] = some S' ∧
      S'.automata["r"]? = some (.dfa R) ∧ R.accepts [] = true := by
  have computed : ((after {} [.newAllocator "i", .literal "n" "i" "a", .toDfa "n" "d",
      .complement "d" "e"]).bind fun S => (S.dfa? "d").bind fun D => (S.dfa? "e").bind fun E =>
      (S.after [.toNfa "d" "d", .toNfa "e" "e", .concat "d" "e", .toDfa "d" "r"]).bind fun S' =>
      (S'.dfa? "r").bind fun R =>
        if S.counters.size = 1 ∧ (∃ s ∈ D.states.toList, s ∈ E.states) ∧ D.accepts [] = false ∧
          R.accepts [] = true then some (S, S', D, E, R) else none).isSome = true := by cbv
  obtain ⟨⟨S, S', D, E, R⟩, chained⟩ := Option.isSome_iff_exists.mp computed
  obtain ⟨S, ran, chained⟩ := Option.bind_eq_some_iff.mp chained
  obtain ⟨D, heldD, chained⟩ := Option.bind_eq_some_iff.mp chained
  obtain ⟨E, heldE, chained⟩ := Option.bind_eq_some_iff.mp chained
  obtain ⟨S', merged, chained⟩ := Option.bind_eq_some_iff.mp chained
  obtain ⟨R, heldR, chained⟩ := Option.bind_eq_some_iff.mp chained
  obtain ⟨⟨single, ⟨s, inside, also⟩, rejects, accepts⟩, same⟩ :=
    Option.ite_none_right_eq_some.mp chained
  cases same
  obtain ⟨copied, disciplined, _⟩ := Disciplined.new.after (by decide) ran
  exact ⟨S, S', copied, D, E, R, disciplined, single, dfa?_eq_some_iff.mp heldD,
    dfa?_eq_some_iff.mp heldE, ⟨s, Std.ExtTreeSet.mem_toList.mp inside, also⟩, rejects, merged,
    dfa?_eq_some_iff.mp heldR, accepts⟩

end Session

end PostfixAutomata
