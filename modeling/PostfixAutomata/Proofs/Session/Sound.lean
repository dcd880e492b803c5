import PostfixAutomata.Proofs.Machine.Drawn
import PostfixAutomata.Session

set_option autoImplicit false

/-!
The invariant of sessions: every allocator and every automaton knows a counter of the session, and
every automaton is well-formed with all of its states below its counter. A session stays as good as
it was while its counters move on and further counters join them.
-/

namespace PostfixAutomata

namespace Session

/-- The sessions that operations lead to from an empty one. -/
inductive Reachable : Session → Prop
  | new : Reachable {}
  | step {S S' : Session} {op : Op} {answer : Answer} :
    Reachable S → S.step op = .ok (.ok (answer, S')) → Reachable S'

/-- The session after some operations, if all of them are carried out. -/
def after (S : Session) : List Op → Option Session
  | [] => some S
  | op :: rest =>
    match S.step op with
    | .ok (.ok (_, S)) => S.after rest
    | _ => none

theorem Reachable.after {S S' : Session} {ops : List Op} (reachable : S.Reachable)
    (ran : S.after ops = some S') : S'.Reachable := by
  induction ops generalizing S with
  | nil =>
      cases ran
      exact reachable
  | cons op rest ih =>
      unfold Session.after at ran
      split at ran
      · rename_i stepped
        exact ih (reachable.step stepped) ran
      · cases ran

/-- The nondeterministic automaton under a name. -/
def nfa? (S : Session) (m : Slot) : Option Nfa :=
  match S.automata[m]? with
  | some (.nfa A) => some A
  | _ => none

/-- The deterministic automaton under a name. -/
def dfa? (S : Session) (m : Slot) : Option Dfa :=
  match S.automata[m]? with
  | some (.dfa D) => some D
  | _ => none

theorem nfa?_eq_some_iff {S : Session} {m : Slot} {A : Nfa} :
    S.nfa? m = some A ↔ S.automata[m]? = some (.nfa A) := by
  unfold nfa?
  split
  · rename_i held
    rw [held, Option.some.injEq, Option.some.injEq, Machine.nfa.injEq]
  · rename_i other
    exact iff_of_false nofun (other A)

theorem dfa?_eq_some_iff {S : Session} {m : Slot} {D : Dfa} :
    S.dfa? m = some D ↔ S.automata[m]? = some (.dfa D) := by
  unfold dfa?
  split
  · rename_i held
    rw [held, Option.some.injEq, Option.some.injEq, Machine.dfa.injEq]
  · rename_i other
    exact iff_of_false nofun (other D)

/-- Whether an identifier names a counter of the session. -/
def Knows (S : Session) (ids : AllocatorId) : Prop := ids.index < S.counters.size

structure Sound (S : Session) : Prop where
  allocators : ∀ {slot : Slot} {ids : AllocatorId}, S.allocators[slot]? = some ids → S.Knows ids
  known : ∀ {slot : Slot} {M : Machine}, S.automata[slot]? = some M → S.Knows M.ids
  machines : ∀ {slot : Slot} {M : Machine}, S.automata[slot]? = some M → M.Sound (S.counter M.ids)

theorem sound_new : Sound {} := by
  refine ⟨?_, ?_, ?_⟩
  · intro slot ids found
    rw [Std.ExtTreeMap.getElem?_empty] at found
    cases found
  · intro slot M found
    rw [Std.ExtTreeMap.getElem?_empty] at found
    cases found
  · intro slot M found
    rw [Std.ExtTreeMap.getElem?_empty] at found
    cases found

variable {S S' : Session} {m : Slot} {ids : AllocatorId} {M : Machine}

/-! A further counter. -/

theorem Knows.addCounter (known : S.Knows ids) (c : Counter) : (S.addCounter c).2.Knows ids := by
  change ids.index < (S.counters.push c).size
  rw [Array.size_push]
  exact Nat.lt_succ_of_lt known

theorem knows_addCounter (S : Session) (c : Counter) :
    (S.addCounter c).2.Knows (S.addCounter c).1 := by
  change S.counters.size < (S.counters.push c).size
  rw [Array.size_push]
  exact Nat.lt_succ_self _

theorem counter_addCounter_old (known : S.Knows ids) (c : Counter) :
    (S.addCounter c).2.counter ids = S.counter ids := by
  change (S.counters.push c).getD ids.index {} = S.counters.getD ids.index {}
  rw [Array.getD_eq_getD_getElem?, Array.getD_eq_getD_getElem?, Array.getElem?_push_lt known,
    Array.getElem?_eq_getElem known]

theorem counter_addCounter_new (S : Session) (c : Counter) :
    (S.addCounter c).2.counter (S.addCounter c).1 = c := by
  change (S.counters.push c).getD S.counters.size {} = c
  rw [Array.getD_eq_getD_getElem?, Array.getElem?_push_size, Option.getD_some]

/-- A counter that the session does not know counts as one that has issued nothing. -/
theorem counter_of_not_knows (unknown : ¬S.Knows ids) : S.counter ids = {} := by
  change S.counters.getD ids.index {} = {}
  rw [Array.getD_eq_getD_getElem?, Array.getElem?_eq_none (Nat.le_of_not_lt unknown),
    Option.getD_none]

/-! A counter that moves on. -/

/-- The session with one of its counters set. -/
def setCounter (S : Session) (ids : AllocatorId) (c : Counter) : Session :=
  { S with counters := S.counters.setIfInBounds ids.index c }

theorem knows_setCounter {other : AllocatorId} {c : Counter} :
    (S.setCounter ids c).Knows other ↔ S.Knows other := by
  change other.index < (S.counters.setIfInBounds ids.index c).size ↔ other.index < S.counters.size
  rw [Array.size_setIfInBounds]

theorem counter_setCounter_self (known : S.Knows ids) (c : Counter) :
    (S.setCounter ids c).counter ids = c := by
  change (S.counters.setIfInBounds ids.index c).getD ids.index {} = c
  rw [Array.getD_eq_getD_getElem?, Array.getElem?_setIfInBounds_self_of_lt known, Option.getD_some]

theorem setCounter_counter (S : Session) (ids : AllocatorId) :
    S.setCounter ids (S.counter ids) = S := by
  have same : S.counters.setIfInBounds ids.index (S.counter ids) = S.counters := by
    rw [counter, Array.getD_eq_getD_getElem?]
    by_cases known : ids.index < S.counters.size
    · rw [Array.getElem?_eq_getElem known, Option.getD_some, Array.setIfInBounds, dif_pos known,
        Array.set_getElem_self]
    · rw [Array.setIfInBounds, dif_neg known]
  rw [setCounter, same]

theorem counter_setCounter_ne {other : AllocatorId} (different : other ≠ ids) (c : Counter) :
    (S.setCounter ids c).counter other = S.counter other := by
  have apart : ids.index ≠ other.index := by
    intro equal
    apply different
    cases other
    cases ids
    exact congrArg AllocatorId.mk equal.symm
  change (S.counters.setIfInBounds ids.index c).getD other.index {} =
    S.counters.getD other.index {}
  rw [Array.getD_eq_getD_getElem?, Array.getD_eq_getD_getElem?, Array.getElem?_setIfInBounds_ne apart]

/-! Sessions that come later. -/

/-- The counters of `S'` are those of `S`, moved on or left alone, and perhaps further ones. -/
structure Later (S S' : Session) : Prop where
  knows : ∀ {ids : AllocatorId}, S.Knows ids → S'.Knows ids
  counter : ∀ ids : AllocatorId, (S.counter ids).next ≤ (S'.counter ids).next
  allocators : ∀ {slot : Slot} {ids : AllocatorId}, S'.allocators[slot]? = some ids → S'.Knows ids

theorem Sound.later (sound : S.Sound) : S.Later S :=
  ⟨id, fun _ => Nat.le_refl _, sound.allocators⟩

theorem Sound.later_addCounter (sound : S.Sound) (c : Counter) : S.Later (S.addCounter c).2 := by
  refine ⟨fun known => known.addCounter c, ?_, fun found => (sound.allocators found).addCounter c⟩
  intro ids
  by_cases known : S.Knows ids
  · rw [counter_addCounter_old known]
  · rw [counter_of_not_knows known]
    exact Nat.zero_le _

theorem Sound.later_setCounter (sound : S.Sound) (known : S.Knows ids) {c : Counter}
    (grows : (S.counter ids).next ≤ c.next) : S.Later (S.setCounter ids c) := by
  refine ⟨knows_setCounter.mpr, ?_, fun found => knows_setCounter.mpr (sound.allocators found)⟩
  intro other
  by_cases same : other = ids
  · rw [same, counter_setCounter_self known]
    exact grows
  · rw [counter_setCounter_ne same]

/-- A further name for a counter changes no counter. -/
theorem Later.nameAllocator (later : S.Later S') (known : S'.Knows ids) (slot : Slot) :
    S.Later { S' with allocators := S'.allocators.insert slot ids } := by
  refine ⟨later.knows, later.counter, ?_⟩
  intro slot' ids' found
  rw [Std.ExtTreeMap.getElem?_insert] at found
  split at found
  · cases found
    exact known
  · exact later.allocators found

end Session

end PostfixAutomata
