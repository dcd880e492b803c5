import PostfixAutomata.Defect
import PostfixAutomata.State

set_option autoImplicit false

/-!
Issuing fresh states. Automata that may be merged share one counter; the counter moves past every
state that it issues and past every state that it is shown, so an issued state is new to all of
them.
-/

namespace PostfixAutomata

/-- Names a counter. Automata with equal names draw their states from the same counter. -/
structure AllocatorId where
  index : Nat
deriving DecidableEq

/-- Some counter other than this one. -/
def AllocatorId.another (ids : AllocatorId) : AllocatorId := ⟨ids.index + 1⟩

theorem AllocatorId.another_ne (ids : AllocatorId) : ids.another ≠ ids := by
  intro same
  have := congrArg AllocatorId.index same
  simp only [another] at this
  omega

/-- The least identifier that has been neither issued nor observed, nor will be skipped. -/
structure Counter where
  next : Nat := 0
deriving DecidableEq

namespace Counter

/-- The next state and the counter after it. -/
def issue (c : Counter) (left : c.next < UInt32.size) : State × Counter :=
  (⟨c.next, left⟩, ⟨c.next + 1⟩)

/-- The next state and the counter after it, while there are identifiers left. -/
def fresh? (c : Counter) : Option (State × Counter) :=
  if left : c.next < UInt32.size then some (c.issue left) else none

/-- Moves the counter past a state, and never back. -/
def observe (c : Counter) (s : State) : Counter := ⟨max c.next (s.id + 1)⟩

/-- The counter that lies just above a list of states, and at zero if there are none. -/
def above (states : List State) : Counter := states.foldl observe {}

theorem fresh?_eq_some_iff {c c' : Counter} {s : State} :
    c.fresh? = some (s, c') ↔ s.id = c.next ∧ c'.next = c.next + 1 := by
  unfold fresh?
  split
  · rw [issue, Option.some.injEq, Prod.mk.injEq]
    constructor
    · rintro ⟨rfl, rfl⟩
      exact ⟨rfl, rfl⟩
    · rintro ⟨identifier, advanced⟩
      exact ⟨State.ext identifier.symm, by cases c'; simp_all⟩
  · rename_i spent
    constructor
    · intro impossible
      cases impossible
    · rintro ⟨identifier, _⟩
      exact absurd (identifier ▸ s.id_lt) spent

theorem fresh?_eq_none_iff {c : Counter} : c.fresh? = none ↔ UInt32.size ≤ c.next := by
  unfold fresh?
  split <;> simp <;> omega

@[simp] theorem next_observe (c : Counter) (s : State) :
    (c.observe s).next = max c.next (s.id + 1) := rfl

theorem foldl_observe_le_iff (states : List State) (c : Counter) (bound : Nat) :
    (states.foldl observe c).next ≤ bound ↔ c.next ≤ bound ∧ ∀ s ∈ states, s.id < bound := by
  induction states generalizing c with
  | nil => simp
  | cons s rest ih =>
      simp only [List.foldl_cons, ih, next_observe, List.mem_cons, forall_eq_or_imp,
        Nat.max_le, Nat.succ_le_iff, and_assoc]

/-- The counter above some states is the least one above each of them. -/
theorem next_above_le_iff (states : List State) (bound : Nat) :
    (above states).next ≤ bound ↔ ∀ s ∈ states, s.id < bound := by
  simp [above, foldl_observe_le_iff]

end Counter

/-- A computation that draws states from one counter and may run out of them. -/
abbrev Alloc := StateT Counter (Except Defect)

namespace Alloc

/-- Issues a state. -/
def fresh : Alloc State := fun c =>
  match c.fresh? with
  | some issued => .ok issued
  | none => .error .identifiersExhausted

/-- Keeps a state from being issued later. -/
def observe (s : State) : Alloc Unit := modify (·.observe s)

/-- Ends the computation. -/
def fail {α : Type} (d : Defect) : Alloc α := fun _ => .error d

/-- Runs a computation on a counter of its own, which nothing else sees. -/
def runPrivately {α : Type} (x : Alloc α) : Except Defect α := x.run' {}

end Alloc

end PostfixAutomata
