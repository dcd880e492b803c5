import PostfixAutomata.Proofs.Allocation

set_option autoImplicit false

/-!
A counter as it is kept: a 64-bit word that whoever holds it updates in single steps, and from which
an identifier takes 32 bits. The word does not wrap and the cut loses nothing: a call on the word
comes to what it comes to on the counter, also where no identifier is left.
-/

namespace PostfixAutomata

namespace State

/-- The state whose identifier is a 32-bit word. -/
def ofWord (w : UInt32) : State := ⟨w.toNat, w.toNat_lt⟩

/-- The identifier of a state as a 32-bit word. -/
def word (s : State) : UInt32 := .ofNatLT s.id s.id_lt

end State

/-- A call on a counter. -/
inductive Call
  | issue
  | observe (s : State)

/-- What a call on a counter comes to. -/
inductive Event
  | issued (s : State)
  | observed (s : State)
  /-- A state was asked for, and no identifier is left. -/
  | exhausted
deriving DecidableEq

namespace Event

/-- The call that comes to an event. -/
def call : Event → Call
  | issued _ | exhausted => .issue
  | observed s => .observe s

def issued? : Event → Option State
  | issued s => some s
  | observed _ | exhausted => none

/-- The state that an event takes, by issuing or by observing it. -/
def taken? : Event → Option State
  | issued s | observed s => some s
  | exhausted => none

theorem taken?_of_issued? {event : Event} {s : State} (issues : event.issued? = some s) :
    event.taken? = some s := by
  cases event with
  | issued t => exact issues
  | observed | exhausted => cases issues

/-- The states that some events take. -/
def taken (events : List Event) : List State := events.filterMap taken?

end Event

/-- A 64-bit word that is updated in single steps. -/
structure Register where
  word : UInt64 := 0

namespace Register

/-- The counter that a register keeps. -/
def counter (r : Register) : Counter := ⟨r.word.toNat⟩

/-- Replaces the word by what `advance` makes of it and returns the word that was there. A word that
`advance` makes nothing of is left alone. -/
def fetchUpdate (r : Register) (advance : UInt64 → Option UInt64) :
    Except UInt64 UInt64 × Register :=
  match advance r.word with
  | some next => (.ok r.word, ⟨next⟩)
  | none => (.error r.word, r)

/-- Replaces the word by a larger one and returns the word that was there. -/
def fetchMax (r : Register) (least : UInt64) : UInt64 × Register :=
  (r.word, ⟨max r.word least⟩)

/-- Serves a call. The word moves by one for a state while the word itself still fits into 32 bits,
and past a state that is observed. -/
def serve (r : Register) : Call → Event × Register
  | .issue =>
    match r.fetchUpdate fun next => if next ≤ 0xffffffff then some (next + 1) else none with
    | (.ok id, r) => (.issued (.ofWord id.toUInt32), r)
    | (.error _, r) => (.exhausted, r)
  | .observe s => (.observed s, (r.fetchMax (s.word.toUInt64 + 1)).2)

/-- Serves calls one after another. -/
def serveAll (r : Register) : List Call → List Event × Register
  | [] => ([], r)
  | call :: rest =>
    let (event, r) := r.serve call
    let (events, r) := r.serveAll rest
    (event :: events, r)

variable {r : Register}

theorem le_max_iff : r.word ≤ 0xffffffff ↔ r.counter.next < UInt32.size := by
  rw [UInt64.le_iff_toNat_le]
  exact Nat.lt_succ_iff.symm

/-- While a word fits into 32 bits, it is the next state as a whole. -/
theorem serve_issue_of_room (room : r.counter.next < UInt32.size) :
    ∃ r', r.serve .issue = (.issued (r.counter.issue room).1, r') ∧
      r'.counter = (r.counter.issue room).2 := by
  have small : r.word.toNat < 2 ^ 32 := room
  have whole : State.ofWord r.word.toUInt32 = (r.counter.issue room).1 := by
    apply State.ext
    change r.word.toUInt32.toNat = r.word.toNat
    rw [UInt64.toNat_toUInt32, Nat.mod_eq_of_lt small]
  refine ⟨⟨r.word + 1⟩, ?_, ?_⟩
  · simp only [serve, fetchUpdate, le_max_iff.mpr room, ↓reduceIte, whole]
  · change (⟨(r.word + 1).toNat⟩ : Counter) = ⟨r.word.toNat + 1⟩
    have unwrapped : (r.word.toNat + 1) % 2 ^ 64 = r.word.toNat + 1 :=
      Nat.mod_eq_of_lt (by omega)
    rw [UInt64.toNat_add, UInt64.toNat_one, unwrapped]

/-- A word that is past 32 bits is left alone. -/
theorem serve_issue_of_spent (spent : UInt32.size ≤ r.counter.next) :
    r.serve .issue = (.exhausted, r) := by
  have large : ¬r.word ≤ 0xffffffff := fun small => Nat.not_lt.mpr spent (le_max_iff.mp small)
  simp only [serve, fetchUpdate, large, ↓reduceIte]

theorem serve_observe (r : Register) (s : State) :
    ∃ r', r.serve (.observe s) = (.observed s, r') ∧ r'.counter = r.counter.observe s := by
  refine ⟨_, rfl, ?_⟩
  have fits : s.id < 2 ^ 32 := s.id_lt
  have past : (s.word.toUInt64 + 1).toNat = s.id + 1 := by
    have same : s.word.toUInt64.toNat = s.id := by
      rw [UInt32.toNat_toUInt64, State.word, UInt32.toNat_ofNatLT]
    rw [UInt64.toNat_add, same, UInt64.toNat_one, Nat.mod_eq_of_lt (by omega)]
  change (⟨(if r.word ≤ s.word.toUInt64 + 1 then s.word.toUInt64 + 1 else r.word).toNat⟩ : Counter) =
    ⟨max r.word.toNat (s.id + 1)⟩
  congr 1
  split
  · rename_i le
    rw [UInt64.le_iff_toNat_le, past] at le
    rw [past, Nat.max_eq_right le]
  · rename_i lt
    rw [UInt64.le_iff_toNat_le, past] at lt
    rw [Nat.max_eq_left (by omega)]

end Register

end PostfixAutomata
