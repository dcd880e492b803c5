import PostfixAutomata.Proofs.Allocation.Register
import PostfixAutomata.Proofs.Session.Step

set_option autoImplicit false

/-!
Calls on one counter through any number of handles, in any order. The counter always lies just above
all that was issued or observed through any of them; so what it issues is new, it stops for good
after the last identifier, and its calls come to what they come to on a 64-bit word.
-/

namespace PostfixAutomata

namespace Counter

variable {c : Counter}

/-- A counter that issues a state moves past it. -/
theorem observe_issue (room : c.next < UInt32.size) :
    c.observe (c.issue room).1 = (c.issue room).2 :=
  congrArg Counter.mk (Nat.max_eq_right (Nat.le_succ c.next))

theorem le_foldl_observe (states : List State) (c : Counter) :
    c.next ≤ (states.foldl observe c).next :=
  ((foldl_observe_le_iff states c _).mp (Nat.le_refl _)).1

theorem lt_foldl_observe {states : List State} {s : State} (member : s ∈ states) (c : Counter) :
    s.id < (states.foldl observe c).next :=
  ((foldl_observe_le_iff states c _).mp (Nat.le_refl _)).2 s member

theorem foldl_observe_le_size (states : List State) (bounded : c.next ≤ UInt32.size) :
    (states.foldl observe c).next ≤ UInt32.size :=
  (foldl_observe_le_iff states c _).mpr ⟨bounded, fun s _ => s.id_lt⟩

/-- Nothing is left above some states exactly if the last state is one of them. -/
theorem size_le_above_iff {states : List State} :
    UInt32.size ≤ (above states).next ↔ ∃ s ∈ states, s.id = 4294967295 := by
  have below : ¬UInt32.size ≤ (above states).next ↔ ∀ s ∈ states, s.id < 4294967295 := by
    rw [← next_above_le_iff, Nat.not_le]
    exact Nat.lt_succ_iff
  rw [← not_iff_not, below]
  constructor
  · rintro small ⟨s, member, last⟩
    exact Nat.ne_of_lt (small s member) last
  · intro missing s member
    have bound : s.id < 4294967296 := s.id_lt
    have other : s.id ≠ 4294967295 := fun last => missing ⟨s, member, last⟩
    omega

end Counter

namespace Session

variable {S S' T U : Session} {ids : AllocatorId} {handle : Slot} {s : State} {events : List Event}

/-! Single calls. -/

theorem step_issue_of_room (held : S.allocators[handle]? = some ids)
    (room : (S.counter ids).next < UInt32.size) :
    S.step (.issue handle) = .ok (.ok (.state ((S.counter ids).issue room).1,
      S.setCounter ids ((S.counter ids).issue room).2)) := by
  simp only [step, withAllocator, held, alloc, Alloc.run_fresh_of_room room]
  rfl

theorem step_issue_of_spent (held : S.allocators[handle]? = some ids)
    (spent : UInt32.size ≤ (S.counter ids).next) :
    S.step (.issue handle) = .error .identifiersExhausted := by
  simp only [step, withAllocator, held, alloc, Alloc.run_fresh_of_spent spent]
  rfl

theorem step_observe (held : S.allocators[handle]? = some ids) (s : State) :
    S.step (.observe handle s) =
      .ok (.ok (.nothing, S.setCounter ids ((S.counter ids).observe s))) := by
  simp only [step, withAllocator, held]
  rfl

/-- Calls on a counter, one at a time and each through some handle of it, and what they come to. A
caller that finds no identifier left ends, and the others go on from the same session. In between,
handles may come and go, and whatever else happens leaves the counter alone. -/
inductive Calls (ids : AllocatorId) : Session → List Event → Session → Prop
  | done (S : Session) : Calls ids S [] S
  | issued {S S' T : Session} {events : List Event} {handle : Slot} {s : State} :
    S.allocators[handle]? = some ids → S.step (.issue handle) = .ok (.ok (.state s, S')) →
      Calls ids S' events T → Calls ids S (.issued s :: events) T
  | observed {S S' T : Session} {events : List Event} {handle : Slot} {s : State} :
    S.allocators[handle]? = some ids → S.step (.observe handle s) = .ok (.ok (.nothing, S')) →
      Calls ids S' events T → Calls ids S (.observed s :: events) T
  | exhausted {S T : Session} {events : List Event} {handle : Slot} {d : Defect} :
    S.allocators[handle]? = some ids → S.step (.issue handle) = .error d →
      Calls ids S events T → Calls ids S (.exhausted :: events) T
  | other {S S' T : Session} {events : List Event} {op : Op} {answer : Answer} :
    S.step op = .ok (.ok (answer, S')) → S'.counter ids = S.counter ids →
      Calls ids S' events T → Calls ids S events T

/-- What an issued state is and where the counter is after it. -/
theorem step_issue_eq_ok (sound : S.Sound) (held : S.allocators[handle]? = some ids)
    (stepped : S.step (.issue handle) = .ok (.ok (.state s, S'))) :
    ∃ room : (S.counter ids).next < UInt32.size, s = ((S.counter ids).issue room).1 ∧
      S'.counter ids = ((S.counter ids).issue room).2 := by
  by_cases room : (S.counter ids).next < UInt32.size
  · rw [step_issue_of_room held room] at stepped
    cases stepped
    exact ⟨room, rfl, counter_setCounter_self (sound.allocators held) _⟩
  · rw [step_issue_of_spent held (Nat.le_of_not_lt room)] at stepped
    cases stepped

theorem step_issue_eq_error {d : Defect} (held : S.allocators[handle]? = some ids)
    (stepped : S.step (.issue handle) = .error d) : UInt32.size ≤ (S.counter ids).next := by
  refine Nat.le_of_not_lt fun room => ?_
  rw [step_issue_of_room held room] at stepped
  cases stepped

theorem step_observe_eq_ok (sound : S.Sound) (held : S.allocators[handle]? = some ids)
    (stepped : S.step (.observe handle s) = .ok (.ok (.nothing, S'))) :
    S'.counter ids = (S.counter ids).observe s := by
  rw [step_observe held] at stepped
  cases stepped
  exact counter_setCounter_self (sound.allocators held) _

/-! Runs of calls. -/

theorem Calls.sound (ran : S.Calls ids events T) (sound : S.Sound) : T.Sound := by
  induction ran with
  | done => exact sound
  | issued _ stepped _ ih => exact ih ((step_effect sound stepped).sound sound)
  | observed _ stepped _ ih => exact ih ((step_effect sound stepped).sound sound)
  | exhausted _ _ _ ih => exact ih sound
  | other stepped _ _ ih => exact ih ((step_effect sound stepped).sound sound)

/-- A counter moves past the states that its calls take, and no further. -/
theorem Calls.counter_eq (ran : S.Calls ids events T) (sound : S.Sound) :
    T.counter ids = (Event.taken events).foldl Counter.observe (S.counter ids) := by
  induction ran with
  | done => rfl
  | issued held stepped _ ih =>
      obtain ⟨room, rfl, advanced⟩ := step_issue_eq_ok sound held stepped
      rw [ih ((step_effect sound stepped).sound sound), advanced, ← Counter.observe_issue room]
      rfl
  | observed held stepped _ ih =>
      rw [ih ((step_effect sound stepped).sound sound), step_observe_eq_ok sound held stepped]
      rfl
  | exhausted _ _ _ ih => exact ih sound
  | other stepped same _ ih => rw [ih ((step_effect sound stepped).sound sound), same]

theorem Calls.le_counter (ran : S.Calls ids events T) (sound : S.Sound) :
    (S.counter ids).next ≤ (T.counter ids).next := by
  rw [ran.counter_eq sound]
  exact Counter.le_foldl_observe _ _

/-- What is issued from now on is not below the counter. -/
theorem Calls.le_issued (ran : S.Calls ids events T) (sound : S.Sound) :
    ∀ event ∈ events, ∀ s ∈ event.issued?, (S.counter ids).next ≤ s.id := by
  induction ran with
  | done => exact nofun
  | @issued S S' T events handle s held stepped _ ih =>
      obtain ⟨room, rfl, advanced⟩ := step_issue_eq_ok sound held stepped
      intro event member t issued
      rcases List.mem_cons.mp member with rfl | later
      · cases issued
        exact Nat.le_refl _
      · have above := ih ((step_effect sound stepped).sound sound) event later t issued
        rw [advanced] at above
        exact Nat.le_of_succ_le above
  | @observed S S' T events handle s held stepped _ ih =>
      intro event member t issued
      rcases List.mem_cons.mp member with rfl | later
      · cases issued
      · have above := ih ((step_effect sound stepped).sound sound) event later t issued
        rw [step_observe_eq_ok sound held stepped] at above
        exact (Nat.le_max_left _ _).trans above
  | exhausted _ _ _ ih =>
      intro event member t issued
      rcases List.mem_cons.mp member with rfl | later
      · cases issued
      · exact ih sound event later t issued
  | other stepped same _ ih =>
      rw [← same]
      exact ih ((step_effect sound stepped).sound sound)

/-- What is issued is above all that was taken before. -/
theorem Calls.pairwise (ran : S.Calls ids events T) (sound : S.Sound) :
    events.Pairwise fun earlier later => ∀ t ∈ earlier.taken?, ∀ s ∈ later.issued?,
      t.id < s.id := by
  induction ran with
  | done => exact .nil
  | @issued S S' T events handle s held stepped ran ih =>
      obtain ⟨room, rfl, advanced⟩ := step_issue_eq_ok sound held stepped
      have sound' := (step_effect sound stepped).sound sound
      refine .cons ?_ (ih sound')
      rintro event later t ⟨⟩ s issued
      have above := ran.le_issued sound' event later s issued
      rw [advanced] at above
      exact above
  | @observed S S' T events handle s held stepped ran ih =>
      have sound' := (step_effect sound stepped).sound sound
      refine .cons ?_ (ih sound')
      rintro event later t ⟨⟩ s' issued
      have above := ran.le_issued sound' event later s' issued
      rw [step_observe_eq_ok sound held stepped] at above
      exact (Nat.le_max_right _ _).trans above
  | exhausted _ _ _ ih => exact .cons (fun _ _ _ => nofun) (ih sound)
  | other stepped _ _ ih => exact ih ((step_effect sound stepped).sound sound)

/-- The same calls on a word come to the same. -/
theorem Calls.serveAll (ran : S.Calls ids events T) (sound : S.Sound) {r : Register}
    (kept : r.counter = S.counter ids) :
    ∃ r', r.serveAll (events.map Event.call) = (events, r') ∧ r'.counter = T.counter ids := by
  have served : ∀ {event : Event} {events : List Event} {r r' : Register} {T : Session},
      r.serve event.call = (event, r') →
      (∃ r'', r'.serveAll (events.map Event.call) = (events, r'') ∧
        r''.counter = T.counter ids) →
      ∃ r'', r.serveAll ((event :: events).map Event.call) = (event :: events, r'') ∧
        r''.counter = T.counter ids := by
    rintro event events r r' T first ⟨r'', rest, kept⟩
    refine ⟨r'', ?_, kept⟩
    rw [List.map_cons, Register.serveAll, first]
    simp only [rest]
  induction ran generalizing r with
  | done => exact ⟨r, rfl, kept⟩
  | issued held stepped _ ih =>
      obtain ⟨room, rfl, advanced⟩ := step_issue_eq_ok sound held stepped
      have sound' := (step_effect sound stepped).sound sound
      simp only [← kept] at room advanced ⊢
      obtain ⟨r', first, moved⟩ := Register.serve_issue_of_room room
      exact served first (ih sound' (moved.trans advanced.symm))
  | observed held stepped _ ih =>
      have advanced := step_observe_eq_ok sound held stepped
      obtain ⟨r', first, moved⟩ := r.serve_observe _
      rw [kept, ← advanced] at moved
      exact served first (ih ((step_effect sound stepped).sound sound) moved)
  | exhausted held stepped _ ih =>
      have spent := step_issue_eq_error held stepped
      rw [← kept] at spent
      exact served (Register.serve_issue_of_spent spent) (ih sound kept)
  | other stepped same _ ih =>
      exact ih ((step_effect sound stepped).sound sound) (kept.trans same.symm)

/-- What holds of a counter after some calls through its handles. -/
structure Issuing (ids : AllocatorId) (events : List Event) (T : Session) : Prop where
  /-- Identifiers are issued in ascending order. -/
  ascending : (events.filterMap Event.issued?).Pairwise fun s t => s.id < t.id
  /-- An identifier is issued only above all that were issued or observed before. -/
  fresh : events.Pairwise fun earlier later => ∀ t ∈ earlier.taken?, ∀ s ∈ later.issued?,
    t.id < s.id
  bounded : (T.counter ids).next ≤ UInt32.size
  grows : ∀ later U, T.Calls ids later U → (T.counter ids).next ≤ (U.counter ids).next
  /-- A state that is observed is below the counter from then on. -/
  observes : ∀ handle, T.allocators[handle]? = some ids → ∀ s, ∃ T',
    T.step (.observe handle s) = .ok (.ok (.nothing, T')) ∧ s.id < (T'.counter ids).next
  /-- Before the last identifier is taken, the counter itself is issued. -/
  issues : ∀ handle, T.allocators[handle]? = some ids →
    (∀ t ∈ Event.taken events, t.id ≠ 4294967295) → ∃ s T',
      T.step (.issue handle) = .ok (.ok (.state s, T')) ∧ s.id = (T.counter ids).next ∧
        (T'.counter ids).next = s.id + 1
  exhausted_iff : ∀ handle, T.allocators[handle]? = some ids →
    (T.step (.issue handle) = .error .identifiersExhausted ↔
      ∃ t ∈ Event.taken events, t.id = 4294967295)
  /-- After the last identifier is taken, the counter stays and nothing is issued. -/
  ends : (∃ t ∈ Event.taken events, t.id = 4294967295) → ∀ later U, T.Calls ids later U →
    U.counter ids = T.counter ids ∧ ∀ handle, U.allocators[handle]? = some ids →
      U.step (.issue handle) = .error .identifiersExhausted
  /-- The calls come to the same on a word of 64 bits that is cut down to 32. -/
  word : ∃ r, Register.serveAll {} (events.map Event.call) = (events, r) ∧
    r.counter = T.counter ids

/-- Identifiers are never issued twice, and a counter never turns back: whatever calls its handles
make in whatever order, it issues new states in ascending order until the last one is taken, and
none from then on. -/
theorem handles_never_reissue {ids : AllocatorId} {events : List Event} {T : Session}
    (ran : Calls ids {} events T) : Issuing ids events T := by
  have sound := ran.sound sound_new
  have counter : T.counter ids = Counter.above (Event.taken events) := ran.counter_eq sound_new
  have bounded : ∀ {later U}, T.Calls ids later U → (U.counter ids).next ≤ UInt32.size := by
    intro later U more
    rw [more.counter_eq sound, counter]
    exact Counter.foldl_observe_le_size _ (Counter.foldl_observe_le_size _ (Nat.zero_le _))
  have spent_iff : UInt32.size ≤ (T.counter ids).next ↔
      ∃ t ∈ Event.taken events, t.id = 4294967295 := by
    rw [counter]
    exact Counter.size_le_above_iff
  constructor
  case ascending =>
    rw [List.pairwise_filterMap]
    exact (ran.pairwise sound_new).imp fun above s first t second =>
      above s (Event.taken?_of_issued? first) t second
  case fresh => exact ran.pairwise sound_new
  case bounded => exact bounded (.done T)
  case grows => exact fun later U more => more.le_counter sound
  case observes =>
    intro handle held s
    refine ⟨_, step_observe held s, ?_⟩
    rw [counter_setCounter_self (sound.allocators held)]
    exact Nat.le_max_right _ _
  case issues =>
    intro handle held unspent
    have room : (T.counter ids).next < UInt32.size := by
      refine Nat.lt_of_not_le fun spent => ?_
      obtain ⟨t, member, last⟩ := spent_iff.mp spent
      exact unspent t member last
    refine ⟨_, _, step_issue_of_room held room, rfl, ?_⟩
    rw [counter_setCounter_self (sound.allocators held)]
    rfl
  case exhausted_iff =>
    intro handle held
    rw [← spent_iff]
    exact ⟨step_issue_eq_error held, step_issue_of_spent held⟩
  case ends =>
    intro last later U more
    have spent := spent_iff.mpr last
    have still := spent.trans (more.le_counter sound)
    refine ⟨?_, fun handle held => step_issue_of_spent held still⟩
    have first := Nat.le_antisymm spent (bounded (.done T))
    have second := Nat.le_antisymm still (bounded more)
    exact congrArg Counter.mk (second.symm.trans first)
  case word => exact ran.serveAll sound_new rfl

/-- A handle of a new counter. -/
def single : Session where
  counters := #[{}]
  allocators := Std.ExtTreeMap.insert ∅ "a" ⟨0⟩

/-- A further handle of it, and calls through both. The last identifier but one is observed through
one handle and the last one issued through the other, which leaves none for the first. -/
theorem handles_never_reissue_last :
    ∃ (events : List Event) (T : Session), Calls ⟨0⟩ {} events T ∧
      events = [.observed ⟨4294967294, by decide⟩, .issued ⟨4294967295, by decide⟩, .exhausted] ∧
      Issuing ⟨0⟩ events T := by
  let both : Session := { single with allocators := single.allocators.insert "b" ⟨0⟩ }
  let reached : Nat → Session := fun next => both.setCounter ⟨0⟩ ⟨next⟩
  have a : both.allocators["a"]? = some ⟨0⟩ := by cbv
  have b : both.allocators["b"]? = some ⟨0⟩ := by cbv
  have made : Session.step {} (.newAllocator "a") = .ok (.ok (.nothing, single)) := rfl
  have cloned : single.step (.cloneAllocator "b" "a") = .ok (.ok (.nothing, both)) := by
    rw [step, withAllocator, single, Std.ExtTreeMap.getElem?_insert_self]
    rfl
  have first : both.step (.observe "b" ⟨4294967294, by decide⟩) =
      .ok (.ok (.nothing, reached 4294967295)) := step_observe b _
  have second : (reached 4294967295).step (.issue "a") =
      .ok (.ok (.state ⟨4294967295, by decide⟩, reached 4294967296)) :=
    step_issue_of_room (S := reached 4294967295) a (by decide)
  have third : (reached 4294967296).step (.issue "b") = .error .identifiersExhausted :=
    step_issue_of_spent (S := reached 4294967296) b (by decide)
  have ran : Calls ⟨0⟩ {} _ (reached 4294967296) :=
    .other made rfl (.other cloned rfl (.observed b first (.issued a second
      (.exhausted b third (.done _)))))
  exact ⟨_, _, ran, rfl, handles_never_reissue ran⟩

end Session

end PostfixAutomata
