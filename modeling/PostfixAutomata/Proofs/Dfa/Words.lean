import Mathlib.Data.List.Shortlex
import PostfixAutomata.Dfa.Words
import PostfixAutomata.Proofs.Dfa.Runs

set_option autoImplicit false

/-!
The enumeration of accepted inputs. A level holds the inputs of one length that the automaton can
read from its start, in ascending order; to extend a level gives the next one. So the levels up to a
bound list every accepted input within it, shortest first and by code point within a length. That is
what is left of all inputs over the alphabet when each of them is tried (`words_eq_filter`).
-/

namespace PostfixAutomata

/-- The order of a listing: by length, and within a length by code point. -/
abbrev Precedes (input later : List Char) : Prop := List.Shortlex (· < ·) input later

/-- Inputs of one length keep their order when they are continued. -/
theorem lex_append {s t : List Char} (less : List.Lex (· < ·) s t) (same : s.length = t.length)
    (u v : List Char) : List.Lex (· < ·) (s ++ u) (t ++ v) := by
  induction less with
  | nil => cases same
  | cons _ ih => exact .cons (ih (Nat.succ.inj same))
  | rel first => exact .rel first

instance : Std.Asymm Precedes := inferInstanceAs (Std.Asymm (List.Shortlex (· < ·)))

theorem nodup_of_precedes {inputs : List (List Char)} (ordered : inputs.Pairwise Precedes) :
    inputs.Nodup := by
  refine ordered.imp ?_
  rintro input _ before rfl
  exact Std.Asymm.asymm _ _ before before

/-- A listing is determined by what it lists. -/
theorem eq_of_mem_iff {inputs inputs' : List (List Char)} (ordered : inputs.Pairwise Precedes)
    (ordered' : inputs'.Pairwise Precedes) (same : ∀ input, input ∈ inputs ↔ input ∈ inputs') :
    inputs = inputs' := by
  have permuted : inputs.Perm inputs' :=
    (List.perm_ext_iff_of_nodup (nodup_of_precedes ordered) (nodup_of_precedes ordered')).mpr same
  refine permuted.eq_of_pairwise ?_ ordered ordered'
  intro input later _ _ before after
  exact absurd after (Std.Asymm.asymm _ _ before)

namespace Alphabet

/-- All inputs of a length. -/
def inputsOfLength (alphabet : Alphabet) : Nat → List (List Char)
  | 0 => [[]]
  | k + 1 => alphabet.toList.flatMap fun c => (inputsOfLength alphabet k).map (c :: ·)

/-- All inputs of at most a length, shortest first. -/
def inputsUpTo (alphabet : Alphabet) (bound : Nat) : List (List Char) :=
  (List.range (bound + 1)).flatMap (inputsOfLength alphabet)

theorem toList_ascending (alphabet : Alphabet) : alphabet.toList.Pairwise (· < ·) :=
  alphabet.ordered_toList.imp fun less => (compareOfLessAndEq_eq_lt.mp less : _ < _)

theorem mem_inputsOfLength_iff {alphabet : Alphabet} {k : Nat} {input : List Char} :
    input ∈ inputsOfLength alphabet k ↔ input.length = k ∧ ∀ c ∈ input, c ∈ alphabet := by
  induction k generalizing input with
  | zero =>
      rw [inputsOfLength, List.mem_singleton, List.length_eq_zero_iff]
      exact ⟨fun same => ⟨same, same ▸ nofun⟩, And.left⟩
  | succ k ih =>
      simp only [inputsOfLength, List.mem_flatMap, List.mem_map, Std.ExtTreeSet.mem_toList, ih]
      constructor
      · rintro ⟨c, symbol, rest, ⟨length, known⟩, rfl⟩
        exact ⟨congrArg (· + 1) length, List.forall_mem_cons.mpr ⟨symbol, known⟩⟩
      · rintro ⟨length, known⟩
        cases input with
        | nil => cases length
        | cons c rest =>
            obtain ⟨symbol, known⟩ := List.forall_mem_cons.mp known
            exact ⟨c, symbol, rest, ⟨Nat.succ.inj length, known⟩, rfl⟩

theorem inputsOfLength_ascending (alphabet : Alphabet) (k : Nat) :
    (inputsOfLength alphabet k).Pairwise (List.Lex (· < ·)) := by
  induction k with
  | zero => exact List.pairwise_singleton _ _
  | succ k ih =>
      rw [inputsOfLength, List.pairwise_flatMap]
      constructor
      · intro c _
        rw [List.pairwise_map]
        exact ih.imp .cons
      · refine (toList_ascending alphabet).imp ?_
        intro c d less input member input' member'
        obtain ⟨rest, _, rfl⟩ := List.mem_map.mp member
        obtain ⟨rest', _, rfl⟩ := List.mem_map.mp member'
        exact .rel less

theorem mem_inputsUpTo_iff {alphabet : Alphabet} {bound : Nat} {input : List Char} :
    input ∈ inputsUpTo alphabet bound ↔ input.length ≤ bound ∧ ∀ c ∈ input, c ∈ alphabet := by
  simp only [inputsUpTo, List.mem_flatMap, List.mem_range, mem_inputsOfLength_iff,
    Nat.lt_succ_iff]
  constructor
  · rintro ⟨k, within, rfl, known⟩
    exact ⟨within, known⟩
  · rintro ⟨within, known⟩
    exact ⟨_, within, rfl, known⟩

theorem inputsUpTo_pairwise (alphabet : Alphabet) (bound : Nat) :
    (inputsUpTo alphabet bound).Pairwise Precedes := by
  rw [inputsUpTo, List.pairwise_flatMap]
  constructor
  · intro k _
    refine (inputsOfLength_ascending alphabet k).imp_of_mem ?_
    intro input later member member' less
    have length := (mem_inputsOfLength_iff.mp member).1
    have length' := (mem_inputsOfLength_iff.mp member').1
    exact .of_lex (length.trans length'.symm) less
  · refine List.pairwise_lt_range.imp ?_
    intro k k' shorter input member later member'
    have length := (mem_inputsOfLength_iff.mp member).1
    have length' := (mem_inputsOfLength_iff.mp member').1
    exact .of_length_lt (by omega)

end Alphabet

namespace Dfa

variable {D : Dfa} {start : State} {k : Nat} {trails : List Trail}

/-- The trails are those of the inputs of length `k` that can be read from a state, in order. -/
structure Level (D : Dfa) (start : State) (k : Nat) (trails : List Trail) : Prop where
  mem_iff : ∀ {read : List Char} {s : State},
    (read, s) ∈ trails ↔ read.length = k ∧ D.runFrom start read.reverse = some s
  ascending : trails.Pairwise fun t u => List.Lex (· < ·) t.1.reverse u.1.reverse

theorem level_zero (D : Dfa) (start : State) : D.Level start 0 [([], start)] := by
  refine ⟨?_, List.pairwise_singleton _ _⟩
  intro read s
  rw [List.mem_singleton, Prod.mk.injEq, List.length_eq_zero_iff]
  constructor
  · rintro ⟨rfl, rfl⟩
    exact ⟨rfl, rfl⟩
  · rintro ⟨rfl, reached⟩
    exact ⟨rfl, (Option.some.inj reached).symm⟩

theorem mem_extend_iff {read : List Char} {s : State} :
    (read, s) ∈ D.extend trails ↔
      ∃ before p c, (before, p) ∈ trails ∧ c ∈ D.alphabet ∧ D.target? p c = some s ∧
        read = c :: before := by
  simp only [extend, List.mem_flatMap, List.mem_filterMap, Option.map_eq_some_iff, Prod.exists,
    Prod.mk.injEq, Std.ExtTreeSet.mem_toList]
  constructor
  · rintro ⟨before, p, member, c, symbol, q, edge, rfl, rfl⟩
    exact ⟨before, p, c, member, symbol, edge, rfl⟩
  · rintro ⟨before, p, c, member, symbol, edge, rfl⟩
    exact ⟨before, p, member, c, symbol, s, edge, rfl, rfl⟩

theorem Level.extend (valid : D.WellFormed) (level : D.Level start k trails) :
    D.Level start (k + 1) (D.extend trails) := by
  constructor
  · intro read s
    rw [mem_extend_iff]
    constructor
    · rintro ⟨before, p, c, member, _, edge, rfl⟩
      obtain ⟨length, reached⟩ := level.mem_iff.mp member
      refine ⟨by rw [List.length_cons, length], ?_⟩
      rw [List.reverse_cons, runFrom_append, reached, Option.bind_some, runFrom, edge]
      rfl
    · rintro ⟨length, reached⟩
      cases read with
      | nil => cases length
      | cons c before =>
          rw [List.reverse_cons, runFrom_append] at reached
          obtain ⟨p, first, last⟩ := Option.bind_eq_some_iff.mp reached
          obtain ⟨q, edge, done⟩ := Option.bind_eq_some_iff.mp last
          cases done
          have member : (before, p) ∈ trails := level.mem_iff.mpr ⟨Nat.succ.inj length, first⟩
          exact ⟨before, p, c, member, symbol_mem valid edge, edge, rfl⟩
  · rw [Dfa.extend, List.pairwise_flatMap]
    constructor
    · rintro ⟨before, p⟩ _
      rw [List.pairwise_filterMap]
      refine (Alphabet.toList_ascending D.alphabet).imp ?_
      rintro c d less t found u found'
      obtain ⟨_, _, rfl⟩ := Option.map_eq_some_iff.mp found
      obtain ⟨_, _, rfl⟩ := Option.map_eq_some_iff.mp found'
      rw [List.reverse_cons, List.reverse_cons]
      exact List.Lex.append_left _ (.rel less) _
    · refine level.ascending.imp_of_mem ?_
      rintro ⟨before, p⟩ ⟨before', p'⟩ member member' less t listed u listed'
      have length := (level.mem_iff.mp member).1
      have length' := (level.mem_iff.mp member').1
      obtain ⟨c, _, found⟩ := List.mem_filterMap.mp listed
      obtain ⟨c', _, found'⟩ := List.mem_filterMap.mp listed'
      obtain ⟨_, _, rfl⟩ := Option.map_eq_some_iff.mp found
      obtain ⟨_, _, rfl⟩ := Option.map_eq_some_iff.mp found'
      rw [List.reverse_cons, List.reverse_cons]
      exact lex_append less (by simp [length, length']) [c] [c']

theorem Level.mem_acceptedOf_iff (level : D.Level start k trails) {input : List Char} :
    input ∈ D.acceptedOf trails ↔
      input.length = k ∧ ∃ stop, D.runFrom start input = some stop ∧ stop ∈ D.finals := by
  simp only [acceptedOf, List.mem_map, List.mem_filter, Std.ExtTreeSet.contains_iff_mem,
    Prod.exists, level.mem_iff]
  constructor
  · rintro ⟨read, stop, ⟨⟨length, reached⟩, final⟩, rfl⟩
    exact ⟨by rw [List.length_reverse, length], stop, reached, final⟩
  · rintro ⟨length, stop, reached, final⟩
    refine ⟨input.reverse, stop, ⟨⟨?_, ?_⟩, final⟩, input.reverse_reverse⟩
    · rw [List.length_reverse, length]
    · rw [List.reverse_reverse, reached]

theorem Level.acceptedOf_pairwise (level : D.Level start k trails) :
    (D.acceptedOf trails).Pairwise Precedes := by
  rw [acceptedOf, List.pairwise_map]
  refine (level.ascending.filter _).imp_of_mem ?_
  rintro ⟨read, s⟩ ⟨read', s'⟩ member member' less
  have length := (level.mem_iff.mp (List.mem_of_mem_filter member)).1
  have length' := (level.mem_iff.mp (List.mem_of_mem_filter member')).1
  exact .of_lex (by simp [length, length']) less

/-- An empty level ends the listing early, which does not change it. -/
theorem wordsFrom_succ (D : Dfa) (bound : Nat) (trails : List Trail) :
    D.wordsFrom (bound + 1) trails =
      D.acceptedOf trails ++ D.wordsFrom bound (D.extend trails) := by
  cases trails with
  | nil => cases bound <;> rfl
  | cons t rest => rfl

theorem wordsFrom_zero (D : Dfa) (trails : List Trail) :
    D.wordsFrom 0 trails = D.acceptedOf trails := by
  cases trails <;> rfl

/-- From a level on, the accepted inputs of that length and of up to `bound` symbols more. -/
theorem Level.mem_wordsFrom_iff (valid : D.WellFormed) (level : D.Level start k trails)
    {bound : Nat} {input : List Char} :
    input ∈ D.wordsFrom bound trails ↔
      k ≤ input.length ∧ input.length ≤ k + bound ∧
        ∃ stop, D.runFrom start input = some stop ∧ stop ∈ D.finals := by
  induction bound generalizing k trails with
  | zero =>
      rw [wordsFrom_zero, level.mem_acceptedOf_iff, ← and_assoc]
      apply and_congr_left'
      omega
  | succ bound ih =>
      rw [wordsFrom_succ, List.mem_append, level.mem_acceptedOf_iff, ih (level.extend valid),
        ← and_assoc, ← and_assoc, ← or_and_right]
      apply and_congr_left'
      omega

theorem Level.wordsFrom_pairwise (valid : D.WellFormed) (level : D.Level start k trails)
    (bound : Nat) : (D.wordsFrom bound trails).Pairwise Precedes := by
  induction bound generalizing k trails with
  | zero =>
      rw [wordsFrom_zero]
      exact level.acceptedOf_pairwise
  | succ bound ih =>
      rw [wordsFrom_succ, List.pairwise_append]
      refine ⟨level.acceptedOf_pairwise, ih (level.extend valid), ?_⟩
      intro input member later member'
      have length := (level.mem_acceptedOf_iff.mp member).1
      have longer := (((level.extend valid).mem_wordsFrom_iff valid).mp member').1
      exact .of_length_lt (by omega)

/-- The listing holds the accepted inputs of at most `bound` symbols and nothing else. -/
theorem mem_words_iff (valid : D.WellFormed) {bound : Nat} {input : List Char} :
    input ∈ D.words bound ↔ D.accepts input = true ∧ input.length ≤ bound := by
  unfold words
  cases found : D.start with
  | none =>
      rw [accepts_of_start_eq_none found]
      cases bound <;> simp [wordsFrom]
  | some start =>
      have listed : input ∈ D.wordsFrom bound [([], start)] ↔ _ :=
        (D.level_zero start).mem_wordsFrom_iff valid
      rw [accepts_iff_of_start found, and_comm]
      simpa using listed

theorem words_pairwise (valid : D.WellFormed) (bound : Nat) :
    (D.words bound).Pairwise Precedes := by
  unfold words
  cases D.start with
  | none => cases bound <;> exact .nil
  | some start => exact (D.level_zero start).wordsFrom_pairwise valid bound

/-- Trying every input over the alphabet lists the same. -/
theorem words_eq_filter (valid : D.WellFormed) (bound : Nat) :
    D.words bound = (Alphabet.inputsUpTo D.alphabet bound).filter D.accepts := by
  have ordered := (Alphabet.inputsUpTo_pairwise D.alphabet bound).filter D.accepts
  refine eq_of_mem_iff (words_pairwise valid bound) ordered ?_
  intro input
  rw [mem_words_iff valid, List.mem_filter, Alphabet.mem_inputsUpTo_iff]
  constructor
  · rintro ⟨accepted, within⟩
    exact ⟨⟨within, over_alphabet_of_accepts valid accepted⟩, accepted⟩
  · rintro ⟨⟨within, _⟩, accepted⟩
    exact ⟨accepted, within⟩

theorem wordsFrom_isPrefix (D : Dfa) (bound more : Nat) (trails : List Trail) :
    D.wordsFrom bound trails <+: D.wordsFrom (bound + more) trails := by
  induction bound generalizing trails with
  | zero =>
      rw [wordsFrom_zero, Nat.zero_add]
      cases more with
      | zero => rw [wordsFrom_zero]
      | succ more =>
          rw [wordsFrom_succ]
          exact List.prefix_append _ _
  | succ bound ih =>
      rw [Nat.add_right_comm, wordsFrom_succ, wordsFrom_succ]
      exact (List.prefix_append_right_inj _).mpr (ih (D.extend trails))

/-- A greater bound goes on where a smaller one ends. -/
theorem words_isPrefix (D : Dfa) {bound longer : Nat} (within : bound ≤ longer) :
    D.words bound <+: D.words longer := by
  obtain ⟨more, rfl⟩ := Nat.exists_eq_add_of_le within
  exact D.wordsFrom_isPrefix bound more _

end Dfa

end PostfixAutomata
