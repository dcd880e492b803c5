import PostfixAutomata.Nfa.Determinization
import PostfixAutomata.Proofs.Allocation
import PostfixAutomata.Proofs.Dfa.Runs
import PostfixAutomata.Proofs.Nfa.Language

set_option autoImplicit false

/-!
The subset construction is faithful. The exploration keeps a correspondence between the subsets met
and the states that stand for them, and owes transitions only to subsets that wait and to the row
that is being filled. Once nothing waits, a run of the deterministic automaton is a sequence of
subsets, and these are the states that paths reach.
-/

namespace PostfixAutomata

namespace Exploration

variable {e : Exploration} {S T : StateSet} {p q r : State} {c : Char}

/-- A visit finds the state of a subset, or issues one and lets the subset wait. -/
theorem visit_eq_ok {e' : e.Like} (ran : e.visit S = .ok (q, e')) :
    (e.numbers[S]? = some q ∧ e'.val = e) ∨
      (e.numbers[S]? = none ∧ q.id = e.counter.next ∧
        e'.val = {
          numbers := e.numbers.insert S q
          pending := (S, q) :: e.pending
          dfa := e.dfa.insertState q
          counter := ⟨e.counter.next + 1⟩ }) := by
  unfold visit at ran
  split at ran
  · rename_i known
    cases ran
    exact .inl ⟨known, rfl⟩
  · rename_i unknown
    split at ran
    · cases ran
      exact .inr ⟨unknown, rfl, rfl⟩
    · cases ran

/-- A visit fails when a subset is met for the first time and no identifier is left. -/
theorem visit_eq_error {d : Defect} (failed : e.visit S = .error d) :
    d = .identifiersExhausted ∧ e.numbers[S]? = none ∧ UInt32.size ≤ e.counter.next := by
  unfold visit at failed
  split at failed
  · cases failed
  · rename_i unknown
    split at failed
    · cases failed
    · rename_i spent
      exact ⟨(Except.error.inj failed).symm, unknown, Nat.le_of_not_lt spent⟩

/-- What an exploration never takes back; what is issued on the way stands for a subset. -/
structure Precedes (e e' : Exploration) : Prop where
  numbers : ∀ {S : StateSet} {p : State}, e.numbers[S]? = some p → e'.numbers[S]? = some p
  start : e'.dfa.start = e.dfa.start
  ids : e'.dfa.ids = e.dfa.ids
  counter : e.counter.next ≤ e'.counter.next
  issued : ∀ {p : State}, e.counter.next ≤ p.id → p.id < e'.counter.next →
    ∃ S : StateSet, e'.numbers[S]? = some p

theorem Precedes.refl (e : Exploration) : e.Precedes e :=
  ⟨id, rfl, rfl, Nat.le_refl _, fun above below => absurd below (Nat.not_lt_of_ge above)⟩

theorem Precedes.trans {e₁ e₂ e₃ : Exploration} (first : e₁.Precedes e₂)
    (second : e₂.Precedes e₃) : e₁.Precedes e₃ := by
  refine ⟨fun found => second.numbers (first.numbers found), second.start.trans first.start,
    second.ids.trans first.ids, Nat.le_trans first.counter second.counter, ?_⟩
  intro p above below
  by_cases early : p.id < e₂.counter.next
  · obtain ⟨S, found⟩ := first.issued above early
    exact ⟨S, second.numbers found⟩
  · exact second.issued (Nat.le_of_not_lt early) below

/-- The states of the automaton under way stand for different subsets and go where those go.
Transitions may be missing from subsets that wait and where `todo` says so. -/
structure Faithful (e : Exploration) (A : Nfa) (floor : Nat) (todo : State → Char → Prop) :
    Prop where
  valid : e.dfa.WellFormed
  mem_states : ∀ {p : State}, p ∈ e.dfa.states ↔ ∃ S : StateSet, e.numbers[S]? = some p
  mem_alphabet : ∀ {c : Char}, c ∈ e.dfa.alphabet ↔ c ∈ A.alphabet
  within : ∀ {S : StateSet} {p : State}, e.numbers[S]? = some p →
    floor ≤ p.id ∧ p.id < e.counter.next
  injective : ∀ {S T : StateSet} {p : State}, e.numbers[S]? = some p → e.numbers[T]? = some p →
    S = T
  waiting : ∀ {S : StateSet} {p : State}, (S, p) ∈ e.pending → e.numbers[S]? = some p
  sound : ∀ {p q : State} {c : Char}, e.dfa.target? p c = some q →
    ∃ S : StateSet, e.numbers[S]? = some p ∧ e.numbers[A.successor S c]? = some q
  complete : ∀ {S : StateSet} {p : State} {c : Char}, e.numbers[S]? = some p → c ∈ A.alphabet →
    A.successor S c ≠ ∅ → (S, p) ∈ e.pending ∨ todo p c ∨ ∃ q, e.dfa.target? p c = some q

variable {A : Nfa} {floor : Nat} {todo : State → Char → Prop}

/-- What a visit adds waits. -/
theorem Faithful.visit (faithful : e.Faithful A floor todo) (above : floor ≤ e.counter.next)
    {e' : e.Like} (ran : e.visit S = .ok (q, e')) :
    e.Precedes e'.val ∧ e'.val.Faithful A floor todo ∧ e'.val.numbers[S]? = some q := by
  rcases visit_eq_ok ran with ⟨known, same⟩ | ⟨unknown, identifier, same⟩
  · rw [same]
    exact ⟨.refl e, faithful, known⟩
  rw [same]
  have lookup : ∀ T : StateSet, (e.numbers.insert S q)[T]? = if S = T then some q else
      e.numbers[T]? := by
    intro T
    rw [Std.ExtTreeMap.getElem?_insert]
    simp only [Std.LawfulEqCmp.compare_eq_iff_eq]
  have kept : ∀ {T : StateSet} {p : State}, e.numbers[T]? = some p →
      (e.numbers.insert S q)[T]? = some p := by
    intro T p found
    have different : S ≠ T := by
      rintro rfl
      rw [unknown] at found
      cases found
    rw [lookup, if_neg different, found]
  have here : (e.numbers.insert S q)[S]? = some q := by rw [lookup, if_pos rfl]
  -- A subset afterwards is either the new one or one that was met before.
  have origin : ∀ {T : StateSet} {p : State}, (e.numbers.insert S q)[T]? = some p →
      (S = T ∧ q = p) ∨ e.numbers[T]? = some p := by
    intro T p found
    rw [lookup] at found
    split at found
    · rename_i same
      exact .inl ⟨same, Option.some.inj found⟩
    · exact .inr found
  have fresh : ∀ {T : StateSet}, e.numbers[T]? ≠ some q := by
    intro T found
    have below := (faithful.within found).2
    omega
  have issued : ∀ {p : State}, e.counter.next ≤ p.id → p.id < e.counter.next + 1 →
      ∃ T : StateSet, (e.numbers.insert S q)[T]? = some p := by
    intro p above below
    obtain rfl : q = p := State.ext (by omega)
    exact ⟨S, here⟩
  refine ⟨⟨kept, rfl, rfl, Nat.le_succ _, issued⟩, ?_, here⟩
  refine ⟨faithful.valid.insertState q, ?_, faithful.mem_alphabet, ?_, ?_, ?_, ?_, ?_⟩
  · intro p
    rw [Automaton.mem_states_insertState, faithful.mem_states]
    constructor
    · rintro (rfl | ⟨T, found⟩)
      · exact ⟨S, here⟩
      · exact ⟨T, kept found⟩
    · rintro ⟨T, found⟩
      rcases origin found with ⟨_, same⟩ | found
      · exact .inl same
      · exact .inr ⟨T, found⟩
  · intro T p found
    rcases origin found with ⟨_, rfl⟩ | found
    · simp only
      omega
    · have bounds := faithful.within found
      simp only
      omega
  · intro T U p first second
    rcases origin first with ⟨rfl, rfl⟩ | first <;> rcases origin second with ⟨rfl, same⟩ | second
    · rfl
    · exact absurd second fresh
    · exact absurd (same ▸ first) fresh
    · exact faithful.injective first second
  · intro T p member
    rcases List.mem_cons.mp member with same | member
    · cases same
      exact here
    · exact kept (faithful.waiting member)
  · intro p r c edge
    rw [Dfa.target?_insertState] at edge
    obtain ⟨T, source, target⟩ := faithful.sound edge
    exact ⟨T, kept source, kept target⟩
  · intro T p c found symbol some
    rcases origin found with ⟨rfl, rfl⟩ | found
    · exact .inl (by simp)
    · rw [Dfa.target?_insertState]
      exact (faithful.complete found symbol some).imp_left (List.mem_cons_of_mem _)

/-- A transition to the successor settles what was owed for it. -/
theorem Faithful.insertTransition (faithful : e.Faithful A floor todo)
    (source : e.numbers[S]? = some p)
    (symbol : c ∈ A.alphabet) (target : e.numbers[A.successor S c]? = some q) :
    Faithful { e with dfa := e.dfa.insertTransition p c q } A floor
      fun r d => todo r d ∧ ¬(r = p ∧ d = c) := by
  refine ⟨faithful.valid.insertTransition p c q, ?_, ?_, faithful.within, faithful.injective,
    faithful.waiting, ?_, ?_⟩
  · intro r
    rw [Automaton.mem_states_insertTransition, faithful.mem_states]
    constructor
    · rintro (rfl | rfl | found)
      · exact ⟨_, target⟩
      · exact ⟨_, source⟩
      · exact found
    · exact fun found => .inr (.inr found)
  · intro d
    rw [Automaton.mem_alphabet_insertTransition, faithful.mem_alphabet]
    apply or_iff_right_of_imp
    rintro ⟨⟩
    exact symbol
  · intro p' q' c' edge
    rw [Dfa.target?_insertTransition] at edge
    split at edge
    · rename_i same
      obtain ⟨rfl, rfl⟩ := same
      cases edge
      exact ⟨S, source, target⟩
    · exact faithful.sound edge
  · intro T r d found symbol some
    rw [Dfa.target?_insertTransition]
    by_cases same : p = r ∧ c = d
    · exact .inr (.inr ⟨q, if_pos same⟩)
    · rw [if_neg same]
      rcases faithful.complete found symbol some with waits | owed | edge
      · exact .inl waits
      · exact .inr (.inl ⟨owed, fun equal => same ⟨equal.1.symm, equal.2.symm⟩⟩)
      · exact .inr (.inr edge)

/-- To make a state the start adds no state and no transition. -/
theorem Faithful.setStart (faithful : e.Faithful A floor todo) (met : e.numbers[S]? = some p) :
    Faithful { e with dfa := e.dfa.setStart p } A floor todo := by
  refine ⟨faithful.valid.setStart p, ?_, faithful.mem_alphabet, faithful.within,
    faithful.injective, faithful.waiting, ?_, ?_⟩
  · intro q
    change q ∈ (e.dfa.insertState p).states ↔ _
    rw [Automaton.mem_states_insertState, faithful.mem_states]
    apply or_iff_right_of_imp
    rintro rfl
    exact ⟨S, met⟩
  · intro q r c edge
    change Dfa.target? (e.dfa.insertState p) q c = some r at edge
    rw [Dfa.target?_insertState] at edge
    exact faithful.sound edge
  · intro T q c found symbol some
    change _ ∨ _ ∨ ∃ r, Dfa.target? (e.dfa.insertState p) q c = .some r
    rw [Dfa.target?_insertState]
    exact faithful.complete found symbol some

/-- Nothing is owed for a symbol that leads nowhere. -/
theorem Faithful.skip (faithful : e.Faithful A floor todo) (source : e.numbers[S]? = some p)
    (nowhere : A.successor S c = ∅) :
    e.Faithful A floor fun r d => todo r d ∧ ¬(r = p ∧ d = c) := by
  refine ⟨faithful.valid, faithful.mem_states, faithful.mem_alphabet, faithful.within,
    faithful.injective, faithful.waiting, faithful.sound, ?_⟩
  intro T r d found symbol some
  rcases faithful.complete found symbol some with waits | owed | edge
  · exact .inl waits
  · refine .inr (.inl ⟨owed, ?_⟩)
    rintro ⟨rfl, rfl⟩
    exact some (faithful.injective source found ▸ nowhere)
  · exact .inr (.inr edge)

theorem Faithful.mono {todo' : State → Char → Prop} (faithful : e.Faithful A floor todo)
    (weaker : ∀ {r : State} {d : Char}, todo r d → todo' r d) : e.Faithful A floor todo' :=
  { faithful with
    complete := fun found symbol some =>
      (faithful.complete found symbol some).imp_right (Or.imp_left weaker) }

/-- A transition leads from the state of a subset to that of its successor. -/
theorem Faithful.numbers_of_target? (faithful : e.Faithful A floor todo)
    (met : e.numbers[S]? = some p) (edge : e.dfa.target? p c = some q) :
    e.numbers[A.successor S c]? = some q := by
  obtain ⟨T, same, target⟩ := faithful.sound edge
  obtain rfl := faithful.injective met same
  exact target

/-- Once nothing waits, a subset that leads anywhere has its transition. -/
theorem Faithful.exists_target (faithful : e.Faithful A floor fun _ _ => False)
    (finished : e.pending = []) (met : e.numbers[S]? = some p) (symbol : c ∈ A.alphabet)
    (some : A.successor S c ≠ ∅) :
    ∃ q, e.dfa.target? p c = .some q ∧ e.numbers[A.successor S c]? = .some q := by
  rcases faithful.complete met symbol some with waits | owed | ⟨q, edge⟩
  · rw [finished] at waits
    cases waits
  · exact owed.elim
  · exact ⟨q, edge, faithful.numbers_of_target? met edge⟩

/-- The subset that waits first may go on to its row: then its whole row is owed. -/
theorem Faithful.pop {numbers : Std.ExtTreeMap StateSet State} {rest : List (StateSet × State)}
    {dfa : Dfa} {counter : Counter}
    (faithful : Faithful ⟨numbers, (S, p) :: rest, dfa, counter⟩ A floor fun _ _ => False) :
    Faithful ⟨numbers, rest, dfa, counter⟩ A floor fun r d => r = p ∧ d ∈ A.alphabet.toList := by
  refine ⟨faithful.valid, faithful.mem_states, faithful.mem_alphabet, faithful.within,
    faithful.injective, fun member => faithful.waiting (List.mem_cons_of_mem _ member),
    faithful.sound, ?_⟩
  intro T r d found symbol some
  rcases faithful.complete found symbol some with waits | owed | edge
  · rcases List.mem_cons.mp waits with same | waits
    · cases same
      exact .inr (.inl ⟨rfl, Std.ExtTreeSet.mem_toList.mpr symbol⟩)
    · exact .inl waits
  · exact owed.elim
  · exact .inr (.inr edge)

end Exploration

namespace Nfa

variable {A : Nfa} {e : Exploration} {S : StateSet} {p q : State} {c : Char} {floor : Nat}

theorem exploreSymbol_eq_ok {e' : e.Like} (ran : A.exploreSymbol S p c e = .ok e') :
    (A.successor S c = ∅ ∧ e'.val = e) ∨
      A.successor S c ≠ ∅ ∧ ∃ q e₁, e.visit (A.successor S c) = .ok (q, e₁) ∧
        e'.val = { e₁.val with dfa := e₁.val.dfa.insertTransition p c q } := by
  unfold exploreSymbol at ran
  dsimp only at ran
  split at ran
  · rename_i nothing
    cases ran
    exact .inl ⟨Std.ExtTreeSet.isEmpty_iff.mp nothing, rfl⟩
  · rename_i some
    obtain ⟨⟨q, e₁⟩, visited, done⟩ := bind_eq_ok_iff.mp ran
    cases done
    exact .inr ⟨fun nothing => some (Std.ExtTreeSet.isEmpty_iff.mpr nothing), q, e₁, visited, rfl⟩

/-- Following a symbol fails in the visit of what it leads to. -/
theorem exploreSymbol_eq_error {d : Defect} (failed : A.exploreSymbol S p c e = .error d) :
    A.successor S c ≠ ∅ ∧ e.visit (A.successor S c) = .error d := by
  unfold exploreSymbol at failed
  dsimp only at failed
  split at failed
  · cases failed
  · rename_i some
    rcases bind_eq_error_iff.mp failed with failed | ⟨visited, _, failed⟩
    · exact ⟨fun nothing => some (Std.ExtTreeSet.isEmpty_iff.mpr nothing), failed⟩
    · cases failed

theorem exploreSymbol_faithful {todo : State → Char → Prop} {e' : e.Like}
    (faithful : e.Faithful A floor todo) (above : floor ≤ e.counter.next)
    (source : e.numbers[S]? = some p) (symbol : c ∈ A.alphabet)
    (ran : A.exploreSymbol S p c e = .ok e') :
    e.Precedes e'.val ∧ e'.val.Faithful A floor fun r d => todo r d ∧ ¬(r = p ∧ d = c) := by
  rcases exploreSymbol_eq_ok ran with ⟨nowhere, same⟩ | ⟨_, q, e₁, visited, same⟩
  · rw [same]
    exact ⟨.refl e, faithful.skip source nowhere⟩
  · obtain ⟨precedes, faithful₁, target⟩ := faithful.visit above visited
    rw [same]
    exact ⟨⟨precedes.numbers, precedes.start, precedes.ids, precedes.counter, precedes.issued⟩,
      faithful₁.insertTransition (precedes.numbers source) symbol target⟩

theorem exploreRow_faithful {symbols : List Char} {e' : e.Like}
    (faithful : e.Faithful A floor fun r d => r = p ∧ d ∈ symbols)
    (above : floor ≤ e.counter.next) (source : e.numbers[S]? = some p)
    (known : ∀ d ∈ symbols, d ∈ A.alphabet) (ran : A.exploreRow S p symbols e = .ok e') :
    e.Precedes e'.val ∧ e'.val.Faithful A floor fun _ _ => False := by
  induction symbols generalizing e with
  | nil =>
      cases ran
      exact ⟨.refl e, faithful.mono fun owed => nomatch owed.2⟩
  | cons c symbols ih =>
      obtain ⟨e₁, first, ran⟩ := bind_eq_ok_iff.mp ran
      obtain ⟨e₂, later, done⟩ := bind_eq_ok_iff.mp ran
      cases done
      obtain ⟨precedes, faithful₁⟩ :=
        exploreSymbol_faithful faithful above source (known c (by simp)) first
      have remaining : e₁.val.Faithful A floor fun r d => r = p ∧ d ∈ symbols := by
        apply faithful₁.mono
        rintro r d ⟨⟨same, member⟩, other⟩
        rcases List.mem_cons.mp member with here | member
        · exact absurd ⟨same, here⟩ other
        · exact ⟨same, member⟩
      obtain ⟨precedes₂, faithful₂⟩ := ih remaining (Nat.le_trans above precedes.counter)
        (precedes.numbers source) (fun d member => known d (List.mem_cons_of_mem c member)) later
      exact ⟨precedes.trans precedes₂, faithful₂⟩

/-- The exploration ends when nothing waits, and then nothing is owed. -/
theorem explore_faithful {e' : Exploration} (faithful : e.Faithful A floor fun _ _ => False)
    (above : floor ≤ e.counter.next) (ran : A.explore e = .ok e') :
    e.Precedes e' ∧ e'.Faithful A floor (fun _ _ => False) ∧ e'.pending = [] := by
  induction e using explore.induct with
  | case1 numbers dfa counter =>
      rw [explore] at ran
      cases ran
      exact ⟨.refl _, faithful, rfl⟩
  | case2 numbers S p rest dfa counter ih =>
      rw [explore] at ran
      obtain ⟨e₁, first, ran⟩ := bind_eq_ok_iff.mp ran
      have source : numbers[S]? = some p := faithful.waiting (by simp)
      obtain ⟨precedes, faithful₁⟩ := exploreRow_faithful faithful.pop above source
        (fun d member => Std.ExtTreeSet.mem_toList.mp member) first
      obtain ⟨precedes₂, settled⟩ :=
        ih e₁ faithful₁ (Nat.le_trans above precedes.counter) ran
      have whole := precedes.trans precedes₂
      exact ⟨⟨whole.numbers, whole.start, whole.ids, whole.counter, whole.issued⟩, settled⟩

theorem mem_finals_markFinals {s : State} :
    s ∈ (A.markFinals e).finals ↔
      ∃ S : StateSet, e.numbers[S]? = some s ∧ ∃ t ∈ S, t ∈ A.finals := by
  change s ∈ Std.ExtTreeSet.ofList _ _ ↔ _
  rw [Std.ExtTreeSet.mem_ofList, List.contains_iff_mem]
  simp only [List.mem_map, List.mem_filter, Prod.exists, exists_eq_right, List.any_eq_true,
    Std.ExtTreeMap.mem_toList_iff_getElem?_eq_some, Std.ExtTreeSet.mem_toList,
    Std.ExtTreeSet.contains_iff_mem]

theorem target?_markFinals : (A.markFinals e).target? p c = e.dfa.target? p c :=
  Dfa.target?_congr (fun _ => rfl) p c

theorem runFrom_markFinals {input : List Char} :
    (A.markFinals e).runFrom p input = e.dfa.runFrom p input :=
  Dfa.runFrom_congr (D := A.markFinals e) (E := e.dfa) (fun _ => rfl) p input

theorem exploreRow_eq_error {symbols : List Char} {d : Defect}
    (failed : A.exploreRow S p symbols e = .error d) : d = .identifiersExhausted := by
  induction symbols generalizing e with
  | nil => cases failed
  | cons c symbols ih =>
      rcases bind_eq_error_iff.mp failed with failed | ⟨e₁, _, failed⟩
      · exact (Exploration.visit_eq_error (exploreSymbol_eq_error failed).2).1
      · rcases bind_eq_error_iff.mp failed with failed | ⟨e₂, _, failed⟩
        · exact ih failed
        · cases failed

theorem explore_eq_error {d : Defect} (failed : A.explore e = .error d) :
    d = .identifiersExhausted := by
  induction e using explore.induct with
  | case1 numbers dfa counter =>
      rw [explore] at failed
      cases failed
  | case2 numbers S p rest dfa counter ih =>
      rw [explore] at failed
      rcases bind_eq_error_iff.mp failed with failed | ⟨e₁, _, failed⟩
      · exact exploreRow_eq_error failed
      · exact ih e₁ failed

/-! Runs through the subsets. -/

/-- Whether ε-transitions do not leave a set of states. -/
def EpsilonClosed (A : Nfa) (S : StateSet) : Prop :=
  ∀ ⦃s t : State⦄, s ∈ S → A.EpsilonPath s t → t ∈ S

theorem epsilonClosed_epsilonClosure (seeds : List State) :
    A.EpsilonClosed (A.epsilonClosure seeds) := by
  intro s t member path
  obtain ⟨seed, seeded, first⟩ := mem_epsilonClosure_iff.mp member
  exact mem_epsilonClosure_iff.mpr ⟨seed, seeded, first.trans path⟩

theorem epsilonClosed_successor (S : StateSet) (c : Char) : A.EpsilonClosed (A.successor S c) :=
  epsilonClosed_epsilonClosure _

/-- Following an input through subsets finds the states that paths reach under that input. -/
theorem mem_foldl_successor_iff {input : List Char} (closed : A.EpsilonClosed S) {t : State} :
    t ∈ input.foldl A.successor S ↔ ∃ s ∈ S, A.Path s input t := by
  induction input generalizing S with
  | nil =>
      constructor
      · exact fun member => ⟨t, member, .refl t⟩
      · rintro ⟨s, member, path⟩
        exact closed member (path_nil_iff.mp path)
  | cons c input ih =>
      rw [List.foldl_cons, ih (epsilonClosed_successor S c)]
      constructor
      · rintro ⟨s, member, path⟩
        obtain ⟨p, source, q, edge, silent⟩ := mem_successor_iff.mp member
        exact ⟨p, source, path_cons_iff.mpr ⟨p, q, .refl p, edge, silent.toPath.trans path⟩⟩
      · rintro ⟨s, member, path⟩
        obtain ⟨p, q, silent, edge, rest⟩ := path_cons_iff.mp path
        exact ⟨q, mem_successor_iff.mpr ⟨p, closed member silent, q, edge, .refl q⟩, rest⟩

/-- No subset follows on a symbol outside of the alphabet. -/
theorem mem_alphabet_of_successor_ne_empty (valid : A.WellFormed) (some : A.successor S c ≠ ∅) :
    c ∈ A.alphabet := by
  apply Decidable.byContradiction
  intro foreign
  apply some
  apply StateSet.ext_iff.mpr
  intro t
  refine iff_of_false ?_ Std.ExtTreeSet.not_mem_empty
  intro member
  obtain ⟨p, _, q, edge, _⟩ := mem_successor_iff.mp member
  exact foreign (symbol_mem valid edge)

theorem foldl_successor_empty (input : List Char) : input.foldl A.successor ∅ = ∅ := by
  have closed : A.EpsilonClosed ∅ := fun _ _ member => absurd member Std.ExtTreeSet.not_mem_empty
  apply StateSet.ext_iff.mpr
  intro t
  rw [mem_foldl_successor_iff closed]
  refine iff_of_false ?_ Std.ExtTreeSet.not_mem_empty
  rintro ⟨s, member, _⟩
  exact Std.ExtTreeSet.not_mem_empty member

/-- A run of a finished exploration leads to the state of the subset that the input leads to. -/
theorem numbers_of_runFrom (faithful : e.Faithful A floor fun _ _ => False) {input : List Char}
    (source : e.numbers[S]? = some p) (reached : e.dfa.runFrom p input = some q) :
    e.numbers[input.foldl A.successor S]? = some q := by
  induction input generalizing S p with
  | nil =>
      cases reached
      exact source
  | cons c input ih =>
      obtain ⟨next, edge, rest⟩ := Option.bind_eq_some_iff.mp reached
      exact ih (faithful.numbers_of_target? source edge) rest

/-- As long as the input leads to some state, the run goes on. -/
theorem runFrom_of_foldl_ne_empty (valid : A.WellFormed)
    (faithful : e.Faithful A floor fun _ _ => False) (finished : e.pending = [])
    {input : List Char} (source : e.numbers[S]? = some p)
    (some : input.foldl A.successor S ≠ ∅) : ∃ q, e.dfa.runFrom p input = .some q := by
  induction input generalizing S p with
  | nil => exact ⟨p, rfl⟩
  | cons c input ih =>
      have step : A.successor S c ≠ ∅ := by
        intro nowhere
        rw [List.foldl_cons, nowhere, foldl_successor_empty] at some
        exact some rfl
      have symbol := mem_alphabet_of_successor_ne_empty valid step
      obtain ⟨next, edge, target⟩ := faithful.exists_target finished source symbol step
      obtain ⟨q, rest⟩ := ih target some
      exact ⟨q, Option.bind_eq_some_iff.mpr ⟨next, edge, rest⟩⟩

/-! The construction. -/

section Determinize

variable {target : AllocatorId} {k k' : Counter} {D : Dfa}

/-- The deterministic automaton that accepts nothing, over the same alphabet. -/
def blankDfa (A : Nfa) (target : AllocatorId) : Dfa :=
  { Automaton.empty target with alphabet := A.alphabet }

theorem wellFormed_blankDfa (A : Nfa) (target : AllocatorId) : (A.blankDfa target).WellFormed := by
  have nothing := Automaton.WellFormed.empty (ρ := Dfa.Row) target
  have symbols : ∀ {p q : State} {c : Char},
      (c, q) ∈ TransitionRow.edges ((A.blankDfa target).row p) → False := by
    intro p q c edge
    exact Std.ExtTreeSet.not_mem_empty (nothing.target_mem (p := p) edge)
  exact ⟨nothing.start_mem, nothing.finals_subset, nothing.mem_rows, nothing.target_mem,
    fun edge => (symbols edge).elim, nothing.tidy⟩

/-- An exploration that has found everything that an automaton can reach from a counter on. -/
structure Explored (A : Nfa) (target : AllocatorId) (k : Counter) (start : State)
    (e : Exploration) : Prop where
  faithful : e.Faithful A k.next fun _ _ => False
  finished : e.pending = []
  start : ∃ p, e.dfa.start = some p ∧ e.numbers[A.epsilonClosure [start]]? = some p
  first : ∀ {p : State}, e.dfa.start = some p → p.id = k.next
  ids : e.dfa.ids = target
  counter : k.next ≤ e.counter.next
  issued : ∀ {p : State}, k.next ≤ p.id → p.id < e.counter.next →
    ∃ S : StateSet, e.numbers[S]? = some p

/-- The exploration before its first round: only the ε-closure of the start has been met. -/
def outset (A : Nfa) (target : AllocatorId) (k : Counter) (start : State) :
    Except Defect Exploration := do
  let (p, e) ← Exploration.visit ⟨∅, [], A.blankDfa target, k⟩ (A.epsilonClosure [start])
  return { e.val with dfa := e.val.dfa.setStart p }

/-- Before its first round an exploration has visited the start, which gets the first identifier. -/
theorem outset_eq_ok {start : State} (begun : A.outset target k start = .ok e) :
    ∃ p e₁, Exploration.visit ⟨∅, [], A.blankDfa target, k⟩ (A.epsilonClosure [start]) =
      .ok (p, e₁) ∧ p.id = k.next ∧ e = { e₁.val with dfa := e₁.val.dfa.setStart p } := by
  obtain ⟨⟨p, e₁⟩, visited, done⟩ := bind_eq_ok_iff.mp begun
  cases done
  refine ⟨p, e₁, visited, ?_, rfl⟩
  rcases Exploration.visit_eq_ok visited with ⟨known, _⟩ | ⟨_, identifier, _⟩
  · rw [Std.ExtTreeMap.getElem?_empty] at known
    cases known
  · exact identifier

theorem outset_eq_error {start : State} {d : Defect} (failed : A.outset target k start = .error d) :
    Exploration.visit ⟨∅, [], A.blankDfa target, k⟩ (A.epsilonClosure [start]) = .error d := by
  rcases bind_eq_error_iff.mp failed with failed | ⟨visited, _, failed⟩
  · exact failed
  · cases failed

/-- Without a start there is nothing to explore. -/
theorem run_determinize_of_no_start (missing : A.start = none) :
    (A.determinize target).run k = .ok (A.blankDfa target, k) := by
  change A.determinize target k = _
  unfold determinize
  rw [missing]
  rfl

/-- The construction explores from the outset and then marks final states. -/
theorem run_determinize_of_start {start : State} (found : A.start = some start) :
    (A.determinize target).run k = (do
      let e ← A.outset target k start
      let e ← A.explore e
      return (A.markFinals e, e.counter)) := by
  change A.determinize target k = _
  unfold determinize
  rw [found, outset, bind_assoc]
  rfl

theorem determinize_eq_ok_iff {start : State} (found : A.start = some start) :
    (A.determinize target).run k = .ok (D, k') ↔
      ∃ e₀ e, A.outset target k start = .ok e₀ ∧ A.explore e₀ = .ok e ∧ A.markFinals e = D ∧
        e.counter = k' := by
  rw [run_determinize_of_start found]
  constructor
  · intro ran
    obtain ⟨e₀, begun, ran⟩ := bind_eq_ok_iff.mp ran
    obtain ⟨e, explored, done⟩ := bind_eq_ok_iff.mp ran
    obtain ⟨same, counter⟩ := Prod.mk.inj (Except.ok.inj done)
    exact ⟨e₀, e, begun, explored, same, counter⟩
  · rintro ⟨e₀, e, begun, explored, rfl, rfl⟩
    exact bind_eq_ok_iff.mpr ⟨e₀, begun, bind_eq_ok_iff.mpr ⟨e, explored, rfl⟩⟩

/-- The subset construction fails at an exhausted counter only. -/
theorem onlyExhausts_determinize (A : Nfa) (target : AllocatorId) :
    (A.determinize target).OnlyExhausts := by
  intro k d failed
  cases found : A.start with
  | none =>
      rw [run_determinize_of_no_start found] at failed
      cases failed
  | some start =>
      rw [run_determinize_of_start found] at failed
      rcases bind_eq_error_iff.mp failed with failed | ⟨e₀, _, failed⟩
      · exact (Exploration.visit_eq_error (outset_eq_error failed)).1
      · rcases bind_eq_error_iff.mp failed with failed | ⟨e, _, failed⟩
        · exact explore_eq_error failed
        · cases failed

/-- Before anything is met nothing is owed. -/
theorem faithful_blank (A : Nfa) (target : AllocatorId) (k : Counter) :
    Exploration.Faithful ⟨∅, [], A.blankDfa target, k⟩ A k.next fun _ _ => False := by
  have unmet : ∀ {S : StateSet} {p : State},
      (∅ : Std.ExtTreeMap StateSet State)[S]? = some p → False := by
    intro S p met
    rw [Std.ExtTreeMap.getElem?_empty] at met
    cases met
  have unlinked : ∀ {p q : State} {c : Char}, (A.blankDfa target).target? p c = some q → False :=
    fun edge => Std.ExtTreeSet.not_mem_empty
      (Dfa.source_mem (wellFormed_blankDfa A target) edge)
  refine ⟨wellFormed_blankDfa A target, ?_, Iff.rfl, fun met => (unmet met).elim,
    fun met => (unmet met).elim, nofun, fun edge => (unlinked edge).elim,
    fun met => (unmet met).elim⟩
  intro p
  refine iff_of_false Std.ExtTreeSet.not_mem_empty ?_
  rintro ⟨S, met⟩
  exact unmet met

/-- What an exploration finds from its outset to its end. -/
theorem explored_of_outset {start : State} {e₀ : Exploration}
    (begun : A.outset target k start = .ok e₀) (ran : A.explore e₀ = .ok e) :
    A.Explored target k start e := by
  obtain ⟨p, e₁, visited, identifier, rfl⟩ := outset_eq_ok begun
  obtain ⟨precedes, faithful₁, met⟩ := (faithful_blank A target k).visit (Nat.le_refl _) visited
  obtain ⟨precedes₂, faithful, finished⟩ :=
    explore_faithful (faithful₁.setStart met) precedes.counter ran
  refine ⟨faithful, finished, ⟨p, precedes₂.start, precedes₂.numbers met⟩, ?_,
    precedes₂.ids.trans precedes.ids, Nat.le_trans precedes.counter precedes₂.counter, ?_⟩
  · intro q found
    obtain rfl := Option.some.inj (precedes₂.start.symm.trans found)
    exact identifier
  · intro q above below
    by_cases early : q.id < e₁.val.counter.next
    · obtain ⟨S, met⟩ := precedes.issued above early
      exact ⟨S, precedes₂.numbers met⟩
    · exact precedes₂.issued (Nat.le_of_not_lt early) below

/-- The construction returns the blank automaton or what an exploration from the start has found. -/
theorem determinize_eq_ok (ran : (A.determinize target).run k = .ok (D, k')) :
    (A.start = none ∧ D = A.blankDfa target ∧ k' = k) ∨
      ∃ start e, A.start = some start ∧ A.Explored target k start e ∧ D = A.markFinals e ∧
        k' = e.counter := by
  cases found : A.start with
  | none =>
      rw [run_determinize_of_no_start found] at ran
      cases ran
      exact .inl ⟨rfl, rfl, rfl⟩
  | some start =>
      obtain ⟨e₀, e, begun, explored, rfl, rfl⟩ := (determinize_eq_ok_iff found).mp ran
      exact .inr ⟨start, e, rfl, explored_of_outset begun explored, rfl, rfl⟩

theorem wellFormed_determinize (ran : (A.determinize target).run k = .ok (D, k')) :
    D.WellFormed := by
  rcases determinize_eq_ok ran with ⟨_, rfl, _⟩ | ⟨start, e, _, explored, rfl, _⟩
  · exact wellFormed_blankDfa A target
  · refine explored.faithful.valid.marks explored.faithful.valid.start_mem ?_
    intro s final
    obtain ⟨S, met, _⟩ := mem_finals_markFinals.mp final
    exact explored.faithful.mem_states.mpr ⟨S, met⟩

theorem ids_determinize (ran : (A.determinize target).run k = .ok (D, k')) : D.ids = target := by
  rcases determinize_eq_ok ran with ⟨_, rfl, _⟩ | ⟨start, e, _, explored, rfl, _⟩
  · rfl
  · exact explored.ids

theorem alphabet_determinize (ran : (A.determinize target).run k = .ok (D, k')) :
    D.alphabet = A.alphabet := by
  rcases determinize_eq_ok ran with ⟨_, rfl, _⟩ | ⟨start, e, _, explored, rfl, _⟩
  · rfl
  · apply Std.ExtTreeSet.ext_mem
    intro c
    exact explored.faithful.mem_alphabet

theorem counter_determinize (ran : (A.determinize target).run k = .ok (D, k')) :
    k.next ≤ k'.next := by
  rcases determinize_eq_ok ran with ⟨_, _, rfl⟩ | ⟨start, e, _, explored, _, rfl⟩
  · exact Nat.le_refl _
  · exact explored.counter

/-- The states are those that the counter issues in the meantime. -/
theorem within_determinize (ran : (A.determinize target).run k = .ok (D, k')) {s : State}
    (member : s ∈ D.states) : k.next ≤ s.id ∧ s.id < k'.next := by
  rcases determinize_eq_ok ran with ⟨_, rfl, _⟩ | ⟨start, e, _, explored, rfl, rfl⟩
  · exact absurd member Std.ExtTreeSet.not_mem_empty
  · obtain ⟨S, met⟩ := explored.faithful.mem_states.mp member
    exact explored.faithful.within met

/-- Each state that the counter issues in the meantime stands for a subset. -/
theorem mem_states_determinize_iff (ran : (A.determinize target).run k = .ok (D, k')) {s : State} :
    s ∈ D.states ↔ k.next ≤ s.id ∧ s.id < k'.next := by
  refine ⟨within_determinize ran, ?_⟩
  rintro ⟨above, below⟩
  rcases determinize_eq_ok ran with ⟨_, _, rfl⟩ | ⟨start, e, _, explored, rfl, rfl⟩
  · omega
  · exact explored.faithful.mem_states.mpr (explored.issued above below)

theorem drawn_determinize (ran : (A.determinize target).run k = .ok (D, k')) :
    D.Drawn target (fun _ => False) k k' :=
  ⟨⟨wellFormed_determinize ran, fun member => (within_determinize ran member).2⟩,
    ids_determinize ran, counter_determinize ran,
    fun member => .inr (within_determinize ran member).1⟩

/-- The subset construction keeps the language. -/
theorem accepts_determinize_iff (valid : A.WellFormed)
    (ran : (A.determinize target).run k = .ok (D, k')) {input : List Char} :
    D.accepts input = true ↔ A.Accepts input := by
  rcases determinize_eq_ok ran with ⟨missing, rfl, _⟩ | ⟨start, e, found, explored, rfl, _⟩
  · rw [Dfa.accepts_of_start_eq_none rfl]
    refine iff_of_false nofun ?_
    rintro ⟨start, _, found, _⟩
    rw [missing] at found
    cases found
  obtain ⟨p, begun, first⟩ := explored.start
  have reach : ∀ {t : State}, t ∈ input.foldl A.successor (A.epsilonClosure [start]) ↔
      A.Path start input t := by
    intro t
    rw [mem_foldl_successor_iff (epsilonClosed_epsilonClosure _)]
    simp only [mem_epsilonClosure_iff, List.mem_singleton, exists_eq_left]
    constructor
    · rintro ⟨s, silent, path⟩
      exact silent.toPath.trans path
    · exact fun path => ⟨start, .refl start, path⟩
  rw [Dfa.accepts_iff_of_start (D := A.markFinals e) begun, runFrom_markFinals]
  constructor
  · rintro ⟨stop, reached, final⟩
    have met := numbers_of_runFrom explored.faithful first reached
    obtain ⟨S, same, t, member, accepting⟩ := mem_finals_markFinals.mp final
    obtain rfl := explored.faithful.injective met same
    exact ⟨start, t, found, accepting, reach.mp member⟩
  · rintro ⟨s, t, same, accepting, path⟩
    rw [found] at same
    cases same
    have member := reach.mpr path
    have some : input.foldl A.successor (A.epsilonClosure [start]) ≠ ∅ := by
      intro nothing
      rw [nothing] at member
      exact Std.ExtTreeSet.not_mem_empty member
    obtain ⟨stop, reached⟩ :=
      runFrom_of_foldl_ne_empty valid explored.faithful explored.finished first some
    have met := numbers_of_runFrom explored.faithful first reached
    exact ⟨stop, reached, mem_finals_markFinals.mpr ⟨_, met, t, member, accepting⟩⟩

end Determinize

end Nfa

end PostfixAutomata
