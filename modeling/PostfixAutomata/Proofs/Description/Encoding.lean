import PostfixAutomata.Description.Encoding
import PostfixAutomata.Proofs.Description
import PostfixAutomata.Proofs.Dfa.Runs
import PostfixAutomata.Proofs.Nfa.Merge

set_option autoImplicit false

/-!
Saving an automaton and loading it again. Names of states and labels are read as they are written,
so the data that an automaton is saved as leads to its own description, and that to the automaton.
-/

namespace PostfixAutomata

open TransitionRow LawfulTransitionRow

/-! Names. -/

/-- A number is what its decimal digits denote. -/
theorem Text.valueOf_toString (n : Nat) : valueOf (toString n).toList = n := by
  have digits : valueOf (toString n).toList = Nat.ofDigitChars 10 (toString n).toList 0 :=
    Nat.ofDigitChars_eq_foldl.symm
  rw [digits, Nat.toString_eq_ofList_toDigits, String.toList_ofList, Nat.ofDigitChars_ten_toDigits]

theorem State.ofText?_text (s : State) : ofText? s.text = some s := by
  have value : ofNat? (Text.valueOf s.text.toList) = some s := by
    rw [ofNat?_eq_some_iff]
    exact (Text.valueOf_toString s.id).symm
  rw [ofText?, value]
  simp

namespace Data

theorem readState_natural (s : State) : readState (.natural s.id) = .ok s := by
  rw [readState, State.ofNat?_eq_some_iff.mpr rfl]
  rfl

theorem readStateText_text (s : State) : readStateText s.text = .ok s := by
  rw [readStateText, State.ofText?_text]
  rfl

theorem readSymbolText_singleton (c : Char) : readSymbolText (String.singleton c) = .ok c := by
  rw [readSymbolText, String.toList_singleton]

theorem readSymbol_singleton (c : Char) : readSymbol (.text (String.singleton c)) = .ok c :=
  readSymbolText_singleton c

theorem readLabelText_text (l : Label) : readLabelText l.text = .ok l := by
  rw [readLabelText, Label.ofText_text]

/-- Items are read one by one. -/
theorem mapM_map_of_inverse {α β : Type} {read : β → Except LoadError α} {write : α → β}
    (inverse : ∀ a, read (write a) = .ok a) (items : List α) :
    (items.map write).mapM read = .ok items := by
  induction items with
  | nil => rfl
  | cons a rest ih =>
      rw [List.map_cons, List.mapM_cons, inverse, ih]
      rfl

theorem readList_map {α : Type} {read : Data → Except LoadError α} {write : α → Data}
    (inverse : ∀ a, read (write a) = .ok a) (items : List α) :
    readList read (.list (items.map write)) = .ok items :=
  mapM_map_of_inverse inverse items

theorem readRecord_map {α β : Type} {name : String → Except LoadError α}
    {value : Data → Except LoadError β} {writeName : α → String} {write : β → Data}
    (names : ∀ a, name (writeName a) = .ok a) (values : ∀ b, value (write b) = .ok b)
    (fields : List (α × β)) :
    readRecord name value (.record (fields.map fun (a, b) => (writeName a, write b))) =
      .ok fields := by
  refine mapM_map_of_inverse ?_ fields
  rintro ⟨a, b⟩
  simp only [names, values]
  rfl

end Data

namespace Nfa.Row

/-- Linking transitions adds them and nothing else. -/
theorem mem_destinations_linkRow {r : Nfa.Row} {edges : List (Label × State)} {l : Label}
    {q : State} :
    q ∈ (Automaton.linkRow r edges).destinations l ↔ (l, q) ∈ edges ∨ q ∈ r.destinations l := by
  induction edges generalizing r with
  | nil => simp [Automaton.linkRow]
  | cons edge rest ih =>
      obtain ⟨m, t⟩ := edge
      change q ∈ (Automaton.linkRow (link r m t) rest).destinations l ↔ _
      rw [ih, destinations_link, List.mem_cons, Prod.mk.injEq]
      by_cases same : m = l
      · rw [if_pos same, same, StateSet.mem_insert_iff]
        simp only [true_and, or_assoc, or_left_comm]
      · rw [if_neg same]
        simp only [Ne.symm same, false_and, false_or]

/-- A row that stores no empty set comes back from its transitions. -/
theorem lossless : Automaton.Lossless (fun r : Nfa.Row => r.toList.map fun (l, targets) =>
    (l, targets.toList)) (fun (l, targets) => targets.map (l, ·)) where
  edges_eq r := List.flatMap_map _ _ _
  linkRow_eq {r} tidy := by
    have tidyLinked : Tidy (Automaton.linkRow (blank : Nfa.Row) (edges r)) :=
      @Automaton.tidy_linkRow _ _ _ _ _ tidy_blank (edges r)
    refine ext_of_tidy tidyLinked tidy fun l q => ?_
    rw [mem_destinations_linkRow, mem_edges_iff]
    exact or_iff_left Std.ExtTreeSet.not_mem_empty

end Nfa.Row

namespace Dfa.Row

theorem linkRow_eq_insertMany (r : Dfa.Row) (edges : List (Char × State)) :
    Automaton.linkRow r edges = r.insertMany edges := by
  induction edges generalizing r with
  | nil => rfl
  | cons edge rest ih =>
      rw [Std.ExtTreeMap.insertMany_cons]
      exact ih _

/-- A row comes back from its transitions. -/
theorem lossless : Automaton.Lossless (fun r : Dfa.Row => r.toList) (fun (c, q) => [(c, q)]) where
  edges_eq r := List.flatMap_singleton' _
  linkRow_eq {r} _ := by
    refine Std.ExtTreeMap.ext_getElem? fun c => ?_
    rw [linkRow_eq_insertMany]
    cases stored : r[c]? with
    | none =>
        have keys : (edges r).map Prod.fst = r.keys := Std.ExtTreeMap.map_fst_toList_eq_keys
        have absent : ((edges r).map Prod.fst).contains c = false := by
          rw [keys, Std.ExtTreeMap.contains_keys, Std.ExtTreeMap.contains_eq_isSome_getElem?,
            stored]
          rfl
        rw [Std.ExtTreeMap.getElem?_insertMany_list_of_contains_eq_false absent]
        exact Std.ExtTreeMap.getElem?_empty
    | some q =>
        exact Std.ExtTreeMap.getElem?_insertMany_list_of_mem
          (Std.LawfulEqCmp.compare_eq_iff_eq.mpr rfl) Std.ExtTreeMap.distinct_keys_toList
          (Std.ExtTreeMap.mem_toList_iff_getElem?_eq_some.mpr stored)

end Dfa.Row

namespace Description

variable {ε : Type} {row : Data → Except LoadError (List ε)} {write : List ε → Data}

/-- A description is read as it was written, if its rows are. -/
theorem ofData_toData (inverse : ∀ entries, row (write entries) = .ok entries)
    (d : Description ε) : ofData row (d.toData write) = .ok d := by
  obtain ⟨start, states, finals, alphabet, transitions⟩ := d
  have statesRead := Data.readList_map Data.readState_natural
  have symbolsRead := Data.readList_map Data.readSymbol_singleton alphabet
  have transitionsRead := Data.readRecord_map Data.readStateText_text inverse transitions
  have startRead : ∀ d : Description ε, readPart row d
      ("start", start.elim .null fun s => .natural s.id) = .ok { d with start } := by
    intro d
    cases start with
    | none => rfl
    | some s =>
        simp only [Option.elim_some, readPart, Data.readState_natural]
        rfl
  simp only [toData, ofData, List.foldlM_cons, List.foldlM_nil, startRead]
  simp only [readPart, statesRead, symbolsRead, transitionsRead]
  rfl

end Description

namespace Nfa

variable {A : Nfa}

/-- A nondeterministic automaton is loaded as it was saved, with any counter. -/
theorem ofData_toData (valid : A.WellFormed) (ids : AllocatorId) :
    ofData ids A.toData = .ok { A with ids } := by
  have read := Description.ofData_toData (Data.readRecord_map Data.readLabelText_text
    (Data.readList_map Data.readState_natural)) A.describe
  have described : ofDescription ids A.describe = { A with ids } :=
    Automaton.ofDescription_describe Row.lossless valid ids
  rw [ofData, toData, read, ← described]
  rfl

end Nfa

namespace Dfa

variable {D : Dfa}

/-- A deterministic automaton is loaded as it was saved, with any counter. -/
theorem ofData_toData (valid : D.WellFormed) (ids : AllocatorId) :
    ofData ids D.toData = .ok { D with ids } := by
  have read := Description.ofData_toData (Data.readRecord_map Data.readSymbolText_singleton
    Data.readState_natural) D.describe
  have described : ofDescription ids D.describe = { D with ids } :=
    Automaton.ofDescription_describe Row.lossless valid ids
  rw [ofData, toData, read, ← described]
  rfl

end Dfa

end PostfixAutomata
