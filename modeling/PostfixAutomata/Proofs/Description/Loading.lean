import PostfixAutomata.Proofs.Description.Encoding

set_option autoImplicit false

/-!
Loading automata from any data. Data may name things in any order, more than once, or only in
passing. Where it reads as a description it leads to an automaton with just what it names: states
without transitions and symbols without transitions stay, and labels without destinations go.
-/

namespace PostfixAutomata

open TransitionRow

/-! Data that names each field once. -/

namespace Data

/-- Data whose records name each field once. -/
inductive Distinct : Data → Prop
  | null : Distinct .null
  | bool (b : Bool) : Distinct (.bool b)
  | natural (n : Nat) : Distinct (.natural n)
  | otherNumber : Distinct .otherNumber
  | text (s : String) : Distinct (.text s)
  | list {items : List Data} : (∀ item ∈ items, Distinct item) → Distinct (.list items)
  | record {fields : List (String × Data)} : (fields.map Prod.fst).Nodup →
    (∀ field ∈ fields, Distinct field.2) → Distinct (.record fields)

theorem forall₂_of_mapM {α β : Type} {read : α → Except LoadError β} {items : List α}
    {results : List β} (ran : items.mapM read = .ok results) :
    List.Forall₂ (fun item result => read item = .ok result) items results := by
  induction items generalizing results with
  | nil =>
      cases ran
      exact .nil
  | cons item items ih =>
      rw [List.mapM_cons] at ran
      obtain ⟨result, read, ran⟩ := bind_eq_ok_iff.mp ran
      obtain ⟨later, remaining, done⟩ := bind_eq_ok_iff.mp ran
      cases done
      exact .cons read (ih remaining)

section Record

variable {α β : Type} {name : String → Except LoadError α} {value : Data → Except LoadError β}
  {fields : List (String × Data)} {pairs : List (α × β)}

theorem readRecord_eq_ok {data : Data} (ran : readRecord name value data = .ok pairs) :
    ∃ fields, data = .record fields ∧
      List.Forall₂ (fun field pair => name field.1 = .ok pair.1 ∧ value field.2 = .ok pair.2)
        fields pairs := by
  cases data with
  | record fields =>
      refine ⟨fields, rfl, (forall₂_of_mapM ran).imp ?_⟩
      rintro ⟨key, content⟩ pair read
      obtain ⟨a, named, read⟩ := bind_eq_ok_iff.mp read
      obtain ⟨b, valued, done⟩ := bind_eq_ok_iff.mp read
      cases done
      exact ⟨named, valued⟩
  | null | bool | natural | otherNumber | text | list => cases ran

/-- Every pair is read from a field. -/
theorem exists_field {R : String × Data → α × β → Prop} (read : List.Forall₂ R fields pairs) :
    ∀ pair ∈ pairs, ∃ field ∈ fields, R field pair := by
  induction read with
  | nil => exact nofun
  | cons first _ ih =>
      refine List.forall_mem_cons.mpr ⟨⟨_, List.mem_cons_self, first⟩, fun pair listed => ?_⟩
      obtain ⟨field, inside, related⟩ := ih pair listed
      exact ⟨field, List.mem_cons_of_mem _ inside, related⟩

/-- What is read from distinct names is distinct, if it can be written in one way only. -/
theorem nodup_keys (written : ∀ {s t : String} {a : α}, name s = .ok a → name t = .ok a → s = t)
    (read : List.Forall₂ (fun field pair => name field.1 = .ok pair.1 ∧ value field.2 = .ok pair.2)
      fields pairs)
    (distinct : (fields.map Prod.fst).Nodup) : (pairs.map Prod.fst).Nodup := by
  induction read with
  | nil => exact List.nodup_nil
  | cons first rest ih =>
      rw [List.map_cons, List.nodup_cons] at distinct ⊢
      refine ⟨fun repeated => distinct.1 ?_, ih distinct.2⟩
      obtain ⟨other, listed, same⟩ := List.mem_map.mp repeated
      obtain ⟨field, inside, named, _⟩ := exists_field rest other listed
      rw [same] at named
      rw [written first.1 named]
      exact List.mem_map_of_mem inside

theorem readRecord_distinct {data : Data}
    (written : ∀ {s t : String} {a : α}, name s = .ok a → name t = .ok a → s = t)
    (distinct : data.Distinct) (ran : readRecord name value data = .ok pairs) :
    (pairs.map Prod.fst).Nodup ∧
      ∀ pair ∈ pairs, ∃ content, Distinct content ∧ value content = .ok pair.2 := by
  obtain ⟨fields, rfl, read⟩ := readRecord_eq_ok ran
  cases distinct with
  | record names contents =>
      refine ⟨nodup_keys written read names, fun pair listed => ?_⟩
      obtain ⟨field, inside, _, valued⟩ := exists_field read pair listed
      exact ⟨field.2, contents field inside, valued⟩

end Record

theorem readStateText_inj {s t : String} {p : State} (first : readStateText s = .ok p)
    (second : readStateText t = .ok p) : s = t := by
  have written : ∀ {s : String}, readStateText s = .ok p → s = p.text := by
    intro s read
    unfold readStateText at read
    cases found : State.ofText? s with
    | none =>
        rw [found] at read
        cases read
    | some q =>
        rw [found] at read
        cases read
        exact (of_decide_eq_true (Option.filter_eq_some_iff.mp found).2).symm
  rw [written first, written second]

theorem readSymbolText_inj {s t : String} {c : Char} (first : readSymbolText s = .ok c)
    (second : readSymbolText t = .ok c) : s = t := by
  have written : ∀ {s : String}, readSymbolText s = .ok c → s.toList = [c] := by
    intro s read
    unfold readSymbolText at read
    split at read
    · rename_i single
      cases read
      exact single
    · cases read
  exact String.toList_injective ((written first).trans (written second).symm)

end Data

namespace Description

variable {ε : Type} {row : Data → Except LoadError (List ε)}

/-- Whether the transitions of a description were read from some data, or there are none yet. -/
def FromData (row : Data → Except LoadError (List ε)) (d : Description ε) : Prop :=
  d.transitions = [] ∨ ∃ content : Data, content.Distinct ∧
    content.readRecord Data.readStateText row = .ok d.transitions

variable {d d' : Description ε}

theorem FromData.readPart {part : String × Data} (before : d.FromData row)
    (distinct : part.2.Distinct) (read : readPart row d part = .ok d') : d'.FromData row := by
  unfold Description.readPart at read
  split at read
  · cases read
    exact before
  · obtain ⟨_, _, ⟨⟩⟩ := bind_eq_ok_iff.mp read
    exact before
  · obtain ⟨_, _, ⟨⟩⟩ := bind_eq_ok_iff.mp read
    exact before
  · obtain ⟨_, _, ⟨⟩⟩ := bind_eq_ok_iff.mp read
    exact before
  · obtain ⟨_, _, ⟨⟩⟩ := bind_eq_ok_iff.mp read
    exact before
  · obtain ⟨_, entries, ⟨⟩⟩ := bind_eq_ok_iff.mp read
    exact .inr ⟨_, distinct, entries⟩
  · cases read

theorem FromData.foldlM {parts : List (String × Data)} (before : d.FromData row)
    (distinct : ∀ part ∈ parts, part.2.Distinct)
    (read : parts.foldlM (Description.readPart row) d = .ok d') : d'.FromData row := by
  induction parts generalizing d with
  | nil =>
      cases read
      exact before
  | cons part parts ih =>
      obtain ⟨here, distinct⟩ := List.forall_mem_cons.mp distinct
      rw [List.foldlM_cons] at read
      obtain ⟨between, first, read⟩ := bind_eq_ok_iff.mp read
      exact ih (before.readPart here first) distinct read

theorem fromData_of_ofData {data : Data} (distinct : data.Distinct)
    (read : ofData row data = .ok d) : d.FromData row := by
  have nothing : ({} : Description ε).FromData row := .inl rfl
  cases distinct with
  | record _ contents => exact nothing.foldlM contents read
  | list items =>
      obtain ⟨d', read, done⟩ := bind_eq_ok_iff.mp read
      split at done
      · cases done
        exact nothing.foldlM (fun part listed => items _ (List.of_mem_zip listed).2) read
      · cases done
  | null | bool | natural | otherNumber | text => cases read

end Description

/-! Nondeterministic automata. -/

namespace Nfa

variable {ids : AllocatorId} {d : Description Entry} {data : Data} {p : State} {l : Label}

/-- The transitions of an entry. -/
def expand : Entry → List (Label × State) := fun (l, targets) => targets.map (l, ·)

/-- Reads the description of a nondeterministic automaton. -/
def readDescription : Data → Except LoadError (Description Entry) :=
  Description.ofData (Data.readRecord Data.readLabelText (Data.readList Data.readState))

theorem describedBy_ofDescription (ids : AllocatorId) (d : Description Entry) :
    Automaton.DescribedBy expand d (ofDescription ids d) := by
  refine Automaton.describedBy_ofDescription fun p l q => ?_
  rw [Row.mem_edges_iff, Row.mem_destinations_linkRow]
  exact or_iff_left Std.ExtTreeSet.not_mem_empty

end Nfa

/-! Deterministic automata. -/

namespace Dfa

namespace Row

/-- Linking transitions under different symbols adds them all. -/
theorem getElem?_linkRow {r : Dfa.Row} {edges : List (Char × State)}
    (functional : ∀ {c q q'}, (c, q) ∈ edges → (c, q') ∈ edges → q = q') {c : Char} {q : State} :
    (Automaton.linkRow r edges)[c]? = some q ↔
      (c, q) ∈ edges ∨ r[c]? = some q ∧ ∀ q', (c, q') ∉ edges := by
  induction edges generalizing r with
  | nil => simp [Automaton.linkRow]
  | cons edge rest ih =>
      obtain ⟨d, t⟩ := edge
      change (Automaton.linkRow (r.insert d t) rest)[c]? = some q ↔ _
      rw [ih fun first second => functional (List.mem_cons_of_mem _ first)
        (List.mem_cons_of_mem _ second), Std.ExtTreeMap.getElem?_insert]
      by_cases same : d = c
      · subst same
        rw [if_pos (Std.LawfulEqCmp.compare_eq_iff_eq.mpr rfl), Option.some.injEq]
        constructor
        · rintro (later | ⟨rfl, _⟩)
          · exact .inl (List.mem_cons_of_mem _ later)
          · exact .inl List.mem_cons_self
        · rintro (listed | ⟨_, absent⟩)
          · obtain rfl := functional List.mem_cons_self listed
            by_cases again : (d, t) ∈ rest
            · exact .inl again
            · refine .inr ⟨rfl, fun q' later => again ?_⟩
              rwa [functional List.mem_cons_self (List.mem_cons_of_mem _ later)]
          · exact absurd List.mem_cons_self (absent t)
      · have others : ∀ q', (c, q') ∈ (d, t) :: rest ↔ (c, q') ∈ rest := by
          intro q'
          simp [Ne.symm same]
        rw [if_neg fun equal => same (Std.LawfulEqCmp.compare_eq_iff_eq.mp equal)]
        simp only [others]

/-- A row has the transitions that it was linked from. -/
theorem getElem?_linkRow_blank {edges : List (Char × State)}
    (functional : ∀ {c q q'}, (c, q) ∈ edges → (c, q') ∈ edges → q = q') {c : Char} {q : State} :
    (Automaton.linkRow (blank : Dfa.Row) edges)[c]? = some q ↔ (c, q) ∈ edges := by
  rw [getElem?_linkRow functional]
  refine or_iff_left fun ⟨impossible, _⟩ => ?_
  have nothing : (blank : Dfa.Row)[c]? = none := Std.ExtTreeMap.getElem?_empty
  rw [nothing] at impossible
  cases impossible

end Row

variable {ids : AllocatorId} {d : Description Entry} {data : Data} {p : State} {c : Char}

/-- The transition of an entry. -/
def expand : Entry → List (Char × State) := fun (c, q) => [(c, q)]

/-- Reads the description of a deterministic automaton. -/
def readDescription : Data → Except LoadError (Description Entry) :=
  Description.ofData (Data.readRecord Data.readSymbolText Data.readState)

theorem mem_edges_expand {q : State} :
    (p, c, q) ∈ d.edges expand ↔ ∃ entry ∈ d.transitions, entry.1 = p ∧ (c, q) ∈ entry.2 := by
  have plain : ∀ row : List Entry, row.flatMap expand = row := List.flatMap_singleton'
  simp only [Description.edges, plain, List.mem_flatMap, List.mem_map, Prod.mk.injEq]
  constructor
  · rintro ⟨⟨_, row⟩, listed, _, inside, rfl, rfl⟩
    exact ⟨_, listed, rfl, inside⟩
  · rintro ⟨⟨_, row⟩, listed, rfl, inside⟩
    exact ⟨_, listed, _, inside, rfl, rfl⟩

/-- Data that names each field once lists at most one transition of a state on a symbol. -/
theorem edges_functional (distinct : data.Distinct) (read : readDescription data = .ok d)
    {q q' : State} (first : (p, c, q) ∈ d.edges expand) (second : (p, c, q') ∈ d.edges expand) :
    q = q' := by
  obtain ⟨⟨_, row⟩, listed, rfl, inside⟩ := mem_edges_expand.mp first
  obtain ⟨⟨_, row'⟩, listed', same, inside'⟩ := mem_edges_expand.mp second
  rcases Description.fromData_of_ofData distinct read with nothing | ⟨content, distinct, read⟩
  · rw [nothing] at listed
    cases listed
  · obtain ⟨keys, contents⟩ := Data.readRecord_distinct Data.readStateText_inj distinct read
    obtain ⟨content, distinct, read⟩ := contents _ listed
    obtain ⟨symbols, _⟩ := Data.readRecord_distinct Data.readSymbolText_inj distinct read
    have sameRow := List.inj_on_of_nodup_map keys listed' listed same
    cases sameRow
    exact congrArg Prod.snd (List.inj_on_of_nodup_map symbols inside inside' rfl)

theorem describedBy_ofDescription (ids : AllocatorId) (distinct : data.Distinct)
    (read : readDescription data = .ok d) :
    Automaton.DescribedBy expand d (ofDescription ids d) := by
  refine Automaton.describedBy_ofDescription fun p c q => ?_
  have functional : ∀ {c q q'}, (c, q) ∈ Automaton.leaving (d.edges expand) p →
      (c, q') ∈ Automaton.leaving (d.edges expand) p → q = q' := by
    intro c q q' first second
    exact edges_functional distinct read (Automaton.mem_leaving.mp first)
      (Automaton.mem_leaving.mp second)
  rw [Row.mem_edges_iff, Row.getElem?_linkRow_blank functional]

end Dfa

end PostfixAutomata
