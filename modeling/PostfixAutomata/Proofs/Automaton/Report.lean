import Mathlib
import PostfixAutomata.Dfa.Transitions
import PostfixAutomata.Proofs.Description.Encoding
import PostfixAutomata.Proofs.Text.Delimited

set_option autoImplicit false

/-!
The report of an automaton gives back all that it says. Any character may be a symbol and none is
escaped, so a symbol may look like a line break or like the end of a list. But a blank follows
every symbol, and nothing else that the report may go on with in its place has a blank after it.
-/

namespace PostfixAutomata

open Text

/-! Names. -/

theorem State.text_injective : Function.Injective State.text := by
  intro s t same
  have read := State.ofText?_text s
  rw [same, State.ofText?_text] at read
  exact (Option.some.inj read).symm

theorem State.toList_text (s : State) : s.text.toList = Nat.toDigits 10 s.id := by
  rw [text, Nat.toString_eq_ofList_toDigits, String.toList_ofList]

/-- A state is told from what does not go on with a digit. -/
theorem State.delimited_text :
    Delimited (fun s : State => s.text.toList) (LeavesOff Char.isDigit) := by
  refine .of_class (fun s t same => State.text_injective (String.toList_injective same)) ?_
  intro s c member
  rw [toList_text] at member
  exact Nat.isDigit_of_mem_toDigits (by decide) (by decide) member

/-- A state is written with a digit first. -/
theorem State.text_append_ne (s : State) {c : Char} (other : c.isDigit = false) (t u : List Char) :
    s.text.toList ++ t ≠ c :: u := by
  rw [toList_text]
  cases digits : Nat.toDigits 10 s.id with
  | nil => exact absurd digits Nat.toDigits_ne_nil
  | cons d rest =>
      have member : d ∈ Nat.toDigits 10 s.id := by
        rw [digits]
        exact List.mem_cons_self
      have digit := Nat.isDigit_of_mem_toDigits (by decide) (by decide) member
      rintro ⟨⟩
      rw [other] at digit
      cases digit

theorem Label.delimited_text :
    Delimited (fun l : Label => l.text.toList) fun t => ∃ rest, t = ' ' :: '[' :: rest := by
  refine ⟨?_⟩
  rintro l m _ _ ⟨t, rfl⟩ ⟨u, rfl⟩ same
  -- ε shows by the bracket in the second place, where a symbol has a blank.
  cases l with
  | epsilon =>
      cases m with
      | epsilon => exact ⟨rfl, same⟩
      | symbol c => simp [text, reads, symbol?] at same
  | symbol c =>
      cases m with
      | epsilon => simp [text, reads, symbol?] at same
      | symbol d =>
          simp only [text, reads, symbol?, Option.toList_some, String.toList_ofList,
            List.cons_append, List.nil_append, List.cons.injEq] at same
          obtain ⟨rfl, rest⟩ := same
          exact ⟨rfl, by simpa using rest⟩

namespace Report

/-! Lines. -/

theorem toList_line (content : String) :
    (line content).toList = '%' :: ' ' :: (content.toList ++ ['\n']) := by
  simp [line]

theorem toList_setLine (name : String) (items : List String) :
    (setLine name items).toList =
      '%' :: ' ' :: (name.toList ++ ' ' :: '\x7b' ::
        (items.flatMap (fun item => ' ' :: item.toList) ++ [' ', '\x7d', '\n'])) := by
  simp [setLine, line, List.flatMap_map]

/-- A set is told from whatever follows it: an item has a blank before it and after it, and after
the last one stands a closing brace with a line break after it. -/
theorem delimited_setLine {α : Type} (name : String) (write : α → String)
    (item : Delimited (fun x => (write x).toList) (BeginsWith ' '))
    (apart : ∀ x t u, (write x).toList ++ ' ' :: t ≠ '\x7d' :: '\n' :: u) :
    Delimited (fun items : List α => (setLine name (items.map write)).toList) Anything := by
  have blankFirst : Delimited (fun x => ' ' :: (write x).toList) (BeginsWith ' ') :=
    ⟨fun afterT afterU same => item.split afterT afterU (List.cons.inj same).2⟩
  have items : Delimited (fun items : List α => items.flatMap fun x => ' ' :: (write x).toList)
      fun t => ∃ rest, t = ' ' :: '\x7d' :: '\n' :: rest := by
    refine blankFirst.flatMap (fun x t _ => beginsWith_cons ' ' _) ?_ ?_
    · rintro _ ⟨rest, rfl⟩
      exact beginsWith_cons ' ' _
    · rintro x _ _ ⟨t, rfl⟩ ⟨u, rfl⟩ same
      exact apart x t u (List.cons.inj same).2
  refine ⟨fun {xs ys t u} _ _ same => ?_⟩
  simp only [toList_setLine, List.flatMap_map, List.cons_append, List.append_assoc,
    List.nil_append, List.cons.injEq, true_and, List.append_cancel_left_eq] at same
  obtain ⟨rfl, rest⟩ := items.split ⟨t, rfl⟩ ⟨u, rfl⟩ same
  simpa using rest

theorem delimited_states (name : String) :
    Delimited (fun S : StateSet => (setLine name (S.toList.map State.text)).toList) Anything := by
  have item : Delimited (fun s : State => s.text.toList) (BeginsWith ' ') := by
    refine State.delimited_text.mono ?_
    rintro _ ⟨t, rfl⟩
    exact leavesOff_cons.mpr rfl
  have listed := delimited_setLine name State.text item fun s t u =>
    s.text_append_ne rfl (' ' :: t) ('\n' :: u)
  exact ⟨fun _ _ same => (listed.split trivial trivial same).imp_left Std.ExtTreeSet.toList_inj.mp⟩

theorem delimited_alphabet (name : String) :
    Delimited (fun S : Alphabet => (setLine name (S.toList.map String.singleton)).toList)
      Anything := by
  have item : Delimited (fun c : Char => (String.singleton c).toList) (BeginsWith ' ') := by
    refine ⟨fun _ _ same => ?_⟩
    simpa using same
  have apart : ∀ (c : Char) (t u : List Char),
      (String.singleton c).toList ++ ' ' :: t ≠ '\x7d' :: '\n' :: u := by
    intro c t u same
    simp at same
  have listed := delimited_setLine name String.singleton item apart
  exact ⟨fun _ _ same => (listed.split trivial trivial same).imp_left Std.ExtTreeSet.toList_inj.mp⟩

theorem delimited_start :
    Delimited (fun start : Option State => (line ("Start " ++ start.elim "" State.text)).toList)
      Anything := by
  refine ⟨fun {x y t u} _ _ same => ?_⟩
  simp only [toList_line, String.toList_append, List.cons_append, List.append_assoc,
    List.nil_append, List.cons.injEq, true_and, List.append_cancel_left_eq] at same
  cases x with
  | none =>
      cases y with
      | none => exact ⟨rfl, by simpa using same⟩
      | some s => exact absurd same.symm (s.text_append_ne rfl _ _)
  | some r =>
      cases y with
      | none => exact absurd same (r.text_append_ne rfl _ _)
      | some s =>
          obtain ⟨rfl, rest⟩ := State.delimited_text.split (leavesOff_cons.mpr rfl)
            (leavesOff_cons.mpr rfl) same
          exact ⟨rfl, (List.cons.inj rest).2⟩

end Report

open Report

namespace Automaton

variable {ρ : Type}

/-- What a report says before it comes to the transitions. -/
def heading (A : Automaton ρ) : String :=
  line ("Start " ++ A.start.elim "" State.text)
    ++ setLine "Final" (A.finals.toList.map State.text)
    ++ setLine "States" (A.states.toList.map State.text)
    ++ setLine "Alphabet" (A.alphabet.toList.map String.singleton)
    ++ line "Transitions \x7b"

theorem heading_split {A B : Automaton ρ} {t u : List Char}
    (same : A.heading.toList ++ t = B.heading.toList ++ u) :
    (A.start = B.start ∧ A.finals = B.finals ∧ A.states = B.states ∧ A.alphabet = B.alphabet) ∧
      t = u := by
  simp only [heading, String.toList_append, List.append_assoc] at same
  obtain ⟨start, same⟩ := delimited_start.split trivial trivial same
  obtain ⟨finals, same⟩ := (delimited_states "Final").split trivial trivial same
  obtain ⟨states, same⟩ := (delimited_states "States").split trivial trivial same
  obtain ⟨alphabet, same⟩ := (delimited_alphabet "Alphabet").split trivial trivial same
  exact ⟨⟨start, finals, states, alphabet⟩, List.append_cancel_left same⟩

/-- A heading, lines for some entries and the end of a report. -/
def reportOf {ε : Type} (write : ε → String) (A : Automaton ρ) (entries : List ε) : String :=
  A.heading ++ String.join (entries.map fun e => line (write e)) ++ "% \x7d"

/-- A report gives back the heading and the entries, if the line of each entry can be told from what
follows it and begins unlike the end. -/
theorem reportOf_split {ε : Type} {write : ε → String}
    (item : Delimited (fun e => (line (write e)).toList) Anything)
    (indented : ∀ e, BeginsWith ' ' (write e).toList) {A B : Automaton ρ} {entries others : List ε}
    (same : A.reportOf write entries = B.reportOf write others) :
    (A.start = B.start ∧ A.finals = B.finals ∧ A.states = B.states ∧ A.alphabet = B.alphabet) ∧
      entries = others := by
  have lines : Delimited (fun entries : List ε => entries.flatMap fun e => (line (write e)).toList)
      (· = ['%', ' ', '\x7d']) := by
    refine item.flatMap (fun _ _ _ => trivial) (fun _ => trivial) ?_
    rintro e t _ _ rfl same
    obtain ⟨rest, begins⟩ := indented e
    rw [toList_line, begins] at same
    cases same
  have texts := congrArg String.toList same
  simp only [reportOf, String.toList_append, String.toList_join, List.flatMap_map,
    List.append_assoc] at texts
  obtain ⟨headings, rest⟩ := heading_split texts
  exact ⟨headings, (lines.split rfl rfl rest).1⟩

/-- A report lists these entries, and cannot be read as listing others. -/
structure Lists {ε : Type} (A : Automaton ρ) (write : ε → String) (report : String)
    (entries : List ε) : Prop where
  report_eq : report = A.reportOf write entries
  unique : ∀ others, report = A.reportOf write others → others = entries

end Automaton

namespace Nfa

/-- The entries of the report: each state with each label that leaves it and all destinations. -/
def entries (A : Nfa) : List (State × Label × StateSet) :=
  A.rows.toList.flatMap fun (p, row) => row.toList.map (p, ·)

def entryText : State × Label × StateSet → String
  | (p, l, targets) => entry p l targets

theorem report_eq (A : Nfa) : A.report = A.reportOf entryText A.entries := by
  simp only [report, Automaton.reportWith, Automaton.reportOf, Automaton.heading, entries,
    List.map_flatMap, List.map_map]
  rfl

/-- The transitions are the entries, one for each destination. -/
theorem edgeList_eq (A : Nfa) :
    A.edgeList =
      A.entries.flatMap fun (p, l, targets) => targets.toList.map fun q => (p, l, q) := by
  simp only [Automaton.edgeList, entries, TransitionRow.edges, List.flatMap_assoc,
    List.map_flatMap, List.flatMap_map, List.map_map]
  rfl

theorem delimited_targets :
    Delimited (fun S : StateSet => (String.intercalate ", " (S.toList.map State.text)).toList)
      (BeginsWith ']') := by
  have listed : Delimited (fun states : List State =>
      [',', ' '].intercalate (states.map fun s => s.text.toList)) (BeginsWith ']') := by
    refine State.delimited_text.intercalate (fun t => leavesOff_cons.mpr rfl) ?_ ?_ ?_
    · rintro _ ⟨t, rfl⟩
      exact leavesOff_cons.mpr rfl
    · rintro s t _ ⟨u, rfl⟩
      exact s.text_append_ne rfl t u
    · rintro t _ ⟨u, rfl⟩ same
      cases same
  refine ⟨fun {S T t u} closes closes' same => ?_⟩
  simp only [String.toList_intercalate, List.map_map] at same
  exact (listed.split closes closes' same).imp_left Std.ExtTreeSet.toList_inj.mp

theorem toList_entryText (p : State) (l : Label) (targets : StateSet) :
    (entryText (p, l, targets)).toList = ' ' :: '(' :: (p.text.toList ++ ' ' :: (l.text.toList ++
      ' ' :: '[' :: ((String.intercalate ", " (targets.toList.map State.text)).toList ++
        [']', ')']))) := by
  simp [entryText, entry]

theorem delimited_entry :
    Delimited (fun e : State × Label × StateSet => (line (entryText e)).toList) Anything := by
  refine ⟨?_⟩
  rintro ⟨p, l, targets⟩ ⟨p', l', targets'⟩ t u _ _ same
  simp only [toList_line, toList_entryText, List.append_assoc, List.cons_append, List.nil_append,
    List.cons.injEq, true_and] at same
  obtain ⟨rfl, afterState⟩ := State.delimited_text.split (leavesOff_cons.mpr rfl)
    (leavesOff_cons.mpr rfl) same
  obtain ⟨rfl, afterLabel⟩ := Label.delimited_text.split ⟨_, rfl⟩ ⟨_, rfl⟩
    (List.cons.inj afterState).2
  simp only [List.cons.injEq, true_and] at afterLabel
  obtain ⟨rfl, afterTargets⟩ := delimited_targets.split ⟨_, rfl⟩ ⟨_, rfl⟩ afterLabel
  simp only [List.cons.injEq, true_and] at afterTargets
  exact ⟨rfl, afterTargets⟩

theorem reportOf_split {A B : Nfa} {entries others : List (State × Label × StateSet)}
    (same : A.reportOf entryText entries = B.reportOf entryText others) :
    (A.start = B.start ∧ A.finals = B.finals ∧ A.states = B.states ∧ A.alphabet = B.alphabet) ∧
      entries = others :=
  Automaton.reportOf_split delimited_entry
    (fun (p, l, targets) => ⟨_, toList_entryText p l targets⟩) same

theorem lists_entries (A : Nfa) : A.Lists entryText A.report A.entries where
  report_eq := A.report_eq
  unique _ same := (reportOf_split (same.symm.trans A.report_eq)).2

end Nfa

namespace Dfa

def entryText : State × Char × State → String
  | (p, c, q) => entry p c q

/-- The report has one entry for each transition. -/
theorem report_eq (D : Dfa) : D.report = D.reportOf entryText D.edgeList := by
  simp only [report, Automaton.reportWith, Automaton.reportOf, Automaton.heading,
    Automaton.edgeList, List.map_flatMap, List.map_map]
  rfl

theorem toList_entryText (p : State) (c : Char) (q : State) :
    (entryText (p, c, q)).toList =
      ' ' :: '(' :: (p.text.toList ++ ' ' :: c :: ' ' :: (q.text.toList ++ [')'])) := by
  simp [entryText, entry]

theorem delimited_entry :
    Delimited (fun e : State × Char × State => (line (entryText e)).toList) Anything := by
  refine ⟨?_⟩
  rintro ⟨p, c, q⟩ ⟨p', c', q'⟩ t u _ _ same
  simp only [toList_line, toList_entryText, List.append_assoc, List.cons_append, List.nil_append,
    List.cons.injEq, true_and] at same
  obtain ⟨rfl, afterState⟩ := State.delimited_text.split (leavesOff_cons.mpr rfl)
    (leavesOff_cons.mpr rfl) same
  simp only [List.cons.injEq, true_and] at afterState
  obtain ⟨rfl, afterSymbol⟩ := afterState
  obtain ⟨rfl, afterTarget⟩ := State.delimited_text.split (leavesOff_cons.mpr rfl)
    (leavesOff_cons.mpr rfl) afterSymbol
  simp only [List.cons.injEq, true_and] at afterTarget
  exact ⟨rfl, afterTarget⟩

theorem reportOf_split {D E : Dfa} {entries others : List (State × Char × State)}
    (same : D.reportOf entryText entries = E.reportOf entryText others) :
    (D.start = E.start ∧ D.finals = E.finals ∧ D.states = E.states ∧ D.alphabet = E.alphabet) ∧
      entries = others :=
  Automaton.reportOf_split delimited_entry (fun (p, c, q) => ⟨_, toList_entryText p c q⟩) same

theorem lists_edgeList (D : Dfa) : D.Lists entryText D.report D.edgeList where
  report_eq := D.report_eq
  unique _ same := (reportOf_split (same.symm.trans D.report_eq)).2

end Dfa

/-- Automata of one kind with equal reports are equal but for their counters: they have the same
start, states, final states, alphabet and transitions, whatever characters their symbols are. -/
theorem Automaton.reports_are_lossless :
    (∀ A B : Nfa, A.report = B.report →
      A.start = B.start ∧ A.states = B.states ∧ A.finals = B.finals ∧ A.alphabet = B.alphabet ∧
        ∀ p l, A.targets p l = B.targets p l) ∧
    ∀ D E : Dfa, D.report = E.report →
      D.start = E.start ∧ D.states = E.states ∧ D.finals = E.finals ∧ D.alphabet = E.alphabet ∧
        ∀ p c, D.target? p c = E.target? p c := by
  constructor
  · intro A B same
    rw [A.report_eq, B.report_eq] at same
    obtain ⟨⟨start, finals, states, alphabet⟩, entries⟩ := Nfa.reportOf_split same
    refine ⟨start, states, finals, alphabet, fun p l => StateSet.ext_iff.mpr fun q => ?_⟩
    rw [← Nfa.mem_edgeList, ← Nfa.mem_edgeList, A.edgeList_eq, B.edgeList_eq, entries]
  · intro D E same
    rw [D.report_eq, E.report_eq] at same
    obtain ⟨⟨start, finals, states, alphabet⟩, entries⟩ := Dfa.reportOf_split same
    refine ⟨start, states, finals, alphabet, fun p c => Option.ext fun q => ?_⟩
    rw [← Dfa.mem_edgeList, ← Dfa.mem_edgeList, entries]

/-- A description whose symbols look like the punctuation of a report, in some order. -/
def punctuation (target : Nat → Data) (order : List (String × Data) → List (String × Data)) :
    Data :=
  .record [("transitions", .record (order
    [("0", .record (order [("\n", target 10), ("[", target 0)])),
      ("10", .record [("\x7d", target 0)])]))]

theorem Automaton.reports_are_lossless_punctuation :
    (∃ A B : Nfa, Nfa.ofData ⟨0⟩ (punctuation (.list [.natural ·]) id) = .ok A ∧
      Nfa.ofData ⟨1⟩ (punctuation (.list [.natural ·]) List.reverse) = .ok B ∧
      A.report = B.report ∧ ∀ p l, A.targets p l = B.targets p l) ∧
    ∃ D E : Dfa, Dfa.ofData ⟨0⟩ (punctuation .natural id) = .ok D ∧
      Dfa.ofData ⟨1⟩ (punctuation .natural List.reverse) = .ok E ∧
      D.report = E.report ∧ ∀ p c, D.target? p c = E.target? p c := by
  have nfas : ((Nfa.ofData ⟨0⟩ (punctuation (.list [.natural ·]) id)).toOption.bind fun A =>
      (Nfa.ofData ⟨1⟩ (punctuation (.list [.natural ·]) List.reverse)).toOption.bind fun B =>
        if A.report = B.report then some (A, B) else none).isSome = true := by cbv
  have dfas : ((Dfa.ofData ⟨0⟩ (punctuation .natural id)).toOption.bind fun D =>
      (Dfa.ofData ⟨1⟩ (punctuation .natural List.reverse)).toOption.bind fun E =>
        if D.report = E.report then some (D, E) else none).isSome = true := by cbv
  constructor
  · obtain ⟨_, chained⟩ := Option.isSome_iff_exists.mp nfas
    obtain ⟨A, builtA, chained⟩ := Option.bind_eq_some_iff.mp chained
    obtain ⟨B, builtB, chained⟩ := Option.bind_eq_some_iff.mp chained
    obtain ⟨same, _⟩ := Option.ite_none_right_eq_some.mp chained
    obtain ⟨_, _, _, _, targets⟩ := reports_are_lossless.1 A B same
    exact ⟨A, B, toOption_eq_some_iff.mp builtA, toOption_eq_some_iff.mp builtB, same, targets⟩
  · obtain ⟨_, chained⟩ := Option.isSome_iff_exists.mp dfas
    obtain ⟨D, builtD, chained⟩ := Option.bind_eq_some_iff.mp chained
    obtain ⟨E, builtE, chained⟩ := Option.bind_eq_some_iff.mp chained
    obtain ⟨same, _⟩ := Option.ite_none_right_eq_some.mp chained
    obtain ⟨_, _, _, _, target⟩ := reports_are_lossless.2 D E same
    exact ⟨D, E, toOption_eq_some_iff.mp builtD, toOption_eq_some_iff.mp builtE, same, target⟩

end PostfixAutomata
