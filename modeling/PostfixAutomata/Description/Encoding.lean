import PostfixAutomata.Description
import PostfixAutomata.Text.Decimal

set_option autoImplicit false

/-!
Descriptions as self-describing data: a record of the five parts of an automaton, whose transitions
are records of records under the names of states and of labels. Reading goes through the data in
order and stops at the first mistake.
-/

namespace PostfixAutomata

/-- Data that tells its own shape. -/
inductive Data
  | null
  | bool (b : Bool)
  | natural (n : Nat)
  /-- A number that is negative or not whole. -/
  | otherNumber
  | text (s : String)
  | list (items : List Data)
  /-- Named fields, each name once. -/
  | record (fields : List (String × Data))
deriving Inhabited

/-- Why data describes no automaton. -/
inductive LoadError
  | invalidLabel (e : InvalidLabel)
  | malformed
deriving DecidableEq

/-- The state that a text names, if the text is just how that state is written. -/
def State.ofText? (text : String) : Option State :=
  (State.ofNat? (Text.valueOf text.toList)).filter (·.text = text)

namespace Data

def readState : Data → Except LoadError State
  | natural n => (State.ofNat? n).elim (.error .malformed) .ok
  | _ => .error .malformed

def readSymbolText (s : String) : Except LoadError Char :=
  match s.toList with
  | [c] => .ok c
  | _ => .error .malformed

def readSymbol : Data → Except LoadError Char
  | text s => readSymbolText s
  | _ => .error .malformed

def readStateText (s : String) : Except LoadError State :=
  (State.ofText? s).elim (.error .malformed) .ok

def readLabelText (s : String) : Except LoadError Label :=
  match Label.ofText s with
  | .ok l => .ok l
  | .error e => .error (.invalidLabel e)

/-- Reads a list item by item. -/
def readList {α : Type} (item : Data → Except LoadError α) : Data → Except LoadError (List α)
  | list items => items.mapM item
  | _ => .error .malformed

/-- Reads a record field by field, each name before its value. -/
def readRecord {α β : Type} (name : String → Except LoadError α)
    (value : Data → Except LoadError β) :
    Data → Except LoadError (List (α × β))
  | record fields => fields.mapM fun (key, content) => do
      let key ← name key
      let content ← value content
      return (key, content)
  | _ => .error .malformed

end Data

namespace Description

variable {ε : Type}

/-- The parts of a description in their order. -/
def partNames : List String := ["start", "states", "finals", "alphabet", "transitions"]

/-- Reads one part, where `row` reads the entries of a state. Only the start may be null. -/
def readPart (row : Data → Except LoadError (List ε)) (d : Description ε) :
    String × Data → Except LoadError (Description ε)
  | ("start", .null) => return { d with start := none }
  | ("start", value) => return { d with start := some (← value.readState) }
  | ("states", value) => return { d with states := ← value.readList Data.readState }
  | ("finals", value) => return { d with finals := ← value.readList Data.readState }
  | ("alphabet", value) => return { d with alphabet := ← value.readList Data.readSymbol }
  | ("transitions", value) =>
    return { d with transitions := ← value.readRecord Data.readStateText row }
  | _ => .error .malformed

/-- Reads the parts by name, or in their order. Parts that are left out are empty. -/
def ofData (row : Data → Except LoadError (List ε)) : Data → Except LoadError (Description ε)
  | .record fields => fields.foldlM (readPart row) {}
  | .list items => do
    let d ← (partNames.zip items).foldlM (readPart row) {}
    if items.length ≤ partNames.length then return d else .error .malformed
  | _ => .error .malformed

/-- Writes a description, where `row` writes the entries of a state. -/
def toData (row : List ε → Data) (d : Description ε) : Data :=
  .record
    [("start", d.start.elim .null fun s => .natural s.id),
      ("states", .list (d.states.map fun s => .natural s.id)),
      ("finals", .list (d.finals.map fun s => .natural s.id)),
      ("alphabet", .list (d.alphabet.map fun c => .text (String.singleton c))),
      ("transitions", .record (d.transitions.map fun (p, entries) => (p.text, row entries)))]

end Description

namespace Nfa

def ofData (ids : AllocatorId) (data : Data) : Except LoadError Nfa := do
  let d ← Description.ofData
    (Data.readRecord Data.readLabelText (Data.readList Data.readState)) data
  return ofDescription ids d

def toData (A : Nfa) : Data :=
  A.describe.toData fun entries => .record
    (entries.map fun (l, targets) => (l.text, .list (targets.map fun q => .natural q.id)))

end Nfa

namespace Dfa

def ofData (ids : AllocatorId) (data : Data) : Except LoadError Dfa := do
  let d ← Description.ofData (Data.readRecord Data.readSymbolText Data.readState) data
  return ofDescription ids d

def toData (D : Dfa) : Data :=
  D.describe.toData fun entries => .record
    (entries.map fun (c, q) => (String.singleton c, .natural q.id))

end Dfa

end PostfixAutomata
