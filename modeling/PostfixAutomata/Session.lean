import PostfixAutomata.Description.Encoding
import PostfixAutomata.Machine

set_option autoImplicit false

/-!
Sessions: counters and automata under names, and the operations on them. Any number of names may
stand for one counter, and every automaton knows the counter that its states come from. A refused
operation changes nothing; a defect ends the session.
-/

namespace PostfixAutomata

/-- The name of an allocator or of an automaton. -/
abbrev Slot := String

structure Session where
  /-- The counters, by the index of their identifier. -/
  counters : Array Counter := #[]
  allocators : Std.ExtTreeMap Slot AllocatorId := ∅
  automata : Std.ExtTreeMap Slot Machine := ∅

namespace Session

inductive Op
  | newAllocator (ids : Slot)
  /-- A further name for the counter of an allocator. -/
  | cloneAllocator (ids source : Slot)
  /-- A name for the counter of an automaton. -/
  | allocatorOf (m ids : Slot)
  | issue (ids : Slot)
  | observe (ids : Slot) (s : State)
  | shares (ids other : Slot)
  | newNfa (m ids : Slot)
  | newDfa (m ids : Slot)
  /-- An empty automaton with a counter of its own. -/
  | standaloneNfa (m : Slot)
  | standaloneDfa (m : Slot)
  | literal (m ids : Slot) (label : String)
  | loadNfa (m : Slot) (data : Data)
  | loadDfa (m : Slot) (data : Data)
  /-- Loads what an automaton is saved as. -/
  | reload (m into : Slot)
  | toDfa (m into : Slot)
  | determinize (m ids into : Slot)
  | complement (m into : Slot)
  /-- Turns an automaton into a nondeterministic one; its own name is given up. -/
  | toNfa (m into : Slot)
  | destination (m : Slot) (p : State) (label : String)
  | epsilonClosure (m : Slot) (seeds : List State)
  | accepts (m : Slot) (inputs : List (List Char))
  | words (m : Slot) (bound : Nat)
  | hasState (m : Slot) (s : State)
  | isFinal (m : Slot) (s : State)
  | outDegree (m : Slot) (s : State)
  | inspect (m : Slot)
  | statistics (m : Slot)
  | save (m : Slot)
  | newState (m : Slot)
  | addState (m : Slot) (s : State)
  | setStart (m : Slot) (s : State)
  | setFinal (m : Slot) (s : State) (accept : Bool)
  | addTransition (m : Slot) (p : State) (label : String) (q : State)
  | addSymbol (m : Slot) (c : Char)
  /-- Makes an automaton a literal, whatever it was. -/
  | becomeLiteral (m : Slot) (label : String)
  | star (m : Slot)
  /-- Appends the second automaton to the first; the name of the second is given up. -/
  | concat (m other : Slot)
  /-- Joins the second automaton to the first; the name of the second is given up. -/
  | union (m other : Slot)

/-- What an operation answers. -/
inductive Answer
  | nothing
  | state (s : State)
  | maybeState (s : Option State)
  | states (S : StateSet)
  | maybeStates (S : Option StateSet)
  | truth (b : Bool)
  | truths (bs : List Bool)
  | number (n : Nat)
  | inputs (words : List (List Char))
  | report (text : String)
  | newState (s : State) (report : String)
  | parts (start : Option State) (states finals : StateSet) (alphabet : Alphabet)
  | statistics (S : Statistics) (transitions : Nat) (text : String)
  | saved (data : Data)

/-- Why an operation is refused. -/
inductive Refusal
  | load (e : LoadError)
  /-- The operation names nothing, or something of another kind. -/
  | unfit

/-- What an operation comes to, unless a defect ends the session. -/
abbrev Result := Except Defect (Except Refusal (Answer × Session))

def refuse (r : Refusal) : Result := .ok (.error r)

def give (answer : Answer) (S : Session) : Result := .ok (.ok (answer, S))

def counter (S : Session) (ids : AllocatorId) : Counter := S.counters.getD ids.index {}

/-- Adds a counter. -/
def addCounter (S : Session) (c : Counter) : AllocatorId × Session :=
  (⟨S.counters.size⟩, { S with counters := S.counters.push c })

/-- Runs a computation on one of the counters. -/
def alloc {α : Type} (S : Session) (ids : AllocatorId) (x : Alloc α) :
    Except Defect (α × Session) := do
  let (a, c) ← x.run (S.counter ids)
  return (a, { S with counters := S.counters.setIfInBounds ids.index c })

/-- Keeps an automaton under a name. -/
def store (S : Session) (m : Slot) (M : Machine) : Session :=
  { S with automata := S.automata.insert m M }

/-- Gives up the name of an automaton. -/
def release (S : Session) (m : Slot) : Session := { S with automata := S.automata.erase m }

def withAllocator (S : Session) (ids : Slot) (next : AllocatorId → Result) : Result :=
  match S.allocators[ids]? with
  | some a => next a
  | none => refuse .unfit

def withMachine (S : Session) (m : Slot) (next : Machine → Result) : Result :=
  match S.automata[m]? with
  | some M => next M
  | none => refuse .unfit

def withNfa (S : Session) (m : Slot) (next : Nfa → Result) : Result :=
  S.withMachine m fun
    | .nfa A => next A
    | .dfa _ => refuse .unfit

def withDfa (S : Session) (m : Slot) (next : Dfa → Result) : Result :=
  S.withMachine m fun
    | .dfa D => next D
    | .nfa _ => refuse .unfit

def withLabel (label : String) (next : Label → Result) : Result :=
  match Label.ofText label with
  | .ok l => next l
  | .error e => refuse (.load (.invalidLabel e))

/-- Keeps an automaton under a name and reports it. -/
def keep (S : Session) (m : Slot) (M : Machine) : Result := give (.report M.report) (S.store m M)

/-- Computes an automaton with one of the counters, then keeps and reports it. -/
def build (S : Session) (m : Slot) (ids : AllocatorId) (x : Alloc Machine) : Result := do
  let (M, S) ← S.alloc ids x
  S.keep m M

/-- Changes an automaton of either kind by a computation on its counter. -/
def change (S : Session) (m : Slot) (nfa : Nfa → Alloc Nfa) (dfa : Dfa → Alloc Dfa) : Result :=
  S.withMachine m fun
    | .nfa A => S.build m A.ids (.nfa <$> nfa A)
    | .dfa D => S.build m D.ids (.dfa <$> dfa D)

/-- Keeps an automaton that was loaded; it gets a counter just above its states. -/
def adopt (S : Session) (m : Slot) (loaded : AllocatorId → Except LoadError Machine) : Result :=
  match loaded ⟨S.counters.size⟩ with
  | .error e => refuse (.load e)
  | .ok M => (S.addCounter (Counter.above M.states.toList)).2.keep m M

def loadNfa (S : Session) (m : Slot) (data : Data) : Result :=
  S.adopt m fun ids => .nfa <$> Nfa.ofData ids data

def loadDfa (S : Session) (m : Slot) (data : Data) : Result :=
  S.adopt m fun ids => .dfa <$> Dfa.ofData ids data

/-- The symbol that a label names, where ε will not do. -/
def withSymbol (label : String) (next : Char → Result) : Result :=
  withLabel label fun
    | .symbol c => next c
    | .epsilon => refuse .unfit

/-- Carries out an operation. -/
def step (S : Session) : Op → Result
  | .newAllocator ids =>
    let (a, S) := S.addCounter {}
    give .nothing { S with allocators := S.allocators.insert ids a }
  | .cloneAllocator ids source => S.withAllocator source fun a =>
    give .nothing { S with allocators := S.allocators.insert ids a }
  | .allocatorOf m ids => S.withMachine m fun M =>
    give .nothing { S with allocators := S.allocators.insert ids M.ids }
  | .issue ids => S.withAllocator ids fun a => do
    let (s, S) ← S.alloc a Alloc.fresh
    give (.state s) S
  | .observe ids s => S.withAllocator ids fun a => do
    let ((), S) ← S.alloc a (Alloc.observe s)
    give .nothing S
  | .shares ids other => S.withAllocator ids fun a => S.withAllocator other fun b =>
    give (.truth (a = b)) S
  | .newNfa m ids => S.withAllocator ids fun a => S.keep m (.nfa (Automaton.empty a))
  | .newDfa m ids => S.withAllocator ids fun a => S.keep m (.dfa (Automaton.empty a))
  | .standaloneNfa m =>
    let (a, S) := S.addCounter {}
    S.keep m (.nfa (Automaton.empty a))
  | .standaloneDfa m =>
    let (a, S) := S.addCounter {}
    S.keep m (.dfa (Automaton.empty a))
  | .literal m ids label => withLabel label fun l => S.withAllocator ids fun a =>
    S.build m a (.nfa <$> Nfa.literal a l)
  | .loadNfa m data => S.loadNfa m data
  | .loadDfa m data => S.loadDfa m data
  | .reload m into => S.withMachine m fun
    | .nfa A => S.loadNfa into A.toData
    | .dfa D => S.loadDfa into D.toData
  | .toDfa m into => S.withNfa m fun A => S.build into A.ids (.dfa <$> A.toDfa)
  | .determinize m ids into => S.withNfa m fun A => S.withAllocator ids fun a =>
    S.build into a (.dfa <$> A.determinize a)
  | .complement m into => S.withDfa m fun D => S.build into D.ids (.dfa <$> D.complement)
  | .toNfa m into => S.withDfa m fun D => (S.release m).keep into (.nfa D.toNfa)
  | .destination m p label => S.withMachine m fun
    | .nfa A => withLabel label fun l => give (.maybeStates (A.targets? p l)) S
    | .dfa D => withSymbol label fun c => give (.maybeState (D.target? p c)) S
  | .epsilonClosure m seeds => S.withNfa m fun A => give (.states (A.epsilonClosure seeds)) S
  | .accepts m inputs => S.withDfa m fun D => give (.truths (inputs.map D.accepts)) S
  | .words m bound => S.withDfa m fun D => give (.inputs (D.words bound)) S
  | .hasState m s => S.withMachine m fun M => give (.truth (M.states.contains s)) S
  | .isFinal m s => S.withMachine m fun M => give (.truth (M.finals.contains s)) S
  | .outDegree m s => S.withMachine m fun M => give (.number (M.outDegree s)) S
  | .inspect m => S.withMachine m fun M => give (.parts M.start M.states M.finals M.alphabet) S
  | .statistics m => S.withMachine m fun M => do
    let total ← M.statistics.transitions
    let text ← M.statistics.text
    give (.statistics M.statistics total text) S
  | .save m => S.withMachine m fun
    | .nfa A => give (.saved A.toData) S
    | .dfa D => give (.saved D.toData) S
  | .newState m => S.withMachine m fun
    | .nfa A => do
      let ((s, A), S) ← S.alloc A.ids A.newState
      give (.newState s (Nfa.report A)) (S.store m (.nfa A))
    | .dfa D => do
      let ((s, D), S) ← S.alloc D.ids D.newState
      give (.newState s (Dfa.report D)) (S.store m (.dfa D))
  | .addState m s => S.change m (·.addState s) (·.addState s)
  | .setStart m s => S.change m (·.markStart s) (·.markStart s)
  | .setFinal m s accept => S.change m (·.markFinal s accept) (·.markFinal s accept)
  | .addTransition m p label q => S.withMachine m fun
    | .nfa A => withLabel label fun l => S.build m A.ids (.nfa <$> A.addTransition p l q)
    | .dfa D => withSymbol label fun c => S.build m D.ids (.dfa <$> D.addTransition p c q)
  | .addSymbol m c => S.change m (pure <| ·.insertSymbol c) (pure <| ·.insertSymbol c)
  | .becomeLiteral m label => withLabel label fun l => S.withNfa m fun A =>
    S.build m A.ids (.nfa <$> Nfa.literal A.ids l)
  | .star m => S.withNfa m fun A => S.build m A.ids (.nfa <$> A.star)
  | .concat m other => S.withNfa m fun A => S.withNfa other fun B =>
    (S.release other).build m A.ids (.nfa <$> A.concat B)
  | .union m other => S.withNfa m fun A => S.withNfa other fun B =>
    (S.release other).build m A.ids (.nfa <$> A.union B)

/-- What is heard of an operation. -/
inductive Reply
  | answer (a : Answer)
  | refused (r : Refusal)
  | ended (d : Defect)

/-- Carries out operations in order, up to the first defect. -/
def run (S : Session) : List Op → List Reply
  | [] => []
  | op :: rest =>
    match S.step op with
    | .error d => [.ended d]
    | .ok (.error r) => .refused r :: S.run rest
    | .ok (.ok (a, S)) => .answer a :: S.run rest

end Session

end PostfixAutomata
