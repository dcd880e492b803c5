import PostfixAutomata.Label
import PostfixAutomata.Text.Decimal

set_option autoImplicit false

/-!
The commands that words stand for. A word is read as a keyword, else as a numbered listing, else as
a quoted test, and else leniently, for the one symbol or operator that it contains. A lenient
reading of a longer word is an illegal one, which is worth a remark but holds.
-/

namespace PostfixAutomata

inductive Command
  | done
  | size
  | print
  | statistics
  | determinize
  | complement
  /-- List the accepted inputs of at most so many symbols. -/
  | generate (bound : Nat)
  /-- Ask whether an input is accepted. -/
  | test (input : List Char)
  | literal (l : Label)
  | star
  | union
  | concat
  | unknown
deriving DecidableEq

namespace Command

/-- The words with a meaning of their own. -/
def keyword? (word : List Char) : Option Command :=
  [("DONE", done), ("SIZE", size), ("PRINT", print), ("STAT", statistics), ("DFA", determinize),
    ("COMPLEMENT", complement)].lookup (String.ofList word)

def isLowercase (c : Char) : Bool := 'a' ≤ c && c ≤ 'z'

/-- A number below 2^64 in decimal, perhaps after a plus sign. -/
def bound? (text : List Char) : Option Nat :=
  let unsigned := match text with
    | '+' :: rest => rest
    | _ => text
  (Text.decimal? unsigned).filter (· < UInt64.size)

/-- A numbered listing: the word GENSTR and a number right after it. -/
def listing? : List Char → Option Nat
  | 'G' :: 'E' :: 'N' :: 'S' :: 'T' :: 'R' :: rest => bound? rest
  | _ => none

/-- The lowercase letters up to a closing quote, if nothing else comes before it. -/
def quotedFrom? (text : List Char) : Option (List Char) :=
  match text.dropWhile isLowercase with
  | '"' :: _ => some (text.takeWhile isLowercase)
  | _ => none

/-- The first run of lowercase letters between two double quotes. -/
def quoted? : List Char → Option (List Char)
  | [] => none
  | c :: rest => if c = '"' then quotedFrom? rest <|> quoted? rest else quoted? rest

/-- The characters that stand for literals: the lowercase letters, and E for the empty string. -/
def isLiteral (c : Char) : Bool := isLowercase c || c == 'E'

def literalOf (c : Char) : Command := literal (if c = 'E' then .epsilon else .symbol c)

/-- The first literal of a word, or else the first of star, union and concatenation in it. -/
def lenient? (word : List Char) : Option Command :=
  match word.find? isLiteral with
  | some c => some (literalOf c)
  | none =>
    if '*' ∈ word then some star
    else if '|' ∈ word then some union
    else if '.' ∈ word then some concat
    else none

/-- The command of a word, and whether the reading is an illegal one. -/
def read (word : List Char) : Command × Bool :=
  match keyword? word with
  | some command => (command, false)
  | none =>
    match listing? word with
    | some bound => (generate bound, false)
    | none =>
      match quoted? word with
      | some input => (test input, false)
      | none =>
        match lenient? word with
        | some command => (command, word.length != 1)
        | none => (unknown, false)

/-- The automata that a command takes from the stack or looks at. -/
def operands : Command → Nat
  | done | literal _ | unknown => 0
  | union | concat => 2
  | size | print | statistics | determinize | complement | generate _ | test _ | star => 1

end Command

end PostfixAutomata
