import Std.Data.ExtTreeSet

set_option autoImplicit false

/-!
Labels of nondeterministic transitions: a symbol, or nothing at all. A label is written as the
string it reads, so the empty string is ε and a string of two characters is no label.
-/

namespace PostfixAutomata

/-- What a nondeterministic transition reads. -/
inductive Label
  | epsilon
  | symbol (c : Char)
deriving DecidableEq

/-- A text of more than one character where a label was expected. -/
structure InvalidLabel where
  text : String
deriving DecidableEq

def InvalidLabel.message (e : InvalidLabel) : String :=
  "Invalid label \"" ++ e.text ++ "\": expected an empty string or a single character"

namespace Label

/-- The symbol a label reads; ε reads none. -/
def symbol? : Label → Option Char
  | epsilon => none
  | symbol c => some c

/-- The characters a label reads. -/
def reads (l : Label) : List Char := l.symbol?.toList

def text (l : Label) : String := String.ofList l.reads

def ofText (text : String) : Except InvalidLabel Label :=
  match text.toList with
  | [] => .ok epsilon
  | [c] => .ok (symbol c)
  | _ => .error ⟨text⟩

/-- ε comes first, then the symbols by code point. -/
instance : Ord Label := ⟨compareOn symbol?⟩

theorem symbol?_injective {l m : Label} (same : l.symbol? = m.symbol?) : l = m := by
  cases l <;> cases m <;> simp_all [symbol?]

instance : Std.TransOrd Label := inferInstanceAs (Std.TransCmp (compareOn symbol?))

instance : Std.LawfulEqOrd Label where
  eq_of_compare same := symbol?_injective (Std.LawfulEqOrd.eq_of_compare same)

theorem ofText_text (l : Label) : ofText l.text = .ok l := by
  cases l <;> simp [ofText, text, reads, symbol?]

theorem ofText_eq_ok_iff {s : String} {l : Label} : ofText s = .ok l ↔ s = l.text := by
  constructor
  · unfold ofText
    split <;> rename_i shape <;> intro found <;> cases found <;>
      exact String.toList_injective (by simp [shape, text, reads, symbol?])
  · rintro rfl
    exact ofText_text l

end Label

/-- A finite set of symbols, listed by code point. -/
abbrev Alphabet := Std.ExtTreeSet Char

end PostfixAutomata
