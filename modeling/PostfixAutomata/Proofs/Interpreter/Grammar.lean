import Mathlib.Data.List.TakeWhile
import Mathlib.Data.Nat.Digits.Defs
import PostfixAutomata.Interpreter.Command

set_option autoImplicit false

/-!
The grammar of words. A word that is not a keyword is a numbered listing, else a quoted test, else
the first literal in it, else the first of the three operators; the rules are stated by the ways in
which a word can be split, and reading decides them.
-/

namespace PostfixAutomata

namespace Text

/-- One or more decimal digits, and the number that they denote. -/
structure Denotes (digits : List Char) (n : Nat) : Prop where
  nonempty : digits ≠ []
  decimal : ∀ c ∈ digits, '0' ≤ c ∧ c ≤ '9'
  value : n = Nat.ofDigits 10 (digits.reverse.map fun c => c.toNat - '0'.toNat)

/-- Reading from the first digit on gives the sum of the digits by their places. -/
theorem valueOf_eq_ofDigits (digits : List Char) :
    valueOf digits = Nat.ofDigits 10 (digits.reverse.map fun c => c.toNat - '0'.toNat) := by
  rw [Nat.ofDigits_eq_foldr, List.foldr_map, List.foldr_reverse, valueOf]
  simp only [Nat.cast_id, Nat.add_comm]

theorem isDigit_iff {c : Char} : isDigit c = true ↔ '0' ≤ c ∧ c ≤ '9' := by
  simp [isDigit]

theorem decimal?_eq_some_iff {text : List Char} {n : Nat} :
    decimal? text = some n ↔ Denotes text n := by
  rw [decimal?, Option.ite_none_right_eq_some, List.all_eq_true, valueOf_eq_ofDigits]
  constructor
  · rintro ⟨⟨nonempty, digits⟩, value⟩
    exact ⟨nonempty, fun c member => isDigit_iff.mp (digits c member), (Option.some.inj value).symm⟩
  · rintro ⟨nonempty, digits, rfl⟩
    exact ⟨⟨nonempty, fun c member => isDigit_iff.mpr (digits c member)⟩, rfl⟩

end Text

namespace Command

open Text (Denotes)

/-! Listings. -/

/-- Digits for a number that 64 bits hold, perhaps after a plus sign. -/
def Bound (text : List Char) (n : Nat) : Prop :=
  ∃ sign digits, text = sign ++ digits ∧ (sign = [] ∨ sign = ['+']) ∧ Denotes digits n ∧ n < 2 ^ 64

/-- The word GENSTR and a bound right after it. -/
def Numbered (word : List Char) (n : Nat) : Prop :=
  ∃ text, word = "GENSTR".toList ++ text ∧ Bound text n

theorem filter_decimal?_eq_some_iff {text : List Char} {n : Nat} :
    (Text.decimal? text).filter (· < UInt64.size) = some n ↔ Denotes text n ∧ n < 2 ^ 64 := by
  rw [Option.filter_eq_some_iff, Text.decimal?_eq_some_iff, decide_eq_true_iff]
  rfl

theorem bound?_eq_some_iff {text : List Char} {n : Nat} : bound? text = some n ↔ Bound text n := by
  unfold bound?
  constructor
  · intro found
    split at found
    · rename_i rest
      exact ⟨['+'], rest, rfl, .inr rfl, filter_decimal?_eq_some_iff.mp found⟩
    · exact ⟨[], text, rfl, .inl rfl, filter_decimal?_eq_some_iff.mp found⟩
  · rintro ⟨sign, digits, rfl, rfl | rfl, denotes, fits⟩
    · split
      · rename_i rest isSigned
        -- A plus sign is not a digit.
        have plus := denotes.decimal '+' (by rw [← List.nil_append digits, isSigned]; simp)
        exact absurd plus.1 (by decide)
      · exact filter_decimal?_eq_some_iff.mpr ⟨denotes, fits⟩
    · exact filter_decimal?_eq_some_iff.mpr ⟨denotes, fits⟩

theorem listing?_eq_some_iff {word : List Char} {n : Nat} :
    listing? word = some n ↔ Numbered word n := by
  constructor
  · intro found
    unfold listing? at found
    split at found
    · rename_i rest
      exact ⟨rest, rfl, bound?_eq_some_iff.mp found⟩
    · cases found
  · rintro ⟨text, rfl, bound⟩
    exact bound?_eq_some_iff.mpr bound

theorem listing?_eq_none_iff {word : List Char} :
    listing? word = none ↔ ∀ n, ¬ Numbered word n := by
  simp only [Option.eq_none_iff_forall_ne_some, ne_eq, listing?_eq_some_iff]

/-! Tests. -/

/-- Lowercase letters between two double quotes, after what comes before. -/
structure Quoted (word before input : List Char) : Prop where
  lowercase : ∀ c ∈ input, 'a' ≤ c ∧ c ≤ 'z'
  enclosed : ∃ after, word = before ++ '"' :: (input ++ '"' :: after)

/-- The letters that are quoted after as little as possible. -/
def FirstQuoted (word input : List Char) : Prop :=
  ∃ before, Quoted word before input ∧
    ∀ other letters, Quoted word other letters → before.length ≤ other.length

theorem isLowercase_iff {c : Char} : isLowercase c = true ↔ 'a' ≤ c ∧ c ≤ 'z' := by
  simp [isLowercase]

theorem quotedFrom?_eq_some_iff {text input : List Char} :
    quotedFrom? text = some input ↔
      (∀ c ∈ input, 'a' ≤ c ∧ c ≤ 'z') ∧ ∃ after, text = input ++ '"' :: after := by
  unfold quotedFrom?
  constructor
  · intro found
    split at found
    · rename_i after closes
      obtain rfl := Option.some.inj found
      refine ⟨fun c member => isLowercase_iff.mp (List.mem_takeWhile_imp member), after, ?_⟩
      rw [← closes, List.takeWhile_append_dropWhile]
    · cases found
  · rintro ⟨lowercase, after, rfl⟩
    have letters : ∀ c ∈ input, isLowercase c = true := fun c member =>
      isLowercase_iff.mpr (lowercase c member)
    rw [List.dropWhile_append_of_pos letters, List.dropWhile_cons_of_neg (by decide),
      List.takeWhile_append_of_pos letters, List.takeWhile_cons_of_neg (by decide),
      List.append_nil]
    rfl

theorem not_quoted_nil {before input : List Char} : ¬ Quoted [] before input := by
  rintro ⟨_, after, split⟩
  simp at split

theorem quoted_cons_nil {c : Char} {rest input : List Char} :
    Quoted (c :: rest) [] input ↔ c = '"' ∧ quotedFrom? rest = some input := by
  rw [quotedFrom?_eq_some_iff]
  constructor
  · rintro ⟨lowercase, after, split⟩
    obtain ⟨rfl, rfl⟩ := List.cons.inj split
    exact ⟨rfl, lowercase, after, rfl⟩
  · rintro ⟨rfl, lowercase, after, rfl⟩
    exact ⟨lowercase, after, rfl⟩

theorem quoted_cons_cons {c d : Char} {rest before input : List Char} :
    Quoted (c :: rest) (d :: before) input ↔ c = d ∧ Quoted rest before input := by
  constructor
  · rintro ⟨lowercase, after, split⟩
    obtain ⟨rfl, rfl⟩ := List.cons.inj split
    exact ⟨rfl, lowercase, after, rfl⟩
  · rintro ⟨rfl, lowercase, after, rfl⟩
    exact ⟨lowercase, after, rfl⟩

/-- What a word that begins with a quotation quotes first is that quotation. -/
theorem firstQuoted_of_begins {c : Char} {rest input letters : List Char}
    (begins : Quoted (c :: rest) [] letters) :
    FirstQuoted (c :: rest) input ↔ letters = input := by
  constructor
  · rintro ⟨before, quoted, shortest⟩
    obtain rfl := List.length_eq_zero_iff.mp (Nat.le_zero.mp (shortest [] letters begins))
    exact Option.some.inj ((quoted_cons_nil.mp begins).2.symm.trans (quoted_cons_nil.mp quoted).2)
  · rintro rfl
    exact ⟨[], begins, fun _ _ _ => Nat.zero_le _⟩

/-- If a word does not begin with a quotation, then its first one is that of the rest. -/
theorem firstQuoted_of_not_begins {c : Char} {rest input : List Char}
    (begins : ∀ letters, ¬ Quoted (c :: rest) [] letters) :
    FirstQuoted (c :: rest) input ↔ FirstQuoted rest input := by
  constructor
  · rintro ⟨before, quoted, shortest⟩
    cases before with
    | nil => exact absurd quoted (begins input)
    | cons d before =>
        obtain ⟨rfl, inRest⟩ := quoted_cons_cons.mp quoted
        refine ⟨before, inRest, fun other letters quotes => ?_⟩
        exact Nat.le_of_succ_le_succ
          (shortest (c :: other) letters (quoted_cons_cons.mpr ⟨rfl, quotes⟩))
  · rintro ⟨before, quoted, shortest⟩
    refine ⟨c :: before, quoted_cons_cons.mpr ⟨rfl, quoted⟩, fun other letters quotes => ?_⟩
    cases other with
    | nil => exact absurd quotes (begins letters)
    | cons d other =>
        exact Nat.succ_le_succ (shortest other letters (quoted_cons_cons.mp quotes).2)

/-- The search through a word finds what it quotes first. -/
theorem quoted?_eq_some_iff {word input : List Char} :
    quoted? word = some input ↔ FirstQuoted word input := by
  induction word with
  | nil =>
      constructor
      · intro found
        cases found
      · rintro ⟨before, quoted, _⟩
        exact absurd quoted not_quoted_nil
  | cons c rest ih =>
      unfold quoted?
      split
      case isTrue opens =>
        cases from? : quotedFrom? rest with
        | some letters =>
            rw [firstQuoted_of_begins (quoted_cons_nil.mpr ⟨opens, from?⟩)]
            exact Option.some_inj
        | none =>
            have begins : ∀ letters, ¬ Quoted (c :: rest) [] letters := by
              intro letters quoted
              cases from?.symm.trans (quoted_cons_nil.mp quoted).2
            rw [firstQuoted_of_not_begins begins]
            exact ih
      case isFalse opens =>
        rw [firstQuoted_of_not_begins fun _ quoted => opens (quoted_cons_nil.mp quoted).1]
        exact ih

/-- A quote that closes nothing may open a quotation. -/
example : quoted? "\"A\"b\"c".toList = some ['b'] := by decide

theorem quoted?_eq_none_iff {word : List Char} :
    quoted? word = none ↔ ∀ input, ¬ FirstQuoted word input := by
  simp only [Option.eq_none_iff_forall_ne_some, ne_eq, quoted?_eq_some_iff]

/-! Lenient readings. -/

/-- A literal of a word that has no literals before it. -/
structure FirstLiteral (word : List Char) (c : Char) : Prop where
  literal : ('a' ≤ c ∧ c ≤ 'z') ∨ c = 'E'
  first : ∃ before after, word = before ++ c :: after ∧
    ∀ d ∈ before, ¬ (('a' ≤ d ∧ d ≤ 'z') ∨ d = 'E')

/-- What a word stands for by one of its characters: the first literal, or else an operator, by
priority and wherever it stands. -/
inductive Lenient (word : List Char) : Command → Prop
  | symbol {c : Char} (first : FirstLiteral word c) (letter : 'a' ≤ c ∧ c ≤ 'z') :
      Lenient word (literal (.symbol c))
  | epsilon (first : FirstLiteral word 'E') : Lenient word (literal .epsilon)
  | star (bare : ∀ c, ¬ FirstLiteral word c) (stars : '*' ∈ word) : Lenient word star
  | union (bare : ∀ c, ¬ FirstLiteral word c) (stars : '*' ∉ word) (bars : '|' ∈ word) :
      Lenient word union
  | concat (bare : ∀ c, ¬ FirstLiteral word c) (stars : '*' ∉ word) (bars : '|' ∉ word)
      (dots : '.' ∈ word) : Lenient word concat

theorem isLiteral_iff {c : Char} : isLiteral c = true ↔ ('a' ≤ c ∧ c ≤ 'z') ∨ c = 'E' := by
  simp [isLiteral, isLowercase_iff]

theorem find?_isLiteral_eq_some_iff {word : List Char} {c : Char} :
    word.find? isLiteral = some c ↔ FirstLiteral word c := by
  rw [List.find?_eq_some_iff_append, isLiteral_iff]
  have other : ∀ d, (!isLiteral d) = true ↔ ¬ (('a' ≤ d ∧ d ≤ 'z') ∨ d = 'E') := by
    intro d
    rw [Bool.not_eq_true', ← Bool.not_eq_true, isLiteral_iff]
  simp only [other]
  constructor
  · rintro ⟨isLiteral, first⟩
    exact ⟨isLiteral, first⟩
  · rintro ⟨isLiteral, first⟩
    exact ⟨isLiteral, first⟩

theorem find?_isLiteral_eq_none_iff {word : List Char} :
    word.find? isLiteral = none ↔ ∀ c, ¬ FirstLiteral word c := by
  simp only [Option.eq_none_iff_forall_ne_some, ne_eq, find?_isLiteral_eq_some_iff]

theorem lenient_literalOf {word : List Char} {c : Char} (first : FirstLiteral word c) :
    Lenient word (literalOf c) := by
  unfold literalOf
  split
  case isTrue isE =>
    rw [isE] at first
    exact .epsilon first
  case isFalse isE => exact .symbol first (first.literal.resolve_right isE)

theorem lenient?_eq_some_iff {word : List Char} {command : Command} :
    lenient? word = some command ↔ Lenient word command := by
  unfold lenient?
  constructor
  · intro found
    split at found
    · rename_i c first
      obtain rfl := Option.some.inj found
      exact lenient_literalOf (find?_isLiteral_eq_some_iff.mp first)
    · rename_i absent
      have bare := find?_isLiteral_eq_none_iff.mp absent
      split at found
      case isTrue stars =>
        obtain rfl := Option.some.inj found
        exact .star bare stars
      case isFalse stars =>
        split at found
        case isTrue bars =>
          obtain rfl := Option.some.inj found
          exact .union bare stars bars
        case isFalse bars =>
          rw [Option.ite_none_right_eq_some] at found
          obtain ⟨dots, same⟩ := found
          obtain rfl := Option.some.inj same
          exact .concat bare stars bars dots
  · intro lenient
    cases lenient with
    | @symbol c first letter =>
        have notE : c ≠ 'E' := by
          rintro rfl
          exact absurd letter (by decide)
        simp only [find?_isLiteral_eq_some_iff.mpr first, literalOf, notE, ↓reduceIte]
    | epsilon first =>
        simp only [find?_isLiteral_eq_some_iff.mpr first, literalOf, ↓reduceIte]
    | star bare stars => simp only [find?_isLiteral_eq_none_iff.mpr bare, stars, ↓reduceIte]
    | union bare stars bars =>
        simp only [find?_isLiteral_eq_none_iff.mpr bare, stars, bars, ↓reduceIte]
    | concat bare stars bars dots =>
        simp only [find?_isLiteral_eq_none_iff.mpr bare, stars, bars, dots, ↓reduceIte]

theorem lenient?_eq_none_iff {word : List Char} :
    lenient? word = none ↔ ∀ command, ¬ Lenient word command := by
  simp only [Option.eq_none_iff_forall_ne_some, ne_eq, lenient?_eq_some_iff]

/-! Words. -/

/-- What a word that is not a keyword stands for. A rule applies if none before it does. -/
inductive Reading (word : List Char) : Command → Prop
  | generate {n : Nat} (numbered : Numbered word n) : Reading word (generate n)
  | test {input : List Char} (unnumbered : ∀ n, ¬ Numbered word n)
      (quoted : FirstQuoted word input) : Reading word (test input)
  | lenient {command : Command} (unnumbered : ∀ n, ¬ Numbered word n)
      (unquoted : ∀ input, ¬ FirstQuoted word input) (lenient : Lenient word command) :
      Reading word command
  | unknown (unnumbered : ∀ n, ¬ Numbered word n) (unquoted : ∀ input, ¬ FirstQuoted word input)
      (nothing : ∀ command, ¬ Lenient word command) : Reading word unknown

/-- The words with a meaning of their own. -/
def keywords : List String := ["DONE", "SIZE", "PRINT", "STAT", "DFA", "COMPLEMENT"]

/-- Literals and operators, which a longer word can stand for too. -/
def Single (command : Command) : Prop :=
  (∃ l, command = literal l) ∨ command = star ∨ command = union ∨ command = concat

theorem keyword?_eq_none_iff {word : List Char} :
    keyword? word = none ↔ String.ofList word ∉ keywords := by
  simp [keyword?, keywords, List.lookup_eq_none_iff]

theorem single_of_lenient {word : List Char} {command : Command} (lenient : Lenient word command) :
    Single command := by
  cases lenient with
  | symbol | epsilon => exact .inl ⟨_, rfl⟩
  | star => exact .inr (.inl rfl)
  | union => exact .inr (.inr (.inl rfl))
  | concat => exact .inr (.inr (.inr rfl))

theorem Lenient.nonempty {word : List Char} {command : Command} (lenient : Lenient word command) :
    word ≠ [] := by
  rintro rfl
  cases lenient?_eq_some_iff.mpr lenient

/-- The rule that reading goes by applies. -/
theorem reading_read {word : List Char} (other : keyword? word = none) :
    Reading word (read word).1 := by
  simp only [read, other]
  split
  · rename_i n found
    exact .generate (listing?_eq_some_iff.mp found)
  · rename_i notListing
    have unnumbered := listing?_eq_none_iff.mp notListing
    split
    · rename_i input found
      exact .test unnumbered (quoted?_eq_some_iff.mp found)
    · rename_i notTest
      have unquoted := quoted?_eq_none_iff.mp notTest
      split
      · rename_i command found
        exact .lenient unnumbered unquoted (lenient?_eq_some_iff.mp found)
      · rename_i nothing
        exact .unknown unnumbered unquoted (lenient?_eq_none_iff.mp nothing)

/-- Reading goes by the rule that applies. -/
theorem read_of_reading {word : List Char} {command : Command} (other : keyword? word = none)
    (reading : Reading word command) : (read word).1 = command := by
  unfold read
  cases reading with
  | generate numbered => simp only [other, listing?_eq_some_iff.mpr numbered]
  | test unnumbered quoted =>
      simp only [other, listing?_eq_none_iff.mpr unnumbered, quoted?_eq_some_iff.mpr quoted]
  | lenient unnumbered unquoted lenient =>
      simp only [other, listing?_eq_none_iff.mpr unnumbered, quoted?_eq_none_iff.mpr unquoted,
        lenient?_eq_some_iff.mpr lenient]
  | unknown unnumbered unquoted nothing =>
      simp only [other, listing?_eq_none_iff.mpr unnumbered, quoted?_eq_none_iff.mpr unquoted,
        lenient?_eq_none_iff.mpr nothing]

theorem read_illegal_iff {word : List Char} (other : keyword? word = none) :
    (read word).2 = true ↔ Single (read word).1 ∧ 1 < word.length := by
  simp only [read, other]
  split
  · simp [Single]
  · split
    · simp [Single]
    · split
      · rename_i command found
        have lenient := lenient?_eq_some_iff.mp found
        have nonempty := List.length_pos_iff.mpr lenient.nonempty
        simp only [single_of_lenient lenient, true_and, bne_iff_ne]
        omega
      · simp [Single]

/-- Words that are not keywords are read by the grammar and in no other way, and the remark is made
on exactly the literals and operators in words of more than one character. -/
theorem read_iff_grammar (word : List Char) (other : String.ofList word ∉ keywords) :
    (∀ command, (read word).1 = command ↔ Reading word command) ∧
      ((read word).2 = true ↔ Single (read word).1 ∧ 1 < word.length) := by
  have notKeyword := keyword?_eq_none_iff.mpr other
  refine ⟨fun command => ⟨?_, read_of_reading notKeyword⟩, read_illegal_iff notKeyword⟩
  rintro rfl
  exact reading_read notKeyword

/-- A number that 64 bits do not hold is none, so the word is read for its first literal. -/
theorem read_iff_grammar_too_large :
    String.ofList "GENSTR18446744073709551616".toList ∉ keywords ∧
      Reading "GENSTR18446744073709551616".toList (literal .epsilon) ∧
      (read "GENSTR18446744073709551616".toList).2 = true := by
  have other : String.ofList "GENSTR18446744073709551616".toList ∉ keywords := by decide
  have first : (read "GENSTR18446744073709551616".toList).1 = literal .epsilon := by decide
  obtain ⟨grammar, illegal⟩ := read_iff_grammar _ other
  refine ⟨other, (grammar _).mp first, illegal.mpr ⟨?_, by decide⟩⟩
  rw [first]
  exact .inl ⟨_, rfl⟩

end Command

end PostfixAutomata
