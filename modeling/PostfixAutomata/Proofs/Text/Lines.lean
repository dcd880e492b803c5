import Mathlib.Data.List.Basic
import PostfixAutomata.Text.Blank
import PostfixAutomata.Text.Lines

set_option autoImplicit false

/-!
Text by its lines. A byte that encodes a character by itself is no part of the encoding of any other
one, so bytes can be cut at newlines before they are decoded or after. A line break is a blank, and
so is the carriage return before it: the words of a text are those of its lines.
-/

namespace PostfixAutomata

namespace Text

/-! Decoding. -/

/-- The bytes that encode a text. -/
def encode (text : String) : List UInt8 := text.toList.flatMap String.utf8EncodeChar

theorem toByteArray_eq_iff {bytes : List UInt8} {text : String} :
    text.toByteArray = ⟨bytes.toArray⟩ ↔ encode text = bytes := by
  have encoded : text.toByteArray.data.toList = encode text := by
    rw [← String.ofList_toList (s := text), String.toByteArray_ofList]
    simp [encode, List.utf8Encode]
  rw [← encoded, ByteArray.ext_iff, ← Array.toList_inj]

theorem decode?_eq_some_iff {bytes : List UInt8} {text : String} :
    decode? bytes = some text ↔ encode text = bytes := by
  rw [← toByteArray_eq_iff, decode?, String.fromUTF8?]
  split
  · rw [Option.some.injEq, ← String.toByteArray_inj]
    exact eq_comm
  · rename_i invalid
    refine iff_of_false nofun fun same => invalid ?_
    rw [← same]
    exact text.isValidUTF8

@[simp] theorem decode?_nil : decode? [] = some "" := decode?_eq_some_iff.mpr rfl

section Single

variable {c d : Char} {b : UInt8} {before after : List UInt8}

/-- A byte that encodes a character by itself is no part of the encoding of another one. -/
theorem utf8EncodeChar_of_split (single : String.utf8EncodeChar c = [b])
    (split : String.utf8EncodeChar d = before ++ b :: after) :
    before = [] ∧ after = [] ∧ d = c := by
  -- Only the first byte of an encoding is one with which an encoding can begin.
  have begins : b.IsUTF8FirstByte := by
    have := UInt8.isUTF8FirstByte_getElem_zero_utf8EncodeChar (c := c)
    simpa [single] using this
  have within : before.length < (String.utf8EncodeChar d).length := by
    rw [split, List.length_append, List.length_cons]
    omega
  have here : (String.utf8EncodeChar d)[before.length] = b := by
    simp [split]
  rw [← here, UInt8.isUTF8FirstByte_getElem_utf8EncodeChar] at begins
  obtain rfl := List.eq_nil_of_length_eq_zero begins
  have joined : (String.utf8EncodeChar d).toByteArray =
      (String.utf8EncodeChar c).toByteArray ++ after.toByteArray := by
    rw [split, single, ← List.toByteArray_append]
    rfl
  have decoded := ByteArray.utf8DecodeChar?_utf8EncodeChar_append (b := .empty) (c := d)
  rw [ByteArray.append_empty, joined, ByteArray.utf8DecodeChar?_utf8EncodeChar_append] at decoded
  obtain rfl := Option.some.inj decoded
  rw [single] at split
  exact ⟨rfl, (List.cons.inj split).2.symm, rfl⟩

theorem flatMap_utf8EncodeChar_split {chars : List Char} (single : String.utf8EncodeChar c = [b])
    (split : chars.flatMap String.utf8EncodeChar = before ++ b :: after) :
    ∃ first last, chars = first ++ c :: last ∧ first.flatMap String.utf8EncodeChar = before ∧
      last.flatMap String.utf8EncodeChar = after := by
  induction chars generalizing before with
  | nil => simp at split
  | cons d chars ih =>
      have later : ∀ rest : List UInt8, before = String.utf8EncodeChar d ++ rest →
          chars.flatMap String.utf8EncodeChar = rest ++ b :: after →
            ∃ first last, d :: chars = first ++ c :: last ∧
              first.flatMap String.utf8EncodeChar = before ∧
              last.flatMap String.utf8EncodeChar = after := by
        intro rest starts split
        obtain ⟨first, last, rfl, rfl, rfl⟩ := ih split
        exact ⟨d :: first, last, rfl, starts.symm, rfl⟩
      rw [List.flatMap_cons] at split
      rcases List.append_eq_append_iff.mp split with ⟨rest, starts, ends⟩ | ⟨rest, starts, ends⟩
      · exact later rest starts ends
      · cases rest with
        | nil =>
            refine later [] ?_ ends.symm
            rw [starts, List.append_nil, List.append_nil]
        | cons x rest =>
            obtain ⟨rfl, ends⟩ := List.cons.inj ends
            obtain ⟨rfl, rfl, rfl⟩ := utf8EncodeChar_of_split single starts
            exact ⟨[], chars, rfl, rfl, (List.cons.inj ends).2.symm⟩

/-- Bytes decode on both sides of such a byte, or they do not decode. -/
theorem decode?_append_cons (single : String.utf8EncodeChar c = [b]) (before after : List UInt8) :
    decode? (before ++ b :: after) = do
      let first ← decode? before
      let last ← decode? after
      return first ++ String.ofList (c :: last.toList) := by
  refine Option.ext fun text => ?_
  simp only [bind, Option.bind_eq_some_iff, decode?_eq_some_iff, pure, Option.some.injEq]
  constructor
  · intro encoded
    obtain ⟨first, last, chars, rfl, rfl⟩ := flatMap_utf8EncodeChar_split single encoded
    refine ⟨.ofList first, ?_, .ofList last, ?_, ?_⟩
    · simp [encode]
    · simp [encode]
    · apply String.toList_injective
      simp [chars]
  · rintro ⟨first, rfl, last, rfl, rfl⟩
    simp [encode, single]

end Single

/-! Words. -/

/-- A blank parts the words before it from those after it. -/
theorem words_append_cons {c : Char} (blank : isBlank c = true) (first last : List Char) :
    words (first ++ c :: last) = words first ++ words last := by
  fun_induction words first with
  | case1 => rw [List.nil_append, words, if_pos blank, List.nil_append]
  | case2 d rest blankToo ih => rw [List.cons_append, words, if_pos blankToo, ih]
  | case3 d rest solid ih =>
      have taken : (rest ++ c :: last).takeWhile (!isBlank ·) = rest.takeWhile (!isBlank ·) := by
        rw [List.takeWhile_append]
        split
        · rename_i whole
          rw [(List.takeWhile_prefix _).eq_of_length whole]
          simp [blank]
        · rfl
      have dropped : (rest ++ c :: last).dropWhile (!isBlank ·) =
          rest.dropWhile (!isBlank ·) ++ c :: last := by
        rw [List.dropWhile_append]
        split
        · rename_i nothing
          rw [List.isEmpty_iff.mp nothing]
          simp [blank]
        · rfl
      rw [List.cons_append, words, if_neg solid, taken, dropped, ih, List.cons_append]

/-! Lines. -/

/-- Bytes are one line, or a line and further bytes after its newline. -/
theorem byLine {motive : List UInt8 → Prop}
    (last : ∀ line, newline ∉ line → motive line)
    (more : ∀ line rest, newline ∉ line → motive rest → motive (line ++ newline :: rest))
    (bytes : List UInt8) : motive bytes := by
  induction length : bytes.length using Nat.strongRecOn generalizing bytes with
  | ind n ih =>
      by_cases member : newline ∈ bytes
      · obtain ⟨line, rest, rfl, single⟩ := List.eq_append_cons_of_mem member
        refine more line rest single (ih rest.length ?_ rest rfl)
        rw [← length, List.length_append, List.length_cons]
        omega
      · exact last bytes member

variable {line : List UInt8}

theorem lines_of_notMem (single : newline ∉ line) :
    lines line = if line = [] then [] else [line] := by
  cases line with
  | nil => rw [lines, if_pos rfl]
  | cons b rest => rw [lines, if_neg single, if_neg (List.cons_ne_nil b rest)]

theorem lines_append_cons (single : newline ∉ line) (rest : List UInt8) :
    lines (line ++ newline :: rest) = withoutReturn line :: lines rest := by
  have before : ∀ b ∈ line, (b != newline) = true :=
    fun b member => bne_iff_ne.mpr fun same => single (same ▸ member)
  have taken : (line ++ newline :: rest).takeWhile (· != newline) = line := by
    rw [List.takeWhile_append_of_pos before]
    simp
  have dropped : (line ++ newline :: rest).dropWhile (· != newline) = newline :: rest := by
    rw [List.dropWhile_append_of_pos before]
    simp
  have member : newline ∈ line ++ newline :: rest := by simp
  cases shape : line ++ newline :: rest with
  | nil => simp at shape
  | cons b later =>
      rw [shape] at taken dropped member
      rw [lines, if_pos member, taken, dropped, List.tail_cons]

theorem splitOn_of_notMem (single : newline ∉ line) : line.splitOn newline = [line] := by
  rw [List.splitOn_eq_splitOnP]
  exact List.splitOnP_eq_singleton fun b member => beq_eq_false_iff_ne.mpr fun same =>
    single (same ▸ member)

theorem splitOn_append_cons (single : newline ∉ line) (rest : List UInt8) :
    (line ++ newline :: rest).splitOn newline = line :: rest.splitOn newline := by
  rw [List.splitOn_eq_splitOnP, List.splitOn_eq_splitOnP]
  have before : ∀ b ∈ line, (b == newline) = false :=
    fun b member => beq_eq_false_iff_ne.mpr fun same => single (same ▸ member)
  exact List.splitOnP_append_cons_of_forall_mem (p := (· == newline)) before newline
    (beq_self_eq_true newline) rest

end Text

end PostfixAutomata
