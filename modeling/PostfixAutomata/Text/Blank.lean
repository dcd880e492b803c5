set_option autoImplicit false

/-!
Cutting text into words. Words are parted by blanks, the characters with the Unicode property
White_Space.
-/

namespace PostfixAutomata

namespace Text

/-- The ranges of the Unicode property White_Space, each by its first and last code point. -/
def blankRanges : List (Nat × Nat) :=
  [(0x09, 0x0d), (0x20, 0x20), (0x85, 0x85), (0xa0, 0xa0), (0x1680, 0x1680), (0x2000, 0x200a),
    (0x2028, 0x2029), (0x202f, 0x202f), (0x205f, 0x205f), (0x3000, 0x3000)]

def isBlank (c : Char) : Bool :=
  blankRanges.any fun (first, last) => first ≤ c.toNat && c.toNat ≤ last

/-- The longest runs of characters that are no blanks, in order. -/
def words : List Char → List (List Char)
  | [] => []
  | c :: rest =>
    if isBlank c then words rest
    else (c :: rest.takeWhile (!isBlank ·)) :: words (rest.dropWhile (!isBlank ·))
termination_by text => text.length
decreasing_by
  · simp
  · exact Nat.lt_succ_of_le (List.dropWhile_suffix _).length_le

/-- Words are never empty and hold no blank. -/
theorem of_mem_words (text : List Char) :
    ∀ word ∈ words text, word ≠ [] ∧ ∀ c ∈ word, isBlank c = false := by
  fun_induction words text with
  | case1 => simp
  | case2 c rest _ ih => exact ih
  | case3 c rest solid ih =>
      intro word member
      rcases List.mem_cons.mp member with rfl | later
      · refine ⟨by simp, ?_⟩
        intro d inside
        rcases List.mem_cons.mp inside with rfl | inside
        · simpa using solid
        · simpa using List.all_eq_true.mp List.all_takeWhile d inside
      · exact ih word later

end Text

end PostfixAutomata
