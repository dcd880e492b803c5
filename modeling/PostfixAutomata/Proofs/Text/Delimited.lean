import Mathlib.Logic.Function.Basic
import Mathlib.Data.List.Basic

set_option autoImplicit false

/-!
Texts that give back what was written. Nothing is escaped in a report, so an item can be read back
only because of where it stands: it can be told from what follows it as long as that begins in one
of the ways in which the report goes on there.
-/

namespace PostfixAutomata

namespace Text

/-- Items that can be told from what follows them, if that is as `after` says: texts that begin with
an item each are equal only if the items are and what follows them is. -/
structure Delimited {α : Type} (write : α → List Char) (after : List Char → Prop) : Prop where
  split : ∀ {x y : α} {t u : List Char}, after t → after u → write x ++ t = write y ++ u →
    x = y ∧ t = u

/-- Any text at all. -/
def Anything (_ : List Char) : Prop := True

/-- Whether a text begins with a character. -/
def BeginsWith (c : Char) (t : List Char) : Prop := ∃ rest, t = c :: rest

/-- Whether a text does not go on with a character of some class. -/
def LeavesOff (inside : Char → Bool) (t : List Char) : Prop := ∀ c ∈ t.head?, inside c = false

theorem beginsWith_cons (c : Char) (t : List Char) : BeginsWith c (c :: t) := ⟨t, rfl⟩

theorem leavesOff_cons {inside : Char → Bool} {c : Char} {t : List Char} :
    LeavesOff inside (c :: t) ↔ inside c = false := by
  simp [LeavesOff]

namespace Delimited

variable {α β : Type} {write : α → List Char} {after ends : List Char → Prop}

theorem mono (item : Delimited write after) (stricter : ∀ {t}, ends t → after t) :
    Delimited write ends :=
  ⟨fun endsT endsU same => item.split (stricter endsT) (stricter endsU) same⟩

/-- Items of characters of one class are told from what leaves off. -/
theorem of_class {inside : Char → Bool} (injective : Function.Injective write)
    (all : ∀ x, ∀ c ∈ write x, inside c = true) : Delimited write (LeavesOff inside) := by
  have taken : ∀ {x : α} {t : List Char}, LeavesOff inside t →
      (write x ++ t).takeWhile inside = write x := by
    intro x t leaves
    rw [List.takeWhile_append_of_pos (all x)]
    cases t with
    | nil => exact List.append_nil _
    | cons c t =>
        rw [List.takeWhile_cons_of_neg (by simp [leavesOff_cons.mp leaves]), List.append_nil]
  refine ⟨fun {x y t u} leavesT leavesU same => ?_⟩
  have items : write x = write y := by
    rw [← taken leavesT, same, taken leavesU]
  rw [items] at same
  exact ⟨injective items, List.append_cancel_left same⟩

/-- What may follow an item: further ones up to the end. -/
theorem after_flatMap (goesOn : ∀ x {t}, after t → after (write x ++ t))
    (ending : ∀ {t}, ends t → after t) (items : List α) {t : List Char} (endsT : ends t) :
    after (items.flatMap write ++ t) := by
  induction items with
  | nil => exact ending endsT
  | cons x rest ih =>
      rw [List.flatMap_cons, List.append_assoc]
      exact goesOn x ih

/-- Items one after another, up to an end that no item begins like. -/
theorem flatMap (item : Delimited write after) (goesOn : ∀ x {t}, after t → after (write x ++ t))
    (ending : ∀ {t}, ends t → after t)
    (apart : ∀ x {t u}, after t → ends u → write x ++ t ≠ u) :
    Delimited (fun items : List α => items.flatMap write) ends := by
  refine ⟨fun {xs ys t u} endsT endsU same => ?_⟩
  induction xs generalizing ys with
  | nil =>
      cases ys with
      | nil => exact ⟨rfl, same⟩
      | cons y ys =>
          rw [List.flatMap_cons, List.append_assoc] at same
          exact absurd same.symm (apart y (after_flatMap goesOn ending ys endsU) endsT)
  | cons x xs ih =>
      cases ys with
      | nil =>
          rw [List.flatMap_cons, List.append_assoc] at same
          exact absurd same (apart x (after_flatMap goesOn ending xs endsT) endsU)
      | cons y ys =>
          rw [List.flatMap_cons, List.flatMap_cons, List.append_assoc, List.append_assoc] at same
          obtain ⟨rfl, others⟩ := item.split (after_flatMap goesOn ending xs endsT)
            (after_flatMap goesOn ending ys endsU) same
          obtain ⟨rfl, ended⟩ := ih others
          exact ⟨rfl, ended⟩

theorem intercalate_cons (separator : List Char) (write : α → List Char) (x : α) (items : List α) :
    separator.intercalate ((x :: items).map write) =
      write x ++ items.flatMap fun y => separator ++ write y := by
  induction items generalizing x with
  | nil => simp
  | cons y rest ih =>
      rw [List.flatMap_cons, List.append_assoc, ← ih y]
      simp

/-- Items with a separator between them. -/
theorem intercalate {separator : List Char} (item : Delimited write after)
    (between : ∀ t, after (separator ++ t)) (ending : ∀ {t}, ends t → after t)
    (apart : ∀ x t {u}, ends u → write x ++ t ≠ u) (done : ∀ t {u}, ends u → separator ++ t ≠ u) :
    Delimited (fun items : List α => separator.intercalate (items.map write)) ends := by
  have goesOn : ∀ x {t}, after t → after (separator ++ write x ++ t) := by
    intro x t _
    rw [List.append_assoc]
    exact between _
  have separated : Delimited (fun x => separator ++ write x) after := by
    refine ⟨fun afterT afterU same => ?_⟩
    rw [List.append_assoc, List.append_assoc] at same
    exact item.split afterT afterU (List.append_cancel_left same)
  have others := separated.flatMap goesOn ending fun x {t u} _ endsU => by
    rw [List.append_assoc]
    exact done _ endsU
  refine ⟨fun {xs ys t u} endsT endsU same => ?_⟩
  cases xs with
  | nil =>
      cases ys with
      | nil => exact ⟨rfl, same⟩
      | cons y ys =>
          rw [intercalate_cons, List.append_assoc] at same
          exact absurd same.symm (apart y _ endsT)
  | cons x xs =>
      cases ys with
      | nil =>
          rw [intercalate_cons, List.append_assoc] at same
          exact absurd same (apart x _ endsU)
      | cons y ys =>
          rw [intercalate_cons, intercalate_cons, List.append_assoc, List.append_assoc] at same
          obtain ⟨rfl, further⟩ := item.split (after_flatMap goesOn ending xs endsT)
            (after_flatMap goesOn ending ys endsU) same
          obtain ⟨rfl, ended⟩ := others.split endsT endsU further
          exact ⟨rfl, ended⟩

end Delimited

end Text

end PostfixAutomata
