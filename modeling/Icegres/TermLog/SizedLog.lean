import Mathlib.Algebra.Ring.Nat
import Mathlib.Data.List.Induction

/-!
# Logs of sized entries

A log is an append-only list of entries, and the position of an entry is the total size of
those before it. Two logs agree up to a position when they have one common front that ends
there. Sizes are positive, so a position names at most one front of a log.
-/

namespace Icegres.TermLog

variable {Entry : Type*} {size : Entry → Nat}

/-- The position after the last entry. -/
def endOf (size : Entry → Nat) (log : List Entry) : Nat :=
  (log.map size).sum

@[simp] theorem endOf_nil : endOf size [] = 0 := rfl

@[simp] theorem endOf_cons (entry : Entry) (log : List Entry) :
    endOf size (entry :: log) = size entry + endOf size log := by
  simp [endOf]

@[simp] theorem endOf_append (left right : List Entry) :
    endOf size (left ++ right) = endOf size left + endOf size right := by
  simp [endOf]

/-- A front of a log ends at or below the end of the log. -/
theorem endOf_le_of_front {front log : List Entry} (isFront : front <+: log) :
    endOf size front ≤ endOf size log := by
  obtain ⟨rest, rfl⟩ := isFront
  simp

/-- The log holds an entry that ends exactly at `position`, or `position` is its start. -/
def Boundary (size : Entry → Nat) (log : List Entry) (position : Nat) : Prop :=
  ∃ front, front <+: log ∧ endOf size front = position

/-- The two logs have one common front that ends at `position`. -/
def AgreeTo (size : Entry → Nat) (left right : List Entry) (position : Nat) : Prop :=
  ∃ front, front <+: left ∧ front <+: right ∧ endOf size front = position

theorem Boundary.zero (log : List Entry) : Boundary size log 0 :=
  ⟨[], List.nil_prefix, rfl⟩

theorem Boundary.le_end {log : List Entry} {position : Nat}
    (boundary : Boundary size log position) : position ≤ endOf size log := by
  obtain ⟨front, isFront, rfl⟩ := boundary
  exact endOf_le_of_front isFront

theorem Boundary.extend {log longer : List Entry} {position : Nat}
    (boundary : Boundary size log position) (grows : log <+: longer) :
    Boundary size longer position := by
  obtain ⟨front, isFront, ends⟩ := boundary
  exact ⟨front, isFront.trans grows, ends⟩

namespace AgreeTo

theorem symm {left right : List Entry} {position : Nat}
    (agree : AgreeTo size left right position) : AgreeTo size right left position := by
  obtain ⟨front, inLeft, inRight, ends⟩ := agree
  exact ⟨front, inRight, inLeft, ends⟩

theorem refl {log : List Entry} {position : Nat} (boundary : Boundary size log position) :
    AgreeTo size log log position := by
  obtain ⟨front, isFront, ends⟩ := boundary
  exact ⟨front, isFront, isFront, ends⟩

theorem boundary {left right : List Entry} {position : Nat}
    (agree : AgreeTo size left right position) : Boundary size left position := by
  obtain ⟨front, inLeft, -, ends⟩ := agree
  exact ⟨front, inLeft, ends⟩

/-- Agreement survives appends on either side. -/
theorem extend {left right longerLeft longerRight : List Entry} {position : Nat}
    (agree : AgreeTo size left right position) (growsLeft : left <+: longerLeft)
    (growsRight : right <+: longerRight) : AgreeTo size longerLeft longerRight position := by
  obtain ⟨front, inLeft, inRight, ends⟩ := agree
  exact ⟨front, inLeft.trans growsLeft, inRight.trans growsRight, ends⟩

end AgreeTo

section Positive

variable (positive : ∀ entry, 0 < size entry)

include positive

/-- A front that reaches as far as the log is the log. -/
theorem eq_of_prefix_of_endOf_le {front log : List Entry} (isFront : front <+: log)
    (reaches : endOf size log ≤ endOf size front) : front = log := by
  obtain ⟨rest, rfl⟩ := isFront
  cases rest with
  | nil => simp
  | cons entry rest =>
      have entryPositive := positive entry
      simp only [endOf_append, endOf_cons] at reaches
      omega

/-- Of two fronts of one log, the one that ends earlier is a front of the other. -/
theorem prefix_of_endOf_le {short long log : List Entry} (shortFront : short <+: log)
    (longFront : long <+: log) (ordered : endOf size short ≤ endOf size long) :
    short <+: long := by
  rcases List.prefix_or_prefix_of_prefix shortFront longFront with isFront | isFront
  · exact isFront
  · have same := eq_of_prefix_of_endOf_le positive isFront ordered
    exact same ▸ List.prefix_refl long

/-- A position names at most one front of a log. -/
theorem prefix_unique {first second log : List Entry} (firstFront : first <+: log)
    (secondFront : second <+: log) (same : endOf size first = endOf size second) :
    first = second :=
  eq_of_prefix_of_endOf_le positive
    (prefix_of_endOf_le positive firstFront secondFront (Nat.le_of_eq same))
    (Nat.le_of_eq same.symm)

/-- Logs that agree up to a position agree up to every boundary below it. -/
theorem AgreeTo.mono {left right : List Entry} {position lower : Nat}
    (agree : AgreeTo size left right position) (below : lower ≤ position)
    (boundary : Boundary size left lower) : AgreeTo size left right lower := by
  obtain ⟨front, inLeft, inRight, rfl⟩ := agree
  obtain ⟨part, partFront, rfl⟩ := boundary
  have inside := prefix_of_endOf_le positive partFront inLeft below
  exact ⟨part, partFront, inside.trans inRight, rfl⟩

/-- Agreement with one log up to two positions gives agreement up to the lower. -/
theorem AgreeTo.trans {left middle right : List Entry} {first second : Nat}
    (leftAgree : AgreeTo size left middle first) (rightAgree : AgreeTo size middle right second) :
    AgreeTo size left right (min first second) := by
  obtain ⟨front, inLeft, inMiddle, rfl⟩ := leftAgree
  obtain ⟨other, otherMiddle, inRight, rfl⟩ := rightAgree
  rcases Nat.le_total (endOf size front) (endOf size other) with ordered | ordered
  · have inside := prefix_of_endOf_le positive inMiddle otherMiddle ordered
    exact ⟨front, inLeft, inside.trans inRight, (Nat.min_eq_left ordered).symm⟩
  · have inside := prefix_of_endOf_le positive otherMiddle inMiddle ordered
    exact ⟨other, inside.trans inLeft, inRight, (Nat.min_eq_right ordered).symm⟩

end Positive

end Icegres.TermLog
