import Mathlib.Data.List.Basic

/-!
# A run of elements cut into pieces

Pieces that follow one another without a gap hold one run of elements. What a range of
positions takes from every piece, put together, is what it takes from the whole run, however
the run is cut.
-/

namespace Icegres

variable {α : Type}

/-- Elements at consecutive positions. -/
structure Piece (α : Type) where
  start : Nat
  data : List α

namespace Piece

/-- The position after the last element. -/
def stop (piece : Piece α) : Nat :=
  piece.start + piece.data.length

/-- The elements inside `[lo, hi)`. -/
def window (piece : Piece α) (lo hi : Nat) : List α :=
  (piece.data.take (hi - piece.start)).drop (lo - piece.start)

/-- Every position of the range lies in the piece. -/
def Covers (piece : Piece α) (lo hi : Nat) : Prop :=
  ∀ position, lo ≤ position → position < hi → piece.start ≤ position ∧ position < piece.stop

/-- The piece without its first elements. -/
def behead (piece : Piece α) (count : Nat) : Piece α :=
  ⟨piece.start + count, piece.data.drop count⟩

/-- The elements below a position; without any, the position itself remains. -/
def below (piece : Piece α) (position : Nat) : Piece α :=
  ⟨min piece.start position, piece.data.take (position - piece.start)⟩

theorem length_window (piece : Piece α) (lo hi : Nat) :
    (piece.window lo hi).length =
      min (hi - piece.start) piece.data.length - (lo - piece.start) := by
  rw [window, List.length_drop, List.length_take]

theorem window_eq_nil {piece : Piece α} {lo hi : Nat}
    (outside : piece.stop ≤ lo ∨ hi ≤ piece.start) : piece.window lo hi = [] := by
  apply List.eq_nil_of_length_eq_zero
  rw [length_window]
  simp only [stop] at outside
  omega

/-- Only the part of the range inside the piece counts. -/
theorem window_clamp (piece : Piece α) (lo hi : Nat) :
    (piece.data.take (min hi piece.stop - piece.start)).drop (max lo piece.start - piece.start) =
      piece.window lo hi := by
  have upper : piece.data.take (min hi piece.stop - piece.start) =
      piece.data.take (hi - piece.start) := by
    rw [List.take_eq_take_iff]
    simp only [stop]
    omega
  have lower : max lo piece.start - piece.start = lo - piece.start := by omega
  rw [upper, lower, window]

/-- Two adjacent pieces give what their union gives. -/
theorem window_append {left right : Piece α} (adjacent : right.start = left.stop) (lo hi : Nat) :
    left.window lo hi ++ right.window lo hi =
      (⟨left.start, left.data ++ right.data⟩ : Piece α).window lo hi := by
  simp only [window, List.take_append, List.drop_append, List.length_take, adjacent, stop]
  congr 1
  by_cases inside : hi ≤ left.start + left.data.length
  · have none : hi - left.start - left.data.length = 0 := by omega
    have none' : hi - (left.start + left.data.length) = 0 := by omega
    simp [none, none']
  · have upper : hi - left.start - left.data.length = hi - (left.start + left.data.length) := by
      omega
    have lower : lo - left.start - min (hi - left.start) left.data.length =
        lo - (left.start + left.data.length) := by
      omega
    rw [upper, lower]

/-- Two adjacent ranges of one piece. -/
theorem window_concat (piece : Piece α) {lo middle hi : Nat} (lower : lo ≤ middle)
    (upper : middle ≤ hi) :
    piece.window lo middle ++ piece.window middle hi = piece.window lo hi := by
  have inner : piece.data.take (middle - piece.start) =
      (piece.data.take (hi - piece.start)).take (middle - piece.start) := by
    rw [List.take_take]
    congr 1
    omega
  rw [window, window, window, inner]
  generalize piece.data.take (hi - piece.start) = data
  conv_rhs => rw [← List.take_append_drop (middle - piece.start) data, List.drop_append]
  congr 1
  by_cases long : middle - piece.start ≤ data.length
  · have skip : lo - piece.start - (data.take (middle - piece.start)).length = 0 := by
      rw [List.length_take]
      omega
    rw [skip, List.drop_zero]
  · rw [List.drop_eq_nil_of_le (by omega), List.drop_nil]

theorem covers_iff {piece : Piece α} {lo hi : Nat} (ordered : lo ≤ hi) :
    piece.Covers lo hi ↔ lo = hi ∨ piece.start ≤ lo ∧ hi ≤ piece.stop := by
  constructor
  · intro covers
    by_cases empty : lo = hi
    · exact .inl empty
    · have first := covers lo (Nat.le_refl _) (by omega)
      have last := covers (hi - 1) (by omega) (by omega)
      omega
  · rintro (rfl | ⟨lower, upper⟩) position above below
    · omega
    · omega

/-- A range is covered exactly when the piece gives as many elements as it has positions. -/
theorem length_window_eq_iff {piece : Piece α} {lo hi : Nat} (ordered : lo ≤ hi) :
    (piece.window lo hi).length = hi - lo ↔ piece.Covers lo hi := by
  rw [covers_iff ordered, length_window, stop]
  omega

end Piece

/-- The pieces follow one another without a gap, the first one at the position. -/
def Tiles : Nat → List (Piece α) → Prop
  | _, [] => True
  | position, piece :: rest => piece.start = position ∧ Tiles piece.stop rest

/-- The elements of all pieces. -/
def contents (pieces : List (Piece α)) : List α :=
  pieces.flatMap Piece.data

@[simp] theorem contents_nil : contents ([] : List (Piece α)) = [] := rfl

@[simp] theorem contents_cons (piece : Piece α) (rest : List (Piece α)) :
    contents (piece :: rest) = piece.data ++ contents rest := by
  simp [contents]

@[simp] theorem contents_append (left right : List (Piece α)) :
    contents (left ++ right) = contents left ++ contents right := by
  simp [contents]

namespace Tiles

theorem append {position : Nat} {left right : List (Piece α)} :
    Tiles position (left ++ right) ↔
      Tiles position left ∧ Tiles (position + (contents left).length) right := by
  induction left generalizing position with
  | nil => simp [Tiles]
  | cons piece left ih =>
      simp only [List.cons_append, Tiles, ih, contents_cons, List.length_append, and_assoc]
      constructor
      · rintro ⟨rfl, inLeft, inRight⟩
        exact ⟨rfl, inLeft, by rwa [← Nat.add_assoc]⟩
      · rintro ⟨rfl, inLeft, inRight⟩
        exact ⟨rfl, inLeft, by rwa [← Nat.add_assoc] at inRight⟩

/-- The pieces give what their union gives. -/
theorem flatMap_window {position : Nat} {pieces : List (Piece α)} (tiles : Tiles position pieces)
    (lo hi : Nat) :
    pieces.flatMap (fun piece => piece.window lo hi) =
      (⟨position, contents pieces⟩ : Piece α).window lo hi := by
  induction pieces generalizing position with
  | nil => simp [Piece.window]
  | cons piece rest ih =>
      obtain ⟨rfl, after⟩ := tiles
      rw [List.flatMap_cons, ih after, contents_cons]
      exact Piece.window_append rfl lo hi

end Tiles

end Icegres
