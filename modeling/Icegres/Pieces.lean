import Mathlib.Data.List.Basic

/-!
# Pieces between separators

A text is split at a separator. A piece has no separator in it, what follows a text without one
lengthens its last piece, and the pieces of joined texts are the pieces of each.
-/

namespace Icegres

variable {Item : Type} [BEq Item] [LawfulBEq Item]

/-- What follows without a separator lengthens the last piece. -/
theorem splitOn_append {sep : Item} (front back : List Item) (apart : sep ∉ back) :
    ∃ pieces last, front.splitOn sep = pieces ++ [last] ∧
      (front ++ back).splitOn sep = pieces ++ [last ++ back] := by
  induction front with
  | nil => exact ⟨[], [], List.splitOn_nil sep, List.splitOn_eq_singleton apart⟩
  | cons c rest ih =>
      obtain ⟨pieces, last, alone, both⟩ := ih
      rw [List.cons_append, List.splitOn_cons_eq_if_modifyHead, List.splitOn_cons_eq_if_modifyHead,
        alone, both]
      split
      · exact ⟨[] :: pieces, last, rfl, rfl⟩
      · cases pieces with
        | nil => exact ⟨[], c :: last, rfl, rfl⟩
        | cons piece pieces => exact ⟨(c :: piece) :: pieces, last, rfl, rfl⟩

theorem mem_piece {sep : Item} {text piece : List Item} (mem : piece ∈ text.splitOn sep) :
    sep ∉ piece ∧ ∀ c ∈ piece, c ∈ text := by
  induction text generalizing piece with
  | nil =>
      rw [List.splitOn_nil, List.mem_singleton] at mem
      simp [mem]
  | cons c rest ih =>
      rw [List.splitOn_cons_eq_if_modifyHead] at mem
      split at mem
      · obtain rfl | later := List.mem_cons.mp mem
        · simp
        · exact ⟨(ih later).1, fun c inPiece => List.mem_cons_of_mem _ ((ih later).2 c inPiece)⟩
      · next differs =>
        cases pieces : rest.splitOn sep with
        | nil => exact absurd pieces (List.splitOn_ne_nil sep rest)
        | cons first others =>
            rw [pieces, List.modifyHead_cons] at mem
            rw [pieces] at ih
            obtain rfl | later := List.mem_cons.mp mem
            · obtain ⟨noSep, inRest⟩ := ih List.mem_cons_self
              refine ⟨?_, ?_⟩
              · simp only [beq_iff_eq] at differs
                simp [noSep, Ne.symm differs]
              · rintro d inPiece
                obtain rfl | there := List.mem_cons.mp inPiece
                · exact List.mem_cons_self
                · exact List.mem_cons_of_mem _ (inRest d there)
            · obtain ⟨noSep, inRest⟩ := ih (List.mem_cons_of_mem _ later)
              exact ⟨noSep, fun d inPiece => List.mem_cons_of_mem _ (inRest d inPiece)⟩

theorem splitOn_intercalate_eq_flatMap {sep : Item} {texts : List (List Item)}
    (some' : texts ≠ []) :
    ([sep].intercalate texts).splitOn sep = texts.flatMap fun text => text.splitOn sep := by
  induction texts with
  | nil => exact absurd rfl some'
  | cons text rest ih =>
      cases rest with
      | nil => simp
      | cons next rest =>
          rw [List.intercalate_cons_cons, List.append_assoc, List.singleton_append,
            List.splitOn_append_cons_self, ih (List.cons_ne_nil _ _)]
          rfl

end Icegres
