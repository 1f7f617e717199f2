import Mathlib.Data.List.Forall2

/-!
# Computations that can fail

What a sequence of computations has done when it succeeded.
-/

namespace Icegres

variable {Failure Value Result : Type}

theorem bind_eq_ok {first : Except Failure Value} {next : Value → Except Failure Result}
    {result : Result} (both : first >>= next = .ok result) :
    ∃ value, first = .ok value ∧ next value = .ok result := by
  cases first with
  | error failure => cases both
  | ok value => exact ⟨value, rfl, both⟩

theorem mapError_eq_ok {Other : Type} {change : Failure → Other} {outcome : Except Failure Value}
    {value : Value} (is : outcome.mapError change = .ok value) : outcome = .ok value := by
  cases outcome with
  | error failure => cases is
  | ok found => rw [Except.ok.inj is]

/-- A list of computations succeeds item by item. -/
theorem mapM_eq_ok {Item : Type} {compute : Item → Except Failure Value} {items : List Item}
    {values : List Value} (all : items.mapM compute = .ok values) :
    List.Forall₂ (fun item value => compute item = .ok value) items values := by
  induction items generalizing values with
  | nil =>
      cases all
      exact .nil
  | cons item rest ih =>
      rw [List.mapM_cons] at all
      obtain ⟨value, first, all⟩ := bind_eq_ok all
      obtain ⟨others, later, all⟩ := bind_eq_ok all
      cases all
      exact .cons first (ih later)

end Icegres
