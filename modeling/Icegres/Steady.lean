import Mathlib.Data.List.Basic
import Mathlib.Data.List.Induction
import Mathlib.Order.Basic

/-!
# How long a value has been the same

A source reports its value from time to time. A clock keeps the latest value and the time of the
report that brought it, and starts again when the value changes. When the times do not decrease,
it shows the earliest report since which every report brought the same value.
-/

namespace Icegres.Steady

variable {Value Time : Type}

/-- Every report since one made at `since` brought `value`, and so did that one. -/
def Unchanged (reports : List (Value × Time)) (value : Value) (since : Time) : Prop :=
  ∃ before after, reports = before ++ (value, since) :: after ∧ ∀ later ∈ after, later.1 = value

/-- The report made at `time` brought another value than the one before it. -/
def Changed (reports : List (Value × Time)) (time : Time) : Prop :=
  ∃ before old last new after,
    reports = before ++ (old, last) :: (new, time) :: after ∧ old ≠ new

theorem Unchanged.mem {reports : List (Value × Time)} {value : Value} {since : Time}
    (unchanged : Unchanged reports value since) : (value, since) ∈ reports := by
  obtain ⟨before, after, rfl, -⟩ := unchanged
  simp

theorem not_unchanged_nil {value : Value} {since : Time} : ¬ Unchanged [] value since :=
  fun unchanged => List.not_mem_nil unchanged.mem

/-- A further report leaves a value unchanged, or is the first one that brought it. -/
theorem unchanged_concat {reports : List (Value × Time)} {report : Value × Time} {value : Value}
    {since : Time} :
    Unchanged (reports ++ [report]) value since ↔
      report.1 = value ∧ (report.2 = since ∨ Unchanged reports value since) := by
  constructor
  · rintro ⟨before, after, eq, same⟩
    rcases List.eq_nil_or_concat after with rfl | ⟨front, last, rfl⟩
    · obtain ⟨-, rfl⟩ := List.append_inj' eq rfl |>.imp_right List.singleton_inj.mp
      exact ⟨rfl, .inl rfl⟩
    · rw [List.concat_eq_append, ← List.cons_append, ← List.append_assoc] at eq
      obtain ⟨rfl, rfl⟩ := List.append_inj' eq rfl |>.imp_right List.singleton_inj.mp
      refine ⟨same _ (by simp), .inr ⟨before, front, rfl, fun later mem => same later ?_⟩⟩
      simp [mem]
  · rintro ⟨rfl, rfl | ⟨before, after, rfl, same⟩⟩
    · exact ⟨reports, [], rfl, by simp⟩
    · refine ⟨before, after ++ [report], by simp, fun later mem => ?_⟩
      rcases List.mem_append.mp mem with mem | mem
      · exact same later mem
      · rw [List.mem_singleton.mp mem]

/-- A value that is the same since `since` last changed then or before. -/
theorem Changed.le_of_unchanged [Preorder Time] {reports : List (Value × Time)} {value : Value}
    {time since : Time} (changed : Changed reports time)
    (ordered : reports.Pairwise fun left right => left.2 ≤ right.2)
    (unchanged : Unchanged reports value since) : time ≤ since := by
  obtain ⟨before, old, last, new, after, rfl, differ⟩ := changed
  obtain ⟨front, rest, joined, same⟩ := unchanged
  rcases List.append_eq_append_iff.mp joined with ⟨middle, rfl, eq⟩ | ⟨middle, rfl, eq⟩
  · match middle, eq with
    | [], eq =>
      obtain ⟨⟨rfl, -⟩, rfl⟩ : (old = value ∧ last = since) ∧ (new, time) :: after = rest := by
        simpa using eq
      exact (differ (same (new, time) (by simp)).symm).elim
    | [_], eq =>
      obtain ⟨-, ⟨-, rfl⟩, -⟩ : _ ∧ (new = value ∧ time = since) ∧ after = rest := by
        simpa using eq
      exact le_refl time
    | _ :: _ :: middle, eq =>
      obtain ⟨rfl, rfl, rfl⟩ : _ ∧ _ ∧ after = middle ++ (value, since) :: rest := by
        simpa using eq
      obtain ⟨-, ordered, -⟩ := List.pairwise_append.mp ordered
      obtain ⟨-, ordered⟩ := List.pairwise_cons.mp ordered
      exact (List.pairwise_cons.mp ordered).1 (value, since) (by simp)
  · -- the report of `since` comes before both of them, so they agree
    have agree (report) (mem : report ∈ (old, last) :: (new, time) :: after) :
        report.1 = value := by
      have mem : report ∈ (value, since) :: rest := eq ▸ List.mem_append_right middle mem
      rcases List.mem_cons.mp mem with rfl | mem
      · rfl
      · exact same report mem
    exact (differ ((agree (old, last) (by simp)).trans (agree (new, time) (by simp)).symm)).elim

section Clock

variable [DecidableEq Value]

/-- What one report makes of the clock. -/
def note (clock : Option (Value × Time)) (report : Value × Time) : Option (Value × Time) :=
  match clock with
  | some shown => if shown.1 = report.1 then some shown else some report
  | none => some report

/-- A report sets the clock to its own value. -/
theorem exists_note (clock : Option (Value × Time)) (report : Value × Time) :
    ∃ since, note clock report = some (report.1, since) := by
  cases clock with
  | none => exact ⟨report.2, rfl⟩
  | some shown =>
    by_cases same : shown.1 = report.1
    · exact ⟨shown.2, by simp [note, same, Prod.ext_iff]⟩
    · exact ⟨report.2, by simp [note, same]⟩

/-- What the clock shows after some reports. -/
def clock (reports : List (Value × Time)) : Option (Value × Time) :=
  reports.foldl note none

@[simp] theorem clock_nil : clock ([] : List (Value × Time)) = none := rfl

@[simp] theorem clock_concat (reports : List (Value × Time)) (report : Value × Time) :
    clock (reports ++ [report]) = note (clock reports) report := by
  simp [clock]

/-- The value is unchanged since the time that the clock shows. -/
theorem unchanged_of_clock {reports : List (Value × Time)} {value : Value} {since : Time}
    (shown : clock reports = some (value, since)) : Unchanged reports value since := by
  induction reports using List.reverseRecOn with
  | nil => simp at shown
  | append_singleton front report ih =>
    rw [clock_concat] at shown
    rw [unchanged_concat]
    cases earlier : clock front with
    | none =>
      obtain rfl : report = (value, since) := by simpa [earlier, note] using shown
      exact ⟨rfl, .inl rfl⟩
    | some entry =>
      by_cases same : entry.1 = report.1
      · obtain rfl : entry = (value, since) := by simpa [earlier, note, same] using shown
        exact ⟨same.symm, .inr (ih earlier)⟩
      · obtain rfl : report = (value, since) := by simpa [earlier, note, same] using shown
        exact ⟨rfl, .inl rfl⟩

/-- The clock shows a time at least as early as any since which the value is unchanged. -/
theorem clock_of_unchanged [Preorder Time] {reports : List (Value × Time)} {value : Value}
    {since : Time} (ordered : reports.Pairwise fun left right => left.2 ≤ right.2)
    (unchanged : Unchanged reports value since) :
    ∃ first ≤ since, clock reports = some (value, first) := by
  induction reports using List.reverseRecOn with
  | nil => exact (not_unchanged_nil unchanged).elim
  | append_singleton front report ih =>
    obtain ⟨orderedFront, -, le⟩ := List.pairwise_append.mp ordered
    obtain ⟨same, started⟩ := unchanged_concat.mp unchanged
    rw [clock_concat]
    cases earlier : clock front with
    | none =>
      rcases started with rfl | unchanged
      · exact ⟨report.2, le_refl _, by simp [note, ← same]⟩
      · obtain ⟨first, -, shown⟩ := ih orderedFront unchanged
        simp [earlier] at shown
    | some entry =>
      rcases started with rfl | unchanged
      · by_cases kept : entry.1 = report.1
        · -- the clock was started by an earlier report
          have mem := (unchanged_of_clock earlier).mem
          refine ⟨entry.2, le entry mem report (by simp), ?_⟩
          simp [note, kept, ← same, Prod.ext_iff]
        · exact ⟨report.2, le_refl _, by simp [note, kept, ← same]⟩
      · obtain ⟨first, early, shown⟩ := ih orderedFront unchanged
        obtain rfl : entry = (value, first) := by simpa [earlier] using shown
        exact ⟨first, early, by simp [note, same]⟩

end Clock

end Icegres.Steady
