import Mathlib.Algebra.Ring.Nat
import Mathlib.Data.List.Induction

/-!
# Term histories

A replicated log that changes hands records, for every term, the position at which the
term began. Two copies of the log are compared through these histories alone: this module
has the effective part of a history below a position, the point at which a leader's and a
follower's histories part, and the lower bound on that point which keeps agreed records.
-/

namespace Icegres.TermLog

/-- A term switch: `term` begins at log position `lsn`. -/
structure Switch where
  term : Nat
  lsn : Nat
  deriving DecidableEq

/-- The switches a log has adopted, oldest first. -/
abbrev History := List Switch

namespace History

/-- The switches at or below a position. -/
def upTo (history : History) (lsn : Nat) : History :=
  history.filter fun switch => switch.lsn ≤ lsn

/-- The term of the last switch, zero when there is none. -/
def lastTerm (history : History) : Nat :=
  (history.getLast?.map Switch.term).getD 0

@[simp] theorem mem_upTo {history : History} {lsn : Nat} {switch : Switch} :
    switch ∈ history.upTo lsn ↔ switch ∈ history ∧ switch.lsn ≤ lsn := by
  simp [upTo]

@[simp] theorem upTo_nil (lsn : Nat) : upTo [] lsn = [] := rfl

@[simp] theorem upTo_append (left right : History) (lsn : Nat) :
    upTo (left ++ right) lsn = upTo left lsn ++ upTo right lsn := by
  simp [upTo]

/-- Nothing is cut from a history that lies at or below the position. -/
theorem upTo_eq_self {history : History} {lsn : Nat}
    (below : ∀ switch ∈ history, switch.lsn ≤ lsn) : history.upTo lsn = history := by
  simpa [upTo] using below

@[simp] theorem lastTerm_nil : lastTerm [] = 0 := rfl

@[simp] theorem lastTerm_concat (history : History) (switch : Switch) :
    lastTerm (history ++ [switch]) = switch.term := by
  simp [lastTerm]

/-- The last term of a nonempty history is the term of one of its switches. -/
theorem exists_lastTerm {history : History} (nonempty : history ≠ []) :
    ∃ switch ∈ history, switch.term = history.lastTerm := by
  refine ⟨history.getLast nonempty, List.getLast_mem nonempty, ?_⟩
  simp [lastTerm, List.getLast?_eq_some_getLast nonempty]

/-- Every switch of a history whose terms increase is at or below its last term. -/
theorem term_le_lastTerm {history : History}
    (sorted : history.Pairwise fun earlier later => earlier.term < later.term)
    {switch : Switch} (mem : switch ∈ history) : switch.term ≤ history.lastTerm := by
  induction history using List.reverseRecOn with
  | nil => simp at mem
  | append_singleton front last _ =>
      rw [lastTerm_concat]
      rw [List.pairwise_append] at sorted
      rcases List.mem_append.mp mem with inFront | isLast
      · exact Nat.le_of_lt (sorted.2.2 switch inFront last (by simp))
      · simp only [List.mem_singleton] at isLast
        exact Nat.le_of_eq (congrArg Switch.term isLast)

/-- Terms strictly increase and start positions never decrease. -/
def Ordered (history : History) : Prop :=
  history.Pairwise fun earlier later => earlier.term < later.term ∧ earlier.lsn ≤ later.lsn

instance (history : History) : Decidable history.Ordered :=
  inferInstanceAs (Decidable (List.Pairwise _ history))

namespace Ordered

theorem nil : Ordered [] := List.Pairwise.nil

theorem upTo {history : History} (ordered : history.Ordered) (lsn : Nat) :
    (history.upTo lsn).Ordered :=
  List.Pairwise.filter _ ordered

/-- A switch above all others extends a history. -/
theorem concat {history : History} (ordered : history.Ordered) {switch : Switch}
    (above : ∀ earlier ∈ history, earlier.term < switch.term ∧ earlier.lsn ≤ switch.lsn) :
    Ordered (history ++ [switch]) := by
  refine List.pairwise_append.mpr ⟨ordered, List.pairwise_singleton _ _, ?_⟩
  intro earlier old later isLast
  rw [List.mem_singleton.mp isLast]
  exact above earlier old

theorem terms {history : History} (ordered : history.Ordered) :
    history.Pairwise fun earlier later => earlier.term < later.term :=
  ordered.imp And.left

end Ordered

end History

/-- Where the common part of two histories ends: at the leader's next switch or the
follower's, whichever is lower. A leader without a next switch runs on without bound, a
follower without one ends at `bound`. -/
def partingPoint (bound : Nat) : (leaderRest followerRest : History) → Nat
  | [], _ => bound
  | next :: _, [] => min next.lsn bound
  | next :: _, other :: _ => min next.lsn other.lsn

/-- `point` is the highest point common to a leader's history and the history of a follower
that holds the log up to `bound`. -/
def CommonPoint (leader follower : History) (bound point : Nat) : Prop :=
  ∃ shared leaderRest followerRest : History,
    leader = shared ++ leaderRest ∧ follower = shared ++ followerRest ∧
    (∀ next other, leaderRest.head? = some next → followerRest.head? = some other →
      next.term ≠ other.term) ∧
    point = partingPoint bound leaderRest followerRest

namespace CommonPoint

/-- The common point of a follower whose switches lie within its log does too. -/
theorem le_bound {leader follower : History} {bound point : Nat}
    (common : CommonPoint leader follower bound point)
    (within : ∀ switch ∈ follower, switch.lsn ≤ bound) : point ≤ bound := by
  obtain ⟨shared, leaderRest, followerRest, -, rfl, -, rfl⟩ := common
  match leaderRest, followerRest with
  | [], _ => exact Nat.le_refl _
  | next :: _, [] => exact Nat.min_le_right _ _
  | next :: _, other :: _ =>
      have otherWithin := within other (by simp)
      simp only [partingPoint]
      omega

/-- Two lists that extend one list and part right after `shared` share no more than
`shared`: a common front of both is a front of it. -/
private theorem front_of_shared {front shared leaderMore leaderRest followerMore
    followerRest : History}
    (leader : front ++ leaderMore = shared ++ leaderRest)
    (follower : front ++ followerMore = shared ++ followerRest)
    (parts : ∀ next other, leaderRest.head? = some next → followerRest.head? = some other →
      next.term ≠ other.term) :
    ∃ between, shared = front ++ between ∧ leaderMore = between ++ leaderRest ∧
      followerMore = between ++ followerRest := by
  rcases List.append_eq_append_iff.mp leader with ⟨between, rfl, rest⟩ | ⟨extra, rfl, rest⟩
  · refine ⟨between, rfl, rest, ?_⟩
    simpa [List.append_assoc] using follower
  · cases extra with
    | nil =>
        refine ⟨[], by simp, by simpa using rest.symm, ?_⟩
        simpa using follower
    | cons switch extra =>
        exfalso
        have followerHead : followerRest = switch :: extra ++ followerMore := by
          simpa [List.append_assoc] using follower.symm
        exact parts switch switch (by simp [rest]) (by simp [followerHead]) rfl

/-- When both histories extend `front`, and everything after it starts at or above
`floor`, so does the point where they part. -/
theorem ge_of_front {leader follower front leaderMore followerMore : History}
    {bound point floor : Nat}
    (common : CommonPoint leader follower bound point)
    (leaderEq : leader = front ++ leaderMore) (followerEq : follower = front ++ followerMore)
    (leaderAbove : ∀ switch ∈ leaderMore, floor ≤ switch.lsn)
    (followerAbove : ∀ switch ∈ followerMore, floor ≤ switch.lsn)
    (boundAbove : floor ≤ bound) : floor ≤ point := by
  obtain ⟨shared, leaderRest, followerRest, rfl, rfl, parts, rfl⟩ := common
  obtain ⟨between, -, rfl, rfl⟩ :=
    front_of_shared leaderEq.symm followerEq.symm parts
  match leaderRest, followerRest with
  | [], _ => exact boundAbove
  | next :: _, [] =>
      have nextAbove := leaderAbove next (by simp)
      simp only [partingPoint]
      omega
  | next :: _, other :: _ =>
      have nextAbove := leaderAbove next (by simp)
      have otherAbove := followerAbove other (by simp)
      simp only [partingPoint]
      omega

end CommonPoint

end Icegres.TermLog
