import Icegres.Quorum.Proposer
import Icegres.Steady
import Mathlib.Data.Fintype.Card
import Mathlib.Data.List.DropRight
import Mathlib.Data.List.FinRange

/-!
# When the lease has lapsed

A standby `icegresd` probes the acceptors of the lease log. Each answer shows a term and a flush
position, which a holder advances by renewing. The tracker counts an acceptor that answers and
has not moved for the time to live; a quorum of them means that the lease has lapsed.
-/

namespace Icegres.Icegresd

open Quorum (quorum)
open Steady (Changed Unchanged clock)

/-! ## The tracker -/

/-- The last position that an acceptor showed. -/
structure Observed where
  term : Nat
  flush : Nat
  /-- When the position last changed. -/
  since : Nat
  /-- Whether the last probe reached the acceptor. -/
  reachable : Bool
  deriving DecidableEq

structure ExpiryTracker (n : Nat) where
  ttl : Nat
  seen : Fin n → Option Observed

namespace ExpiryTracker

variable {n : Nat}

def new (n ttl : Nat) : ExpiryTracker n where
  ttl := ttl
  seen _ := none

def observe (tracker : ExpiryTracker n) (idx : Fin n) (term flush now : Nat) :
    ExpiryTracker n :=
  let slot : Observed :=
    match tracker.seen idx with
    | some o =>
        if o.term = term ∧ o.flush = flush then { o with reachable := true }
        else ⟨term, flush, now, true⟩
    | none => ⟨term, flush, now, true⟩
  { tracker with seen := Function.update tracker.seen idx (some slot) }

/-- A failed probe. The time since which the position is unchanged stays. -/
def observeUnreachable (tracker : ExpiryTracker n) (idx : Fin n) : ExpiryTracker n :=
  match tracker.seen idx with
  | some o =>
      { tracker with
        seen := Function.update tracker.seen idx (some { o with reachable := false }) }
  | none => tracker

/-- A position counts when its acceptor was reached and it is as old as the time to live. The
difference of two instants is zero when the later one is given second. -/
def witnesses (tracker : ExpiryTracker n) (now : Nat) (o : Observed) : Bool :=
  o.reachable && decide (tracker.ttl ≤ now - o.since)

def expired (tracker : ExpiryTracker n) (now : Nat) : Bool :=
  decide (quorum ≤ (((List.finRange n).filterMap tracker.seen).filter
    (tracker.witnesses now)).length)

/-- Nothing was ever elected or written. -/
def virgin (tracker : ExpiryTracker n) : Bool :=
  decide (quorum ≤ (((List.finRange n).filterMap tracker.seen).filter
    fun o => o.reachable && o.term = 0 && o.flush = 0).length)

def reset (tracker : ExpiryTracker n) : ExpiryTracker n :=
  { tracker with seen := fun _ => none }

/-- One round of probes, of which each shows a position or fails. -/
def pollAcceptors (tracker : ExpiryTracker n) (results : Fin n → Option (Nat × Nat))
    (now : Nat) : ExpiryTracker n :=
  (List.finRange n).foldl (fun tracker idx =>
    match results idx with
    | some (term, flush) => tracker.observe idx term flush now
    | none => tracker.observeUnreachable idx) tracker

end ExpiryTracker

/-! ## Runs of calls -/

/-- A call that changes a tracker. -/
inductive TrackerCall (n : Nat) where
  | observe (idx : Fin n) (term flush now : Nat)
  | observeUnreachable (idx : Fin n)
  | reset
  deriving DecidableEq

namespace TrackerCall

variable {n : Nat}

def run (tracker : ExpiryTracker n) : TrackerCall n → ExpiryTracker n
  | .observe idx term flush now => tracker.observe idx term flush now
  | .observeUnreachable idx => tracker.observeUnreachable idx
  | .reset => tracker.reset

def isReset : TrackerCall n → Bool
  | .reset => true
  | _ => false

/-- A failed probe and a reset are told no time. -/
def time : TrackerCall n → Option Nat
  | .observe _ _ _ now => some now
  | _ => none

end TrackerCall

/-- A term and a flush position, with the time at which they were shown. -/
abbrev Report := (Nat × Nat) × Nat

/-- What a call says about one acceptor: nothing, that a probe failed, or what it showed. -/
def TrackerCall.probe {n : Nat} (idx : Fin n) : TrackerCall n → Option (Option Report)
  | .observe target term flush now =>
      if target = idx then some (some ((term, flush), now)) else none
  | .observeUnreachable target => if target = idx then some none else none
  | .reset => none

section History

variable {n : Nat}

def sinceReset (calls : List (TrackerCall n)) : List (TrackerCall n) :=
  calls.rtakeWhile fun call => !call.isReset

/-- The probes of an acceptor since the last reset; a failed one shows nothing. -/
def probes (idx : Fin n) (calls : List (TrackerCall n)) : List (Option Report) :=
  (sinceReset calls).filterMap (TrackerCall.probe idx)

/-- What the successful ones showed. -/
def successes (idx : Fin n) (calls : List (TrackerCall n)) : List Report :=
  (probes idx calls).filterMap id

/-- The last probe of an acceptor succeeded. -/
def Reached (idx : Fin n) (calls : List (TrackerCall n)) : Prop :=
  ∃ report, (probes idx calls).getLast? = some (some report)

/-- The last probe of an acceptor succeeded, and all successful ones since one that is at least as
old as the time to live showed the same position. -/
def Frozen (ttl now : Nat) (idx : Fin n) (calls : List (TrackerCall n)) : Prop :=
  Reached idx calls ∧
    ∃ position since, Unchanged (successes idx calls) position since ∧ since + ttl ≤ now

/-- The times of the calls do not decrease, and `now` is not before them. -/
def InOrder (calls : List (TrackerCall n)) (now : Nat) : Prop :=
  (calls.filterMap TrackerCall.time ++ [now]).Pairwise (· ≤ ·)

theorem sinceReset_sublist (calls : List (TrackerCall n)) :
    (sinceReset calls).Sublist calls :=
  (List.rtakeWhile_suffix _ calls).sublist

@[simp] theorem probes_nil (idx : Fin n) : probes idx [] = [] := rfl

/-- A call that is no reset adds what it says about the acceptor. -/
theorem probes_concat (idx : Fin n) (calls : List (TrackerCall n)) (call : TrackerCall n)
    (kept : call.isReset = false) :
    probes idx (calls ++ [call]) = probes idx calls ++ (call.probe idx).toList := by
  rw [probes, sinceReset, List.rtakeWhile_concat_pos _ _ _ (by simp [kept]),
    List.filterMap_append]
  cases probe : call.probe idx with
  | none => simp [probes, sinceReset, probe]
  | some shown => simp [probes, sinceReset, probe]

@[simp] theorem probes_reset (idx : Fin n) (calls : List (TrackerCall n)) :
    probes idx (calls ++ [.reset]) = [] := by
  rw [probes, sinceReset, List.rtakeWhile_concat_neg _ _ _ (by simp [TrackerCall.isReset]),
    List.filterMap_nil]

/-- Each position that an acceptor showed was told by a call of the run. -/
theorem exists_time {idx : Fin n} {call : TrackerCall n} {report : Report}
    (told : call.probe idx = some (some report)) : call.time = some report.2 := by
  cases call with
  | observe target term flush now =>
    by_cases same : target = idx
    · obtain rfl : ((term, flush), now) = report := by simpa [TrackerCall.probe, same] using told
      rfl
    · simp [TrackerCall.probe, same] at told
  | observeUnreachable target => simp [TrackerCall.probe] at told
  | reset => simp [TrackerCall.probe] at told

/-- What an acceptor showed comes in the order of the times. -/
theorem InOrder.pairwise_successes {calls : List (TrackerCall n)} {now : Nat}
    (ordered : InOrder calls now) (idx : Fin n) :
    (successes idx calls).Pairwise fun left right => left.2 ≤ right.2 := by
  have times := List.pairwise_filterMap.mp (List.pairwise_append.mp ordered).1
  refine List.pairwise_filterMap.mpr (List.pairwise_filterMap.mpr ?_)
  refine (times.sublist (sinceReset_sublist calls)).imp fun {left right} le => ?_
  rintro _ told _ told' report rfl report' rfl
  exact le _ (exists_time told) _ (exists_time told')

theorem InOrder.le_now {calls : List (TrackerCall n)} {now : Nat} (ordered : InOrder calls now)
    {idx : Fin n} {report : Report} (mem : report ∈ successes idx calls) : report.2 ≤ now := by
  obtain ⟨probe, mem, showed⟩ := List.mem_filterMap.mp mem
  obtain rfl : probe = some report := showed
  obtain ⟨call, mem, told⟩ := List.mem_filterMap.mp mem
  exact (List.pairwise_append.mp ordered).2.2 _
    (List.mem_filterMap.mpr ⟨call, (sinceReset_sublist calls).mem mem, exists_time told⟩) _
    (List.mem_singleton.mpr rfl)

/-- A frozen acceptor has not changed within the time to live. -/
theorem Frozen.changed_le {idx : Fin n} {calls : List (TrackerCall n)} {ttl now time : Nat}
    (frozen : Frozen ttl now idx calls) (ordered : InOrder calls now)
    (changed : Changed (successes idx calls) time) : time + ttl ≤ now := by
  obtain ⟨-, position, since, unchanged, old⟩ := frozen
  have le := changed.le_of_unchanged (ordered.pairwise_successes idx) unchanged
  omega

instance (calls : List (TrackerCall n)) (now : Nat) : Decidable (InOrder calls now) :=
  inferInstanceAs (Decidable (List.Pairwise _ _))

end History

/-! ## What a tracker shows -/

/-- The slot of an acceptor whose clock shows a position and a time. -/
def Observed.of (reachable : Bool) (shown : Report) : Observed :=
  ⟨shown.1.1, shown.1.2, shown.2, reachable⟩

namespace ExpiryTracker

variable {n : Nat} {tracker : ExpiryTracker n} {idx other : Fin n} {reachable : Bool}
  {shown : Option Report}

theorem seen_observe (seen : tracker.seen idx = shown.map (.of reachable))
    (term flush now : Nat) :
    (tracker.observe idx term flush now).seen idx =
      (Steady.note shown ((term, flush), now)).map (.of true) := by
  cases shown with
  | none => simp_all [observe, Steady.note, Observed.of]
  | some entry =>
    obtain ⟨⟨term', flush'⟩, since⟩ := entry
    by_cases same : term' = term ∧ flush' = flush
    · simp [observe, Steady.note, Observed.of, seen, same]
    · simp [observe, Steady.note, Observed.of, seen, same]

theorem seen_observe_of_ne (ne : other ≠ idx) (term flush now : Nat) :
    (tracker.observe other term flush now).seen idx = tracker.seen idx := by
  simp [observe, Function.update_of_ne ne.symm]

theorem seen_observeUnreachable (seen : tracker.seen idx = shown.map (.of reachable)) :
    (tracker.observeUnreachable idx).seen idx = shown.map (.of false) := by
  cases shown with
  | none => simp_all [observeUnreachable]
  | some entry => simp_all [observeUnreachable, Observed.of]

theorem seen_observeUnreachable_of_ne (ne : other ≠ idx) :
    (tracker.observeUnreachable other).seen idx = tracker.seen idx := by
  unfold observeUnreachable
  split
  · simp [Function.update_of_ne ne.symm]
  · rfl

theorem ttl_run (call : TrackerCall n) : (call.run tracker).ttl = tracker.ttl := by
  cases call with
  | observe target term flush now => rfl
  | observeUnreachable target =>
    simp only [TrackerCall.run, observeUnreachable]
    split <;> rfl
  | reset => rfl

/-- A tracker shows of each acceptor the clock of what it showed since the last reset, and whether
the last probe reached it. -/
def Shows (tracker : ExpiryTracker n) (calls : List (TrackerCall n)) : Prop :=
  ∀ idx, ∃ reachable, (reachable = true ↔ Reached idx calls) ∧
    tracker.seen idx = (clock (successes idx calls)).map (.of reachable)

variable {calls : List (TrackerCall n)}

theorem shows_new (n ttl : Nat) : Shows (new n ttl) [] :=
  fun _ => ⟨false, by simp [Reached], by simp [successes, new]⟩

theorem Shows.observe (shows : Shows tracker calls) (target : Fin n) (term flush now : Nat) :
    Shows (tracker.observe target term flush now)
      (calls ++ [.observe target term flush now]) := by
  intro idx
  obtain ⟨reachable, reached, seen⟩ := shows idx
  have grown := probes_concat idx calls (.observe target term flush now) rfl
  rcases eq_or_ne target idx with rfl | ne
  · refine ⟨true, by simp [Reached, grown, TrackerCall.probe], ?_⟩
    have more : successes target (calls ++ [.observe target term flush now]) =
        successes target calls ++ [((term, flush), now)] := by
      simp [successes, grown, TrackerCall.probe]
    rw [more, Steady.clock_concat]
    exact seen_observe seen term flush now
  · have same : probes idx (calls ++ [.observe target term flush now]) = probes idx calls := by
      simpa [TrackerCall.probe, ne] using grown
    refine ⟨reachable, by rw [reached, Reached, Reached, same], ?_⟩
    rw [successes, same, ← successes, ← seen]
    exact seen_observe_of_ne ne term flush now

theorem Shows.observeUnreachable (shows : Shows tracker calls) (target : Fin n) :
    Shows (tracker.observeUnreachable target) (calls ++ [.observeUnreachable target]) := by
  intro idx
  obtain ⟨reachable, reached, seen⟩ := shows idx
  have grown := probes_concat idx calls (.observeUnreachable target) rfl
  rcases eq_or_ne target idx with rfl | ne
  · refine ⟨false, by simp [Reached, grown, TrackerCall.probe], ?_⟩
    have same : successes target (calls ++ [.observeUnreachable target]) =
        successes target calls := by
      simp [successes, grown, TrackerCall.probe]
    rw [same]
    exact seen_observeUnreachable seen
  · have same : probes idx (calls ++ [.observeUnreachable target]) = probes idx calls := by
      simpa [TrackerCall.probe, ne] using grown
    refine ⟨reachable, by rw [reached, Reached, Reached, same], ?_⟩
    rw [successes, same, ← successes, ← seen]
    exact seen_observeUnreachable_of_ne ne

theorem shows_reset (tracker : ExpiryTracker n) (calls : List (TrackerCall n)) :
    Shows tracker.reset (calls ++ [.reset]) :=
  fun _ => ⟨false, by simp [Reached], by simp [successes, reset]⟩

theorem Shows.run (shows : Shows tracker calls) (call : TrackerCall n) :
    Shows (call.run tracker) (calls ++ [call]) := by
  cases call with
  | observe target term flush now => exact shows.observe target term flush now
  | observeUnreachable target => exact shows.observeUnreachable target
  | reset => exact shows_reset tracker calls

/-- Any further calls keep what a tracker shows. -/
theorem Shows.foldl (shows : Shows tracker calls) (more : List (TrackerCall n)) :
    Shows (more.foldl TrackerCall.run tracker) (calls ++ more) := by
  induction more generalizing tracker calls with
  | nil => simpa using shows
  | cons call more ih => simpa using ih (shows.run call)

theorem ttl_calls (ttl : Nat) (calls : List (TrackerCall n)) :
    (calls.foldl TrackerCall.run (new n ttl)).ttl = ttl := by
  induction calls using List.reverseRecOn with
  | nil => rfl
  | append_singleton calls call ih => rw [List.foldl_concat, ttl_run, ih]

/-- The calls of one round of probes. -/
def pollCalls (results : Fin n → Option (Nat × Nat)) (now : Nat) : List (TrackerCall n) :=
  (List.finRange n).map fun idx =>
    match results idx with
    | some (term, flush) => .observe idx term flush now
    | none => .observeUnreachable idx

theorem pollAcceptors_eq_run (tracker : ExpiryTracker n)
    (results : Fin n → Option (Nat × Nat)) (now : Nat) :
    tracker.pollAcceptors results now = (pollCalls results now).foldl TrackerCall.run tracker := by
  rw [pollAcceptors, pollCalls, List.foldl_map]
  congr 1
  funext tracker idx
  cases results idx <;> rfl

theorem Shows.pollAcceptors (shows : Shows tracker calls) (results : Fin n → Option (Nat × Nat))
    (now : Nat) :
    Shows (tracker.pollAcceptors results now) (calls ++ pollCalls results now) := by
  rw [pollAcceptors_eq_run]
  exact shows.foldl _

/-! ## Expiry -/

/-- The decisions count acceptors whose slots pass a check. -/
theorem quorum_le_iff (seen : Fin n → Option Observed) (check : Observed → Bool) :
    quorum ≤ (((List.finRange n).filterMap seen).filter check).length ↔
      ∃ acceptors : Finset (Fin n), quorum ≤ acceptors.card ∧
        ∀ idx ∈ acceptors, ∃ o, seen idx = some o ∧ check o = true := by
  let passing := (List.finRange n).filter fun idx => (seen idx).any check
  have count : (((List.finRange n).filterMap seen).filter check).length =
      passing.toFinset.card := by
    rw [List.toFinset_card_of_nodup ((List.nodup_finRange n).filter _),
      ← List.countP_eq_length_filter, ← List.countP_eq_length_filter, List.countP_filterMap]
    refine List.countP_congr fun idx _ => ?_
    cases seen idx <;> simp
  have mem (idx) : idx ∈ passing.toFinset ↔ ∃ o, seen idx = some o ∧ check o = true := by
    simp [passing, Option.any_eq_true]
  rw [count]
  constructor
  · exact fun many => ⟨passing.toFinset, many, fun idx => (mem idx).mp⟩
  · rintro ⟨acceptors, many, pass⟩
    exact many.trans (Finset.card_le_card fun idx counted => (mem idx).mpr (pass idx counted))

/-- An acceptor counts if and only if it is frozen. -/
theorem Shows.witnesses_iff {now : Nat} (shows : Shows tracker calls)
    (ordered : InOrder calls now) (idx : Fin n) :
    (∃ o, tracker.seen idx = some o ∧ tracker.witnesses now o = true) ↔
      Frozen tracker.ttl now idx calls := by
  obtain ⟨reachable, reached, seen⟩ := shows idx
  rw [Frozen, ← reached]
  constructor
  · rintro ⟨o, slot, counted⟩
    rw [slot] at seen
    obtain ⟨⟨position, since⟩, shown, rfl⟩ := Option.map_eq_some_iff.mp seen.symm
    have unchanged := Steady.unchanged_of_clock shown
    have le : since ≤ now := ordered.le_now unchanged.mem
    rw [witnesses, Bool.and_eq_true, decide_eq_true_eq] at counted
    obtain ⟨rfl, old⟩ : reachable = true ∧ tracker.ttl ≤ now - since := counted
    exact ⟨rfl, position, since, unchanged, by omega⟩
  · rintro ⟨rfl, position, since, unchanged, old⟩
    obtain ⟨first, early, shown⟩ :=
      Steady.clock_of_unchanged (ordered.pairwise_successes idx) unchanged
    refine ⟨.of true (position, first), by rw [seen, shown]; rfl, ?_⟩
    have old : tracker.ttl ≤ now - first := by omega
    simp [witnesses, Observed.of, old]

theorem Shows.expired_iff {now : Nat} (shows : Shows tracker calls)
    (ordered : InOrder calls now) :
    tracker.expired now = true ↔
      ∃ acceptors : Finset (Fin n), quorum ≤ acceptors.card ∧
        ∀ idx ∈ acceptors, Frozen tracker.ttl now idx calls := by
  simp only [expired, decide_eq_true_eq, quorum_le_iff, shows.witnesses_iff ordered]

theorem Shows.reached_of_seen (shows : Shows tracker calls) {o : Observed}
    (slot : tracker.seen idx = some o) (answered : o.reachable = true) : Reached idx calls := by
  obtain ⟨reachable, reached, seen⟩ := shows idx
  rw [slot] at seen
  obtain ⟨shown, -, rfl⟩ := Option.map_eq_some_iff.mp seen.symm
  exact reached.mp answered

/-- The slot of an acceptor that was reached holds what its last probe showed. -/
theorem Shows.seen_of_last (shows : Shows tracker calls) {report : Report}
    (last : (probes idx calls).getLast? = some (some report)) :
    ∃ since, tracker.seen idx = some (.of true (report.1, since)) := by
  obtain ⟨reachable, reached, seen⟩ := shows idx
  obtain rfl : reachable = true := reached.mpr ⟨report, last⟩
  obtain ⟨front, eq⟩ := List.getLast?_eq_some_iff.mp last
  have more : successes idx calls = front.filterMap id ++ [report] := by simp [successes, eq]
  obtain ⟨since, noted⟩ := Steady.exists_note (clock (front.filterMap id)) report
  exact ⟨since, by rw [seen, more, Steady.clock_concat, noted]; rfl⟩

/-- A log counts as never held when the last probes of a quorum showed nothing but zeros. -/
theorem Shows.virgin_iff (shows : Shows tracker calls) :
    tracker.virgin = true ↔
      ∃ acceptors : Finset (Fin n), quorum ≤ acceptors.card ∧
        ∀ idx ∈ acceptors, ∃ time, (probes idx calls).getLast? = some (some ((0, 0), time)) := by
  have counts (idx : Fin n) :
      (∃ o, tracker.seen idx = some o ∧ (o.reachable && o.term = 0 && o.flush = 0) = true) ↔
        ∃ time, (probes idx calls).getLast? = some (some ((0, 0), time)) := by
    constructor
    · rintro ⟨o, slot, zeros⟩
      obtain ⟨⟨answered, term⟩, flush⟩ : (o.reachable = true ∧ o.term = 0) ∧ o.flush = 0 := by
        simpa using zeros
      obtain ⟨report, last⟩ := shows.reached_of_seen slot answered
      obtain ⟨since, seen⟩ := shows.seen_of_last last
      obtain rfl : o = .of true (report.1, since) := Option.some.inj (slot.symm.trans seen)
      have zero : report = ((0, 0), report.2) := Prod.ext (Prod.ext term flush) rfl
      exact ⟨report.2, zero ▸ last⟩
    · rintro ⟨time, last⟩
      obtain ⟨since, seen⟩ := shows.seen_of_last last
      exact ⟨_, seen, rfl⟩
  simp only [virgin, decide_eq_true_eq, quorum_le_iff, counts]

/-- A tracker finds the lease lapsed if and only if a quorum of acceptors is frozen; an acceptor
that counts was reached by its last probe and has not changed within the time to live. -/
theorem expired_iff_frozen (n ttl : Nat) (calls : List (TrackerCall n)) (now : Nat)
    (ordered : InOrder calls now) :
    let tracker := calls.foldl TrackerCall.run (new n ttl)
    (tracker.expired now = true ↔
      ∃ acceptors : Finset (Fin n), quorum ≤ acceptors.card ∧
        ∀ idx ∈ acceptors, Frozen ttl now idx calls) ∧
      ∀ idx o, tracker.seen idx = some o → tracker.witnesses now o = true →
        Reached idx calls ∧ ∀ time, Changed (successes idx calls) time → time + ttl ≤ now := by
  intro tracker
  have shows : tracker.Shows calls := (shows_new n ttl).foldl calls
  have same : tracker.ttl = ttl := ttl_calls ttl calls
  rw [← same]
  refine ⟨shows.expired_iff ordered, fun idx o slot counted => ?_⟩
  have frozen := (shows.witnesses_iff ordered idx).mp ⟨o, slot, counted⟩
  exact ⟨frozen.1, fun _ changed => frozen.changed_le ordered changed⟩

/-- Two of three acceptors stay where they are, one of them behind a failed probe, and the third
moves. -/
def renewedByOne : List (TrackerCall 3) :=
  [.observe 0 1 5 0, .observe 1 1 5 0, .observe 2 1 5 0,
    .observe 0 1 5 6, .observeUnreachable 1, .observe 2 1 9 6,
    .observe 0 1 5 12, .observe 1 1 5 12, .observeUnreachable 2]

theorem expired_iff_frozen_renewedByOne :
    ((renewedByOne.foldl TrackerCall.run (new 3 10)).expired 12 = true ∧
      ∃ acceptors : Finset (Fin 3), quorum ≤ acceptors.card ∧
        ∀ idx ∈ acceptors, Frozen 10 12 idx renewedByOne) :=
  have lapsed : (renewedByOne.foldl TrackerCall.run (new 3 10)).expired 12 = true := by
    decide +kernel
  ⟨lapsed, (expired_iff_frozen 3 10 renewedByOne 12 (by decide +kernel)).1.mp lapsed⟩

end ExpiryTracker

end Icegres.Icegresd
