import Icegres.Quorum.Tasks
import Icegres.Transition
import Mathlib.Data.List.TakeWhile

/-!
# Rejoining a proposer

After an acceptor accepted an elected message it receives that proposer's appends, restarts or
loses its connection, and answers the next handshake with its flush position and the switches of
the adopted history up to there. The proposer computes where to resume from these alone. A
position below its base means that the acceptor is dropped from catch-up; that is wrong as long
as the acceptor joined at or above the base.
-/

namespace Icegres.Quorum

open Icegres.TermLog (Switch History)

/-- Terms increase along a history. -/
def Ascending (history : TermHistory) : Prop :=
  history.Pairwise fun earlier later => earlier.term < later.term

/-- The leading switches at or below a position. -/
def leading (history : TermHistory) (flush : Nat) : TermHistory :=
  history.takeWhile fun switch => switch.lsn ≤ flush

/-- A history and what an acceptor reports of it share the leading switches. -/
theorem commonSwitches_upTo (disagree : Switch → Switch → String) {history later : TermHistory}
    (ascending : Ascending (history ++ later)) (flush : Nat) :
    commonSwitches disagree (history ++ later) (History.upTo history flush) =
      .ok (leading history flush).length := by
  induction history with
  | nil =>
      cases later <;> rfl
  | cons first history ih =>
      rw [Ascending, List.cons_append, List.pairwise_cons] at ascending
      obtain ⟨below, rest⟩ := ascending
      by_cases within : first.lsn ≤ flush
      · have kept : History.upTo (first :: history) flush = first :: History.upTo history flush := by
          simp [History.upTo, within]
        have led : leading (first :: history) flush = first :: leading history flush := by
          simp [leading, within]
        rw [kept, led, List.cons_append, commonSwitches, ih rest]
        simp [pure, Except.pure, bind, Except.bind]
      · have kept : History.upTo (first :: history) flush = History.upTo history flush := by
          simp [History.upTo, within]
        have led : leading (first :: history) flush = [] := by
          simp [leading, within]
        rw [kept, led]
        cases shape : History.upTo history flush with
        | nil => rfl
        | cons other others =>
            have inHistory : other ∈ history := by
              have mem : other ∈ History.upTo history flush := by simp [shape]
              exact (History.mem_upTo.mp mem).1
            have := below other (List.mem_append_left _ inHistory)
            rw [List.cons_append, commonSwitches, if_pos (by omega)]
            rfl

/-- A history is led by all of its switches exactly when they reach its last term. -/
theorem lastTerm_leading_iff {history later : TermHistory} (ascending : Ascending (history ++ later))
    {flush : Nat} (some : leading history flush ≠ []) :
    History.lastTerm (leading history flush) = History.lastTerm (history ++ later) ↔
      leading history flush = history ∧ later = [] := by
  constructor
  · intro same
    obtain ⟨rest, shape⟩ : leading history flush <+: history ++ later :=
      (List.takeWhile_prefix _).trans (List.prefix_append _ _)
    have none : rest = [] := by
      by_contra more
      obtain ⟨switch, inFront, frontTerm⟩ := History.exists_lastTerm some
      obtain ⟨last, inRest, lastTerm⟩ := History.exists_lastTerm more
      rw [← shape, Ascending, List.pairwise_append] at ascending
      have increases := ascending.2.2 switch inFront last inRest
      have whole : History.lastTerm (leading history flush ++ rest) = History.lastTerm rest := by
        simp [History.lastTerm, List.getLast?_append, List.getLast?_eq_some_getLast more]
      rw [← shape, whole] at same
      omega
    rw [none, List.append_nil] at shape
    have short : (leading history flush).length ≤ history.length :=
      (List.takeWhile_prefix _).length_le
    have noLater : later = [] := by
      have length := congrArg List.length shape
      rw [List.length_append] at length
      exact List.eq_nil_of_length_eq_zero (by omega)
    exact ⟨by rw [shape, noLater, List.append_nil], noLater⟩
  · rintro ⟨whole, rfl⟩
    rw [whole, List.append_nil]

theorem le_of_mem_leading {history : TermHistory} {flush : Nat} {switch : Switch}
    (mem : switch ∈ leading history flush) : switch.lsn ≤ flush := by
  simpa using List.mem_takeWhile_imp (p := fun switch : Switch => switch.lsn ≤ flush) mem

/-- A history whose switches all lie at or below the position is reported whole. -/
theorem upTo_of_leading {history : TermHistory} {flush : Nat}
    (whole : leading history flush = history) : History.upTo history flush = history := by
  refine History.upTo_eq_self fun switch mem => ?_
  rw [← whole] at mem
  exact le_of_mem_leading mem

/-- The switch behind the leading ones lies above the position. -/
theorem lt_of_leading {history more : TermHistory} {gap : Switch} {flush : Nat}
    (shape : history = leading history flush ++ gap :: more) : flush < gap.lsn := by
  by_contra within
  have longer : leading history flush = leading history flush ++ gap :: leading more flush := by
    conv_lhs => rw [shape]
    have front : ∀ switch ∈ leading history flush, decide (switch.lsn ≤ flush) = true :=
      fun switch mem => decide_eq_true (le_of_mem_leading mem)
    rw [leading, List.takeWhile_append_of_pos front]
    simp [leading, Nat.not_lt.mp within]
  have length := congrArg List.length longer
  simp at length

/-- When a rejoining acceptor at flush position `flush` that adopted `history` can be resumed
from retained bytes by a proposer whose own history is `history ++ later`: without a switch to
agree on, as a log at position zero or from the first switch on; else when its log reaches the
base and the switches behind the ones they agree on lie at or above it. -/
def Resumes (history later : TermHistory) (flush base : Nat) : Prop :=
  if leading history flush = [] then
    flush = 0 ∧ History.upTo history flush = [] ∨ ∀ first ∈ history.head?, base ≤ first.lsn
  else
    base ≤ flush ∧ (leading history flush = history → ∀ next ∈ later.head?, base ≤ next.lsn) ∧
      ∀ other ∈ ((History.upTo history flush).drop (leading history flush).length).head?,
        base ≤ other.lsn

/-- The start position a proposer computes for a rejoining acceptor, against its base. -/
theorem computeStart_rejoin {history later : TermHistory} (some : history ≠ [])
    (ascending : Ascending (history ++ later)) (flush base : Nat) :
    ∃ start, computeStart (history ++ later) (History.upTo history flush) flush
        (History.lastTerm (history ++ later)) base = .ok start ∧
      (base ≤ start ↔ Resumes history later flush base) := by
  obtain ⟨first, rest, rfl⟩ := List.exists_cons_of_ne_nil some
  rw [computeStart, commonSwitches_upTo _ ascending, Resumes]
  by_cases none : leading (first :: rest) flush = []
  · rw [if_pos none, none]
    simp only [List.length_nil]
    by_cases fresh : History.upTo (first :: rest) flush = [] ∧ flush = 0
    · obtain ⟨nothing, rfl⟩ := fresh
      exact ⟨base, by simp [nothing], by simp [nothing]⟩
    · refine ⟨first.lsn, ?_, ?_⟩
      · simp only [List.isEmpty_iff, if_neg fresh]
        rfl
      · have notFresh : ¬ (flush = 0 ∧ History.upTo (first :: rest) flush = []) := by
          tauto
        simp [notFresh]
  · obtain ⟨tail, shape⟩ : leading (first :: rest) flush <+: (first :: rest) :=
      List.takeWhile_prefix _
    obtain ⟨count, isCount⟩ : ∃ count, (leading (first :: rest) flush).length = count + 1 :=
      Nat.exists_eq_succ_of_ne_zero (by simpa using none)
    have taken : (first :: rest ++ later).take (count + 1) = leading (first :: rest) flush := by
      conv_lhs => rw [← shape, ← isCount, List.append_assoc, List.take_left]
    have dropped : (first :: rest ++ later).drop (count + 1) = tail ++ later := by
      conv_lhs => rw [← shape, ← isCount, List.append_assoc, List.drop_left]
    rw [if_neg none, isCount]
    simp only [taken, dropped]
    by_cases same : History.lastTerm (leading (first :: rest) flush) =
        History.lastTerm (first :: rest ++ later)
    · obtain ⟨whole, rfl⟩ := (lastTerm_leading_iff ascending none).mp same
      have reported : (History.upTo (first :: rest) flush).drop (count + 1) = [] := by
        rw [upTo_of_leading whole, ← isCount, whole, List.drop_length]
      exact ⟨flush, by rw [if_pos same], by simp [reported]⟩
    · rw [if_neg same]
      cases tail with
      | nil =>
          have whole : leading (first :: rest) flush = first :: rest := by simpa using shape
          have reported : (History.upTo (first :: rest) flush).drop (count + 1) = [] := by
            rw [upTo_of_leading whole, ← isCount, whole, List.drop_length]
          cases later with
          | nil => exact absurd (by rw [whole, List.append_nil]) same
          | cons next others =>
              refine ⟨min next.lsn flush, by simp [reported], ?_⟩
              simp only [whole, reported]
              simp [and_comm]
      | cons gap more =>
          have beyond := lt_of_leading shape.symm
          have partly : leading (first :: rest) flush ≠ first :: rest := by
            intro whole
            rw [whole] at shape
            simp at shape
          cases reported : (History.upTo (first :: rest) flush).drop (count + 1) with
          | nil =>
              refine ⟨min gap.lsn flush, by simp, ?_⟩
              simp only [partly]
              simp
              omega
          | cons other others =>
              have within : other.lsn ≤ flush := by
                have mem : other ∈ (History.upTo (first :: rest) flush).drop (count + 1) := by
                  simp [reported]
                exact (History.mem_upTo.mp (List.mem_of_mem_drop mem)).2
              refine ⟨min gap.lsn other.lsn, by simp, ?_⟩
              simp only [partly]
              simp
              omega

/-- What happens to an acceptor between an accepted elected message and a later handshake:
appends of the proposer, a failure inside one, a restart. A lost connection changes nothing. -/
inductive RejoinAction where
  | append (request : AppendRequest)
  | crash (request : AppendRequest) (point : Acceptor.CrashPoint)
  | restart

/-- The proposer's appends carry its term. -/
def RejoinAction.Of (term : Nat) : RejoinAction → Prop
  | .append request | .crash request _ => request.term = term
  | .restart => True

namespace Acceptor

def rejoinStep (acceptor : Acceptor) : RejoinAction → Option Acceptor
  | .append request => some (acceptor.process (.append request)).1
  | .crash request point => acceptor.crashDuring (.append request) point
  | .restart => some acceptor.restart

/-- The acceptor follows a proposer of this term and history, in memory and on disk. -/
structure Heeds (acceptor : Acceptor) (term : Nat) (history : TermHistory) : Prop where
  inTerm : acceptor.state.term = term
  adopted : acceptor.state.termHistory = history
  ctrlTerm : acceptor.ctrl.term = term
  ctrlHistory : acceptor.ctrl.termHistory = history

variable {acceptor next : Acceptor} {term : Nat} {history : TermHistory}

/-- A boot keeps what the control file says. -/
theorem heeds_boot {ctrl : PersistentState} (isTerm : ctrl.term = term)
    (isHistory : ctrl.termHistory = history) (files : List Seg) (rotateBytes : Nat) :
    (boot ctrl files rotateBytes).Heeds term history :=
  ⟨isTerm, isHistory, isTerm, isHistory⟩

/-- An accepted elected message makes the acceptor follow its proposer. -/
theorem heeds_elected {startLsn : Nat}
    (accepted : (acceptor.process (.elected term startLsn history)).2 = .electedResp term true) :
    (acceptor.process (.elected term startLsn history)).1.Heeds term history := by
  have bumped : term ≤ (acceptor.bumpTerm term).state.term := by
    rw [bumpTerm]
    split
    · exact Nat.le_refl _
    · omega
  simp only [process, handleElected] at accepted ⊢
  generalize acceptor.bumpTerm term = current at bumped accepted ⊢
  by_cases stale : current.state.term > term
  · simp [stale] at accepted
  · have inTerm : current.state.term = term := by omega
    rw [if_neg stale] at accepted ⊢
    cases checked : current.checkElected startLsn history with
    | error why => simp [checked] at accepted
    | ok _ => exact ⟨inTerm, rfl, inTerm, rfl⟩

theorem Heeds.handleAppend (follows : acceptor.Heeds term history) (request : AppendRequest) :
    (acceptor.handleAppend request).1.Heeds term history := by
  rw [Acceptor.handleAppend]
  split
  · exact follows
  · split
    · exact follows
    · split
      · exact follows
      · split
        · exact follows
        · simp only [applyAppend]
          split
          · exact ⟨follows.inTerm, follows.adopted, follows.inTerm, follows.adopted⟩
          · exact ⟨follows.inTerm, follows.adopted, follows.ctrlTerm, follows.ctrlHistory⟩

theorem Heeds.rejoinStep {action : RejoinAction} (follows : acceptor.Heeds term history)
    (taken : acceptor.rejoinStep action = some next) : next.Heeds term history := by
  cases action with
  | append request =>
      cases taken
      have kept := follows.handleAppend request
      simp only [process]
      split
      all_goals
        next shape =>
        rw [shape] at kept
        exact kept
  | crash request point =>
      simp only [Acceptor.rejoinStep, crashDuring, Option.map_eq_some_iff] at taken
      obtain ⟨⟨ctrl, files⟩, crashed, rfl⟩ := taken
      obtain ⟨-, -, ⟨written, rfl, -⟩ | ⟨dropped, wal, -, rfl, -⟩⟩ := crashAppend_cases crashed
      · exact heeds_boot follows.ctrlTerm follows.ctrlHistory _ _
      · have inTerm : (advance acceptor.state request wal.flush).term = term := follows.inTerm
        exact heeds_boot inTerm follows.adopted _ _
  | restart =>
      cases taken
      exact heeds_boot follows.ctrlTerm follows.ctrlHistory _ _

/-- What a following acceptor answers to a vote request of the same or a later term. -/
theorem Heeds.handleVote (follows : acceptor.Heeds term history) {voteTerm : Nat}
    (later : term ≤ voteTerm) :
    ∃ vote, (acceptor.process (.voteRequest voteTerm)).2 = .voteResponse vote ∧
      vote.term = voteTerm ∧ vote.flushLsn = acceptor.wal.flush ∧
      vote.termHistory = History.upTo history acceptor.wal.flush := by
  obtain ⟨inTerm, adopted, -, -⟩ := follows
  refine ⟨_, rfl, ?_, rfl, ?_⟩
  · by_cases granted : acceptor.state.term < voteTerm
    · simp [granted, persist]
    · simp only [granted, if_false]
      omega
  · by_cases granted : acceptor.state.term < voteTerm
    · simp [granted, persist, adopted]
    · simp [granted, adopted]

end Acceptor

/-- A proposer's own term is the last of its history. -/
structure Election.Own (election : Election) : Prop where
  some : election.history ≠ []
  isLast : History.lastTerm election.history = election.term
  ascending : Ascending election.history

/-- An acceptor accepted an elected message and since then only received appends of that term,
also with failures inside them and restarts. In the next handshake of the same proposer, or of
its re-elected self, the start position is at or above the base exactly when the acceptor's
position and history can be resumed from there. -/
theorem rejoin_start {before acceptor : Acceptor} {joined now : Election} {later : TermHistory}
    {startLsn : Nat} (own : joined.Own) (ownNow : now.Own)
    (same : now.history = joined.history ++ later)
    (accepted : (before.process (.elected joined.term startLsn joined.history)).2 =
      .electedResp joined.term true)
    (run : Run Acceptor.rejoinStep (fun _ action => action.Of joined.term)
      (before.process (.elected joined.term startLsn joined.history)).1 acceptor)
    (base : Nat) :
    ∃ vote start, (acceptor.process (.voteRequest now.term)).2 = .voteResponse vote ∧
      vote.term = now.term ∧
      computeStart now.history vote.termHistory vote.flushLsn now.term base = .ok start ∧
      (base ≤ start ↔ Resumes joined.history later acceptor.wal.flush base) := by
  have follows : acceptor.Heeds joined.term joined.history := by
    have kept (state : Acceptor) (action : RejoinAction) (next : Acceptor)
        (follows : state.Heeds joined.term joined.history) (_ : action.Of joined.term)
        (taken : state.rejoinStep action = some next) :
        next.Heeds joined.term joined.history :=
      follows.rejoinStep taken
    exact run.invariant kept (Acceptor.heeds_elected accepted)
  have laterTerm : joined.term ≤ now.term := by
    obtain ⟨switch, mem, isTerm⟩ := History.exists_lastTerm own.some
    rw [← own.isLast, ← isTerm, ← ownNow.isLast]
    refine History.term_le_lastTerm ownNow.ascending ?_
    rw [same]
    exact List.mem_append_left _ mem
  obtain ⟨vote, answer, isTerm, flush, reported⟩ := follows.handleVote laterTerm
  obtain ⟨start, computed, resumes⟩ := computeStart_rejoin own.some
    (same ▸ ownNow.ascending) acceptor.wal.flush base
  rw [← same, ownNow.isLast] at computed
  exact ⟨vote, start, answer, isTerm, by rw [flush, reported, computed], resumes⟩

/-- The first term of a tail whose log starts at position 100. -/
def firstTerm : Election where
  term := 2
  termStartLsn := 100
  history := [⟨2, 100⟩]

/-- A new acceptor that joined there is resumed at the base after a restart. -/
theorem rejoin_start_first :
    ∃ vote start,
      (((Acceptor.new.process (.elected 2 100 firstTerm.history)).1.restart).process
        (.voteRequest 2)).2 = .voteResponse vote ∧
      computeStart firstTerm.history vote.termHistory vote.flushLsn 2 100 = .ok start ∧
      100 ≤ start := by
  have own : firstTerm.Own := ⟨by simp [firstTerm], rfl, List.pairwise_singleton _ _⟩
  have taken : (Acceptor.new.process (.elected 2 100 firstTerm.history)).1.rejoinStep .restart =
      some (Acceptor.new.process (.elected 2 100 firstTerm.history)).1.restart := rfl
  have allowed : RejoinAction.restart.Of firstTerm.term := trivial
  obtain ⟨vote, start, answer, -, computed, resumes⟩ :=
    rejoin_start own own (List.append_nil _).symm rfl (Run.refl.step allowed taken) 100
  exact ⟨vote, start, answer, computed, resumes.mpr (.inl ⟨rfl, rfl⟩)⟩

/-- The second term of a tail started at position 100. -/
def secondTerm : Election where
  term := 2
  termStartLsn := 100
  history := [⟨1, 0⟩, ⟨2, 100⟩]

/-- A new acceptor joins at 100 and loses its connection before the first append. The handshake
computes position zero for it, below the base 100 it joined at. -/
theorem rejoin_expels :
    (Acceptor.new.process (.elected 2 100 secondTerm.history)).2 = .electedResp 2 true ∧
      ∃ vote, ((Acceptor.new.process (.elected 2 100 secondTerm.history)).1.process
          (.voteRequest 2)).2 = .voteResponse vote ∧
        computeStart secondTerm.history vote.termHistory vote.flushLsn 2 100 = .ok 0 :=
  ⟨rfl, _, rfl, rfl⟩

end Icegres.Quorum
