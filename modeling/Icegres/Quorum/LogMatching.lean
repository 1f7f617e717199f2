import Icegres.Quorum.Refines

/-!
# Log matching

Two acceptors whose effective histories name the same term at a position hold the same bytes
up to it. It holds in every run in which recovery reads are served in the donor's own term. A
read carries no term, so a proposer whose donor has moved on since its vote downloads records
of another branch and publishes them under the old branch's history.
-/

namespace Icegres.Quorum

open Icegres.TermLog

namespace Acceptor

/-- The history in effect up to the flush position. -/
def effectiveHistory (acceptor : Acceptor) : TermHistory :=
  acceptor.state.termHistory.upTo acceptor.wal.flush

/-- The byte a read of one position returns. -/
def byteAt (acceptor : Acceptor) (position : Nat) : Option UInt8 :=
  match (acceptor.process (.read position (position + 1))).2 with
  | .readResp _ records => records.head?
  | _ => none

/-- A retained byte is that of the log at its position. -/
theorem byteAt_eq {acceptor : Acceptor} {abs : Protocol} {id : AcceptorId}
    (follows : Follows acceptor abs id) {position : Nat} {byte : UInt8}
    (retained : acceptor.byteAt position = some byte) :
    (encodeAll (abs.logOf (abs.adopted id)))[position]? = some byte := by
  unfold byteAt at retained
  split at retained
  · rename_i fromLsn records answer
    obtain ⟨-, served⟩ := process_read follows.log.layout answer
    have nonempty : records ≠ [] := by
      rintro rfl
      simp at retained
    obtain ⟨above, within, slice⟩ := served nonempty
    obtain ⟨before, ⟨rest, log⟩, start, ends⟩ := follows.log.front
    have beforeLength : (encodeAll before).length = acceptor.wal.retainedStart := by
      rw [encodeAll_length, start]
    have positive : 0 < records.length := List.length_pos_of_ne_nil nonempty
    have layout := follows.log.layout.ends
    have bounded : position - acceptor.wal.retainedStart < (encodeAll acceptor.wal.records).length := by
      rw [encodeAll_length]
      omega
    rw [slice, List.head?_eq_getElem?, List.getElem?_take, if_pos positive,
      List.getElem?_drop, Nat.add_zero] at retained
    rw [← log, List.append_assoc, encodeAll_append, encodeAll_append,
      List.getElem?_append_right (by omega), beforeLength, List.getElem?_append_left bounded]
    exact retained
  · cases retained

end Acceptor

/-- Logs that agree up to a position hold the same bytes below it. -/
theorem AgreeTo.getElem?_encodeAll {left right : List Record} {position lower : Nat}
    (agree : AgreeTo Record.frameLen left right position) (below : lower < position) :
    (encodeAll left)[lower]? = (encodeAll right)[lower]? := by
  obtain ⟨front, ⟨moreLeft, rfl⟩, ⟨moreRight, rfl⟩, ends⟩ := agree
  have bounded : lower < (encodeAll front).length := by
    rw [encodeAll_length, ← endOf_frameLen, ends]
    exact below
  rw [encodeAll_append, encodeAll_append, List.getElem?_append_left bounded,
    List.getElem?_append_left bounded]

/-- A copy's bytes up to a position are those of the log of the term its history names
there. -/
theorem Follows.byteAt_termAt {acceptor : Acceptor} {abs : Protocol} {id : AcceptorId}
    (formed : Formed abs) (follows : Follows acceptor abs id) {position lower : Nat}
    (held : position < acceptor.wal.flush) (upTo : lower ≤ position) {byte : UInt8}
    (retained : acceptor.byteAt lower = some byte) :
    (encodeAll (abs.logOf (lastLogTerm acceptor.effectiveHistory position)))[lower]? =
      some byte := by
  have inLog := Acceptor.byteAt_eq follows retained
  have cut : acceptor.effectiveHistory.upTo position =
      abs.effective (abs.adopted id) position := by
    rw [Acceptor.effectiveHistory, follows.history, State.effective, History.upTo, History.upTo,
      History.upTo, List.filter_filter]
    congr 1
    funext switch
    simp only [Bool.and_eq_left_iff_imp, decide_eq_true_eq]
    omega
  have named : lastLogTerm acceptor.effectiveHistory position =
      (abs.effective (abs.adopted id) position).lastTerm := congrArg History.lastTerm cut
  -- a log that holds a position has adopted a term, whose history starts at zero
  have adopted : abs.adopted id ≠ 0 := by
    intro none
    have := (follows.unadopted formed none).2
    omega
  obtain ⟨first, rest, cons, atStart⟩ := formed.hist_cons (formed.adopted_elected id adopted)
  have nonempty : abs.effective (abs.adopted id) position ≠ [] := by
    have mem : first ∈ abs.effective (abs.adopted id) position := by
      simp [State.effective, cons, atStart]
    exact List.ne_nil_of_mem mem
  obtain ⟨front, last, shape⟩ :=
    (List.eq_nil_or_concat (abs.effective (abs.adopted id) position)).resolve_left nonempty
  have shape : abs.effective (abs.adopted id) position = front ++ [last] := by simpa using shape
  rw [named, shape, History.lastTerm_concat]
  rcases formed.effective_next shape with ⟨own, -⟩ | ⟨after, agree, isNext | above⟩
  · rw [own]
    exact inLog
  · simp at isNext
  · rw [← AgreeTo.getElem?_encodeAll agree (by omega)]
    exact inLog

namespace Sys

/-- Acceptors whose effective histories name one term at a position that both hold retain the
same bytes up to and including it. -/
def LogMatching (sys : Sys) : Prop :=
  ∀ left right position, position < (sys.acceptors.get left).wal.flush →
    position < (sys.acceptors.get right).wal.flush →
    lastLogTerm (sys.acceptors.get left).effectiveHistory position =
      lastLogTerm (sys.acceptors.get right).effectiveHistory position →
    ∀ lower ≤ position, ∀ byte other, (sys.acceptors.get left).byteAt lower = some byte →
      (sys.acceptors.get right).byteAt lower = some other → byte = other

/-- The recovery reads of a run are fenced. -/
def FencedReads (sys : Sys) (action : Action) : Prop :=
  sys.recoveryFenced action = true

end Sys

/-- Log matching in every run whose recovery reads are fenced. -/
theorem logMatching_of_fencedReads {sys : Sys}
    (run : Run Sys.step Sys.FencedReads Sys.initial sys) : sys.LogMatching := by
  obtain ⟨abs, -, sim⟩ := (Sim.initial False False).run_of
    (fun _ _ fenced => fenced) False.elim False.elim run
  intro left right position heldLeft heldRight sameTerm lower upTo byte other isByte isOther
  have inLeft := (sim.acceptors left).byteAt_termAt sim.formed heldLeft upTo isByte
  have inRight := (sim.acceptors right).byteAt_termAt sim.formed heldRight upTo isOther
  rw [sameTerm, inRight] at inLeft
  exact (Option.some.inj inLeft).symm

/-- A takeover: the second proposer downloads the first one's record and adds its own. -/
def takenOver : List Action :=
  let write (id : ProposerId) (seq : Nat) (byte : UInt8) : Action :=
    .submit id .frame "" seq (Segment.Bytes.ofList [byte])
  [.spawn "tail" 64] ++ calls 0 .opener 12 ++ [.advance 0 .opener, write 0 1 1] ++
    streams 0 .first ++ streams 0 .second ++
    [.crash 0, .spawn "tail" 64] ++ calls 1 .opener 13 ++ [.advance 1 .opener, write 1 2 2] ++
    streams 1 .second ++ streams 1 .first

/-- After a fenced takeover two acceptors hold the new proposer's record in its term. -/
theorem logMatching_of_fencedReads_takenOver :
    let sys := execute Sys.step Sys.recoveryFenced Sys.initial takenOver
    (sys.acceptors.get .first).byteAt 59 = some 2 ∧
      (sys.acceptors.get .second).byteAt 59 = some 2 ∧
      lastLogTerm (sys.acceptors.get .first).effectiveHistory 59 = 2 ∧ sys.LogMatching := by
  have held : (fun sys : Sys => (sys.acceptors.get .first).byteAt 59 = some 2 ∧
      (sys.acceptors.get .second).byteAt 59 = some 2 ∧
      lastLogTerm (sys.acceptors.get .first).effectiveHistory 59 = 2)
      (execute Sys.step Sys.recoveryFenced Sys.initial takenOver) := by decide +kernel
  exact ⟨held.1, held.2.1, held.2.2,
    logMatching_of_fencedReads (run_execute (fun _ _ fenced => fenced) Sys.initial takenOver)⟩

/-- A read of another branch. Proposers 0 and 1 each own a branch of two records. Proposer 2
votes itself a donor of the first branch; proposer 3 rewrites the donor with the second; the
download that follows returns the second branch under the first one's history. -/
def mixedBranches : List Action :=
  let lost (id : ProposerId) (task : Task) : List Action := [.giveUp id task false]
  let write (id : ProposerId) (seq : Nat) (byte : UInt8) : Action :=
    .submit id .frame "" seq (Segment.Bytes.ofList [byte])
  -- both branches start at zero; the first acceptor holds one, the third the other
  let branches := [.spawn "tail" 64] ++ calls 0 .opener 12 ++ [.advance 0 .opener] ++
    [.spawn "tail" 64] ++ lost 1 .opener ++ calls 1 .opener 6 ++ lost 1 .opener ++
    calls 1 .opener 1 ++ [.advance 1 .opener] ++
    [write 0 1 1, write 0 2 2] ++ streams 0 .first ++
    [write 1 1 3, write 1 2 4] ++ streams 1 .third
  -- proposer 0 re-elects itself, and the second acceptor gets only its first record
  let half := [.waitCommit 0 60, .waiterStall 0 0, .advance 0 .supervisor] ++
    calls 0 .supervisor 2 ++ lost 0 .supervisor ++ calls 0 .supervisor 2 ++
    reconnects 0 .second 3 ++ advances 0 (.peer .second) 5 ++
    [.deliverCrash 0 (.peer .second) (.appending 30)]
  -- proposer 2 chooses the first acceptor, which proposer 3 then rewrites
  let rewritten := [.spawn "tail" 64] ++ calls 2 .opener 2 ++ lost 2 .opener ++
    calls 2 .opener 4 ++
    [.spawn "tail" 64] ++ calls 3 .opener 1 ++ lost 3 .opener ++ calls 3 .opener 7 ++
    lost 3 .opener ++ streams 3 .first
  -- the download, and the handshakes that publish it
  let published := calls 2 .opener 1 ++ lost 2 .opener ++ calls 2 .opener 1 ++
    streams 2 .second ++
    [.openStall 2, .advance 2 .supervisor] ++ lost 2 .supervisor ++ calls 2 .supervisor 4 ++
    reconnects 2 .third 3 ++ streams 2 .third
  branches ++ half ++ rewritten ++ published

/-- In a reachable state the second and the third acceptor give term one to position 29 and
differ there. -/
theorem not_logMatching_mixedBranches :
    let sys := execute Sys.step (fun _ _ => true) Sys.initial mixedBranches
    Run Sys.step Unrestricted Sys.initial sys ∧ ¬ sys.LogMatching := by
  refine ⟨run_execute (fun _ _ _ => trivial) Sys.initial mixedBranches, ?_⟩
  generalize reached : execute Sys.step (fun _ _ => true) Sys.initial mixedBranches = sys
  have bytes : 29 < (sys.acceptors.get .second).wal.flush ∧
      29 < (sys.acceptors.get .third).wal.flush ∧
      lastLogTerm (sys.acceptors.get .second).effectiveHistory 29 =
        lastLogTerm (sys.acceptors.get .third).effectiveHistory 29 ∧
      (sys.acceptors.get .second).byteAt 29 = some 1 ∧
      (sys.acceptors.get .third).byteAt 29 = some 3 := by
    rw [← reached]
    decide +kernel
  obtain ⟨heldLeft, heldRight, sameTerm, left, right⟩ := bytes
  intro matching
  have same := matching .second .third 29 heldLeft heldRight sameTerm 29 (Nat.le_refl _) 1 3 left
    right
  exact absurd same (by decide)

end Icegres.Quorum
