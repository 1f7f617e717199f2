import Icegres.Quorum.Reelect

/-!
# The clients of an open tail

Submitting a record is the protocol's submit step. Waiting for a commit, moving the horizon
and the last wait of `Quorum::open` move the shared state only.
-/

namespace Icegres.Quorum

open Icegres.TermLog

variable {strict : Prop} {limit limit' : Nat} {abs : Protocol} {p : ProposerId}
variable {before : Proposer} {shared : Shared}

/-- The shared state moves, and no task. -/
theorem sharedStep {after : Proposer} {moved : Shared} (isShared : before.shared = some shared)
    (opening : after.opening = before.opening) (openReply : after.openReply = before.openReply)
    (peers : after.peers = before.peers) (peerReplies : after.peerReplies = before.peerReplies)
    (supervisor : after.supervisor = before.supervisor)
    (supervisorReply : after.supervisorReply = before.supervisorReply)
    (movedShared : after.shared = some moved)
    (sharedOk : SharedOk strict limit abs p before.opening.truncateLsn moved)
    (election : moved.election = shared.election) (horizon : shared.horizon ≤ moved.horizon)
    (head : moved.log.head = shared.log.head) :
    TaskStep strict limit abs p before after shared moved where
  opening := opening
  openReply := openReply
  isShared := isShared
  movedShared := movedShared
  sharedOk := sharedOk
  election := election
  horizon := horizon
  head := head
  supervisor := .inl supervisor
  supervisorReply answer reply := .inl ⟨supervisor, supervisorReply ▸ reply⟩
  peers id := .inl ⟨by rw [peers], by rw [peerReplies]⟩

/-- An open tail's shared state. -/
theorem Proposer.client_eq_some (isClient : before.client = some shared) :
    before.opening.pc = .returned ∧ before.shared = some shared := by
  unfold Proposer.client at isClient
  split at isClient
  · rename_i returned
    exact ⟨returned, isClient⟩
  · cases isClient

namespace ProposerOk

variable (ok : ProposerOk strict limit abs p before)

include ok

/-- Once `Quorum::open` waits for the commit, no answer is on its way to it. -/
theorem openReply_eq_none (past : before.PastHandshakes) : before.openReply = none := by
  cases reply : before.openReply with
  | none => rfl
  | some answer =>
      have replyOk := ok.openReply answer reply
      unfold OpenReplyOk at replyOk
      rcases past with ⟨stalled, pc⟩ | pc | ⟨why, pc⟩ <;> simp only [pc] at replyOk

/-- The last wait of `Quorum::open` moves on. -/
theorem moveOpen (past : before.PastHandshakes) {pc : OpenPc}
    (openOk : OpenOk strict limit abs p
      { before with opening := { before.opening with pc := pc } }) :
    ProposerOk strict limit abs p { before with opening := { before.opening with pc := pc } } := by
  have unanswered := ok.openReply_eq_none past
  refine ⟨openOk, ?_, ok.shared, ok.taskless, ok.peers, ok.peerReplies, ok.supervisorReply⟩
  intro answer reply
  have none : before.openReply = some answer := reply
  rw [unanswered] at none
  cases none

/-- What `Quorum::open` took over, while it waits and afterwards. -/
theorem tookOver {stalled : Bool} (waits : before.opening.pc = .waiting stalled) :
    TookOver strict limit abs p before.opening ∧
      ∀ shared, before.shared = some shared → Early abs p before.opening shared := by
  have openOk := ok.opening
  simp only [OpenOk, waits] at openOk
  exact openOk

/-- The last wait of `Quorum::open` ends. -/
theorem advanceOpen {after : Proposer} (advanced : before.advanceOpen shared = some after) :
    ProposerOk strict limit abs p after := by
  unfold Proposer.advanceOpen at advanced
  split at advanced
  · rename_i stalled waits
    have past : before.PastHandshakes := .inl ⟨stalled, waits⟩
    split at advanced
    · cases advanced
      exact ok.moveOpen past trivial
    · split at advanced
      · cases advanced
        refine ok.moveOpen past ?_
        obtain ⟨owner, least, hist, recovered, within⟩ := (ok.tookOver waits).1
        exact ⟨owner, least, hist, recovered, within⟩
      · cases advanced
  · cases advanced

variable (formed : Formed abs) (isShared : before.shared = some shared)

include formed isShared

/-- The last wait of `Quorum::open` spends a full append timeout for the first time. -/
theorem stallFirst (waits : before.opening.pc = .waiting false) (position : Nat) :
    ProposerOk strict limit abs p
      { before with
        opening := { before.opening with pc := .waiting true }
        shared := some (shared.request (.stalled position)) } := by
  obtain ⟨sharedOk, -⟩ := ok.shared shared isShared
  have past : before.PastHandshakes := .inl ⟨false, waits⟩
  have requested : ProposerOk strict limit abs p
      { before with shared := some (shared.request (.stalled position)) } :=
    ok.taskStep formed (Nat.le_refl _) past (sharedStep isShared rfl rfl rfl rfl rfl rfl rfl
      (sharedOk.request _) rfl (Nat.le_refl _) rfl)
  refine requested.moveOpen past ?_
  obtain ⟨⟨owner, least, hist, recovered, within⟩, early⟩ := ok.tookOver waits
  refine ⟨⟨owner, least, hist, recovered, within⟩, ?_⟩
  rintro other ⟨⟩
  obtain ⟨head, starts⟩ := early shared isShared
  exact ⟨head, starts⟩

/-- The last wait of `Quorum::open` spends it for the second time. -/
theorem stallSecond (waits : before.opening.pc = .waiting true) (why : String) :
    ProposerOk strict limit abs p
      { before with
        opening := before.opening.fail why
        shared := some (shared.poisonWith why) } := by
  obtain ⟨sharedOk, -⟩ := ok.shared shared isShared
  have past : before.PastHandshakes := .inl ⟨true, waits⟩
  have poisoned : ProposerOk strict limit abs p
      { before with shared := some (shared.poisonWith why) } :=
    ok.taskStep formed (Nat.le_refl _) past (sharedStep isShared rfl rfl rfl rfl rfl rfl rfl
      (sharedOk.poisonWith _) rfl (Nat.le_refl _) rfl)
  exact poisoned.moveOpen past trivial

end ProposerOk

/-- What a submitted record is to the retained log. -/
theorem Shared.submit_spec {kind : RecordKind} {tableKey : String} {seq : Nat}
    {body : Segment.Bytes} {moved : Shared} {record : Record}
    (entered : shared.submit kind tableKey seq body = .ok (moved, record)) :
    moved = { shared with log := shared.log.push record } ∧ record.lsn = shared.log.head := by
  simp only [Shared.submit] at entered
  split at entered
  · cases entered
  · split at entered
    · split at entered
      · cases entered
      · cases entered
        exact ⟨rfl, rfl⟩
    · cases entered

/-- The state in which the proposer's log has one more record. -/
def submitted (abs : Protocol) (p : ProposerId) (record : Record) : Protocol :=
  { abs with log := Function.update abs.log p (abs.log p ++ [record]) }

theorem ownSteps_submitted (record : Record) (owned : abs.current p ≠ 0) :
    OwnSteps p abs (submitted abs p record) := by
  refine ⟨.single (.submit p record owned), rfl, rfl, rfl, rfl, rfl, fun q different => ?_⟩
  exact ⟨rfl, by simp [submitted, different], fun _ ownedTerm => ownedTerm⟩

/-- A client submits a record. -/
theorem submit_stepped (formed : Formed abs) (ok : ProposerOk strict limit abs p before)
    (isClient : before.client = some shared) {moved : Shared} {record : Record}
    (isMoved : moved = { shared with log := shared.log.push record })
    (position : record.lsn = shared.log.head) :
    Stepped strict limit p abs (submitted abs p record) { before with shared := some moved } := by
  obtain ⟨returned, isShared⟩ := Proposer.client_eq_some isClient
  obtain ⟨sharedOk, supervisorOk⟩ := ok.shared shared isShared
  have steps := ownSteps_submitted record (formed.current_ne_zero sharedOk.elects.1)
  have after := steps.after formed
  have log : (submitted abs p record).log p = abs.log p ++ [record] := by simp [submitted]
  have sameHorizon : ({ before with shared := some moved } : Proposer).horizon = before.horizon := by
    simp [Proposer.horizon, isShared, isMoved]
  refine ⟨steps, ⟨?_, ?_, ?_, ?_, ?_, ?_, ?_⟩, fun _ ordered => ordered, ?_⟩
  · have openOk := ok.opening
    simp only [OpenOk, returned] at openOk ⊢
    refine ⟨openOk.owner, openOk.least, openOk.hist, ?_, openOk.within⟩
    obtain ⟨front, isFront, ends⟩ := openOk.recovered
    rw [log]
    exact ⟨front, isFront.trans (List.prefix_append _ _), ends⟩
  · intro answer reply
    have none := ok.openReply_eq_none (.inr (.inl returned))
    have reply : before.openReply = some answer := reply
    rw [none] at reply
    cases reply
  · rintro other ⟨⟩
    subst isMoved
    refine ⟨⟨sharedOk.elects, sharedOk.current, sharedOk.last, ?_, ?_, sharedOk.acked,
      sharedOk.committed, sharedOk.base_le, sharedOk.truncate_le, sharedOk.horizon_le,
      sharedOk.within⟩, ?_⟩
    · obtain ⟨front, logEq, base⟩ := sharedOk.records
      refine ⟨front, ?_, base⟩
      rw [log, logEq, List.append_assoc]
      rfl
    · have head := sharedOk.head
      rw [log, framesLen_append, ← head]
      simp only [LogBuf.push, Record.endLsn, position, framesLen_cons, framesLen_nil]
      omega
    · have same := after.supervisorOk supervisorOk
      cases pc : before.supervisor with
      | greeting | voting =>
          rw [pc] at same
          exact same
      | idle | exited => trivial
  · intro none
    cases none
  · intro id
    rw [sameHorizon]
    exact after.pcOk (Nat.le_refl _) (Nat.le_refl _) (ok.peers id)
  · intro id answer reply
    rw [sameHorizon]
    exact after.peerReplyOk (Nat.le_refl _) (ok.peerReplies id answer reply)
  · intro answer reply
    exact after.supervisorReplyOk (ok.supervisorReply answer reply)
  · intro logs q
    by_cases isP : q = p
    · subst isP
      rw [log, Consecutive.append]
      refine ⟨logs q, ?_, trivial⟩
      rw [position, sharedOk.head]
      omega
    · simpa [submitted, isP] using logs q

/-- A client notes what was covered, or asks for the horizon to move. -/
theorem advances_stepped (formed : Formed abs) (limits : limit ≤ limit')
    (ok : ProposerOk strict limit abs p before) (isClient : before.client = some shared)
    {moved : Shared} (advances : shared.Advances moved) (within : strict → moved.horizon ≤ limit') :
    Stepped strict limit' p abs abs { before with shared := some moved } := by
  obtain ⟨returned, isShared⟩ := Proposer.client_eq_some isClient
  obtain ⟨sharedOk, -⟩ := ok.shared shared isShared
  exact .quiet (ok.taskStep formed limits (.inr (.inl returned)) (sharedStep isShared rfl rfl rfl
    rfl rfl rfl rfl (sharedOk.advances advances within) advances.election advances.horizon_le
    advances.head))

/-- A client's wait moves on. -/
theorem waiters_stepped (formed : Formed abs) (ok : ProposerOk strict limit abs p before)
    (isClient : before.client = some shared) (waiters : List Waiter) {moved : Shared}
    (sharedOk : SharedOk strict limit abs p before.opening.truncateLsn shared →
      SharedOk strict limit abs p before.opening.truncateLsn moved)
    (election : moved.election = shared.election) (horizon : moved.horizon = shared.horizon)
    (log : moved.log = shared.log) :
    Stepped strict limit p abs abs { before with waiters := waiters, shared := some moved } := by
  obtain ⟨returned, isShared⟩ := Proposer.client_eq_some isClient
  exact .quiet (ok.taskStep formed (Nat.le_refl _) (.inr (.inl returned)) (sharedStep isShared rfl
    rfl rfl rfl rfl rfl rfl (sharedOk (ok.shared shared isShared).1) election
    (Nat.le_of_eq horizon.symm) (by rw [log])))

end Icegres.Quorum
