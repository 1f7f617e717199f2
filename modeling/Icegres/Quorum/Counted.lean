import Icegres.Quorum.Local

/-!
# What observers see of a step

A proposer's step moves the commit position only by counting two acks in its current term,
and only the last wait of `Quorum::open` makes it return. With the journal that `Sys.step`
writes this says what each new event means for the proposer that caused it.
-/

namespace Icegres.Quorum

namespace Proposer

/-- The commit position of the shared state is not past `old` or was counted. -/
def CountsFrom (old : Nat) (proposer : Proposer) : Prop :=
  ∀ shared, proposer.shared = some shared → shared.CountsFrom old

variable {old : Nat} {proposer : Proposer} {shared : Shared}

/-- The handshakes of `Quorum::open` count the last of them when they are done. -/
theorem countsFrom_electFrom (counts : shared.CountsFrom old) (todo : List AcceptorId) :
    (proposer.electFrom shared todo).CountsFrom old := by
  induction todo generalizing proposer shared with
  | nil =>
      rintro moved ⟨⟩
      exact counts.recomputeCommit
  | cons id rest ih =>
      simp only [electFrom]
      split
      · split
        · intro moved isNone
          cases isNone
        · split
          · exact ih (counts.setFailed id)
          · rintro moved ⟨⟩
            exact counts
      · exact ih counts

/-- A proposer that takes its term over has committed nothing. -/
theorem countsFrom_takeOver (counts : proposer.CountsFrom old) (opening : Opening) :
    (proposer.takeOver opening).CountsFrom old := by
  unfold takeOver
  split
  · split
    · exact counts
    · exact countsFrom_electFrom (.inl (Nat.zero_le old)) AcceptorId.all
  · exact counts

theorem countsFrom_resumeOpen (held : ∀ shared, proposer.shared = some shared →
    shared.commit ≤ old) (outcome : Outcome) : (proposer.resumeOpen outcome).CountsFrom old := by
  have counts : { proposer with openReply := none }.CountsFrom old :=
    fun shared isShared => .inl (held shared isShared)
  simp only [resumeOpen]
  split
  case h_11 =>
    split
    · split
      · rename_i shared isShared
        refine countsFrom_electFrom ?_ _
        cases stores : shared.storeAck _ proposer.opening.term _ with
        | none => exact .inl (held shared isShared)
        | some stored => exact .storeAck (held shared isShared) stores
      · exact counts
    · exact counts
  case h_13 =>
    split
    · rename_i shared isShared
      exact countsFrom_electFrom (.inl (held shared isShared)) _
    · exact counts
  case h_12 => exact counts
  case h_14 => exact counts
  all_goals exact countsFrom_takeOver counts _

/-- What a streaming task or the supervisor does to the commit position. -/
structure Drives (old : Nat) (before after : Proposer) : Prop where
  opening : after.opening = before.opening
  counts : after.CountsFrom old

section Tasks

variable (isShared : proposer.shared = some shared) (held : shared.commit ≤ old)

include isShared held

private theorem drives_kept {after : Proposer} (opening : after.opening = proposer.opening)
    (same : after.shared = proposer.shared) : proposer.Drives old after := by
  refine ⟨opening, fun moved isMoved => ?_⟩
  rw [same, isShared] at isMoved
  cases isMoved
  exact .inl held

omit isShared in
private theorem drives_moved {after : Proposer} {moved : Shared}
    (opening : after.opening = proposer.opening) (isMoved : after.shared = some moved)
    (commit : moved.commit = shared.commit) : proposer.Drives old after := by
  refine ⟨opening, fun other isOther => ?_⟩
  rw [isMoved] at isOther
  cases isOther
  exact .inl (commit ▸ held)

omit isShared held in
theorem Drives.of_streamed {after : Proposer} (step : proposer.Streamed after)
    (held : ∀ shared, proposer.shared = some shared → shared.commit ≤ old) :
    proposer.Drives old after := by
  refine ⟨step.opening, fun moved isMoved => ?_⟩
  obtain ⟨shared, isShared, -, counts⟩ := step.shared moved isMoved
  exact counts.imp_left fun below => below.trans (held shared isShared)

theorem drives_resumeSupervisor (outcome : Outcome) :
    proposer.Drives old (proposer.resumeSupervisor shared outcome) := by
  have moved := supervised isShared outcome
  generalize proposer.resumeSupervisor shared outcome = after at moved
  cases moved with
  | ignores | hears | counts => exact drives_kept isShared held rfl rfl
  | rests isMoved _ => rcases isMoved with rfl | ⟨why, rfl⟩ <;> exact drives_moved held rfl rfl rfl
  | adopts => exact drives_moved held rfl rfl rfl

omit isShared in
theorem drives_advanceSupervisor {after : Proposer}
    (advanced : proposer.advanceSupervisor shared = some after) : proposer.Drives old after := by
  simp only [advanceSupervisor] at advanced
  split at advanced
  · split at advanced
    · cases advanced
      exact drives_moved held rfl rfl rfl
    · split at advanced
      · cases advanced
        exact drives_moved held rfl rfl rfl
      · cases advanced
        exact drives_moved held rfl rfl rfl
  · cases advanced

end Tasks

/-- What a step of a proposer does to the commit position and to `Quorum::open`. -/
structure Steps (before after : Proposer) : Prop where
  counts : after.CountsFrom ((before.shared.map Shared.commit).getD 0)
  stays : before.opening.pc = .returned → after.opening.pc = .returned
  waits : ∀ stalled, before.opening.pc = .waiting stalled → after.opening.pc ≠ .returned

/-- A step that leaves `Quorum::open` alone. -/
theorem Steps.of_drives {before after : Proposer}
    (drives : before.Drives ((before.shared.map Shared.commit).getD 0) after) :
    before.Steps after := by
  refine ⟨drives.counts, fun returned => drives.opening ▸ returned, fun stalled waits => ?_⟩
  rw [drives.opening, waits]
  exact OpenPc.noConfusion

theorem held_getD (isShared : proposer.shared = some shared) :
    shared.commit ≤ (proposer.shared.map Shared.commit).getD 0 := by
  rw [isShared]
  exact Nat.le_refl _

theorem steps_resume (task : Task) (outcome : Outcome) :
    proposer.Steps (proposer.resume task outcome) := by
  have quiet : proposer.Drives ((proposer.shared.map Shared.commit).getD 0) proposer :=
    ⟨rfl, fun shared isShared => .inl (held_getD isShared)⟩
  unfold resume
  split
  · refine ⟨countsFrom_resumeOpen (fun shared isShared => held_getD isShared) outcome, ?_, ?_⟩
    · intro returned
      simp only [resumeOpen, returned]
    · intro stalled waits
      simp only [resumeOpen, waits]
      exact OpenPc.noConfusion
  · rename_i isShared
    exact .of_drives (.of_streamed (streamed_resumePeer isShared _ outcome) fun _ => held_getD)
  · rename_i isShared
    exact .of_drives (drives_resumeSupervisor isShared (held_getD isShared) outcome)
  · exact .of_drives quiet

/-- `Quorum::open` returns, or a step is none of it. -/
theorem steps_advance {task : Task} {after : Proposer}
    (advanced : proposer.advance task = some after) :
    proposer.Steps after ∨
      after = { proposer with opening := { proposer.opening with pc := .returned } } ∧
        task = .opener ∧ ∃ stalled, proposer.opening.pc = .waiting stalled := by
  unfold advance at advanced
  split at advanced
  · rename_i shared isShared
    unfold advanceOpen at advanced
    split at advanced
    · rename_i stalled waits
      split at advanced
      · cases advanced
        refine .inl ⟨fun moved isMoved => .inl (held_getD isMoved), fun returned => ?_, ?_⟩
        · rw [waits] at returned
          cases returned
        · exact fun _ _ => OpenPc.noConfusion
      · split at advanced
        · cases advanced
          exact .inr ⟨rfl, rfl, stalled, waits⟩
        · cases advanced
    · cases advanced
  · rename_i isShared
    exact .inl (.of_drives (.of_streamed (streamed_advancePeer isShared advanced) fun _ =>
      held_getD))
  · rename_i isShared
    exact .inl (.of_drives (drives_advanceSupervisor (held_getD isShared) advanced))
  · cases advanced

/-- A client's step keeps the commit position. -/
theorem steps_served {after : Proposer} (served : Served proposer after) :
    proposer.Steps after := by
  cases served with
  | intro isShared _ commit waits =>
      refine ⟨?_, fun returned => ?_, fun stalled waiting => ?_⟩
      · rintro other ⟨⟩
        exact .inl (commit ▸ held_getD isShared)
      · rcases waits with rfl | ⟨⟨stalled, waiting⟩, -⟩
        · exact returned
        · rw [waiting] at returned
          cases returned
      · rcases waits with rfl | ⟨-, ⟨again, rfl⟩ | ⟨why, rfl⟩⟩
        · exact fun returned => by simp [Proposer.served, waiting] at returned
        · exact OpenPc.noConfusion
        · exact OpenPc.noConfusion

end Proposer

section Observed

variable {id : ProposerId} {before after : Proposer}

/-- What observers see when `Quorum::open` returns. -/
def returning (id : ProposerId) (before after : Proposer) : List Event :=
  match before.opening.pc, after.opening.pc with
  | .waiting _, .returned => [.opened id after.opening.term after.opening.recovered]
  | _, _ => []

/-- It returns from its last wait. -/
theorem mem_returning {event : Event} (mem : event ∈ returning id before after) :
    (∃ stalled, before.opening.pc = .waiting stalled) ∧ after.opening.pc = .returned ∧
      event = .opened id after.opening.term after.opening.recovered := by
  unfold returning at mem
  split at mem
  · rename_i stalled waits returned
    exact ⟨⟨stalled, waits⟩, returned, List.mem_singleton.mp mem⟩
  · cases mem

/-- What observers see of a proposer's own step. -/
theorem mem_observed {event : Event} (mem : event ∈ observed id before after) :
    (∃ shared, after.shared = some shared ∧
      (before.shared.map Shared.commit).getD 0 < shared.commit ∧
      event = .committed id shared.election.term shared.commit
        (AcceptorId.all.filter fun acceptor =>
          (shared.peers.get acceptor).flush ≥ shared.commit)) ∨
      (∃ horizon, event = .advanced id horizon) ∨ (∃ term, event = .reelected id term) ∨
      (∃ stalled, before.opening.pc = .waiting stalled) ∧ after.opening.pc = .returned ∧
        event = .opened id after.opening.term after.opening.recovered := by
  cases isShared : after.shared with
  | none =>
      simp only [observed, isShared] at mem
      exact .inr (.inr (.inr (mem_returning mem)))
  | some shared =>
      simp only [observed, isShared, List.mem_append] at mem
      rcases mem with ((committed | advanced) | reelected) | opened
      · split at committed
        · rename_i moves
          exact .inl ⟨shared, rfl, moves, List.mem_singleton.mp committed⟩
        · cases committed
      · split at advanced
        · exact .inr (.inl ⟨_, List.mem_singleton.mp advanced⟩)
        · cases advanced
      · split at reelected
        · exact .inr (.inr (.inl ⟨_, List.mem_singleton.mp reelected⟩))
        · cases reelected
      · exact .inr (.inr (.inr (mem_returning opened)))

/-- A commit position that moved is seen. -/
theorem committed_mem_observed (id : ProposerId) {shared : Shared} (isShared : after.shared = some shared)
    (moves : (before.shared.map Shared.commit).getD 0 < shared.commit) :
    .committed id shared.election.term shared.commit
      (AcceptorId.all.filter fun acceptor =>
        (shared.peers.get acceptor).flush ≥ shared.commit) ∈ observed id before after := by
  simp only [observed, isShared, List.mem_append]
  rw [if_pos moves]
  exact .inl (.inl (.inl (List.mem_singleton_self _)))

end Observed

/-- No proposer moved its shared state or `Quorum::open`. -/
structure Sys.Silent (sys after : Sys) : Prop where
  journal : ∃ more, after.journal = sys.journal ++ more ∧
    ∀ event ∈ more, ∃ p id term, event = .granted p id term
  opening : ∀ (p : ProposerId) (proposer : Proposer), sys.proposers[p]? = some proposer →
    ∃ kept, after.proposers[p]? = some kept ∧ kept.opening = proposer.opening
  shared : ∀ (p : ProposerId) (proposer : Proposer) (shared : Shared),
    after.proposers[p]? = some proposer → proposer.shared = some shared →
    ∃ before, sys.proposers[p]? = some before ∧ before.shared = some shared

/-- One proposer moved. -/
structure Sys.Stepped (sys after : Sys) (p : ProposerId) (before moved : Proposer) : Prop where
  isBefore : sys.proposers[p]? = some before
  proposers : after.proposers = sys.proposers.set p moved
  journal : ∃ more, after.journal = sys.journal ++ (observed p before moved ++ more) ∧
    Called p moved more

/-- The last wait of `Quorum::open` ends. -/
def Sys.Returns (sys : Sys) (action : Action) (p : ProposerId) (before moved : Proposer) : Prop :=
  action = .advance p .opener ∧ sys.live p = some before ∧
    moved = { before with opening := { before.opening with pc := .returned } } ∧
    ∃ stalled, before.opening.pc = .waiting stalled

namespace Sys

variable {sys after : Sys} {p : ProposerId} {before moved : Proposer}

/-- A proposer's step is in the journal. -/
private theorem stepped_update {middle : Sys} (proposers : middle.proposers = sys.proposers)
    (journal : middle.journal = sys.journal) (isBefore : sys.proposers[p]? = some before) :
    sys.Stepped (middle.update p before moved) p before moved :=
  ⟨isBefore, by simp [update, proposers], [], by simp [update, journal], .nothing⟩

/-- A message changes no proposer. -/
private theorem silent_handle (source : ProposerId) (target : AcceptorId) (message : Message)
    (strays : List Stray) : sys.Silent
      { acceptors := sys.acceptors.set target ((sys.acceptors.get target).process message).1
        proposers := sys.proposers
        strays := strays
        journal := sys.journal ++
          grants source target ((sys.acceptors.get target).process message).2 } := by
  refine ⟨⟨_, rfl, ?_⟩, fun p proposer isProposer => ⟨proposer, isProposer, rfl⟩,
    fun p proposer shared isProposer isShared => ⟨proposer, isProposer, isShared⟩⟩
  intro event mem
  unfold grants at mem
  split at mem
  · split at mem
    · exact ⟨source, target, _, List.mem_singleton.mp mem⟩
    · cases mem
  · cases mem

/-- A proposer is replaced by one with the same shared state and the same `Quorum::open`. -/
private theorem Silent.set {middle : Sys} (silent : sys.Silent middle)
    (isBefore : middle.proposers[p]? = some before) (opening : moved.opening = before.opening)
    (shared : moved.shared = before.shared) (strays : List Stray) :
    sys.Silent { middle with proposers := middle.proposers.set p moved, strays := strays } := by
  have bounded := (List.getElem?_eq_some_iff.mp isBefore).1
  refine ⟨silent.journal, fun q proposer isProposer => ?_, fun q proposer seen isProposer isShared => ?_⟩
  · obtain ⟨kept, isKept, same⟩ := silent.opening q proposer isProposer
    simp only [List.getElem?_set]
    split
    · rename_i isP
      subst isP
      rw [isBefore] at isKept
      cases isKept
      exact ⟨moved, by simp, opening.trans same⟩
    · exact ⟨kept, isKept, same⟩
  · simp only [List.getElem?_set] at isProposer
    split at isProposer
    · rename_i isP
      subst isP
      obtain rfl : moved = proposer := by simpa [bounded] using isProposer
      exact silent.shared p before seen isBefore (shared ▸ isShared)
    · exact silent.shared q proposer seen isProposer isShared

/-- A process enters `Quorum::open`. -/
private theorem silent_spawn (minted : String) (chunk : Nat) :
    sys.Silent { sys with proposers := sys.proposers ++ [Proposer.start minted chunk] } := by
  refine ⟨⟨[], by simp, by simp⟩, fun q proposer isProposer => ?_,
    fun q proposer seen isProposer isShared => ?_⟩
  · have bounded := (List.getElem?_eq_some_iff.mp isProposer).1
    exact ⟨proposer, by rw [List.getElem?_append_left bounded]; exact isProposer, rfl⟩
  · rcases List.mem_append.mp (List.mem_of_getElem? isProposer) with - | new
    · rw [List.getElem?_append] at isProposer
      split at isProposer
      · exact ⟨proposer, isProposer, isShared⟩
      · cases List.mem_singleton.mp (List.mem_of_getElem? isProposer)
        cases isShared
    · cases List.mem_singleton.mp new
      cases isShared

/-- Who moved in a step, and what observers saw of it. -/
theorem step_seen {action : Action} (taken : sys.step action = some after) :
    sys.Silent after ∨ ∃ p before moved, sys.Stepped after p before moved ∧
      (before.Steps moved ∨ sys.Returns action p before moved) := by
  have silent : sys.Silent sys := ⟨⟨[], by simp, by simp⟩,
    fun p proposer isProposer => ⟨proposer, isProposer, rfl⟩,
    fun p proposer shared isProposer isShared => ⟨proposer, isProposer, isShared⟩⟩
  cases action with
  | spawn minted chunk =>
      cases taken
      exact .inl (silent_spawn minted chunk)
  | crash id =>
      simp only [step, Option.bind_eq_bind, Option.bind_eq_some_iff] at taken
      obtain ⟨proposer, isLive, same⟩ := taken
      cases same
      refine .inl (silent.set (live_eq_some isLive) ?_ ?_ _) <;> rfl
  | restart id =>
      cases taken
      exact .inl ⟨silent.journal, silent.opening, silent.shared⟩
  | deliver id task =>
      simp only [step, Option.bind_eq_bind, Option.bind_eq_some_iff] at taken
      obtain ⟨proposer, isLive, ⟨target, message⟩, pending, delivered⟩ := taken
      split at delivered
      · cases delivered
      · simp only [handle_eq] at delivered
        cases delivered
        refine .inl ((silent_handle id target message sys.strays).set (live_eq_some isLive) ?_ ?_ _)
        · cases task <;> rfl
        · cases task <;> rfl
  | deliverCrash id task point =>
      simp only [step, Option.bind_eq_bind, Option.bind_eq_some_iff] at taken
      obtain ⟨proposer, isLive, ⟨target, message⟩, pending, delivered⟩ := taken
      split at delivered
      · cases delivered
      · simp only [Option.bind_eq_some_iff] at delivered
        obtain ⟨acceptor, crashed, same⟩ := delivered
        cases same
        exact .inr ⟨id, proposer, _, stepped_update rfl rfl (live_eq_some isLive),
          .inl (Proposer.steps_resume task .broken)⟩
  | receive id task =>
      simp only [step, Option.bind_eq_bind, Option.bind_eq_some_iff] at taken
      obtain ⟨proposer, isLive, answer, reply, same⟩ := taken
      cases same
      exact .inr ⟨id, proposer, _, stepped_update rfl rfl (live_eq_some isLive),
        .inl (Proposer.steps_resume task _)⟩
  | giveUp id task timedOut =>
      simp only [step, Option.bind_eq_bind, Option.bind_eq_some_iff] at taken
      obtain ⟨proposer, isLive, ⟨target, message⟩, pending, same⟩ := taken
      cases same
      exact .inr ⟨id, proposer, _, stepped_update rfl rfl (live_eq_some isLive),
        .inl (Proposer.steps_resume task _)⟩
  | deliverStray index =>
      simp only [step, Option.bind_eq_bind, Option.bind_eq_some_iff] at taken
      obtain ⟨stray, isStray, same⟩ := taken
      simp only [handle_eq] at same
      cases same
      exact .inl (silent_handle stray.source stray.target stray.message _)
  | strayCrash index point =>
      simp only [step, Option.bind_eq_bind, Option.bind_eq_some_iff] at taken
      obtain ⟨stray, isStray, acceptor, crashed, same⟩ := taken
      cases same
      exact .inl ⟨silent.journal, silent.opening, silent.shared⟩
  | advance id task =>
      simp only [step, Option.bind_eq_bind, Option.bind_eq_some_iff] at taken
      obtain ⟨proposer, isLive, moved, advanced, same⟩ := taken
      cases same
      refine .inr ⟨id, proposer, moved, stepped_update rfl rfl (live_eq_some isLive), ?_⟩
      rcases Proposer.steps_advance advanced with steps | ⟨isMoved, rfl, waits⟩
      · exact .inl steps
      · exact .inr ⟨rfl, isLive, isMoved, waits⟩
  | _ =>
      obtain ⟨before, moved, more, isLive, served, called, rfl⟩ := step_client rfl taken
      exact .inr ⟨_, before, moved, ⟨live_eq_some isLive, rfl, more, rfl, called⟩,
        .inl (Proposer.steps_served served)⟩

end Sys

end Icegres.Quorum
