import Icegres.Quorum.Clients
import Icegres.Quorum.Deliver

/-!
# Every action is a few protocol steps

The step lemma of the simulation, one case for each action, and the run lemma it gives.
-/

namespace Icegres.Quorum

open Icegres.TermLog

variable {strict backed : Prop} {limit : Nat} {abs : Protocol} {p : ProposerId}

namespace ProposerOk

variable {proposer : Proposer} (ok : ProposerOk strict limit abs p proposer)

include ok

/-- A streaming task that waits or has an answer exists. -/
theorem past_of_peer {id : AcceptorId}
    (busy : (proposer.pending (.peer id)).isSome ∨ (proposer.reply (.peer id)).isSome) :
    proposer.PastHandshakes := by
  refine ok.opening.running fun taskless => ?_
  have exited := taskless.1 id
  rcases busy with waits | answered
  · simp only [Proposer.pending, exited, PeerPc.pending] at waits
    cases shared : proposer.shared <;> simp [shared] at waits
  · obtain ⟨answer, reply⟩ := Option.isSome_iff_exists.mp answered
    have replyOk := ok.peerReplies id answer reply
    rw [exited] at replyOk
    exact replyOk

/-- So does a supervisor. -/
theorem past_of_supervisor
    (busy : (proposer.pending .supervisor).isSome ∨ (proposer.reply .supervisor).isSome) :
    proposer.PastHandshakes := by
  refine ok.opening.running fun taskless => ?_
  have exited := taskless.2
  rcases busy with waits | answered
  · simp only [Proposer.pending, exited, SupervisorPc.pending] at waits
    cases shared : proposer.shared <;> simp [shared] at waits
  · obtain ⟨answer, reply⟩ := Option.isSome_iff_exists.mp answered
    have replyOk := ok.supervisorReply answer reply
    rw [exited] at replyOk
    exact replyOk

variable (formed : Formed abs) (logs : ∀ q, Consecutive 0 (abs.log q))

include formed logs

/-- A task continues with the outcome of its request. -/
theorem resume_stepped {task : Task} {outcome : Outcome}
    (busy : (proposer.pending task).isSome ∨ (proposer.reply task).isSome)
    (replied : ∀ message, outcome = .response message → proposer.reply task = some message)
    (above : task = .supervisor → strict → proposer.reelectsAbove outcome = true) :
    ∃ next, Stepped strict limit p abs next (proposer.resume task outcome) := by
  cases task with
  | opener =>
      have resumed := resumeOpen_stepped formed logs ok replied
      unfold Proposer.resume
      cases proposer.shared <;> exact resumed
  | peer id =>
      unfold Proposer.resume
      cases isShared : proposer.shared with
      | none => exact ⟨abs, .quiet ok⟩
      | some shared =>
          have answered : ∀ message, outcome = .response message →
              PeerReplyOk abs p id proposer.horizon (proposer.peers.get id) message :=
            fun message isMessage => ok.peerReplies id message (replied message isMessage)
          obtain ⟨moved, step⟩ := resumePeer_taskStep ok isShared answered
          exact ⟨abs, .quiet (ok.taskStep formed (Nat.le_refl _) (ok.past_of_peer busy) step)⟩
  | supervisor =>
      unfold Proposer.resume
      cases isShared : proposer.shared with
      | none => exact ⟨abs, .quiet ok⟩
      | some shared =>
          exact resumeSupervisor_stepped formed ok isShared (ok.past_of_supervisor busy) replied
            (above rfl)

/-- A task takes a step that needs no answer. -/
theorem advance_stepped {task : Task} {after : Proposer}
    (advanced : proposer.advance task = some after) :
    ∃ next, Stepped strict limit p abs next after := by
  unfold Proposer.advance at advanced
  split at advanced
  · exact ⟨abs, .quiet (ok.advanceOpen advanced)⟩
  · rename_i id shared isShared
    obtain ⟨moved, step⟩ := advancePeer_taskStep ok isShared formed (logs p) advanced
    refine ⟨abs, .quiet (ok.taskStep formed (Nat.le_refl _) (ok.opening.running ?_) step)⟩
    intro taskless
    simp only [Proposer.advancePeer, taskless.1 id] at advanced
    cases advanced
  · rename_i shared isShared
    refine advanceSupervisor_stepped formed ok isShared (ok.opening.running ?_) advanced
    intro taskless
    simp only [Proposer.advanceSupervisor, taskless.2] at advanced
    cases advanced
  · cases advanced

end ProposerOk

/-- A process that enters `Quorum::open`. -/
theorem proposerOk_start (unowned : abs.current p = 0) (minted : String) (chunk : Nat) :
    ProposerOk strict limit abs p (Proposer.start minted chunk) := by
  have exited : ∀ id, (Proposer.start minted chunk).peers.get id = .exited := by
    intro id
    cases id <;> rfl
  refine ⟨⟨⟨unowned, rfl, exited, rfl⟩, ?_⟩, ?_, ?_, fun _ => ⟨exited, rfl⟩, ?_, ?_, ?_⟩
  · intro id
    cases id <;> rfl
  · intro answer reply
    cases reply
  · intro shared isShared
    cases isShared
  · intro id
    rw [exited id]
    trivial
  · intro id answer reply
    cases id <;> cases reply
  · intro answer reply
    cases reply

/-- An answer from the wire is the response it is taken for. -/
theorem Outcome.ofMessage_response {answer message : Message}
    (response : Outcome.ofMessage answer = .response message) : answer = message := by
  cases answer <;> simp_all [Outcome.ofMessage]

/-- Only elected messages and appends can fail inside their handler. -/
theorem not_crashDuring_supervisor {acceptor next : Acceptor} {proposer : Proposer}
    {target : AcceptorId} {message : Message} {point : Acceptor.CrashPoint}
    (pending : proposer.pending .supervisor = some (target, message))
    (crashed : acceptor.crashDuring message point = some next) : False := by
  simp only [Proposer.pending, Option.bind_eq_some_iff, SupervisorPc.pending] at pending
  obtain ⟨shared, isShared, isPending⟩ := pending
  split at isPending <;> cases isPending <;> simp [Acceptor.crashDuring] at crashed

namespace Sim

variable {sys after : Sys} (sim : Sim strict backed sys abs)

include sim

/-- A proposer that dies leaves its requests behind. -/
private theorem crash {proposer : Proposer} (isProposer : sys.proposers[p]? = some proposer) :
    Simulates strict backed abs
      { sys with
        proposers := sys.proposers.set p { proposer with alive := false }
        strays := sys.strays ++ Sys.abandoned p proposer } := by
  have ok := sim.proposers p proposer isProposer
  have dead : ProposerOk strict (announced sys.journal) abs p { proposer with alive := false } :=
    ⟨ok.opening, ok.openReply, ok.shared, ok.taskless, ok.peers, ok.peerReplies,
      ok.supervisorReply⟩
  obtain ⟨next, steps, simulates⟩ := sim.update isProposer ⟨abs, .quiet dead⟩ []
  simp only [List.append_nil] at simulates
  refine ⟨next, steps, simulates.withStrays fun stray mem => ?_⟩
  rcases List.mem_append.mp mem with old | left
  · exact .inl old
  · right
    simp only [Sys.abandoned, List.mem_filterMap] at left
    obtain ⟨task, -, isLeft⟩ := left
    split at isLeft
    · rename_i target message unanswered pending
      cases isLeft
      have grown := (WellFormed.steps Record.frameLen_pos sim.formed steps)
      exact After.inFlight ⟨sim.formed, grown.1, grown.2⟩ (Nat.le_refl _) (ok.inFlight pending)
    · cases isLeft

/-- An acceptor handles a request nobody waits for. -/
private theorem deliverStray {index : Nat} {stray : Stray}
    (isStray : sys.strays[index]? = some stray)
    (allowed : backed → ¬ (sys.acceptors.get stray.target).Unbacked stray.message) :
    Simulates strict backed abs
      { sys with
        acceptors := sys.acceptors.set stray.target
          ((sys.acceptors.get stray.target).process stray.message).1
        strays := sys.strays.eraseIdx index
        journal := sys.journal ++ grants stray.source stray.target
          ((sys.acceptors.get stray.target).process stray.message).2 } := by
  have inFlight := sim.strays stray (List.mem_of_getElem? isStray)
  -- nobody counts the answer, so any bound will do
  obtain ⟨bound, joins⟩ : ∃ bound, ∀ term start history,
      stray.message = .elected term start history → abs.adopted stray.target = 0 →
      start ≤ bound := by
    by_cases elects : ∃ term start history, stray.message = .elected term start history
    · obtain ⟨term, bound, history, isElected⟩ := elects
      refine ⟨bound, fun _ start _ isOther _ => ?_⟩
      cases isElected.symm.trans isOther
      exact Nat.le_refl _
    · exact ⟨0, fun term start history isElected _ =>
        (elects ⟨term, start, history, isElected⟩).elim⟩
  obtain ⟨next, handled, -⟩ :=
    (sim.acceptors stray.target).process sim.formed inFlight.valid joins
  have moved := sim.request inFlight allowed handled
  refine ⟨next, handled.moves.steps, (moved.withStrays ?_).observe _⟩
  exact fun other mem => .inl (List.mem_of_mem_eraseIdx mem)

/-- An acceptor fails while it handles a request. -/
private theorem crashDuring {source : ProposerId} {target : AcceptorId} {message : Message}
    {point : Acceptor.CrashPoint} {left : Acceptor}
    (inFlight : InFlight strict (announced sys.journal) abs source target message)
    (allowed : backed → ¬ (sys.acceptors.get target).Unbacked message)
    (crashed : (sys.acceptors.get target).crashDuring message point = some left) :
    Simulates strict backed abs { sys with acceptors := sys.acceptors.set target left } := by
  obtain ⟨next, handled⟩ := (sim.acceptors target).crashDuring sim.formed inFlight.valid crashed
  exact ⟨next, handled.moves.steps, sim.request inFlight allowed handled⟩

/-- A task continues, and observers see what it did. -/
private theorem resume {proposer : Proposer} (isProposer : sys.proposers[p]? = some proposer)
    {task : Task} (outcome : Outcome)
    (busy : (proposer.pending task).isSome ∨ (proposer.reply task).isSome)
    (replied : ∀ message, outcome = .response message → proposer.reply task = some message)
    (above : task = .supervisor → strict → proposer.reelectsAbove outcome = true) :
    Simulates strict backed abs (sys.update p proposer (proposer.resume task outcome)) :=
  sim.update isProposer ((sim.proposers p proposer isProposer).resume_stepped sim.formed sim.logs
    busy replied above) _

/-- A client moves the horizon, which is announced. -/
private theorem advances {proposer : Proposer} (isProposer : sys.proposers[p]? = some proposer)
    {shared moved : Shared} (isClient : proposer.client = some shared)
    (moves : Consecutive shared.log.base shared.log.records → shared.Advances moved) :
    Simulates strict backed abs
      (sys.update p proposer { proposer with shared := some moved }) := by
  have formed := sim.formed
  have ok := sim.proposers p proposer isProposer
  obtain ⟨returned, isShared⟩ := Proposer.client_eq_some isClient
  obtain ⟨sharedOk, -⟩ := ok.shared shared isShared
  have advances := moves (sharedOk.consecutive (sim.logs p))
  refine ⟨abs, .refl, sim.own isProposer ?_⟩
  rw [announced_append]
  refine advances_stepped formed (Nat.le_max_left _ _) ok isClient advances fun isStrict => ?_
  -- the horizon stays, or observers see it move
  by_cases moves : shared.horizon < moved.horizon
  · refine (le_announced (p := p) ?_).trans (Nat.le_max_right _ _)
    simp [observed, isShared, moves]
  · have := advances.horizon_le
    have := sharedOk.within isStrict
    omega

/-- Every action is a few protocol steps. -/
theorem step {action : Action} (taken : sys.step action = some after)
    (readsFenced : sys.recoveryFenced action = true)
    (above : strict → sys.reelectsAbove action = true) (allowed : backed → sys.Backed action) :
    Simulates strict backed abs after := by
  have formed := sim.formed
  cases action with
  | spawn minted chunk =>
      cases taken
      refine ⟨abs, .refl, sim.run, sim.acceptors, sim.horizons, sim.ceil, sim.noCeil, sim.ordered,
        sim.logs, ?_, ?_, sim.strays⟩
      · intro p proposer isProposer
        rw [List.getElem?_append] at isProposer
        split at isProposer
        · exact sim.proposers p proposer isProposer
        · rename_i late
          have isNew : p = sys.proposers.length := by
            have first := (List.getElem?_eq_some_iff.mp isProposer).1
            rw [List.length_singleton, Nat.lt_one_iff] at first
            exact Nat.le_antisymm (Nat.le_of_sub_eq_zero first) (Nat.le_of_not_lt late)
          subst isNew
          simp only [Nat.sub_self, List.getElem?_cons_zero, Option.some.injEq] at isProposer
          subst isProposer
          exact proposerOk_start (sim.unborn _ (Nat.le_refl _)) minted chunk
      · intro p late
        rw [List.length_append] at late
        exact sim.unborn p (by omega)
  | crash id =>
      simp only [Sys.step, Option.bind_eq_bind, Option.bind_eq_some_iff] at taken
      obtain ⟨proposer, isLive, same⟩ := taken
      cases same
      exact sim.crash (Sys.live_eq_some isLive)
  | restart id =>
      cases taken
      obtain ⟨next, moves, follows, ceil, horizon⟩ := (sim.acceptors id).restart
      refine ⟨next, moves.steps, sim.acceptor moves follows ?_ ?_ ?_⟩
      · exact fun isStrict => horizon.trans (sim.horizons isStrict id)
      · exact fun isStrict => ceil ▸ sim.ceil isStrict
      · exact fun isBacked => ceil.trans (sim.noCeil isBacked)
  | deliver id task =>
      simp only [Sys.step, Option.bind_eq_bind, Option.bind_eq_some_iff] at taken
      obtain ⟨proposer, isLive, ⟨target, message⟩, pending, delivered⟩ := taken
      split at delivered
      · cases delivered
      · simp only [Sys.handle_eq] at delivered
        cases delivered
        refine sim.deliver (Sys.live_eq_some isLive) pending ?_ ?_
        · rintro rfl reading
          simp only [Sys.recoveryFenced, isLive, reading, Bool.and_eq_true, decide_eq_true_eq,
            Bool.or_eq_true, List.any_eq_true] at readsFenced
          refine ⟨readsFenced.1, fun first => ?_⟩
          rcases readsFenced.2 with moved | found
          · exact absurd first moved
          · exact found
        · intro isBacked
          exact allowed isBacked (id, target, message) (by simp [Sys.handled, isLive, pending])
  | deliverCrash id task point =>
      simp only [Sys.step, Option.bind_eq_bind, Option.bind_eq_some_iff] at taken
      obtain ⟨proposer, isLive, ⟨target, message⟩, pending, delivered⟩ := taken
      split at delivered
      · cases delivered
      · simp only [Option.bind_eq_some_iff] at delivered
        obtain ⟨acceptor, crashed, same⟩ := delivered
        cases same
        have isProposer := Sys.live_eq_some isLive
        have inFlight := (sim.proposers id proposer isProposer).inFlight pending
        obtain ⟨middle, front, moved⟩ := sim.crashDuring inFlight (fun isBacked =>
          allowed isBacked (id, target, message) (by simp [Sys.handled, isLive, pending])) crashed
        obtain ⟨next, rest, simulates⟩ := moved.resume isProposer .broken
          (.inl (by rw [pending]; rfl)) (fun _ isResponse => by cases isResponse) (by
            rintro rfl
            exact (not_crashDuring_supervisor pending crashed).elim)
        exact ⟨next, front.trans rest, simulates⟩
  | receive id task =>
      simp only [Sys.step, Option.bind_eq_bind, Option.bind_eq_some_iff] at taken
      obtain ⟨proposer, isLive, answer, reply, same⟩ := taken
      cases same
      refine sim.resume (Sys.live_eq_some isLive) _ (.inr (by rw [reply]; rfl)) ?_ ?_
      · intro message isResponse
        rw [reply, Outcome.ofMessage_response isResponse]
      · rintro rfl isStrict
        have starts := above isStrict
        have reply : proposer.supervisorReply = some answer := reply
        simpa only [Sys.reelectsAbove, isLive, reply] using starts
  | giveUp id task timedOut =>
      simp only [Sys.step, Option.bind_eq_bind, Option.bind_eq_some_iff] at taken
      obtain ⟨proposer, isLive, ⟨target, message⟩, pending, same⟩ := taken
      cases same
      have isProposer := Sys.live_eq_some isLive
      have inFlight := (sim.proposers id proposer isProposer).inFlight pending
      have strayed (strays : List Stray) (own : ∀ stray ∈ strays, stray = ⟨id, target, message⟩) :
          Sim strict backed { sys with strays := sys.strays ++ strays } abs := by
        refine sim.withStrays fun stray mem => ?_
        rcases List.mem_append.mp mem with old | new
        · exact .inl old
        · rw [own stray new]
          exact .inr inFlight
      refine (strayed _ ?_).resume isProposer _ (.inl (by rw [pending]; rfl)) ?_ ?_
      · intro stray new
        split at new
        · simp at new
        · exact List.mem_singleton.mp new
      · intro response isResponse
        cases timedOut <;> cases isResponse
      · rintro rfl isStrict
        have starts := above isStrict
        simp only [Sys.reelectsAbove, isLive] at starts
        cases timedOut <;> exact starts
  | deliverStray index =>
      simp only [Sys.step, Option.bind_eq_bind, Option.bind_eq_some_iff] at taken
      obtain ⟨stray, isStray, same⟩ := taken
      simp only [Sys.handle_eq] at same
      cases same
      exact sim.deliverStray isStray fun isBacked =>
        allowed isBacked (stray.source, stray.target, stray.message)
          (by simp [Sys.handled, isStray])
  | strayCrash index point =>
      simp only [Sys.step, Option.bind_eq_bind, Option.bind_eq_some_iff] at taken
      obtain ⟨stray, isStray, acceptor, crashed, same⟩ := taken
      cases same
      obtain ⟨next, steps, moved⟩ := sim.crashDuring
        (sim.strays stray (List.mem_of_getElem? isStray)) (fun isBacked =>
          allowed isBacked (stray.source, stray.target, stray.message)
            (by simp [Sys.handled, isStray])) crashed
      exact ⟨next, steps, moved.withStrays fun other mem => .inl (List.mem_of_mem_eraseIdx mem)⟩
  | advance id task =>
      simp only [Sys.step, Option.bind_eq_bind, Option.bind_eq_some_iff] at taken
      obtain ⟨proposer, isLive, advanced, isAdvanced, same⟩ := taken
      cases same
      have isProposer := Sys.live_eq_some isLive
      exact sim.update isProposer ((sim.proposers id proposer isProposer).advance_stepped formed
        sim.logs isAdvanced) _
  | openStall id =>
      simp only [Sys.step, Option.bind_eq_bind, Option.bind_eq_some_iff] at taken
      obtain ⟨proposer, isLive, shared, isShared, stalled⟩ := taken
      have isProposer := Sys.live_eq_some isLive
      have ok := sim.proposers id proposer isProposer
      split at stalled
      · rename_i waits
        cases stalled
        exact sim.update isProposer ⟨abs, .quiet (ok.stallFirst formed isShared waits _)⟩ _
      · rename_i waits
        cases stalled
        exact sim.update isProposer ⟨abs, .quiet (ok.stallSecond formed isShared waits _)⟩ _
      · cases stalled
  | submit id kind tableKey seq body =>
      simp only [Sys.step, Option.bind_eq_bind, Option.bind_eq_some_iff] at taken
      obtain ⟨proposer, isLive, shared, isClient, submits⟩ := taken
      have isProposer := Sys.live_eq_some isLive
      split at submits
      · cases submits
      · rename_i moved record entered
        cases submits
        obtain ⟨isMoved, position⟩ := Shared.submit_spec entered
        obtain ⟨next, steps, simulates⟩ := sim.update isProposer
          ⟨_, submit_stepped formed (sim.proposers id proposer isProposer) isClient isMoved
            position⟩ (observed id proposer { proposer with shared := some moved })
        exact ⟨next, steps, simulates.observe _⟩
  | waitCommit id position =>
      simp only [Sys.step, Option.bind_eq_bind, Option.bind_eq_some_iff] at taken
      obtain ⟨proposer, isLive, shared, isClient, same⟩ := taken
      cases same
      have isProposer := Sys.live_eq_some isLive
      have ok := sim.proposers id proposer isProposer
      have waits := waiters_stepped formed ok isClient (proposer.waiters ++ [⟨position, false⟩])
        (fun sharedOk => sharedOk) rfl rfl rfl
      rw [← (Proposer.client_eq_some isClient).2] at waits
      exact sim.update isProposer ⟨_, waits⟩ _
  | waiterCheck id index =>
      simp only [Sys.step, Option.bind_eq_bind, Option.bind_eq_some_iff] at taken
      obtain ⟨proposer, isLive, shared, isClient, waiter, -, checked⟩ := taken
      have isProposer := Sys.live_eq_some isLive
      have ok := sim.proposers id proposer isProposer
      have waits := waiters_stepped formed ok isClient (proposer.waiters.eraseIdx index)
        (fun sharedOk => sharedOk) rfl rfl rfl
      rw [← (Proposer.client_eq_some isClient).2] at waits
      obtain ⟨next, steps, simulates⟩ := sim.update isProposer ⟨_, waits⟩
        (observed id proposer { proposer with waiters := proposer.waiters.eraseIdx index })
      split at checked
      · cases checked
        exact ⟨next, steps, simulates⟩
      · split at checked
        · cases checked
          exact ⟨next, steps, simulates.observe _⟩
        · cases checked
  | waiterStall id index =>
      simp only [Sys.step, Option.bind_eq_bind, Option.bind_eq_some_iff] at taken
      obtain ⟨proposer, isLive, shared, isClient, waiter, -, stalled⟩ := taken
      have isProposer := Sys.live_eq_some isLive
      have ok := sim.proposers id proposer isProposer
      split at stalled <;> cases stalled
      · exact sim.update isProposer ⟨_, waiters_stepped formed ok isClient _
          (fun sharedOk => sharedOk.poisonWith _) rfl rfl rfl⟩ _
      · exact sim.update isProposer ⟨_, waiters_stepped formed ok isClient _
          (fun sharedOk => sharedOk.request _) rfl rfl rfl⟩ _
  | noteCovered id tableKey uptoSeq =>
      simp only [Sys.step, Option.bind_eq_bind, Option.bind_eq_some_iff] at taken
      obtain ⟨proposer, isLive, shared, isClient, same⟩ := taken
      cases same
      exact sim.advances (Sys.live_eq_some isLive) isClient fun consecutive =>
        Shared.advances_noteCovered shared consecutive tableKey uptoSeq
  | nudgeHorizon id =>
      simp only [Sys.step, Option.bind_eq_bind, Option.bind_eq_some_iff] at taken
      obtain ⟨proposer, isLive, shared, isClient, same⟩ := taken
      cases same
      exact sim.advances (Sys.live_eq_some isLive) isClient fun consecutive =>
        Shared.advances_advanceHorizon shared consecutive

/-- So is every run whose actions meet the conditions. -/
theorem run_of {Allowed : Sys → Action → Prop}
    (readsFenced : ∀ sys action, Allowed sys action → sys.recoveryFenced action = true)
    (above : strict → ∀ sys action, Allowed sys action → sys.reelectsAbove action = true)
    (allowed : backed → ∀ sys action, Allowed sys action → sys.Backed action)
    (run : Run Sys.step Allowed sys after) : Simulates strict backed abs after := by
  induction run with
  | refl => exact ⟨abs, .refl, sim⟩
  | step _ isAllowed taken ih =>
      obtain ⟨middle, front, middleSim⟩ := ih
      obtain ⟨next, rest, nextSim⟩ := middleSim.step taken (readsFenced _ _ isAllowed)
        (fun isStrict => above isStrict _ _ isAllowed)
        (fun isBacked => allowed isBacked _ _ isAllowed)
      exact ⟨next, front.trans rest, nextSim⟩

end Sim

/-- Three new acceptors are related to the initial state. -/
theorem Sim.initial (strict backed : Prop) : Sim strict backed Sys.initial State.initial where
  run := .refl
  acceptors id := by
    have fresh : Sys.initial.acceptors.get id = Acceptor.new := by cases id <;> rfl
    rw [fresh]
    have noFile : Chained 0 [] := trivial
    obtain ⟨layout, records, -, none⟩ := SegmentWal.open_chained noFile segmentRotateBytes
    refine ⟨rfl, rfl, rfl, rfl, rfl, (none rfl).1, layout, ⟨[], ?_, ?_⟩, ?_⟩
    · exact List.nil_prefix
    · exact (none rfl).2.symm
    · rfl
  horizons _ id := by cases id <;> exact Nat.le_refl _
  ceil _ := Nat.le_refl _
  noCeil _ := rfl
  ordered _ _ := List.Pairwise.nil
  logs _ := trivial
  proposers p proposer isProposer := by simp [Sys.initial] at isProposer
  unborn _ _ := rfl
  strays stray mem := by simp [Sys.initial] at mem

end Icegres.Quorum
