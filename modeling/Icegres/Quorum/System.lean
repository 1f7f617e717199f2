import Icegres.Quorum.Tasks
import Icegres.Transition

/-!
# The whole system

Three acceptors, any number of proposers, and requests in flight. Every interleaving of the
tasks, every delay or loss of a message and every crash is a sequence of `Action`s; `step`
executes one when it is possible. The journal records what the parties observed.

A request that its task gave up on may still reach the acceptor; nobody reads the answer.
-/

namespace Icegres.Quorum

/-- Proposers are numbered in the order in which they entered `Quorum::open`. -/
abbrev ProposerId := Nat

/-- What the parties observed. -/
inductive Event where
  /-- An acceptor granted a proposer's vote request. -/
  | granted (proposer : ProposerId) (acceptor : AcceptorId) (term : Nat)
  /-- `submit` entered a record into the proposer's log. -/
  | submitted (proposer : ProposerId) (record : Record)
  /-- The commit position moved, counting these acceptors' acks. -/
  | committed (proposer : ProposerId) (term commit : Nat) (counted : List AcceptorId)
  /-- `wait_commit` returned `Ok`. -/
  | acknowledged (proposer : ProposerId) (term position : Nat)
  /-- The proposer moved its horizon. -/
  | advanced (proposer : ProposerId) (horizon : Nat)
  /-- A re-election of the proposer succeeded. -/
  | reelected (proposer : ProposerId) (term : Nat)
  /-- `Quorum::open` returned `Ok` with these records. -/
  | opened (proposer : ProposerId) (term : Nat) (recovered : List Record)
  deriving DecidableEq

/-- A request nobody waits for any more. -/
structure Stray where
  source : ProposerId
  target : AcceptorId
  message : Message

structure Sys where
  acceptors : Tri Acceptor
  proposers : List Proposer
  strays : List Stray
  journal : List Event

/-- Three new acceptors and no proposer. -/
def Sys.initial : Sys where
  acceptors := Tri.replicate Acceptor.new
  proposers := []
  strays := []
  journal := []

/-- A task of a proposer that talks to acceptors. -/
inductive Task where
  | opener
  | peer (id : AcceptorId)
  | supervisor

inductive Action where
  /-- A new process calls `Quorum::open`. -/
  | spawn (minted : String) (recoveryReadChunk : Nat)
  /-- A proposer process dies. -/
  | crash (proposer : ProposerId)
  /-- An acceptor process stops and starts again. -/
  | restart (acceptor : AcceptorId)
  /-- An acceptor handles the request a task waits on. -/
  | deliver (proposer : ProposerId) (task : Task)
  /-- An acceptor fails while it handles the request, and starts again. -/
  | deliverCrash (proposer : ProposerId) (task : Task) (point : Acceptor.CrashPoint)
  /-- The answer reaches its task. -/
  | receive (proposer : ProposerId) (task : Task)
  /-- A task gives up on its request. -/
  | giveUp (proposer : ProposerId) (task : Task) (timedOut : Bool)
  /-- An acceptor handles a request nobody waits for. -/
  | deliverStray (index : Nat)
  | strayCrash (index : Nat) (point : Acceptor.CrashPoint)
  /-- A task takes a step that needs no answer. -/
  | advance (proposer : ProposerId) (task : Task)
  /-- The final wait of `Quorum::open` spends a full append timeout. -/
  | openStall (proposer : ProposerId)
  | submit (proposer : ProposerId) (kind : RecordKind) (tableKey : String) (seq : Nat)
      (body : Segment.Bytes)
  | waitCommit (proposer : ProposerId) (position : Nat)
  /-- A waiter checks the commit position. -/
  | waiterCheck (proposer : ProposerId) (index : Nat)
  /-- A waiter spends a full append timeout. -/
  | waiterStall (proposer : ProposerId) (index : Nat)
  | noteCovered (proposer : ProposerId) (tableKey : String) (uptoSeq : Nat)
  | nudgeHorizon (proposer : ProposerId)

namespace Proposer

/-- The request a task waits on, with its acceptor. -/
def pending (proposer : Proposer) (task : Task) : Option (AcceptorId × Message) :=
  match task with
  | .opener => proposer.opening.pending proposer.shared
  | .peer id => proposer.shared.bind fun shared =>
      ((proposer.peers.get id).pending shared.tailId).map fun message => (id, message)
  | .supervisor => proposer.shared.bind fun shared => proposer.supervisor.pending shared.tailId

/-- The answer that has arrived for a task. -/
def reply (proposer : Proposer) : Task → Option Message
  | .opener => proposer.openReply
  | .peer id => proposer.peerReplies.get id
  | .supervisor => proposer.supervisorReply

def setReply (proposer : Proposer) (message : Message) : Task → Proposer
  | .opener => { proposer with openReply := some message }
  | .peer id =>
      { proposer with peerReplies := proposer.peerReplies.set id (some message) }
  | .supervisor => { proposer with supervisorReply := some message }

/-- A task continues with the outcome of its request. -/
def resume (proposer : Proposer) (task : Task) (outcome : Outcome) : Proposer :=
  match task, proposer.shared with
  | .opener, _ => proposer.resumeOpen outcome
  | .peer id, some shared => proposer.resumePeer shared id outcome
  | .supervisor, some shared => proposer.resumeSupervisor shared outcome
  | _, none => proposer

/-- A task takes a step that needs no answer. -/
def advance (proposer : Proposer) (task : Task) : Option Proposer :=
  match task, proposer.shared with
  | .opener, some shared => proposer.advanceOpen shared
  | .peer id, some shared => proposer.advancePeer shared id
  | .supervisor, some shared => proposer.advanceSupervisor shared
  | _, none => none

/-- The shared state, once `Quorum::open` has returned it. -/
def client (proposer : Proposer) : Option Shared :=
  match proposer.opening.pc with
  | .returned => proposer.shared
  | _ => none

end Proposer

/-- What a step of a proposer lets its observers see. -/
def observed (id : ProposerId) (before after : Proposer) : List Event :=
  let opened := match before.opening.pc, after.opening.pc with
    | .waiting _, .returned => [Event.opened id after.opening.term after.opening.recovered]
    | _, _ => []
  match after.shared with
  | none => opened
  | some shared =>
      let commit := (before.shared.map Shared.commit).getD 0
      let committed :=
        if shared.commit > commit then
          [Event.committed id shared.election.term shared.commit
            (AcceptorId.all.filter fun acceptor =>
              (shared.peers.get acceptor).flush ≥ shared.commit)]
        else
          []
      let horizon := (before.shared.map Shared.horizon).getD shared.horizon
      let advanced := if shared.horizon > horizon then [Event.advanced id shared.horizon] else []
      let term := (before.shared.map fun old => old.election.term).getD shared.election.term
      let reelected :=
        if shared.election.term > term then
          [Event.reelected id shared.election.term]
        else
          []
      committed ++ advanced ++ reelected ++ opened

namespace Sys

/-- Replace a proposer and record what its step let observers see. -/
def update (sys : Sys) (id : ProposerId) (before after : Proposer) : Sys :=
  { sys with
    proposers := sys.proposers.set id after
    journal := sys.journal ++ observed id before after }

def record (sys : Sys) (event : Event) : Sys :=
  { sys with journal := sys.journal ++ [event] }

/-- A live proposer. -/
def live (sys : Sys) (id : ProposerId) : Option Proposer :=
  sys.proposers[id]?.filter Proposer.alive

/-- An acceptor handles a message of a proposer; a granted vote is recorded. -/
def handle (sys : Sys) (source : ProposerId) (target : AcceptorId) (message : Message) :
    Sys × Message :=
  let handled := (sys.acceptors.get target).process message
  let sys := { sys with acceptors := sys.acceptors.set target handled.1 }
  match handled.2 with
  | .voteResponse vote =>
      (if vote.granted then sys.record (.granted source target vote.term) else sys, handled.2)
  | _ => (sys, handled.2)

/-- The requests a proposer leaves behind when it dies: those no acceptor has handled. -/
def abandoned (id : ProposerId) (proposer : Proposer) : List Stray :=
  [.opener, .peer .first, .peer .second, .peer .third, .supervisor].filterMap fun task =>
    match proposer.reply task, proposer.pending task with
    | none, some (target, message) => some ⟨id, target, message⟩
    | _, _ => none

/-- One action, when it is possible. -/
def step (sys : Sys) : Action → Option Sys
  | .spawn minted recoveryReadChunk =>
      some { sys with proposers := sys.proposers ++ [Proposer.start minted recoveryReadChunk] }
  | .crash id => do
      let proposer ← sys.live id
      some { sys with
        proposers := sys.proposers.set id { proposer with alive := false }
        strays := sys.strays ++ abandoned id proposer }
  | .restart id =>
      some { sys with acceptors := sys.acceptors.set id (sys.acceptors.get id).restart }
  | .deliver id task => do
      let proposer ← sys.live id
      let (target, message) ← proposer.pending task
      match proposer.reply task with
      | some _ => none
      | none =>
          let (sys, answer) := sys.handle id target message
          some { sys with proposers := sys.proposers.set id (proposer.setReply answer task) }
  | .deliverCrash id task point => do
      let proposer ← sys.live id
      let (target, message) ← proposer.pending task
      match proposer.reply task with
      | some _ => none
      | none =>
          let acceptor ← (sys.acceptors.get target).crashDuring message point
          some { sys with acceptors := sys.acceptors.set target acceptor }
            |>.map fun sys => sys.update id proposer (proposer.resume task .broken)
  | .receive id task => do
      let proposer ← sys.live id
      let answer ← proposer.reply task
      some (sys.update id proposer (proposer.resume task (Outcome.ofMessage answer)))
  | .giveUp id task timedOut => do
      let proposer ← sys.live id
      let (target, message) ← proposer.pending task
      let stray : List Stray := match proposer.reply task with
        | some _ => []
        | none => [⟨id, target, message⟩]
      let outcome := if timedOut then Outcome.timedOut else Outcome.broken
      some ({ sys with strays := sys.strays ++ stray }.update id proposer
        (proposer.resume task outcome))
  | .deliverStray index => do
      let stray ← sys.strays[index]?
      let sys := { sys with strays := sys.strays.eraseIdx index }
      some (sys.handle stray.source stray.target stray.message).1
  | .strayCrash index point => do
      let stray ← sys.strays[index]?
      let acceptor ← (sys.acceptors.get stray.target).crashDuring stray.message point
      some { sys with
        strays := sys.strays.eraseIdx index
        acceptors := sys.acceptors.set stray.target acceptor }
  | .advance id task => do
      let proposer ← sys.live id
      let after ← proposer.advance task
      some (sys.update id proposer after)
  | .openStall id => do
      let proposer ← sys.live id
      let shared ← proposer.shared
      match proposer.opening.pc with
      | .waiting false =>
          some (sys.update id proposer
            { proposer with
              opening := { proposer.opening with pc := .waiting true }
              shared := some (shared.request (.stalled proposer.opening.termStartLsn)) })
      | .waiting true =>
          let why := "quorum append timed out (re-election attempted)"
          some (sys.update id proposer
            { proposer with
              opening := proposer.opening.fail why
              shared := some (shared.poisonWith why) })
      | _ => none
  | .submit id kind tableKey seq body => do
      let proposer ← sys.live id
      let shared ← proposer.client
      match shared.submit kind tableKey seq body with
      | .error _ => none
      | .ok (shared, record) =>
          some ((sys.update id proposer { proposer with shared := some shared }).record
            (.submitted id record))
  | .waitCommit id position => do
      let proposer ← sys.live id
      let _ ← proposer.client
      some (sys.update id proposer
        { proposer with waiters := proposer.waiters ++ [⟨position, false⟩] })
  | .waiterCheck id index => do
      let proposer ← sys.live id
      let shared ← proposer.client
      let waiter ← proposer.waiters[index]?
      let after := { proposer with waiters := proposer.waiters.eraseIdx index }
      if shared.poison.isSome then
        some (sys.update id proposer after)
      else if shared.commit ≥ waiter.position then
        some ((sys.update id proposer after).record
          (.acknowledged id shared.election.term waiter.position))
      else
        none
  | .waiterStall id index => do
      let proposer ← sys.live id
      let shared ← proposer.client
      let waiter ← proposer.waiters[index]?
      if waiter.stalledOnce then
        some (sys.update id proposer
          { proposer with
            waiters := proposer.waiters.eraseIdx index
            shared := some (shared.poisonWith "quorum append timed out (re-election attempted)") })
      else
        some (sys.update id proposer
          { proposer with
            waiters := proposer.waiters.set index { waiter with stalledOnce := true }
            shared := some (shared.request (.stalled waiter.position)) })
  | .noteCovered id tableKey uptoSeq => do
      let proposer ← sys.live id
      let shared ← proposer.client
      some (sys.update id proposer
        { proposer with shared := some (shared.noteCovered tableKey uptoSeq).1 })
  | .nudgeHorizon id => do
      let proposer ← sys.live id
      let shared ← proposer.client
      some (sys.update id proposer { proposer with shared := some shared.advanceHorizon.1 })

end Sys

/-- A task's request is handled and its answer arrives, `count` times over. -/
def calls (id : ProposerId) (task : Task) (count : Nat) : List Action :=
  (List.replicate count [Action.deliver id task, Action.receive id task]).flatten

/-- A task moves on by itself, `count` times. -/
def advances (id : ProposerId) (task : Task) (count : Nat) : List Action :=
  List.replicate count (.advance id task)

/-- A connected streaming task sends its next batch and hears of it. -/
def streams (id : ProposerId) (acceptor : AcceptorId) : List Action :=
  advances id (.peer acceptor) 5 ++ calls id (.peer acceptor) 1

/-- A streaming task connects in its proposer's current term. -/
def reconnects (id : ProposerId) (acceptor : AcceptorId) (moves : Nat) : List Action :=
  advances id (.peer acceptor) moves ++ calls id (.peer acceptor) 3

end Icegres.Quorum
