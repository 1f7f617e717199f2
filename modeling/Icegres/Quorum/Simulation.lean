import Icegres.Quorum.Reelect

/-!
# The system refines the protocol

Every action of the system is a sequence of protocol steps, in runs that meet the conditions
below. Under them every proposer and every acceptor stays related to the protocol state, so
what the protocol guarantees holds of the code.
-/

namespace Icegres.Quorum

open Icegres.TermLog

/-- The highest horizon a proposer moved to. -/
def announced : List Event → Nat
  | [] => 0
  | .advanced _ horizon :: journal => max horizon (announced journal)
  | _ :: journal => announced journal

theorem announced_append (journal more : List Event) :
    announced (journal ++ more) = max (announced journal) (announced more) := by
  induction journal with
  | nil => simp [announced]
  | cons event journal ih => cases event <;> simp [announced, ih, Nat.max_assoc]

theorem le_announced {journal : List Event} {p : ProposerId} {horizon : Nat}
    (mem : .advanced p horizon ∈ journal) : horizon ≤ announced journal := by
  induction journal with
  | nil => simp at mem
  | cons event journal ih =>
      rcases List.mem_cons.mp mem with rfl | later
      · exact Nat.le_max_left _ _
      · have := ih later
        cases event <;> simp only [announced] <;> omega

namespace Sys

/-- The request an action lets an acceptor handle, with its sender. -/
def handled (sys : Sys) : Action → Option (ProposerId × AcceptorId × Message)
  | .deliver id task | .deliverCrash id task _ =>
      (sys.live id).bind fun proposer => (proposer.pending task).map fun request => (id, request)
  | .deliverStray index | .strayCrash index _ =>
      sys.strays[index]?.map fun stray => (stray.source, stray.target, stray.message)
  | _ => none

/-- A recovery read is served while the donor is still in the term it voted for, from a range
that starts at one of its records. -/
def recoveryFenced (sys : Sys) : Action → Bool
  | .deliver id .opener =>
      match sys.live id with
      | none => true
      | some proposer =>
          let opening := proposer.opening
          let donor := sys.acceptors.get opening.donor
          match opening.pc with
          | .reading => donor.state.term = opening.term &&
              (opening.readPos ≠ opening.truncateLsn ||
                donor.wal.records.any fun record => record.lsn = opening.truncateLsn)
          | _ => true
  | _ => true

/-- A re-election never moves the start of the proposer's term back. -/
def reelectsAbove (sys : Sys) : Action → Bool
  | .receive id .supervisor =>
      match sys.live id with
      | none => true
      | some proposer =>
          match proposer.supervisorReply with
          | none => true
          | some answer => proposer.reelectsAbove (Outcome.ofMessage answer)
  | .giveUp id .supervisor _ =>
      match sys.live id with
      | none => true
      | some proposer => proposer.reelectsAbove .broken
  | _ => true

/-- No acceptor adopts a term at a start under which it retains no record. -/
def Backed (sys : Sys) (action : Action) : Prop :=
  ∀ request, sys.handled action = some request →
    ¬ (sys.acceptors.get request.2.1).Unbacked request.2.2

end Sys

variable {strict backed : Prop} {limit limit' : Nat} {abs next : Protocol}

/-- What an acceptor may rely on about a request in flight. -/
structure InFlight (strict : Prop) (limit : Nat) (abs : Protocol) (source : ProposerId)
    (target : AcceptorId) (message : Message) : Prop where
  valid : RequestOk abs source target message
  within : strict → ∀ request, message = .append request → request.horizonLsn ≤ limit ∧
    StartsWithin (max limit abs.ceil) abs target request.term request.beginLsn

namespace After

/-- What was in flight stays so. -/
theorem inFlight (after : After abs next) (limits : limit ≤ limit') {source : ProposerId}
    {target : AcceptorId} {message : Message}
    (inFlight : InFlight strict limit abs source target message) :
    InFlight strict limit' next source target message := by
  refine ⟨?_, fun isStrict request isAppend => ?_⟩
  · have valid := inFlight.valid
    cases message with
    | elected term start history =>
        exact ⟨after.owner valid.1, (after.hist valid.1).trans valid.2⟩
    | append request =>
        obtain ⟨owned, adopted, front, isFront, ends⟩ := valid
        exact ⟨after.owner owned, adopted.trans (after.grows.adopted_le target), front,
          isFront.trans (after.logOf_prefix _), ends⟩
    | _ => trivial
  · obtain ⟨horizon, starts⟩ := inFlight.within isStrict request isAppend
    exact ⟨horizon.trans limits, after.startsWithin limits starts⟩

end After

/-- Every request a task waits on may be handled. -/
theorem ProposerOk.inFlight {p : ProposerId} {proposer : Proposer}
    (ok : ProposerOk strict limit abs p proposer) {task : Task} {target : AcceptorId}
    {message : Message} (pending : proposer.pending task = some (target, message)) :
    InFlight strict limit abs p target message := by
  cases task with
  | opener =>
      have openOk := ok.opening
      simp only [Proposer.pending, Opening.pending] at pending
      split at pending
      case h_5 pc =>
        simp only [OpenOk, pc] at openOk
        obtain ⟨-, -, -, shared, isShared, -, term, -⟩ := openOk
        obtain ⟨sharedOk, -⟩ := ok.shared shared isShared
        rw [isShared] at pending
        cases pending
        exact ⟨term ▸ sharedOk.elects, fun _ _ isAppend => by cases isAppend⟩
      case h_6 => cases pending
      all_goals
        cases pending
        exact ⟨trivial, fun _ _ isAppend => by cases isAppend⟩
  | peer id =>
      simp only [Proposer.pending, Option.bind_eq_some_iff, Option.map_eq_some_iff,
        Prod.mk.injEq] at pending
      obtain ⟨shared, isShared, request, isPending, rfl, rfl⟩ := pending
      have pcOk := ok.peers id
      cases pc : proposer.peers.get id with
      | greeting | voting =>
          rw [pc] at isPending
          cases isPending
          exact ⟨trivial, fun _ _ isAppend => by cases isAppend⟩
      | electing el start =>
          rw [pc] at isPending pcOk
          cases isPending
          exact ⟨pcOk.1, fun _ _ isAppend => by cases isAppend⟩
      | appending sent =>
          rw [pc] at isPending pcOk
          cases isPending
          obtain ⟨streams, ⟨front, isFront, ends⟩, starts, horizon⟩ := pcOk
          refine ⟨⟨streams.1, streams.2, front, ?_, ends⟩, ?_⟩
          · simp only [State.logOf, streams.1]
            exact isFront
          · rintro isStrict other ⟨⟩
            exact ⟨horizon isStrict, starts isStrict⟩
      | _ =>
          rw [pc] at isPending
          cases isPending
  | supervisor =>
      simp only [Proposer.pending, Option.bind_eq_some_iff, SupervisorPc.pending] at pending
      obtain ⟨shared, isShared, isPending⟩ := pending
      split at isPending <;> cases isPending
      · exact ⟨trivial, fun _ _ isAppend => by cases isAppend⟩
      · exact ⟨trivial, fun _ _ isAppend => by cases isAppend⟩

/-- The relation between the system and the protocol. -/
structure Sim (strict backed : Prop) (sys : Sys) (abs : Protocol) : Prop where
  run : Steps Record.frameLen majorities State.initial abs
  acceptors : ∀ id, Follows (sys.acceptors.get id) abs id
  horizons : strict → ∀ id, (sys.acceptors.get id).effectiveHorizon ≤ announced sys.journal
  ceil : strict → abs.ceil ≤ announced sys.journal
  noCeil : backed → abs.ceil = 0
  ordered : strict → abs.Ordered
  logs : ∀ q, Consecutive 0 (abs.log q)
  proposers : ∀ p proposer, sys.proposers[p]? = some proposer →
    ProposerOk strict (announced sys.journal) abs p proposer
  unborn : ∀ p, sys.proposers.length ≤ p → abs.current p = 0
  strays : ∀ stray ∈ sys.strays,
    InFlight strict (announced sys.journal) abs stray.source stray.target stray.message

namespace Sim

variable {sys : Sys} (sim : Sim strict backed sys abs)

include sim

theorem formed : Formed abs :=
  (invariants_of_steps Record.frameLen_pos sim.run).1

theorem safe : Safe majorities abs :=
  (invariants_of_steps Record.frameLen_pos sim.run).2

theorem fenced : Fenced abs :=
  (fenced_of_steps Record.frameLen_pos sim.run).1

theorem settled (isStrict : strict) : abs.Settled :=
  (fenced_of_steps Record.frameLen_pos sim.run).2 (sim.ordered isStrict)

/-- What an append that an acceptor takes can move its horizon to is announced: either the
acceptor still holds what it acknowledged, or that may have been lost. -/
theorem carried_le (isStrict : strict) {source : ProposerId} {target : AcceptorId}
    {message : Message}
    (inFlight : InFlight strict (announced sys.journal) abs source target message) :
    (sys.acceptors.get target).carried message ≤ announced sys.journal := by
  cases message with
  | append request =>
      obtain ⟨horizon, starts⟩ := inFlight.within isStrict request rfl
      obtain ⟨-, reached, -⟩ := inFlight.valid
      have follows := sim.acceptors target
      have adopted := sim.formed.adopted_le target
      have term := follows.term
      have ceil := sim.ceil isStrict
      simp only [Acceptor.carried]
      split
      · rename_i current
        cases fresh : (sys.acceptors.get target).wal.empty with
        | false => simpa using horizon
        | true =>
            have noFiles := (follows.log.layout.fresh fresh).1
            have durable : abs.durable target = 0 := by
              rw [follows.log.durable, if_pos (follows.log.layout.records_eq_nil.mpr noFiles)]
            have atTerm : abs.adopted target = abs.term target := by omega
            have settled := sim.settled isStrict target atTerm
            have begin : request.beginLsn ≤ announced sys.journal := by
              rcases starts with below | ⟨later, newer, acked⟩
              · omega
              · by_cases none : abs.acked target later = 0
                · omega
                · have := sim.formed.acked_adopted target later (by omega)
                  have same : later = abs.term target := by omega
                  rw [same] at acked
                  omega
            simpa using ⟨horizon, begin⟩
      · exact Nat.zero_le _
  | _ => exact Nat.zero_le _

/-- Observations change nothing. -/
theorem observe (more : List Event) :
    Sim strict backed { sys with journal := sys.journal ++ more } abs := by
  have limits : announced sys.journal ≤ announced (sys.journal ++ more) := by
    rw [announced_append]
    exact Nat.le_max_left _ _
  have later := Later.refl sim.formed
  exact ⟨sim.run, sim.acceptors, fun isStrict id => (sim.horizons isStrict id).trans limits,
    fun isStrict => (sim.ceil isStrict).trans limits, sim.noCeil, sim.ordered, sim.logs,
    fun p proposer isProposer => (later p).proposerOk limits (sim.proposers p proposer isProposer),
    sim.unborn, fun stray mem => (later 0).inFlight limits (sim.strays stray mem)⟩

/-- Requests are given up and forgotten. -/
theorem withStrays {strays : List Stray}
    (valid : ∀ stray ∈ strays, stray ∈ sys.strays ∨
      InFlight strict (announced sys.journal) abs stray.source stray.target stray.message) :
    Sim strict backed { sys with strays := strays } abs :=
  ⟨sim.run, sim.acceptors, sim.horizons, sim.ceil, sim.noCeil, sim.ordered, sim.logs,
    sim.proposers, sim.unborn, fun stray mem => (valid stray mem).elim (sim.strays stray) id⟩

/-- An acceptor moves. -/
theorem acceptor {id : AcceptorId} {after : Acceptor} (moves : Moves id abs next)
    (follows : Follows after next id)
    (horizon : strict → after.effectiveHorizon ≤ announced sys.journal)
    (ceil : strict → next.ceil ≤ announced sys.journal) (noCeil : backed → next.ceil = 0) :
    Sim strict backed { sys with acceptors := sys.acceptors.set id after } next := by
  have formed := sim.formed
  refine ⟨sim.run.trans moves.steps, ?_, ?_, ceil, noCeil, ?_, ?_, ?_, ?_, ?_⟩
  · intro other
    simp only [Tri.get_set]
    split
    · rename_i isId
      subst isId
      exact follows
    · rename_i different
      exact (sim.acceptors other).unmoved moves different
  · intro isStrict other
    simp only [Tri.get_set]
    split
    · exact horizon isStrict
    · exact sim.horizons isStrict other
  · intro isStrict
    have ordered := sim.ordered isStrict
    unfold State.Ordered at ordered ⊢
    rw [moves.hist]
    exact ordered
  · rw [moves.log]
    exact sim.logs
  · intro p proposer isProposer
    exact (moves.later formed p).proposerOk (Nat.le_refl _) (sim.proposers p proposer isProposer)
  · rw [moves.current]
    exact sim.unborn
  · intro stray mem
    exact (moves.later formed 0).inFlight (Nat.le_refl _) (sim.strays stray mem)

/-- An acceptor has handled a request, as far as a failure let it. -/
theorem request {source : ProposerId} {target : AcceptorId} {message : Message}
    {after : Acceptor}
    (inFlight : InFlight strict (announced sys.journal) abs source target message)
    (allowed : backed → ¬ (sys.acceptors.get target).Unbacked message)
    (handled : Handled target (sys.acceptors.get target) after message abs next) :
    Sim strict backed { sys with acceptors := sys.acceptors.set target after } next := by
  refine sim.acceptor handled.moves handled.follows ?_ ?_ ?_
  · intro isStrict
    have horizon := handled.horizon
    have before := sim.horizons isStrict target
    have carried := sim.carried_le isStrict inFlight
    omega
  · intro isStrict
    have before := sim.horizons isStrict target
    have ceil := sim.ceil isStrict
    rcases handled.ceil with same | ⟨-, bounded⟩ <;> omega
  · intro isBacked
    rcases handled.ceil with same | ⟨unbacked, -⟩
    · exact same.trans (sim.noCeil isBacked)
    · exact absurd unbacked (allowed isBacked)

/-- A proposer takes a step of its own. -/
theorem own {p : ProposerId} {before after : Proposer} {more : List Event}
    (isBefore : sys.proposers[p]? = some before)
    (stepped : Stepped strict (announced (sys.journal ++ more)) p abs next after) :
    Sim strict backed
      { sys with
        proposers := sys.proposers.set p after
        journal := sys.journal ++ more } next := by
  have formed := sim.formed
  have widened := sim.observe more
  have steps := stepped.steps
  have bounded : p < sys.proposers.length := (List.getElem?_eq_some_iff.mp isBefore).1
  refine ⟨sim.run.trans steps.steps, ?_, widened.horizons, ?_, ?_, ?_, stepped.logs sim.logs, ?_,
    ?_, ?_⟩
  · exact fun id => steps.follows formed (sim.acceptors id)
  · intro isStrict
    rw [steps.ceil]
    exact widened.ceil isStrict
  · intro isBacked
    rw [steps.ceil]
    exact sim.noCeil isBacked
  · exact fun isStrict => stepped.ordered isStrict (sim.ordered isStrict)
  · intro q proposer isProposer
    simp only [List.getElem?_set] at isProposer
    split at isProposer
    · rename_i isP
      subst isP
      cases isProposer
      exact stepped.proposerOk
    · rename_i different
      exact (steps.later formed (Ne.symm different)).proposerOk (Nat.le_refl _)
        (widened.proposers q proposer isProposer)
  · intro q late
    rw [List.length_set] at late
    have different : q ≠ p := Nat.ne_of_gt (Nat.lt_of_lt_of_le bounded late)
    rw [(steps.others q different).1]
    exact sim.unborn q late
  · exact fun stray mem => (steps.after formed).inFlight (Nat.le_refl _) (widened.strays stray mem)

end Sim

/-- A wider limit. -/
theorem Stepped.widen {p : ProposerId} {after : Proposer} (formed : Formed abs)
    (stepped : Stepped strict limit p abs next after) (limits : limit ≤ limit') :
    Stepped strict limit' p abs next after :=
  ⟨stepped.steps, (Later.refl (stepped.steps.after formed).formed p).proposerOk limits
    stepped.proposerOk, stepped.ordered, stepped.logs⟩

namespace Sys

theorem live_eq_some {sys : Sys} {id : ProposerId} {proposer : Proposer}
    (isLive : sys.live id = some proposer) : sys.proposers[id]? = some proposer := by
  simp only [live, Option.filter_eq_some_iff] at isLive
  exact isLive.1

end Sys

/-- What one action brings the system to. -/
def Simulates (strict backed : Prop) (abs : Protocol) (after : Sys) : Prop :=
  ∃ next, Steps Record.frameLen majorities abs next ∧ Sim strict backed after next

namespace Sim

variable {sys : Sys} (sim : Sim strict backed sys abs) {p : ProposerId} {proposer : Proposer}
variable (isProposer : sys.proposers[p]? = some proposer)

include sim isProposer

/-- A proposer's own step and what it lets observers see. -/
theorem update {after : Proposer}
    (stepped : ∃ next, Stepped strict (announced sys.journal) p abs next after)
    (more : List Event) :
    Simulates strict backed abs
      { sys with
        proposers := sys.proposers.set p after
        journal := sys.journal ++ more } := by
  obtain ⟨next, stepped⟩ := stepped
  refine ⟨next, stepped.steps.steps, sim.own isProposer (stepped.widen sim.formed ?_)⟩
  rw [announced_append]
  exact Nat.le_max_left _ _

end Sim

end Icegres.Quorum
