import Icegres.Quorum.Rules
import Icegres.Quorum.System

/-!
# Dropping lagging peers

When the horizon advances, peers whose stored position is too far behind it are dropped from
catch-up and the local log is trimmed. The stored position is the last one a peer acknowledged
in the current term. Opening and re-electing set it to zero, and it stays there until the next
handshake, whatever the acceptor holds.
-/

namespace Icegres.Quorum

theorem AcceptorId.mem_all (id : AcceptorId) : id ∈ AcceptorId.all := by
  cases id <;> decide

/-- Trimming drops leading records that end at or below the position. -/
theorem LogBuf.dropTo_records (log : LogBuf) (upto : Nat) :
    ∃ gone, log.records = gone ++ (log.dropTo upto).records ∧
      ∀ record ∈ gone, record.endLsn ≤ upto := by
  have isFront : (log.records.takeWhile fun record => decide (record.endLsn ≤ upto)) <+:
      log.records := List.takeWhile_prefix _
  refine ⟨log.records.takeWhile fun record => record.endLsn ≤ upto, ?_, ?_⟩
  · simp only [dropTo]
    generalize (log.records.takeWhile fun record => decide (record.endLsn ≤ upto)) = gone
      at isFront
    obtain ⟨rest, shape⟩ := isFront
    rw [← shape, List.drop_left]
  · intro record mem
    simpa using List.mem_takeWhile_imp mem

namespace Shared

/-- A fold that moves to a peer only when it is behind ends at one that no peer is behind. -/
theorem foldl_slowest {peers : Tri Peer} {step : Option AcceptorId → AcceptorId → Option AcceptorId}
    {ids : List AcceptorId} {low : AcceptorId} {found : Option AcceptorId}
    (folded : ids.foldl step (some low) = found)
    (steps : ∀ low id, step (some low) id =
      if (peers.get id).flush < (peers.get low).flush then some id else some low) :
    ∃ id ∈ low :: ids, found = some id ∧
      ∀ other ∈ low :: ids, (peers.get id).flush ≤ (peers.get other).flush := by
  induction ids generalizing low with
  | nil => exact ⟨low, by simp, folded.symm, by simp⟩
  | cons next ids ih =>
      rw [List.foldl_cons, steps] at folded
      by_cases lower : (peers.get next).flush < (peers.get low).flush
      · rw [if_pos lower] at folded
        obtain ⟨id, mem, isMin, least⟩ := ih folded
        refine ⟨id, List.mem_cons_of_mem _ mem, isMin, ?_⟩
        intro other otherMem
        rcases List.mem_cons.mp otherMem with rfl | later
        · have := least next (by simp)
          omega
        · exact least other later
      · rw [if_neg lower] at folded
        obtain ⟨id, mem, isMin, least⟩ := ih folded
        refine ⟨id, ?_, isMin, ?_⟩
        · rcases List.mem_cons.mp mem with rfl | later
          · exact List.mem_cons_self
          · exact List.mem_cons_of_mem _ (List.mem_cons_of_mem _ later)
        · intro other otherMem
          rcases List.mem_cons.mp otherMem with rfl | later
          · exact least other (by simp)
          · rcases List.mem_cons.mp later with rfl | last
            · have := least low (by simp)
              omega
            · exact least other (List.mem_cons_of_mem _ last)

/-- The slowest live peer is at or below every live one. -/
theorem slowest_spec (peers : Tri Peer) :
    (slowest peers = none ∧ ∀ id, (peers.get id).failed = true) ∨
      ∃ id, slowest peers = some id ∧ (peers.get id).failed = false ∧
        ∀ other, (peers.get other).failed = false →
          (peers.get id).flush ≤ (peers.get other).flush := by
  have live (id : AcceptorId) :
      id ∈ AcceptorId.all.filter (fun id => !(peers.get id).failed) ↔
        (peers.get id).failed = false := by
    simp [List.mem_filter, id.mem_all]
  rw [slowest]
  cases shape : AcceptorId.all.filter fun id => !(peers.get id).failed with
  | nil =>
      left
      refine ⟨rfl, fun id => ?_⟩
      have out := live id
      rw [shape] at out
      simpa using out
  | cons low ids =>
      right
      rw [List.foldl_cons]
      generalize folded : ids.foldl _ (some low) = found
      obtain ⟨id, mem, isMin, least⟩ := foldl_slowest folded (fun _ _ => rfl)
      refine ⟨id, isMin, (live id).mp (shape ▸ mem), fun other isLive => ?_⟩
      exact least other (shape ▸ (live other).mpr isLive)

/-- How many peers are live. -/
def live (peers : Tri Peer) : Nat :=
  peers.toList.countP fun peer => !peer.failed

/-- The peer is dropped from catch-up. -/
def dropPeer (peers : Tri Peer) (id : AcceptorId) : Tri Peer :=
  peers.set id { peers.get id with failed := true }

theorem live_dropPeer {peers : Tri Peer} {id : AcceptorId}
    (isLive : (peers.get id).failed = false) : live (dropPeer peers id) < live peers := by
  cases id <;> simp_all [live, dropPeer, Tri.get, Tri.set, Tri.toList, List.countP_cons]

theorem failed_dropPeer (peers : Tri Peer) (low id : AcceptorId) :
    ((dropPeer peers low).get id).failed = true ↔ (peers.get id).failed = true ∨ id = low := by
  rw [dropPeer, Tri.get_set]
  by_cases same : id = low <;> simp [same]

theorem flush_dropPeer (peers : Tri Peer) (low id : AcceptorId) :
    ((dropPeer peers low).get id).flush = (peers.get id).flush := by
  rw [dropPeer, Tri.get_set]
  split
  · next same => rw [same]
  · rfl

/-- With rounds enough for every live peer, exactly the peers beyond the bound are dropped, and
the floor is at or below the horizon and every peer that stays. -/
theorem retain_failed (horizon : Nat) {rounds : Nat} {peers : Tri Peer}
    (enough : live peers < rounds) :
    (∀ id, ((retain horizon rounds peers).1.get id).failed = true ↔
      (peers.get id).failed = true ∨ (peers.get id).flush + maxPeerLagBytes < horizon) ∧
    (retain horizon rounds peers).2 ≤ horizon ∧
    ∀ id, ((retain horizon rounds peers).1.get id).failed = false →
      (retain horizon rounds peers).2 ≤ (peers.get id).flush := by
  induction rounds generalizing peers with
  | zero => omega
  | succ rounds ih =>
      rw [retain]
      rcases slowest_spec peers with ⟨none, all⟩ | ⟨low, isSlowest, isLive, least⟩
      · rw [none]
        exact ⟨by simp [all], Nat.le_refl _, by simp [all]⟩
      · rw [isSlowest]
        simp only
        split
        · next lags =>
          have fewer := live_dropPeer isLive
          obtain ⟨failed, floor, kept⟩ := ih (show live (dropPeer peers low) < rounds by omega)
          refine ⟨fun id => ?_, floor, fun id stays => ?_⟩
          · refine (failed id).trans ?_
            rw [failed_dropPeer, flush_dropPeer, or_assoc]
            refine or_congr_right ⟨?_, .inr⟩
            rintro (rfl | beyond)
            · omega
            · exact beyond
          · have below := kept id stays
            rwa [flush_dropPeer] at below
        · next within =>
          refine ⟨fun id => ⟨.inl, ?_⟩, Nat.min_le_left _ _, fun id stays => ?_⟩
          · rintro (out | beyond)
            · exact out
            · by_contra stays
              have := least id (by simpa using stays)
              omega
          · have := least id stays
            omega

/-- Where the horizon goes: over the coverable prefix as far as it is committed. -/
def nextHorizon (shared : Shared) : Nat :=
  max (min (shared.log.coverablePrefix shared.commit).1 shared.commit) shared.horizon

/-- What an advance of the horizon does to the peers and the log. -/
theorem advanceHorizon_peers (shared : Shared) :
    let after := shared.advanceHorizon.1
    after.horizon = shared.nextHorizon ∧
      (∀ id, (after.peers.get id).failed = true ↔ (shared.peers.get id).failed = true ∨
        shared.horizon < shared.nextHorizon ∧
          (shared.peers.get id).flush + maxPeerLagBytes < shared.nextHorizon) ∧
      ∃ gone, shared.log.records = gone ++ after.log.records ∧
        ∀ record ∈ gone, record.endLsn ≤ after.horizon ∧
          ∀ id, (after.peers.get id).failed = false →
            record.endLsn ≤ (after.peers.get id).flush := by
  have above : shared.horizon ≤ shared.nextHorizon := Nat.le_max_right _ _
  simp only [advanceHorizon]
  rw [← nextHorizon]
  split
  · next moves =>
    have enough : live shared.peers < 4 := by
      have := (shared.peers.toList).countP_le_length (p := fun peer => !peer.failed)
      simp only [Tri.toList, List.length_cons, List.length_nil] at this
      rw [live]
      simp only [Tri.toList]
      omega
    obtain ⟨failed, floor, kept⟩ := retain_failed shared.nextHorizon enough
    obtain ⟨-, flush⟩ := retain_spec shared.nextHorizon 4 shared.peers
    refine ⟨rfl, fun id => ?_, ?_⟩
    · rw [failed id]
      simp [show shared.horizon < shared.nextHorizon from moves]
    · obtain ⟨gone, records, below⟩ :=
        shared.log.dropTo_records (retain shared.nextHorizon 4 shared.peers).2
      refine ⟨gone, records, fun record mem => ?_⟩
      refine ⟨Nat.le_trans (below record mem) floor, fun id stays => ?_⟩
      rw [flush id]
      exact Nat.le_trans (below record mem) (kept id stays)
  · next stays =>
    have same : shared.nextHorizon = shared.horizon := by omega
    exact ⟨same.symm, by simp [same], [], rfl, by simp⟩

/-- The shared state once a flush's coverage is noted. -/
def noted (shared : Shared) (tableKey : String) (uptoSeq : Nat) : Shared :=
  { shared with
    log := { shared.log with
      covered := fun key =>
        if key = tableKey then max (shared.log.covered key) uptoSeq else shared.log.covered key } }

theorem noteCovered_eq (shared : Shared) (tableKey : String) (uptoSeq : Nat) :
    shared.noteCovered tableKey uptoSeq = (shared.noted tableKey uptoSeq).advanceHorizon := rfl

end Shared

/-- A peer dropped for its lag: where its acceptor's log ends, and the horizon. -/
structure Expulsion where
  durable : Nat
  horizon : Nat
  deriving DecidableEq

/-- The acceptor's log ends further behind the horizon than the bound. -/
def Expulsion.Lagging (expulsion : Expulsion) : Prop :=
  expulsion.durable + maxPeerLagBytes < expulsion.horizon

namespace Sys

/-- The shared state in which an action advances a horizon. -/
def advancing (sys : Sys) : Action → Option Shared
  | .noteCovered id tableKey uptoSeq => do
      let proposer ← sys.live id
      let shared ← proposer.client
      some (shared.noted tableKey uptoSeq)
  | .nudgeHorizon id => do
      let proposer ← sys.live id
      proposer.client
  | _ => none

/-- Where an acceptor's durable log ends. -/
def durable (sys : Sys) (id : AcceptorId) : Nat :=
  (sys.acceptors.get id).wal.flush

/-- The peers that an advance of the horizon drops. -/
def expulsions (sys : Sys) (shared : Shared) : List Expulsion :=
  AcceptorId.all.filterMap fun id =>
    if (shared.peers.get id).failed = false ∧
        (shared.advanceHorizon.1.peers.get id).failed = true then
      some ⟨sys.durable id, shared.advanceHorizon.1.horizon⟩
    else
      none

/-- When the horizon moves, no live peer is judged by a position its acceptor has left behind:
the bound below the new horizon does not fall between the stored position and the durable one. -/
def Current (sys : Sys) (shared : Shared) : Prop :=
  shared.horizon < shared.nextHorizon → ∀ id, (shared.peers.get id).failed = false →
    shared.nextHorizon ≤ (shared.peers.get id).flush + maxPeerLagBytes ∨
      sys.durable id + maxPeerLagBytes < shared.nextHorizon

/-- Exactly then an advance drops only lagging peers. -/
theorem expulsions_lagging_iff (sys : Sys) (shared : Shared) :
    (∀ expulsion ∈ sys.expulsions shared, expulsion.Lagging) ↔ sys.Current shared := by
  obtain ⟨horizon, failed, -⟩ := shared.advanceHorizon_peers
  have dropped (expulsion : Expulsion) : expulsion ∈ sys.expulsions shared ↔
      ∃ id, (shared.peers.get id).failed = false ∧ shared.horizon < shared.nextHorizon ∧
        (shared.peers.get id).flush + maxPeerLagBytes < shared.nextHorizon ∧
        expulsion = ⟨sys.durable id, shared.nextHorizon⟩ := by
    simp only [expulsions, List.mem_filterMap, AcceptorId.mem_all, true_and, failed, horizon]
    constructor
    · rintro ⟨id, isExpulsion⟩
      split at isExpulsion
      · next out =>
        obtain ⟨isLive, isFailed | ⟨moves, beyond⟩⟩ := out
        · rw [isLive] at isFailed
          cases isFailed
        · cases isExpulsion
          exact ⟨id, isLive, moves, beyond, rfl⟩
      · cases isExpulsion
    · rintro ⟨id, isLive, moves, beyond, rfl⟩
      exact ⟨id, if_pos ⟨isLive, .inr ⟨moves, beyond⟩⟩⟩
  constructor
  · intro lagging moves id isLive
    by_cases beyond : (shared.peers.get id).flush + maxPeerLagBytes < shared.nextHorizon
    · exact .inr (lagging _ ((dropped _).mpr ⟨id, isLive, moves, beyond, rfl⟩))
    · exact .inl (Nat.le_of_not_lt beyond)
  · intro current expulsion mem
    obtain ⟨id, isLive, moves, beyond, rfl⟩ := (dropped expulsion).mp mem
    rcases current moves id isLive with within | lags
    · omega
    · exact lags

end Sys

/-- The system with every peer dropped for its lag so far. -/
structure Watched where
  sys : Sys
  expelled : List Expulsion

namespace Watched

def initial : Watched := ⟨Sys.initial, []⟩

def step (watched : Watched) (action : Action) : Option Watched := do
  let next ← watched.sys.step action
  some ⟨next, watched.expelled ++ ((watched.sys.advancing action).map
    watched.sys.expulsions).getD []⟩

/-- Every horizon advance meets the condition. -/
def Current (watched : Watched) (action : Action) : Prop :=
  ∀ shared ∈ watched.sys.advancing action, watched.sys.Current shared

end Watched

/-- In every run whose horizon advances judge no peer by a stale position, every peer that was
dropped for its lag really lagged. A single advance drops only lagging peers exactly under that
condition, and it trims only records below the horizon and below every live peer. -/
theorem expels_only_lagging (watched : Watched) (sys : Sys) (shared : Shared) :
    (Run Watched.step Watched.Current Watched.initial watched →
      ∀ expulsion ∈ watched.expelled, expulsion.Lagging) ∧
    ((∀ expulsion ∈ sys.expulsions shared, expulsion.Lagging) ↔ sys.Current shared) ∧
    ∃ gone, shared.log.records = gone ++ shared.advanceHorizon.1.log.records ∧
      ∀ record ∈ gone, record.endLsn ≤ shared.advanceHorizon.1.horizon ∧
        ∀ id, (shared.advanceHorizon.1.peers.get id).failed = false →
          record.endLsn ≤ (shared.advanceHorizon.1.peers.get id).flush := by
  refine ⟨fun run => ?_, sys.expulsions_lagging_iff shared, shared.advanceHorizon_peers.2.2⟩
  have kept (before : Watched) (action : Action) (after : Watched)
      (lagging : ∀ expulsion ∈ before.expelled, expulsion.Lagging)
      (current : before.Current action) (taken : before.step action = some after) :
      ∀ expulsion ∈ after.expelled, expulsion.Lagging := by
    simp only [Watched.step, Option.bind_eq_bind, Option.bind_eq_some_iff,
      Option.some.injEq] at taken
    obtain ⟨next, -, rfl⟩ := taken
    intro expulsion mem
    rcases List.mem_append.mp mem with old | new
    · exact lagging expulsion old
    · cases isAdvancing : before.sys.advancing action with
      | none => simp [isAdvancing] at new
      | some shared =>
          rw [isAdvancing] at new
          exact (before.sys.expulsions_lagging_iff shared).mpr (current shared isAdvancing)
            expulsion new
  exact run.invariant kept (by simp [Watched.initial])

/-- A body of zeros. -/
def zeros (size : Nat) : Segment.Bytes :=
  ⟨List.replicate size 0, size, List.length_replicate⟩

/-- A tail of two frames and their watermark, past the lag bound. -/
def longTail : List Action :=
  [.spawn "tail" 64] ++ calls 0 .opener 12 ++
    [.advance 0 .opener, .submit 0 .frame "t" 1 (zeros 150000000),
      .submit 0 .frame "t" 2 (zeros 150000000), .submit 0 .watermark "t" 2 (zeros 0)]

/-- An acceptor receives and acknowledges all of it. -/
def catchesUp (id : AcceptorId) : List Action :=
  streams 0 id ++ streams 0 id ++ streams 0 id

/-- Two acceptors hold the tail, and the third has received nothing. -/
def lagsBehind : Sys :=
  execute Sys.step (fun _ _ => true) Sys.initial
    (longTail ++ catchesUp .first ++ catchesUp .second)

theorem expels_only_lagging_third :
    ∃ shared, lagsBehind.advancing (.noteCovered 0 "t" 2) = some shared ∧
      (lagsBehind.expulsions shared).map Expulsion.durable = [0] ∧ lagsBehind.Current shared := by
  have dropped : (lagsBehind.advancing (.noteCovered 0 "t" 2)).map lagsBehind.expulsions =
      some [⟨0, 300000060⟩] := by
    decide +kernel
  obtain ⟨shared, advancing, expelled⟩ := Option.map_eq_some_iff.mp dropped
  refine ⟨shared, advancing, by rw [expelled]; rfl, ?_⟩
  refine (expels_only_lagging Watched.initial _ _).2.1.mp ?_
  intro expulsion mem
  rw [expelled, List.mem_singleton] at mem
  rw [mem]
  exact show 0 + maxPeerLagBytes < 300000060 by decide

/-- All three acceptors hold the tail when the proposer re-elects itself. -/
def caughtUp : List Action :=
  longTail ++ catchesUp .first ++ catchesUp .second ++ catchesUp .third ++
    [.waitCommit 0 400000000, .waiterStall 0 0, .advance 0 .supervisor] ++ calls 0 .supervisor 6

/-- The first horizon advance after the re-election drops every peer, although every acceptor
holds more than the horizon covers. -/
theorem expels_caught_up :
    let watched := execute Watched.step (fun _ _ => true) Watched.initial
      (caughtUp ++ [.noteCovered 0 "t" 2])
    Run Watched.step Unrestricted Watched.initial watched ∧
      watched.expelled.length = 3 ∧ ∀ expulsion ∈ watched.expelled,
        expulsion.horizon < expulsion.durable ∧ ¬ expulsion.Lagging := by
  refine ⟨run_execute (fun _ _ _ => trivial) Watched.initial _, ?_⟩
  have dropped : (execute Watched.step (fun _ _ => true) Watched.initial
      (caughtUp ++ [.noteCovered 0 "t" 2])).expelled =
        List.replicate 3 ⟨300000090, 300000060⟩ := by
    decide +kernel
  rw [dropped]
  refine ⟨List.length_replicate, fun expulsion mem => ?_⟩
  rw [List.eq_of_mem_replicate mem]
  exact ⟨by decide, show ¬ 300000090 + maxPeerLagBytes < 300000060 by decide⟩

end Icegres.Quorum
