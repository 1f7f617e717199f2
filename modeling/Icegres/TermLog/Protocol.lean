import Icegres.TermLog.History
import Icegres.TermLog.SizedLog
import Mathlib.Logic.Function.Basic
import Mathlib.Data.Set.Basic

/-!
# The replicated-log protocol

Nodes grant at most one ballot per term and copy the log of the owner whose term they
adopted. An owner wins a term with a quorum of ballots and continues the log of the most
advanced of them. The state keeps, beside what the parties hold, the history the safety
argument is about: the ballots, the elected terms with their histories, every owner's whole
log and the highest position each node durably held in each term.

`Step` is deliberately weaker than any implementation: what a node keeps over a restart,
how far a copy advances and when a copy is acknowledged are all left open.
-/

namespace Icegres.TermLog

/-- A family of node sets of which any two meet. -/
structure QuorumSystem (Node : Type) where
  IsQuorum : Set Node → Prop
  meet : ∀ {left right : Set Node}, IsQuorum left → IsQuorum right →
    ∃ node, node ∈ left ∧ node ∈ right

/-- What a node reported when it voted: whose history it had adopted and how far its copy
reached. -/
structure Ballot (Owner : Type) where
  candidate : Owner
  adopted : Nat
  flush : Nat

/-- The protocol state with its histories. Term zero is never elected. -/
structure State (Node Owner Entry : Type) where
  /-- The highest term the node has voted for or acknowledged. -/
  term : Node → Nat
  /-- The elected term whose history the node holds. -/
  adopted : Node → Nat
  /-- The end of the node's copy. -/
  flush : Node → Nat
  /-- The end of what survives a restart of the node. -/
  durable : Node → Nat
  /-- The highest position the node durably held while it followed a term. -/
  acked : Node → Nat → Nat
  ballot : Node → Nat → Option (Ballot Owner)
  owner : Nat → Option Owner
  hist : Nat → History
  /-- The last term an owner won, zero before the first. -/
  current : Owner → Nat
  log : Owner → List Entry
  /-- Positions at or below the ceiling may be lost by a node that restarts. -/
  ceil : Nat

namespace State

variable {Node Owner Entry : Type}

/-- Nothing has happened. -/
def initial : State Node Owner Entry where
  term _ := 0
  adopted _ := 0
  flush _ := 0
  durable _ := 0
  acked _ _ := 0
  ballot _ _ := none
  owner _ := none
  hist _ := []
  current _ := 0
  log _ := []
  ceil := 0

/-- The log of the owner of a term. -/
def logOf (state : State Node Owner Entry) (term : Nat) : List Entry :=
  match state.owner term with
  | some owner => state.log owner
  | none => []

/-- The history in effect for a copy of the log of term `term` that ends at `flush`. -/
def effective (state : State Node Owner Entry) (term flush : Nat) : History :=
  (state.hist term).upTo flush

/-- A ballot is at most as advanced as another: by the term of its last record, then by
its length. -/
def BallotLe (state : State Node Owner Entry) (low high : Ballot Owner) : Prop :=
  let lowTerm := (state.effective low.adopted low.flush).lastTerm
  let highTerm := (state.effective high.adopted high.flush).lastTerm
  lowTerm < highTerm ∨ lowTerm = highTerm ∧ low.flush ≤ high.flush

/-- A quorum gave its ballots of `term` to `candidate`. -/
def Wins (state : State Node Owner Entry) (quorums : QuorumSystem Node) (candidate : Owner)
    (term : Nat) (voters : Set Node) : Prop :=
  quorums.IsQuorum voters ∧
    ∀ node ∈ voters, ∃ ballot, state.ballot node term = some ballot ∧
      ballot.candidate = candidate

end State

variable {Node Owner Entry : Type}

/-- How an owner continues from the ballot of its donor: a new owner takes the donor's
history and log up to the donor's end; an owner that already holds a term keeps its own,
provided they are the donor's as far as the donor goes. -/
inductive Inherits (size : Entry → Nat) (state : State Node Owner Entry) (owner : Owner)
    (term : Nat) (donor : Ballot Owner) : History → List Entry → Prop where
  | opened {front : List Entry}
      (unowned : state.current owner = 0)
      (isFront : front <+: state.logOf donor.adopted)
      (ends : endOf size front = donor.flush) :
      Inherits size state owner term donor
        (state.effective donor.adopted donor.flush ++ [⟨term, donor.flush⟩]) front
  | reelected
      (owned : state.current owner ≠ 0)
      (newer : state.current owner < term)
      (same : state.effective (state.current owner) donor.flush =
        state.effective donor.adopted donor.flush) :
      Inherits size state owner term donor
        (state.hist (state.current owner) ++ [⟨term, donor.flush⟩]) (state.log owner)

variable [DecidableEq Node] [DecidableEq Owner]

/-- One step of the protocol. -/
inductive Step (size : Entry → Nat) (quorums : QuorumSystem Node) :
    State Node Owner Entry → State Node Owner Entry → Prop where
  /-- A node grants its ballot of a newer term. -/
  | vote {state} (node : Node) (term : Nat) (candidate : Owner)
      (newer : state.term node < term) :
      Step size quorums state
        { state with
          term := Function.update state.term node term
          ballot := Function.update state.ballot node
            (Function.update (state.ballot node) term
              (some ⟨candidate, state.adopted node, state.flush node⟩)) }
  /-- A node acknowledges a newer term without a ballot. -/
  | bump {state} (node : Node) (term : Nat) (newer : state.term node < term) :
      Step size quorums state { state with term := Function.update state.term node term }
  /-- A candidate with a quorum of ballots takes over the term. -/
  | elect {state} (owner : Owner) (term : Nat) (voters : Set Node) (donor : Node)
      (donorBallot : Ballot Owner) (history : History) (log : List Entry)
      (wins : state.Wins quorums owner term voters)
      (donorVoted : donor ∈ voters) (donorEq : state.ballot donor term = some donorBallot)
      (mostAdvanced : ∀ node ∈ voters, ∀ ballot, state.ballot node term = some ballot →
        state.BallotLe ballot donorBallot)
      (inherits : Inherits size state owner term donorBallot history log) :
      Step size quorums state
        { state with
          owner := Function.update state.owner term (some owner)
          hist := Function.update state.hist term history
          current := Function.update state.current owner term
          log := Function.update state.log owner log }
  /-- An owner appends an entry to its log. -/
  | submit {state} (owner : Owner) (entry : Entry) (owned : state.current owner ≠ 0) :
      Step size quorums state
        { state with
          log := Function.update state.log owner (state.log owner ++ [entry]) }
  /-- A node cuts its copy back, but not below the common point with a term it acknowledged.
  What it durably holds may go altogether only when the point is under the ceiling. -/
  | cut {state} (node : Node) (point upto kept : Nat)
      (elected : state.owner (state.term node) ≠ none)
      (common : CommonPoint (state.hist (state.term node))
        (state.effective (state.adopted node) (state.flush node)) (state.flush node) point)
      (above : point ≤ upto)
      (boundary : Boundary size (state.logOf (state.adopted node)) upto)
      (keptLe : kept ≤ min (state.durable node) upto)
      (keeps : kept = min (state.durable node) upto ∨ point ≤ state.ceil) :
      Step size quorums state
        { state with
          flush := Function.update state.flush node upto
          durable := Function.update state.durable node kept }
  /-- A node whose whole copy is that of the term it acknowledged adopts its history. -/
  | adopt {state} (node : Node)
      (elected : state.owner (state.term node) ≠ none)
      (agree : AgreeTo size (state.logOf (state.term node)) (state.logOf (state.adopted node))
        (state.flush node)) :
      Step size quorums state
        { state with adopted := Function.update state.adopted node (state.term node) }
  /-- A node that follows its term copies more of the owner's log. -/
  | extend {state} (node : Node) (upto kept : Nat)
      (follows : state.adopted node = state.term node)
      (forward : state.flush node ≤ upto)
      (boundary : Boundary size (state.logOf (state.term node)) upto)
      (keptGe : state.durable node ≤ kept) (keptLe : kept ≤ upto) :
      Step size quorums state
        { state with
          flush := Function.update state.flush node upto
          durable := Function.update state.durable node kept }
  /-- A node that follows its term acknowledges what it durably holds. -/
  | ack {state} (node : Node) (follows : state.adopted node = state.term node) :
      Step size quorums state
        { state with
          acked := Function.update state.acked node
            (Function.update (state.acked node) (state.term node)
              (max (state.acked node (state.term node)) (state.durable node))) }
  /-- A restart loses what is not durable. -/
  | lose {state} (node : Node) (upto : Nat)
      (durable : state.durable node ≤ upto) (backward : upto ≤ state.flush node)
      (boundary : Boundary size (state.logOf (state.adopted node)) upto) :
      Step size quorums state { state with flush := Function.update state.flush node upto }
  /-- The ceiling rises. -/
  | raise {state} (ceil : Nat) :
      Step size quorums state { state with ceil := max state.ceil ceil }

/-- Zero or more protocol steps. -/
inductive Steps (size : Entry → Nat) (quorums : QuorumSystem Node) :
    State Node Owner Entry → State Node Owner Entry → Prop where
  | refl {state} : Steps size quorums state state
  | step {first middle last} (prior : Steps size quorums first middle)
      (transition : Step size quorums middle last) : Steps size quorums first last

namespace Steps

variable {size : Entry → Nat} {quorums : QuorumSystem Node}

theorem single {first last : State Node Owner Entry}
    (transition : Step size quorums first last) : Steps size quorums first last :=
  .step .refl transition

theorem trans {first middle last : State Node Owner Entry}
    (front : Steps size quorums first middle) (rest : Steps size quorums middle last) :
    Steps size quorums first last := by
  induction rest with
  | refl => exact front
  | step _ transition ih => exact .step ih transition

end Steps

end Icegres.TermLog
