import Icegres.Icegresd.Expiry
import Icegres.Transition

/-!
# The lease loop

A standby probes the lease log until the lease has lapsed, then runs for it, and a leader renews
until a renewal fails. It campaigns only on what the acceptors showed since it last gave up, and it
calls itself the leader only behind a record of its own that a quorum holds.
-/

namespace Icegres.Icegresd

open Quorum (quorum Record RecordKind)

/-! ## Holder records -/

def leaseTableKey : String :=
  "icegresd.lease"

def watermarkEvery : Nat :=
  32

/-- The sequence behind all records of the lease that an election recovered. -/
def firstSeq (recovered : List Record) : Nat :=
  ((recovered.filter fun record => record.tableKey = leaseTableKey).map Record.seq).max?.getD 0 + 1

/-- How far a holder record and the watermark behind it are. -/
inductive AppendPc where
  | frame
  | frameWait
  | mark (seq : Nat)
  | markWait
  deriving DecidableEq

/-! ## The loop -/

inductive LeasePhase where
  | standby
  /-- A round of probes is done. -/
  | polled
  | acquiring
  | appends (seq : Nat) (pc : AppendPc)
  /-- Between two renewals. -/
  | holds (seq : Nat)
  | stopped
  deriving DecidableEq

structure LeaseLoop (n : Nat) where
  tracker : ExpiryTracker n
  phase : LeasePhase
  leader : Bool
  shutdown : Bool
  now : Nat
  /-- Every call of the tracker. -/
  calls : List (TrackerCall n)
  /-- The calls before each campaign, with the time at which it was decided on. -/
  campaigns : List (List (TrackerCall n) × Nat)
  /-- What the last election recovered, and the records submitted since. -/
  recovered : List Record
  submitted : List (RecordKind × Nat)
  /-- The records known to be committed. -/
  committed : List (RecordKind × Nat)

inductive LeaseEvent (n : Nat) where
  | passes (time : Nat)
  | shutsDown
  | polls (results : Fin n → Option (Nat × Nat))
  | decides
  /-- The election ends. -/
  | elects (recovered : Option (List Record))
  | renews
  | submits (accepted : Bool)
  /-- A wait for a commit ends. The log may want a watermark refreshed. -/
  | commits (reached : Bool) (refresh : Option Nat)

namespace LeaseLoop

variable {n : Nat}

def init (n ttl : Nat) : LeaseLoop n where
  tracker := .new n ttl
  phase := .standby
  leader := false
  shutdown := false
  now := 0
  calls := []
  campaigns := []
  recovered := []
  submitted := []
  committed := []

/-- The loop forgets what it saw, and waits before it stands by again. -/
def backsOff (loop : LeaseLoop n) : LeaseLoop n :=
  { loop with
    phase := .standby, leader := false, tracker := loop.tracker.reset
    calls := loop.calls ++ [.reset] }

def poll (loop : LeaseLoop n) (results : Fin n → Option (Nat × Nat)) : LeaseLoop n :=
  { loop with
    phase := .polled, tracker := loop.tracker.pollAcceptors results loop.now
    calls := loop.calls ++ ExpiryTracker.pollCalls results loop.now }

def decide (loop : LeaseLoop n) : LeaseLoop n :=
  if loop.tracker.virgin || loop.tracker.expired loop.now then
    if loop.shutdown then { loop with phase := .stopped }
    else
      { loop with
        phase := .acquiring, campaigns := loop.campaigns ++ [(loop.calls, loop.now)] }
  else { loop with phase := .standby }

def elect (loop : LeaseLoop n) : Option (List Record) → LeaseLoop n
  | none => loop.backsOff
  | some recovered =>
      { loop with
        phase := .appends (firstSeq recovered) .frame
        recovered, submitted := [], committed := [] }

/-- A shutdown is seen before the record is sent: silence is the release. -/
def renew (loop : LeaseLoop n) (seq : Nat) : LeaseLoop n :=
  if loop.shutdown then { loop with phase := .stopped, leader := false }
  else { loop with phase := .appends (seq + 1) .frame }

/-- The holder record is behind a quorum. -/
def hold (loop : LeaseLoop n) (seq : Nat) : LeaseLoop n :=
  { loop with phase := .holds seq, leader := true }

def submit (loop : LeaseLoop n) (record : RecordKind × Nat) (phase : LeasePhase)
    (accepted : Bool) : LeaseLoop n :=
  if accepted then { loop with phase, submitted := loop.submitted ++ [record] } else loop.backsOff

def commitFrame (loop : LeaseLoop n) (seq : Nat) (refresh : Option Nat) : LeaseLoop n :=
  let loop := { loop with committed := loop.submitted }
  if refresh.isSome || seq % watermarkEvery = 0 then
    { loop with phase := .appends seq (.mark (max (refresh.getD seq) seq)) }
  else loop.hold seq

def step (loop : LeaseLoop n) : LeaseEvent n → Option (LeaseLoop n)
  | .passes time => some { loop with now := loop.now + time }
  | .shutsDown => some { loop with shutdown := true }
  | .polls results =>
      match loop.phase with
      | .standby =>
          some (if loop.shutdown then { loop with phase := .stopped } else loop.poll results)
      | _ => none
  | .decides =>
      match loop.phase with
      | .polled => some loop.decide
      | _ => none
  | .elects recovered =>
      match loop.phase with
      | .acquiring => some (loop.elect recovered)
      | _ => none
  | .renews =>
      match loop.phase with
      | .holds seq => some (loop.renew seq)
      | _ => none
  | .submits accepted =>
      match loop.phase with
      | .appends seq .frame =>
          some (loop.submit (.frame, seq) (.appends seq .frameWait) accepted)
      | .appends seq (.mark upTo) =>
          some (loop.submit (.watermark, upTo) (.appends seq .markWait) accepted)
      | _ => none
  | .commits reached refresh =>
      match loop.phase with
      | .appends seq .frameWait =>
          some (if reached then loop.commitFrame seq refresh else loop.backsOff)
      | .appends seq .markWait =>
          some (if reached then { loop with committed := loop.submitted }.hold seq
            else loop.backsOff)
      | _ => none

end LeaseLoop

/-! ## What is known in every state -/

/-- A quorum of acceptors was frozen, or showed that nothing was ever written, in the last probes
since the last reset. -/
def Lapsed {n : Nat} (ttl : Nat) (calls : List (TrackerCall n)) (now : Nat) : Prop :=
  ∃ acceptors : Finset (Fin n), quorum ≤ acceptors.card ∧
    ((∀ idx ∈ acceptors, Frozen ttl now idx calls) ∨
      ∀ idx ∈ acceptors, ∃ time, (probes idx calls).getLast? = some (some ((0, 0), time)))

def frames (committed : List (RecordKind × Nat)) : List Nat :=
  (committed.filter fun record => record.1 = .frame).map Prod.snd

section Order

variable {n : Nat} {calls more : List (TrackerCall n)} {now later : Nat}

theorem inOrder_iff : InOrder calls now ↔
    (calls.filterMap TrackerCall.time).Pairwise (· ≤ ·) ∧
      ∀ time ∈ calls.filterMap TrackerCall.time, time ≤ now := by
  simp [InOrder, List.pairwise_append]

theorem InOrder.weaken (ordered : InOrder calls now) (le : now ≤ later) : InOrder calls later := by
  obtain ⟨pairwise, below⟩ := inOrder_iff.mp ordered
  exact inOrder_iff.mpr ⟨pairwise, fun time mem => (below time mem).trans le⟩

/-- Calls that are made now come in order. -/
theorem InOrder.append (ordered : InOrder calls now)
    (made : ∀ time ∈ more.filterMap TrackerCall.time, time = now) :
    InOrder (calls ++ more) now := by
  obtain ⟨pairwise, below⟩ := inOrder_iff.mp ordered
  refine inOrder_iff.mpr ⟨?_, fun time mem => ?_⟩
  · rw [List.filterMap_append]
    refine List.pairwise_append.mpr ⟨pairwise, ?_, fun left isLeft right isRight => ?_⟩
    · refine List.pairwise_of_forall_mem_list fun left isLeft right isRight => ?_
      rw [made left isLeft, made right isRight]
    · rw [made right isRight]
      exact below left isLeft
  · rw [List.filterMap_append] at mem
    rcases List.mem_append.mp mem with before | new
    · exact below time before
    · exact (made time new).le

theorem time_pollCalls (results : Fin n → Option (Nat × Nat)) {time : Nat}
    (mem : time ∈ (ExpiryTracker.pollCalls results now).filterMap TrackerCall.time) :
    time = now := by
  obtain ⟨call, isCall, told⟩ := List.mem_filterMap.mp mem
  obtain ⟨idx, -, rfl⟩ := List.mem_map.mp isCall
  split at told
  · exact (Option.some.inj told).symm
  · cases told

end Order

theorem lt_firstSeq {recovered : List Record} {record : Record} (mem : record ∈ recovered)
    (isLease : record.tableKey = leaseTableKey) : record.seq < firstSeq recovered := by
  have inside : record.seq ∈
      (recovered.filter fun record => record.tableKey = leaseTableKey).map Record.seq :=
    List.mem_map_of_mem (List.mem_filter.mpr ⟨mem, by simpa using isLease⟩)
  obtain ⟨top, isTop⟩ := Option.isSome_iff_exists.mp (List.isSome_max?_of_mem inside)
  have le : record.seq ≤ top := (List.max?_le_iff isTop).mp (Nat.le_refl _) record.seq inside
  rw [firstSeq, isTop]
  exact Nat.lt_succ_of_le le

namespace LeaseLoop

variable {n ttl : Nat} {loop next : LeaseLoop n}

/-- Whether a process leads that began its tenure with this sequence. -/
def Leads (first : Nat) : LeasePhase → Prop
  | .holds _ => True
  | .appends seq _ => first < seq
  | _ => False

/-- How many holder records of a tenure were submitted, and how many of them are known to be
committed: all between two renewals, and all but the newest while that one is under way. -/
def Counts (first sent known : Nat) : LeasePhase → Prop
  | .holds seq => seq + 1 = first + sent ∧ 0 < sent ∧ known = sent
  | .appends seq .frame => seq = first + sent ∧ known = sent
  | .appends seq .frameWait => seq = first + known ∧ sent = known + 1
  | .appends seq _ => seq + 1 = first + sent ∧ 0 < sent ∧ known = sent
  | _ => known = sent ∨ sent = known + 1

/-- The holder records of a tenure follow one another from its first sequence. -/
structure Tenure (first : Nat) (submitted committed : List (RecordKind × Nat)) (phase : LeasePhase)
    (sent known : Nat) : Prop where
  submitted : frames submitted = List.range' first sent
  committed : frames committed = List.range' first known
  counts : Counts first sent known phase

theorem Tenure.either {first sent known : Nat} {submitted committed : List (RecordKind × Nat)}
    {phase : LeasePhase} (tenure : Tenure first submitted committed phase sent known) :
    known = sent ∨ sent = known + 1 := by
  have counts := tenure.counts
  unfold Counts at counts
  split at counts <;> omega

structure Inv (ttl : Nat) (loop : LeaseLoop n) : Prop where
  shows : loop.tracker.Shows loop.calls
  keeps : loop.tracker.ttl = ttl
  ordered : InOrder loop.calls loop.now
  lapsed : ∀ campaign ∈ loop.campaigns, Lapsed ttl campaign.1 campaign.2
  leads : loop.leader = true ↔ Leads (firstSeq loop.recovered) loop.phase
  tenure : ∃ sent known,
    Tenure (firstSeq loop.recovered) loop.submitted loop.committed loop.phase sent known

/-- The records stay as they are while the phase changes. -/
theorem Inv.moves (inv : Inv ttl loop) {phase : LeasePhase} {leader : Bool}
    (leads : leader = true ↔ Leads (firstSeq loop.recovered) phase)
    (counts : ∀ sent known, known = sent ∨ sent = known + 1 →
      Counts (firstSeq loop.recovered) sent known phase) :
    Inv ttl { loop with phase, leader } := by
  obtain ⟨sent, known, tenure⟩ := inv.tenure
  exact { inv with
    leads
    tenure := ⟨sent, known, tenure.submitted, tenure.committed, counts _ _ tenure.either⟩ }

theorem Inv.backsOff (inv : Inv ttl loop) : Inv ttl loop.backsOff := by
  have moved : Inv ttl { loop with phase := .standby, leader := false } :=
    inv.moves (by simp [Leads]) fun _ _ either => either
  exact { moved with
    shows := ExpiryTracker.shows_reset _ _
    ordered := inv.ordered.append (by simp [TrackerCall.time]) }

theorem Inv.not_leader (inv : Inv ttl loop) (unled : ¬ Leads (firstSeq loop.recovered) loop.phase) :
    loop.leader = false :=
  Bool.eq_false_iff.mpr fun leads => unled (inv.leads.mp leads)

theorem ttl_pollAcceptors (tracker : ExpiryTracker n) (results : Fin n → Option (Nat × Nat))
    (now : Nat) : (tracker.pollAcceptors results now).ttl = tracker.ttl := by
  rw [ExpiryTracker.pollAcceptors_eq_run]
  induction ExpiryTracker.pollCalls results now using List.reverseRecOn with
  | nil => rfl
  | append_singleton calls call ih => rw [List.foldl_concat, ExpiryTracker.ttl_run, ih]

/-- A round of probes, after which nothing is decided yet. -/
theorem Inv.poll (inv : Inv ttl loop) (isStandby : loop.phase = .standby)
    (results : Fin n → Option (Nat × Nat)) : Inv ttl (loop.poll results) := by
  have notLeader := inv.not_leader (by simp [isStandby, Leads])
  have moved : Inv ttl { loop with phase := .polled, leader := loop.leader } :=
    inv.moves (by simp [notLeader, Leads]) fun _ _ either => either
  exact { moved with
    shows := inv.shows.pollAcceptors results loop.now
    keeps := (ttl_pollAcceptors _ _ _).trans inv.keeps
    ordered := inv.ordered.append fun _ mem => time_pollCalls results mem }

/-- The tracker decides by what the acceptors showed since the last reset. -/
theorem Inv.decide (inv : Inv ttl loop) (isPolled : loop.phase = .polled) :
    Inv ttl loop.decide := by
  have notLeader := inv.not_leader (by simp [isPolled, Leads])
  have unled {phase : LeasePhase} (unled : ¬ Leads (firstSeq loop.recovered) phase) :
      loop.leader = true ↔ Leads (firstSeq loop.recovered) phase := by
    simp [notLeader, unled]
  unfold LeaseLoop.decide
  split
  · rename_i lapses
    have lapsed : Lapsed ttl loop.calls loop.now := by
      rcases (Bool.or_eq_true _ _).mp lapses with virgin | expired
      · obtain ⟨acceptors, many, zeros⟩ := inv.shows.virgin_iff.mp virgin
        exact ⟨acceptors, many, .inr zeros⟩
      · obtain ⟨acceptors, many, frozen⟩ := (inv.shows.expired_iff inv.ordered).mp expired
        rw [inv.keeps] at frozen
        exact ⟨acceptors, many, .inl frozen⟩
    split
    · exact inv.moves (unled (by simp [Leads])) fun _ _ either => either
    · have moved : Inv ttl { loop with phase := .acquiring } :=
        inv.moves (unled (by simp [Leads])) fun _ _ either => either
      exact { moved with
        lapsed := fun campaign mem => by
          rcases List.mem_append.mp mem with before | new
          · exact inv.lapsed campaign before
          · rw [List.mem_singleton.mp new]
            exact lapsed }
  · exact inv.moves (unled (by simp [Leads])) fun _ _ either => either

theorem Inv.elect (inv : Inv ttl loop) (isAcquiring : loop.phase = .acquiring)
    (recovered : Option (List Record)) : Inv ttl (loop.elect recovered) := by
  have notLeader := inv.not_leader (by simp [isAcquiring, Leads])
  cases recovered with
  | none => exact inv.backsOff
  | some recovered =>
      exact { inv with
        leads := by simp [LeaseLoop.elect, notLeader, Leads]
        tenure := ⟨0, 0, rfl, rfl, rfl, rfl⟩ }

theorem Inv.renew (inv : Inv ttl loop) {seq : Nat} (isHolding : loop.phase = .holds seq) :
    Inv ttl (loop.renew seq) := by
  unfold LeaseLoop.renew
  split
  · exact inv.moves (by simp [Leads]) fun _ _ either => either
  · obtain ⟨sent, known, tenure⟩ := inv.tenure
    have counts := tenure.counts
    have leads := inv.leads
    rw [isHolding] at counts leads
    obtain ⟨isNext, some, all⟩ := counts
    exact { inv with
      leads := iff_of_true (leads.mpr trivial) (by simp only [Leads]; omega)
      tenure := ⟨sent, known, tenure.submitted, tenure.committed, by omega, all⟩ }

/-- A record is sent, or refused. -/
theorem Inv.submit (inv : Inv ttl loop) {record : RecordKind × Nat} {phase : LeasePhase}
    (leads : Leads (firstSeq loop.recovered) loop.phase ↔ Leads (firstSeq loop.recovered) phase)
    (counts : ∀ sent known, Counts (firstSeq loop.recovered) sent known loop.phase →
      ∃ more, frames [record] = List.range' (firstSeq loop.recovered + sent) more ∧
        Counts (firstSeq loop.recovered) (sent + more) known phase)
    (accepted : Bool) : Inv ttl (loop.submit record phase accepted) := by
  unfold LeaseLoop.submit
  split
  · obtain ⟨sent, known, tenure⟩ := inv.tenure
    obtain ⟨more, added, counted⟩ := counts sent known tenure.counts
    refine { inv with
      leads := inv.leads.trans leads
      tenure := ⟨sent + more, known, ?_, tenure.committed, counted⟩ }
    dsimp only
    rw [frames, List.filter_append, List.map_append, ← frames, ← frames, tenure.submitted, added,
      List.range'_append_1]
  · exact inv.backsOff

/-- All that was submitted turns out to be committed. -/
theorem Inv.commit (inv : Inv ttl loop) {phase : LeasePhase} {leader : Bool}
    (leads : leader = true ↔ Leads (firstSeq loop.recovered) phase)
    (counts : ∀ sent known, Counts (firstSeq loop.recovered) sent known loop.phase →
      Counts (firstSeq loop.recovered) sent sent phase) :
    Inv ttl { loop with phase, leader, committed := loop.submitted } := by
  obtain ⟨sent, known, tenure⟩ := inv.tenure
  exact { inv with
    leads
    tenure := ⟨sent, sent, tenure.submitted, tenure.submitted, counts _ _ tenure.counts⟩ }

theorem Inv.commitFrame (inv : Inv ttl loop) {seq : Nat}
    (isWaiting : loop.phase = .appends seq .frameWait) (refresh : Option Nat) :
    Inv ttl (loop.commitFrame seq refresh) := by
  have leads := inv.leads
  rw [isWaiting] at leads
  unfold LeaseLoop.commitFrame
  dsimp only
  split
  · refine inv.commit leads fun sent known counts => ?_
    rw [isWaiting] at counts
    obtain ⟨isNext, newest⟩ := counts
    exact ⟨by omega, by omega, rfl⟩
  · refine inv.commit (by simp [Leads]) fun sent known counts => ?_
    rw [isWaiting] at counts
    obtain ⟨isNext, newest⟩ := counts
    exact ⟨by omega, by omega, rfl⟩

theorem Inv.step (inv : Inv ttl loop) {event : LeaseEvent n} (steps : loop.step event = some next) :
    Inv ttl next := by
  cases event with
  | passes time =>
      cases steps
      exact { inv with ordered := inv.ordered.weaken (Nat.le_add_right _ _) }
  | shutsDown =>
      cases steps
      exact { inv with }
  | polls results =>
      simp only [LeaseLoop.step] at steps
      split at steps
      · rename_i isStandby
        cases steps
        split
        · have notLeader := inv.not_leader (by simp [isStandby, Leads])
          exact inv.moves (by simp [notLeader, Leads]) fun _ _ either => either
        · exact inv.poll isStandby results
      · cases steps
  | decides =>
      simp only [LeaseLoop.step] at steps
      split at steps
      · rename_i isPolled
        cases steps
        exact inv.decide isPolled
      · cases steps
  | elects recovered =>
      simp only [LeaseLoop.step] at steps
      split at steps
      · rename_i isAcquiring
        cases steps
        exact inv.elect isAcquiring recovered
      · cases steps
  | renews =>
      simp only [LeaseLoop.step] at steps
      split at steps
      · rename_i seq isHolding
        cases steps
        exact inv.renew isHolding
      · cases steps
  | submits accepted =>
      simp only [LeaseLoop.step] at steps
      split at steps
      · rename_i seq isFrame
        cases steps
        refine inv.submit (by rw [isFrame]; rfl) (fun sent known counts => ?_) accepted
        rw [isFrame] at counts
        obtain ⟨rfl, rfl⟩ := counts
        exact ⟨1, rfl, rfl, rfl⟩
      · rename_i seq upTo isMark
        cases steps
        refine inv.submit (by rw [isMark]; rfl) (fun sent known counts => ?_) accepted
        rw [isMark] at counts
        exact ⟨0, rfl, counts⟩
      · cases steps
  | commits reached refresh =>
      simp only [LeaseLoop.step] at steps
      split at steps
      · rename_i seq isWaiting
        cases steps
        split
        · exact inv.commitFrame isWaiting refresh
        · exact inv.backsOff
      · rename_i seq isWaiting
        cases steps
        split
        · refine inv.commit (by simp [Leads]) fun sent known counts => ?_
          rw [isWaiting] at counts
          exact ⟨counts.1, counts.2.1, rfl⟩
        · exact inv.backsOff
      · cases steps

theorem Inv.init (n ttl : Nat) : Inv ttl (LeaseLoop.init n ttl) where
  shows := ExpiryTracker.shows_new n ttl
  keeps := rfl
  ordered := by simp [LeaseLoop.init, InOrder]
  lapsed := by rintro _ ⟨⟩
  leads := by simp [LeaseLoop.init, Leads]
  tenure := ⟨0, 0, rfl, rfl, .inl rfl⟩

/-- Every campaign of a process is backed by what a quorum showed since the process last gave up.
It calls itself the leader from the commit of its first record until it stops or a record fails,
and the records of its tenure follow one another from above everything the election recovered. -/
theorem campaigns_lapsed {n ttl : Nat} {loop : LeaseLoop n}
    (run : Run LeaseLoop.step Unrestricted (LeaseLoop.init n ttl) loop) :
    (∀ campaign ∈ loop.campaigns, Lapsed ttl campaign.1 campaign.2) ∧
      (loop.leader = true ↔ Leads (firstSeq loop.recovered) loop.phase) ∧
      (∃ sent known, (loop.leader = true → 0 < known) ∧
        Tenure (firstSeq loop.recovered) loop.submitted loop.committed loop.phase sent known) ∧
      ∀ record ∈ loop.recovered, record.tableKey = leaseTableKey →
        record.seq < firstSeq loop.recovered := by
  have inv : Inv ttl loop :=
    run.invariant (fun _ _ _ inv _ steps => inv.step steps) (.init n ttl)
  obtain ⟨sent, known, tenure⟩ := inv.tenure
  refine ⟨inv.lapsed, inv.leads, ⟨sent, known, fun isLeader => ?_, tenure⟩,
    fun _ mem isLease => lt_firstSeq mem isLease⟩
  have leads := inv.leads.mp isLeader
  have counts := tenure.counts
  unfold Counts at counts
  split at counts <;> simp_all only [Leads] <;> omega

/-- A standby sees a holder, which then goes silent, and takes the lease over. -/
def takesOver : LeaseLoop 3 :=
  execute LeaseLoop.step (fun _ _ => true) (LeaseLoop.init 3 10)
    [.polls fun _ => some (1, 5), .decides, .passes 12,
      .polls fun idx => if idx.val = 2 then none else some (1, 5), .decides,
      .elects (some []), .submits true, .commits true none, .renews, .submits true]

theorem campaigns_lapsed_takesOver : takesOver.phase = .appends 2 .frameWait ∧
    takesOver.leader = true ∧ takesOver.campaigns.length = 1 ∧
    (∀ campaign ∈ takesOver.campaigns, Lapsed 10 campaign.1 campaign.2) ∧
    ∃ sent known, 0 < known ∧
      Tenure 1 takesOver.submitted takesOver.committed takesOver.phase sent known := by
  have settled : _ ∧ _ ∧ (∃ sent known, (_ → _) ∧ _) ∧ _ := campaigns_lapsed
    (run_execute (fun _ _ _ => trivial) (LeaseLoop.init 3 10) _ : Run _ _ _ takesOver)
  obtain ⟨lapsed, -, ⟨sent, known, behind, tenure⟩, -⟩ := settled
  have leads : takesOver.leader = true := by decide +kernel
  have first : firstSeq takesOver.recovered = 1 := by decide +kernel
  exact ⟨by decide +kernel, leads, by decide +kernel, lapsed, sent, known, behind leads,
    first ▸ tenure⟩

end LeaseLoop

end Icegres.Icegresd
