import Icegres.Commit.Exact
import Icegres.Commit.Transaction

/-!
# What the answer to a COMMIT says

An error other than `40003` says that nothing was applied. That is so except when the catalog
applies the first commit the server posts and the answer to that post is lost.
-/

namespace Icegres.Commit

variable {Value : Type} [DecidableEq Value]

theorem EngineError.sqlstate_ne (error : EngineError) :
    error.sqlstate ≠ .statementCompletionUnknown := by
  cases error <;> simp [EngineError.sqlstate]

namespace OverwriteEngine

variable (engine : OverwriteEngine) (strict : Bool) (around : Surroundings Value)

/-! ## What a COMMIT promises -/

/-- The operations on the table were found to change nothing at the pinned head. -/
def NetsOut (table : TxnTable Value) : Prop :=
  engine.stageSingle around table = .ok none ∨
    engine.stage (around.multi table.ident) table
      "nothing was applied — retry the transaction" = .ok none

/-- The operations on the table are applied. -/
def Settled (outcome : Outcome) (table : TxnTable Value) : Prop :=
  table.ident ∈ outcome.applied ∨ engine.NetsOut around table

/-- The catalog has the multi-table endpoint, and the server knows. -/
def HasEndpoint (around : Surroundings Value) : Prop :=
  probeTxnEndpoint around = .ok true ∧ knownTxnEndpoint around true = true

structure Honest (touched : List (TxnTable Value)) (outcome : Outcome) : Prop where
  success : outcome.answer = .commit → ∀ table ∈ touched, engine.Settled around outcome table
  failure : ∀ sqlstate message, outcome.answer = .error sqlstate message →
    sqlstate ≠ .statementCompletionUnknown → outcome.applied = []
  rollback : outcome.answer = .rollback → outcome.applied = []
  atomic : strict = true ∨ HasEndpoint around →
    outcome.applied = [] ∨ ∀ table ∈ touched, engine.Settled around outcome table
  partlyApplied : outcome.applied ≠ [] →
    (∃ table ∈ touched, ¬ engine.Settled around outcome table) →
    ∃ message, outcome.answer = .error .statementCompletionUnknown message

/-! ## The lost answer -/

/-- The catalog applies the commit of the table, and its answer is lost. -/
def Lost (table : TxnTable Value) : Prop :=
  ∃ commit, engine.stageSingle around table = .ok (some commit) ∧
    accepts (around.single table.ident) commit = true ∧
    ∃ error, (around.single table.ident).reply = .failsAfter error

/-- The multi-table commit is posted and applied, and its answer is lost. -/
def MultiLost (touched : List (TxnTable Value)) : Prop :=
  1 < touched.length ∧ HasEndpoint around ∧
    ∃ staged, engine.stageMulti around touched = .ok staged ∧ liveOf staged ≠ [] ∧
      acceptsAll around (liveOf staged) = true ∧ ∃ error, around.multiReply = .failsAfter error

/-- The server finds no multi-table endpoint. -/
def LacksEndpoint (touched : List (TxnTable Value)) : Prop :=
  probeTxnEndpoint around = .ok false ∨
    (probeTxnEndpoint around = .ok true ∧ knownTxnEndpoint around true = false ∧
      ∃ staged, engine.stageMulti around touched = .ok staged ∧ liveOf staged ≠ [])

/-- The tables are committed one after another. -/
def PerTable (touched : List (TxnTable Value)) : Prop :=
  touched.length ≤ 1 ∨ (strict = false ∧ engine.LacksEndpoint around touched)

/-- The tables are committed one after another, and the answer for the first is lost. -/
def FirstLost (touched : List (TxnTable Value)) : Prop :=
  engine.PerTable strict around touched ∧
    ∃ first rest, touched = first :: rest ∧ engine.Lost around first

/-! ## One table -/

/-- A commit of one table without an error is applied, or there was nothing to apply. With an
error it is applied exactly when the answer was lost. -/
theorem commitPinned_spec (table : TxnTable Value) :
    (∃ result landed, engine.commitPinned around table = (.ok result, landed) ∧
      ¬ engine.Lost around table ∧
      (landed = true ∨ engine.stageSingle around table = .ok none)) ∨
    (∃ error landed, engine.commitPinned around table = (.error error, landed) ∧
      (landed = true ↔ engine.Lost around table)) := by
  unfold commitPinned Lost
  cases staged : engine.stageSingle around table with
  | error error => exact .inr ⟨error, false, rfl, by simp⟩
  | ok prepared =>
      cases prepared with
      | none => exact .inl ⟨none, false, rfl, by simp, .inr rfl⟩
      | some commit =>
          simp only [Except.ok.injEq, Option.some.injEq, exists_eq_left', reduceCtorEq, or_false]
          generalize (around.single table.ident).reply = reply
          generalize accepts (around.single table.ident) commit = accepted
          cases reply with
          | failsBefore error => exact .inr ⟨.other error, false, rfl, by simp⟩
          | failsAfter error => exact .inr ⟨.other error, accepted, rfl, by simp⟩
          | answered =>
              cases accepted with
              | true => exact .inl ⟨_, true, rfl, by simp, rfl⟩
              | false => exact .inr ⟨_, false, rfl, by simp⟩

/-! ## One table after another -/

theorem commitTables_ok {table : TxnTable Value} {result : Option Int} {landed : Bool}
    (answered : engine.commitPinned around table = (.ok result, landed))
    (committed applied : List TableIdent) (remaining : List (TxnTable Value)) :
    engine.commitTables around committed applied (table :: remaining) =
      engine.commitTables around (committed ++ [table.ident])
        (if landed then applied ++ [table.ident] else applied) remaining := by
  simp [commitTables, answered]

/-- Once a table is committed, COMMIT settles every other one or reports a partial apply. -/
theorem commitTables_committed (tables : List (TxnTable Value)) (committed : List TableIdent)
    (some : committed ≠ []) (applied : List TableIdent) :
    (∀ ident ∈ applied, ident ∈ (engine.commitTables around committed applied tables).applied) ∧
      (((engine.commitTables around committed applied tables).answer = .commit ∧
          ∀ table ∈ tables, engine.Settled around
            (engine.commitTables around committed applied tables) table) ∨
        ∃ message, (engine.commitTables around committed applied tables).answer =
          .error .statementCompletionUnknown message) := by
  induction tables generalizing committed applied with
  | nil => exact ⟨fun _ member => member, .inl ⟨rfl, fun _ member => by cases member⟩⟩
  | cons table remaining ih =>
      rcases engine.commitPinned_spec around table with
        ⟨result, landed, answered, -, settled⟩ | ⟨error, landed, answered, -⟩
      · rw [engine.commitTables_ok around answered]
        obtain ⟨kept, ended⟩ := ih (committed ++ [table.ident]) (by simp)
          (if landed then applied ++ [table.ident] else applied)
        constructor
        · intro ident member
          apply kept
          split
          · exact List.mem_append_left _ member
          · exact member
        · rcases ended with ⟨success, rest⟩ | partly
          · refine .inl ⟨success, ?_⟩
            intro other member
            rcases List.mem_cons.mp member with rfl | later
            · rcases settled with rfl | netsOut
              · exact .inl (kept _ (by simp))
              · exact .inr (.inl netsOut)
            · exact rest other later
          · exact .inr partly
      · have shape : committed.isEmpty = false := by simpa using some
        simp only [commitTables, answered, shape, Bool.false_eq_true, if_false]
        constructor
        · intro ident member
          split
          · exact List.mem_append_left _ member
          · exact member
        · exact .inr ⟨_, rfl⟩

/-- When the tables are committed one after another, only the first post's lost answer makes the
COMMIT's answer wrong. -/
theorem commitTables_honest (touched : List (TxnTable Value))
    (perTable : engine.PerTable strict around touched) :
    engine.Honest strict around touched (engine.commitTables around [] [] touched) ↔
      ¬ engine.FirstLost strict around touched := by
  have few : strict = true ∨ HasEndpoint around → touched.length ≤ 1 := by
    intro guarded
    rcases perTable with short | ⟨lenient, missing⟩
    · exact short
    · rcases guarded with rfl | ⟨probed, known⟩
      · cases lenient
      · rcases missing with absent | ⟨-, unknown, -⟩
        · rw [probed] at absent
          cases absent
        · rw [known] at unknown
          cases unknown
  cases touched with
  | nil =>
      constructor
      · rintro - ⟨-, first, rest, impossible, -⟩
        cases impossible
      · intro _
        constructor <;> simp [commitTables]
  | cons first rest =>
      rcases engine.commitPinned_spec around first with
        ⟨result, landed, answered, found, settled⟩ | ⟨error, landed, answered, lost⟩
      · have notLost : ¬ engine.FirstLost strict around (first :: rest) := by
          rintro ⟨-, other, remaining, same, lost⟩
          cases same
          exact found lost
        rw [engine.commitTables_ok around answered]
        obtain ⟨kept, ended⟩ := engine.commitTables_committed around rest
          ([] ++ [first.ident]) (by simp) (if landed then [] ++ [first.ident] else [])
        have head : engine.Settled around (engine.commitTables around ([] ++ [first.ident])
            (if landed then [] ++ [first.ident] else []) rest) first := by
          rcases settled with rfl | netsOut
          · exact .inl (kept _ (by simp))
          · exact .inr (.inl netsOut)
        refine iff_of_true ?_ notLost
        constructor
        case success =>
          intro success table member
          rcases List.mem_cons.mp member with rfl | later
          · exact head
          · rcases ended with ⟨-, others⟩ | ⟨message, failed⟩
            · exact others table later
            · rw [success] at failed
              cases failed
        case failure =>
          intro sqlstate message failed different
          rcases ended with ⟨success, -⟩ | ⟨other, partly⟩
          · rw [success] at failed
            cases failed
          · rw [partly] at failed
            cases failed
            exact absurd rfl different
        case rollback =>
          intro rolled
          rcases ended with ⟨success, -⟩ | ⟨other, partly⟩
          · rw [success] at rolled
            cases rolled
          · rw [partly] at rolled
            cases rolled
        case atomic =>
          intro guarded
          have alone : rest = [] := by
            have bound := few guarded
            simpa using bound
          subst alone
          refine .inr ?_
          intro table member
          obtain rfl := List.mem_singleton.mp member
          exact head
        case partlyApplied =>
          rintro - ⟨table, member, unsettled⟩
          rcases ended with ⟨success, others⟩ | partly
          · rcases List.mem_cons.mp member with rfl | later
            · exact absurd head unsettled
            · exact absurd (others table later) unsettled
          · exact partly
      · have outcome : engine.commitTables around [] [] (first :: rest) =
            ⟨rolledBack error, if landed then [first.ident] else []⟩ := by
          simp [commitTables, answered]
        rw [outcome]
        cases landed with
        | false =>
            have notLost : ¬ engine.FirstLost strict around (first :: rest) := by
              rintro ⟨-, other, remaining, same, wasLost⟩
              cases same
              exact absurd (lost.mpr wasLost) (by simp)
            refine iff_of_true ?_ notLost
            constructor <;> simp [rolledBack]
        | true =>
            have isLost : engine.FirstLost strict around (first :: rest) :=
              ⟨perTable, first, rest, rfl, lost.mp rfl⟩
            refine iff_of_false ?_ (not_not_intro isLost)
            intro honest
            have none := honest.failure error.sqlstate _ rfl error.sqlstate_ne
            simp at none

/-! ## Several tables at once -/

theorem mem_stageMulti {touched : List (TxnTable Value)}
    {staged : List (TxnTable Value × Option (PreparedCommit Value))}
    (ran : engine.stageMulti around touched = .ok staged) :
    ∀ table ∈ touched, ∃ prepared, (table, prepared) ∈ staged ∧
      engine.stage (around.multi table.ident) table
        "nothing was applied — retry the transaction" = .ok prepared := by
  induction touched generalizing staged with
  | nil => simp
  | cons first rest ih =>
      simp only [stageMulti, List.mapM_cons] at ran
      obtain ⟨pair, prepares, ran⟩ := bind_eq_ok ran
      obtain ⟨prepared, stages, made⟩ := bind_eq_ok prepares
      obtain ⟨others, later, total⟩ := bind_eq_ok ran
      cases made
      cases total
      intro table member
      rcases List.mem_cons.mp member with rfl | inRest
      · exact ⟨prepared, List.mem_cons_self, stages⟩
      · obtain ⟨found, inStaged, staged⟩ := ih later table inRest
        exact ⟨found, List.mem_cons_of_mem _ inStaged, staged⟩

/-- A table whose changes are all among the applied ones is settled. -/
theorem settled_of_staged {touched : List (TxnTable Value)}
    {staged : List (TxnTable Value × Option (PreparedCommit Value))} {outcome : Outcome}
    (ran : engine.stageMulti around touched = .ok staged)
    (applied : outcome.applied = (liveOf staged).map Prod.fst) :
    ∀ table ∈ touched, engine.Settled around outcome table := by
  intro table member
  obtain ⟨prepared, inStaged, stages⟩ := engine.mem_stageMulti around ran table member
  cases prepared with
  | none => exact .inr (.inr stages)
  | some commit =>
      left
      rw [applied]
      apply List.mem_map.mpr
      exact ⟨(table.ident, commit), List.mem_filterMap.mpr ⟨_, inStaged, rfl⟩, rfl⟩

/-- The ways a multi-table commit ends. -/
inductive MultiEnd (touched : List (TxnTable Value)) :
    Except EngineError MultiTableCommit × List TableIdent → Prop where
  | committed (staged) (ran : engine.stageMulti around touched = .ok staged)
      (present : ¬ engine.LacksEndpoint around touched)
      (answered : ¬ engine.MultiLost around touched) :
      MultiEnd touched (.ok .committed, (liveOf staged).map Prod.fst)
  | unsupported (missing : engine.LacksEndpoint around touched)
      (answered : ¬ engine.MultiLost around touched) :
      MultiEnd touched (.ok .unsupported, [])
  | failed (error) (present : ¬ engine.LacksEndpoint around touched)
      (answered : ¬ engine.MultiLost around touched) :
      MultiEnd touched (.error error, [])
  | lost (error) (staged) (some : liveOf staged ≠ [])
      (lost : engine.MultiLost around touched) :
      MultiEnd touched (.error error, (liveOf staged).map Prod.fst)

theorem commitPinnedMulti_ends {touched : List (TxnTable Value)}
    (several : 1 < touched.length) :
    engine.MultiEnd around touched (engine.commitPinnedMulti around touched) := by
  unfold commitPinnedMulti
  cases probed : probeTxnEndpoint around with
  | error error =>
      apply MultiEnd.failed
      · simp [LacksEndpoint, probed]
      · simp [MultiLost, HasEndpoint, probed]
  | ok supported =>
      cases supported with
      | false =>
          apply MultiEnd.unsupported
          · exact .inl probed
          · simp [MultiLost, HasEndpoint, probed]
      | true =>
          cases ran : engine.stageMulti around touched with
          | error error =>
              apply MultiEnd.failed
              · simp [LacksEndpoint, probed, ran]
              · simp [MultiLost, ran]
          | ok staged =>
              dsimp only
              by_cases nothing : liveOf staged = []
              · have ends : engine.MultiEnd around touched
                    (.ok .committed, (liveOf staged).map Prod.fst) :=
                  .committed staged ran (by simp [LacksEndpoint, probed, ran, nothing])
                    (by simp [MultiLost, ran, nothing])
                simpa [nothing] using ends
              · have live : (liveOf staged).isEmpty = false := by simpa using nothing
                simp only [live, Bool.false_eq_true, if_false]
                cases known : knownTxnEndpoint around true with
                | false =>
                    simp only [Bool.not_false, if_true]
                    apply MultiEnd.unsupported
                    · exact .inr ⟨probed, known, staged, ran, nothing⟩
                    · simp [MultiLost, HasEndpoint, known]
                | true =>
                    have present : ¬ engine.LacksEndpoint around touched := by
                      simp [LacksEndpoint, probed, known]
                    simp only [Bool.not_true, Bool.false_eq_true, if_false]
                    cases reply : around.multiReply with
                    | failsBefore error =>
                        exact .failed _ present (by simp [MultiLost, reply])
                    | failsAfter error =>
                        cases accepted : acceptsAll around (liveOf staged) with
                        | false =>
                            apply MultiEnd.failed _ present
                            rintro ⟨-, -, other, same, -, all, -⟩
                            cases ran.symm.trans same
                            rw [accepted] at all
                            cases all
                        | true =>
                            exact .lost _ staged nothing ⟨several, ⟨probed, known⟩, staged, ran,
                              nothing, accepted, error, reply⟩
                    | answered =>
                        have answered : ¬ engine.MultiLost around touched := by
                          simp [MultiLost, reply]
                        cases accepted : acceptsAll around (liveOf staged) with
                        | false => exact .failed _ present answered
                        | true => exact .committed staged ran present answered

/-! ## COMMIT -/

/-- The COMMIT of written tables keeps its promises exactly when no applied first post loses its
answer. -/
theorem commitTouched_honest (touched : List (TxnTable Value)) :
    engine.Honest strict around touched (engine.commitTouched strict around touched) ↔
      ¬ (engine.MultiLost around touched ∨ engine.FirstLost strict around touched) := by
  unfold commitTouched
  by_cases several : 1 < touched.length
  · have notFirst (present : ¬ engine.LacksEndpoint around touched) :
        ¬ engine.FirstLost strict around touched := by
      rintro ⟨short | ⟨-, missing⟩, -⟩
      · omega
      · exact present missing
    simp only [several, if_true]
    have ends := engine.commitPinnedMulti_ends around several
    generalize engine.commitPinnedMulti around touched = ended at ends
    cases ends with
    | committed staged ran present answered =>
        refine iff_of_true ?_ (not_or.mpr ⟨answered, notFirst present⟩)
        have settled : ∀ table ∈ touched, engine.Settled around
            ⟨.commit, (liveOf staged).map Prod.fst⟩ table :=
          engine.settled_of_staged around ran rfl
        constructor
        · exact fun _ => settled
        · simp
        · simp
        · exact fun _ => .inr settled
        · rintro - ⟨table, member, unsettled⟩
          exact absurd (settled table member) unsettled
    | unsupported missing answered =>
        cases strict with
        | true =>
            have notFirst : ¬ engine.FirstLost true around touched := by
              rintro ⟨short | ⟨impossible, -⟩, -⟩
              · omega
              · cases impossible
            refine iff_of_true ?_ (not_or.mpr ⟨answered, notFirst⟩)
            constructor <;> simp [strictRefusal]
        | false =>
            simp only [Bool.false_eq_true, if_false]
            rw [engine.commitTables_honest false around touched (.inr ⟨rfl, missing⟩)]
            simp [answered]
    | failed error present answered =>
        refine iff_of_true ?_ (not_or.mpr ⟨answered, notFirst present⟩)
        constructor <;> simp [rolledBack]
    | lost error staged live lost =>
        refine iff_of_false ?_ (not_not_intro (.inl lost))
        intro honest
        have none := honest.failure error.sqlstate _ rfl error.sqlstate_ne
        exact live (List.map_eq_nil_iff.mp none)
  · simp only [several, if_false]
    have short : touched.length ≤ 1 := by omega
    rw [engine.commitTables_honest strict around touched (.inl short)]
    simp [MultiLost, several]

/-- The tables a COMMIT is about. -/
def touchedBy : Option (TxnSession Value) → List (TxnTable Value)
  | some session => session.touched
  | none => []

/-- A commit of the transaction is the first that is posted, it is applied, and its answer is
lost. -/
def AnswerLost (session : Option (TxnSession Value)) : Prop :=
  ∃ opened, session = some opened ∧ opened.aborted = false ∧
    (engine.MultiLost around opened.touched ∨ engine.FirstLost strict around opened.touched)

theorem commit_honest_iff (session : Option (TxnSession Value)) :
    engine.Honest strict around (touchedBy session) (engine.commit strict around session) ↔
      ¬ engine.AnswerLost strict around session := by
  cases session with
  | none =>
      refine iff_of_true ?_ (by simp [AnswerLost])
      constructor <;> simp [commit, touchedBy]
  | some opened =>
      cases aborted : opened.aborted with
      | true =>
          refine iff_of_true ?_ (by simp [AnswerLost, aborted])
          constructor <;> simp [commit, aborted]
      | false =>
          have lost : engine.AnswerLost strict around (some opened) ↔
              (engine.MultiLost around opened.touched ∨
                engine.FirstLost strict around opened.touched) := by
            simp [AnswerLost, aborted]
          rw [lost]
          simpa [commit, aborted, touchedBy] using
            engine.commitTouched_honest strict around opened.touched

/-! ## A gateway error -/

def pairsTable : Table where
  ident := ⟨["demo"], "t"⟩
  formatVersion := .v2
  unpartitioned := true
  fields := [⟨"k", true⟩, ⟨"v", false⟩]
  nextSequenceNumber := 1
  properties := []
  catalog := { uuid := "u", snapshots := [], refs := [] }

/-- One row is inserted, the commit is applied, and the answer to it is a gateway error. -/
def gatewayError : Surroundings Nat :=
  let visit : Visit Nat :=
    { load := .ok pairsTable
      backend := Job.pairsBackend
      timestampMs := 0
      atPost := pairsTable.catalog
      reply := .failsAfter "catalog rejected commit (502 Bad Gateway)" }
  { txnEndpoint := some true
    probe := .status 400
    settled := none
    multi := fun _ => visit
    multiReply := .answered
    single := fun _ => visit }

def insertOne : TxnSession Nat where
  aborted := false
  tables := [⟨⟨["demo"], "t"⟩, none, [.append [[4, 20]]]⟩]

/-- The client is told that nothing was applied, and the row is in the table. -/
theorem commit_dishonest :
    ¬ ∀ (engine : OverwriteEngine) (strict : Bool) (around : Surroundings Nat)
      (session : Option (TxnSession Nat)),
      engine.Honest strict around (touchedBy session) (engine.commit strict around session) := by
  intro claimed
  have honest := claimed ⟨false, "main"⟩ false gatewayError (some insertOne)
  have applied : (OverwriteEngine.commit ⟨false, "main"⟩ false gatewayError
      (some insertOne)).applied = [⟨["demo"], "t"⟩] := by
    decide +kernel
  have answered : ∃ message, (OverwriteEngine.commit ⟨false, "main"⟩ false gatewayError
      (some insertOne)).answer = .error .internalError message :=
    ⟨_, rfl⟩
  obtain ⟨message, failed⟩ := answered
  have none := honest.failure _ _ failed (by decide)
  rw [applied] at none
  cases none

end OverwriteEngine

end Icegres.Commit
