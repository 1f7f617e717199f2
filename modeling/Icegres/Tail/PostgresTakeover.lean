import Icegres.Tail.PostgresSequences

/-!
# A process takes a Postgres tail over

When a process holds the lock, no statement of one that held it before is executed any more. What
the old process still gets to read was in the database by then, and both stamp their commits with
one property.
-/

namespace Icegres.Tail.Postgres

variable {Batches : Type} {encodeIpc : Batches → Except String (List UInt8)}
  {collate : String → String → Bool} {fromStrs : List String → Option TableIdent}
  {parsesUuid : String → Bool} {sys after : Sys Batches} {id : Nat} {session : Session Batches}

/-! ## What a run keeps -/

/-- Once its backend has ended, a session inserts nothing. -/
theorem ended_of_run
    (makes : ∀ ident : TableIdent, ident.inner ≠ [] → fromStrs ident.strs = some ident)
    (inv : Inv encodeIpc sys)
    (later : Run (Sys.step encodeIpc collate fromStrs parsesUuid) Calls sys after)
    (isSession : sys.sessions id = some session) (ended : session.serving = false) :
    Inv encodeIpc after ∧ (∃ next, after.sessions id = some next ∧ next.serving = false) ∧
      ∀ entry ∈ after.inserted, entry.session = id → entry ∈ sys.inserted := by
  induction later with
  | refl => exact ⟨inv, ⟨session, isSession, ended⟩, fun _ mem _ => mem⟩
  | step _ calls steps ih =>
      obtain ⟨invMiddle, ⟨middle, isMiddle, endedMiddle⟩, within⟩ := ih
      obtain ⟨invNext, executed⟩ := invMiddle.step makes calls steps
      refine ⟨invNext, executed.ended _ _ isMiddle endedMiddle,
        fun entry mem own => ?_⟩
      rcases executed.inserted entry mem with before | ⟨found, isFound, serving⟩
      · exact within entry before own
      · rw [own, isMiddle] at isFound
        cases isFound
        rw [serving] at endedMiddle
        cases endedMiddle

/-- Every tail was opened with the identity in the database. -/
theorem minted_of_run
    (makes : ∀ ident : TableIdent, ident.inner ≠ [] → fromStrs ident.strs = some ident)
    (run : Run (Sys.step encodeIpc collate fromStrs parsesUuid) Calls (Sys.init Batches) sys) :
    ∀ entry ∈ sys.opened, Mints sys entry := by
  induction run with
  | refl => rintro _ ⟨⟩
  | step run calls steps ih =>
      have executed := ((inv_of_run makes run).step makes calls steps).2
      intro entry mem
      obtain ⟨schema, row, isSchema, isRow, isKey⟩ := (executed.opened entry mem).elim (ih entry) id
      obtain ⟨next, isNext, isRow'⟩ := executed.row schema row isSchema isRow
      exact ⟨next, row, isNext, isRow', isKey⟩

/-! ## The takeover -/

/-- While a process holds the lock, no statement of one that took it before is executed: all that
the old process is told of its appends, then or later, is in the database already. All tails that
are ever opened stamp one watermark property. -/
theorem takeover_complete
    (makes : ∀ ident : TableIdent, ident.inner ≠ [] → fromStrs ident.strs = some ident)
    (run : Run (Sys.step encodeIpc collate fromStrs parsesUuid) Calls (Sys.init Batches) sys)
    (later : Run (Sys.step encodeIpc collate fromStrs parsesUuid) Calls sys after)
    {old new : Nat} {oldSession newSession : Session Batches} (apart : old ≠ new)
    (isOld : sys.sessions old = some oldSession) (wasLocked : oldSession.stage.Locked)
    (isNew : sys.sessions new = some newSession) (serving : newSession.serving = true)
    (locked : newSession.stage.Locked) :
    (∀ entry ∈ after.inserted, entry.session = old → entry ∈ sys.inserted) ∧
      (∀ entry ∈ after.acked, entry.session = old → entry ∈ sys.inserted) ∧
      ∀ first ∈ after.opened, ∀ second ∈ after.opened, first.2 = second.2 := by
  have inv := inv_of_run makes run
  have held : sys.holder = some new := (inv.fits new newSession isNew).holds serving locked
  have ended : oldSession.serving = false := by
    refine Bool.eq_false_iff.mpr fun isServing => ?_
    have held' := (inv.fits old oldSession isOld).holds isServing wasLocked
    exact apart (Option.some.inj (held'.symm.trans held))
  obtain ⟨invAfter, -, within⟩ := ended_of_run makes inv later isOld ended
  have minted := minted_of_run makes (run.trans later)
  refine ⟨within, fun entry mem own => within entry (invAfter.isAcked entry mem) own,
    fun first isFirst second isSecond => ?_⟩
  obtain ⟨schema, row, isSchema, isRow, isKey⟩ := minted first isFirst
  obtain ⟨schema', row', isSchema', isRow', isKey'⟩ := minted second isSecond
  obtain rfl := Option.some.inj (isSchema.symm.trans isSchema')
  obtain rfl := Option.some.inj (isRow.symm.trans isRow')
  exact isKey.trans isKey'.symm

theorem takeover_complete_takenOver :
    (∃ entry ∈ takenOver.acked, entry.session = 0 ∧ entry.seq = 2) ∧
      (∀ entry ∈ takenOver.inserted, entry.session = 0 → entry ∈ reopened.inserted) ∧
      (∀ entry ∈ takenOver.acked, entry.session = 0 → entry ∈ reopened.inserted) ∧
      ∀ first ∈ takenOver.opened, ∀ second ∈ takenOver.opened, first.2 = second.2 := by
  have isOld : reopened.sessions 0 = some _ := rfl
  have isNew : reopened.sessions 1 = some _ := rfl
  exact ⟨by decide, takeover_complete identOfStrs_makes run_reopened run_late Nat.zero_ne_one isOld
    trivial isNew rfl trivial⟩

end Icegres.Tail.Postgres
