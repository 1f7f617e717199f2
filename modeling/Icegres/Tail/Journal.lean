import Icegres.Tail.LocalWal

/-!
# What happens to the frames of a segment

The frames that are written to the segments of a table, the fsyncs of these segments and the
rollbacks, in the order in which they end. A frame is durable once an fsync that began after it was
written has succeeded; an fsync that fails may lose every frame that is not durable by then.
-/

namespace Icegres.Tail

/-- An operation on the file of a segment. -/
inductive FileEvent where
  /-- The frame of a statement is written whole. -/
  | wrote (frame : Waiter)
  | syncBegins (segment : Nat)
  | syncEnds (segment : Nat) (result : Option String)
  /-- The segment is cut at a length, and synced. -/
  | rollsBack (segment len : Nat) (outcome : RollBack)
  /-- The file of a failed segment is removed. -/
  | discards (segment : Nat)

/-- It was cut, but the fsync behind it failed. -/
def RollBack.Unsynced : RollBack → Prop
  | unsynced _ => True
  | _ => False

namespace FileEvent

def segment : FileEvent → Nat
  | wrote frame => frame.segment
  | syncBegins segment => segment
  | syncEnds segment _ => segment
  | rollsBack segment _ _ => segment
  | discards segment => segment

/-- An fsync of the segment fails. -/
def SyncFails : FileEvent → Prop
  | syncEnds _ result => result ≠ none
  | rollsBack _ _ outcome => outcome.Unsynced
  | _ => False

/-- The segment loses what is behind a length, or all of it. -/
def Removes (frame : Waiter) : FileEvent → Prop
  | rollsBack _ len _ => len < frame.myEnd
  | discards _ => True
  | _ => False

/-- It is another operation than the end of a group fsync of the segment. -/
def Passes (segment : Nat) (event : FileEvent) : Prop :=
  ∀ result, event ≠ syncEnds segment result

end FileEvent

/-- An fsync of the frame's segment that began after the frame was written is in flight. -/
def Syncing (journal : List FileEvent) (frame : Waiter) : Prop :=
  ∃ before between during,
    journal = before ++ .wrote frame :: (between ++ .syncBegins frame.segment :: during) ∧
      ∀ event ∈ during, event.Passes frame.segment

/-- An fsync of the frame's segment that began after the frame was written succeeded. -/
def Synced (journal : List FileEvent) (frame : Waiter) : Prop :=
  ∃ before after, journal = before ++ .syncEnds frame.segment none :: after ∧
    Syncing before frame

/-- A rollback removes the frame, or a failed fsync may lose it as no fsync made it durable
before. -/
def Harms (journal : List FileEvent) (frame : Waiter) (event : FileEvent) : Prop :=
  .wrote frame ∈ journal ∧ event.segment = frame.segment ∧
    (event.Removes frame ∨ event.SyncFails ∧ ¬ Synced journal frame)

/-- A rollback removed the frame, or a failed fsync may have lost it. -/
def Harmed (journal : List FileEvent) (frame : Waiter) : Prop :=
  ∃ before event after, journal = before ++ event :: after ∧ Harms before frame event

variable {journal : List FileEvent} {frame : Waiter} {event : FileEvent}

theorem Synced.append (synced : Synced journal frame) (later : List FileEvent) :
    Synced (journal ++ later) frame := by
  obtain ⟨before, after, rfl, syncing⟩ := synced
  exact ⟨before, after ++ later, by simp, syncing⟩

theorem Syncing.append (syncing : Syncing journal frame) (passes : event.Passes frame.segment) :
    Syncing (journal ++ [event]) frame := by
  obtain ⟨before, between, during, rfl, others⟩ := syncing
  refine ⟨before, between, during ++ [event], by simp, fun other mem => ?_⟩
  rcases List.mem_append.mp mem with old | new
  · exact others other old
  · rwa [List.mem_singleton.mp new]

/-- An fsync that begins is behind every frame there is. -/
theorem syncing_begins (written : .wrote frame ∈ journal) :
    Syncing (journal ++ [.syncBegins frame.segment]) frame := by
  obtain ⟨before, between, rfl⟩ := List.append_of_mem written
  exact ⟨before, between, [], by simp, by rintro event ⟨⟩⟩

theorem Syncing.succeeds (syncing : Syncing journal frame) :
    Synced (journal ++ [.syncEnds frame.segment none]) frame :=
  ⟨journal, [], rfl, syncing⟩

/-- One more operation harms a frame, or did nothing to it. -/
theorem harmed_concat :
    Harmed (journal ++ [event]) frame ↔ Harmed journal frame ∨ Harms journal frame event := by
  constructor
  · rintro ⟨before, other, after, eq, harms⟩
    rcases List.eq_nil_or_concat after with rfl | ⟨front, last, rfl⟩
    · obtain ⟨rfl, same⟩ := List.append_inj' eq rfl
      cases same
      exact .inr harms
    · rw [List.concat_eq_append, ← List.cons_append, ← List.append_assoc] at eq
      obtain ⟨rfl, -⟩ := List.append_inj' eq rfl
      exact .inl ⟨before, other, front, rfl, harms⟩
  · rintro (⟨before, other, after, rfl, harms⟩ | harms)
    · exact ⟨before, other, after ++ [event], by simp, harms⟩
    · exact ⟨journal, event, [], rfl, harms⟩

end Icegres.Tail
