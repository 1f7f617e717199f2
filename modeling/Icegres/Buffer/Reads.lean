import Icegres.Buffer.View

/-!
# Scans see each statement once

A scan that is not older than what was observed before needs no in-flight reader to be waited
for: forgetting the scans of a run leaves a run of which every version from the observed one on
is readable. Older scans need the generations they lack, so these must not be collected before.
-/

namespace Icegres.Buffer.Sys

variable {rows : Multiset Row} {sys : Sys}

/-- The same system without its scans. -/
def unread (sys : Sys) : Sys :=
  { sys with scans := [] }

/-- Only scans look at the scans. -/
theorem unread_step {action : Action} {after : Sys} (noLoad : ∀ version, action ≠ .scanLoad version)
    (noTake : ∀ index, action ≠ .scanTake index) (taken : sys.step action = some after) :
    sys.unread.step action = some after.unread := by
  cases took taken with
  | @scanLoad version => exact absurd rfl (noLoad version)
  | @scanTake index => exact absurd rfl (noTake index)
  | foreign rows timestamp same =>
      cases same
      rfl
  | expire keepLast => rfl
  | keyed isSeq steps => simp [step, moved, unread, Process.move, isSeq, steps]
  | append does | stray does | take does | durable does | fail does | age does | gc does
  | load does | giveUp does | prepare does | arrive does | answer does | error does
  | resolve does => simp [step, moved, unread, Process.move, does]

/-- Nothing is expired. -/
def Unexpired (_ : Sys) : Action → Prop
  | .expire _ => False
  | _ => True

/-- The runs in which a refused commit does not come back under younger rows of its keys. -/
structure Ordered (sys : Sys) (action : Action) : Prop where
  definite : sys.Definite action
  unexpired : sys.Unexpired action
  apart : sys.RequeuesApart action

/-- Without scans every exact step keeps the staged operations accounted for, whatever is
collected. -/
theorem View.unread_step (view : sys.unread.View rows) {action : Action}
    (definite : sys.Definite action) (apart : sys.RequeuesApart action)
    (expires : sys.ExpiresUnretained action) {after : Sys}
    (taken : sys.step action = some after) : after.unread.View rows := by
  have exact_of (noLoad : ∀ version, action ≠ .scanLoad version)
      (noTake : ∀ index, action ≠ .scanTake index) : after.unread.View rows := by
    refine View.step view ⟨definite, apart, ?_, expires⟩ (Sys.unread_step noLoad noTake taken)
    cases action with
    | gc => exact fun gen mem isExpired version isScan => nomatch isScan
    | _ => trivial
  cases took taken with
  | scanLoad => exact view
  | scanTake isScan found steps =>
      have flow := view.flow.step (by trivial) steps
      cases steps
      refine view.marked ?_ flow (view.versions.observe found)
      rw [List.map_map]
      rfl
  | _ => exact exact_of (by simp) (by simp)

theorem View.unread_run {watermark : Option Nat} {tail : Bool}
    (run : Run Sys.step (fun sys action => sys.Definite action ∧ sys.RequeuesApart action ∧
      sys.ExpiresUnretained action) (initial rows watermark tail) sys) : sys.unread.View rows := by
  have kept (sys : Sys) (action : Action) (after : Sys) (view : sys.unread.View rows)
      (allowed : sys.Definite action ∧ sys.RequeuesApart action ∧ sys.ExpiresUnretained action)
      (taken : sys.step action = some after) : after.unread.View rows :=
    View.unread_step view allowed.1 allowed.2.1 allowed.2.2 taken
  exact @Run.invariant _ _ _ _ (fun sys => sys.unread.View rows) kept _ _
    (view_initial rows watermark tail) run

/-- A version that is not older than the observed one is readable. -/
theorem readable_of_fresh {lake : Lake} {scans : List Nat} {seen version : Nat}
    {metadata : Metadata} (fresh : seen ≤ version)
    (found : lake.versions[version]? = some metadata) : Readable lake scans seen metadata := by
  refine .inl (List.mem_iff_getElem?.mpr ⟨version - seen, ?_⟩)
  rw [List.getElem?_drop, Nat.add_sub_cancel' fresh, found]

theorem Ordered.expires {action : Action} (ordered : sys.Ordered action) :
    sys.ExpiresUnretained action := by
  cases action with
  | expire keepLast => exact ordered.unexpired.elim
  | _ => trivial

/-- A scan that is not older than what was observed before sees every staged statement once, and
so does any other scan as long as no generation it lacks is collected. -/
theorem scan_sees_each_statement_once {watermark : Option Nat} {tail : Bool}
    (run : Run step Ordered (initial rows watermark tail) sys) {version : Nat}
    (isScan : version ∈ sys.scans) {metadata : Metadata}
    (found : sys.lake.versions[version]? = some metadata)
    (timely : sys.seen ≤ version ∨
      Run step (fun sys action => sys.Ordered action ∧ sys.CollectsContained action)
        (initial rows watermark tail) sys) :
    ∃ overlay, (sys.process.window.buf.overlayWith metadata.contains).2 = .ok overlay ∧
      unionRows metadata.rows overlay = applyRowOps sys.ops rows := by
  rcases timely with fresh | collects
  · have view := View.unread_run (run.weaken fun sys action ordered =>
      ⟨ordered.definite, ordered.apart, ordered.expires⟩)
    exact view.sees (readable_of_fresh fresh found)
  · have view := View.run (collects.weaken fun sys action allowed =>
      ⟨allowed.1.definite, allowed.1.apart, allowed.2, allowed.1.expires⟩)
    exact view.sees (.inr ⟨version, isScan, found⟩)

/-- Neither failures nor maintenance, and other writers leave the rows alone. -/
def calm (sys : Sys) : Action → Bool
  | .fail _ | .error _ | .resolve _ | .stray _ | .gc | .expire _ => false
  | .foreign others _ => others = sys.lake.current.rows
  | _ => true

theorem calm_sound {action : Action} (isCalm : sys.calm action = true) :
    sys.Definite action ∧ sys.Unexpired action ∧ sys.CollectsContained action := by
  cases action with
  | fail | error | resolve | stray | gc | expire => cases isCalm
  | foreign others timestamp =>
      have same : others = sys.lake.current.rows := of_decide_eq_true isCalm
      exact ⟨same, trivial, trivial⟩
  | _ => exact ⟨trivial, trivial, trivial⟩

/-- Calm, and no row is pending when an answer arrives. -/
def quiet (sys : Sys) (action : Action) : Bool :=
  sys.calm action && match action with
    | .answer => sys.process.window.buf.pending.isEmpty
    | _ => true

theorem quiet_sound {action : Action} (isQuiet : sys.quiet action = true) :
    sys.Ordered action := by
  obtain ⟨isCalm, noRow⟩ := Bool.and_eq_true_iff.mp isQuiet
  obtain ⟨definite, unexpired, -⟩ := calm_sound isCalm
  refine ⟨definite, unexpired, ?_⟩
  cases action with
  | answer =>
      intro post gen isPost isRefused posted item mem
      right
      rw [List.isEmpty_iff.mp noRow]
      exact fun pb isPending => nomatch isPending
  | _ => trivial

/-- One row of the table. -/
def oldRow : Row := [.int 1, .text "old"]

/-- The row that takes its place. -/
def newRow : Row := [.int 1, .text "new"]

/-- A delete's commit is refused; its key is inserted again before the second attempt lands. -/
def retriedDelete : List Action :=
  [.keyed (byFirstColumn 1 none), .take, .load, .prepare 1, .foreign {oldRow} 2, .arrive, .answer,
   .append [[newRow]], .take, .load, .prepare 3, .arrive, .scanLoad 2]

/-- The scan loads the version the second attempt committed. -/
theorem scan_sees_each_statement_once_retriedDelete :
    let sys := execute step quiet (initial {oldRow} none true) retriedDelete
    2 ∈ sys.scans ∧ ∃ metadata, sys.lake.versions[2]? = some metadata ∧
      ∃ overlay, (sys.process.window.buf.overlayWith metadata.contains).2 = .ok overlay ∧
        unionRows metadata.rows overlay = applyRowOps sys.ops {oldRow} := by
  have isScan : 2 ∈ (execute step quiet (initial {oldRow} none true) retriedDelete).scans := by
    decide +kernel
  have fresh : (execute step quiet (initial {oldRow} none true) retriedDelete).seen ≤ 2 := by
    decide +kernel
  exact ⟨isScan, _, rfl, scan_sees_each_statement_once
    (run_execute (fun _ _ => quiet_sound) _ retriedDelete) isScan rfl (.inl fresh)⟩

/-- The row is deleted and inserted again while the delete's commit is refused. -/
def refusedDelete : List Action :=
  [.keyed (byFirstColumn 1 none), .durable 0, .take, .load, .prepare 1, .append [[newRow]],
   .durable 0, .foreign {oldRow} 2, .arrive, .answer, .scanLoad 1]

/-- Both statements are acknowledged, but the delete came back above the insert and a scan of
the current version sees no row. -/
theorem not_scan_sees_each_statement_once_refusedDelete :
    ∃ sys, Run step (fun sys action => sys.Definite action ∧ sys.Unexpired action ∧
        sys.CollectsContained action) (initial {oldRow} none true) sys ∧
      sys.process.window.waiting.length = 0 ∧
      sys.ops = [.put [0] [.int 1] [], .append newRow] ∧
      applyRowOps sys.ops {oldRow} = {newRow} ∧
      ∃ version ∈ sys.scans, sys.seen ≤ version ∧
        ∃ metadata, sys.lake.versions[version]? = some metadata ∧
        ∃ overlay, (sys.process.window.buf.overlayWith metadata.contains).2 = .ok overlay ∧
          unionRows metadata.rows overlay = 0 :=
  ⟨_, run_execute (fun _ _ => calm_sound) _ refusedDelete, by decide +kernel, by decide +kernel,
    by decide +kernel, 1, by decide +kernel, by decide +kernel, _, rfl, _, rfl, by decide +kernel⟩

end Icegres.Buffer.Sys
