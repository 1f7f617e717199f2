import Icegres.Lakehouse.Cut
import Mathlib.Data.List.Chain

/-!
# A command reaches every table

The walk over the namespaces reads the catalog in many requests, and other clients change it all
the while. A table that stays where it is, and for which there is always something to do, is found,
loaded, and part of the one transaction.
-/

namespace Icegres.Lakehouse

open Icegres.Catalog
open Icegres.Commit (TableIdent)

variable {Content : Type} {summaryOf : Content → Branch.Summary} {op : WholeOp}

/-- A table and the namespaces that lead to it. -/
structure Home where
  ident : TableIdent
  path : List Namespace

/-- The catalog lists the table at its place, and there is something to do about it. -/
structure Home.Held (summaryOf : Content → Branch.Summary) (op : WholeOp) (home : Home)
    (lake : Lake Content) : Prop where
  distinct : home.path.Nodup
  rooted : ∃ first ∈ home.path.head?, first ∈ lake.namespaces none
  nested : home.path.IsChain fun parent child => child ∈ lake.namespaces (some parent)
  listed : ∃ last ∈ home.path.getLast?, home.ident ∈ lake.listed last
  needed : ∀ metadata ∈ lake.tables home.ident,
    op.part summaryOf home.ident metadata ≠ .skip

/-- The tables stay in place all the while. -/
def Kept (summaryOf : Content → Branch.Summary) (op : WholeOp) (homes : List Home)
    (world : World Content) (_ : Action Content) : Prop :=
  ∀ home ∈ homes, home.Held summaryOf op world.lake

/-! ## The walk -/

/-- The rest of the way to a table starts on the stack, and none of it was visited. -/
def Home.Ahead (home : Home) (visited stack : List Namespace) : Prop :=
  ∃ next back, next :: back <:+ home.path ∧ next ∈ stack ∧
    ∀ namespaceIdent ∈ next :: back, namespaceIdent ∉ visited

/-- The rest of the way to a table starts among the children that are about to be listed. -/
def Home.Below (home : Home) (visited : List Namespace) (within : Namespace) : Prop :=
  ∃ next back, within :: next :: back <:+ home.path ∧
    ∀ namespaceIdent ∈ next :: back, namespaceIdent ∉ visited

/-- A command that has come this far will deal with the table. -/
def Home.Reached (summaryOf : Content → Branch.Summary) (op : WholeOp) (home : Home) :
    Task Content → Prop
  | .starts => True
  | .walks visited stack found => home.ident ∈ found ∨ home.Ahead visited stack
  | .descends visited stack found within =>
      home.ident ∈ found ∨ home.Ahead visited stack ∨ home.Below visited within
  | .loads rest loaded =>
      home.ident ∈ rest ∨ ∃ entry ∈ loaded, entry.1 = home.ident ∧
        op.part summaryOf entry.1 entry.2 ≠ .skip
  | .posts loaded => home.ident ∈ (changes summaryOf op loaded).map Change.ident
  | .done (.ok (taken, _)) => home.ident ∈ taken.map Prod.fst
  | .done (.error _) => True

namespace Home

variable {home : Home} {lake : Lake Content}

/-- The first listing has the start of the way. -/
theorem Held.starts (held : home.Held summaryOf op lake) :
    home.Ahead [] (lake.namespaces none).reverse := by
  obtain ⟨first, isFirst, rooted⟩ := held.rooted
  obtain ⟨back, path⟩ := List.head?_eq_some_iff.mp isFirst
  exact ⟨first, back, path ▸ List.suffix_refl _, List.mem_reverse.mpr rooted,
    fun _ _ => List.not_mem_nil⟩

/-- A namespace that was visited before is not on the way. -/
theorem Ahead.skip {visited rest : List Namespace} {top : Namespace} (seen : top ∈ visited)
    (ahead : home.Ahead visited (top :: rest)) : home.Ahead visited rest := by
  obtain ⟨next, back, suffix, onStack, fresh⟩ := ahead
  rcases List.mem_cons.mp onStack with rfl | later
  · exact absurd seen (fresh _ List.mem_cons_self)
  · exact ⟨next, back, suffix, later, fresh⟩

/-- Visiting a namespace finds the table, comes nearer to it, or leaves the way as it is. -/
theorem Held.visit (held : home.Held summaryOf op lake) {visited rest : List Namespace}
    {top : Namespace} (ahead : home.Ahead visited (top :: rest)) :
    home.ident ∈ lake.listed top ∨ home.Ahead (top :: visited) rest ∨
      home.Below (top :: visited) top := by
  obtain ⟨next, back, suffix, onStack, fresh⟩ := ahead
  by_cases onWay : top ∈ next :: back
  · -- the way may go through the namespace in more than one place of the stack, but only once
    obtain ⟨front, behind, split⟩ := List.append_of_mem onWay
    have below : top :: behind <:+ home.path :=
      (split ▸ List.suffix_append front (top :: behind) :
        top :: behind <:+ next :: back).trans suffix
    cases behind with
    | nil =>
        obtain ⟨last, isLast, listed⟩ := held.listed
        rw [List.singleton_suffix_iff_getLast?_eq_some] at below
        obtain rfl := Option.some.inj (below.symm.trans isLast)
        exact .inl listed
    | cons child others =>
        refine .inr (.inr ⟨child, others, below, fun namespaceIdent isBehind => ?_⟩)
        have once := (List.nodup_cons.mp (held.distinct.sublist below.sublist)).1
        rw [List.mem_cons, not_or]
        exact ⟨fun same => once (same ▸ isBehind),
          fresh _ (split ▸ List.mem_append_right _ (List.mem_cons_of_mem _ isBehind))⟩
  · refine .inr (.inl ⟨next, back, suffix, ?_, fun namespaceIdent isBehind => ?_⟩)
    · rcases List.mem_cons.mp onStack with rfl | later
      · exact absurd List.mem_cons_self onWay
      · exact later
    · rw [List.mem_cons, not_or]
      exact ⟨fun same => onWay (same ▸ isBehind), fresh _ isBehind⟩

/-- The children of a namespace are on the stack, with the one that leads to the table. -/
theorem Held.descend (held : home.Held summaryOf op lake) {visited stack : List Namespace}
    {within : Namespace} (toward : home.Ahead visited stack ∨ home.Below visited within) :
    home.Ahead visited ((lake.namespaces (some within)).reverse ++ stack) := by
  rcases toward with ⟨next, back, suffix, onStack, fresh⟩ | ⟨next, back, suffix, fresh⟩
  · exact ⟨next, back, suffix, List.mem_append_right _ onStack, fresh⟩
  · have child := (List.isChain_cons_cons.mp (held.nested.suffix suffix)).1
    exact ⟨next, back, (List.suffix_cons within _).trans suffix,
      List.mem_append_left _ (List.mem_reverse.mpr child), fresh⟩

end Home

/-! ## A run -/

theorem mem_sortByText {ident : TableIdent} {idents : List TableIdent} :
    ident ∈ sortByText idents ↔ ident ∈ idents :=
  (List.perm_insertionSort _ _).mem_iff

/-- When the command goes on, what is not skipped is changed. -/
theorem WholeOp.part_of_decision {loaded : List (TableIdent × Metadata Content)}
    (decision : op.decision summaryOf loaded = .ok ()) {entry : TableIdent × Metadata Content}
    (isLoaded : entry ∈ loaded) (needed : op.part summaryOf entry.1 entry.2 ≠ .skip) :
    entry.1 ∈ (changes summaryOf op loaded).map Change.ident := by
  cases part : op.part summaryOf entry.1 entry.2 with
  | change request head =>
      refine List.mem_map.mpr ⟨⟨entry.1, request, head⟩, ?_, rfl⟩
      exact List.mem_filterMap.mpr ⟨entry, isLoaded, by simp [part]⟩
  | skip => exact absurd part needed
  | conflict report =>
      have isConflict : entry.1 ∈ conflicts summaryOf op loaded :=
        List.mem_filterMap.mpr ⟨entry, isLoaded, by simp [part]⟩
      cases op with
      | createAll name =>
          simp only [WholeOp.part] at part
          split at part <;> cases part
      | dropAll name =>
          simp only [WholeOp.part] at part
          split at part <;> cases part
      | merge source target =>
          simp only [WholeOp.decision] at decision
          split at decision
          · cases decision
          · split at decision
            · cases decision
            · split at decision
              · rename_i none
                rw [List.isEmpty_iff.mp none] at isConflict
                cases isConflict
              · cases decision

theorem Home.Reached.decided {home : Home} {loaded : List (TableIdent × Metadata Content)}
    (reached : home.Reached summaryOf op (.loads [] loaded)) :
    home.Reached summaryOf op (decided summaryOf op loaded) := by
  obtain ⟨entry, isLoaded, same, needed⟩ := reached.resolve_left List.not_mem_nil
  unfold Lakehouse.decided
  split
  · trivial
  · rename_i decision
    have changed := WholeOp.part_of_decision decision isLoaded needed
    split
    · rename_i none
      rw [List.isEmpty_iff.mp none] at changed
      cases changed
    · rw [same] at changed
      exact changed

/-- Every answer that is read brings the command nearer to the table. -/
theorem Home.Reached.read {home : Home} {world next : World Content}
    (held : home.Held summaryOf op world.lake) (reached : home.Reached summaryOf op world.task)
    (taken : world.read summaryOf op = some next) : home.Reached summaryOf op next.task := by
  unfold World.read at taken
  cases task : world.task with
  | starts =>
      simp only [task] at taken
      split at taken
      · cases taken
        trivial
      · cases taken
        exact .inr held.starts
  | walks visited stack found =>
      rw [task] at reached
      cases stack with
      | nil =>
          simp only [task] at taken
          cases taken
          rcases reached with isFound | ⟨next, back, -, onStack, -⟩
          · exact .inl (mem_sortByText.mpr isFound)
          · cases onStack
      | cons top rest =>
          simp only [task] at taken
          split at taken
          · rename_i seen
            cases taken
            exact reached.imp_right (Ahead.skip seen)
          · cases taken
            rcases reached with isFound | ahead
            · exact .inl (List.mem_append_left _ isFound)
            · exact (held.visit ahead).imp_left (List.mem_append_right _)
  | descends visited stack found within =>
      rw [task] at reached
      simp only [task] at taken
      cases taken
      exact reached.imp_right held.descend
  | loads rest loaded =>
      rw [task] at reached
      cases rest with
      | nil =>
          simp only [task] at taken
          cases taken
          exact reached.decided
      | cons ident rest =>
          simp only [task] at taken
          split at taken
          · cases taken
            trivial
          · rename_i metadata found
            cases taken
            rcases reached with onList | ⟨entry, isLoaded, is⟩
            · rcases List.mem_cons.mp onList with rfl | later
              · exact .inr ⟨(home.ident, metadata), List.mem_append_right _ List.mem_cons_self,
                  rfl, held.needed metadata found⟩
              · exact .inl later
            · exact .inr ⟨entry, List.mem_append_left _ isLoaded, is⟩
  | posts loaded => simp [task] at taken
  | done result => simp [task] at taken

/-- A cut that takes every table of the list. -/
structure Whole (op : WholeOp) (homes : List Home) (before after : Lake Content)
    (taken : List (TableIdent × Int)) : Prop extends Cut op before after taken where
  complete : ∀ home ∈ homes, home.ident ∈ taken.map Prod.fst

/-- Nothing lands before the end, and then it is the whole cut that the client is told of. -/
def World.Settled (op : WholeOp) (homes : List Home) (world : World Content) : Prop :=
  match world.task with
  | .done (.ok (taken, _)) =>
      (taken = [] ∧ homes = [] ∧ world.landed = none) ∨
        ∃ before after, world.landed = some (before, after) ∧ Whole op homes before after taken
  | .done (.error _) =>
      ∀ before after, world.landed = some (before, after) →
        ∃ taken, Whole op homes before after taken
  | _ => world.landed = none

section Run

variable {homes : List Home} {world next : World Content}

def Reaches (summaryOf : Content → Branch.Summary) (op : WholeOp) (homes : List Home)
    (task : Task Content) : Prop :=
  ∀ home ∈ homes, home.Reached summaryOf op task

/-- While the command has not ended, nothing has landed. -/
theorem World.Settled.landed_of_running (settled : world.Settled op homes)
    (running : ∀ result, world.task ≠ .done result) : world.landed = none := by
  unfold World.Settled at settled
  split at settled
  · rename_i ended
    exact absurd ended (running _)
  · rename_i ended
    exact absurd ended (running _)
  · exact settled

/-- A command that goes on without posting stays as it was, or ends with nothing to do. -/
theorem World.Settled.goes (settled : world.Settled op homes)
    (running : ∀ result, world.task ≠ .done result) {task : Task Content}
    (idle : ∀ taken skips, task = .done (.ok (taken, skips)) → taken = [])
    (reaches : Reaches summaryOf op homes task) : (world.goes task).Settled op homes := by
  have unlanded := settled.landed_of_running running
  cases task with
  | done result =>
      cases result with
      | error error =>
          intro before after landed
          cases landed.symm.trans unlanded
      | ok result =>
          obtain ⟨taken, skips⟩ := result
          obtain rfl := idle taken skips rfl
          refine .inl ⟨rfl, List.eq_nil_iff_forall_not_mem.mpr fun home isHome => ?_, unlanded⟩
          cases reaches home isHome
  | starts => exact unlanded
  | walks visited stack found => exact unlanded
  | descends visited stack found within => exact unlanded
  | loads rest loaded => exact unlanded
  | posts loaded => exact unlanded

theorem decided_idle {loaded : List (TableIdent × Metadata Content)}
    {taken : List (TableIdent × Int)} {skips : List TableIdent}
    (is : decided summaryOf op loaded = .done (.ok (taken, skips))) : taken = [] := by
  unfold decided at is
  split at is
  · cases is
  · split at is
    · cases is
      rfl
    · cases is

/-- An answer that is read makes no change, and ends the command only with none to make. -/
theorem World.read_cases (taken : world.read summaryOf op = some next) :
    (∀ result, world.task ≠ .done result) ∧ ∃ task, next = world.goes task ∧
      ∀ changed skips, task = .done (.ok (changed, skips)) → changed = [] := by
  unfold World.read at taken
  cases task : world.task with
  | starts =>
      simp only [task] at taken
      refine ⟨by rintro _ ⟨⟩, ?_⟩
      split at taken
      · exact ⟨_, (Option.some.inj taken).symm, by rintro _ _ ⟨⟩⟩
      · exact ⟨_, (Option.some.inj taken).symm, by rintro _ _ ⟨⟩⟩
  | walks visited stack found =>
      simp only [task] at taken
      refine ⟨by rintro _ ⟨⟩, ?_⟩
      split at taken
      · exact ⟨_, (Option.some.inj taken).symm, by rintro _ _ ⟨⟩⟩
      · split at taken
        · exact ⟨_, (Option.some.inj taken).symm, by rintro _ _ ⟨⟩⟩
        · exact ⟨_, (Option.some.inj taken).symm, by rintro _ _ ⟨⟩⟩
  | descends visited stack found within =>
      simp only [task] at taken
      exact ⟨by rintro _ ⟨⟩, _, (Option.some.inj taken).symm, by rintro _ _ ⟨⟩⟩
  | loads rest loaded =>
      simp only [task] at taken
      refine ⟨by rintro _ ⟨⟩, ?_⟩
      split at taken
      · exact ⟨_, (Option.some.inj taken).symm, fun _ _ ended => decided_idle ended⟩
      · split at taken
        · exact ⟨_, (Option.some.inj taken).symm, by rintro _ _ ⟨⟩⟩
        · exact ⟨_, (Option.some.inj taken).symm, by rintro _ _ ⟨⟩⟩
  | posts loaded => simp [task] at taken
  | done result => simp [task] at taken

theorem fails_cases {error : String}
    (taken : step summaryOf op world (.fails error) = some next) :
    (∀ result, world.task ≠ .done result) ∧ next = world.goes (.done (.error error)) := by
  unfold step at taken
  dsimp only at taken
  split at taken
  · cases taken
  · cases taken
  · exact ⟨‹_›, (Option.some.inj taken).symm⟩

theorem posts_cases {supported : Bool} {reply : Commit.Reply}
    (taken : step summaryOf op world (.posts supported reply) = some next) :
    ∃ loaded, world.task = .posts loaded ∧
      next = world.post summaryOf op loaded supported reply := by
  unfold step at taken
  dsimp only at taken
  split at taken
  · exact ⟨_, ‹_›, (Option.some.inj taken).symm⟩
  · cases taken

/-- The post makes the whole cut or no change. -/
theorem World.Settled.post (settled : world.Settled op homes)
    {loaded : List (TableIdent × Metadata Content)} (posts : world.task = .posts loaded)
    (reaches : Reaches summaryOf op homes world.task) (supported : Bool) (reply : Commit.Reply) :
    (world.post summaryOf op loaded supported reply).Settled op homes ∧
      Reaches summaryOf op homes (world.post summaryOf op loaded supported reply).task := by
  have running : ∀ result, world.task ≠ .done result := by
    rw [posts]
    rintro _ ⟨⟩
  have fails (error : String) : (world.goes (.done (.error error))).Settled op homes ∧
      Reaches summaryOf op homes (world.goes (.done (.error error))).task :=
    have ends : Reaches summaryOf op homes (.done (.error error)) := fun _ _ => trivial
    ⟨settled.goes running (by rintro _ _ ⟨⟩) ends, ends⟩
  have complete : ∀ home ∈ homes, home.ident ∈ ((changes summaryOf op loaded).map fun change =>
      (change.ident, change.head)).map Prod.fst := by
    intro home isHome
    have reached := reaches home isHome
    rw [posts] at reached
    rw [List.map_map]
    exact reached
  unfold World.post
  dsimp only
  split
  · exact fails _
  · split
    · exact fails _
    · split
      · exact fails _
      · rename_i after committed
        refine ⟨fun before later landed => ?_, fun _ _ => trivial⟩
        cases landed
        exact ⟨_, ⟨cut_of_commitAll committed, complete⟩⟩
    · split
      · exact fails _
      · rename_i after committed
        exact ⟨.inr ⟨world.lake, after, rfl, cut_of_commitAll committed, complete⟩, complete⟩

theorem step_settled {action : Action Content} (kept : Kept summaryOf op homes world action)
    (both : world.Settled op homes ∧ Reaches summaryOf op homes world.task)
    (taken : step summaryOf op world action = some next) :
    next.Settled op homes ∧ Reaches summaryOf op homes next.task := by
  obtain ⟨settled, reaches⟩ := both
  cases action with
  | foreign lake =>
      cases taken
      exact ⟨settled, reaches⟩
  | reads =>
      have further : Reaches summaryOf op homes next.task := fun home isHome =>
        (reaches home isHome).read (kept home isHome) taken
      obtain ⟨running, task, rfl, idle⟩ := World.read_cases taken
      exact ⟨settled.goes running idle further, further⟩
  | fails error =>
      have ends : Reaches summaryOf op homes (.done (.error error)) := fun _ _ => trivial
      obtain ⟨running, rfl⟩ := fails_cases taken
      exact ⟨settled.goes running (by rintro _ _ ⟨⟩) ends, ends⟩
  | posts supported reply =>
      obtain ⟨loaded, posts, rfl⟩ := posts_cases taken
      exact settled.post posts reaches supported reply

/-- The answer to a post is not lost. -/
def Answered (_ : World Content) : Action Content → Prop
  | .posts _ (.failsAfter _) => False
  | _ => True

/-- Without success, nothing has landed. -/
def World.Honest (world : World Content) : Prop :=
  (∀ result, world.task ≠ .done (.ok result)) → world.landed = none

theorem World.Honest.goes (honest : world.Honest) (running : ∀ result, world.task ≠ .done result)
    (task : Task Content) : (world.goes task).Honest :=
  fun _ => honest fun result => running (.ok result)

theorem step_honest {action : Action Content} (honest : world.Honest)
    (answered : Answered world action) (taken : step summaryOf op world action = some next) :
    next.Honest := by
  cases action with
  | foreign lake =>
      cases taken
      exact honest
  | reads =>
      obtain ⟨running, task, rfl, -⟩ := World.read_cases taken
      exact honest.goes running task
  | fails error =>
      obtain ⟨running, rfl⟩ := fails_cases taken
      exact honest.goes running _
  | posts supported reply =>
      obtain ⟨loaded, posts, rfl⟩ := posts_cases taken
      have running : ∀ result, world.task ≠ .done result := by
        rw [posts]
        rintro _ ⟨⟩
      unfold World.post
      dsimp only
      split
      · exact honest.goes running _
      · split
        · exact honest.goes running _
        · exact absurd answered not_false
        · split
          · exact honest.goes running _
          · exact fun refused => absurd rfl (refused _)

end Run

/-- Whatever other clients do between its requests, a command changes the catalog at once and on
every table it reports: tables that stay in place and need it are all among these, and each was
changed from what it was just then, in the one reference. An error means that nothing was changed
or that the answer to the post was lost, and then the change is as whole as with the answer. -/
theorem command_whole (summaryOf : Content → Branch.Summary) (op : WholeOp) (homes : List Home)
    {lake : Lake Content} {world : World Content}
    (run : Run (step summaryOf op) (Kept summaryOf op homes) (World.init lake) world) :
    (∀ taken skips, world.task = .done (.ok (taken, skips)) →
      (taken = [] ∧ homes = [] ∧ world.landed = none) ∨
        ∃ before after, world.landed = some (before, after) ∧ Whole op homes before after taken) ∧
    (∀ before after, world.landed = some (before, after) →
      ∃ taken, Whole op homes before after taken) ∧
    (Run (step summaryOf op) Answered (World.init lake) world →
      ∀ error, world.task = .done (.error error) → world.landed = none) := by
  have kept : ∀ state action next,
      state.Settled op homes ∧ Reaches summaryOf op homes state.task →
      Kept summaryOf op homes state action → step summaryOf op state action = some next →
      next.Settled op homes ∧ Reaches summaryOf op homes next.task :=
    fun _ _ _ both kept taken => step_settled kept both taken
  have starts : (World.init lake).Settled op homes ∧
      Reaches summaryOf op homes (World.init lake).task := ⟨rfl, fun _ _ => trivial⟩
  obtain ⟨settled, -⟩ := run.invariant kept starts
  refine ⟨fun taken skips ended => ?_, fun before after landed => ?_, fun answered error ended => ?_⟩
  · unfold World.Settled at settled
    rw [ended] at settled
    exact settled
  · unfold World.Settled at settled
    split at settled
    · rcases settled with ⟨-, -, none⟩ | ⟨_, _, same, whole⟩
      · cases landed.symm.trans none
      · cases landed.symm.trans same
        exact ⟨_, whole⟩
    · exact settled before after landed
    · cases landed.symm.trans settled
  · have honest := answered.invariant (fun _ _ _ => step_honest) (fun _ => rfl)
    exact honest fun result ok => by cases ended.symm.trans ok

/-! ## A branch of two tables -/

instance (part : Part Content) : Decidable (part = .skip) :=
  match part with
  | .skip => isTrue rfl
  | .change _ _ => isFalse (by simp)
  | .conflict _ => isFalse (by simp)

instance (home : Home) (lake : Lake Content) : Decidable (home.Held summaryOf op lake) :=
  decidable_of_iff
    (home.path.Nodup ∧ (∃ first ∈ home.path.head?, (lake.namespaces none).contains first) ∧
      home.path.IsChain (fun parent child => (lake.namespaces (some parent)).contains child) ∧
      (∃ last ∈ home.path.getLast?, (lake.listed last).contains home.ident) ∧
      ∀ metadata ∈ lake.tables home.ident, op.part summaryOf home.ident metadata ≠ .skip) (by
    simp only [List.contains_iff_mem]
    exact ⟨fun held => ⟨held.1, held.2.1, held.2.2.1, held.2.2.2.1, held.2.2.2.2⟩,
      fun held => ⟨held.distinct, held.rooted, held.nested, held.listed, held.needed⟩⟩)

instance (homes : List Home) (world : World Content) (action : Action Content) :
    Decidable (Kept summaryOf op homes world action) :=
  inferInstanceAs (Decidable (∀ home ∈ homes, home.Held summaryOf op world.lake))

def trips : TableIdent := ⟨["demo"], "trips"⟩

def zones : TableIdent := ⟨["demo", "eu"], "zones"⟩

/-- A namespace with one below it, and a table in each. -/
def twoTables (tripsHead : Int) : Lake Unit where
  namespaces
    | none => [["demo"]]
    | some ["demo"] => [["demo", "eu"]]
    | some _ => []
  listed
    | ["demo"] => [trips]
    | ["demo", "eu"] => [zones]
    | _ => []
  tables ident :=
    if ident = trips then some ⟨"t", [⟨tripsHead, none, 0, ()⟩], [("main", ⟨tripsHead, .branch⟩)]⟩
    else if ident = zones then some ⟨"z", [⟨7, none, 0, ()⟩], [("main", ⟨7, .branch⟩)]⟩
    else none

def noSummary (_ : Unit) : Branch.Summary := ⟨none, none⟩

def twoHomes : List Home :=
  [⟨trips, [["demo"]]⟩, ⟨zones, [["demo"], ["demo", "eu"]]⟩]

/-- Rows are written to the first table while the command walks. -/
def branchedAfterWrite : World Unit :=
  execute (step noSummary (.createAll "cut"))
    (fun world action => decide (Kept noSummary (.createAll "cut") twoHomes world action))
    (World.init (twoTables 1))
    [.reads, .reads, .foreign (twoTables 2), .reads, .reads, .reads, .reads, .reads, .reads, .reads,
      .posts true .answered]

/-- What the client is told of a success. -/
def World.reported (world : World Content) : Option (List (TableIdent × Int) × List TableIdent) :=
  match world.task with
  | .done (.ok result) => some result
  | _ => none

theorem World.task_of_reported {world : World Content}
    {result : List (TableIdent × Int) × List TableIdent} (is : world.reported = some result) :
    world.task = .done (.ok result) := by
  unfold World.reported at is
  split at is
  · rename_i ended
    rw [ended, Option.some.inj is]
  · cases is

theorem command_whole_afterWrite : ∃ before after,
    branchedAfterWrite.landed = some (before, after) ∧
      Whole (.createAll "cut") twoHomes before after [(zones, 7), (trips, 2)] := by
  have run : Run (step noSummary (.createAll "cut")) (Kept noSummary (.createAll "cut") twoHomes)
      (World.init (twoTables 1)) branchedAfterWrite :=
    run_execute (fun _ _ checked => of_decide_eq_true checked) _ _
  have ended : branchedAfterWrite.task = .done (.ok ([(zones, 7), (trips, 2)], [])) :=
    World.task_of_reported (by decide +kernel)
  obtain ⟨told, -, -⟩ := command_whole noSummary (.createAll "cut") twoHomes run
  rcases told _ _ ended with ⟨none, -, -⟩ | landed
  · cases none
  · exact landed

end Icegres.Lakehouse
