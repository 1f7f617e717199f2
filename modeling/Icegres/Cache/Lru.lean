import Mathlib.Algebra.Ring.Nat
import Mathlib.Data.List.Basic

/-!
# A bounded store that evicts the entry used longest ago

The weight of the entries never exceeds the limit after an insertion: entries are removed, the one
used longest ago first, until they fit. The store never makes up an entry, so what holds of every
value that was put in holds of every value that is found.
-/

namespace Icegres

structure Slot (Key Value : Type) where
  key : Key
  value : Value
  lastUsed : Nat

structure Lru (Key Value : Type) where
  entries : List (Slot Key Value)
  clock : Nat

namespace Lru

variable {Key Value : Type} [DecidableEq Key]

def empty : Lru Key Value :=
  ⟨[], 0⟩

def get? (store : Lru Key Value) (key : Key) : Option Value :=
  (store.entries.find? fun slot => slot.key = key).map Slot.value

def remove (store : Lru Key Value) (key : Key) : Lru Key Value :=
  { store with entries := store.entries.filter fun slot => slot.key ≠ key }

/-- The entry of a key was used. -/
def touch (store : Lru Key Value) (key : Key) : Lru Key Value where
  entries := store.entries.map fun slot =>
    if slot.key = key then { slot with lastUsed := store.clock + 1 } else slot
  clock := store.clock + 1

/-- The entry used longest ago. -/
def leastRecent : List (Slot Key Value) → Option (Slot Key Value)
  | [] => none
  | slot :: rest =>
      match leastRecent rest with
      | none => some slot
      | some other => some (if slot.lastUsed ≤ other.lastUsed then slot else other)

def total (weight : Value → Nat) (store : Lru Key Value) : Nat :=
  (store.entries.map fun slot => weight slot.value).sum

/-- Remove the entry used longest ago while the store is over its limit. Each round removes an
entry, so as many rounds as there are entries are enough. -/
def evict (weight : Value → Nat) (limit : Nat) : Nat → Lru Key Value → Lru Key Value
  | 0, store => store
  | rounds + 1, store =>
      if store.total weight ≤ limit then store
      else
        match leastRecent store.entries with
        | none => store
        | some slot => evict weight limit rounds (store.remove slot.key)

def insert (weight : Value → Nat) (limit : Nat) (store : Lru Key Value) (key : Key)
    (value : Value) : Lru Key Value :=
  let put : Lru Key Value :=
    ⟨⟨key, value, store.clock + 1⟩ :: (store.remove key).entries, store.clock + 1⟩
  evict weight limit put.entries.length put

/-! ## What is found was put in -/

/-- Every value of the store has the property. -/
def All (holds : Value → Prop) (store : Lru Key Value) : Prop :=
  ∀ slot ∈ store.entries, holds slot.value

variable {holds : Value → Prop} {store : Lru Key Value}

omit [DecidableEq Key] in
theorem all_empty : (empty : Lru Key Value).All holds := by
  intro slot inside
  cases inside

theorem All.get? (all : store.All holds) {key : Key} {value : Value}
    (found : store.get? key = some value) : holds value := by
  obtain ⟨slot, isSlot, rfl⟩ := Option.map_eq_some_iff.mp found
  exact all slot (List.mem_of_find?_eq_some isSlot)

theorem All.remove (all : store.All holds) (key : Key) : (store.remove key).All holds := by
  intro slot inside
  exact all slot (List.mem_filter.mp inside).1

theorem All.touch (all : store.All holds) (key : Key) : (store.touch key).All holds := by
  intro slot inside
  obtain ⟨before, isBefore, rfl⟩ := List.mem_map.mp inside
  split
  · exact all before isBefore
  · exact all before isBefore

theorem All.evict (weight : Value → Nat) (limit rounds : Nat) (all : store.All holds) :
    (Lru.evict weight limit rounds store).All holds := by
  induction rounds generalizing store with
  | zero => exact all
  | succ rounds ih =>
      rw [Lru.evict]
      split
      · exact all
      · split
        · exact all
        · exact ih (all.remove _)

theorem All.insert (weight : Value → Nat) (limit : Nat) (all : store.All holds) {key : Key}
    {value : Value} (new : holds value) : (store.insert weight limit key value).All holds := by
  refine All.evict weight limit _ ?_
  intro slot inside
  rcases List.mem_cons.mp inside with rfl | older
  · exact new
  · exact all.remove key slot older

/-! ## The limit -/

omit [DecidableEq Key] in
theorem leastRecent_mem {slots : List (Slot Key Value)} {slot : Slot Key Value}
    (least : leastRecent slots = some slot) : slot ∈ slots := by
  induction slots generalizing slot with
  | nil => cases least
  | cons first rest ih =>
      rw [leastRecent] at least
      split at least
      · cases least
        exact List.mem_cons_self
      · rename_i other isOther
        cases least
        split
        · exact List.mem_cons_self
        · exact List.mem_cons_of_mem _ (ih isOther)

omit [DecidableEq Key] in
theorem leastRecent_eq_none {slots : List (Slot Key Value)} (none' : leastRecent slots = none) :
    slots = [] := by
  cases slots with
  | nil => rfl
  | cons first rest =>
      rw [leastRecent] at none'
      split at none' <;> cases none'

theorem length_remove_lt {slot : Slot Key Value} (inside : slot ∈ store.entries) :
    (store.remove slot.key).entries.length < store.entries.length := by
  refine List.length_filter_lt_length_iff_exists.mpr ⟨slot, inside, ?_⟩
  simp

/-! ## Keys and times -/

/-- No two entries share a key or the time of their last use, and the clock is at the last time. -/
structure Ordered (store : Lru Key Value) : Prop where
  distinct : store.entries.Pairwise fun slot other =>
    slot.key ≠ other.key ∧ slot.lastUsed ≠ other.lastUsed
  past : ∀ slot ∈ store.entries, slot.lastUsed ≤ store.clock

omit [DecidableEq Key] in
theorem ordered_empty : (empty : Lru Key Value).Ordered where
  distinct := List.Pairwise.nil
  past _ inside := nomatch inside

theorem Ordered.remove (ordered : store.Ordered) (key : Key) : (store.remove key).Ordered where
  distinct := ordered.distinct.filter _
  past slot inside := ordered.past slot (List.mem_filter.mp inside).1

theorem Ordered.touch (ordered : store.Ordered) (key : Key) : (store.touch key).Ordered where
  distinct := by
    refine List.pairwise_map.mpr (ordered.distinct.imp_of_mem ?_)
    intro slot other isSlot isOther ⟨keys, times⟩
    have old := ordered.past slot isSlot
    have old' := ordered.past other isOther
    split <;> split <;> simp_all <;> omega
  past slot inside := by
    obtain ⟨before, isBefore, rfl⟩ := List.mem_map.mp inside
    have old := ordered.past before isBefore
    change _ ≤ store.clock + 1
    split
    · exact Nat.le_refl _
    · omega

/-- A new entry takes the place of the one under its key. -/
def put (store : Lru Key Value) (key : Key) (value : Value) : Lru Key Value :=
  ⟨⟨key, value, store.clock + 1⟩ :: (store.remove key).entries, store.clock + 1⟩

theorem Ordered.put (ordered : store.Ordered) (key : Key) (value : Value) :
    (store.put key value).Ordered where
  distinct := by
    refine List.pairwise_cons.mpr ⟨fun other isOther => ?_, (ordered.remove key).distinct⟩
    have old := (ordered.remove key).past other isOther
    have apart : other.key ≠ key := by simpa using (List.mem_filter.mp isOther).2
    change other.lastUsed ≤ store.clock at old
    exact ⟨apart.symm, by dsimp only; omega⟩
  past slot inside := by
    rcases List.mem_cons.mp inside with rfl | older
    · exact Nat.le_refl _
    · have old := (ordered.remove key).past slot older
      change slot.lastUsed ≤ store.clock at old
      change slot.lastUsed ≤ store.clock + 1
      omega

/-- Removing an entry leaves all others. -/
theorem Ordered.perm_remove (ordered : store.Ordered) {slot : Slot Key Value}
    (inside : slot ∈ store.entries) :
    store.entries.Perm (slot :: (store.remove slot.key).entries) := by
  obtain ⟨before, after, isEntries⟩ := List.append_of_mem inside
  have apart := ordered.distinct
  rw [isEntries, List.pairwise_append, List.pairwise_cons] at apart
  have others : (store.remove slot.key).entries = before ++ after := by
    rw [Lru.remove, isEntries, List.filter_append, List.filter_cons_of_neg (by simp)]
    dsimp only
    congr 1
    · refine List.filter_eq_self.mpr fun other isOther => ?_
      simpa using (apart.2.2 other isOther slot List.mem_cons_self).1
    · refine List.filter_eq_self.mpr fun other isOther => ?_
      simpa using (apart.2.1.1 other isOther).1.symm
  rw [others, isEntries]
  exact List.perm_middle

omit [DecidableEq Key] in
theorem leastRecent_le {slots : List (Slot Key Value)} {slot : Slot Key Value}
    (least : leastRecent slots = some slot) : ∀ other ∈ slots, slot.lastUsed ≤ other.lastUsed := by
  induction slots generalizing slot with
  | nil => cases least
  | cons first rest ih =>
      rw [leastRecent] at least
      split at least
      · next none' =>
        cases least
        rw [leastRecent_eq_none none']
        simp
      · next other isOther =>
        cases least
        have others := ih isOther
        intro last mem
        rcases List.mem_cons.mp mem with rfl | later
        · split <;> omega
        · have bound := others last later
          split <;> omega

theorem mem_of_get? {key : Key} {value : Value} (found : store.get? key = some value) :
    ∃ slot ∈ store.entries, slot.key = key ∧ slot.value = value := by
  obtain ⟨slot, isSlot, isValue⟩ := Option.map_eq_some_iff.mp found
  exact ⟨slot, List.mem_of_find?_eq_some isSlot, by simpa using List.find?_some isSlot, isValue⟩

theorem remove_of_get?_eq_none {key : Key} (missing : store.get? key = none) :
    (store.remove key).entries = store.entries := by
  refine List.filter_eq_self.mpr fun slot inside => ?_
  have none' := List.find?_eq_none.mp (Option.map_eq_none_iff.mp missing) slot inside
  simpa using none'

/-! ## The order of the uses -/

/-- The key was last used before the other one. The uses are listed newest first. -/
def UsedBefore (uses : List Key) (first second : Key) : Prop :=
  uses.idxOf second < uses.idxOf first

/-- The times of the entries are in the order of the uses. -/
def Follows (store : Lru Key Value) (uses : List Key) : Prop :=
  ∀ slot ∈ store.entries, ∀ other ∈ store.entries, slot.lastUsed < other.lastUsed →
    UsedBefore uses slot.key other.key

theorem follows_empty (uses : List Key) : (empty : Lru Key Value).Follows uses :=
  fun _ inside => nomatch inside

theorem Follows.subset {next : Lru Key Value} {uses : List Key} (follows : store.Follows uses)
    (inside : ∀ slot ∈ next.entries, slot ∈ store.entries) : next.Follows uses :=
  fun slot isSlot other isOther => follows slot (inside slot isSlot) other (inside other isOther)

/-- A use makes the entry of its key the newest one, and leaves every other entry. -/
theorem Follows.use {next : Lru Key Value} {uses : List Key} (follows : store.Follows uses)
    (ordered : store.Ordered) {key : Key}
    (uses' : ∀ slot ∈ next.entries, slot.key = key ∧ slot.lastUsed = store.clock + 1 ∨
      slot.key ≠ key ∧ slot ∈ store.entries) : next.Follows (key :: uses) := by
  intro slot isSlot other isOther older
  obtain ⟨-, newest⟩ | ⟨apart, wasSlot⟩ := uses' slot isSlot
  · obtain ⟨-, same⟩ | ⟨-, wasOther⟩ := uses' other isOther
    · omega
    · have := ordered.past other wasOther
      omega
  · obtain ⟨isKey, -⟩ | ⟨apart', wasOther⟩ := uses' other isOther
    · rw [UsedBefore, isKey, List.idxOf_cons_self, List.idxOf_cons_ne _ apart.symm]
      exact Nat.succ_pos _
    · rw [UsedBefore, List.idxOf_cons_ne _ apart.symm, List.idxOf_cons_ne _ apart'.symm]
      exact Nat.succ_lt_succ (follows slot wasSlot other wasOther older)

theorem Follows.touch {uses : List Key} (follows : store.Follows uses) (ordered : store.Ordered)
    (key : Key) : (store.touch key).Follows (key :: uses) := by
  refine follows.use ordered fun slot inside => ?_
  obtain ⟨before, isBefore, rfl⟩ := List.mem_map.mp inside
  split
  · next own => exact .inl ⟨own, rfl⟩
  · next apart => exact .inr ⟨apart, isBefore⟩

theorem Follows.put {uses : List Key} (follows : store.Follows uses) (ordered : store.Ordered)
    (key : Key) (value : Value) : (store.put key value).Follows (key :: uses) := by
  refine follows.use ordered fun slot inside => ?_
  rcases List.mem_cons.mp inside with rfl | older
  · exact .inl ⟨rfl, rfl⟩
  · obtain ⟨wasSlot, apart⟩ := List.mem_filter.mp older
    exact .inr ⟨by simpa using apart, wasSlot⟩

/-! ## The weight of the entries -/

variable (weight : Value → Nat)

theorem Ordered.total_remove (ordered : store.Ordered) {slot : Slot Key Value}
    (inside : slot ∈ store.entries) :
    store.total weight = weight slot.value + (store.remove slot.key).total weight := by
  have same := ((ordered.perm_remove inside).map fun slot => weight slot.value).sum_nat
  rwa [List.map_cons, List.sum_cons] at same

theorem total_touch (key : Key) : (store.touch key).total weight = store.total weight := by
  simp only [total, touch, List.map_map]
  congr 1
  refine List.map_congr_left fun slot _ => ?_
  simp only [Function.comp_apply]
  split <;> rfl

theorem total_put (key : Key) (value : Value) :
    (store.put key value).total weight = weight value + (store.remove key).total weight :=
  rfl

end Lru

end Icegres
