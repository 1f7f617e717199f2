import Icegres.Cache.Lru
import Icegres.Transition

/-!
# The result cache

Results of whole queries, up to a number of bytes. They are captured while they are streamed to
the client: a capture that has seen its stream end without an error is put in, and the entries
used longest ago make room for it. The number of bytes is kept beside the map, and every operation
adjusts it.
-/

namespace Icegres

section Results

variable {Key Batch Schema Table Version : Type}

/-- A result in the cache. -/
structure ResultEntry (Batch Schema Table Version : Type) where
  batches : List Batch
  schema : Schema
  tables : List (Table × Version)
  bytes : Nat

/-- The map with its clock, and the bytes that are counted. -/
structure ResultCache (Key Batch Schema Table Version : Type) where
  inner : Lru Key (ResultEntry Batch Schema Table Version)
  totalBytes : Nat
  budget : Nat
  perResultCap : Nat

/-- A result that is captured: the batches so far, and where they are to be put. -/
structure CachingTee (Key Batch Schema Table Version : Type) where
  acc : List Batch
  bytes : Nat
  cap : Nat
  poisoned : Bool
  inserted : Bool
  key : Key
  schema : Schema
  tables : List (Table × Version)

/-- What a stream answers when it is polled. -/
inductive Poll (Batch : Type) where
  | pending
  | batch (batch : Batch)
  | error
  | done

variable [DecidableEq Key] [DecidableEq Version]

def versionsCurrentWith (tables : List (Table × Version)) (resolve : Table → Option Version) :
    Bool :=
  tables.all fun (table, version) => resolve table = some version

namespace ResultCache

variable (cache : ResultCache Key Batch Schema Table Version)

def withBudget (budget : Nat) : ResultCache Key Batch Schema Table Version :=
  ⟨.empty, 0, budget, budget / 4⟩

/-- Remove an entry and the bytes that it has. -/
def drop (key : Key) (bytes : Nat) : ResultCache Key Batch Schema Table Version :=
  { cache with inner := cache.inner.remove key, totalBytes := cache.totalBytes - bytes }

/-- There is a result whose tables are as they were. -/
def hits (key : Key) (resolve : Table → Option Version) : Bool :=
  cache.budget ≠ 0 &&
    (cache.inner.get? key).any fun entry => versionsCurrentWith entry.tables resolve

/-- Nothing is cached of a disabled cache, an empty or an oversized result, or one of no table. -/
def refuses (entry : ResultEntry Batch Schema Table Version) : Prop :=
  cache.budget = 0 ∨ entry.bytes = 0 ∨ cache.perResultCap < entry.bytes ∨ entry.tables = []

instance (entry : ResultEntry Batch Schema Table Version) : Decidable (cache.refuses entry) :=
  inferInstanceAs (Decidable (_ ∨ _))

/-- A result whose tables are as they were; one whose tables are not is removed. -/
def lookupWith (key : Key) (resolve : Table → Option Version) :
    ResultCache Key Batch Schema Table Version × Option (List Batch × Schema) :=
  if cache.budget = 0 then (cache, none)
  else
    match cache.inner.get? key with
    | none => (cache, none)
    | some entry =>
      if versionsCurrentWith entry.tables resolve then
        ({ cache with inner := cache.inner.touch key }, some (entry.batches, entry.schema))
      else
        (cache.drop key entry.bytes, none)

/-- Make way for an entry of the same key. -/
def without (key : Key) : ResultCache Key Batch Schema Table Version :=
  match cache.inner.get? key with
  | some old => cache.drop key old.bytes
  | none => cache

/-- Remove the entry used longest ago while there are too many bytes: the entries that go, in
their order, and the cache then, or nothing when the rounds are too few. -/
def evict : Nat → ResultCache Key Batch Schema Table Version →
    Option (List (Slot Key (ResultEntry Batch Schema Table Version)) ×
      ResultCache Key Batch Schema Table Version)
  | 0, _ => none
  | rounds + 1, cache =>
    if cache.budget < cache.totalBytes then
      match Lru.leastRecent cache.inner.entries with
      | none => some ([], cache)
      | some lru =>
        (evict rounds (cache.drop lru.key lru.value.bytes)).map fun (gone, last) =>
          (lru :: gone, last)
    else
      some ([], cache)

/-- The entries of the map and one round more are enough rounds. -/
def insert (key : Key) (entry : ResultEntry Batch Schema Table Version) :
    Option (List (Slot Key (ResultEntry Batch Schema Table Version)) ×
      ResultCache Key Batch Schema Table Version) :=
  if cache.refuses entry then
    some ([], cache)
  else
    let freed := cache.without key
    let put : ResultCache Key Batch Schema Table Version :=
      { freed with inner := freed.inner.put key entry, totalBytes := freed.totalBytes + entry.bytes }
    evict (put.inner.entries.length + 1) put

end ResultCache

namespace CachingTee

variable (tee : CachingTee Key Batch Schema Table Version)

/-- What is put in, once. -/
def entry : ResultEntry Batch Schema Table Version :=
  ⟨tee.acc, tee.schema, tee.tables, tee.bytes⟩

/-- Nothing is left to be put in. -/
def isSpent : Prop :=
  tee.inserted ∨ tee.poisoned ∨ tee.acc = []

instance : Decidable tee.isSpent :=
  inferInstanceAs (Decidable (_ ∨ _))

/-- The key whose entry a poll puts in. -/
def used (cache : ResultCache Key Batch Schema Table Version) : Poll Batch → Option Key
  | .done => if tee.isSpent ∨ cache.refuses tee.entry then none else some tee.key
  | _ => none

def store (cache : ResultCache Key Batch Schema Table Version) :
    Option (CachingTee Key Batch Schema Table Version ×
      ResultCache Key Batch Schema Table Version) :=
  if tee.isSpent then some (tee, cache)
  else
    (cache.insert tee.key tee.entry).map fun (_, next) =>
      ({ tee with inserted := true, acc := [] }, next)

/-- A poll of the stream, which is handed on as it is. -/
def pollNext (size : Batch → Nat) (cache : ResultCache Key Batch Schema Table Version) :
    Poll Batch → Option (CachingTee Key Batch Schema Table Version ×
      ResultCache Key Batch Schema Table Version)
  | .batch batch =>
    if tee.poisoned then some (tee, cache)
    else if tee.cap < tee.bytes + size batch then
      some ({ tee with poisoned := true, acc := [], bytes := 0 }, cache)
    else
      some ({ tee with bytes := tee.bytes + size batch, acc := tee.acc ++ [batch] }, cache)
  | .error => some ({ tee with poisoned := true, acc := [] }, cache)
  | .done => tee.store cache
  | .pending => some (tee, cache)

end CachingTee

/-! ## Runs -/

/-- The cache and the captures that are under way. What their streams have answered so far, the
batches that were put in directly, and the keys whose entries were found or put in, newest first,
are kept to compare with. -/
structure Results (Id Key Batch Schema Table Version : Type) where
  cache : ResultCache Key Batch Schema Table Version
  tees : Id → Option (CachingTee Key Batch Schema Table Version)
  polls : Id → List (Poll Batch)
  direct : List (List Batch)
  uses : List Key

inductive ResultsAction (Id Key Batch Schema Table Version : Type) where
  | lookup (key : Key) (resolve : Table → Option Version)
  | insert (key : Key) (entry : ResultEntry Batch Schema Table Version)
  | open (id : Id) (key : Key) (schema : Schema) (tables : List (Table × Version))
  | poll (id : Id) (answer : Poll Batch)
  | drop (id : Id)

namespace Results

variable {Id : Type} [DecidableEq Id]

def start (budget : Nat) : Results Id Key Batch Schema Table Version where
  cache := .withBudget budget
  tees _ := none
  polls _ := []
  direct := []
  uses := []

/-- A stream is not polled again after it has ended. -/
def Ended (polls : List (Poll Batch)) : Prop :=
  ∃ poll ∈ polls, poll matches .done

instance (polls : List (Poll Batch)) : Decidable (Ended polls) :=
  inferInstanceAs (Decidable (∃ poll ∈ polls, _))

variable (size : Batch → Nat) (state : Results Id Key Batch Schema Table Version)

/-- The key whose entry is found or put in. -/
def used : ResultsAction Id Key Batch Schema Table Version → Option Key
  | .lookup key resolve => if state.cache.hits key resolve then some key else none
  | .insert key entry => if state.cache.refuses entry then none else some key
  | .poll id answer => (state.tees id).bind fun tee => tee.used state.cache answer
  | _ => none

def act : ResultsAction Id Key Batch Schema Table Version →
    Option (Results Id Key Batch Schema Table Version)
  | .lookup key resolve => some { state with cache := (state.cache.lookupWith key resolve).1 }
  | .insert key entry =>
    (state.cache.insert key entry).map fun (_, next) =>
      { state with cache := next, direct := entry.batches :: state.direct }
  | .open id key schema tables =>
    if state.cache.budget = 0 ∨ (state.tees id).isSome ∨ state.polls id ≠ [] then none
    else some { state with
      tees := fun other => if other = id then
          some ⟨[], 0, state.cache.perResultCap, false, false, key, schema, tables⟩
        else state.tees other }
  | .poll id answer =>
    match state.tees id with
    | none => none
    | some tee =>
      if Ended (state.polls id) then none
      else
        (tee.pollNext size state.cache answer).map fun (tee, cache) =>
          { state with
            cache := cache
            tees := fun other => if other = id then some tee else state.tees other
            polls := fun other =>
              if other = id then state.polls id ++ [answer] else state.polls other }
  | .drop id => some { state with
      tees := fun other => if other = id then none else state.tees other }

def step (action : ResultsAction Id Key Batch Schema Table Version) :
    Option (Results Id Key Batch Schema Table Version) :=
  (state.act size action).map fun next =>
    { next with uses := (state.used action).toList ++ state.uses }

end Results

end Results

end Icegres
