import Icegres.Cache.Results

/-!
# The accounts of the result cache

In every run the counted bytes are those of the entries and stay within the budget, eviction
removes the entries used longest ago and no more than it must, and what was captured is a whole
result.
-/

namespace Icegres

variable {Key Batch Schema Table Version : Type}

namespace ResultCache

/-! ## One operation -/

/-- The bytes that are counted are those of the entries. -/
structure Counted (cache : ResultCache Key Batch Schema Table Version) : Prop where
  ordered : cache.inner.Ordered
  counted : cache.totalBytes = cache.inner.total ResultEntry.bytes

/-- The bytes of entries that were removed. -/
def bytesOf (slots : List (Slot Key (ResultEntry Batch Schema Table Version))) : Nat :=
  (slots.map fun slot => slot.value.bytes).sum

/-- The entries that were evicted: in the order of their last use and before every other entry's,
and none while the rest was within the budget. -/
structure Evicts (cache next : ResultCache Key Batch Schema Table Version)
    (gone : List (Slot Key (ResultEntry Batch Schema Table Version))) : Prop where
  split : cache.inner.entries.Perm (gone ++ next.inner.entries)
  inOrder : gone.Pairwise fun slot other => slot.lastUsed < other.lastUsed
  oldest : ∀ slot ∈ gone, ∀ kept ∈ next.inner.entries, slot.lastUsed < kept.lastUsed
  needed : ∀ before after, gone = before ++ after → after ≠ [] →
    next.budget < next.totalBytes + bytesOf after

variable [DecidableEq Key] {cache : ResultCache Key Batch Schema Table Version}

theorem Counted.drop (counted : cache.Counted)
    {slot : Slot Key (ResultEntry Batch Schema Table Version)}
    (inside : slot ∈ cache.inner.entries) : (cache.drop slot.key slot.value.bytes).Counted where
  ordered := counted.ordered.remove _
  counted := by
    have total := counted.ordered.total_remove ResultEntry.bytes inside
    rw [ResultCache.drop, counted.counted, total]
    dsimp only
    omega

theorem evict_spec (counted : cache.Counted) {rounds : Nat}
    (enough : cache.inner.entries.length < rounds) :
    ∃ gone next, cache.evict rounds = some (gone, next) ∧ next.Counted ∧
      next.totalBytes ≤ next.budget ∧ next.budget = cache.budget ∧
      next.perResultCap = cache.perResultCap ∧ Evicts cache next gone := by
  induction rounds generalizing cache with
  | zero => omega
  | succ rounds ih =>
      rw [evict]
      split
      · next exceeds =>
        split
        · next none' =>
          have total := counted.counted
          rw [Lru.total, Lru.leastRecent_eq_none none'] at total
          change _ = 0 at total
          omega
        · next lru least =>
          have inside := Lru.leastRecent_mem least
          have shorter := Lru.length_remove_lt inside
          have rest := counted.ordered.perm_remove inside
          obtain ⟨gone, next, evicts, isCounted, within, budget, cap, ⟨split', inOrder, oldest,
            needed⟩⟩ := ih (counted.drop inside) (by
              change (cache.inner.remove lru.key).entries.length < rounds
              omega)
          have all : cache.inner.entries.Perm (lru :: (gone ++ next.inner.entries)) :=
            rest.trans (split'.cons lru)
          -- the entry used longest ago was used before any other one
          have first : ∀ other ∈ gone ++ next.inner.entries, lru.lastUsed < other.lastUsed := by
            intro other mem
            have le := Lru.leastRecent_le least other
              (all.mem_iff.mpr (List.mem_cons_of_mem _ mem))
            have apart := (counted.ordered.distinct.perm all (by
              rintro slot slot' ⟨keys, times⟩
              exact ⟨keys.symm, times.symm⟩))
            have ne := ((List.pairwise_cons.mp apart).1 other mem).2
            omega
          refine ⟨lru :: gone, next, by rw [evicts]; rfl, isCounted, within, budget, cap, all, ?_,
            ?_, ?_⟩
          · exact List.pairwise_cons.mpr
              ⟨fun other mem => first other (List.mem_append_left _ mem), inOrder⟩
          · intro slot mem kept isKept
            rcases List.mem_cons.mp mem with rfl | later
            · exact first kept (List.mem_append_right _ isKept)
            · exact oldest slot later kept isKept
          · intro before after isGone some'
            cases before with
            | nil =>
                rw [List.nil_append] at isGone
                have total := counted.counted
                rw [Lru.total, (all.map _).sum_nat, List.map_cons, List.map_append,
                  List.sum_cons, List.sum_append] at total
                rw [isCounted.counted, budget, ← isGone, bytesOf, Lru.total, List.map_cons,
                  List.sum_cons]
                change cache.budget < _
                omega
            | cons slot before => exact needed before after (List.cons.inj isGone).2 some'
      · next within =>
        refine ⟨[], cache, rfl, counted, by omega, rfl, rfl, List.Perm.refl _, List.Pairwise.nil,
          by simp, ?_⟩
        intro before after isNil some'
        exact absurd (List.append_eq_nil_iff.mp isNil.symm).2 some'

/-- The entry that is replaced is not counted any more. -/
theorem Counted.without (counted : cache.Counted) (key : Key) :
    (cache.without key).Counted ∧
      (cache.without key).inner.entries = (cache.inner.remove key).entries ∧
      (cache.without key).budget = cache.budget ∧
      (cache.without key).perResultCap = cache.perResultCap := by
  rw [ResultCache.without]
  split
  · next old found =>
    obtain ⟨slot, inside, rfl, rfl⟩ := Lru.mem_of_get? found
    exact ⟨counted.drop inside, rfl, rfl, rfl⟩
  · next missing =>
    exact ⟨counted, (Lru.remove_of_get?_eq_none missing).symm, rfl, rfl⟩

/-- What an insertion does, given the uses with this one: the bytes are those of the entries and
within the budget, entries are evicted in the order of their last uses, every other one stays, and
the only new one is the one put in. -/
structure Inserts (cache : ResultCache Key Batch Schema Table Version) (uses : List Key) (key : Key)
    (entry : ResultEntry Batch Schema Table Version)
    (gone : List (Slot Key (ResultEntry Batch Schema Table Version)))
    (next : ResultCache Key Batch Schema Table Version) : Prop where
  counted : next.Counted
  within : next.totalBytes ≤ next.budget
  budget : next.budget = cache.budget
  perResultCap : next.perResultCap = cache.perResultCap
  follows : next.inner.Follows uses
  inOrder : gone.Pairwise fun slot other => Lru.UsedBefore uses slot.key other.key
  oldest : ∀ slot ∈ gone, ∀ kept ∈ next.inner.entries, Lru.UsedBefore uses slot.key kept.key
  needed : ∀ before after, gone = before ++ after → after ≠ [] →
    next.budget < next.totalBytes + bytesOf after
  others : ∀ slot ∈ cache.inner.entries, slot.key ≠ key →
    slot ∈ gone ∨ slot ∈ next.inner.entries
  new : ∀ slot ∈ gone ++ next.inner.entries, slot ∈ cache.inner.entries ∨ slot.value = entry

/-- The uses with an insertion. -/
def usesWith (cache : ResultCache Key Batch Schema Table Version) (uses : List Key) (key : Key)
    (entry : ResultEntry Batch Schema Table Version) : List Key :=
  if cache.refuses entry then uses else key :: uses

theorem insert_spec (counted : cache.Counted) (within : cache.totalBytes ≤ cache.budget)
    {uses : List Key} (follows : cache.inner.Follows uses) (key : Key)
    (entry : ResultEntry Batch Schema Table Version) :
    ∃ gone next, cache.insert key entry = some (gone, next) ∧
      Inserts cache (cache.usesWith uses key entry) key entry gone next := by
  rw [insert, usesWith]
  split
  · refine ⟨[], cache, rfl, counted, within, rfl, rfl, follows, List.Pairwise.nil, by simp, ?_,
      fun slot mem _ => .inr mem, fun slot mem => .inl mem⟩
    intro before after isNil some'
    exact absurd (List.append_eq_nil_iff.mp isNil.symm).2 some'
  · obtain ⟨isCounted, entries, budget, cap⟩ := counted.without key
    have follows' : (cache.without key).inner.Follows uses := by
      refine follows.subset fun slot inside => ?_
      rw [entries] at inside
      exact (List.mem_filter.mp inside).1
    generalize cache.without key = freed at isCounted entries budget cap follows'
    have removed : (freed.inner.remove key).entries = (cache.inner.remove key).entries := by
      rw [Lru.remove, entries]
      simp [Lru.remove]
    let put : ResultCache Key Batch Schema Table Version :=
      { freed with
        inner := freed.inner.put key entry
        totalBytes := freed.totalBytes + entry.bytes }
    have putCounted : put.Counted := by
      refine ⟨isCounted.ordered.put key entry, ?_⟩
      change freed.totalBytes + entry.bytes = _
      rw [Lru.total_put, isCounted.counted, Nat.add_comm, Lru.total, Lru.total, removed, entries]
    obtain ⟨gone, next, evicts, nextCounted, nextWithin, nextBudget, nextCap, ⟨split', inOrder,
      oldest, needed⟩⟩ := evict_spec putCounted (Nat.lt_succ_self _)
    have newest : put.inner.Follows (key :: uses) := follows'.put isCounted.ordered key entry
    have evicted : ∀ slot ∈ gone, slot ∈ put.inner.entries := fun slot mem =>
      split'.mem_iff.mpr (List.mem_append_left _ mem)
    have kept : ∀ slot ∈ next.inner.entries, slot ∈ put.inner.entries := fun slot mem =>
      split'.mem_iff.mpr (List.mem_append_right _ mem)
    refine ⟨gone, next, evicts, nextCounted, nextWithin, nextBudget.trans budget,
      nextCap.trans cap, newest.subset kept, ?_, ?_, needed, ?_, ?_⟩
    · exact inOrder.imp_of_mem fun isSlot isOther older =>
        newest _ (evicted _ isSlot) _ (evicted _ isOther) older
    · exact fun slot mem other isKept =>
        newest slot (evicted slot mem) other (kept other isKept) (oldest slot mem other isKept)
    · intro slot mem apart
      refine List.mem_append.mp (split'.mem_iff.mp (List.mem_cons_of_mem _ ?_))
      rw [removed]
      exact List.mem_filter.mpr ⟨mem, by simpa using apart⟩
    · intro slot mem
      rcases List.mem_cons.mp (split'.mem_iff.mpr mem) with rfl | older
      · exact .inr rfl
      · rw [removed] at older
        exact .inl (List.mem_filter.mp older).1

theorem lookupWith_spec [DecidableEq Version] (counted : cache.Counted)
    (within : cache.totalBytes ≤ cache.budget) {uses : List Key} (follows : cache.inner.Follows uses)
    (key : Key) (resolve : Table → Option Version) :
    let next := (cache.lookupWith key resolve).1
    next.Counted ∧ next.totalBytes ≤ next.budget ∧ next.budget = cache.budget ∧
      next.inner.Follows ((if cache.hits key resolve then some key else none).toList ++ uses) ∧
      ∀ slot ∈ next.inner.entries, ∃ before ∈ cache.inner.entries, slot.value = before.value := by
  have unchanged : ∀ slot ∈ cache.inner.entries, ∃ before ∈ cache.inner.entries,
      slot.value = before.value := fun slot mem => ⟨slot, mem, rfl⟩
  rw [lookupWith, hits]
  split
  · next disabled =>
    rw [decide_eq_false (not_not_intro disabled), Bool.false_and]
    exact ⟨counted, within, rfl, follows, unchanged⟩
  · next enabled =>
    split
    · next missing =>
      rw [missing, Option.any_none, Bool.and_false]
      exact ⟨counted, within, rfl, follows, unchanged⟩
    · next entry found =>
      rw [found, Option.any_some, decide_eq_true enabled, Bool.true_and]
      obtain ⟨slot, inside, rfl, rfl⟩ := Lru.mem_of_get? found
      split
      · refine ⟨⟨counted.ordered.touch _, ?_⟩, within, rfl, follows.touch counted.ordered _, ?_⟩
        · exact counted.counted.trans (Lru.total_touch ResultEntry.bytes _).symm
        · intro other mem
          obtain ⟨before, isBefore, rfl⟩ := List.mem_map.mp mem
          refine ⟨before, isBefore, ?_⟩
          split <;> rfl
      · refine ⟨counted.drop inside, ?_, rfl, follows.subset ?_, ?_⟩
        · exact Nat.le_trans (Nat.sub_le _ _) within
        · exact fun other mem => (List.mem_filter.mp mem).1
        · intro other mem
          exact ⟨other, (List.mem_filter.mp mem).1, rfl⟩

end ResultCache

/-! ## Whole runs -/

namespace Results

variable {Id : Type} (size : Batch → Nat)

/-- The answers of a stream, without those that only ask for patience. -/
def answers (polls : List (Poll Batch)) : List (Poll Batch) :=
  polls.filter fun poll => !(poll matches .pending)

/-- The stream has delivered these batches and ended. -/
def Completed (polls : List (Poll Batch)) (batches : List Batch) : Prop :=
  answers polls = batches.map Poll.batch ++ [.done]

/-- An entry is the whole result of a stream that ended without an error, or it was put in
directly. -/
def Stored (state : Results Id Key Batch Schema Table Version)
    (entry : ResultEntry Batch Schema Table Version) : Prop :=
  entry.batches ∈ state.direct ∨ ∃ id, Completed (state.polls id) entry.batches ∧
    entry.bytes = (entry.batches.map size).sum

/-- A capture that goes on holds what its stream has delivered. -/
structure TeeSound (polls : List (Poll Batch))
    (tee : CachingTee Key Batch Schema Table Version) : Prop where
  captured : tee.poisoned = false → ¬ Ended polls →
    answers polls = tee.acc.map Poll.batch ∧ tee.bytes = (tee.acc.map size).sum

structure Sound [DecidableEq Key] (limit : Nat)
    (state : Results Id Key Batch Schema Table Version) : Prop where
  budget : state.cache.budget = limit
  counted : state.cache.Counted
  within : state.cache.totalBytes ≤ state.cache.budget
  follows : state.cache.inner.Follows state.uses
  stored : ∀ slot ∈ state.cache.inner.entries, state.Stored size slot.value
  tees : ∀ id tee, state.tees id = some tee → TeeSound size (state.polls id) tee

variable {size} [DecidableEq Key] [DecidableEq Version] [DecidableEq Id]

theorem ended_of_completed {polls : List (Poll Batch)} {batches : List Batch}
    (completed : Completed polls batches) : Ended polls := by
  have mem : Poll.done ∈ answers polls := by
    rw [completed]
    exact List.mem_append_right _ List.mem_cons_self
  exact ⟨.done, (List.mem_filter.mp mem).1, rfl⟩

omit [DecidableEq Version] [DecidableEq Id] in
theorem sound_start (budget : Nat) :
    (start budget : Results Id Key Batch Schema Table Version).Sound size budget where
  budget := rfl
  counted := ⟨Lru.ordered_empty, rfl⟩
  within := Nat.zero_le _
  follows := Lru.follows_empty _
  stored _ mem := nomatch mem
  tees _ _ isTee := nomatch isTee

omit [DecidableEq Version] in
/-- What a poll does to a capture and to the cache. -/
theorem pollNext_spec {tee : CachingTee Key Batch Schema Table Version}
    {cache : ResultCache Key Batch Schema Table Version} (counted : cache.Counted)
    (within : cache.totalBytes ≤ cache.budget) {uses : List Key}
    (follows : cache.inner.Follows uses) {polls : List (Poll Batch)}
    (sound : TeeSound size polls tee) (open' : ¬ Ended polls) (answer : Poll Batch) :
    ∃ tee' next, tee.pollNext size cache answer = some (tee', next) ∧
      next.budget = cache.budget ∧ next.Counted ∧ next.totalBytes ≤ next.budget ∧
      next.inner.Follows ((tee.used cache answer).toList ++ uses) ∧
      TeeSound size (polls ++ [answer]) tee' ∧
      ∀ slot ∈ next.inner.entries, slot ∈ cache.inner.entries ∨
        Completed (polls ++ [answer]) slot.value.batches ∧
          slot.value.bytes = (slot.value.batches.map size).sum := by
  have unchanged : ∀ slot ∈ cache.inner.entries, slot ∈ cache.inner.entries ∨
      Completed (polls ++ [answer]) slot.value.batches ∧
        slot.value.bytes = (slot.value.batches.map size).sum := fun _ mem => .inl mem
  cases answer with
  | pending =>
      refine ⟨tee, cache, rfl, rfl, counted, within, follows, ⟨fun clean _ => ?_⟩, unchanged⟩
      rw [answers, List.filter_append]
      simpa [answers] using sound.captured clean open'
  | batch batch =>
      rw [CachingTee.pollNext]
      split
      · next poisoned =>
        refine ⟨tee, cache, rfl, rfl, counted, within, follows, ⟨fun clean _ => ?_⟩, unchanged⟩
        rw [poisoned] at clean
        cases clean
      · next clean =>
        split
        · exact ⟨_, cache, rfl, rfl, counted, within, follows, ⟨nofun⟩, unchanged⟩
        · refine ⟨_, cache, rfl, rfl, counted, within, follows, ⟨fun _ _ => ?_⟩, unchanged⟩
          obtain ⟨delivered, bytes⟩ := sound.captured (Bool.eq_false_iff.mpr clean) open'
          rw [answers, List.filter_append, List.map_append, List.map_append, List.sum_append]
          rw [answers] at delivered
          exact ⟨by rw [delivered]; rfl, by rw [bytes]; rfl⟩
  | error => exact ⟨_, cache, rfl, rfl, counted, within, follows, ⟨nofun⟩, unchanged⟩
  | done =>
      have ended : Ended (polls ++ [Poll.done]) :=
        ⟨.done, List.mem_append_right _ List.mem_cons_self, rfl⟩
      rw [CachingTee.pollNext, CachingTee.store, CachingTee.used]
      split
      · next spent =>
        rw [if_pos (.inl spent)]
        exact ⟨tee, cache, rfl, rfl, counted, within, follows,
          ⟨fun _ open'' => absurd ended open''⟩, unchanged⟩
      · next fresh =>
        obtain ⟨gone, next, inserts, spec⟩ :=
          ResultCache.insert_spec counted within follows tee.key tee.entry
        have follows' : next.inner.Follows ((if tee.isSpent ∨ cache.refuses tee.entry then none
            else some tee.key).toList ++ uses) := by
          have newest := spec.follows
          rw [ResultCache.usesWith] at newest
          simp only [fresh, false_or]
          split
          · next refused => rwa [if_pos refused] at newest
          · next accepted => rwa [if_neg accepted] at newest
        rw [inserts]
        refine ⟨_, next, rfl, spec.budget, spec.counted, spec.within, follows',
          ⟨fun _ open'' => absurd ended open''⟩, ?_⟩
        intro slot mem
        rcases spec.new slot (List.mem_append_right _ mem) with older | isNew
        · exact .inl older
        · have clean : tee.poisoned = false := by
            simp only [CachingTee.isSpent, not_or, Bool.not_eq_true] at fresh
            exact fresh.2.1
          obtain ⟨delivered, bytes⟩ := sound.captured clean open'
          rw [isNew]
          refine .inr ⟨?_, bytes⟩
          rw [Completed, answers, List.filter_append]
          rw [answers] at delivered
          rw [delivered]
          rfl

omit [DecidableEq Key] [DecidableEq Version] [DecidableEq Id] in
/-- What is stored stays so: a stream that has ended is not polled again. -/
theorem Stored.mono {state next : Results Id Key Batch Schema Table Version}
    {entry : ResultEntry Batch Schema Table Version} (stored : state.Stored size entry)
    (direct : ∀ batches ∈ state.direct, batches ∈ next.direct)
    (polls : ∀ id, Ended (state.polls id) → next.polls id = state.polls id) :
    next.Stored size entry := by
  rcases stored with inside | ⟨id, completed, bytes⟩
  · exact .inl (direct _ inside)
  · refine .inr ⟨id, ?_, bytes⟩
    rw [polls id (ended_of_completed completed)]
    exact completed

theorem Sound.step {state next : Results Id Key Batch Schema Table Version}
    {action : ResultsAction Id Key Batch Schema Table Version} {limit : Nat}
    (sound : state.Sound size limit) (taken : step size state action = some next) :
    next.Sound size limit := by
  obtain ⟨next, acted, rfl⟩ := Option.map_eq_some_iff.mp taken
  cases action with
  | lookup key resolve =>
      cases acted
      obtain ⟨counted, within, budget, follows, values⟩ :=
        ResultCache.lookupWith_spec sound.counted sound.within sound.follows key resolve
      refine ⟨budget.trans sound.budget, counted, within, follows, fun slot mem => ?_, sound.tees⟩
      obtain ⟨before, isBefore, same⟩ := values slot mem
      rw [same]
      exact sound.stored before isBefore
  | insert key entry =>
      obtain ⟨⟨gone, cache⟩, inserts, rfl⟩ := Option.map_eq_some_iff.mp acted
      obtain ⟨gone', next', inserts', spec⟩ :=
        ResultCache.insert_spec sound.counted sound.within sound.follows key entry
      rw [inserts] at inserts'
      cases inserts'
      have follows := spec.follows
      refine ⟨spec.budget.trans sound.budget, spec.counted, spec.within, ?_, fun slot mem => ?_,
        sound.tees⟩
      · rw [ResultCache.usesWith] at follows
        simp only [used]
        split
        · next refused => rwa [if_pos refused] at follows
        · next accepted => rwa [if_neg accepted] at follows
      rcases spec.new slot (List.mem_append_right _ mem) with older | isNew
      · exact (sound.stored slot older).mono (fun _ inside => List.mem_cons_of_mem _ inside)
          fun _ _ => rfl
      · rw [isNew]
        exact .inl List.mem_cons_self
  | «open» id key schema tables =>
      rw [act] at acted
      split at acted
      · cases acted
      · next free =>
        cases acted
        simp only [not_or, not_not] at free
        refine ⟨sound.budget, sound.counted, sound.within, sound.follows, sound.stored,
          fun other tee isTee => ?_⟩
        dsimp only at isTee ⊢
        split at isTee
        · next same =>
          cases isTee
          rw [same, free.2.2]
          exact ⟨fun _ _ => ⟨rfl, rfl⟩⟩
        · exact sound.tees other tee isTee
  | poll id answer =>
      rw [act] at acted
      split at acted
      · cases acted
      · next tee isTee =>
        split at acted
        · cases acted
        · next open' =>
          obtain ⟨tee', cache, polled, budget, counted, within, follows, teeSound, entries⟩ :=
            pollNext_spec sound.counted sound.within sound.follows (sound.tees id tee isTee) open'
              answer
          rw [polled] at acted
          cases acted
          have kept : ∀ other, Ended (state.polls other) →
              (if other = id then state.polls id ++ [answer] else state.polls other) =
                state.polls other := by
            intro other ended
            rw [if_neg]
            rintro rfl
            exact open' ended
          refine ⟨budget.trans sound.budget, counted, within, ?_, fun slot mem => ?_,
            fun other tee'' isTee'' => ?_⟩
          · simp only [used, isTee, Option.bind_some]
            exact follows
          · rcases entries slot mem with older | ⟨completed, bytes⟩
            · exact (sound.stored slot older).mono (fun _ inside => inside) kept
            · refine .inr ⟨id, ?_, bytes⟩
              dsimp only
              rw [if_pos rfl]
              exact completed
          · dsimp only at isTee'' ⊢
            split at isTee''
            · next same =>
              cases isTee''
              rw [if_pos same]
              exact teeSound
            · next apart =>
              rw [if_neg apart]
              exact sound.tees other tee'' isTee''
  | drop id =>
      cases acted
      refine ⟨sound.budget, sound.counted, sound.within, sound.follows, sound.stored,
        fun other tee isTee => ?_⟩
      dsimp only at isTee
      split at isTee
      · cases isTee
      · exact sound.tees other tee isTee

/-- In every run the bytes that are counted are those of the entries and within the budget, every
entry is a whole result, and an insertion comes to its end: it evicts the entries whose last use in
the run is longest ago, in their order and no more than it must. -/
theorem results_accounted (size : Batch → Nat) (budget : Nat)
    {state : Results Id Key Batch Schema Table Version}
    (run : Run (step size) Unrestricted (start budget) state) :
    state.cache.totalBytes =
        (state.cache.inner.entries.map fun slot => slot.value.bytes).sum ∧
      state.cache.totalBytes ≤ budget ∧
      (∀ slot ∈ state.cache.inner.entries, state.Stored size slot.value) ∧
      ∀ key entry, ∃ gone next, state.cache.insert key entry = some (gone, next) ∧
        ResultCache.Inserts state.cache (state.cache.usesWith state.uses key entry) key entry gone
          next := by
  have sound : state.Sound size budget :=
    run.invariant (fun _ _ _ sound _ taken => sound.step taken) (sound_start budget)
  refine ⟨sound.counted.counted, ?_, sound.stored,
    fun key entry => ResultCache.insert_spec sound.counted sound.within sound.follows key entry⟩
  rw [← sound.budget]
  exact sound.within

/-- A capture that is completed and an insertion that makes it go. -/
def captured : Results Unit Nat Nat Unit Unit Unit :=
  execute (step id) (fun _ _ => true) (start 100)
    [.open () 7 () [((), ())], .poll () (.batch 20), .poll () .pending, .poll () .done,
      .insert 8 ⟨[25], (), [((), ())], 25⟩, .lookup 7 some, .insert 9 ⟨[25], (), [((), ())], 25⟩,
      .insert 6 ⟨[25], (), [((), ())], 25⟩, .insert 5 ⟨[25], (), [((), ())], 25⟩]

/-- The entry of 8 was put in after the captured one of 7, which was found again since. -/
theorem results_accounted_captured :
    captured.uses = [5, 6, 9, 7, 8, 7] ∧
      captured.cache.inner.entries.map Slot.key = [5, 6, 9, 7] ∧
      captured.cache.totalBytes =
        (captured.cache.inner.entries.map fun slot => slot.value.bytes).sum ∧
      captured.cache.totalBytes ≤ 100 ∧
      (∀ slot ∈ captured.cache.inner.entries, captured.Stored id slot.value) ∧
      ∀ key entry, ∃ gone next, captured.cache.insert key entry = some (gone, next) ∧
        ResultCache.Inserts captured.cache (captured.cache.usesWith captured.uses key entry) key
          entry gone next :=
  ⟨by decide +kernel, by decide +kernel,
    results_accounted id 100 (run_execute (fun _ _ _ => trivial) _ _)⟩

end Results

end Icegres
