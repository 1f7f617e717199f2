import Icegres.Catalog.Refs

/-!
# Expiry and the references of a table

An expiry keeps what the references it has read point at. Afterwards a commit adds a snapshot of
its own and a merge or a branch forked from `main` asserts the head it points at, so only a
reference that is created at a chosen snapshot can come to point at what the expiry removes.
-/

namespace Icegres.Catalog

variable {Content : Type} {catalog : Service Content}

/-! ## What a posted commit does to the references -/

/-- The snapshot a post adds. -/
def Post.added : Post Content → Option Int
  | .commit _ _ snapshot => some snapshot.snapshotId
  | _ => none

theorem Post.snapshotIds_apply (metadata : Metadata Content) (uuid : String)
    (post : Post Content) :
    ((post.request uuid).apply metadata).snapshotIds =
      metadata.snapshotIds ++ post.added.toList := by
  cases post <;>
    simp [Post.request, Request.apply, setBranchRefRequest, removeBranchRefRequest,
      fastForwardRequest, snapshotRequest, Post.added]

/-- A reference is left where another one stood, or stands at a chosen or an added snapshot. -/
theorem Post.mem_refs_apply {metadata : Metadata Content} {uuid : String} {post : Post Content}
    (accepted : (post.request uuid).Accepted metadata) {ref : String × SnapshotReference}
    (member : ref ∈ ((post.request uuid).apply metadata).refs) :
    (∃ old ∈ metadata.refs, old.2.snapshotId = ref.2.snapshotId) ∨
      ref.2.snapshotId ∈ post.chosen ∨ ref.2.snapshotId ∈ post.added := by
  cases post with
  | createRef name src anchorMain kind =>
      rcases Metadata.mem_refs_setSnapshotRef member with rfl | old
      · cases anchorMain with
        | false => exact .inr (.inl rfl)
        | true =>
            have anchored : metadata.refSnapshotId mainBranch = some src :=
              accepted (.refSnapshotIdMatch mainBranch (some src))
                (by simp [Post.request, setBranchRefRequest])
            obtain ⟨reference, inRefs, points⟩ := Metadata.mem_refs_of_refSnapshotId anchored
            exact .inl ⟨_, inRefs, points⟩
      · exact .inl ⟨ref, old, rfl⟩
  | dropBranch name head => exact .inl ⟨ref, Metadata.mem_refs_removeSnapshotRef member, rfl⟩
  | fastForward mv =>
      rcases Metadata.mem_refs_setSnapshotRef member with rfl | old
      · have anchored : metadata.refSnapshotId mv.source = some mv.fromHead :=
          accepted (.refSnapshotIdMatch mv.source (some mv.fromHead))
            (by simp [Post.request, fastForwardRequest])
        obtain ⟨reference, inRefs, points⟩ := Metadata.mem_refs_of_refSnapshotId anchored
        exact .inl ⟨_, inRefs, points⟩
      · exact .inl ⟨ref, old, rfl⟩
  | commit branch head snapshot =>
      have moved : ref ∈ ((Update.setSnapshotRef branch ⟨snapshot.snapshotId, .branch⟩).apply
          ((Update.addSnapshot snapshot).apply metadata)).refs := member
      rcases Metadata.mem_refs_setSnapshotRef moved with rfl | old
      · exact .inr (.inr rfl)
      · exact .inl ⟨ref, old, rfl⟩

/-- A reference that is created at a chosen snapshot does stand there. -/
theorem Post.chosen_mem_refs (metadata : Metadata Content) (uuid : String) {post : Post Content}
    {snapshotId : Int} (chosen : snapshotId ∈ post.chosen) :
    ∃ ref ∈ ((post.request uuid).apply metadata).refs, ref.2.snapshotId = snapshotId := by
  cases post with
  | createRef name src anchorMain kind =>
      cases anchorMain with
      | false =>
          obtain rfl : src = snapshotId := by simpa [Post.chosen] using chosen
          exact ⟨(name, ⟨src, kind⟩), List.mem_cons_self, rfl⟩
      | true => cases chosen
  | _ => cases chosen

/-! ## What an expiry removes -/

theorem Metadata.mem_newestFirst {metadata : Metadata Content} {snapshotId : Int} :
    snapshotId ∈ metadata.newestFirst.map Prod.snd ↔ snapshotId ∈ metadata.snapshotIds := by
  simp [Metadata.newestFirst, Metadata.snapshotIds, List.mem_insertionSort]

theorem Metadata.expired_subset {metadata : Metadata Content} {referenced : List Int}
    {keepLast : Nat} {snapshotId : Int}
    (member : snapshotId ∈ metadata.expired referenced keepLast) :
    snapshotId ∈ metadata.snapshotIds :=
  Metadata.mem_newestFirst.mp (List.mem_filter.mp member).1

theorem Metadata.expired_unreferenced {metadata : Metadata Content} {referenced : List Int}
    {keepLast : Nat} {snapshotId : Int}
    (member : snapshotId ∈ metadata.expired referenced keepLast) :
    snapshotId ∉ referenced := by
  intro points
  have kept := (List.mem_filter.mp member).2
  simp [points] at kept

theorem mem_snapshotIds_removeSnapshotsRequest (metadata : Metadata Content) (uuid : String)
    (head : Option Int) (expire : List Int) (snapshotId : Int) :
    snapshotId ∈
        ((removeSnapshotsRequest uuid head expire).apply metadata : Metadata Content).snapshotIds ↔
      snapshotId ∈ metadata.snapshotIds ∧ snapshotId ∉ expire :=
  Metadata.mem_snapshotIds_removeSnapshots

/-! ## The races -/

/-- The client's commit would be applied now. -/
def Lands (catalog : Service Content) (state : State Content) (client : Nat) : Prop :=
  ∃ request ∈ (state.clients client).request,
    catalog.validates state.metadata request = true ∧ request.Accepted state.metadata

/-- The commit would leave a reference that the catalog drops. -/
def Loses (catalog : Service Content) (state : State Content) : Action Content → Prop
  | .land client => ∃ request ∈ (state.clients client).request,
      catalog.validates state.metadata request = true ∧ request.Accepted state.metadata ∧
        ∃ ref ∈ (request.apply state.metadata).refs,
          catalog.drops (request.apply state.metadata) ref = true
  | _ => False

/-- A reference created at a chosen snapshot finds it there, and an expiry that lands does not
remove a snapshot at which a reference was created by choice since it read the references. -/
def Client.Unraced (metadata : Metadata Content) : Client Content → Prop
  | .posting _ post => ∀ snapshotId ∈ post.chosen, snapshotId ∈ metadata.snapshotIds
  | .removing _ _ expire chosen =>
      ∀ snapshotId ∈ chosen, snapshotId ∈ expire →
        ∀ ref ∈ metadata.refs, ref.2.snapshotId ≠ snapshotId
  | _ => True

def Unraced (catalog : Service Content) (state : State Content) : Action Content → Prop
  | .land client => Lands catalog state client →
      (state.clients client).Unraced state.metadata
  | _ => True

/-! ## The invariant -/

namespace Client

def posted : Client Content → Option Int
  | .posting _ post => post.added
  | _ => none

/-- The snapshots an expiry may still remove. -/
def watched : Client Content → List Int
  | .loaded metadata _ => metadata.snapshotIds
  | .removing _ _ expire _ => expire
  | _ => []

/-- A reference in the way of an expiry was created by choice since it read the references. -/
def Covered (metadata : Metadata Content) : Client Content → Prop
  | .removing _ _ expire chosen =>
      ∀ ref ∈ metadata.refs, ref.2.snapshotId ∈ expire → ref.2.snapshotId ∈ chosen
  | _ => True

@[simp] theorem posted_choose (snapshotId : Option Int) (client : Client Content) :
    (client.choose snapshotId).posted = client.posted := by
  cases client <;> rfl

@[simp] theorem watched_choose (snapshotId : Option Int) (client : Client Content) :
    (client.choose snapshotId).watched = client.watched := by
  cases client <;> rfl

end Client

structure Guarded (state : State Content) : Prop where
  present : state.metadata.RefsPresent
  issued : ∀ snapshotId ∈ state.metadata.snapshotIds, snapshotId ∈ state.issued
  watchedIssued : ∀ client, ∀ snapshotId ∈ (state.clients client).watched,
    snapshotId ∈ state.issued
  postedIssued : ∀ client, ∀ snapshotId ∈ (state.clients client).posted,
    snapshotId ∈ state.issued
  postedNew : ∀ client, ∀ snapshotId ∈ (state.clients client).posted,
    snapshotId ∉ state.metadata.snapshotIds
  postedOnce : ∀ left right, ∀ snapshotId ∈ (state.clients left).posted,
    snapshotId ∈ (state.clients right).posted → left = right
  unwatched : ∀ poster watcher, ∀ snapshotId ∈ (state.clients poster).posted,
    snapshotId ∉ (state.clients watcher).watched
  covered : ∀ client, (state.clients client).Covered state.metadata

/-! ## One client moves -/

theorem Client.watched_eq_nil {client : Client Content} {snapshotId : Int}
    (posted : snapshotId ∈ client.posted) : client.watched = [] := by
  cases client with
  | posting uuid post => rfl
  | _ => cases posted

/-- One client moves on; what it may add is new, and what it may remove was issued and is not
about to be added. -/
theorem Guarded.move {state : State Content} (guarded : Guarded state) (client : Nat)
    (next : Client Content) (issued : List Int)
    (grows : ∀ snapshotId ∈ state.issued, snapshotId ∈ issued)
    (watched : ∀ snapshotId ∈ next.watched, snapshotId ∈ issued)
    (fresh : ∀ snapshotId ∈ next.posted, snapshotId ∈ issued ∧ snapshotId ∉ state.issued)
    (unposted : ∀ poster, ∀ snapshotId ∈ (state.clients poster).posted,
      snapshotId ∉ next.watched)
    (covered : next.Covered state.metadata) :
    Guarded { state with issued, clients := Function.update state.clients client next } where
  present := guarded.present
  issued snapshotId member := grows _ (guarded.issued snapshotId member)
  watchedIssued := by
    intro other snapshotId member
    by_cases same : other = client
    · subst same
      exact watched _ (by simpa using member)
    · exact grows _ (guarded.watchedIssued other _ (by simpa [same] using member))
  postedIssued := by
    intro other snapshotId member
    by_cases same : other = client
    · subst same
      exact (fresh _ (by simpa using member)).1
    · exact grows _ (guarded.postedIssued other _ (by simpa [same] using member))
  postedNew := by
    intro other snapshotId member present
    by_cases same : other = client
    · subst same
      exact (fresh _ (by simpa using member)).2 (guarded.issued _ present)
    · exact guarded.postedNew other _ (by simpa [same] using member) present
  postedOnce := by
    intro left right snapshotId leftPosted rightPosted
    by_cases leftSame : left = client <;> by_cases rightSame : right = client
    · rw [leftSame, rightSame]
    · subst leftSame
      have issued := guarded.postedIssued right snapshotId (by simpa [rightSame] using rightPosted)
      exact absurd issued (fresh _ (by simpa using leftPosted)).2
    · subst rightSame
      have issued := guarded.postedIssued left snapshotId (by simpa [leftSame] using leftPosted)
      exact absurd issued (fresh _ (by simpa using rightPosted)).2
    · exact guarded.postedOnce left right snapshotId (by simpa [leftSame] using leftPosted)
        (by simpa [rightSame] using rightPosted)
  unwatched := by
    intro poster watcher snapshotId member removes
    by_cases posterSame : poster = client <;> by_cases watcherSame : watcher = client
    · subst posterSame watcherSame
      have posted : snapshotId ∈ next.posted := by simpa using member
      have empty := Client.watched_eq_nil posted
      simp [empty] at removes
    · subst posterSame
      have issued := guarded.watchedIssued watcher snapshotId (by simpa [watcherSame] using removes)
      exact (fresh _ (by simpa using member)).2 issued
    · subst watcherSame
      exact unposted poster snapshotId (by simpa [posterSame] using member) (by simpa using removes)
    · exact guarded.unwatched poster watcher snapshotId (by simpa [posterSame] using member)
        (by simpa [watcherSame] using removes)
  covered := by
    intro other
    by_cases same : other = client
    · subst same
      simpa using covered
    · simpa [same] using guarded.covered other

/-- A client that is done adds and removes nothing. -/
theorem Guarded.retire {state : State Content} (guarded : Guarded state) (client : Nat) :
    Guarded { state with clients := Function.update state.clients client .idle } := by
  apply guarded.move client .idle state.issued
  · intro snapshotId member
    exact member
  · intro snapshotId member
    cases member
  · intro snapshotId member
    cases member
  · intro poster snapshotId member removes
    cases removes
  · trivial

/-! ## A commit lands -/

/-- The clients after a commit has landed. -/
theorem posted_landed {clients : Nat → Client Content} {client other : Nat}
    {chosen : Option Int} {snapshotId : Int}
    (member : snapshotId ∈ (Function.update (fun other => (clients other).choose chosen) client
      .idle other).posted) :
    other ≠ client ∧ snapshotId ∈ (clients other).posted := by
  by_cases same : other = client
  · subst same
    simp [Client.posted] at member
  · exact ⟨same, by simpa [same] using member⟩

theorem watched_landed {clients : Nat → Client Content} {client other : Nat}
    {chosen : Option Int} {snapshotId : Int}
    (member : snapshotId ∈ (Function.update (fun other => (clients other).choose chosen) client
      .idle other).watched) :
    snapshotId ∈ (clients other).watched := by
  by_cases same : other = client
  · subst same
    simp [Client.watched] at member
  · simpa [same] using member

/-- A commit lands. It adds what its client posted, and a reference points to where one pointed
before, to what the client chose, or to what it added. -/
theorem Guarded.commit {state : State Content} (guarded : Guarded state) {client : Nat}
    {metadata : Metadata Content} {chosen : Option Int} (present : metadata.RefsPresent)
    (ids : ∀ snapshotId ∈ metadata.snapshotIds, snapshotId ∈ state.metadata.snapshotIds ∨
      snapshotId ∈ (state.clients client).posted)
    (refs : ∀ ref ∈ metadata.refs,
      (∃ old ∈ state.metadata.refs, old.2.snapshotId = ref.2.snapshotId) ∨
        ref.2.snapshotId ∈ chosen ∨ ref.2.snapshotId ∈ (state.clients client).posted) :
    Guarded { state with
      metadata
      clients := Function.update (fun other => (state.clients other).choose chosen)
        client .idle } where
  present := present
  issued snapshotId member :=
    (ids snapshotId member).elim (guarded.issued _) (guarded.postedIssued client _)
  watchedIssued other snapshotId member := guarded.watchedIssued other _ (watched_landed member)
  postedIssued other snapshotId member := guarded.postedIssued other _ (posted_landed member).2
  postedNew := by
    intro other snapshotId member inIds
    obtain ⟨different, posted⟩ := posted_landed member
    rcases ids snapshotId inIds with old | new
    · exact guarded.postedNew other _ posted old
    · exact different (guarded.postedOnce other client _ posted new)
  postedOnce left right snapshotId leftPosted rightPosted :=
    guarded.postedOnce left right _ (posted_landed leftPosted).2 (posted_landed rightPosted).2
  unwatched poster watcher snapshotId member removes :=
    guarded.unwatched poster watcher _ (posted_landed member).2 (watched_landed removes)
  covered := by
    intro other
    by_cases same : other = client
    · subst same
      simp [Client.Covered]
    · have before := guarded.covered other
      have unadded := guarded.unwatched client other
      cases shape : state.clients other with
      | removing otherUuid head expire chosen =>
          simp only [Function.update_of_ne same, shape, Client.choose, Client.Covered]
          intro ref member removes
          rw [shape] at before unadded
          simp only [List.mem_append, Option.mem_toList]
          rcases refs ref member with ⟨old, inRefs, same⟩ | chose | new
          · exact .inr (same ▸ before old inRefs (same ▸ removes))
          · exact .inl chose
          · exact absurd removes (unadded _ new)
      | _ => simp [same, shape, Client.choose, Client.Covered]

/-- A posted commit lands. -/
theorem Guarded.landPost {state : State Content} (guarded : Guarded state) {client : Nat}
    {uuid : String} {post : Post Content} (posting : state.clients client = .posting uuid post)
    (accepted : (post.request uuid).Accepted state.metadata)
    (unraced : ∀ snapshotId ∈ post.chosen, snapshotId ∈ state.metadata.snapshotIds) :
    Guarded { state with
      metadata := (post.request uuid).apply state.metadata
      clients := Function.update (fun other => (state.clients other).choose post.chosen)
        client .idle } := by
  have added : ∀ snapshotId ∈ post.added, snapshotId ∈ (state.clients client).posted := by
    intro snapshotId member
    rw [posting]
    exact member
  have ids := Post.snapshotIds_apply state.metadata uuid post
  refine guarded.commit (fun ref member => ?_) (fun snapshotId member => ?_) fun ref member =>
    (Post.mem_refs_apply accepted member).imp_right fun points => points.imp_right (added _)
  · simp only [ids, List.mem_append, Option.mem_toList]
    rcases Post.mem_refs_apply accepted member with ⟨old, inRefs, same⟩ | chosen | new
    · exact .inl (same ▸ guarded.present old inRefs)
    · exact .inl (unraced _ chosen)
    · exact .inr new
  · simp only [ids, List.mem_append, Option.mem_toList] at member
    exact member.imp_right (added _)

/-- An expiry lands. -/
theorem Guarded.landExpiry {state : State Content} (guarded : Guarded state) {client : Nat}
    {uuid : String} {head : Option Int} {expire chosen : List Int}
    (removing : state.clients client = .removing uuid head expire chosen)
    (unraced : ∀ snapshotId ∈ chosen, snapshotId ∈ expire →
      ∀ ref ∈ state.metadata.refs, ref.2.snapshotId ≠ snapshotId) :
    Guarded { state with
      metadata := (removeSnapshotsRequest uuid head expire).apply state.metadata
      clients := Function.update (fun other => (state.clients other).choose none)
        client .idle } := by
  have ids := mem_snapshotIds_removeSnapshotsRequest state.metadata uuid head expire
  refine guarded.commit (fun ref member => ?_) (fun snapshotId member =>
    .inl ((ids snapshotId).mp member).1) fun ref member => .inl ⟨ref, member, rfl⟩
  have covered := guarded.covered client
  rw [removing] at covered
  refine (ids _).mpr ⟨guarded.present ref member, fun removes => ?_⟩
  exact unraced _ (covered ref member removes) removes ref member rfl

/-! ## Runs -/

/-- A commit that leaves every reference at a snapshot loses none. -/
theorem Service.settle_of_present {metadata : Metadata Content} (present : metadata.RefsPresent) :
    catalog.settle metadata = metadata := by
  have kept : ∀ ref ∈ metadata.refs, (!catalog.drops metadata ref) = true := by
    intro ref member
    cases dropped : catalog.drops metadata ref with
    | false => rfl
    | true => exact absurd (present ref member) (catalog.drops_absent metadata ref dropped)
  rw [settle, List.filter_eq_self.mpr kept]

theorem Operation.added_of_plan {metadata : Metadata Content} {operation : Operation Content}
    {post : Post Content} (planned : operation.plan metadata = some post) :
    post.added = operation.generated := by
  cases operation with
  | createBranch name atSnapshot =>
      simp only [Operation.plan] at planned
      split at planned
      · cases planned
      · cases atSnapshot with
        | none =>
            obtain ⟨src, -, rfl⟩ := Option.map_eq_some_iff.mp planned
            rfl
        | some snapshotId =>
            simp only at planned
            split at planned
            · cases planned
              rfl
            · cases planned
  | createTag name snapshotId =>
      simp only [Operation.plan] at planned
      split at planned
      · cases planned
        rfl
      · cases planned
  | dropBranch name =>
      simp only [Operation.plan] at planned
      split at planned
      · cases planned
      · obtain ⟨head, -, rfl⟩ := Option.map_eq_some_iff.mp planned
        rfl
  | merge source target =>
      simp only [Operation.plan] at planned
      split at planned
      · cases planned
      · obtain ⟨mv, -, rfl⟩ := Option.map_eq_some_iff.mp planned
        rfl
  | commit branch snapshot =>
      obtain ⟨head, -, rfl⟩ := Option.map_eq_some_iff.mp planned
      rfl

theorem Guarded.lands {state : State Content} (guarded : Guarded state) {client : Nat}
    {request : Request Content} (posted : (state.clients client).request = some request)
    (accepted : request.Accepted state.metadata)
    (safe : (state.clients client).Unraced state.metadata) :
    Guarded { state with
      metadata := request.apply state.metadata
      clients := Function.update
        (fun other => (state.clients other).choose (state.clients client).chosen)
        client .idle } := by
  cases shape : state.clients client with
  | posting uuid post =>
      simp only [shape, Client.request, Option.some.injEq] at posted
      subst posted
      rw [shape] at safe
      exact guarded.landPost shape accepted safe
  | removing uuid head expire chosen =>
      simp only [shape, Client.request, Option.some.injEq] at posted
      subst posted
      rw [shape] at safe
      exact guarded.landExpiry shape safe
  | _ => simp [shape, Client.request] at posted

theorem Guarded.step {state next : State Content} {action : Action Content}
    (guarded : Guarded state) (unraced : Unraced catalog state action)
    (taken : step catalog state action = some next) : Guarded next := by
  cases action with
  | plan client operation =>
      simp only [Catalog.step] at taken
      split at taken
      · rename_i idle planned
        split at taken
        · cases taken
        · rename_i fresh
          cases taken
          have added := Operation.added_of_plan planned
          apply guarded.move
          · intro snapshotId member
            exact List.mem_append_right _ member
          · intro snapshotId member
            cases member
          · intro snapshotId member
            have generated : snapshotId ∈ operation.generated := added ▸ member
            constructor
            · simp [Option.mem_def.mp generated]
            · intro already
              exact fresh ⟨snapshotId, generated, already⟩
          · intro poster snapshotId member removes
            cases removes
          · trivial
      · cases taken
  | loadExpiry client keepLast =>
      simp only [Catalog.step] at taken
      split at taken
      · cases taken
        apply guarded.move client (.loaded state.metadata keepLast) state.issued
        · intro snapshotId member
          exact member
        · exact guarded.issued
        · intro snapshotId member
          cases member
        · exact guarded.postedNew
        · trivial
      · cases taken
  | listRefs client =>
      simp only [Catalog.step] at taken
      split at taken
      · rename_i metadata keepLast loaded
        cases taken
        split
        · exact guarded.retire client
        · have within : ∀ snapshotId ∈ metadata.expired state.metadata.listRefs keepLast,
              snapshotId ∈ (state.clients client).watched := by
            intro snapshotId member
            rw [loaded]
            exact Metadata.expired_subset member
          apply guarded.move client _ state.issued
          · intro snapshotId member
            exact member
          · intro snapshotId member
            exact guarded.watchedIssued client _ (within _ member)
          · intro snapshotId member
            cases member
          · intro poster snapshotId member removes
            exact guarded.unwatched poster client _ member (within _ removes)
          · intro ref member removes
            have referenced : ref.2.snapshotId ∈ state.metadata.listRefs :=
              List.mem_map_of_mem member
            exact absurd referenced (Metadata.expired_unreferenced removes)
      · cases taken
  | land client =>
      simp only [Catalog.step] at taken
      split at taken
      · rename_i request posted
        split at taken
        · rename_i lands
          cases taken
          have landed := guarded.lands posted lands.2 (unraced ⟨request, posted, lands⟩)
          rw [Service.settle_of_present landed.present]
          exact landed
        · cases taken
          exact guarded.retire client
      · cases taken
  | abandon client =>
      cases taken
      exact guarded.retire client

/-- Nothing is under way, and every reference points at a snapshot. -/
structure State.Quiet (state : State Content) : Prop where
  present : state.metadata.RefsPresent
  issued : ∀ snapshotId ∈ state.metadata.snapshotIds, snapshotId ∈ state.issued
  idle : ∀ client, state.clients client = .idle

theorem State.Quiet.guarded {state : State Content} (quiet : state.Quiet) : Guarded state where
  present := quiet.present
  issued := quiet.issued
  watchedIssued client := by simp [quiet.idle client, Client.watched]
  postedIssued client := by simp [quiet.idle client, Client.posted]
  postedNew client := by simp [quiet.idle client, Client.posted]
  postedOnce client := by simp [quiet.idle client, Client.posted]
  unwatched client := by simp [quiet.idle client, Client.posted]
  covered client := by simp [quiet.idle client, Client.Covered]

/-- A step that is a race leaves a reference without its snapshot, or the catalog drops it. -/
theorem stranded_of_raced {state next : State Content} {action : Action Content}
    (taken : step catalog state action = some next)
    (raced : ¬ Unraced catalog state action) :
    ¬ (next.metadata.RefsPresent ∧ ¬ Loses catalog state action) := by
  cases action with
  | land client =>
      obtain ⟨⟨request, posted, valid, accepted⟩, unsafely⟩ := Classical.not_imp.mp raced
      have landed : next.metadata = catalog.settle (request.apply state.metadata) := by
        simp only [step, Option.mem_def.mp posted, valid, accepted, and_self, if_true,
          Option.some.injEq] at taken
        rw [← taken]
      rintro ⟨settled, lossless⟩
      have present : (request.apply state.metadata).RefsPresent := by
        intro ref member
        cases dropped : catalog.drops (request.apply state.metadata) ref with
        | false =>
            rw [landed] at settled
            exact settled ref (List.mem_filter.mpr ⟨member, by simp [dropped]⟩)
        | true =>
            exact absurd ⟨request, posted, valid, accepted, ref, member, dropped⟩ lossless
      apply unsafely
      cases shape : state.clients client with
      | posting uuid post =>
          simp only [shape, Client.request, Option.mem_def, Option.some.injEq] at posted
          subst posted
          intro snapshotId chosen
          obtain ⟨ref, member, rfl⟩ := Post.chosen_mem_refs state.metadata uuid chosen
          have added : post.added = none := by
            cases post with
            | createRef name src anchorMain kind => rfl
            | _ => cases chosen
          simpa [Post.snapshotIds_apply, added] using present ref member
      | removing uuid head expire chosen =>
          simp only [shape, Client.request, Option.mem_def, Option.some.injEq] at posted
          subst posted
          rintro snapshotId - removes ref member same
          have kept := (mem_snapshotIds_removeSnapshotsRequest _ uuid head expire _).mp
            (present ref member)
          exact kept.2 (same ▸ removes)
      | _ => trivial
  | _ => exact absurd trivial raced

/-- A run without a race keeps every reference at a snapshot of the table, and its next step does
so, without a reference that the catalog drops, exactly when it is no race. -/
theorem refsPresent_iff_unraced {first last : State Content} (quiet : first.Quiet)
    (run : Run (step catalog) (Unraced catalog) first last) :
    last.metadata.RefsPresent ∧ ∀ action next, step catalog last action = some next →
      (next.metadata.RefsPresent ∧ ¬ Loses catalog last action ↔ Unraced catalog last action) := by
  have guarded : Guarded last :=
    run.invariant (fun _ _ _ guarded unraced taken => guarded.step unraced taken) quiet.guarded
  constructor
  · exact guarded.present
  · intro action next taken
    constructor
    · intro present
      by_contra raced
      exact stranded_of_raced taken raced present
    · intro unraced
      refine ⟨(guarded.step unraced taken).present, fun loses => ?_⟩
      cases action with
      | land client =>
          obtain ⟨request, posted, valid, accepted, ref, member, dropped⟩ := loses
          have landed := guarded.lands posted accepted (unraced ⟨request, posted, valid, accepted⟩)
          exact catalog.drops_absent _ ref dropped (landed.present ref member)
      | _ => exact loses

/-! ## One schedule -/

/-- Two snapshots on `main`, and nothing under way. -/
def twoSnapshots : State Unit where
  metadata :=
    { uuid := "t"
      snapshots := [⟨1, none, 10, ()⟩, ⟨2, some 1, 20, ()⟩]
      refs := [(mainBranch, ⟨2, .branch⟩)] }
  issued := [1, 2]
  clients _ := .idle

theorem twoSnapshots_quiet : twoSnapshots.Quiet where
  present := by unfold Metadata.RefsPresent; decide
  issued := by decide
  idle _ := rfl

/-- A catalog that refuses a reference to a snapshot it does not have. When a commit removes the
snapshot of a reference it leaves the reference, or drops it. -/
def refusesUnknown (sweeps : Bool) : Service Content where
  validates metadata request := request.updates.all fun
    | .setSnapshotRef _ reference =>
        reference.snapshotId ∈ (request.apply metadata).snapshotIds
    | _ => true
  drops metadata ref := sweeps && decide (ref.2.snapshotId ∉ metadata.snapshotIds)
  drops_absent metadata ref dropped := by simpa using (Bool.and_eq_true_iff.mp dropped).2

/-- One expiry, and a branch created at the older snapshot after it has read the references. -/
def expiryAroundCreate : List (Action Unit) :=
  [.loadExpiry 0 1, .listRefs 0, .plan 1 (.createBranch "dev" (some 1)), .land 1, .land 0]

/-- The expiry alone. -/
def expiryAlone : List (Action Unit) :=
  [.loadExpiry 0 1, .listRefs 0, .land 0]

def isUnraced (state : State Content) : Action Content → Bool
  | .land client =>
      match state.clients client with
      | .posting _ post =>
          post.chosen.all fun snapshotId => snapshotId ∈ state.metadata.snapshotIds
      | .removing _ _ expire chosen =>
          chosen.all fun snapshotId => snapshotId ∉ expire
      | _ => true
  | _ => true

theorem unraced_of_isUnraced (state : State Content) (action : Action Content)
    (passes : isUnraced state action = true) : Unraced catalog state action := by
  cases action with
  | land client =>
      intro _
      simp only [isUnraced] at passes
      cases shape : state.clients client with
      | posting uuid post =>
          intro snapshotId chosen
          simpa [shape, Option.mem_def.mp chosen] using passes
      | removing uuid head expire chosen =>
          rw [shape] at passes
          intro snapshotId chose removes
          have kept := List.all_eq_true.mp passes snapshotId chose
          simp [removes] at kept
      | _ => trivial
  | _ => trivial

/-- An expiry that nothing races. -/
theorem refsPresent_iff_unraced_alone :
    (execute (step (refusesUnknown true)) isUnraced twoSnapshots
        expiryAlone).metadata.snapshotIds = [2] ∧
      (execute (step (refusesUnknown true)) isUnraced twoSnapshots
        expiryAlone).metadata.RefsPresent :=
  ⟨by decide +kernel, (refsPresent_iff_unraced twoSnapshots_quiet
    (run_execute unraced_of_isUnraced twoSnapshots expiryAlone)).1⟩

/-- The expiry removes the snapshot at which a branch was created since it read the references. A
catalog that drops what it leaves loses the branch. -/
theorem expiry_strands_branch :
    (¬ ∀ first last : State Unit, first.Quiet →
      Run (step (refusesUnknown false)) Unrestricted first last → last.metadata.RefsPresent) ∧
    (execute (step (refusesUnknown true)) (fun _ _ => true) twoSnapshots
      expiryAroundCreate).metadata.refSnapshotId "dev" = none := by
  refine ⟨fun claimed => ?_, by decide +kernel⟩
  have run : Run (step (refusesUnknown false)) Unrestricted twoSnapshots
      (execute (step (refusesUnknown false)) (fun _ _ => true) twoSnapshots expiryAroundCreate) :=
    run_execute (fun _ _ _ => trivial) _ _
  have present := claimed _ _ twoSnapshots_quiet run ("dev", ⟨1, .branch⟩)
    (by decide +kernel)
  revert present
  decide +kernel

end Icegres.Catalog
