import Mathlib.Data.List.Chain
import Mathlib.Data.List.Nodup
import Mathlib.Data.List.Perm.Subperm
import Mathlib.Logic.Relation
import Mathlib.Order.Basic

/-!
# Parent chains

A partial parent function tells of each node that it is unknown, a root, or the child of another
node. A walk follows the parents of a node until a root, an unknown node or one it has seen. What
it lists is the known part of the chain, and the first node it shares with another walk is the
nearest one on both.
-/

namespace Icegres.Lineage

variable {Node : Type}

section Chains

variable (parentOf : Node → Option (Option Node))

/-- The known parent of a known node. -/
def Parent (child parent : Node) : Prop :=
  parentOf child = some (some parent)

/-- A known node that is reached from the head through known ones. -/
def OnChain (head node : Node) : Prop :=
  Relation.ReflTransGen (Parent parentOf) head node ∧ (parentOf node).isSome

/-- No node is its own proper ancestor. -/
def Acyclic : Prop :=
  ∀ node, ¬ Relation.TransGen (Parent parentOf) node node

/-- A node on both chains behind which all nodes on both chains lie. -/
def Nearest (left right node : Node) : Prop :=
  OnChain parentOf left node ∧ OnChain parentOf right node ∧
    ∀ other, OnChain parentOf left other → OnChain parentOf right other →
      OnChain parentOf node other

variable {parentOf}

theorem OnChain.trans {head middle node : Node} (first : OnChain parentOf head middle)
    (second : OnChain parentOf middle node) : OnChain parentOf head node :=
  ⟨first.1.trans second.1, second.2⟩

theorem onChain_self {node : Node} (known : (parentOf node).isSome) :
    OnChain parentOf node node :=
  ⟨.refl, known⟩

/-- A chain begins with its head or is empty. -/
theorem OnChain.head_isSome {head node : Node} (chained : OnChain parentOf head node) :
    (parentOf head).isSome := by
  obtain ⟨reached, known⟩ := chained
  induction reached using Relation.ReflTransGen.head_induction_on with
  | refl => exact known
  | head edge rest ih => simp [show parentOf _ = _ from edge]

theorem Nearest.symm {left right node : Node} (nearest : Nearest parentOf left right node) :
    Nearest parentOf right left node :=
  ⟨nearest.2.1, nearest.1, fun other onRight onLeft => nearest.2.2 other onLeft onRight⟩

/-- Two nodes that are ancestors of each other are one, where nothing is cyclic. -/
theorem Acyclic.antisymm (acyclic : Acyclic parentOf) {left right : Node}
    (down : Relation.ReflTransGen (Parent parentOf) left right)
    (up : Relation.ReflTransGen (Parent parentOf) right left) : left = right := by
  rcases Relation.reflTransGen_iff_eq_or_transGen.mp down with same | proper
  · exact same.symm
  · exact absurd (proper.trans_left up) (acyclic left)

/-- Parents that are always smaller form no cycle. -/
theorem acyclic_of_lt [Preorder Node]
    (smaller : ∀ child parent, Parent parentOf child parent → parent < child) :
    Acyclic parentOf := by
  have below : ∀ head node, Relation.TransGen (Parent parentOf) head node → node < head := by
    intro head node reached
    induction reached with
    | single edge => exact smaller _ _ edge
    | tail _ edge ih => exact (smaller _ _ edge).trans ih
  exact fun node cycle => lt_irrefl node (below node node cycle)

theorem Nearest.unique (acyclic : Acyclic parentOf) {left right node other : Node}
    (first : Nearest parentOf left right node) (second : Nearest parentOf left right other) :
    node = other :=
  acyclic.antisymm (first.2.2 other second.1 second.2.1).1 (second.2.2 node first.1 first.2.1).1

/-- A chain is kept when every node that is known keeps its parent. -/
theorem OnChain.mono {later : Node → Option (Option Node)}
    (kept : ∀ node parent, parentOf node = some parent → later node = some parent)
    {head node : Node} (chained : OnChain parentOf head node) : OnChain later head node := by
  obtain ⟨reached, known⟩ := chained
  obtain ⟨parent, isParent⟩ := Option.isSome_iff_exists.mp known
  refine ⟨?_, by simp [kept node parent isParent]⟩
  clear isParent known
  induction reached with
  | refl => exact .refl
  | tail _ edge ih => exact ih.tail (kept _ _ edge)

end Chains

section Walks

variable [DecidableEq Node] (parentOf : Node → Option (Option Node))

/-- Follow the parents, at most this many steps: `none` when the walk has not ended by then. -/
def walk : Nat → List Node → Option Node → Option (List Node)
  | _, _, none => some []
  | 0, _, some _ => none
  | fuel + 1, seen, some node =>
      if node ∈ seen then some []
      else
        match parentOf node with
        | none => some []
        | some parent => (walk fuel (node :: seen) parent).map (node :: ·)

variable {parentOf}

/-- The cases of a walk that has ended. -/
theorem walk_eq_some {fuel : Nat} {seen nodes : List Node} {node : Node}
    (walked : walk parentOf fuel seen (some node) = some nodes) :
    (nodes = [] ∧ (node ∈ seen ∨ parentOf node = none)) ∨
      ∃ fewer parent later, fuel = fewer + 1 ∧ node ∉ seen ∧ parentOf node = some parent ∧
        walk parentOf fewer (node :: seen) parent = some later ∧ nodes = node :: later := by
  cases fuel with
  | zero => simp [walk] at walked
  | succ fuel =>
      by_cases old : node ∈ seen
      · obtain rfl : [] = nodes := by simpa [walk, old] using walked
        exact .inl ⟨rfl, .inl old⟩
      · cases parent : parentOf node with
        | none =>
            obtain rfl : [] = nodes := by simpa [walk, old, parent] using walked
            exact .inl ⟨rfl, .inr rfl⟩
        | some next =>
            obtain ⟨later, rest, rfl⟩ : ∃ later,
                walk parentOf fuel (node :: seen) next = some later ∧ node :: later = nodes := by
              simpa [walk, old, parent] using walked
            exact .inr ⟨fuel, next, later, rfl, old, rfl, rest, rfl⟩

/-- A walk that has ended stays as it is with more steps allowed. -/
theorem walk_mono {fuel more : Nat} {seen nodes : List Node} {node : Option Node}
    (walked : walk parentOf fuel seen node = some nodes) (enough : fuel ≤ more) :
    walk parentOf more seen node = some nodes := by
  induction fuel generalizing more seen nodes node with
  | zero =>
      cases node with
      | none => simpa [walk] using walked
      | some node => simp [walk] at walked
  | succ fuel ih =>
      obtain ⟨more, rfl⟩ := Nat.exists_eq_add_of_le' (show 1 ≤ more by omega)
      cases node with
      | none => simpa [walk] using walked
      | some node =>
          rcases walk_eq_some walked with ⟨rfl, old | unknown⟩ |
            ⟨fewer, parent, later, same, fresh, known, rest, rfl⟩
          · simp [walk, old]
          · simp [walk, unknown]
          · obtain rfl : fuel = fewer := by omega
            simp [walk, fresh, known, ih rest (by omega : fuel ≤ more)]

/-- Every walk ends: each step sees a known node that was not seen before. -/
theorem walk_isSome {known : List Node} (finite : ∀ node, (parentOf node).isSome → node ∈ known)
    {fuel : Nat} {seen : List Node} (distinct : seen.Nodup) (within : seen ⊆ known)
    (enough : known.length < fuel + seen.length) (node : Option Node) :
    (walk parentOf fuel seen node).isSome := by
  induction fuel generalizing seen node with
  | zero =>
      have few := (List.subperm_of_subset distinct within).length_le
      omega
  | succ fuel ih =>
      cases node with
      | none => simp [walk]
      | some node =>
          by_cases old : node ∈ seen
          · simp [walk, old]
          · cases parent : parentOf node with
            | none => simp [walk, old, parent]
            | some next =>
                have member : node ∈ known := finite node (by simp [parent])
                have ended := ih (List.nodup_cons.mpr ⟨old, distinct⟩)
                  (List.cons_subset.mpr ⟨member, within⟩)
                  (by rw [List.length_cons]; omega) next
                simpa [walk, old, parent] using ended

/-- What a walk lists is on the chain of its start. -/
theorem onChain_of_mem_walk {fuel : Nat} {seen nodes : List Node} {head node : Node}
    (walked : walk parentOf fuel seen (some head) = some nodes) (mem : node ∈ nodes) :
    OnChain parentOf head node := by
  induction fuel generalizing seen nodes head with
  | zero => simp [walk] at walked
  | succ fuel ih =>
      rcases walk_eq_some walked with ⟨rfl, -⟩ |
        ⟨fewer, parent, later, same, fresh, known, rest, rfl⟩
      · cases mem
      · obtain rfl : fuel = fewer := by omega
        rcases List.mem_cons.mp mem with rfl | deeper
        · exact onChain_self (by simp [known])
        · cases parent with
          | none =>
              obtain rfl : [] = later := by simpa [walk] using rest
              cases deeper
          | some parent =>
              obtain ⟨reached, isKnown⟩ := ih rest deeper
              exact ⟨.head known reached, isKnown⟩

/-- A walk lists its chain in order: what comes later is a proper ancestor of what comes
earlier. -/
theorem pairwise_walk {fuel : Nat} {seen nodes : List Node} {head : Option Node}
    (walked : walk parentOf fuel seen head = some nodes) :
    nodes.Pairwise (Relation.TransGen (Parent parentOf)) := by
  induction fuel generalizing seen nodes head with
  | zero =>
      cases head with
      | none =>
          obtain rfl : [] = nodes := by simpa [walk] using walked
          exact .nil
      | some head => simp [walk] at walked
  | succ fuel ih =>
      cases head with
      | none =>
          obtain rfl : [] = nodes := by simpa [walk] using walked
          exact .nil
      | some head =>
          rcases walk_eq_some walked with ⟨rfl, -⟩ |
            ⟨fewer, parent, later, same, fresh, known, rest, rfl⟩
          · exact .nil
          · obtain rfl : fuel = fewer := by omega
            refine .cons (fun node mem => ?_) (ih rest)
            cases parent with
            | none =>
                obtain rfl : [] = later := by simpa [walk] using rest
                cases mem
            | some parent => exact .head' known (onChain_of_mem_walk rest mem).1

/-- Seen and listed nodes together lose no known parent, and have the start if it is known. -/
theorem walk_closed {fuel : Nat} {seen nodes : List Node} {head : Option Node}
    (walked : walk parentOf fuel seen head = some nodes)
    (leads : ∀ node ∈ seen, ∀ parent, Parent parentOf node parent →
      parent ∈ seen ∨ head = some parent) :
    (∀ node, head = some node → (parentOf node).isSome → node ∈ seen ∨ node ∈ nodes) ∧
      ∀ node parent, node ∈ seen ∨ node ∈ nodes → Parent parentOf node parent →
        (parentOf parent).isSome → parent ∈ seen ∨ parent ∈ nodes := by
  induction fuel generalizing seen nodes head with
  | zero =>
      cases head with
      | none =>
          obtain rfl : [] = nodes := by simpa [walk] using walked
          refine ⟨by simp, fun node parent mem edge _ => .inl ?_⟩
          simpa using leads node (by simpa using mem) parent edge
      | some head => simp [walk] at walked
  | succ fuel ih =>
      cases head with
      | none =>
          obtain rfl : [] = nodes := by simpa [walk] using walked
          refine ⟨by simp, fun node parent mem edge _ => .inl ?_⟩
          simpa using leads node (by simpa using mem) parent edge
      | some head =>
          rcases walk_eq_some walked with ⟨rfl, stopped⟩ |
            ⟨fewer, parent, later, same, fresh, known, rest, rfl⟩
          · have start : (parentOf head).isSome → head ∈ seen := by
              intro isKnown
              rcases stopped with old | unknown
              · exact old
              · simp [unknown] at isKnown
            refine ⟨fun node atHead isKnown => ?_, fun node parent mem edge isKnown => ?_⟩
            · cases atHead
              exact .inl (start isKnown)
            · rcases leads node (by simpa using mem) parent edge with old | atHead
              · exact .inl old
              · cases atHead
                exact .inl (start isKnown)
          · obtain rfl : fuel = fewer := by omega
            have nextLeads : ∀ node ∈ head :: seen, ∀ next, Parent parentOf node next →
                next ∈ head :: seen ∨ parent = some next := by
              intro node mem next edge
              rcases List.mem_cons.mp mem with rfl | old
              · exact .inr (Option.some.inj (known.symm.trans edge))
              · rcases leads node old next edge with older | atHead
                · exact .inl (List.mem_cons_of_mem _ older)
                · cases atHead
                  exact .inl List.mem_cons_self
            obtain ⟨-, closed⟩ := ih rest nextLeads
            have regroup : ∀ node, node ∈ head :: seen ∨ node ∈ later ↔
                node ∈ seen ∨ node ∈ head :: later := by
              intro node
              simp only [List.mem_cons]
              tauto
            refine ⟨fun node atHead _ => ?_, fun node next mem edge isKnown => ?_⟩
            · cases atHead
              exact .inr List.mem_cons_self
            · exact (regroup next).mp (closed node next ((regroup node).mpr mem) edge isKnown)

/-- A finished walk lists exactly the chain of its start. -/
theorem mem_walk_iff {fuel : Nat} {nodes : List Node} {head node : Node}
    (walked : walk parentOf fuel [] (some head) = some nodes) :
    node ∈ nodes ↔ OnChain parentOf head node := by
  refine ⟨onChain_of_mem_walk walked, fun chained => ?_⟩
  obtain ⟨starts, closed⟩ := walk_closed walked (by simp)
  have knownHead := chained.head_isSome
  obtain ⟨reached, known⟩ := chained
  induction reached with
  | refl => simpa using starts head rfl known
  | @tail child parent _ edge ih =>
      have before : (parentOf child).isSome := by simp [show parentOf child = _ from edge]
      simpa using closed child parent (.inr (ih before)) edge known

/-- The first node of one walk that another lists is the nearest node on both chains. -/
theorem nearest_of_find {fuel more : Nat} {lefts rights : List Node} {left right node : Node}
    (leftWalk : walk parentOf fuel [] (some left) = some lefts)
    (rightWalk : walk parentOf more [] (some right) = some rights)
    (found : rights.find? (fun node => node ∈ lefts) = some node) :
    Nearest parentOf left right node := by
  obtain ⟨shared, front, back, split, before⟩ := List.find?_eq_some_iff_append.mp found
  have onLeft := (mem_walk_iff leftWalk).mp (of_decide_eq_true shared)
  have onRight := (mem_walk_iff rightWalk).mp (split ▸ List.mem_append_right _ List.mem_cons_self)
  refine ⟨onLeft, onRight, fun other otherLeft otherRight => ?_⟩
  have listed : other ∈ rights := (mem_walk_iff rightWalk).mpr otherRight
  have inLefts : other ∈ lefts := (mem_walk_iff leftWalk).mpr otherLeft
  rw [split] at listed
  rcases List.mem_append.mp listed with earlier | atOrBehind
  · simpa [inLefts] using before other earlier
  · rcases List.mem_cons.mp atOrBehind with rfl | behind
    · exact onChain_self otherLeft.2
    · have ordered := pairwise_walk rightWalk
      rw [split, List.pairwise_append] at ordered
      exact ⟨((List.pairwise_cons.mp ordered.2.1).1 other behind).to_reflTransGen, otherLeft.2⟩

/-- There is no such node exactly when the chains have none in common. -/
theorem find_eq_none_iff {fuel more : Nat} {lefts rights : List Node} {left right : Node}
    (leftWalk : walk parentOf fuel [] (some left) = some lefts)
    (rightWalk : walk parentOf more [] (some right) = some rights) :
    rights.find? (fun node => node ∈ lefts) = none ↔
      ∀ node, OnChain parentOf left node → ¬ OnChain parentOf right node := by
  simp only [List.find?_eq_none, decide_eq_true_eq, mem_walk_iff leftWalk,
    mem_walk_iff rightWalk]
  exact ⟨fun apart node onLeft onRight => apart node onRight onLeft,
    fun apart node onRight onLeft => apart node onLeft onRight⟩

end Walks

end Icegres.Lineage
