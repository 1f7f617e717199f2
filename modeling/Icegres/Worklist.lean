import Mathlib.Algebra.Ring.Nat
import Mathlib.Data.List.Basic
import Mathlib.Logic.Relation

/-!
# Searching a graph with a stack

A graph is a list of nodes with their successors, and a node may be listed by no entry. A search
takes nodes off a stack; one that it has not seen yet puts its successors on the stack. It ends on
every graph, because each entry is put on the stack at most once, and it has then seen what is
reached from the stack.
-/

namespace Icegres.Worklist

variable {Node : Type} [DecidableEq Node]

/-- The successors of a node. -/
def successors (edges : List (Node × List Node)) (node : Node) : List Node :=
  (edges.lookup node).getD []

def Edge (edges : List (Node × List Node)) (node next : Node) : Prop :=
  next ∈ successors edges node

/-- How much the nodes that are not seen yet can put on the stack. -/
def pending (edges : List (Node × List Node)) (seen : List Node) : Nat :=
  ((edges.filter fun entry => entry.1 ∉ seen).map fun entry => entry.2.length).sum

theorem pending_entry (source : Node) (targets : List Node) (rest : List (Node × List Node))
    (seen : List Node) :
    pending ((source, targets) :: rest) seen =
      (if source ∈ seen then 0 else targets.length) + pending rest seen := by
  by_cases mem : source ∈ seen
  · simp [pending, mem]
  · simp [pending, mem]

/-- What a node puts on the stack is no longer pending. -/
theorem pending_cons {edges : List (Node × List Node)} {seen : List Node} {node : Node}
    (fresh : node ∉ seen) :
    pending edges (node :: seen) + (successors edges node).length ≤ pending edges seen := by
  have less (rest : List (Node × List Node)) : pending rest (node :: seen) ≤ pending rest seen := by
    induction rest with
    | nil => exact Nat.le_refl _
    | cons entry rest ih =>
        obtain ⟨source, targets⟩ := entry
        rw [pending_entry, pending_entry]
        by_cases mem : source ∈ seen
        · rw [if_pos (List.mem_cons_of_mem _ mem), if_pos mem]
          omega
        · rw [if_neg mem]
          split
          · omega
          · omega
  induction edges with
  | nil => exact Nat.le_refl _
  | cons entry rest ih =>
      obtain ⟨source, targets⟩ := entry
      rw [pending_entry, pending_entry]
      unfold successors at ih ⊢
      by_cases own : source = node
      · subst own
        have restLess := less rest
        rw [if_pos List.mem_cons_self, if_neg fresh, List.lookup_cons_self, Option.getD_some]
        omega
      · have apart : (node == source) = false := beq_false_of_ne (Ne.symm own)
        have same : source ∈ node :: seen ↔ source ∈ seen := by
          rw [List.mem_cons]
          exact or_iff_right own
        rw [List.lookup_cons, apart]
        simp only [same]
        omega

/-- Take nodes off the stack until it is empty. -/
def search (edges : List (Node × List Node)) (seen : List Node) : List Node → List Node
  | [] => seen
  | node :: stack =>
      if node ∈ seen then search edges seen stack
      else search edges (node :: seen) ((successors edges node).reverse ++ stack)
termination_by stack => pending edges seen + stack.length
decreasing_by
  · simp
  · next fresh =>
      have less := @pending_cons _ _ edges seen node fresh
      simp only [List.length_append, List.length_reverse, List.length_cons]
      omega

/-! ## What is found -/

section Search

variable {edges : List (Node × List Node)}

/-- The successors of every node seen are seen or on the stack. -/
def Closed (edges : List (Node × List Node)) (seen stack : List Node) : Prop :=
  ∀ node ∈ seen, ∀ next, Edge edges node next → next ∈ seen ∨ next ∈ stack

/-- A node that was seen before leaves the stack. -/
theorem Closed.skip {seen stack : List Node} {node : Node} (mem : node ∈ seen)
    (closed : Closed edges seen (node :: stack)) : Closed edges seen stack := by
  intro source isSeen next edge
  rcases closed source isSeen next edge with seen | onStack
  · exact .inl seen
  · rcases List.mem_cons.mp onStack with rfl | later
    · exact .inl mem
    · exact .inr later

/-- A node that is seen for the first time puts its successors on the stack. -/
theorem Closed.visit {seen stack : List Node} {node : Node}
    (closed : Closed edges seen (node :: stack)) :
    Closed edges (node :: seen) ((successors edges node).reverse ++ stack) := by
  intro source isSeen next edge
  rcases List.mem_cons.mp isSeen with rfl | before
  · exact .inr (List.mem_append_left _ (List.mem_reverse.mpr edge))
  · rcases closed source before next edge with seen | onStack
    · exact .inl (List.mem_cons_of_mem _ seen)
    · rcases List.mem_cons.mp onStack with rfl | later
      · exact .inl List.mem_cons_self
      · exact .inr (List.mem_append_right _ later)

/-- What was seen before or on the stack is seen, and so is all that follows. -/
theorem search_closed (seen stack : List Node) (closed : Closed edges seen stack) :
    (∀ node, node ∈ seen ∨ node ∈ stack → node ∈ search edges seen stack) ∧
      ∀ node ∈ search edges seen stack, ∀ next, Edge edges node next →
        next ∈ search edges seen stack := by
  induction seen, stack using search.induct edges with
  | case1 seen =>
      rw [search]
      refine ⟨fun node mem => mem.resolve_right List.not_mem_nil, fun node mem next edge => ?_⟩
      exact (closed node mem next edge).resolve_right List.not_mem_nil
  | case2 seen node stack mem ih =>
      obtain ⟨covers, follows⟩ := ih (closed.skip mem)
      rw [search, if_pos mem]
      refine ⟨fun other isOther => covers other ?_, follows⟩
      rcases isOther with isSeen | onStack
      · exact .inl isSeen
      · rcases List.mem_cons.mp onStack with rfl | later
        · exact .inl mem
        · exact .inr later
  | case3 seen node stack fresh ih =>
      obtain ⟨covers, follows⟩ := ih closed.visit
      rw [search, if_neg fresh]
      refine ⟨fun other isOther => covers other ?_, follows⟩
      rcases isOther with isSeen | onStack
      · exact .inl (List.mem_cons_of_mem _ isSeen)
      · rcases List.mem_cons.mp onStack with rfl | later
        · exact .inl List.mem_cons_self
        · exact .inr (List.mem_append_right _ later)

/-- Nothing else is seen. -/
theorem search_reached (seen stack : List Node) {found : Node}
    (mem : found ∈ search edges seen stack) :
    found ∈ seen ∨ ∃ root ∈ stack, Relation.ReflTransGen (Edge edges) root found := by
  induction seen, stack using search.induct edges with
  | case1 seen =>
      rw [search] at mem
      exact .inl mem
  | case2 seen node stack isSeen ih =>
      rw [search, if_pos isSeen] at mem
      refine (ih mem).imp_right ?_
      rintro ⟨root, onStack, reached⟩
      exact ⟨root, List.mem_cons_of_mem _ onStack, reached⟩
  | case3 seen node stack fresh ih =>
      rw [search, if_neg fresh] at mem
      rcases ih mem with isSeen | ⟨root, onStack, reached⟩
      · rcases List.mem_cons.mp isSeen with rfl | before
        · exact .inr ⟨found, List.mem_cons_self, .refl⟩
        · exact .inl before
      · rcases List.mem_append.mp onStack with successor | later
        · exact .inr ⟨node, List.mem_cons_self, .head (List.mem_reverse.mp successor) reached⟩
        · exact .inr ⟨root, List.mem_cons_of_mem _ later, reached⟩

/-- A search sees exactly what is reached from its stack. -/
theorem mem_search_iff {roots : List Node} {found : Node} :
    found ∈ search edges [] roots ↔
      ∃ root ∈ roots, Relation.ReflTransGen (Edge edges) root found := by
  constructor
  · intro mem
    exact (search_reached [] roots mem).resolve_left List.not_mem_nil
  · rintro ⟨root, isRoot, reached⟩
    have closed : Closed edges [] roots := by rintro node ⟨⟩
    obtain ⟨covers, follows⟩ := search_closed [] roots closed
    induction reached with
    | refl => exact covers root (.inr isRoot)
    | tail _ edge ih => exact follows _ ih _ edge

/-- From the successors of a node it sees what is reached in one step or more. -/
theorem mem_search_successors_iff {start found : Node} :
    found ∈ search edges [] (successors edges start).reverse ↔
      Relation.TransGen (Edge edges) start found := by
  rw [mem_search_iff, Relation.TransGen.head'_iff]
  simp only [List.mem_reverse, Edge]

end Search

end Icegres.Worklist
