import Mathlib.Algebra.Order.Group.Multiset
import Mathlib.Algebra.Ring.Nat
import Mathlib.Data.Finset.Lattice.Lemmas
import Mathlib.Data.Multiset.Filter
import Mathlib.Tactic.Abel

/-!
# Layers of keyed changes

A layer collects changes to a table whose rows carry keys: rows appended, keys overwritten or
deleted, and the rows put in place of them. Committing a layer appends its rows, removes every
row of a touched key and then puts the replacements. Reading through uncommitted layers hides
the committed rows of touched keys and adds an overlay; the two agree for any stack of layers.
-/

namespace Icegres

variable {Row Key : Type} [DecidableEq Key] (keyOf : Row → Key)

/-- Changes not yet committed. A replacement row carries a touched key. -/
structure Layer where
  appends : Multiset Row
  keys : Finset Key
  puts : Multiset Row
  touched : ∀ row ∈ puts, keyOf row ∈ keys

namespace Layer

variable {keyOf}

/-- The rows of keys outside a set. -/
def outside (keyOf : Row → Key) (keys : Finset Key) (rows : Multiset Row) : Multiset Row :=
  rows.filter fun row => keyOf row ∉ keys

@[simp] theorem outside_add (keys : Finset Key) (left right : Multiset Row) :
    outside keyOf keys (left + right) = outside keyOf keys left + outside keyOf keys right :=
  Multiset.filter_add _ _ _

@[simp] theorem outside_outside (first second : Finset Key) (rows : Multiset Row) :
    outside keyOf first (outside keyOf second rows) = outside keyOf (first ∪ second) rows := by
  simp only [outside, Multiset.filter_filter, Finset.mem_union, not_or]

@[simp] theorem outside_empty (rows : Multiset Row) : outside keyOf ∅ rows = rows := by
  simp [outside]

/-- Nothing is left of rows whose keys are all in the set. -/
theorem outside_eq_zero {keys : Finset Key} {rows : Multiset Row}
    (inside : ∀ row ∈ rows, keyOf row ∈ keys) : outside keyOf keys rows = 0 := by
  simpa [outside, Multiset.filter_eq_nil] using inside

/-- All is left of rows whose keys are not in the set. -/
theorem outside_eq_self {keys : Finset Key} {rows : Multiset Row}
    (apart : ∀ row ∈ rows, keyOf row ∉ keys) : outside keyOf keys rows = rows := by
  simpa [outside, Multiset.filter_eq_self] using apart

/-- Append, remove the touched keys, put the replacements. -/
def commit (layer : Layer keyOf) (rows : Multiset Row) : Multiset Row :=
  outside keyOf layer.keys (rows + layer.appends) + layer.puts

/-- Commit layers, the oldest first. -/
def commitAll (layers : List (Layer keyOf)) (rows : Multiset Row) : Multiset Row :=
  layers.foldl (fun rows layer => layer.commit rows) rows

@[simp] theorem commitAll_nil (rows : Multiset Row) :
    commitAll ([] : List (Layer keyOf)) rows = rows := rfl

@[simp] theorem commitAll_cons (layer : Layer keyOf) (newer : List (Layer keyOf))
    (rows : Multiset Row) :
    commitAll (layer :: newer) rows = commitAll newer (layer.commit rows) := rfl

/-- The keys any of the layers touches. -/
def suppressed (layers : List (Layer keyOf)) : Finset Key :=
  layers.foldr (fun layer keys => layer.keys ∪ keys) ∅

@[simp] theorem suppressed_nil : suppressed ([] : List (Layer keyOf)) = ∅ := rfl

@[simp] theorem suppressed_cons (layer : Layer keyOf) (newer : List (Layer keyOf)) :
    suppressed (layer :: newer) = layer.keys ∪ suppressed newer := rfl

/-- The rows the layers add: a layer's own touched keys hide its appended rows, and those of
newer layers hide everything below them. -/
def overlay : List (Layer keyOf) → Multiset Row
  | [] => 0
  | layer :: newer =>
    outside keyOf (suppressed newer ∪ layer.keys) layer.appends +
      outside keyOf (suppressed newer) layer.puts + overlay newer

/-- Reading through the layers is committing them. -/
theorem commitAll_eq (layers : List (Layer keyOf)) (rows : Multiset Row) :
    commitAll layers rows = outside keyOf (suppressed layers) rows + overlay layers := by
  induction layers generalizing rows with
  | nil => simp [overlay]
  | cons layer newer ih =>
      rw [commitAll_cons, ih, commit, overlay, suppressed_cons]
      simp only [outside_add, outside_outside, Finset.union_comm layer.keys, add_assoc]

/-- Two layers as one: where both touch a key, the newer one decides. -/
def merge (older newer : Layer keyOf) : Layer keyOf where
  appends := older.appends + newer.appends
  keys := older.keys ∪ newer.keys
  puts := outside keyOf newer.keys older.puts + newer.puts
  touched row mem := by
    rcases Multiset.mem_add.mp mem with old | new
    · exact Finset.mem_union_left _ (older.touched row (Multiset.mem_filter.mp old).1)
    · exact Finset.mem_union_right _ (newer.touched row new)

/-- Merging changes nothing as long as the newer layer has not appended to a key that only the
older one touches. -/
theorem commit_merge (older newer : Layer keyOf)
    (apart : ∀ row ∈ newer.appends, keyOf row ∈ older.keys → keyOf row ∈ newer.keys)
    (rows : Multiset Row) :
    (older.merge newer).commit rows = newer.commit (older.commit rows) := by
  have appends : outside keyOf (older.keys ∪ newer.keys) newer.appends =
      outside keyOf newer.keys newer.appends := by
    apply Multiset.filter_congr
    intro row mem
    simp only [Finset.mem_union, not_or]
    exact ⟨And.right, fun untouched => ⟨fun older => untouched (apart row mem older), untouched⟩⟩
  simp only [commit, merge, outside_add, outside_outside, appends,
    Finset.union_comm newer.keys older.keys]
  abel

end Layer

end Icegres
