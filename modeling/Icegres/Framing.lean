import Mathlib.Data.List.Basic

/-!
# Frames out of chunks

A reader takes frames off the front of what has arrived. A frame that is whole is not changed by
what arrives behind it, so the reader gets the same frames whatever chunks they arrive in, and of
frames that are cut off anywhere it gets those that are whole.
-/

namespace Icegres

/-- How a frame is taken off the front of what has arrived. -/
structure Framing (Item Frame : Type) where
  split : List Item → Option (Frame × List Item)
  encode : Frame → List Item
  /-- The frames that can be encoded. -/
  Fits : Frame → Prop
  shorter : ∀ {items frame rest}, split items = some (frame, rest) → rest.length < items.length
  split_append : ∀ {items frame rest} more, split items = some (frame, rest) →
    split (items ++ more) = some (frame, rest ++ more)
  split_encode : ∀ {frame}, Fits frame → ∀ rest, split (encode frame ++ rest) = some (frame, rest)
  split_cut : ∀ {frame}, Fits frame → ∀ {items}, items <+: encode frame → items ≠ encode frame →
    split items = none

namespace Framing

variable {Item Frame : Type} (framing : Framing Item Frame)

/-- The frames at the front, and what is left behind them. Every frame takes an item at least, so
as many rounds as there are items are enough. -/
def drain : Nat → List Item → List Frame × List Item
  | 0, items => ([], items)
  | rounds + 1, items =>
    match framing.split items with
    | none => ([], items)
    | some (frame, rest) => (frame :: (drain rounds rest).1, (drain rounds rest).2)

def frames (items : List Item) : List Frame :=
  (framing.drain items.length items).1

def left (items : List Item) : List Item :=
  (framing.drain items.length items).2

variable {framing} {items : List Item}

theorem drain_of_none (taken : framing.split items = none) (rounds : Nat) :
    framing.drain rounds items = ([], items) := by
  cases rounds with
  | zero => rfl
  | succ rounds => rw [drain, taken]

/-- More rounds change nothing. -/
theorem drain_eq {rounds : Nat} (enough : items.length ≤ rounds) :
    framing.drain rounds items = (framing.frames items, framing.left items) := by
  rw [frames, left]
  suffices same : framing.drain rounds items = framing.drain items.length items from by rw [same]
  induction rounds using Nat.strongRecOn generalizing items with
  | ind rounds ih =>
      cases taken : framing.split items with
      | none => rw [drain_of_none taken, drain_of_none taken]
      | some pair =>
          obtain ⟨frame, rest⟩ := pair
          have shorter := framing.shorter taken
          obtain ⟨more, rfl⟩ : ∃ more, rounds = more + 1 := ⟨rounds - 1, by omega⟩
          obtain ⟨length, isLength⟩ : ∃ length, items.length = length + 1 :=
            ⟨items.length - 1, by omega⟩
          rw [isLength, drain, drain, taken]
          dsimp only
          rw [ih more (by omega) (by omega), ← ih length (by omega) (by omega)]

theorem drain_none (taken : framing.split items = none) :
    framing.frames items = [] ∧ framing.left items = items := by
  rw [frames, left, drain_of_none taken]
  exact ⟨rfl, rfl⟩

theorem drain_some {frame : Frame} {rest : List Item}
    (taken : framing.split items = some (frame, rest)) :
    framing.frames items = frame :: framing.frames rest ∧
      framing.left items = framing.left rest := by
  have shorter := framing.shorter taken
  have whole := @drain_eq _ _ framing rest (items.length - 1) (by omega)
  obtain ⟨length, isLength⟩ : ∃ length, items.length = length + 1 :=
    ⟨items.length - 1, by omega⟩
  rw [isLength, Nat.add_sub_cancel] at whole
  rw [frames, left, isLength, drain, taken]
  dsimp only
  rw [whole]
  exact ⟨rfl, rfl⟩

/-- What arrives later is read behind what was left. The induction is over the frames that were
whole before. -/
theorem frames_append (more : List Item) :
    framing.frames (items ++ more) =
      framing.frames items ++ framing.frames (framing.left items ++ more) := by
  induction length : items.length using Nat.strongRecOn generalizing items with
  | ind length ih =>
      cases taken : framing.split items with
      | none =>
          obtain ⟨nothing, all⟩ := drain_none taken
          rw [nothing, all, List.nil_append]
      | some pair =>
          obtain ⟨frame, rest⟩ := pair
          have shorter := framing.shorter taken
          obtain ⟨first, behind⟩ := drain_some taken
          rw [(drain_some (framing.split_append more taken)).1, first, behind, List.cons_append,
            ih rest.length (by omega) rfl]

/-! ## Frames that were encoded -/

theorem frames_encode {frames : List Frame} (fit : ∀ frame ∈ frames, framing.Fits frame)
    (rest : List Item) :
    framing.frames (frames.flatMap framing.encode ++ rest) = frames ++ framing.frames rest := by
  induction frames with
  | nil => rfl
  | cons frame later ih =>
      rw [List.flatMap_cons, List.append_assoc,
        (drain_some (framing.split_encode (fit frame List.mem_cons_self) _)).1,
        ih fun other mem => fit other (List.mem_cons_of_mem _ mem), List.cons_append]

/-- Of encoded frames that are cut off somewhere the first ones are read. -/
theorem frames_cut {frames : List Frame} (fit : ∀ frame ∈ frames, framing.Fits frame)
    {gone : List Item} (some' : gone ≠ []) (cut : items ++ gone = frames.flatMap framing.encode) :
    ∃ whole lost, lost ≠ [] ∧ frames = whole ++ lost ∧ framing.frames items = whole := by
  induction frames generalizing items with
  | nil =>
      rw [List.flatMap_nil] at cut
      exact absurd (List.append_eq_nil_iff.mp cut).2 some'
  | cons frame later ih =>
      have fits := fit frame List.mem_cons_self
      rw [List.flatMap_cons] at cut
      by_cases first : framing.encode frame <+: items
      · obtain ⟨rest, rfl⟩ := first
        rw [List.append_assoc] at cut
        obtain ⟨whole, lost, missing, same, read⟩ :=
          ih (fun other mem => fit other (List.mem_cons_of_mem _ mem))
            (List.append_cancel_left cut)
        refine ⟨frame :: whole, lost, missing, by rw [same, List.cons_append], ?_⟩
        rw [(drain_some (framing.split_encode fits rest)).1, read]
      · have torn : items <+: framing.encode frame := by
          rcases List.prefix_or_prefix_of_prefix ⟨gone, cut⟩
            (List.prefix_append (framing.encode frame) _) with torn | whole
          · exact torn
          · exact absurd whole first
        have taken := framing.split_cut fits torn (by
          rintro rfl
          exact first List.prefix_rfl)
        exact ⟨[], frame :: later, List.cons_ne_nil _ _, rfl, (drain_none taken).1⟩

end Framing

end Icegres
