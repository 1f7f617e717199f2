import Icegres.Fallible
import Icegres.Segment

/-!
# Where the frames of a buffer lie

The walker reports the place of every payload in the buffer it walked. The places tile the buffer
up to the last valid frame, no valid frame is left out, and a buffer that was cut off gives back
the payloads whose frames are still whole.
-/

namespace Icegres.Segment

/-- The positions `[start, stop)` of a buffer. -/
structure ByteRange where
  start : Nat
  stop : Nat
  deriving DecidableEq

/-- The bytes at these positions. -/
def ByteRange.slice (range : ByteRange) (data : List UInt8) : List UInt8 :=
  (data.drop range.start).take (range.stop - range.start)

/-- Result of walking a buffer, with the place of each payload. -/
structure RangeScan where
  payloads : List ByteRange
  goodEnd : Nat
  bad : Option String
  deriving DecidableEq

/-- The loop of the walker from offset `off` on, or nothing when `fuel` rounds are too few. -/
def rangesFrom (data : List UInt8) : Nat → Nat → Option RangeScan
  | 0, _ => none
  | fuel + 1, off =>
    if data.length ≤ off then
      some ⟨[], off, none⟩
    else if data.length - off < frameHeaderBytes then
      some ⟨[], off, some s!"torn header ({data.length - off} trailing bytes)"⟩
    else
      let len := ofLeBytes ((data.drop off).take 4)
      let crc := ofLeBytes ((data.drop (off + 4)).take 4)
      let present := data.length - off - frameHeaderBytes
      if present < len then
        some ⟨[], off, some s!"torn payload (frame wants {len} bytes, {present} present)"⟩
      else
        let start := off + frameHeaderBytes
        if (crc32 ((data.drop start).take len)).toNat ≠ crc then
          some ⟨[], off, some "crc mismatch"⟩
        else
          (rangesFrom data fuel (start + len)).map fun later =>
            ⟨⟨start, start + len⟩ :: later.payloads, later.goodEnd, later.bad⟩

/-- Walk `data` as concatenated frames. A round takes at least a header. -/
def scanFrameRanges (data : List UInt8) : Option RangeScan :=
  rangesFrom data (data.length + 1) 0

/-! ## The places -/

/-- Payloads one behind the other from `off` to `last`, each with its header in front. -/
def FrameTiles : Nat → List ByteRange → Nat → Prop
  | off, [], last => last = off
  | off, range :: rest, last =>
    range.start = off + frameHeaderBytes ∧ range.start ≤ range.stop ∧
      FrameTiles range.stop rest last

theorem FrameTiles.start_le {off last : Nat} {ranges : List ByteRange}
    (tiles : FrameTiles off ranges last) :
    ∀ range ∈ ranges, off + frameHeaderBytes ≤ range.start := by
  induction ranges generalizing off with
  | nil => rintro range ⟨⟩
  | cons first rest ih =>
      obtain ⟨start, wide, later⟩ := tiles
      intro range mem
      rcases List.mem_cons.mp mem with rfl | inRest
      · exact Nat.le_of_eq start.symm
      · have beyond := ih later range inRest
        omega

/-- The places are in order and do not overlap. -/
theorem FrameTiles.pairwise {off last : Nat} {ranges : List ByteRange}
    (tiles : FrameTiles off ranges last) :
    ranges.Pairwise fun earlier later => earlier.stop + frameHeaderBytes ≤ later.start := by
  induction ranges generalizing off with
  | nil => exact List.Pairwise.nil
  | cons range rest ih =>
      obtain ⟨-, -, later⟩ := tiles
      exact List.pairwise_cons.mpr ⟨later.start_le, ih later⟩

/-- The rounds are enough, and the walk by places is the walk over the bytes that are left. The
induction is on the fuel, of which one unit goes with each frame. -/
theorem rangesFrom_spec (data : List UInt8) {fuel off : Nat} (inside : off ≤ data.length)
    (enough : data.length - off < fuel) :
    ∃ scan, rangesFrom data fuel off = some scan ∧ FrameTiles off scan.payloads scan.goodEnd ∧
      scan.payloads.map (fun range => range.slice data) =
        (scanFrom fuel off (data.drop off)).payloads ∧
      scan.goodEnd = (scanFrom fuel off (data.drop off)).goodEnd ∧
      scan.bad = (scanFrom fuel off (data.drop off)).bad := by
  induction fuel generalizing off with
  | zero => omega
  | succ fuel ih =>
      have present : (data.drop off).length = data.length - off := List.length_drop
      have body : (data.drop off).drop frameHeaderBytes = data.drop (off + frameHeaderBytes) :=
        List.drop_drop
      have crcAt : (data.drop off).drop 4 = data.drop (off + 4) := List.drop_drop
      rw [rangesFrom, scanFrom]
      by_cases over' : data.length ≤ off
      · have none' : data.drop off = [] := List.drop_eq_nil_of_le over'
        rw [if_pos over', if_pos none']
        exact ⟨_, rfl, rfl, rfl, rfl, rfl⟩
      · have some' : data.drop off ≠ [] := by
          rw [Ne, List.drop_eq_nil_iff]
          exact over'
        rw [if_neg over', if_neg some', present]
        by_cases header : data.length - off < frameHeaderBytes
        · rw [if_pos header, if_pos header]
          exact ⟨_, rfl, rfl, rfl, rfl, rfl⟩
        · rw [if_neg header, if_neg header]
          simp only [body, crcAt, List.length_drop]
          have width : data.length - (off + frameHeaderBytes) =
              data.length - off - frameHeaderBytes := by omega
          rw [width]
          split
          · exact ⟨_, rfl, rfl, rfl, rfl, rfl⟩
          · next whole =>
            split
            · exact ⟨_, rfl, rfl, rfl, rfl, rfl⟩
            · generalize ofLeBytes ((data.drop off).take 4) = len at whole ⊢
              have next : (data.drop (off + frameHeaderBytes)).drop len =
                  data.drop (off + frameHeaderBytes + len) := List.drop_drop
              obtain ⟨scan, walks, tiles, payloads, goodEnd, bad⟩ :=
                @ih (off + frameHeaderBytes + len) (by omega) (by
                  simp only [frameHeaderBytes] at *
                  omega)
              rw [walks, next]
              refine ⟨_, rfl, ⟨rfl, Nat.le_add_right _ _, tiles⟩, ?_, goodEnd, bad⟩
              rw [List.map_cons, payloads, ByteRange.slice, Nat.add_sub_cancel_left]

/-- What the walk by places returns is what the walk over the bytes returns. -/
theorem scanFrameRanges_spec (data : List UInt8) :
    ∃ scan, scanFrameRanges data = some scan ∧ FrameTiles 0 scan.payloads scan.goodEnd ∧
      scan.payloads.map (fun range => range.slice data) = (scanFrameBytes data).payloads ∧
      scan.goodEnd = (scanFrameBytes data).goodEnd ∧ scan.bad = (scanFrameBytes data).bad :=
  rangesFrom_spec data (Nat.zero_le _) (Nat.lt_succ_self _)

/-! ## Frames at the front -/

/-- Whole frames are taken off the front, and then the walk goes on. -/
theorem scanFrom_append (payloads : List (List UInt8))
    (fits : ∀ payload ∈ payloads, payload.length < 2 ^ 32) (fuel off : Nat) (rest : List UInt8) :
    scanFrom (payloads.length + fuel) off (payloads.flatMap frameOf ++ rest) =
      let later := scanFrom fuel (off + (payloads.flatMap frameOf).length) rest
      ⟨payloads ++ later.payloads, later.goodEnd, later.bad⟩ := by
  induction payloads generalizing off with
  | nil => rw [List.length_nil, Nat.zero_add]; rfl
  | cons payload payloads ih =>
      have count : (payload :: payloads).length + fuel = payloads.length + fuel + 1 := by
        rw [List.length_cons]
        omega
      rw [count, List.flatMap_cons, List.append_assoc,
        scanFrom_frameOf _ off payload _ (fits payload List.mem_cons_self),
        ih (fun other mem => fits other (List.mem_cons_of_mem _ mem))]
      simp [Nat.add_assoc]

/-- The buffer is walked to its end however much fuel there is above its length. -/
theorem scanFrom_fuel (off : Nat) {data : List UInt8} {fuel more : Nat}
    (enough : data.length < fuel) (enough' : data.length < more) :
    scanFrom fuel off data = scanFrom more off data := by
  induction fuel generalizing off data more with
  | zero => omega
  | succ fuel ih =>
      cases more with
      | zero => omega
      | succ more =>
          rw [scanFrom, scanFrom]
          by_cases header : data.length < frameHeaderBytes
          · simp only [header, if_true]
          · have shorter (len : Nat) :
                ((data.drop frameHeaderBytes).drop len).length < data.length := by
              simp only [frameHeaderBytes, List.length_drop] at *
              omega
            simp only [ih _ (Nat.lt_of_lt_of_le (shorter _) (Nat.le_of_lt_succ enough))
              (Nat.lt_of_lt_of_le (shorter _) (Nat.le_of_lt_succ enough'))]

/-- The payloads whose frames are at the front of a buffer are the first the walk returns. -/
theorem scanFrameBytes_append (payloads : List (List UInt8))
    (fits : ∀ payload ∈ payloads, payload.length < 2 ^ 32) (rest : List UInt8) :
    scanFrameBytes (payloads.flatMap frameOf ++ rest) =
      let later := scanFrom (rest.length + 1) (payloads.flatMap frameOf).length rest
      ⟨payloads ++ later.payloads, later.goodEnd, later.bad⟩ := by
  have atLeast := length_le_flatMap_frameOf payloads
  have fuel : scanFrameBytes (payloads.flatMap frameOf ++ rest) =
      scanFrom (payloads.length + ((payloads.flatMap frameOf ++ rest).length + 1)) 0
        (payloads.flatMap frameOf ++ rest) :=
    scanFrom_fuel 0 (Nat.lt_succ_self _) (by omega)
  have enough : rest.length < (payloads.flatMap frameOf ++ rest).length + 1 := by
    rw [List.length_append]
    omega
  rw [fuel, scanFrom_append payloads fits, Nat.zero_add,
    scanFrom_fuel _ enough (Nat.lt_succ_self rest.length)]

/-- The offsets that are reached over valid frames. -/
inductive Reachable (data : List UInt8) : Nat → Prop where
  | start : Reachable data 0
  | frame {off : Nat} {payload rest : List UInt8} (reached : Reachable data off)
      (fits : payload.length < 2 ^ 32) (valid : data.drop off = frameOf payload ++ rest) :
      Reachable data (off + (frameOf payload).length)

theorem Reachable.append {data : List UInt8} {off : Nat} {payloads : List (List UInt8)}
    {rest : List UInt8} (reached : Reachable data off)
    (fits : ∀ payload ∈ payloads, payload.length < 2 ^ 32)
    (valid : data.drop off = payloads.flatMap frameOf ++ rest) :
    Reachable data (off + (payloads.flatMap frameOf).length) := by
  induction payloads generalizing off with
  | nil => exact reached
  | cons payload payloads ih =>
      rw [List.flatMap_cons, List.append_assoc] at valid
      have step := reached.frame (fits payload List.mem_cons_self) valid
      rw [List.flatMap_cons, List.length_append, ← Nat.add_assoc]
      refine ih step (fun other mem => fits other (List.mem_cons_of_mem _ mem)) ?_
      rw [← List.drop_drop, valid, List.drop_left]

/-- An offset is reached exactly if the bytes before it are whole frames. -/
theorem reachable_iff {data : List UInt8} {off : Nat} :
    Reachable data off ↔ ∃ (payloads : List (List UInt8)) (rest : List UInt8),
      (∀ payload ∈ payloads, payload.length < 2 ^ 32) ∧ data = payloads.flatMap frameOf ++ rest ∧
      off = (payloads.flatMap frameOf).length := by
  constructor
  · intro reached
    induction reached with
    | start => exact ⟨[], data, by simp, rfl, rfl⟩
    | @frame off payload rest _ fits valid ih =>
        obtain ⟨payloads, left, all, isData, isOff⟩ := ih
        refine ⟨payloads ++ [payload], rest, ?_, ?_, ?_⟩
        · intro other mem
          rcases List.mem_append.mp mem with before | last
          · exact all other before
          · rw [List.mem_singleton.mp last]
            exact fits
        · rw [isOff] at valid
          have isLeft : left = frameOf payload ++ rest := by
            rw [← valid, isData, List.drop_left]
          rw [isData, isLeft]
          simp
        · simp [isOff]
  · rintro ⟨payloads, rest, fits, rfl, rfl⟩
    have begins : Reachable (payloads.flatMap frameOf ++ rest) 0 := .start
    have reached := begins.append fits List.drop_zero
    rwa [Nat.zero_add] at reached

/-! ## Buffers that were cut off -/

/-- Nothing is read from a frame of which the end is missing. -/
theorem scanFrom_take {payload : List UInt8} (fits : payload.length < 2 ^ 32) {len : Nat}
    (short : len < (frameOf payload).length) (fuel off : Nat) :
    (scanFrom (fuel + 1) off ((frameOf payload).take len)).payloads = [] := by
  have length : ((frameOf payload).take len).length = len := by
    rw [List.length_take]
    omega
  rw [scanFrom]
  split
  · rfl
  · split
    · rfl
    · next header =>
      -- the length in the header is that of the whole payload
      obtain ⟨lengthBytes, -, -, -⟩ := header_frameOf payload [] fits
      rw [List.append_nil] at lengthBytes
      have taken : ((frameOf payload).take len).take 4 = (frameOf payload).take 4 := by
        rw [List.take_take, Nat.min_eq_left]
        simp only [frameHeaderBytes] at header
        omega
      have torn : (((frameOf payload).take len).drop frameHeaderBytes).length <
          ofLeBytes (((frameOf payload).take len).take 4) := by
        rw [taken, lengthBytes, List.length_drop, length]
        rw [frameOf_length] at short
        omega
      rw [if_pos torn]

/-- A cut leaves some frames whole and at most one torn. -/
theorem exists_cut (payloads : List (List UInt8)) (cut : Nat) :
    ∃ whole gone torn, payloads = whole ++ gone ∧
      (payloads.flatMap frameOf).take cut = whole.flatMap frameOf ++ torn ∧
      (whole.flatMap frameOf).length ≤ cut ∧
      (∀ next ∈ gone.head?, cut < ((whole ++ [next]).flatMap frameOf).length ∧
        ∃ len < (frameOf next).length, torn = (frameOf next).take len) ∧
      (gone = [] → torn = []) := by
  induction payloads generalizing cut with
  | nil => exact ⟨[], [], [], rfl, by simp, by simp, by simp, by simp⟩
  | cons payload payloads ih =>
      by_cases whole : (frameOf payload).length ≤ cut
      · obtain ⟨kept, gone, torn, isSplit, taken, below, beyond, done⟩ :=
          ih (cut - (frameOf payload).length)
        refine ⟨payload :: kept, gone, torn, by rw [isSplit]; rfl, ?_, ?_, ?_, done⟩
        · rw [List.flatMap_cons, List.take_append, List.take_of_length_le whole, taken,
            List.flatMap_cons, List.append_assoc]
        · rw [List.flatMap_cons, List.length_append]
          omega
        · intro next isNext
          obtain ⟨past, isTorn⟩ := beyond next isNext
          refine ⟨?_, isTorn⟩
          rw [List.cons_append, List.flatMap_cons, List.length_append]
          omega
      · refine ⟨[], payload :: payloads, (frameOf payload).take cut, rfl, ?_, Nat.zero_le _, ?_,
          by simp⟩
        · rw [List.flatMap_cons, List.take_append_of_le_length (by omega)]
          rfl
        · rintro next ⟨⟩
          refine ⟨by simpa using whole, cut, by omega, rfl⟩

/-- The walk over a buffer that was cut off returns the payloads whose frames are whole. -/
theorem scanFrameBytes_cut {payloads : List (List UInt8)}
    (fits : ∀ payload ∈ payloads, payload.length < 2 ^ 32) (cut : Nat) :
    ∃ whole gone, payloads = whole ++ gone ∧
      (scanFrameBytes ((payloads.flatMap frameOf).take cut)).payloads = whole ∧
      (whole.flatMap frameOf).length ≤ cut ∧
      ∀ next ∈ gone.head?, cut < ((whole ++ [next]).flatMap frameOf).length := by
  obtain ⟨whole, gone, torn, rfl, taken, below, beyond, done⟩ := exists_cut payloads cut
  have wholeFits : ∀ payload ∈ whole, payload.length < 2 ^ 32 := fun payload mem =>
    fits payload (List.mem_append_left _ mem)
  refine ⟨whole, gone, rfl, ?_, below, fun next isNext => (beyond next isNext).1⟩
  rw [taken, scanFrameBytes_append whole wholeFits]
  have nothing : (scanFrom (torn.length + 1) (whole.flatMap frameOf).length torn).payloads = [] := by
    cases gone with
    | nil =>
        rw [done rfl]
        rfl
    | cons next gone =>
        obtain ⟨-, len, short, isTorn⟩ := beyond next rfl
        rw [isTorn]
        exact scanFrom_take (fits next (by simp)) short _ _
  dsimp only
  rw [nothing, List.append_nil]

/-- What was framed has a length the header can hold. -/
theorem frameBytes_eq_ok {payload frame : List UInt8} {logKind : String}
    (framed : frameBytes payload logKind = .ok frame) :
    payload.length < 2 ^ 32 ∧ frame = frameOf payload := by
  obtain ⟨_, checked, isFrame⟩ := bind_eq_ok framed
  unfold checkFrameLen at checked
  split at checked
  · cases checked
  · next fits =>
    cases isFrame
    exact ⟨by omega, rfl⟩

theorem flatten_of_framed {payloads frames : List (List UInt8)} {logKind : String}
    (framed : payloads.mapM (fun payload => frameBytes payload logKind) = .ok frames) :
    (∀ payload ∈ payloads, payload.length < 2 ^ 32) ∧
      frames.flatten = payloads.flatMap frameOf := by
  have all := mapM_eq_ok framed
  clear framed
  induction all with
  | nil => exact ⟨by simp, rfl⟩
  | @cons payload frame payloads frames first _ ih =>
      obtain ⟨fits, rfl⟩ := frameBytes_eq_ok first
      obtain ⟨others, bytes⟩ := ih
      refine ⟨fun other mem => ?_, by rw [List.flatten_cons, bytes, List.flatMap_cons]⟩
      rcases List.mem_cons.mp mem with rfl | later
      · exact fits
      · exact others other later

/-! ## The law of the walk -/

/-- The walk ends; its places tile the buffer up to the last offset that is reached over valid
frames, which is the end of the buffer exactly if nothing is bad; and of frames cut off anywhere
it returns the payloads of those that are whole. -/
theorem scanFrameRanges_law (data : List UInt8) :
    ∃ scan, scanFrameRanges data = some scan ∧
      FrameTiles 0 scan.payloads scan.goodEnd ∧
      (scan.payloads.Pairwise fun earlier later =>
        earlier.stop + frameHeaderBytes ≤ later.start) ∧
      (Reachable data scan.goodEnd ∧ ∀ off, Reachable data off → off ≤ scan.goodEnd) ∧
      (scan.bad = none ↔ scan.goodEnd = data.length) ∧
      ∀ payloads frames logKind cut,
        payloads.mapM (fun payload => frameBytes payload logKind) = .ok frames →
        data = frames.flatten.take cut →
        ∃ whole gone, payloads = whole ++ gone ∧
          scan.payloads.map (fun range => range.slice data) = whole ∧
          (whole.flatMap frameOf).length ≤ cut ∧
          ∀ next ∈ gone.head?, cut < ((whole ++ [next]).flatMap frameOf).length := by
  obtain ⟨scan, walks, tiles, slices, goodEnd, bad⟩ := scanFrameRanges_spec data
  obtain ⟨rest, isData, isEnd, isBad, fits⟩ :=
    scanFrom_spec (data.length + 1) 0 data (Nat.lt_succ_self _)
  change data = (scanFrameBytes data).payloads.flatMap frameOf ++ rest at isData
  rw [Nat.zero_add] at isEnd
  refine ⟨scan, walks, tiles, tiles.pairwise, ⟨?_, fun off reached => ?_⟩, ?_, ?_⟩
  · exact reachable_iff.mpr ⟨_, rest, fits, isData, goodEnd.trans isEnd⟩
  · obtain ⟨payloads, left, all, isFrames, rfl⟩ := reachable_iff.mp reached
    -- the walk takes these frames first
    have first := scanFrameBytes_append payloads all left
    rw [← isFrames] at first
    rw [goodEnd]
    refine Nat.le_trans ?_ (Nat.le_of_eq isEnd.symm)
    change _ ≤ ((scanFrameBytes data).payloads.flatMap frameOf).length
    rw [first, List.flatMap_append, List.length_append]
    exact Nat.le_add_right _ _
  · rw [bad, goodEnd]
    refine isBad.trans ?_
    have length := congrArg List.length isData
    rw [List.length_append] at length
    change _ ↔ (scanFrom (data.length + 1) 0 data).goodEnd = _
    rw [isEnd, ← List.length_eq_zero_iff]
    change _ ↔ ((scanFrameBytes data).payloads.flatMap frameOf).length = _
    omega
  · intro payloads frames logKind cut framed isCut
    obtain ⟨all, bytes⟩ := flatten_of_framed framed
    rw [bytes] at isCut
    rw [slices, isCut]
    exact scanFrameBytes_cut all cut

end Icegres.Segment
