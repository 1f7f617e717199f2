import Icegres.FlightWeb.Agreement
import Icegres.FlightWeb.Response
import Icegres.FlightWeb.Trailers

/-!
# Streams of a response

However a response is split into chunks, the client yields its messages and makes one Arrow stream
of them. It throws exactly as the trailers say if their first mention of a status does.
-/

namespace Icegres.FlightWeb

open Segment (leBytes ofLeBytes leBytes_length ofLeBytes_leBytes)

/-! ## Arrow streams -/

/-- A stream of messages: in front of each the marker and the length of its padded header, which
end at a multiple of eight bytes, and behind them the marker with no length. -/
inductive IpcStream : List FlightData → List UInt8 → Prop where
  | eos : IpcStream [] (continuation ++ [0, 0, 0, 0])
  | message {data : FlightData} {size padding : List UInt8} {later : List FlightData}
      {rest : List UInt8} (four : size.length = 4)
      (isLength : ofLeBytes size = (data.dataHeader ++ padding).length)
      (aligned : 8 ∣ (continuation ++ size ++ data.dataHeader ++ padding).length)
      (notEos : continuation ++ size ≠ ipcEos) (stream : IpcStream later rest) :
      IpcStream (data :: later)
        (continuation ++ size ++ data.dataHeader ++ padding ++ data.dataBody ++ rest)

/-- The padding of a header. -/
def padLen (headLen : Nat) : Nat :=
  (8 - (headLen + 8) % 8) % 8

theorem eight_dvd_padLen (headLen : Nat) : 8 ∣ headLen + padLen headLen := by
  rw [padLen]
  omega

theorem flightDataToIpc_eq {data : FlightData} (some' : data.dataHeader ≠ []) :
    flightDataToIpc data = continuation ++ leBytes 4 (data.dataHeader.length +
      padLen data.dataHeader.length) ++ data.dataHeader ++
      List.replicate (padLen data.dataHeader.length) 0 ++ data.dataBody := by
  rw [flightDataToIpc, if_neg (mt List.length_eq_zero_iff.mp some')]
  rfl

theorem ipcStream_flatten {datas : List FlightData}
    (short : ∀ data ∈ datas, data.dataHeader.length < 2 ^ 31) :
    IpcStream (datas.filter fun data => data.dataHeader ≠ [])
      (datas.map flightDataToIpc ++ [ipcEos]).flatten := by
  induction datas with
  | nil => exact .eos
  | cons data later ih =>
      have rest := ih fun other mem => short other (List.mem_cons_of_mem _ mem)
      rw [List.map_cons, List.cons_append, List.flatten_cons, List.filter_cons]
      by_cases empty : data.dataHeader = []
      · rw [if_neg (by simpa using empty), flightDataToIpc, if_pos (by rw [empty]; rfl)]
        exact rest
      · rw [if_pos (by simpa using empty), flightDataToIpc_eq empty]
        have positive := List.length_pos_iff.mpr empty
        have below := short data List.mem_cons_self
        have padded := eight_dvd_padLen data.dataHeader.length
        have few : padLen data.dataHeader.length < 8 := Nat.mod_lt _ (by decide)
        have isLength := @ofLeBytes_leBytes 4
          (data.dataHeader.length + padLen data.dataHeader.length) (by omega)
        refine .message (leBytes_length _ _) ?_ ?_ ?_ rest
        · rw [isLength, List.length_append, List.length_replicate]
        · simp only [List.length_append, List.length_replicate, leBytes_length, continuation]
          omega
        · intro isEos
          have zero := congrArg ofLeBytes (List.append_cancel_left isEos)
          rw [isLength] at zero
          change _ = 0 at zero
          omega

/-! ## The messages of a query -/

/-- A message of a query's result: its fields, and the header and body among them. -/
structure DataMessage where
  entries : List Entry
  data : FlightData
  numbered : ∀ entry ∈ entries, entry.Numbered
  header : Carries entries 2 data.dataHeader
  body : Carries entries 1000 data.dataBody

namespace DataMessage

/-- No payload is so long that the reader misreads its length. -/
def Short (message : DataMessage) : Prop :=
  ∀ entry ∈ message.entries, entry.Short

/-- The payload that a message carries is one of its fields', or empty. -/
theorem length_lt {message : DataMessage} (short : message.Short) :
    message.data.dataHeader.length < 2 ^ 31 := by
  rcases message.header with held | ⟨-, empty⟩
  · have mem : (⟨2, 2, .bytes message.data.dataHeader⟩ : Field) ∈
        (message.entries.map Entry.field).filter fun field => field.Has 2 := by
      rw [held]
      exact List.mem_cons_self
    obtain ⟨entry, isEntry, isField⟩ := List.mem_map.mp (List.mem_filter.mp mem).1
    exact short entry isEntry _ (Entry.delimited_of_field isField)
  · rw [empty]
    decide

end DataMessage

/-- The rounds that are enough to read every message. -/
def roundsFor (messages : List DataMessage) : Nat :=
  (messages.map fun message => message.entries.length).sum + 1

/-- What the client makes of the messages of a result, one chunk for each. -/
theorem ipcFrom_messages {messages : List DataMessage}
    (short : ∀ message ∈ messages, message.Short) {fuel : Nat} (enough : roundsFor messages ≤ fuel)
    (outcome : Outcome) :
    ipcFrom fuel (messages.map fun message => encodeAll message.entries) outcome =
      some ((messages.map fun message => flightDataToIpc message.data) ++
        (if outcome = .ended then [ipcEos] else []), outcome) := by
  induction messages with
  | nil =>
      rw [List.map_nil, List.map_nil, List.nil_append]
      cases outcome <;> rfl
  | cons message later ih =>
      rw [roundsFor, List.map_cons, List.sum_cons] at enough
      have reads := decodeFlightData_entries message.numbered
        (short message List.mem_cons_self) message.header message.body
        (show message.entries.length < fuel by omega)
      rw [List.map_cons, ipcFrom, reads]
      dsimp only
      rw [ih (fun other mem => short other (List.mem_cons_of_mem _ mem)) (by rw [roundsFor]; omega)]
      rfl

/-! ## The law of a response -/

/-- However the response is split into chunks: a whole one yields its messages, and the call ends
exactly if the trailers carry no status but zero; one that is cut off yields messages from the
front and throws; and the messages of a result become one Arrow stream, whose chunks keep the
alignment if their bodies do. -/
structure Reassembles (messages : List (List UInt8)) (trailers : Trailers) : Prop where
  whole : ∀ chunks : List (List UInt8),
    chunks.flatten = encodeResponse messages trailers.payload →
    (call chunks).1 = messages ∧ ((call chunks).2 = .ended ↔ trailers.status = 0)
  cut : ∀ (chunks : List (List UInt8)) (gone : List UInt8), gone ≠ [] →
    chunks.flatten ++ gone = encodeResponse messages trailers.payload →
    (call chunks).2 = .truncated ∧ (call chunks).1 <+: messages
  stream : ∀ result : List DataMessage, (∀ message ∈ result, message.Short) →
    (result.map fun message => encodeAll message.entries) = messages → trailers.status = 0 →
    ∀ chunks : List (List UInt8), chunks.flatten = encodeResponse messages trailers.payload →
    ∃ fuel ipc, ipcChunks fuel chunks = some (ipc, .ended) ∧
      IpcStream ((result.map DataMessage.data).filter fun data => data.dataHeader ≠ [])
        ipc.flatten ∧
      ((∀ message ∈ result, 8 ∣ message.data.dataBody.length) → ∀ chunk ∈ ipc, 8 ∣ chunk.length)

theorem eight_dvd_flightDataToIpc {data : FlightData} (aligned : 8 ∣ data.dataBody.length) :
    8 ∣ (flightDataToIpc data).length := by
  by_cases empty : data.dataHeader = []
  · rw [flightDataToIpc, if_pos (by rw [empty]; rfl)]
    exact Nat.dvd_zero 8
  · have padded := eight_dvd_padLen data.dataHeader.length
    rw [flightDataToIpc_eq empty]
    simp only [List.length_append, List.length_replicate, leBytes_length, continuation]
    omega

/-- A response is put together again exactly if the first status that its trailers mention is zero
just when the one they carry is. -/
theorem reassembles_iff {messages : List (List UInt8)} {trailers : Trailers}
    (fit : ∀ message ∈ messages, message.length < 2 ^ 32)
    (fits : trailers.payload.length < 2 ^ 32) :
    Reassembles messages trailers ↔ trailers.Clear := by
  rw [← trailers.readTrailers_iff]
  constructor
  · rintro ⟨whole, -, -⟩
    have isBody : [encodeResponse messages trailers.payload].flatten =
        encodeResponse messages trailers.payload := List.flatten_singleton
    have ends := (whole _ isBody).2
    rwa [call_response fit fits isBody] at ends
  · intro ends
    refine ⟨fun chunks isBody => ?_, fun chunks gone some' isBody => ?_,
      fun result short isResult ok chunks isBody => ?_⟩
    · rw [call_response fit fits isBody]
      exact ⟨rfl, ends⟩
    · exact call_cut fit fits some' isBody
    · have stream := ipcFrom_messages short (Nat.le_refl _) .ended
      rw [isResult, if_pos rfl] at stream
      refine ⟨roundsFor result,
        (result.map fun message => flightDataToIpc message.data) ++ [ipcEos], ?_, ?_, ?_⟩
      · rw [ipcChunks, call_response fit fits isBody, ends.mpr ok]
        exact stream
      · have flat := @ipcStream_flatten (result.map DataMessage.data) (by
          intro data mem
          obtain ⟨message, isMessage, rfl⟩ := List.mem_map.mp mem
          exact DataMessage.length_lt (short message isMessage))
        rwa [List.map_map] at flat
      · intro aligned chunk mem
        rcases List.mem_append.mp mem with isMessage | isEos
        · obtain ⟨message, inside, rfl⟩ := List.mem_map.mp isMessage
          exact eight_dvd_flightDataToIpc (aligned message inside)
        · rw [List.mem_singleton.mp isEos]
          decide

theorem forall_of_all {lines : List (List Char × List Char)}
    {part : List Char × List Char → List Char} {test : Char → Bool}
    (all : lines.all fun line => (part line).all test) :
    ∀ line ∈ lines, ∀ c ∈ part line, test c :=
  fun line mem => List.all_eq_true.mp (List.all_eq_true.mp all line mem)

/-- Trailers of a status and nothing else. -/
def ok : Trailers where
  lines := [(statusName, ['0'])]
  names := forall_of_all rfl
  values := forall_of_all rfl
  statuses := by
    intro line mem _
    rw [List.mem_singleton.mp mem]
    exact ⟨[], ['0'], [], rfl, by simp, by simp, List.all_eq_true.mp rfl⟩

theorem reassembles_iff_ok :
    Reassembles [encodeAll [.data 2 [1, 2, 3], .number 7 300, .data 1000 [4]], []] ok := by
  refine (reassembles_iff (by decide +kernel) (by decide +kernel)).mpr (ok.readTrailers_iff.mp ?_)
  exact iff_of_true (by decide +kernel) (by decide +kernel)

/-- Trailers of a failed call, with a header of another name before the status. -/
def failed : Trailers where
  lines := [("x-grpc-status".toList, ['0']), (statusName, ['1', '3'])]
  names := forall_of_all rfl
  values := forall_of_all rfl
  statuses := by
    intro line mem isName
    rcases List.mem_cons.mp mem with rfl | last
    · exact absurd isName (by decide)
    · rw [List.mem_singleton.mp last]
      exact ⟨[], ['1', '3'], [], rfl, by simp, by simp, List.all_eq_true.mp rfl⟩

/-- The call ends as if all rows had arrived. -/
theorem failed_not_reassembles :
    call [encodeResponse [[8, 1]] failed.payload] = ([[8, 1]], .ended) ∧ failed.status = 13 ∧
      ¬ Reassembles [[8, 1]] failed := by
  have ends : call [encodeResponse [[8, 1]] failed.payload] = ([[8, 1]], .ended) := by
    decide +kernel
  have status : failed.status = 13 := by decide +kernel
  refine ⟨ends, status, fun reassembles => ?_⟩
  have same := (reassembles.whole [encodeResponse [[8, 1]] failed.payload]
    List.flatten_singleton).2
  rw [ends, status] at same
  exact absurd (same.mp rfl) (by decide)

end Icegres.FlightWeb
