import Sink.Gateway.Engine
import Sink.Gateway.Records

/-!
# Streamed replies

Both ends of a stream: `ForwardStream` of an Engine cuts the encoded response into
frames, and `forwardStream` of the Gateway puts it together again. The Gateway
does not trust the Engine; what it accepts is said by `Framed`, without mention of
the loop.
-/

namespace Sink.Gateway

open List

def Frame.IsData (frame : Frame) : Prop :=
  frame.size = 0 ∧ 1 ≤ frame.data.length ∧ frame.data.length ≤ frameBytes

/-- One frame with a size, then data frames that hold as many bytes as it says, and
the end of the stream. -/
def Framed (messageBytes : Nat) (stream : Stream) (encoded : List UInt8) : Prop :=
  ∃ size frames, stream = ⟨⟨size, []⟩ :: frames, none⟩ ∧ 1 ≤ size ∧ size ≤ messageBytes ∧
    (∀ frame ∈ frames, frame.IsData) ∧ encoded = frames.flatMap Frame.data ∧
      encoded.length = size

/-! ## The Engine -/

theorem Engine.chunks_data {n : Nat} {bytes : List UInt8} (h : bytes.length ≤ n) :
    (∀ frame ∈ Engine.chunks n bytes, frame.IsData) ∧
      (Engine.chunks n bytes).flatMap Frame.data = bytes := by
  induction n generalizing bytes with
  | zero => exact ⟨by simp [chunks], (length_eq_zero_iff.mp (Nat.le_zero.mp h)).symm⟩
  | succ n ih =>
    cases bytes with
    | nil => exact ⟨by simp [chunks], rfl⟩
    | cons b bytes =>
      have hdrop : ((b :: bytes).drop frameBytes).length ≤ n := by
        rw [length_drop, frameBytes]
        omega
      obtain ⟨hdata, hflat⟩ := ih hdrop
      refine ⟨forall_mem_cons.mpr ⟨⟨rfl, ?_, length_take_le _ _⟩, hdata⟩, ?_⟩
      · exact Nat.succ_pos _
      · show (b :: bytes).take frameBytes ++
          (chunks n ((b :: bytes).drop frameBytes)).flatMap Frame.data = b :: bytes
        rw [hflat, take_append_drop]

/-! ## The Gateway -/

namespace Server

theorem readData_iff {size ending start encoded frames} (h : start.length ≤ size) :
    readData size ending start frames = .ok (encoded, []) ↔
      (∀ frame ∈ frames, frame.IsData) ∧ encoded = start ++ frames.flatMap Frame.data ∧
        encoded.length = size := by
  induction frames generalizing start with
  | nil =>
    unfold readData
    constructor
    · intro hread
      split at hread
      · obtain ⟨rfl, -⟩ := Prod.mk.inj (Except.ok.inj hread)
        exact ⟨by simp, by simp, by omega⟩
      · cases hread
    · rintro ⟨-, rfl, hlength⟩
      rw [flatMap_nil, append_nil] at hlength ⊢
      rw [if_pos (by omega)]
  | cons frame frames ih =>
    unfold readData
    rw [forall_mem_cons, flatMap_cons]
    split
    · -- all bytes are there, and one more frame
      refine ⟨nofun, ?_⟩
      rintro ⟨⟨⟨-, hpos, -⟩, -⟩, rfl, hlength⟩
      simp only [length_append] at hlength
      omega
    · split
      · refine ⟨nofun, ?_⟩
        rintro ⟨⟨⟨hsize, hpos, hle⟩, -⟩, rfl, hlength⟩
        simp only [length_append] at hlength
        omega
      · have hdata : frame.IsData := ⟨by omega, by omega, by omega⟩
        rw [ih (by rw [length_append]; omega), append_assoc]
        exact ⟨fun ⟨hframes, hbytes⟩ => ⟨⟨hdata, hframes⟩, hbytes⟩,
          fun ⟨⟨_, hframes⟩, hbytes⟩ => ⟨hframes, hbytes⟩⟩

variable (s : Server)

theorem receive_iff {stream : Stream} {encoded : List UInt8} :
    s.receive none stream = .ok encoded ↔ Framed s.messageBytes stream encoded := by
  constructor
  · intro h
    obtain ⟨frames, ending⟩ := stream
    unfold receive at h
    dsimp only at h
    split at h
    · cases h
    rename_i header frames
    split at h
    · cases h
    rename_i hheader
    split at h
    · cases h
    · cases h
    · rename_i hread
      split at h
      · cases h
      cases h
      obtain ⟨hdata, hbytes⟩ := (readData_iff (Nat.zero_le _)).mp hread
      obtain ⟨size, data⟩ := header
      dsimp only at hheader
      obtain rfl : data = [] := length_eq_zero_iff.mp (by omega)
      exact ⟨size, frames, rfl, by omega, by omega, hdata, hbytes⟩
  · rintro ⟨size, frames, rfl, hpos, hfits, hdata, hbytes⟩
    have hread : readData size none [] frames = .ok (encoded, []) :=
      (readData_iff (Nat.zero_le _)).mpr ⟨hdata, hbytes⟩
    have hheader : ¬(size = 0 ∨ s.messageBytes < size ∨ ([] : List UInt8).length ≠ 0) := by
      rw [length_nil]
      omega
    simp only [receive, hread, if_neg hheader]

/-- What `forwardStream` makes of the bytes it has received. -/
def decoded (encoded : List UInt8) : Except Status ForwardResponse :=
  match s.unmarshal encoded with
  | none => .error (status Code.internal "invalid encoded Engine response")
  | some response => .ok response

/-- Streamed responses are put together as they were, and nothing else that an
Engine could send reaches the decoder. -/
theorem streams_reassembled (line : Line) (req : ForwardRequest) (stream : Stream)
    (hscratch : line.scratch = none) (houtput : line.output = none)
    (hstream : line.stream req = .ok stream) :
    (∀ (e : Engine) (response : ForwardResponse), stream = ⟨e.frames response, none⟩ →
      1 ≤ (e.marshal response).length → (e.marshal response).length ≤ s.messageBytes →
        s.receive line.output stream = .ok (e.marshal response) ∧
          s.forwardStream line req = s.decoded (e.marshal response)) ∧
    (∀ encoded, s.receive line.output stream = .ok encoded ↔ Framed s.messageBytes stream encoded) ∧
    (∀ encoded, Framed s.messageBytes stream encoded →
      s.forwardStream line req = s.decoded encoded) ∧
    ((¬∃ encoded, Framed s.messageBytes stream encoded) →
      ∃ err, ∀ unmarshal, { s with unmarshal }.forwardStream line req = .error err) := by
  have hforward : ∀ encoded, Framed s.messageBytes stream encoded →
      s.forwardStream line req = s.decoded encoded := by
    intro encoded hframed
    have hreceive := s.receive_iff.mpr hframed
    simp only [forwardStream, hscratch, hstream, ok_bind, houtput, hreceive]
    rfl
  rw [houtput]
  refine ⟨?_, fun encoded => s.receive_iff, hforward, ?_⟩
  · rintro e response rfl hpos hfits
    obtain ⟨hdata, hflat⟩ := Engine.chunks_data (Nat.le_refl (e.marshal response).length)
    have hframed : Framed s.messageBytes ⟨e.frames response, none⟩ (e.marshal response) :=
      ⟨_, _, rfl, hpos, hfits, hdata, hflat.symm, rfl⟩
    exact ⟨s.receive_iff.mpr hframed, hforward _ hframed⟩
  · intro hnone
    cases hreceive : s.receive none stream with
    | ok encoded => exact absurd ⟨encoded, s.receive_iff.mp hreceive⟩ hnone
    | error err =>
      refine ⟨err, fun unmarshal => ?_⟩
      have hsame : { s with unmarshal }.receive none stream = .error err := hreceive
      simp only [forwardStream, hscratch, hstream, ok_bind, houtput, hsame, error_bind]

theorem streams_reassembled_three :
    let e : Engine := { Engine.strict with marshal := fun _ => [1, 2, 3] }
    let req : ForwardRequest := ⟨version, lit "s", none, none⟩
    let line : Line := { (World.replying fun req => .ok (e.forward req)).line 0 with
      stream := fun req => .ok ⟨e.frames (e.forward req), none⟩ }
    plain.receive line.output ⟨e.frames (e.forward req), none⟩ = .ok [1, 2, 3] ∧
      plain.forwardStream line req = plain.decoded [1, 2, 3] := by
  intro e req line
  exact (streams_reassembled plain line req _ rfl rfl rfl).1 e (e.forward req) rfl (by decide)
    (by decide)

/-- A stream that breaks off is refused, wherever it was cut. -/
theorem truncated_streams_refused (e : Engine) (response : ForwardResponse)
    (k : Fin (e.frames response).length) (ending : Option Status) :
    ∃ err, s.receive none ⟨(e.frames response).take k, ending⟩ = .error err := by
  cases hreceive : s.receive none ⟨(e.frames response).take k, ending⟩ with
  | error err => exact ⟨err, rfl⟩
  | ok encoded =>
    obtain ⟨hdata, hflat⟩ := Engine.chunks_data (Nat.le_refl (e.marshal response).length)
    obtain ⟨size, frames, hstream, -, -, -, rfl, hlength⟩ := s.receive_iff.mp hreceive
    obtain ⟨_ | j, hk⟩ := k
    · cases hstream
    -- the first data frame that is missing has a byte
    cases hstream
    have hj := Nat.lt_of_succ_lt_succ hk
    have hpos := (hdata _ (getElem_mem hj)).2.1
    rw [← take_append_drop j (Engine.chunks _ _), drop_eq_getElem_cons hj] at hflat
    have htotal := congrArg length hflat
    rw [flatMap_append, flatMap_cons, length_append, length_append, hlength] at htotal
    omega

end Server

end Sink.Gateway
