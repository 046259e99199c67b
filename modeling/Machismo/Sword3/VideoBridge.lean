import Machismo.Data.Codec

/-! # The video bridge

From a demuxer's packets to pictures, one a call. The decoder is any codec, and what `libswscale` and the
allocator answer comes with each call. Times are left out.
-/
namespace Machismo.Sword3.VideoBridge
open Data (Codec)

/-- On Linux; the three tags of `libavutil` are negative too. -/
def averrorEagain : ℤ := -11

def averrorEof : ℤ := -541478725

def averrorBug : ℤ := -558323010

def averrorInvaliddata : ℤ := -1094995529

structure Packet where
  streamIndex : ℤ
  data : List UInt8
  deriving DecidableEq

/-- `AVFrame` -/
structure Frame where
  width : ℤ
  height : ℤ
  format : ℤ
  data : List UInt8
  deriving DecidableEq

inductive Status where
  | playing
  | complete
  | skipped
  | error
  deriving DecidableEq

/-- Where a code is given its text comes after that of the operation. -/
inductive VideoError where
  | av (operation : String) (code : ℤ)
  | text (message : String)
  deriving DecidableEq

/-- What is left to read, and the code after that. -/
structure Demuxer where
  packets : List Packet
  rest : ℤ

def avReadFrame (x : Demuxer) : ℤ × Option Packet × Demuxer :=
  match x.packets with
  | [] => (x.rest,none,x)
  | packet :: packets => (0,some packet,{ x with packets := packets })

inductive DecoderCall where
  | received (frame : Frame)
  | refused (rc : ℤ)
  | sent (packet : Option Packet) (rc : ℤ)
  deriving DecidableEq

/-- The part of a `Sword3Video` that decodes. `pending` is the packet while `packet_pending` is set, and `calls`
keeps account of the calls of the decoder. -/
structure Source (σ : Type) where
  decoder : σ
  demuxer : Demuxer
  pending : Option Packet
  demuxEof : Bool
  drainSent : Bool
  calls : List DecoderCall

inductive Outcome where
  | frame (frame : Frame)
  | complete
  | failed (error : ℤ) (operation : String)

inductive Turn (σ : Type) where
  | again (s : Source σ)
  | over (outcome : Outcome) (s : Source σ)

section Loop
variable {σ : Type} (D : Codec σ Packet Frame) (streamIndex : ℤ)

def send (packet : Option Packet) (s : Source σ) : ℤ × Source σ :=
  let (rc,d) := D.send packet s.decoder
  (rc,{ s with decoder := d, calls := s.calls ++ [.sent packet rc] })

def submitPending (packet : Packet) (s : Source σ) : Turn σ :=
  let (rc,s) := send D (some packet) s
  if rc = 0 then .again { s with pending := none }
  else if rc = averrorEagain then .over (.failed averrorBug "decoder rejected input while needing input") s
  else .over (.failed rc "could not submit video packet") s

/-- A positive code falls through to the last error, like a second request. -/
def submitDrain (s : Source σ) : Turn σ :=
  if s.drainSent then .over (.failed averrorBug "decoder requested input after drain") s
  else
    let (rc,s) := send D none s
    if rc = 0 then .again { s with drainSent := true }
    else if rc = averrorEof then .over .complete s
    else if rc = averrorEagain then .over (.failed averrorBug "decoder could not accept drain") s
    else if rc < 0 then .over (.failed rc "could not drain video decoder") s
    else .over (.failed averrorBug "decoder requested input after drain") s

def readPacket (s : Source σ) : Turn σ :=
  match avReadFrame s.demuxer with
  | (_,some packet,x) =>
    if packet.streamIndex ≠ streamIndex then .again { s with demuxer := x }
    else .again { s with demuxer := x, pending := some packet }
  | (rc,none,x) =>
    if rc = averrorEof then .again { s with demuxer := x, demuxEof := true }
    else .over (.failed rc "could not read video packet") { s with demuxer := x }

def needInput (s : Source σ) : Turn σ :=
  match s.pending with
  | some packet => submitPending D packet s
  | none => if s.demuxEof then submitDrain D s else readPacket streamIndex s

/-- One turn of the loop of `sword3_video_next_frame`. -/
def turn (s : Source σ) : Turn σ :=
  match D.receive s.decoder with
  | (.frame frame,d) => .over (.frame frame) { s with decoder := d, calls := s.calls ++ [.received frame] }
  | (.code rc,d) =>
    let s := { s with decoder := d, calls := s.calls ++ [.refused rc] }
    if rc = averrorEof then .over .complete s
    else if rc ≠ averrorEagain then .over (.failed rc "video decode failed") s
    else needInput D streamIndex s

end Loop

/-- What there is still to do: a packet is read and sent, the end is seen, the drain is sent. -/
def Source.work {σ : Type} (s : Source σ) : ℕ :=
  2 * s.demuxer.packets.length + s.pending.toList.length + (!s.demuxEof).toNat + (!s.drainSent).toNat

section Loop
variable {σ : Type} {D : Codec σ Packet Frame} {streamIndex : ℤ} {s s' : Source σ}

theorem submitPending_work {packet : Packet} (hpending : s.pending = some packet)
    (h : submitPending D packet s = .again s') : s'.work < s.work := by
  unfold submitPending send at h
  dsimp only at h
  split_ifs at h
  · obtain rfl := Turn.again.inj h
    simp [Source.work,hpending]

theorem submitDrain_work (h : submitDrain D s = .again s') : s'.work < s.work := by
  unfold submitDrain send at h
  dsimp only at h
  split_ifs at h with hsent
  · obtain rfl := Turn.again.inj h
    simp [Source.work,hsent]

theorem readPacket_work (hpending : s.pending = none) (heof : s.demuxEof = false)
    (h : readPacket streamIndex s = .again s') : s'.work < s.work := by
  unfold readPacket avReadFrame at h
  cases hpackets : s.demuxer.packets with
  | nil =>
    simp only [hpackets] at h
    split_ifs at h
    · obtain rfl := Turn.again.inj h
      simp [Source.work,heof]
  | cons packet packets =>
    simp only [hpackets] at h
    split_ifs at h
    · obtain rfl := Turn.again.inj h
      simp [Source.work,hpackets]
    · obtain rfl := Turn.again.inj h
      simp [Source.work,hpending,hpackets]
      omega

theorem needInput_work (h : needInput D streamIndex s = .again s') : s'.work < s.work := by
  unfold needInput at h
  split at h
  next packet hpending => exact submitPending_work hpending h
  next hpending =>
    split at h
    next => exact submitDrain_work h
    next heof => exact readPacket_work hpending (Bool.eq_false_of_not_eq_true heof) h

theorem turn_work (h : turn D streamIndex s = .again s') : s'.work < s.work := by
  unfold turn at h
  split at h
  next => exact nomatch h
  next =>
    dsimp only at h
    split at h
    next => exact nomatch h
    next =>
      split at h
      next => exact nomatch h
      next =>
        have hwork := needInput_work h
        exact hwork

end Loop

def decodeLoop {σ : Type} (D : Codec σ Packet Frame) (streamIndex : ℤ) (s : Source σ) : Outcome × Source σ :=
  match _h : turn D streamIndex s with
  | .again s' => decodeLoop D streamIndex s'
  | .over outcome s' => (outcome,s')
termination_by s.work
decreasing_by exact turn_work _h

/-- The picture there is memory for. -/
structure Rgba where
  linesize : ℤ
  width : ℤ
  height : ℤ
  sourceFormat : ℤ
  deriving DecidableEq

/-- What the libraries answer in one call: `av_image_check_size`, whether there is a scaler, `av_image_alloc`
with the length of a line, and the rows that `sws_scale` has done. -/
structure Answers where
  checkSize : ℤ
  scaler : Bool
  alloc : ℤ
  linesize : ℤ
  rows : ℤ

structure Video (σ : Type) where
  source : Source σ
  rgba : Option Rgba
  scaler : Bool
  status : Status
  error : Option VideoError

/-- What the caller of `sword3_video_next_frame` has afterwards. -/
structure Output where
  rc : ℤ
  rgba : Option (List UInt8)
  width : ℤ
  height : ℤ
  stride : ℤ
  deriving DecidableEq

def blank (rc : ℤ) : Output := ⟨rc,none,0,0,0⟩

namespace Video
variable {σ : Type}

def setError (v : Video σ) (error : ℤ) (operation : String) : Video σ :=
  { v with
    error := some (if error < 0 then .av operation error else .text (operation ++ ": unknown error"))
    status := .error }

def setText (v : Video σ) (message : String) : Video σ := { v with error := some (.text message), status := .error }

def prepareRgba (a : Answers) (decoded : Frame) (v : Video σ) : ℤ × Video σ :=
  if v.rgba.any fun r =>
      r.width == decoded.width && r.height == decoded.height && r.sourceFormat == decoded.format then (0,v)
  else if a.checkSize < 0 ∨ decoded.format < 0 then
    (-1,v.setError (if a.checkSize < 0 then a.checkSize else averrorInvaliddata) "invalid decoded video frame")
  else if a.scaler = false then
    (-1,({ v with scaler := false } : Video σ).setText "could not create RGBA conversion context")
  else if a.alloc < 0 then
    (-1,({ v with scaler := true, rgba := none } : Video σ).setError a.alloc "could not allocate RGBA frame")
  else (0,{ v with scaler := true, rgba := some ⟨a.linesize,decoded.width,decoded.height,decoded.format⟩ })

/-- `scale` is what `sws_scale` makes of a frame. -/
def outputFrame (scale : Frame → List UInt8) (a : Answers) (decoded : Frame) (v : Video σ) : Output × Video σ :=
  let (rc,v) := v.prepareRgba a decoded
  if rc < 0 then (blank (-1),v)
  else if a.rows ≠ decoded.height then
    (blank (-1),v.setText s!"RGBA conversion returned {a.rows} of {decoded.height} rows")
  else
    (⟨1,v.rgba.map fun _ => scale decoded,decoded.width,decoded.height,(v.rgba.map Rgba.linesize).getD 0⟩,v)

/-- With a video and a frame to fill in. -/
def sword3VideoNextFrame (D : Codec σ Packet Frame) (streamIndex : ℤ) (scale : Frame → List UInt8) (a : Answers)
    (v : Video σ) : Output × Video σ :=
  match v.status with
  | .playing =>
    match decodeLoop D streamIndex v.source with
    | (.frame decoded,source) => ({ v with source := source } : Video σ).outputFrame scale a decoded
    | (.complete,source) => (blank 0,{ v with source := source, status := .complete })
    | (.failed error operation,source) => (blank (-1),({ v with source := source } : Video σ).setError error operation)
  | .error => (blank (-1),v)
  | _ => (blank 0,v)

def sword3VideoSkip (v : Video σ) : Video σ := if v.status = .playing then { v with status := .skipped } else v

end Video

/-- What `sword3_video_open` hands out. -/
def opened {σ : Type} (D : Codec σ Packet Frame) (x : Demuxer) : Video σ :=
  ⟨⟨D.start,x,none,false,false,[]⟩,none,false,.playing,none⟩

end Machismo.Sword3.VideoBridge
