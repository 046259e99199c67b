import Machismo.Sword3.VideoBridge

/-! # Runs of the video bridge

With a decoder that keeps to its contract, the packets of the chosen stream are sent in order and then the
drain, and each frame the decoder has comes out of one call. What can fail is the conversion of a frame.
-/
namespace Machismo.Sword3.VideoBridge
open Data (Codec)

namespace Source
variable {σ : Type}

/-- What the decoder has accepted, in order. -/
def submitted (s : Source σ) : List (Option Packet) :=
  s.calls.filterMap fun
    | .sent packet rc => if rc = 0 then some packet else none
    | _ => none

def received (s : Source σ) : List Frame :=
  s.calls.filterMap fun
    | .received frame => some frame
    | _ => none

end Source

def wanted (streamIndex : ℤ) (packets : List Packet) : List (Option Packet) :=
  (packets.filter fun packet => packet.streamIndex == streamIndex).map some ++ [none]

section Loop
variable {σ : Type} (D : Codec σ Packet Frame) (streamIndex : ℤ) (all : List (Option Packet))

/-- Each call decodes one of the frames, and one more finds the end, with everything submitted. -/
inductive Plays : Source σ → List Frame → Prop where
  | complete {s s' : Source σ} (h : decodeLoop D streamIndex s = (.complete,s')) (hsubmitted : s'.submitted = all)
      (hreceived : s'.received = s.received) : Plays s []
  | frame {s s' : Source σ} {f : Frame} {frames : List Frame} (h : decodeLoop D streamIndex s = (.frame f,s'))
      (hsubmitted : s'.submitted <+: all) (hreceived : s'.received = s.received ++ [f]) (rest : Plays s' frames) :
      Plays s (f :: frames)

/-- Before the drain: what has been submitted and what is still to come are all there is. -/
structure Feeding (s : Source σ) : Prop where
  undrained : s.drainSent = false
  code : s.demuxer.rest = averrorEof
  atEnd : s.demuxEof = true → s.demuxer.packets = []
  account : s.submitted ++ s.pending.toList.map some ++ wanted streamIndex s.demuxer.packets = all

structure Draining (s : Source σ) : Prop where
  sent : s.drainSent = true
  account : s.submitted = all

/-- What holds of the source whenever its decoder is asked. -/
def Going (ready : σ → Prop) (s : Source σ) : Prop :=
  (Feeding streamIndex all s ∧ D.Wants averrorEagain ready s.decoder) ∨
    (Draining all s ∧ D.Drained averrorEof s.decoder)

end Loop

section Loop
variable {σ : Type} {D : Codec σ Packet Frame} {streamIndex : ℤ} {all : List (Option Packet)}
variable {s s' : Source σ} {ready : σ → Prop}

theorem turn_frame {f : Frame} {d : σ} (h : D.receive s.decoder = (.frame f,d)) :
    turn D streamIndex s = .over (.frame f) { s with decoder := d, calls := s.calls ++ [.received f] } := by
  unfold turn
  rw [h]

theorem turn_eof {d : σ} (h : D.receive s.decoder = (.code averrorEof,d)) :
    turn D streamIndex s = .over .complete { s with decoder := d, calls := s.calls ++ [.refused averrorEof] } := by
  unfold turn
  rw [h]
  exact if_pos rfl

theorem turn_eagain {d : σ} (h : D.receive s.decoder = (.code averrorEagain,d)) : turn D streamIndex s =
    needInput D streamIndex { s with decoder := d, calls := s.calls ++ [.refused averrorEagain] } := by
  unfold turn
  rw [h]
  exact if_neg (by decide)

theorem submitted_sent (d : σ) (packet : Option Packet) :
    ({ s with decoder := d, calls := s.calls ++ [.sent packet 0] } : Source σ).submitted = s.submitted ++ [packet] :=
  List.filterMap_append

theorem submitted_refused (d : σ) (rc : ℤ) :
    ({ s with decoder := d, calls := s.calls ++ [.refused rc] } : Source σ).submitted = s.submitted :=
  List.filterMap_append.trans (List.append_nil _)

theorem submitted_received (d : σ) (f : Frame) :
    ({ s with decoder := d, calls := s.calls ++ [.received f] } : Source σ).submitted = s.submitted :=
  List.filterMap_append.trans (List.append_nil _)

theorem received_received (d : σ) (f : Frame) :
    ({ s with decoder := d, calls := s.calls ++ [.received f] } : Source σ).received = s.received ++ [f] :=
  List.filterMap_append

theorem received_refused (d : σ) (rc : ℤ) :
    ({ s with decoder := d, calls := s.calls ++ [.refused rc] } : Source σ).received = s.received :=
  List.filterMap_append.trans (List.append_nil _)

theorem received_sent (d : σ) (packet : Option Packet) (rc : ℤ) :
    ({ s with decoder := d, calls := s.calls ++ [.sent packet rc] } : Source σ).received = s.received :=
  List.filterMap_append.trans (List.append_nil _)

theorem Feeding.idle (h : Feeding streamIndex all s) (hpending : s.pending = none) :
    s.submitted ++ wanted streamIndex s.demuxer.packets = all := by
  have haccount := h.account
  rwa [hpending,Option.toList_none,List.map_nil,List.append_nil] at haccount

theorem readPacket_spec (h : Feeding streamIndex all s) (hpending : s.pending = none) (heof : s.demuxEof = false) :
    ∃ s', readPacket streamIndex s = .again s' ∧ Feeding streamIndex all s' ∧ s'.decoder = s.decoder ∧
      s'.received = s.received := by
  have haccount := h.idle hpending
  unfold readPacket avReadFrame
  cases hpackets : s.demuxer.packets with
  | nil =>
    simp only [h.code,if_true]
    exact ⟨_,rfl,⟨h.undrained,h.code,fun _ => hpackets,h.account⟩,rfl,rfl⟩
  | cons packet packets =>
    have hatEnd : s.demuxEof = true → packets = [] := by
      intro htrue
      rw [heof] at htrue
      cases htrue
    rw [hpackets] at haccount
    dsimp only
    split
    next hother =>
      refine ⟨_,rfl,⟨h.undrained,h.code,hatEnd,?_⟩,rfl,rfl⟩
      unfold wanted at haccount
      rw [List.filter_cons_of_neg (by simpa using hother)] at haccount
      rw [hpending]
      exact (congrArg (· ++ wanted streamIndex packets) (List.append_nil _)).trans haccount
    next hchosen =>
      refine ⟨_,rfl,⟨h.undrained,h.code,hatEnd,?_⟩,rfl,rfl⟩
      unfold wanted at haccount
      rw [List.filter_cons_of_pos (by simpa using hchosen)] at haccount
      exact (List.append_assoc _ _ _).trans haccount

/-- Where the decoder wants input the turn is not the last: it sends what is pending or the drain, or reads. -/
theorem needInput_spec (hobeys : D.Obeys averrorEagain averrorEof ready) (h : Feeding streamIndex all s)
    (hready : ready s.decoder) :
    ∃ s', needInput D streamIndex s = .again s' ∧ Going D streamIndex all ready s' ∧ s'.received = s.received := by
  unfold needInput
  cases hpending : s.pending with
  | some packet =>
    obtain ⟨hrc,hwants⟩ := hobeys.accepts s.decoder packet hready
    simp only [submitPending,send,hrc,if_true]
    refine ⟨_,rfl,.inl ⟨⟨h.undrained,h.code,h.atEnd,?_⟩,hwants⟩,received_sent s.decoder (some packet) 0⟩
    have haccount := h.account
    rw [hpending] at haccount
    exact (congrArg (· ++ [] ++ wanted streamIndex s.demuxer.packets)
      (submitted_sent s.decoder (some packet))).trans ((congrArg (· ++ _) (List.append_nil _)).trans haccount)
  | none =>
    cases heof : s.demuxEof with
    | true =>
      obtain ⟨hrc,hdrained⟩ := hobeys.drains s.decoder hready
      simp only [submitDrain,send,h.undrained,hrc,if_true,Bool.false_eq_true,if_false]
      refine ⟨_,rfl,.inr ⟨⟨rfl,?_⟩,hdrained⟩,received_sent s.decoder none 0⟩
      have haccount := h.idle hpending
      rw [h.atEnd heof] at haccount
      exact (submitted_sent s.decoder none).trans haccount
    | false =>
      obtain ⟨s',hread,hfeeding,hdecoder,hreceived⟩ := readPacket_spec h hpending heof
      refine ⟨s',hread,.inl ⟨hfeeding,?_⟩,hreceived⟩
      rw [hdecoder]
      exact hobeys.stays s.decoder hready

theorem decodeLoop_again (h : turn D streamIndex s = .again s') :
    decodeLoop D streamIndex s = decodeLoop D streamIndex s' := by
  rw [decodeLoop]
  split
  next s1 hturn =>
    obtain rfl := Turn.again.inj (h.symm.trans hturn)
    rfl
  next hturn => cases h.symm.trans hturn

theorem decodeLoop_over {outcome : Outcome} (h : turn D streamIndex s = .over outcome s') :
    decodeLoop D streamIndex s = (outcome,s') := by
  rw [decodeLoop]
  split
  next hturn => cases h.symm.trans hturn
  next outcome1 s1 hturn =>
    obtain ⟨rfl,rfl⟩ := Turn.over.inj (h.symm.trans hturn)
    rfl

theorem Plays.again (h : turn D streamIndex s = .again s') (hreceived : s'.received = s.received)
    {frames : List Frame} (hplays : Plays D streamIndex all s' frames) : Plays D streamIndex all s frames := by
  have hloop := decodeLoop_again h
  cases hplays with
  | complete hover hsubmitted hsame => exact .complete (hloop.trans hover) hsubmitted (hsame.trans hreceived)
  | frame hover hsubmitted hnew rest =>
    exact .frame (hloop.trans hover) hsubmitted (hnew.trans (congrArg (· ++ _) hreceived)) rest

theorem Plays.received {f : Frame} {d : σ} (h : D.receive s.decoder = (.frame f,d)) (hsubmitted : s.submitted <+: all)
    {frames : List Frame}
    (rest : Plays D streamIndex all { s with decoder := d, calls := s.calls ++ [.received f] } frames) :
    Plays D streamIndex all s (f :: frames) :=
  .frame (decodeLoop_over (turn_frame h)) ((submitted_received d f).symm ▸ hsubmitted) (received_received d f) rest

theorem Feeding.submitted_prefix (h : Feeding streamIndex all s) : s.submitted <+: all := by
  rw [← h.account,List.append_assoc]
  exact List.prefix_append _ _

theorem Draining.plays (h : Draining all s) {frames : List Frame} {d : σ}
    (hgives : D.Gives s.decoder frames averrorEof d) : Plays D streamIndex all s frames := by
  induction frames generalizing s with
  | nil =>
    rcases hgives.cases with ⟨-,hreceive⟩ | ⟨f,rest,d1,hframes,-,-⟩
    · have hover : decodeLoop D streamIndex s = _ := decodeLoop_over (turn_eof hreceive)
      exact .complete hover ((submitted_refused d averrorEof).trans h.account) (received_refused d averrorEof)
    · cases hframes
  | cons f frames ih =>
    rcases hgives.cases with ⟨hframes,-⟩ | ⟨f1,rest,d1,hframes,hreceive,hrest⟩
    · cases hframes
    · obtain ⟨rfl,rfl⟩ := List.cons.inj hframes
      have hnext : Draining all { s with decoder := d1, calls := s.calls ++ [.received f] } :=
        ⟨h.sent,(submitted_received d1 f).trans h.account⟩
      exact .received hreceive (h.account ▸ List.prefix_rfl) (ih hnext hrest)

/-- By the work that is left, and for the same work by the frames the decoder has before it wants input. -/
theorem Going.plays (hobeys : D.Obeys averrorEagain averrorEof ready) (h : Going D streamIndex all ready s) :
    ∃ frames, Plays D streamIndex all s frames := by
  induction hwork : s.work using Nat.strong_induction_on generalizing s with
  | _ n ih =>
    rcases h with ⟨hfeeding,early,d,hgives,hready⟩ | ⟨hdraining,frames,d,hgives⟩
    · induction early generalizing s with
      | nil =>
        rcases hgives.cases with ⟨-,hreceive⟩ | ⟨f,rest,d1,hframes,-,-⟩
        · have hasked : Feeding streamIndex all { s with decoder := d, calls := s.calls ++ [.refused averrorEagain] } :=
            ⟨hfeeding.undrained,hfeeding.code,hfeeding.atEnd,
              by rw [submitted_refused]; exact hfeeding.account⟩
          obtain ⟨s1,hinput,hgoing,hreceived⟩ := needInput_spec hobeys hasked hready
          have hturn : turn D streamIndex s = .again s1 := (turn_eagain hreceive).trans hinput
          obtain ⟨frames,hplays⟩ := ih s1.work (hwork ▸ turn_work hturn) hgoing rfl
          exact ⟨frames,hplays.again hturn (hreceived.trans (received_refused d averrorEagain))⟩
        · cases hframes
      | cons f early ihearly =>
        rcases hgives.cases with ⟨hframes,-⟩ | ⟨f1,rest,d1,hframes,hreceive,hrest⟩
        · cases hframes
        · obtain ⟨rfl,rfl⟩ := List.cons.inj hframes
          have hnext : Feeding streamIndex all { s with decoder := d1, calls := s.calls ++ [.received f] } :=
            ⟨hfeeding.undrained,hfeeding.code,hfeeding.atEnd,
              by rw [submitted_received]; exact hfeeding.account⟩
          have hsame : ({ s with decoder := d1, calls := s.calls ++ [.received f] } : Source σ).work = n := hwork
          obtain ⟨frames,hplays⟩ := ihearly hsame hnext hrest
          exact ⟨f :: frames,.received hreceive hfeeding.submitted_prefix hplays⟩
    · exact ⟨frames,hdraining.plays hgives⟩

end Loop

inductive Call where
  | nextFrame (a : Answers)
  | skip

section Calls
variable {σ : Type} (D : Codec σ Packet Frame) (streamIndex : ℤ) (scale : Frame → List UInt8)

def run : List Call → Video σ → List Output × Video σ
  | [], v => ([],v)
  | .nextFrame a :: calls, v =>
    let (out,v) := v.sword3VideoNextFrame D streamIndex scale a
    let (outs,v) := run calls v
    (out :: outs,v)
  | .skip :: calls, v => run calls v.sword3VideoSkip

/-- The caller has the picture of this frame. -/
structure Shows (f : Frame) (out : Output) : Prop where
  rc : out.rc = 1
  rgba : out.rgba = some (scale f)
  width : out.width = f.width
  height : out.height = f.height

/-- The libraries can make a picture of the frame. -/
structure Answers.Converts (a : Answers) (f : Frame) : Prop where
  size : 0 ≤ a.checkSize
  format : 0 ≤ f.format
  scaler : a.scaler = true
  alloc : 0 ≤ a.alloc
  rows : a.rows = f.height

/-- The operations whose failure is that of a conversion. -/
def conversions : List String := ["invalid decoded video frame","could not allocate RGBA frame"]

/-- What holds after any calls from `v` on: packets were sent in order, each frame received was shown but for one
that could not be converted, and no error is the decoder's. -/
structure Sound (all : List (Option Packet)) (v : Video σ) (r : List Output × Video σ) : Prop where
  submitted : r.2.source.submitted <+: all
  frames : ∃ shown lost, r.2.source.received = v.source.received ++ shown ++ lost ∧
    List.Forall₂ (Shows scale) shown (r.1.filter (·.rc == 1)) ∧ (lost = [] ∨ ∃ f, lost = [f] ∧ r.2.status = .error)
  errors : ∀ operation code, r.2.error = some (.av operation code) → operation ∈ conversions

/-- All frames have been shown, all packets and the drain have been sent, and the video is complete. -/
structure Completed (all : List (Option Packet)) (v : Video σ) (frames : List Frame) (r : List Output × Video σ) :
    Prop where
  status : r.2.status = .complete
  submitted : r.2.source.submitted = all
  received : r.2.source.received = v.source.received ++ frames
  shown : ∃ outs rest, r.1 = outs ++ rest ∧ List.Forall₂ (Shows scale) frames outs ∧ ∀ out ∈ rest, out = blank 0

/-- The frames before `f` have been shown, and `f` could not be converted. -/
structure BrokenOff (v : Video σ) (before : List Frame) (f : Frame) (r : List Output × Video σ) : Prop where
  status : r.2.status = .error
  received : r.2.source.received = v.source.received ++ (before ++ [f])
  shown : ∃ outs rest, r.1 = outs ++ rest ∧ List.Forall₂ (Shows scale) before outs ∧ ∀ out ∈ rest, out = blank (-1)

end Calls

section Calls
variable {σ : Type} {D : Codec σ Packet Frame} {streamIndex : ℤ} {scale : Frame → List UInt8}
variable {all : List (Option Packet)} {v : Video σ}

/-- The error there may be is not the decoder's. -/
def Blameless (v : Video σ) : Prop := ∀ operation code, v.error = some (.av operation code) → operation ∈ conversions

theorem setError_blameless (v : Video σ) (error : ℤ) {operation : String} (h : operation ∈ conversions) :
    Blameless (v.setError error operation) := by
  intro operation' code heq
  unfold Video.setError at heq
  dsimp only at heq
  split at heq
  next =>
    obtain ⟨rfl,-⟩ := VideoError.av.inj (Option.some.inj heq)
    exact h
  next => exact nomatch Option.some.inj heq

theorem setText_blameless (v : Video σ) (message : String) : Blameless (v.setText message) :=
  fun _ _ heq => nomatch Option.some.inj heq

/-- What has become of a frame: it goes on, or it could not be converted. -/
inductive Converted (a : Answers) (f : Frame) (v v' : Video σ) (good bad : Prop) : Prop where
  | good (hsource : v'.source = v.source) (hstatus : v'.status = v.status) (herror : v'.error = v.error) (h : good)
  | bad (hsource : v'.source = v.source) (hstatus : v'.status = .error) (herror : Blameless v')
      (hanswers : ¬a.Converts f) (h : bad)

theorem prepareRgba_spec (a : Answers) (f : Frame) (v : Video σ) :
    Converted a f v (v.prepareRgba a f).2 ((v.prepareRgba a f).1 = 0 ∧ (v.prepareRgba a f).2.rgba.isSome)
      ((v.prepareRgba a f).1 = -1) := by
  unfold Video.prepareRgba
  split
  next hcached =>
    refine .good rfl rfl rfl ⟨rfl,?_⟩
    cases hrgba : v.rgba with
    | none => simp [hrgba] at hcached
    | some r => rfl
  next =>
    split
    next hinvalid =>
      refine .bad rfl rfl ?_ (fun h => ?_) rfl
      · exact setError_blameless _ _ (by decide)
      · have hsize := h.size
        have hformat := h.format
        omega
    next =>
      split
      next hscaler =>
        refine .bad rfl rfl ?_ (fun h => ?_) rfl
        · exact setText_blameless _ _
        · exact nomatch hscaler.symm.trans h.scaler
      next =>
        split
        next halloc =>
          refine .bad rfl rfl ?_ (fun h => ?_) rfl
          · exact setError_blameless _ _ (by decide)
          · have hsize := h.alloc
            omega
        next => exact .good rfl rfl rfl ⟨rfl,rfl⟩

theorem outputFrame_spec (scale : Frame → List UInt8) (a : Answers) (f : Frame) (v : Video σ) :
    Converted a f v (v.outputFrame scale a f).2 (Shows scale f (v.outputFrame scale a f).1)
      ((v.outputFrame scale a f).1 = blank (-1)) := by
  have hprepare := prepareRgba_spec a f v
  unfold Video.outputFrame
  generalize v.prepareRgba a f = prepared at hprepare
  obtain ⟨rc,v1⟩ := prepared
  dsimp only at hprepare ⊢
  cases hprepare with
  | good hsource hstatus herror h =>
    obtain ⟨rfl,hrgba⟩ := h
    obtain ⟨r,hr⟩ := Option.isSome_iff_exists.mp hrgba
    rw [if_neg (lt_irrefl 0)]
    split
    next hrows => exact .bad hsource rfl (setText_blameless _ _) (fun h => hrows h.rows) rfl
    next => exact .good hsource hstatus herror ⟨rfl,by rw [hr]; rfl,rfl,rfl⟩
  | bad hsource hstatus herror hanswers h =>
    obtain rfl := h
    rw [if_pos (by decide)]
    exact .bad hsource hstatus herror hanswers rfl

theorem nextFrame_spec (scale : Frame → List UInt8) (hstatus : v.status = .playing) {frames : List Frame}
    (hplays : Plays D streamIndex all v.source frames) (a : Answers) :
    let r := v.sword3VideoNextFrame D streamIndex scale a
    (frames = [] ∧ r.1 = blank 0 ∧ r.2.status = .complete ∧ r.2.error = v.error ∧ r.2.source.submitted = all ∧
        r.2.source.received = v.source.received) ∨
      ∃ f rest, frames = f :: rest ∧ r.2.source.submitted <+: all ∧
        r.2.source.received = v.source.received ++ [f] ∧
        (Plays D streamIndex all r.2.source rest ∧ r.2.status = .playing ∧ r.2.error = v.error ∧ Shows scale f r.1 ∨
          r.2.status = .error ∧ Blameless r.2 ∧ ¬a.Converts f ∧ r.1 = blank (-1)) := by
  obtain ⟨source0,rgba,scaler,status,error⟩ := v
  dsimp only at hstatus hplays
  subst hstatus
  unfold Video.sword3VideoNextFrame
  dsimp only
  cases hplays with
  | complete hloop hsubmitted hreceived =>
    rw [hloop]
    exact .inl ⟨rfl,rfl,rfl,rfl,hsubmitted,hreceived⟩
  | @frame _ source f rest hloop hsubmitted hreceived hrest =>
    rw [hloop]
    dsimp only
    refine .inr ⟨f,rest,rfl,?_⟩
    have hout := outputFrame_spec scale a f ⟨source,rgba,scaler,.playing,error⟩
    cases hout with
    | good hsource hgoes herror h =>
      rw [hsource]
      exact ⟨hsubmitted,hreceived,.inl ⟨hrest,hgoes,herror,h⟩⟩
    | bad hsource hfails herror hanswers h =>
      rw [hsource]
      exact ⟨hsubmitted,hreceived,.inr ⟨hfails,herror,hanswers,h⟩⟩

theorem nextFrame_settled (hstatus : v.status ≠ .playing) (a : Answers) :
    v.sword3VideoNextFrame D streamIndex scale a = (blank (if v.status = .error then -1 else 0),v) := by
  unfold Video.sword3VideoNextFrame
  cases h : v.status with
  | playing => exact absurd h hstatus
  | complete => rfl
  | skipped => rfl
  | error => rfl

/-- Once the status is no longer that of playing no call changes anything, and none asks the decoder. -/
theorem run_settled (D : Codec σ Packet Frame) (streamIndex : ℤ) (scale : Frame → List UInt8)
    (hstatus : v.status ≠ .playing) (calls : List Call) :
    (run D streamIndex scale calls v).2 = v ∧
      ∀ out ∈ (run D streamIndex scale calls v).1, out = blank (if v.status = .error then -1 else 0) := by
  induction calls with
  | nil => exact ⟨rfl,nofun⟩
  | cons c calls ih =>
    cases c with
    | nextFrame a =>
      unfold run
      rw [nextFrame_settled hstatus a]
      refine ⟨ih.1,fun out hout => ?_⟩
      rcases List.mem_cons.mp hout with rfl | hout
      · rfl
      · exact ih.2 out hout
    | skip =>
      unfold run Video.sword3VideoSkip
      rw [if_neg hstatus]
      exact ih

theorem filter_blank {outs : List Output} {rc : ℤ} (hrc : rc ≠ 1) (h : ∀ out ∈ outs, out = blank rc) :
    outs.filter (·.rc == 1) = [] := by
  rw [List.filter_eq_nil_iff]
  intro out hout
  rw [h out hout]
  simpa [blank] using hrc

theorem sound_settled (D : Codec σ Packet Frame) (streamIndex : ℤ) (scale : Frame → List UInt8) {v : Video σ}
    (hstatus : v.status ≠ .playing) (hsubmitted : v.source.submitted <+: all)
    (herrors : Blameless v) (calls : List Call) : Sound scale all v (run D streamIndex scale calls v) := by
  obtain ⟨hsame,hblank⟩ := run_settled D streamIndex scale hstatus calls
  refine ⟨?_,⟨[],[],?_,?_,.inl rfl⟩,?_⟩
  · rw [hsame]
    exact hsubmitted
  · rw [hsame]
    simp
  · rw [filter_blank _ hblank]
    · exact .nil
    · split <;> decide
  · rw [hsame]
    exact herrors

theorem Sound.shown {v1 : Video σ} {f : Frame} {out : Output} {r : List Output × Video σ}
    (hreceived : v1.source.received = v.source.received ++ [f]) (hout : Shows scale f out)
    (h : Sound scale all v1 r) : Sound scale all v (out :: r.1,r.2) := by
  obtain ⟨shown,lost,hlist,hshows,hlost⟩ := h.frames
  refine ⟨h.submitted,⟨f :: shown,lost,?_,?_,hlost⟩,h.errors⟩
  · rw [hlist,hreceived]
    simp
  · have hfilter : (out :: r.1).filter (·.rc == 1) = out :: r.1.filter (·.rc == 1) :=
      List.filter_cons_of_pos (beq_iff_eq.mpr hout.rc)
    dsimp only
    rw [hfilter]
    exact .cons hout hshows

theorem Sound.blank {v1 : Video σ} {rc : ℤ} {lost : List Frame} {calls : List Call} (hstatus : v1.status ≠ .playing)
    (hrc : rc ≠ 1) (hsubmitted : v1.source.submitted <+: all) (herrors : Blameless v1)
    (hreceived : v1.source.received = v.source.received ++ lost)
    (hlost : lost = [] ∨ ∃ f, lost = [f] ∧ v1.status = .error) :
    Sound scale all v (blank rc :: (run D streamIndex scale calls v1).1,(run D streamIndex scale calls v1).2) := by
  obtain ⟨hsame,hblank⟩ := run_settled D streamIndex scale hstatus calls
  refine ⟨?_,⟨[],lost,?_,?_,?_⟩,?_⟩
  · rw [hsame]
    exact hsubmitted
  · rw [hsame,hreceived]
    simp
  · dsimp only
    rw [List.filter_cons_of_neg (by simpa [VideoBridge.blank] using hrc),filter_blank _ hblank]
    · exact .nil
    · split <;> decide
  · rw [hsame]
    exact hlost
  · rw [hsame]
    exact herrors

theorem run_sound (hstatus : v.status = .playing) (herrors : Blameless v) (hsubmitted : v.source.submitted <+: all)
    {frames : List Frame} (hplays : Plays D streamIndex all v.source frames) (calls : List Call) :
    Sound scale all v (run D streamIndex scale calls v) := by
  induction calls generalizing v frames with
  | nil => exact ⟨hsubmitted,⟨[],[],by simp [run],.nil,.inl rfl⟩,herrors⟩
  | cons c calls ih =>
    cases c with
    | nextFrame a =>
      rcases nextFrame_spec scale hstatus hplays a with
        ⟨-,hout,hover,herror,hall,hreceived⟩ | ⟨f,rest,-,hsent,hreceived,h⟩
      · unfold run
        dsimp only
        rw [hout]
        refine .blank (fun h => nomatch hover.symm.trans h) (by decide) (hall ▸ List.prefix_rfl) ?_ ?_ (.inl rfl)
        · intro operation code h
          exact herrors operation code (herror ▸ h)
        · rw [hreceived,List.append_nil]
      · rcases h with ⟨hplays,hgoes,herror,hout⟩ | ⟨hfails,hblameless,-,hout⟩
        · have herrors' : Blameless (v.sword3VideoNextFrame D streamIndex scale a).2 :=
            fun operation code h => herrors operation code (herror ▸ h)
          exact (ih hgoes herrors' hsent hplays).shown hreceived hout
        · unfold run
          dsimp only
          rw [hout]
          exact .blank (fun h => nomatch hfails.symm.trans h) (by decide) hsent hblameless hreceived
            (.inr ⟨f,rfl,hfails⟩)
    | skip =>
      have hskip : v.sword3VideoSkip = { v with status := .skipped } := if_pos hstatus
      unfold run
      rw [hskip]
      have hskipped : ({ v with status := .skipped } : Video σ).status ≠ .playing := nofun
      obtain ⟨hsub,hframes,herr⟩ := sound_settled D streamIndex scale hskipped hsubmitted herrors calls
      exact ⟨hsub,hframes,herr⟩

/-! ## Repeated calls -/

theorem Completed.cons {v1 : Video σ} {f : Frame} {frames : List Frame} {out : Output} {r : List Output × Video σ}
    (hreceived : v1.source.received = v.source.received ++ [f]) (hout : Shows scale f out)
    (h : Completed scale all v1 frames r) : Completed scale all v (f :: frames) (out :: r.1,r.2) := by
  obtain ⟨outs,rest,hrun,hshows,hblank⟩ := h.shown
  refine ⟨h.status,h.submitted,?_,out :: outs,rest,congrArg (out :: ·) hrun,.cons hout hshows,hblank⟩
  rw [h.received,hreceived,List.append_assoc,List.singleton_append]

theorem BrokenOff.cons {v1 : Video σ} {f g : Frame} {before : List Frame} {out : Output} {r : List Output × Video σ}
    (hreceived : v1.source.received = v.source.received ++ [f]) (hout : Shows scale f out)
    (h : BrokenOff scale v1 before g r) : BrokenOff scale v (f :: before) g (out :: r.1,r.2) := by
  obtain ⟨outs,rest,hrun,hshows,hblank⟩ := h.shown
  refine ⟨h.status,?_,out :: outs,rest,congrArg (out :: ·) hrun,.cons hout hshows,hblank⟩
  rw [h.received,hreceived,List.append_assoc]
  rfl

theorem Completed.last (D : Codec σ Packet Frame) (streamIndex : ℤ) {v1 : Video σ}
    (hover : v1.status = .complete) (hall : v1.source.submitted = all)
    (hreceived : v1.source.received = v.source.received) (calls : List Call) : Completed scale all v []
      (blank 0 :: (run D streamIndex scale calls v1).1,(run D streamIndex scale calls v1).2) := by
  obtain ⟨hsame,hblank⟩ := run_settled D streamIndex scale (fun h => nomatch hover.symm.trans h) calls
  rw [hsame]
  rw [hover] at hblank
  refine ⟨hover,hall,hreceived.trans (List.append_nil _).symm,[],_,rfl,.nil,fun out hmem => ?_⟩
  rcases List.mem_cons.mp hmem with rfl | hmem
  · rfl
  · exact hblank out hmem

theorem BrokenOff.last (D : Codec σ Packet Frame) (streamIndex : ℤ) {v1 : Video σ} {f : Frame}
    (hfails : v1.status = .error) (hreceived : v1.source.received = v.source.received ++ [f]) (calls : List Call) :
    BrokenOff scale v [] f
      (blank (-1) :: (run D streamIndex scale calls v1).1,(run D streamIndex scale calls v1).2) := by
  obtain ⟨hsame,hblank⟩ := run_settled D streamIndex scale (fun h => nomatch hfails.symm.trans h) calls
  rw [hsame]
  rw [hfails] at hblank
  refine ⟨hfails,hreceived,[],_,rfl,.nil,fun out hmem => ?_⟩
  rcases List.mem_cons.mp hmem with rfl | hmem
  · rfl
  · exact hblank out hmem

/-- By the frames that are still to come: every call shows one of them until one cannot be converted. -/
theorem run_nextFrames (hstatus : v.status = .playing) {frames : List Frame}
    (hplays : Plays D streamIndex all v.source frames) {answers : List Answers}
    (hlen : frames.length < answers.length) :
    let r := run D streamIndex scale (answers.map .nextFrame) v
    Completed scale all v frames r ∨ ∃ before f after a, frames = before ++ f :: after ∧
      answers[before.length]? = some a ∧ ¬a.Converts f ∧ BrokenOff scale v before f r := by
  induction frames generalizing v answers with
  | nil =>
    cases answers with
    | nil => exact absurd hlen (lt_irrefl 0)
    | cons a answers =>
      rcases nextFrame_spec scale hstatus hplays a with ⟨-,hout,hover,-,hall,hreceived⟩ | ⟨f,rest,hframes,-⟩
      · have hlast : Completed scale all v [] _ := .last D streamIndex hover hall hreceived
          (answers.map .nextFrame)
        rw [← hout] at hlast
        exact .inl hlast
      · cases hframes
  | cons f frames ih =>
    cases answers with
    | nil => exact absurd hlen (Nat.not_lt_zero _)
    | cons a answers =>
      rcases nextFrame_spec scale hstatus hplays a with
        ⟨hframes,-⟩ | ⟨f1,rest,hframes,-,hreceived,⟨hrest,hgoes,-,hout⟩ | ⟨hfails,-,hanswers,hout⟩⟩
      · cases hframes
      · obtain ⟨rfl,rfl⟩ := List.cons.inj hframes
        rcases ih hgoes hrest (Nat.lt_of_succ_lt_succ hlen) with h | ⟨before,g,after,b,hsplit,hb,hbad,h⟩
        · exact .inl (h.cons hreceived hout)
        · exact .inr ⟨f :: before,g,after,b,congrArg (f :: ·) hsplit,hb,hbad,h.cons hreceived hout⟩
      · obtain ⟨rfl,rfl⟩ := List.cons.inj hframes
        have hlast : BrokenOff scale v [] f _ := .last D streamIndex hfails hreceived
          (answers.map .nextFrame)
        rw [← hout] at hlast
        exact .inr ⟨[],f,frames,a,rfl,rfl,hanswers,hlast⟩

end Calls

/-- Playback through libraries that may fail: whatever they answer, so many calls show every frame. -/
def PlaysOut {σ : Type} (D : Codec σ Packet Frame) (streamIndex : ℤ) (scale : Frame → List UInt8) (x : Demuxer) :
    Prop :=
  ∃ n, ∀ answers : List Answers, n ≤ answers.length → ∃ frames,
    Completed scale (wanted streamIndex x.packets) (opened D x) frames
      (run D streamIndex scale (answers.map .nextFrame) (opened D x))

/-- For any decoder that keeps to its contract and any packets: what holds after any calls, that nothing changes
once the video does not play, and that it plays to its end unless a frame cannot be converted. -/
theorem video_sends_and_shows {σ : Type} {D : Codec σ Packet Frame} {ready : σ → Prop} (x : Demuxer)
    (streamIndex : ℤ) (scale : Frame → List UInt8) (hobeys : D.Obeys averrorEagain averrorEof ready)
    (hrest : x.rest = averrorEof) :
    (∀ calls, Sound scale (wanted streamIndex x.packets) (opened D x)
      (run D streamIndex scale calls (opened D x))) ∧
    (∀ calls more, (run D streamIndex scale calls (opened D x)).2.status ≠ .playing →
      (run D streamIndex scale more (run D streamIndex scale calls (opened D x)).2).2 =
        (run D streamIndex scale calls (opened D x)).2) ∧
    ∃ frames, ∀ answers : List Answers, frames.length < answers.length →
      Completed scale (wanted streamIndex x.packets) (opened D x) frames
        (run D streamIndex scale (answers.map .nextFrame) (opened D x)) ∨
      ∃ before f after a, frames = before ++ f :: after ∧ answers[before.length]? = some a ∧ ¬a.Converts f ∧
        BrokenOff scale (opened D x) before f (run D streamIndex scale (answers.map .nextFrame) (opened D x)) := by
  have hfeeding : Feeding streamIndex (wanted streamIndex x.packets) (opened D x).source :=
    ⟨rfl,hrest,nofun,rfl⟩
  obtain ⟨frames,hplays⟩ := Going.plays hobeys (.inl ⟨hfeeding,hobeys.starts⟩)
  have hblameless : Blameless (opened D x) := fun _ _ h => nomatch h
  have hstart : (opened D x).source.submitted <+: wanted streamIndex x.packets := List.nil_prefix
  refine ⟨fun calls => ?_,fun calls more hstatus => ?_,frames,fun answers hlen => ?_⟩
  · exact run_sound rfl hblameless hstart hplays calls
  · exact (run_settled D streamIndex scale hstatus more).1
  · exact run_nextFrames rfl hplays hlen

/-- A decoder that makes a frame of every packet. -/
def echo : Codec (List Frame × Bool) Packet Frame where
  start := ([],false)
  receive := fun
    | (f :: frames,drained) => (.frame f,(frames,drained))
    | ([],drained) => (.code (if drained then averrorEof else averrorEagain),([],drained))
  send := fun
    | some packet, (frames,drained) => (0,(frames ++ [⟨1,1,0,packet.data⟩],drained))
    | none, (frames,_) => (0,(frames,true))

theorem echo_gives (frames : List Frame) (drained : Bool) :
    echo.Gives (frames,drained) frames (if drained then averrorEof else averrorEagain) ([],drained) := by
  induction frames with
  | nil => exact .code rfl
  | cons f frames ih => exact .frame rfl ih

theorem echo_obeys : echo.Obeys averrorEagain averrorEof fun d => d.2 = false where
  starts := ⟨[],_,echo_gives [] false,rfl⟩
  stays := by
    rintro ⟨frames,drained⟩ rfl
    exact ⟨frames,_,echo_gives frames false,rfl⟩
  accepts := by
    rintro ⟨frames,drained⟩ packet rfl
    exact ⟨rfl,_,_,echo_gives (frames ++ [⟨1,1,0,packet.data⟩]) false,rfl⟩
  drains := by
    rintro ⟨frames,drained⟩ rfl
    exact ⟨rfl,_,_,echo_gives frames true⟩

/-- Two packets of stream 0 and one of another. -/
def interleaved : Demuxer := ⟨[⟨0,[1]⟩,⟨1,[2]⟩,⟨0,[3]⟩],averrorEof⟩

theorem echo_sends_and_shows : ∃ frames, ∀ answers : List Answers, frames.length < answers.length →
    Completed Frame.data (wanted 0 interleaved.packets) (opened echo interleaved) frames
      (run echo 0 Frame.data (answers.map .nextFrame) (opened echo interleaved)) ∨
    ∃ before f after a, frames = before ++ f :: after ∧ answers[before.length]? = some a ∧ ¬a.Converts f ∧
      BrokenOff Frame.data (opened echo interleaved) before f
        (run echo 0 Frame.data (answers.map .nextFrame) (opened echo interleaved)) :=
  (video_sends_and_shows interleaved 0 Frame.data echo_obeys rfl).2.2

/-- Where there is no memory for the first picture the video ends there. -/
theorem not_playsOut_no_memory :
    echo.Obeys averrorEagain averrorEof (fun d => d.2 = false) ∧
      ¬PlaysOut echo 0 Frame.data ⟨[⟨0,[1]⟩],averrorEof⟩ := by
  refine ⟨echo_obeys,?_⟩
  rintro ⟨n,h⟩
  obtain ⟨frames,hcompleted⟩ := h (List.replicate (n+1) ⟨0,true,-12,0,1⟩) (by simp)
  have hloop : decodeLoop echo 0 (opened echo ⟨[⟨0,[1]⟩],averrorEof⟩).source = (.frame ⟨1,1,0,[1]⟩,_) :=
    (decodeLoop_again rfl).trans ((decodeLoop_again rfl).trans (decodeLoop_over rfl))
  have hnext : ((opened echo ⟨[⟨0,[1]⟩],averrorEof⟩).sword3VideoNextFrame echo 0 Frame.data
      ⟨0,true,-12,0,1⟩).2.status = .error := by
    unfold Video.sword3VideoNextFrame
    simp only [opened] at hloop ⊢
    rw [hloop]
    rfl
  have hstatus := hcompleted.status
  rw [List.replicate_succ,List.map_cons,run] at hstatus
  dsimp only at hstatus
  rw [(run_settled echo 0 Frame.data (fun h => nomatch hnext.symm.trans h) _).1,hnext] at hstatus
  cases hstatus

end Machismo.Sword3.VideoBridge
