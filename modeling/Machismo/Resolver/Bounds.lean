import Mathlib.Data.Set.Finite.Lattice
import Machismo.Resolver.Chained
import Machismo.Resolver.StreamsInMemory

/-! # Where fixups write

Of a slot in a segment only the segment index is checked, of a slot on a chain nothing. The addresses
written are therefore those the fixup data name, and they lie in the image exactly when the data say so, as long
as the data are not written over themselves.
-/
namespace Machismo.Resolver
open A64

/-- A byte of one of the image's segments. -/
def Mapped (I : Image) (b : Addr) : Prop := ∃ seg ∈ I.segments, (b - (seg.vmaddr + I.slide)).toNat < seg.vmsize.toNat

/-- All eight bytes of a slot are in the image. -/
def SlotMapped (I : Image) (a : Addr) : Prop := ∀ i < 8, Mapped I (a + BitVec.ofNat 64 i)

instance (I : Image) (b : Addr) : Decidable (Mapped I b) := inferInstanceAs (Decidable (∃ _ ∈ I.segments, _))
instance (I : Image) (a : Addr) : Decidable (SlotMapped I a) := inferInstanceAs (Decidable (∀ i < 8, _))

/-- All that is written between two states is in the image. -/
def StaysInside (I : Image) (st st' : ResolverState) : Prop :=
  ∃ l, st'.written = st.written ++ l ∧ ∀ a ∈ l, SlotMapped I a

theorem staysInside_iff {I : Image} {st st' : ResolverState} {l : List Addr} (h : st'.written = st.written ++ l) :
    StaysInside I st st' ↔ ∀ a ∈ l, SlotMapped I a := by
  refine ⟨?_,fun hl => ⟨l,h,hl⟩⟩
  rintro ⟨l',h',hl⟩
  obtain rfl := List.append_cancel_left (h'.symm.trans h)
  exact hl

section Passes
variable {E : Env} {I : Image}

theorem rebaseOne_written (st : ResolverState) (c : Cursor) :
    (rebaseOne I st c).written = st.written ++ (I.slot? c).toList := by
  unfold rebaseOne
  split
  next h => simp [h]
  next h => simp [h, ResolverState.write]

theorem doBindOne_written (st : ResolverState) (b : Bind) :
    (doBindOne E I st b).written = st.written ++ (I.slot? b.cursor).toList := by
  cases h : I.slot? b.cursor with
  | none => simp [doBindOne_none E I st b h]
  | some addr =>
    obtain ⟨v,-,hw⟩ := doBindOne_write E I st b h
    exact hw

theorem foldl_rebaseOne_written (l : List Cursor) (st : ResolverState) :
    (l.foldl (rebaseOne I) st).written = st.written ++ l.filterMap I.slot? := by
  induction l generalizing st with
  | nil => simp
  | cons c l ih =>
    rw [List.foldl_cons, ih, rebaseOne_written, List.append_assoc, List.filterMap_cons]
    cases I.slot? c <;> rfl

theorem foldl_doBindOne_written (l : List Bind) (st : ResolverState) :
    (l.foldl (doBindOne E I) st).written = st.written ++ (l.map Bind.cursor).filterMap I.slot? := by
  induction l generalizing st with
  | nil => simp
  | cons b l ih =>
    rw [List.foldl_cons, ih, doBindOne_written, List.append_assoc, List.map_cons, List.filterMap_cons]
    cases I.slot? b.cursor <;> rfl

end Passes

/-- A pass as its success and the places it names. -/
def rebaseReach : Option (List Byte) → Bool × List Cursor
  | none => (false,[])
  | some p => rebaseRun (rebaseOps p) ⟨0,0⟩

def bindReach (isLazy : Bool) : Option (List Byte) → Bool × List Cursor
  | none => (false,[])
  | some p => ((bindRun isLazy (bindOps p) .initial).1,(streamBinds isLazy p).map Bind.cursor)

def reachThen (r s : Bool × List Cursor) : Bool × List Cursor := if r.1 then (s.1,r.2 ++ s.2) else r

/-- The places named by the streams, up to the first pass that fails. -/
def DyldInfo.reached (D : DyldInfo) : Bool × List Cursor :=
  reachThen (reachThen (reachThen (rebaseReach D.rebase) (bindReach false D.bind)) (bindReach false D.weakBind))
    (bindReach true D.lazyBind)

section Reached
variable {E : Env} {I : Image} {st : ResolverState}

/-- A pass succeeds as its reach says, writes the slots of the places there, and nothing else. -/
structure Reaches (I : Image) (st : ResolverState) (r : Bool × ResolverState) (s : Bool × List Cursor) : Prop where
  ok : r.1 = s.1
  written : r.2.written = st.written ++ s.2.filterMap I.slot?
  frame : ∀ b, Outside I b s.2 → r.2.mem b = st.mem b

theorem rebasePass_reaches (p : Option (List Byte)) (st : ResolverState) :
    Reaches I st (rebasePass I p st) (rebaseReach p) := by
  cases p with
  | none => exact ⟨rfl,by simp [rebasePass, rebaseReach],fun _ _ => rfl⟩
  | some p =>
    rw [rebasePass_eq]
    exact ⟨rfl,foldl_rebaseOne_written _ st,fun b hb => foldl_rebaseOne_outside _ st hb⟩

theorem bindPass_reaches (isLazy : Bool) (p : Option (List Byte)) (st : ResolverState) :
    Reaches I st (bindPass E I isLazy p st) (bindReach isLazy p) := by
  cases p with
  | none => exact ⟨rfl,by simp [bindPass, bindReach],fun _ _ => rfl⟩
  | some p =>
    rw [bindPass_eq]
    exact ⟨rfl,foldl_doBindOne_written _ st,fun b hb => foldl_doBindOne_outside _ st hb⟩

def Streams.Covers (P : Streams) (b : Addr) : Prop :=
  ∃ s, (P.rebase = some s ∨ P.bind = some s ∨ P.weakBind = some s ∨ P.lazyBind = some s) ∧ s.Covers b

/-- No place that the streams name is on them. -/
def Streams.Apart (P : Streams) (I : Image) (m : Memory) : Prop := ∀ b, P.Covers b → Outside I b (P.read m).reached.2

variable {R : Addr → Prop} {m : Memory}

/-- A pass over memory is the one over its stream as it was. -/
structure Follows (I : Image) (st : ResolverState) (rAt r : Bool × ResolverState) (s : Bool × List Cursor) : Prop where
  same : rAt = r
  reaches : Reaches I st r s

theorem Span.covers_offset (s : Span) {i : ℕ} (hi : i < s.size) : s.Covers (s.start + BitVec.ofNat 64 i) := by
  unfold Span.Covers
  rw [BitVec.add_comm,BitVec.add_sub_cancel,BitVec.toNat_ofNat]
  exact (Nat.mod_le _ _).trans_lt hi

theorem rebasePassAt_follows {stream : Option Span} (hs : ∀ s, stream = some s → ∀ b, s.Covers b → R b)
    (hkept : KeptOn R m st.mem) (hout : ∀ b, R b → Outside I b (rebaseReach (stream.map (·.bytes m))).2) :
    Follows I st (rebasePassAt I stream st) (rebasePass I (stream.map (·.bytes m)) st)
      (rebaseReach (stream.map (·.bytes m))) := by
  refine ⟨?_,rebasePass_reaches _ st⟩
  cases stream with
  | none => rfl
  | some s =>
    have hspan : ∀ i < s.size, R (s.start + BitVec.ofNat 64 i) := fun i hi => hs s rfl _ (s.covers_offset hi)
    have hbytes : s.bytes st.mem = s.bytes m := hkept.fetch_eq hspan
    rw [Option.map_some,← hbytes] at hout ⊢
    exact runRebaseAt_eq le_rfl hspan hout

theorem bindPassAt_follows {isLazy : Bool} {stream : Option Span} (hs : ∀ s, stream = some s → ∀ b, s.Covers b → R b)
    (hkept : KeptOn R m st.mem) (hout : ∀ b, R b → Outside I b (bindReach isLazy (stream.map (·.bytes m))).2) :
    Follows I st (bindPassAt E I isLazy stream st) (bindPass E I isLazy (stream.map (·.bytes m)) st)
      (bindReach isLazy (stream.map (·.bytes m))) := by
  refine ⟨?_,bindPass_reaches isLazy _ st⟩
  cases stream with
  | none => rfl
  | some s =>
    have hspan : ∀ i < s.size, R (s.start + BitVec.ofNat 64 i) := fun i hi => hs s rfl _ (s.covers_offset hi)
    have hbytes : s.bytes st.mem = s.bytes m := hkept.fetch_eq hspan
    rw [Option.map_some,← hbytes] at hout ⊢
    exact runBindAt_eq le_rfl hspan (fun i hi => absurd hi (Nat.not_lt_zero i)) rfl hout

theorem outside_of_reachThen {s t : Bool × List Cursor} {b : Addr} (h : Outside I b (reachThen s t).2) :
    Outside I b s.2 := by
  unfold reachThen at h
  split at h
  · exact fun c hc => h c (List.mem_append_left _ hc)
  · exact h

theorem Follows.andThen {rAt r : Bool × ResolverState} {s t : Bool × List Cursor}
    {fAt f : ResolverState → Bool × ResolverState} (h : Follows I st rAt r s) (hkept : KeptOn R m st.mem)
    (hf : ∀ st', KeptOn R m st'.mem → (∀ b, R b → Outside I b t.2) → Follows I st' (fAt st') (f st') t)
    (hout : ∀ b, R b → Outside I b (reachThen s t).2) :
    Follows I st (andThen rAt fAt) (andThen r f) (reachThen s t) := by
  obtain ⟨rfl,hok,hwritten,hframe⟩ := h
  unfold Resolver.andThen reachThen at *
  rw [hok]
  cases hs : s.1 with
  | false => exact ⟨rfl,hok,hwritten,hframe⟩
  | true =>
    rw [hs] at hout
    obtain ⟨hsame,hok',hwritten',hframe'⟩ := hf rAt.2
      (fun b hb => (hframe b fun c hc => hout b hb c (List.mem_append_left _ hc)).trans (hkept b hb))
      fun b hb c hc => hout b hb c (List.mem_append_right _ hc)
    rw [if_pos rfl,if_pos rfl,if_pos rfl]
    refine ⟨hsame,hok',?_,fun b hb => ?_⟩
    · rw [List.filterMap_append,← List.append_assoc,← hwritten]
      exact hwritten'
    · exact (hframe' b fun c hc => hb c (List.mem_append_right _ hc)).trans
        (hframe b fun c hc => hb c (List.mem_append_left _ hc))

theorem processDyldInfoAt_follows {P : Streams} (h : P.Apart I st.mem) :
    Follows I st (processDyldInfoAt E I P st) (processDyldInfo E I (P.read st.mem) st) (P.read st.mem).reached := by
  have hkept : KeptOn P.Covers st.mem st.mem := fun b _ => rfl
  have hlast := fun b hb => outside_of_reachThen (h b hb)
  have hsecond := fun b hb => outside_of_reachThen (hlast b hb)
  have hfirst := rebasePassAt_follows (fun s hs b hb => ⟨s,.inl hs,hb⟩) hkept
    fun b hb => outside_of_reachThen (hsecond b hb)
  exact ((hfirst.andThen hkept
    (fun st' => bindPassAt_follows fun s hs b hb => ⟨s,.inr (.inl hs),hb⟩) hsecond).andThen hkept
    (fun st' => bindPassAt_follows fun s hs b hb => ⟨s,.inr (.inr (.inl hs)),hb⟩) hlast).andThen hkept
    (fun st' => bindPassAt_follows fun s hs b hb => ⟨s,.inr (.inr (.inr hs)),hb⟩) h

end Reached

/-- The chained fixups as they are read from memory; what is read goes by the bytes at a place. -/
structure ChainData where
  read : Memory → ChainedFixups
  place : Addr → Prop
  read_congr : ∀ m m', (∀ b, place b → m' b = m b) → read m' = read m

structure ChainData.Apart (X : ChainData) (I : Image) (m : Memory) : Prop where
  slots : SlotsApart m (chainStarts I (X.read m))
  data : ∀ a, IsSlot I (X.read m) m a → ∀ b, X.place b → 8 ≤ (b - a).toNat

theorem SlotsApart.bounded {m : Memory} {l : List ChainStart} (h : SlotsApart m l) :
    ∃ n, ∀ s ∈ l, ∀ o, s.Reaches m o → o + 8 ≤ n := by
  have haddresses : Finite Addr := Finite.of_injective BitVec.toFin fun _ _ => BitVec.eq_of_toFin_eq
  have hfinite : (⋃ s ∈ {s | s ∈ l}, {o | s.Reaches m o}).Finite := by
    refine Set.Finite.biUnion (List.finite_toSet l) fun s hs => ?_
    obtain ⟨i,hi⟩ := List.getElem?_of_mem hs
    refine Set.Finite.of_finite_image (Set.toFinite (s.slot '' _)) fun o ho o' ho' heq => ?_
    by_contra hne
    have hapart := (h i i s s o o' hi hi ho ho' (.inr hne)).1
    rw [heq,BitVec.sub_self] at hapart
    exact absurd hapart (by decide)
  obtain ⟨n,hn⟩ := hfinite.bddAbove
  refine ⟨n+8,fun s hs o ho => Nat.add_le_add_right (hn ?_) 8⟩
  exact Set.mem_biUnion hs ho

/-- A place with a bad segment index is not written. Where the fixup data lie apart from the slots that they name,
and the slots of the chains from one another, the places that the opcodes reach and the slots on the chains are
written and nothing else; that stays inside exactly when all of these are in the image. -/
theorem fixups_staysInside_iff (E : Env) (I : Image) (st : ResolverState) :
    (∀ c : Cursor, I.segments.length ≤ c.segIndex → ∀ st', rebaseOne I st' c = st' ∧
      ∀ b : Bind, b.cursor = c → doBindOne E I st' b = st') ∧
    (∀ P : Streams, P.Apart I st.mem →
      Reaches I st (processDyldInfoAt E I P st) (P.read st.mem).reached ∧
      (StaysInside I st (processDyldInfoAt E I P st).2 ↔
        ∀ c ∈ (P.read st.mem).reached.2, ∀ a, I.slot? c = some a → SlotMapped I a)) ∧
    ∀ X : ChainData, X.Apart I st.mem → ∃ st' fx n,
      (∀ fuel ≥ n, processChainedFixups E I (X.read st.mem) fuel st = some st') ∧
      (∀ pre, pre <+: fx → X.read (pre.foldl (Fixup.apply E I (X.read st.mem)) st).mem = X.read st.mem) ∧
      st'.written = st.written ++ fx.map Fixup.loc ∧
      (∀ a, a ∈ fx.map Fixup.loc ↔ IsSlot I (X.read st.mem) st.mem a) ∧
      (∀ b, (∀ a, IsSlot I (X.read st.mem) st.mem a → 8 ≤ (b - a).toNat) → st'.mem b = st.mem b) ∧
      (StaysInside I st st' ↔ ∀ a, IsSlot I (X.read st.mem) st.mem a → SlotMapped I a) := by
  refine ⟨fun c hc st' => ?_,fun P hP => ?_,fun X hX => ?_⟩
  · have hnone : I.slot? c = none := by
      unfold Image.slot?
      rw [List.getElem?_eq_none hc]
      rfl
    refine ⟨?_,fun b hb => doBindOne_none E I st' b (hb ▸ hnone)⟩
    unfold rebaseOne
    rw [hnone]
  · obtain ⟨hsame,hreaches⟩ := processDyldInfoAt_follows (E := E) hP
    rw [hsame]
    refine ⟨hreaches,?_⟩
    rw [staysInside_iff hreaches.written]
    simp only [List.mem_filterMap]
    constructor
    · intro h c hc a ha
      exact h a ⟨c,hc,ha⟩
    · rintro h a ⟨c,hc,ha⟩
      exact h c hc a ha
  · obtain ⟨n,hn⟩ := hX.slots.bounded
    have hapart : ChainsApart I (X.read st.mem) st.mem fun _ => n := ⟨hn,hX.slots⟩
    obtain ⟨fx,fuel,hrun,-,hmem⟩ := exists_fixups (E := E) st hapart
    have hslots : ∀ a, a ∈ fx.map Fixup.loc ↔ IsSlot I (X.read st.mem) st.mem a := by
      intro a
      rw [List.mem_map]
      constructor
      · rintro ⟨x,hx,rfl⟩
        obtain ⟨s,hs,o,ho,rfl⟩ := (hmem x).mp hx
        exact ⟨s,hs,o,ho,rfl⟩
      · rintro ⟨s,hs,o,ho,rfl⟩
        exact ⟨_,(hmem _).mpr ⟨s,hs,o,ho,rfl⟩,rfl⟩
    refine ⟨_,fx,fuel,hrun,fun pre hpre => ?_,Fixup.foldl_written fx st,hslots,fun b hb => ?_,?_⟩
    · refine X.read_congr _ _ fun b hb => Fixup.foldl_outside pre st fun x hx => ?_
      exact hX.data x.loc ((hslots x.loc).mp (List.mem_map_of_mem (hpre.subset hx))) b hb
    · exact Fixup.foldl_outside fx st fun x hx => hb x.loc ((hslots x.loc).mp (List.mem_map_of_mem hx))
    · rw [staysInside_iff (Fixup.foldl_written fx st)]
      exact forall_congr' fun a => imp_congr (hslots a) Iff.rfl

/-- A segment of data and `__LINKEDIT`, one page each. -/
def twoPages : Image := { noImage with segments := [⟨0x11000,0x1000⟩,⟨0x20000,0x1000⟩] }

/-- A rebase stream of four bytes in `__LINKEDIT`. -/
def oneStream : Streams := ⟨some ⟨0x20000,4⟩,some ⟨0,0⟩,some ⟨0,0⟩,some ⟨0,0⟩⟩

def twoFixupsData : ChainData where
  read m := { twoFixups with imports := fun i => if i.toNat < 4 then m (0x20000 + i) else 0 }
  place b := (b - 0x20000).toNat < 4
  read_congr := by
    intro m m' h
    have himports : (fun i : Addr => if i.toNat < 4 then m' (0x20000 + i) else 0) =
        fun i => if i.toNat < 4 then m (0x20000 + i) else 0 := by
      funext i
      split
      next hi =>
        refine h _ ?_
        rw [BitVec.add_comm,BitVec.add_sub_cancel]
        exact hi
      next => rfl
    exact congrArg (fun imports => { twoFixups with imports := imports }) himports

theorem oneStream_apart {m : Memory} {offset : BitVec 64} (h : (oneStream.read m).reached.2 = [⟨0,offset⟩])
    (hoffset : offset.toNat ≤ 0x2000) : oneStream.Apart twoPages m := by
  have hspan : ∀ {s : Span} {b : Addr}, s = ⟨0x20000,4⟩ ∨ s = ⟨0,0⟩ → s.Covers b → (b - 0x20000).toNat < 4 := by
    rintro s b (rfl | rfl) hb
    · exact hb
    · exact absurd hb (Nat.not_lt_zero _)
  rintro b ⟨s,hs,hb⟩
  have hlt : (b - 0x20000).toNat < 4 := by
    refine hspan ?_ hb
    rcases hs with hs | hs | hs | hs
    all_goals obtain rfl := Option.some.inj hs
    · exact .inl rfl
    all_goals exact .inr rfl
  rw [h]
  intro c hc a ha
  obtain rfl := List.mem_singleton.mp hc
  obtain rfl : 0x11000 + 0 + offset = a := Option.some.inj ha
  bv_omega

/-- One rebase at an offset of the first segment, its stream in memory. -/
def rebaseAt (stream : BitVec 32) : ResolverState := freshState (store (fun _ => 0) 0x20000 4 stream)

def chainWords : ResolverState := freshState (store twoWords 0x20000 4 (0xFE#32 : BitVec 32))

theorem twoFixupsData_apart : twoFixupsData.Apart twoPages chainWords.mem := by
  have hchain : twoStart.Chain chainWords.mem 0 [0,8] := .link ⟨by decide,by decide⟩ (.last (by decide))
  have hstarts : chainStarts twoPages (twoFixupsData.read chainWords.mem) = [twoStart] := rfl
  refine ⟨?_,?_⟩
  · rw [hstarts]
    exact slotsApart_twoStart hchain
  · rintro a ⟨s,hs,o,ho,rfl⟩ b hb
    rw [hstarts] at hs
    obtain rfl := List.mem_singleton.mp hs
    have hlt : (b - 0x20000).toNat < 4 := hb
    rcases twoStart_reaches hchain ho with rfl | rfl
    · have hslot : twoStart.slot 0 = 0x11000 := rfl
      rw [hslot]
      bv_omega
    · have hslot : twoStart.slot 8 = 0x11008 := rfl
      rw [hslot]
      bv_omega

theorem fixups_staysInside_two :
    StaysInside twoPages (rebaseAt 0x511020)
        (processDyldInfoAt printfLibrary twoPages oneStream (rebaseAt 0x511020)).2 ∧
      ∃ st' n, (∀ fuel ≥ n, processChainedFixups printfLibrary twoPages (twoFixupsData.read chainWords.mem) fuel
        chainWords = some st') ∧ StaysInside twoPages chainWords st' := by
  constructor
  · have hreached : (oneStream.read (rebaseAt 0x511020).mem).reached.2 = [⟨0,0x10⟩] := by decide
    refine ((fixups_staysInside_iff printfLibrary twoPages (rebaseAt 0x511020)).2.1 oneStream
      (oneStream_apart hreached (by decide))).2.mpr ?_
    rw [hreached]
    intro c hc a ha
    obtain rfl := List.mem_singleton.mp hc
    obtain rfl : 0x11010 = a := Option.some.inj ha
    decide
  · obtain ⟨st',fx,n,hrun,-,-,-,-,hiff⟩ := (fixups_staysInside_iff printfLibrary twoPages chainWords).2.2 twoFixupsData
      twoFixupsData_apart
    refine ⟨st',n,hrun,hiff.mpr ?_⟩
    rintro a ⟨s,hs,o,ho,rfl⟩
    have hchain : twoStart.Chain chainWords.mem 0 [0,8] := .link ⟨by decide,by decide⟩ (.last (by decide))
    obtain rfl : s = twoStart := List.mem_singleton.mp hs
    rcases twoStart_reaches hchain ho with rfl | rfl
    · decide
    · decide

/-- A rebase at offset `0x2000` of a segment of `0x1000` bytes is carried out. -/
theorem rebase_outside_segment :
    (processDyldInfoAt printfLibrary twoPages oneStream (rebaseAt 0x51408020)).1 = true ∧
      (processDyldInfoAt printfLibrary twoPages oneStream (rebaseAt 0x51408020)).2.written = [0x13000] ∧
      ¬StaysInside twoPages (rebaseAt 0x51408020)
        (processDyldInfoAt printfLibrary twoPages oneStream (rebaseAt 0x51408020)).2 := by
  have hw : (processDyldInfoAt printfLibrary twoPages oneStream (rebaseAt 0x51408020)).2.written =
      (rebaseAt 0x51408020).written ++ [0x13000] := by decide
  have hno : ¬SlotMapped twoPages 0x13000 := fun h => absurd (h 0 (by decide)) (by decide)
  exact ⟨by decide,hw,fun h => hno ((staysInside_iff hw).mp h _ (List.mem_singleton.mpr rfl))⟩

end Machismo.Resolver
