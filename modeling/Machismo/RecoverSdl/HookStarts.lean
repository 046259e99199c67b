import Machismo.RecoverSdl.MachO

/-! # Function starts on both sides

The tool reads the table of function starts from the file, the trampoline from memory.  Where the
text has one address, a segment holds the table and no start passes `2^64`, they find the same.
-/
namespace Machismo.RecoverSdl
open Machismo.A64 (Byte Addr Memory)
open Machismo.Trampoline (bytesAt startsFrom readDelta decodeFunctionStarts overflows_iff)

section Commands
variable (F : File)

theorem loaded_segments : F.loaded.segments = F.segments.map SegmentCommand.toTrampoline := by
  unfold Trampoline.MachO.segments File.segments File.loaded
  rw [List.filterMap_map,List.map_filterMap]
  refine List.filterMap_congr fun c _ => ?_
  cases c <;> rfl

theorem loaded_startsCommand : F.loaded.startsCommand = F.startsCommand := by
  unfold Trampoline.MachO.startsCommand File.startsCommand File.loaded
  rw [List.foldl_map]
  congr 1
  funext r c
  cases c <;> rfl

variable {F} in
theorem textSegment_spec {text : SegmentCommand} (h : F.textSegment = some text) :
    text ∈ F.segments ∧ text.segname = "__TEXT".toList := by
  unfold File.textSegment at h
  have hname := List.find?_some h
  rw [decide_eq_true_eq] at hname
  exact ⟨List.mem_of_find?_eq_some h,hname⟩

theorem loaded_textVmaddr {vmaddr : BitVec 64}
    (hall : ∀ seg ∈ F.segments, seg.segname = "__TEXT".toList → seg.vmaddr = vmaddr)
    {text : SegmentCommand} (htext : F.textSegment = some text) : F.loaded.textVmaddr = vmaddr := by
  have hfold : ∀ segs : List SegmentCommand, (∀ seg ∈ segs, seg.segname = "__TEXT".toList → seg.vmaddr = vmaddr) →
      ∀ v, (v = vmaddr ∨ ∃ seg ∈ segs, seg.segname = "__TEXT".toList) →
        (segs.map SegmentCommand.toTrampoline).foldl
          (fun v seg => if seg.segname = "__TEXT".toList then seg.vmaddr else v) v = vmaddr := by
    intro segs
    induction segs with
    | nil =>
      intro _ v hv
      exact hv.resolve_right fun ⟨_,hmem,_⟩ => absurd hmem List.not_mem_nil
    | cons seg segs ih =>
      intro hall v hv
      obtain ⟨hseg,hall⟩ := List.forall_mem_cons.mp hall
      rw [List.map_cons,List.foldl_cons]
      refine ih hall _ ?_
      by_cases hname : seg.segname = "__TEXT".toList
      · exact .inl ((if_pos hname).trans (hseg hname))
      · rw [if_neg (show ¬seg.toTrampoline.segname = _ from hname)]
        exact hv.imp_right fun ⟨other,hmem,hother⟩ =>
          ⟨other,(List.mem_cons.mp hmem).resolve_left (fun heq => hname (heq ▸ hother)),hother⟩
  unfold Trampoline.MachO.textVmaddr
  rw [loaded_segments]
  exact hfold _ hall 0 (.inr ⟨text,(textSegment_spec htext).1,(textSegment_spec htext).2⟩)

end Commands

section Memory
variable {F : File} {slide : Addr} {m : Memory}

theorem File.Mapped.bytesAt (hm : F.Mapped slide m) {seg : SegmentCommand} (hseg : seg ∈ F.segments) {k size : ℕ}
    (hk : k+size ≤ seg.filesize.toNat) {raw : List Byte} (hraw : checked F.data (seg.fileoff.toNat+k) size = some raw) :
    Trampoline.bytesAt m (seg.vmaddr+slide+.ofNat 64 k) size = raw := by
  unfold checked at hraw
  split_ifs at hraw with hlen
  obtain rfl := Option.some.inj hraw
  unfold Trampoline.bytesAt
  refine List.ext_getElem ?_ fun i hi hi' => ?_
  · simp only [List.length_map,List.length_range,List.length_take,List.length_drop]
    omega
  · rw [List.length_map,List.length_range] at hi
    rw [List.getElem_map,List.getElem_range,List.getElem_take,List.getElem_drop,BitVec.add_assoc,← BitVec.ofNat_add]
    refine hm seg hseg (k+i) (by omega) _ ?_
    rw [← Nat.add_assoc]
    exact List.getElem?_eq_getElem _

theorem File.Mapped.of_bytesAt (hm : F.Mapped slide m) {address size : ℕ} {raw : List Byte}
    (h : F.bytesAt address size = some raw) : Trampoline.bytesAt m (.ofNat 64 address+slide) size = raw := by
  obtain ⟨offset,hoffset,hraw⟩ := Option.bind_eq_some_iff.mp h
  obtain ⟨seg,hseg,rfl⟩ := Option.map_eq_some_iff.mp hoffset
  have hcover := List.find?_some hseg
  rw [decide_eq_true_eq] at hcover
  have hk : address-seg.vmaddr.toNat+size ≤ seg.filesize.toNat := by omega
  have hoff : seg.fileoff.toNat+address-seg.vmaddr.toNat = seg.fileoff.toNat+(address-seg.vmaddr.toNat) := by omega
  rw [hoff] at hraw
  have hbytes := hm.bytesAt (List.mem_of_find?_eq_some hseg) hk hraw
  have haddr : seg.vmaddr+slide+.ofNat 64 (address-seg.vmaddr.toNat) = .ofNat 64 address+slide := by
    refine BitVec.eq_of_toNat_eq ?_
    simp only [BitVec.toNat_add,BitVec.toNat_ofNat]
    omega
  rwa [haddr] at hbytes

end Memory

section Decode

theorem getLsbD_seven (byte : Byte) : byte.getLsbD 7 = false ↔ byte &&& 0x80 = 0 := by
  revert byte
  decide

theorem readDelta_of_loop {raw rest : List Byte} {value shift n : ℕ} (hshift : shift < 64)
    (h : readUlebLoop value shift raw = some (n,rest)) :
    readDelta shift (.ofNat 64 value) raw = some (.ofNat 64 n,rest) := by
  induction raw generalizing value shift with
  | nil => cases h
  | cons byte raw ih =>
    unfold readUlebLoop at h
    unfold readDelta
    rw [if_neg (Nat.not_le.mpr hshift)]
    have hgroup := ofNat_or_group value shift byte hshift
    rw [Nat.mod_eq_of_lt hshift] at hgroup
    dsimp only at h ⊢
    rw [← hgroup]
    split_ifs at h with hlast hlong
    · obtain ⟨rfl,rfl⟩ := Prod.mk.inj (Option.some.inj h)
      rw [if_neg (by rw [(getLsbD_seven byte).mpr hlast]; decide)]
    · rw [if_pos (by rw [← Bool.not_eq_false,getLsbD_seven]; exact hlast)]
      exact ih (by omega) h

/-- The loop of the trampoline, counted from elsewhere, finds what the loop of the tool finds, as far from there. -/
theorem startsFrom_shifted {n current base : ℕ} {raw : List Byte} {starts : List ℕ}
    (h : functionStartsFrom n current raw = some starts) (hcurrent : current < 2^64) (hbase : base < 2^64)
    (hnarrow : ∀ t ∈ starts, t < 2^64) : startsFrom n (.ofNat 64 base) raw =
      if ∀ t ∈ starts, t+base < 2^64+current then
        some (starts.map fun t => .ofNat 64 t+(.ofNat 64 base-.ofNat 64 current))
      else none := by
  induction n generalizing current base raw starts with
  | zero => cases h
  | succ n ih =>
    obtain ⟨⟨delta,rest⟩,hread,hrest⟩ := Option.bind_eq_some_iff.mp h
    cases raw with
    | nil => cases hread
    | cons byte raw =>
      have hdelta : readDelta 0 0 (byte::raw) = some (.ofNat 64 delta,rest) := readDelta_of_loop (by decide) hread
      unfold startsFrom
      rw [hdelta]
      dsimp only at hrest ⊢
      split_ifs at hrest with hzero
      · obtain rfl := Option.some.inj hrest
        rw [hzero]
        exact if_pos rfl
      · obtain ⟨tail,htail,rfl⟩ := Option.map_eq_some_iff.mp hrest
        obtain ⟨hhead,hnarrow⟩ := List.forall_mem_cons.mp hnarrow
        have hlt : delta < 2^64 := by omega
        have hne : BitVec.ofNat 64 delta ≠ 0 := by
          intro hz
          have hz := congrArg BitVec.toNat hz
          rw [BitVec.toNat_ofNat,Nat.mod_eq_of_lt hlt] at hz
          exact hzero hz
        have hroom : BitVec.allOnes 64-.ofNat 64 base < .ofNat 64 delta ↔ 2^64 ≤ base+delta := by
          rw [overflows_iff,BitVec.toNat_ofNat,BitVec.toNat_ofNat,Nat.mod_eq_of_lt hbase,Nat.mod_eq_of_lt hlt]
        rw [if_neg hne]
        by_cases hfits : 2^64 ≤ base+delta
        · rw [if_pos (hroom.mpr hfits),if_neg]
          intro hall
          have hhead := hall _ List.mem_cons_self
          omega
        · rw [if_neg (mt hroom.mp hfits),← BitVec.ofNat_add,ih htail hhead (by omega) hnarrow]
          have hsame : (∀ t ∈ tail, t+(base+delta) < 2^64+(current+delta)) ↔
              ∀ t ∈ (current+delta)::tail, t+base < 2^64+current := by
            rw [List.forall_mem_cons]
            refine ⟨fun hall => ⟨by omega,fun t ht => ?_⟩,fun hall t ht => ?_⟩
            · have := hall t ht
              omega
            · have := hall.2 t ht
              omega
          have hshift : BitVec.ofNat 64 (base+delta)-.ofNat 64 (current+delta) =
              .ofNat 64 base-.ofNat 64 current := by
            rw [BitVec.ofNat_add,BitVec.ofNat_add]
            ring
          have hfirst : BitVec.ofNat 64 (base+delta) =
              .ofNat 64 (current+delta)+(.ofNat 64 base-.ofNat 64 current) := by
            rw [← hshift]
            ring
          rw [hshift]
          by_cases hall : ∀ t ∈ tail, t+(base+delta) < 2^64+(current+delta)
          · rw [if_pos hall,if_pos (hsame.mp hall),List.map_cons,← hfirst]
            rfl
          · rw [if_neg hall,if_neg (mt hsame.mpr hall)]
            rfl

/-- The text has one address that is not zero, a segment holds the table, and no start passes `2^64`. -/
structure MachO.StartsFit (X : MachO) : Prop where
  text : ∃ vmaddr : BitVec 64, vmaddr ≠ 0 ∧ ∀ seg ∈ X.segments, seg.segname = "__TEXT".toList → seg.vmaddr = vmaddr
  covered : ∀ dataoff datasize, X.startsCommand = some (dataoff,datasize) →
    X.loaded.fileRangeToMem 0 dataoff datasize ≠ none
  fits : ∀ t ∈ X.starts, t < 2^64

def MachO.firstText (X : MachO) : Addr := (X.textSegment.map SegmentCommand.vmaddr).getD 0

/-- The trampoline counts from the last text segment, the tool from the first. It gets through the table where that
segment is not at zero, a segment holds the table, and no start passes `2^64` when it is counted from there. -/
structure MachO.StartsRead (X : MachO) : Prop where
  text : X.loaded.textVmaddr ≠ 0
  covered : ∀ dataoff datasize, X.startsCommand = some (dataoff,datasize) →
    X.loaded.fileRangeToMem 0 dataoff datasize ≠ none
  fits : ∀ t ∈ X.starts, t+X.loaded.textVmaddr.toNat < 2^64+X.firstText.toNat

def MachO.startsRead (X : MachO) : List Addr :=
  X.starts.map fun t => .ofNat 64 t+(X.loaded.textVmaddr-X.firstText)

theorem pairwise_starts (X : MachO) : X.starts.Pairwise (·<·) := by
  obtain ⟨⟨dataoff,datasize⟩,-,h⟩ := Option.bind_eq_some_iff.mp X.starts_eq
  obtain ⟨raw,-,h⟩ := Option.bind_eq_some_iff.mp h
  obtain ⟨text,-,h⟩ := Option.bind_eq_some_iff.mp h
  obtain ⟨starts,-,h⟩ := Option.bind_eq_some_iff.mp h
  split_ifs at h with hsorted
  exact Option.some.inj h ▸ hsorted

theorem File.Mapped.fileRange {F : File} {slide : Addr} {m : Memory} (hm : F.Mapped slide m)
    {dataoff datasize : BitVec 32} {raw : List Byte} (hraw : checked F.data dataoff.toNat datasize.toNat = some raw)
    (hcovered : F.loaded.fileRangeToMem 0 dataoff datasize ≠ none) :
    ∃ a, F.loaded.fileRangeToMem slide dataoff datasize = some a ∧
      Trampoline.bytesAt m a datasize.toNat = raw := by
  unfold Trampoline.MachO.fileRangeToMem at hcovered ⊢
  rw [loaded_segments] at hcovered ⊢
  rw [Ne,Option.map_eq_none_iff] at hcovered
  obtain ⟨seg,hseg⟩ := Option.ne_none_iff_exists'.mp hcovered
  refine ⟨_,by rw [hseg,Option.map_some],?_⟩
  obtain ⟨command,hcommand,rfl⟩ := List.mem_map.mp (List.mem_of_find?_eq_some hseg)
  have hin := List.find?_some hseg
  rw [decide_eq_true_eq] at hin
  obtain ⟨hlow,hhigh⟩ := hin
  rw [BitVec.le_def] at hlow hhigh
  simp only [SegmentCommand.toTrampoline,BitVec.toNat_add,BitVec.toNat_setWidth] at hlow hhigh ⊢
  have hoff := dataoff.isLt
  have hsize := datasize.isLt
  have hk : dataoff.toNat-command.fileoff.toNat+datasize.toNat ≤ command.filesize.toNat := by omega
  have hplace : command.fileoff.toNat+(dataoff.toNat-command.fileoff.toNat) = dataoff.toNat := by omega
  have hbytes := hm.bytesAt hcommand hk (hplace.symm ▸ hraw)
  have haddr : dataoff.setWidth 64-command.fileoff = .ofNat 64 (dataoff.toNat-command.fileoff.toNat) := by
    refine BitVec.eq_of_toNat_eq ?_
    rw [BitVec.toNat_sub,BitVec.toNat_setWidth,BitVec.toNat_ofNat]
    omega
  rw [haddr]
  exact hbytes

def MachO.HoldsStarts (X : MachO) (slide : Addr) (m : Memory) : Prop :=
  ∀ dataoff datasize raw a, X.startsCommand = some (dataoff,datasize) →
    checked X.data dataoff.toNat datasize.toNat = some raw →
    X.loaded.fileRangeToMem slide dataoff datasize = some a → Trampoline.bytesAt m a datasize.toNat = raw

theorem fileRangeToMem_ne_none {M : Trampoline.MachO} {slide slide' : Addr} {dataoff datasize : BitVec 32}
    (h : M.fileRangeToMem slide dataoff datasize ≠ none) : M.fileRangeToMem slide' dataoff datasize ≠ none := by
  unfold Trampoline.MachO.fileRangeToMem at h ⊢
  rw [Ne,Option.map_eq_none_iff] at h ⊢
  exact h

theorem File.Mapped.holdsStarts {X : MachO} {slide : Addr} {m : Memory} (hm : X.Mapped slide m) :
    X.HoldsStarts slide m := by
  intro dataoff datasize raw a _ hraw ha
  have hsome : X.loaded.fileRangeToMem slide dataoff datasize ≠ none := by
    rw [ha]
    exact Option.some_ne_none a
  obtain ⟨a',ha',hbytes⟩ := hm.fileRange hraw (fileRangeToMem_ne_none hsome)
  obtain rfl := Option.some.inj (ha.symm.trans ha')
  exact hbytes

theorem decodeFunctionStarts_iff {X : MachO} {slide : Addr} {m : Memory} (hm : X.HoldsStarts slide m)
    (hnarrow : ∀ t ∈ X.starts, t < 2^64) (hne : X.starts ≠ []) {starts : List Addr} :
    decodeFunctionStarts X.loaded slide m = some starts ↔ X.StartsRead ∧ starts = X.startsRead := by
  obtain ⟨⟨dataoff,datasize⟩,hcommand,hdata⟩ := Option.bind_eq_some_iff.mp X.starts_eq
  obtain ⟨raw,hraw,hdata⟩ := Option.bind_eq_some_iff.mp hdata
  obtain ⟨text,htext,hdata⟩ := Option.bind_eq_some_iff.mp hdata
  obtain ⟨found,hstarts,hdata⟩ := Option.bind_eq_some_iff.mp hdata
  split_ifs at hdata with hsorted
  have hfound : found = X.starts := Option.some.inj hdata
  rw [hfound] at hstarts
  have hfirst : X.firstText = text.vmaddr := by
    unfold MachO.firstText
    rw [htext]
    rfl
  have hlen := length_checked hraw
  have hsize : datasize ≠ 0 := by
    rintro rfl
    rw [List.eq_nil_of_length_eq_zero hlen] at hstarts
    cases hstarts
  have hloop := startsFrom_shifted hstarts text.vmaddr.isLt X.loaded.textVmaddr.isLt hnarrow
  rw [BitVec.ofNat_toNat,BitVec.setWidth_eq,BitVec.ofNat_toNat,BitVec.setWidth_eq,hlen,← hfirst] at hloop
  unfold decodeFunctionStarts
  by_cases hzero : X.loaded.textVmaddr = 0
  · rw [if_pos hzero]
    exact iff_of_false (fun h => by cases h) fun h => h.1.text hzero
  rw [if_neg hzero,loaded_startsCommand,hcommand]
  dsimp only
  rw [if_neg hsize]
  cases ha : X.loaded.fileRangeToMem slide dataoff datasize with
  | none => exact iff_of_false (fun h => by cases h) fun h => fileRangeToMem_ne_none (h.1.covered _ _ hcommand) ha
  | some a =>
    have hsome : X.loaded.fileRangeToMem slide dataoff datasize ≠ none := by
      rw [ha]
      exact Option.some_ne_none a
    dsimp only
    rw [hm _ _ _ _ hcommand hraw ha,hloop]
    by_cases hfits : ∀ t ∈ X.starts, t+X.loaded.textVmaddr.toNat < 2^64+X.firstText.toNat
    · have hread : X.StartsRead := by
        refine ⟨hzero,fun dataoff' datasize' hcommand' => ?_,hfits⟩
        obtain ⟨rfl,rfl⟩ := Prod.mk.inj (Option.some.inj (hcommand.symm.trans hcommand'))
        exact fileRangeToMem_ne_none hsome
      obtain ⟨s,l,hsl⟩ := List.exists_cons_of_ne_nil hne
      rw [if_pos hfits,and_iff_right hread,MachO.startsRead,hsl,List.map_cons]
      dsimp only
      rw [Option.some.injEq]
      exact eq_comm
    · rw [if_neg hfits]
      exact iff_of_false (fun h => by cases h) fun h => hfits h.1.fits

theorem MachO.StartsFit.read {X : MachO} (hfit : X.StartsFit) :
    X.StartsRead ∧ X.startsRead = X.starts.map (BitVec.ofNat 64) := by
  obtain ⟨vmaddr,hnonzero,hall⟩ := hfit.text
  obtain ⟨⟨dataoff,datasize⟩,-,hdata⟩ := Option.bind_eq_some_iff.mp X.starts_eq
  obtain ⟨raw,-,hdata⟩ := Option.bind_eq_some_iff.mp hdata
  obtain ⟨text,htext,-⟩ := Option.bind_eq_some_iff.mp hdata
  have hlast := loaded_textVmaddr X.toFile hall htext
  have hfirst : X.firstText = vmaddr := by
    unfold MachO.firstText
    rw [htext]
    exact hall text (textSegment_spec htext).1 (textSegment_spec htext).2
  refine ⟨⟨hlast ▸ hnonzero,hfit.covered,fun t ht => ?_⟩,?_⟩
  · have := hfit.fits t ht
    rw [hlast,hfirst]
    omega
  · unfold MachO.startsRead
    rw [hlast,hfirst]
    simp

end Decode

end Machismo.RecoverSdl
