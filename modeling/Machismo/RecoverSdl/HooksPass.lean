import Machismo.RecoverSdl.HookSources
import Machismo.RecoverSdl.HookStarts
import Machismo.Trampoline.PatchAddresses

/-! # Generated hooks against the checks of the trampoline

The bytes of a generated hook are those of the image and no address comes twice.  That the hooks are
read as they were written depends on the names, and that the trampoline takes them depends on the
section and the function it finds at the address.
-/
namespace Machismo.RecoverSdl
open Machismo.A64 (Byte Addr Memory)
open Machismo.Data Machismo.Trampoline

section Checks
variable (M : Trampoline.MachO) (slide : Addr) (m : Memory) (starts : List Addr)

/-- The checks of one hook before its library is opened, apart from that for duplicates. -/
structure HookFits (hook : AddressHook) : Prop where
  function : ∃ functionEnd, executableFunctionEnd M hook.vmaddr starts = some functionEnd ∧
    hook.expected.length ≤ (functionEnd-hook.vmaddr).toNat
  runtime : ¬BitVec.allOnes 64-slide < hook.vmaddr
  bytes : Trampoline.bytesAt m (hook.vmaddr+slide) hook.expected.length = hook.expected

/-- All hooks pass, each after the addresses of those before it. -/
def AllFit : List Addr → List AddressHook → Prop
  | _, [] => True
  | seen, hook::hooks => (hook.vmaddr ∉ seen ∧ HookFits M slide m starts hook) ∧ AllFit (seen++[hook.vmaddr]) hooks

variable {M slide m starts}

theorem validateHook_ne_none_iff (E : Trampoline.Env) {seen : List Addr} {hook : AddressHook} :
    validateHook E M slide m starts seen hook ≠ none ↔ (hook.vmaddr ∉ seen ∧ HookFits M slide m starts hook) ∧
      E.dlopen hook.libPath ≠ 0 ∧ E.dlsym (E.dlopen hook.libPath) hook.symbol ≠ 0 := by
  unfold validateHook
  constructor
  · intro h
    by_cases hseen : hook.vmaddr ∈ seen
    · rw [if_pos hseen] at h
      exact absurd rfl h
    rw [if_neg hseen] at h
    cases hfunction : executableFunctionEnd M hook.vmaddr starts with
    | none =>
      rw [hfunction] at h
      exact absurd rfl h
    | some functionEnd =>
      rw [hfunction] at h
      dsimp only at h
      split_ifs at h with hlen hruntime hbytes hopen hsym
      case neg => exact ⟨⟨hseen,⟨functionEnd,hfunction,Nat.le_of_not_lt hlen⟩,hruntime,not_not.mp hbytes⟩,hopen,hsym⟩
      all_goals exact absurd rfl h
  · rintro ⟨⟨hseen,⟨functionEnd,hfunction,hlen⟩,hruntime,hbytes⟩,hopen,hsym⟩
    rw [if_neg hseen,hfunction]
    dsimp only
    rw [if_neg (Nat.not_lt.mpr hlen),if_neg hruntime,if_neg (not_not.mpr hbytes),if_neg hopen,if_neg hsym]
    exact Option.some_ne_none _

theorem allFit_iff {seen : List Addr} {hooks : List AddressHook} : AllFit M slide m starts seen hooks ↔
    (hooks.map AddressHook.vmaddr).Nodup ∧ ∀ hook ∈ hooks, hook.vmaddr ∉ seen ∧ HookFits M slide m starts hook := by
  induction hooks generalizing seen with
  | nil => simp [AllFit]
  | cons hook hooks ih =>
    rw [AllFit,ih,List.map_cons,List.nodup_cons,List.forall_mem_cons]
    simp only [List.mem_append,List.mem_singleton,List.mem_map,not_or,not_exists,not_and]
    constructor
    · rintro ⟨⟨hseen,hfits⟩,hnodup,hall⟩
      exact ⟨⟨fun other hmem => (hall other hmem).1.2,hnodup⟩,⟨hseen,hfits⟩,
        fun other hmem => ⟨(hall other hmem).1.1,(hall other hmem).2⟩⟩
    · rintro ⟨⟨hne,hnodup⟩,⟨hseen,hfits⟩,hall⟩
      exact ⟨⟨hseen,hfits⟩,hnodup,fun other hmem => ⟨⟨(hall other hmem).1,hne other hmem⟩,(hall other hmem).2⟩⟩

theorem functionEnd_of_mem (sectionEnd : Addr) {v : Addr} (h : v ∈ starts) :
    ∃ f, functionEnd sectionEnd v starts = some f ∧ (f = sectionEnd ∨ f ∈ starts ∧ v < f) := by
  induction starts with
  | nil => cases h
  | cons s l ih =>
    by_cases hs : s = v
    · cases l with
      | nil => exact ⟨sectionEnd,by simp [functionEnd,hs],.inl rfl⟩
      | cons next l =>
        by_cases hnext : v < next ∧ next < sectionEnd
        · exact ⟨next,by simp [functionEnd,hs,hnext],.inr ⟨by simp,hnext.1⟩⟩
        · exact ⟨sectionEnd,by simp [functionEnd,hs,hnext],.inl rfl⟩
    · obtain ⟨f,hf,hcases⟩ := ih ((List.mem_cons.mp h).resolve_left (Ne.symm hs))
      refine ⟨f,by simp only [functionEnd,if_neg hs,hf],
        hcases.imp_right fun h => ⟨List.mem_cons_of_mem _ h.1,h.2⟩⟩

end Checks

section Conditions

/-- The section of the image where a hook is, and its end for the bytes that are expected. -/
structure Emitted.Located (X : MachO) (slide : Addr) (e : Emitted) : Prop where
  library : Clean e.library
  hostSymbol : Clean e.hostSymbol
  runtime : e.address+slide.toNat < 2^64
  inSection : ∃ sectionEnd, X.loaded.sectionEnd (.ofNat 64 e.address) = some sectionEnd ∧
    e.address+e.expected.length ≤ sectionEnd.toNat

/-- The trampoline has a start where the hook is, and no other one in the bytes that are expected. -/
def Emitted.StartIn (starts : List Addr) (e : Emitted) : Prop :=
  .ofNat 64 e.address ∈ starts ∧
    ∀ next ∈ starts, .ofNat 64 e.address < next → e.address+e.expected.length ≤ next.toNat

/-- Memory has the function at a start as the tool reads it from the file. -/
def MachO.HoldsFunction (X : MachO) (slide : Addr) (m : Memory) (start : ℕ) : Prop :=
  ∀ finish size raw, X.functionBounds start = some (start,finish) → start+size ≤ finish →
    X.bytesAt start size = some raw → Trampoline.bytesAt m (.ofNat 64 start+slide) size = raw

/-- The hooks are read from the file as they were written, and pass the checks of the trampoline. -/
def ReadBack (X : MachO) (slide : Addr) (m : Memory) (text : Text) (emitted : List Emitted) : Prop :=
  ∃ hooks starts, loadAddressHooks (some (encode text)) = some hooks ∧
    hooks.map fieldsOf = emitted.map Emitted.fields ∧ decodeFunctionStarts X.loaded slide m = some starts ∧
    AllFit X.loaded slide m starts [] hooks

theorem File.Mapped.holdsFunction {X : MachO} {slide : Addr} {m : Memory} (hm : X.Mapped slide m) (start : ℕ) :
    X.HoldsFunction slide m start := fun _ _ _ _ _ hraw => hm.of_bytesAt hraw

end Conditions

section Summaries
variable {X : MachO} {slide : Addr} {m : Memory} {address : ℕ} {expected : List Byte}

theorem MachO.Summary.length (h : X.Summary address expected) : 4 ≤ expected.length := by
  obtain ⟨finish,-,hfour,hbytes⟩ := h.bounds
  rw [File.length_bytesAt hbytes]
  omega

theorem MachO.Summary.bytes (h : X.Summary address expected) (hm : X.HoldsFunction slide m address) :
    Trampoline.bytesAt m (.ofNat 64 address+slide) expected.length = expected := by
  obtain ⟨finish,hbounds,hfour,hbytes⟩ := h.bounds
  rw [File.length_bytesAt hbytes]
  exact hm _ _ _ hbounds (by omega) hbytes

theorem MachO.Summary.starts (h : X.Summary address expected) :
    address ∈ X.starts ∧ ∀ t ∈ X.starts, address < t → address+expected.length ≤ t := by
  obtain ⟨finish,hbounds,hfour,hbytes⟩ := h.bounds
  have hlen := File.length_bytesAt hbytes
  obtain ⟨index,hindex,hrest⟩ := Option.bind_eq_some_iff.mp hbounds
  obtain ⟨text,-,heq⟩ := Option.map_eq_some_iff.mp hrest
  have hfinish : min ((X.starts[index+1]?).getD (text.addr.toNat+text.size.toNat)) (text.addr.toNat+text.size.toNat) =
      finish := (Prod.mk.inj heq).2
  obtain ⟨hindex,hat,-⟩ := List.idxOf?_eq_some_iff.mp hindex
  refine ⟨List.mem_of_getElem hat,fun t ht hlt => ?_⟩
  obtain ⟨j,hj,rfl⟩ := List.getElem_of_mem ht
  have hsorted := List.pairwise_iff_getElem.mp (pairwise_starts X)
  have hij : index < j := by
    by_contra hle
    rcases Nat.lt_or_eq_of_le (Nat.le_of_not_lt hle) with h | rfl
    · exact absurd (hsorted j index hj hindex h) (by omega)
    · omega
  have hnext : X.starts[index+1]? = some X.starts[index+1] := List.getElem?_eq_getElem (by omega)
  have hle : X.starts[index+1] ≤ X.starts[j] := by
    rcases Nat.lt_or_eq_of_le (Nat.succ_le_of_lt hij) with h | h
    · exact Nat.le_of_lt (hsorted _ _ _ hj h)
    · exact Nat.le_of_eq (getElem_congr_idx h)
  rw [hnext,Option.getD_some] at hfinish
  omega

end Summaries

section Main
variable {X : MachO} {slide : Addr} {m : Memory} {starts : List Addr} {e : Emitted} {hook : AddressHook}

theorem vmaddr_of_fields (h : fieldsOf hook = e.fields) :
    e.address < 2^64 ∧ hook.vmaddr = .ofNat 64 e.address ∧ hook.expected = e.expected := by
  unfold fieldsOf Emitted.fields at h
  simp only [Prod.mk.injEq] at h
  obtain ⟨haddress,-,-,hexpected⟩ := h
  have hlt := hook.vmaddr.isLt
  rw [haddress] at hlt
  refine ⟨hlt,BitVec.eq_of_toNat_eq ?_,hexpected⟩
  rw [BitVec.toNat_ofNat,Nat.mod_eq_of_lt hlt,haddress]

/-- A hook of the tool passes exactly when the trampoline finds its section and its start. -/
theorem hookFits_iff (hfields : fieldsOf hook = e.fields) (hsummary : X.Summary e.address e.expected)
    (hm : X.HoldsFunction slide m e.address) (hstarts : starts.Pairwise (·<·)) : HookFits X.loaded slide m starts hook ↔
      e.address+slide.toNat < 2^64 ∧ (∃ sectionEnd, X.loaded.sectionEnd (.ofNat 64 e.address) = some sectionEnd ∧
        e.address+e.expected.length ≤ sectionEnd.toNat) ∧ e.StartIn starts := by
  obtain ⟨hlt,hvmaddr,hexpected⟩ := vmaddr_of_fields hfields
  have hnat : (BitVec.ofNat 64 e.address).toNat = e.address := by rw [BitVec.toNat_ofNat,Nat.mod_eq_of_lt hlt]
  have hpos := hsummary.length
  have hslide := slide.isLt
  constructor
  · rintro ⟨⟨functionEnd,hfunction,hlen⟩,hruntime,-⟩
    rw [hvmaddr] at hfunction hlen hruntime
    rw [hexpected] at hlen
    obtain ⟨sectionEnd,hsection,hend⟩ := Option.bind_eq_some_iff.mp hfunction
    obtain ⟨-,-,-,sec,-,-,hcontains,rfl⟩ := sectionEnd_spec hsection
    simp only [Section.contains,decide_eq_true_eq] at hcontains
    obtain ⟨hvf,hfe⟩ := functionEnd_bounds hend hcontains.2
    rw [BitVec.toNat_sub_of_le (BitVec.le_of_lt hvf),hnat] at hlen
    rw [BitVec.lt_def,hnat] at hvf
    rw [BitVec.le_def] at hfe
    refine ⟨?_,⟨_,hsection,by omega⟩,mem_of_functionEnd hend,fun next hnext hlt => ?_⟩
    · rw [overflows_iff,hnat] at hruntime
      omega
    · have hle := functionEnd_le hstarts hend hnext hlt
      rw [BitVec.le_def] at hle
      omega
  · rintro ⟨hruntime,⟨sectionEnd,hsection,hlen⟩,hmem,hnext⟩
    obtain ⟨functionEnd,hend,hcases⟩ := functionEnd_of_mem sectionEnd hmem
    have hroom : e.address+e.expected.length ≤ functionEnd.toNat :=
      hcases.elim (fun h => h ▸ hlen) fun h => hnext functionEnd h.1 h.2
    constructor
    · refine ⟨functionEnd,?_,?_⟩
      · rw [executableFunctionEnd,hvmaddr,hsection,Option.bind_some,hend]
      · rw [hvmaddr,hexpected,BitVec.toNat_sub_of_le (by rw [BitVec.le_def,hnat]; omega),hnat]
        omega
    · rw [hvmaddr,overflows_iff,hnat]
      omega
    · rw [hvmaddr,hexpected]
      exact hsummary.bytes hm

theorem startIn_of_startsFit (hfit : X.StartsFit) (hsummary : X.Summary e.address e.expected) :
    e.StartIn X.startsRead := by
  obtain ⟨hmem,hnext⟩ := hsummary.starts
  rw [hfit.read.2]
  refine ⟨List.mem_map_of_mem hmem,fun next hnext' hlt => ?_⟩
  obtain ⟨t,ht,rfl⟩ := List.mem_map.mp hnext'
  rw [BitVec.lt_def,BitVec.toNat_ofNat,BitVec.toNat_ofNat,Nat.mod_eq_of_lt (hfit.fits _ hmem),
    Nat.mod_eq_of_lt (hfit.fits t ht)] at hlt
  rw [BitVec.toNat_ofNat,Nat.mod_eq_of_lt (hfit.fits t ht)]
  exact hnext t ht hlt

/-- The trampoline has the starts of the hooks: it finds those of the tool, or finds them elsewhere with a start
at each hook and none in its bytes. A table that leads past `2^64` is decoded to see. -/
def StartsFound (X : MachO) (slide : Addr) (m : Memory) (emitted : List Emitted) : Prop :=
  X.StartsFit ∨ ((∀ t ∈ X.starts, t < 2^64) ∧ X.StartsRead ∧ ∀ e ∈ emitted, e.StartIn X.startsRead) ∨
    (∃ t ∈ X.starts, 2^64 ≤ t) ∧ ∃ starts, decodeFunctionStarts X.loaded slide m = some starts ∧
      ∀ e ∈ emitted, e.StartIn starts

theorem startsFound_iff {emitted : List Emitted} (hm : X.HoldsStarts slide m) (hne : emitted ≠ [])
    (hsummary : ∀ e ∈ emitted, X.Summary e.address e.expected) : StartsFound X slide m emitted ↔
      ∃ starts, decodeFunctionStarts X.loaded slide m = some starts ∧ ∀ e ∈ emitted, e.StartIn starts := by
  obtain ⟨e₀,he₀⟩ := List.exists_mem_of_ne_nil _ hne
  have hstarts : X.starts ≠ [] := List.ne_nil_of_mem (hsummary e₀ he₀).starts.1
  constructor
  · rintro (hfit | ⟨hnarrow,hread,hin⟩ | ⟨-,hdecoded⟩)
    · exact ⟨_,(decodeFunctionStarts_iff hm hfit.fits hstarts).mpr ⟨hfit.read.1,rfl⟩,
        fun e he => startIn_of_startsFit hfit (hsummary e he)⟩
    · exact ⟨_,(decodeFunctionStarts_iff hm hnarrow hstarts).mpr ⟨hread,rfl⟩,hin⟩
    · exact hdecoded
  · rintro ⟨starts,hdecode,hin⟩
    by_cases hnarrow : ∀ t ∈ X.starts, t < 2^64
    · obtain ⟨hread,rfl⟩ := (decodeFunctionStarts_iff hm hnarrow hstarts).mp hdecode
      exact .inr (.inl ⟨hnarrow,hread,hin⟩)
    · push Not at hnarrow
      exact .inr (.inr ⟨hnarrow,starts,hdecode,hin⟩)

theorem exists_of_map_eq {α β γ : Type} {f : α → γ} {g : β → γ} {l : List α} {l' : List β} (h : l.map f = l'.map g)
    {x : α} (hx : x ∈ l) : ∃ y ∈ l', g y = f x := by
  have hmem : f x ∈ l'.map g := h ▸ List.mem_map_of_mem hx
  exact List.mem_map.mp hmem

/-- Generated hooks are read back and pass exactly when their names are clean and the trampoline finds the
section and the start of each. -/
theorem generated_hooks_iff {D : Disassembler} (hD : ∀ raw address, ∀ i ∈ D raw address, i.size = 4)
    {sha256 : List Byte → List Byte} {anchors : AnchorFile} {text : Text} {emitted : List Emitted}
    (hgen : generate X D sha256 anchors = some (text,emitted)) (hm : X.HoldsStarts slide m)
    (hfunctions : ∀ e ∈ emitted, X.HoldsFunction slide m e.address) :
    ReadBack X slide m text emitted ↔ (∀ e ∈ emitted, e.Located X slide) ∧ StartsFound X slide m emitted := by
  unfold generate at hgen
  split_ifs at hgen with hdigest
  obtain ⟨emitted',hhooks,heq⟩ := Option.map_eq_some_iff.mp hgen
  obtain ⟨rfl,rfl⟩ := Prod.mk.inj heq
  obtain ⟨hne,st,rfl,hsound⟩ := sound_of_generateHooks hD hhooks
  rw [startsFound_iff hm hne hsound.summary]
  constructor
  · rintro ⟨hooks,starts,hload,hfields,hstarts,hall⟩
    have hread := readable_of_load hload hfields
    obtain ⟨-,hfits⟩ := allFit_iff.mp hall
    have hplace : ∀ e ∈ st.emitted, e.Located X slide ∧ e.StartIn starts := by
      intro e he
      obtain ⟨hook,hhook,heq⟩ := exists_of_map_eq hfields.symm he
      obtain ⟨hruntime,hsection,hstart⟩ := (hookFits_iff heq (hsound.summary e he) (hfunctions e he)
        (decodeFunctionStarts_sorted hstarts)).mp (hfits hook hhook).2
      exact ⟨⟨(hread e he).library,(hread e he).hostSymbol,hruntime,hsection⟩,hstart⟩
    exact ⟨fun e he => (hplace e he).1,starts,hstarts,fun e he => (hplace e he).2⟩
  · rintro ⟨hlocated,starts,hdecode,hin⟩
    have hread : ∀ e ∈ st.emitted, e.Readable := fun e he =>
      ⟨(hlocated e he).library,(hlocated e he).hostSymbol,by have := (hlocated e he).runtime; omega,
        (hsound.summary e he).length⟩
    obtain ⟨hooks,hload,hfields⟩ := load_hookLines X sha256 hread hsound.written hne
    refine ⟨hooks,starts,hload,hfields,hdecode,allFit_iff.mpr ⟨?_,fun hook hhook => ⟨List.not_mem_nil,?_⟩⟩⟩
    · have haddr : (hooks.map AddressHook.vmaddr).map BitVec.toNat = st.emitted.map Emitted.address := by
        have h := congrArg (List.map Prod.fst) hfields
        rw [List.map_map,List.map_map] at h
        rw [List.map_map]
        exact h
      exact (haddr ▸ hsound.nodup).of_map _
    · obtain ⟨e,he,heq⟩ := exists_of_map_eq hfields hhook
      exact (hookFits_iff heq.symm (hsound.summary e he) (hfunctions e he) (decodeFunctionStarts_sorted hdecode)).mpr
        ⟨(hlocated e he).runtime,(hlocated e he).inSection,hin e he⟩

end Main

section Examples

/-- `adr x0` and `ret` at `0x1004`, the string `hi` after them, and the table of one function. -/
def smallFile : File where
  data := [0,0,0,0,0x40,0,0,0x10,0xc0,0x03,0x5f,0xd6,0x68,0x69,0,4,0]
  commands := [
    .segment ⟨"__TEXT".toList,0x1000,0x1000,0,17,5,[
      ⟨⟨0x1004,8,0x80000400⟩,"__text".toList,"__TEXT".toList,4⟩,
      ⟨⟨0x100c,3,2⟩,"__cstring".toList,"__TEXT".toList,12⟩]⟩,
    .functionStarts 15 2]
  stubs := []

def smallMachO : MachO := ⟨smallFile,[0x1004],by decide +kernel,[⟨0x100c,['h','i']⟩],by decide +kernel⟩

/-- The instructions of the file; every other word is taken for `ret`. -/
def smallDisassembler : Disassembler := fun raw address =>
  (List.range (raw.length/4)).map fun i =>
    if (raw.drop (4*i)).take 4 = [0x40,0,0,0x10] then
      ⟨address+4*i,4,"adr".toList,[.reg 199,.imm (address+4*i+8) 0]⟩
    else ⟨address+4*i,4,"ret".toList,[]⟩

def smallAnchors (library : Text) : AnchorFile :=
  ⟨['a','b'],library,[⟨"SDL_Init".toList,some ['h','i'],[],none,none,none,none,none⟩]⟩

def smallHook (library : Text) : Emitted :=
  ⟨"SDL_Init".toList,"sword3_SDL_Init".toList,library,0x1004,[0x40,0,0,0x10,0xc0,0x03,0x5f,0xd6],['h','i']⟩

def smallMemory : Memory := fun a => (smallFile.data[(a-0x1000).toNat]?).getD 0

theorem clean_of_digits {name : Text} (h : name.all (47 < ·.toNat)) : Clean name := by
  have hbad : ∀ c ∈ [' ','\t','\r','\n','#','\x00'], ¬47 < c.toNat := by simp
  exact fun c hc hmem => hbad c hc (of_decide_eq_true (List.all_eq_true.mp h c hmem))

theorem smallMemory_mapped : smallMachO.Mapped 0 smallMemory := by
  intro seg hseg k hk byte hbyte
  obtain rfl := List.mem_singleton.mp hseg
  have hk : k < 17 := hk
  have hplace : (0x1000#64+0#64+.ofNat 64 k-0x1000#64).toNat = k := by
    simp only [BitVec.toNat_sub,BitVec.toNat_add,BitVec.toNat_ofNat]
    omega
  have hdata : smallFile.data[k]? = some byte := Nat.zero_add k ▸ hbyte
  change (smallFile.data[(0x1000#64+0#64+.ofNat 64 k-0x1000#64).toNat]?).getD 0 = byte
  rw [hplace,hdata,Option.getD_some]

theorem smallDisassembler_size : ∀ raw address, ∀ i ∈ smallDisassembler raw address, i.size = 4 := by
  intro raw address i hi
  obtain ⟨j,-,rfl⟩ := List.mem_map.mp hi
  split <;> rfl

theorem generate_small (library : Text)
    (h : generateHooks smallMachO smallDisassembler library (smallAnchors library).symbols = some [smallHook library])
    (hne : library ≠ []) : generate smallMachO smallDisassembler (fun _ => [0xab]) (smallAnchors library) =
      some (unlines '\n' (hookLines smallMachO (fun _ => [0xab]) [smallHook library]),[smallHook library]) := by
  have hdigest : hexText [0xab] = ['a','b'] := by decide +kernel
  unfold generate
  refine (if_neg (not_or.mpr ⟨not_not.mpr hdigest,hne⟩)).trans ?_
  rw [show (smallAnchors library).library = library from rfl,h,Option.map_some]

/-- A library without blanks in its name. -/
theorem generated_hooks_small : ReadBack smallMachO 0 smallMemory
    (unlines '\n' (hookLines smallMachO (fun _ => [0xab]) [smallHook ['a']])) [smallHook ['a']] := by
  have hgen := generate_small ['a'] (by decide +kernel) (by decide)
  refine (generated_hooks_iff smallDisassembler_size hgen smallMemory_mapped.holdsStarts fun e _ =>
    smallMemory_mapped.holdsFunction e.address).mpr ⟨?_,.inl ?_⟩
  · rw [List.forall_mem_singleton]
    exact ⟨clean_of_digits (by decide +kernel),clean_of_digits (by decide +kernel),by decide,
      0x100c,by decide +kernel,by decide⟩
  · refine ⟨⟨0x1000,by decide,?_⟩,?_,by decide +kernel⟩
    · decide +kernel
    · intro dataoff datasize h
      obtain ⟨rfl,rfl⟩ := Prod.mk.inj (Option.some.inj h)
      decide +kernel

/-- A blank in the name of a library makes a line of five fields. -/
theorem generated_hooks_blank : ∃ text,
    generate smallMachO smallDisassembler (fun _ => [0xab]) (smallAnchors ['a',' ','b']) =
    some (text,[smallHook ['a',' ','b']]) ∧ ¬ReadBack smallMachO 0 smallMemory text [smallHook ['a',' ','b']] := by
  refine ⟨_,generate_small _ (by decide +kernel) (by decide),?_⟩
  rintro ⟨hooks,starts,hload,hfields,-⟩
  have hread := readable_of_load hload hfields _ (List.mem_singleton_self _)
  exact hread.library ' ' (by decide) (by decide)

end Examples

end Machismo.RecoverSdl
