import Machismo.Resolver.State

/-! # The two resolvers of a bind

A chained bind names an import record, an `LC_DYLD_INFO` bind names library and symbol itself. Both
go through the special ordinals and the table of dylibs, in two copies of one decision tree. The
copies differ at the ordinals 0, -1 and -3.
-/
namespace Machismo.Resolver
open A64

/-- The starts of the chains of one segment, by page; `0xFFFF` marks a page without one. -/
structure SegmentStarts where
  pageSize : BitVec 16
  pointerFormat : BitVec 16
  segmentOffset : BitVec 64
  pageStart : List (BitVec 16)
  pageCount_lt : pageStart.length < 2^16

/-- The data of `LC_DYLD_CHAINED_FIXUPS`: the bytes of the import records, the strings by their offset,
and for each segment its starts, if it has any. -/
structure ChainedFixups where
  importsCount : BitVec 32
  importsFormat : BitVec 32
  imports : Memory
  symbols : ℕ → Name
  starts : List (Option SegmentStarts)

structure Import where
  libOrdinal : ℤ
  weak : Bool
  nameOffset : ℕ
  addend : BitVec 64
  deriving DecidableEq, Repr

/-- The import record at an ordinal, in one of the three formats. -/
def ChainedFixups.readImport (C : ChainedFixups) (ordinal : ℕ) : Option Import :=
  match C.importsFormat with
  | 1#32 =>
    let r : BitVec 32 := load C.imports (BitVec.ofNat 64 (4*ordinal)) 4
    some ⟨(r.extractLsb' 0 8).toInt,r.getLsbD 8,(r.extractLsb' 9 23).toNat,0⟩
  | 2#32 =>
    let r : BitVec 32 := load C.imports (BitVec.ofNat 64 (8*ordinal)) 4
    let addend : BitVec 32 := load C.imports (BitVec.ofNat 64 (8*ordinal+4)) 4
    some ⟨(r.extractLsb' 0 8).toInt,r.getLsbD 8,(r.extractLsb' 9 23).toNat,addend.signExtend 64⟩
  | 3#32 =>
    let r : BitVec 64 := load C.imports (BitVec.ofNat 64 (16*ordinal)) 8
    let addend : BitVec 64 := load C.imports (BitVec.ofNat 64 (16*ordinal+8)) 8
    some ⟨(r.extractLsb' 0 16).toInt,r.getLsbD 16,(r.extractLsb' 32 32).toNat,addend⟩
  | _ => none

/-- The zeroed slot or stub of a weak lookup that found nothing. -/
def allocWeakSlot (E : Env) (st : ResolverState) : Target × ResolverState :=
  match alloc E .weak st with
  | some (slot,st') => (.zeroSlot slot,st'.countStubbed)
  | none => allocReturn0Stub E st.countStubbed

/-- `resolve_import` once the import record is read. -/
def resolveDecoded (E : Env) (I : Image) (libOrdinal : ℤ) (name : Name) (weak : Bool) (addend : BitVec 64)
    (st : ResolverState) : Target × ResolverState :=
  let lookup := linuxLookupName name 256
  match hookOf name with
  | some h => (.hook h,st.countResolved)
  | none =>
    if libOrdinal = -1 then
      let addr := E.machoSymbol name
      if addr ≠ 0 then (.found addr addend,st.countResolved) else allocReturn0Stub E st.countFailed
    else if libOrdinal = -2 then resolveFlat E name lookup weak addend st
    else if libOrdinal = -3 then
      let machoAddr := E.machoSymbol name
      if machoAddr ≠ 0 then (.found machoAddr addend,st.countResolved)
      else
        let addr := E.dlsym rtldDefault lookup
        if addr ≠ 0 then
          let (t,st) := bindVariadic E lookup (bindCtor E name addr addend st)
          (t,st.countResolved)
        else allocWeakSlot E st
    else resolveOrdinal E I libOrdinal name lookup weak addend st

def resolveImport (E : Env) (I : Image) (C : ChainedFixups) (ordinal : ℕ) (addend : BitVec 64)
    (st : ResolverState) : Target × ResolverState :=
  if C.importsCount.toNat ≤ ordinal then (.null,st)
  else match C.readImport ordinal with
    | none => (.null,st)
    | some imp =>
      resolveDecoded E I imp.libOrdinal (C.symbols imp.nameOffset) imp.weak (addend + imp.addend) st

def resolveBindByName (E : Env) (I : Image) (libOrdinal : ℤ) (name : Name) (weak : Bool) (addend : BitVec 64)
    (st : ResolverState) : Target × ResolverState :=
  let lookup := linuxLookupName name 256
  match hookOf name with
  | some h => (.hook h,st.countResolved)
  | none =>
    if libOrdinal = 0 ∨ libOrdinal = -1 then
      let addr := E.machoSymbol name
      if addr ≠ 0 then (.found addr addend,st.countResolved)
      else
        let fallback := E.dlsym rtldDefault lookup
        if fallback ≠ 0 then (.found fallback addend,st.countResolved)
        else allocReturn0Stub E (st.countMiss weak)
    else if libOrdinal = -2 then resolveFlat E name lookup weak addend st
    else if libOrdinal = -3 then
      let machoAddr := E.machoSymbol name
      if machoAddr ≠ 0 then (.found machoAddr addend,st.countResolved)
      else
        let addr := E.dlsym rtldDefault lookup
        if addr ≠ 0 then
          let (t,st) := bindCtor E name addr addend st
          (t,st.countResolved)
        else allocReturn0Stub E st.countStubbed
    else resolveOrdinal E I libOrdinal name lookup weak addend st

/-- The indices at which a bind that is not hooked reads the table. -/
def readsOf (I : Image) (libOrdinal : ℤ) (name : Name) : List ℕ :=
  if (hookOf name).isSome then [] else I.ordinalIndex libOrdinal

theorem readsOf_of_hook {I : Image} {libOrdinal : ℤ} {name : Name} {h : Hook} (hh : hookOf name = some h) :
    readsOf I libOrdinal name = [] := by simp [readsOf, hh]

theorem readsOf_of_no_hook {I : Image} {libOrdinal : ℤ} {name : Name} (hh : hookOf name = none) :
    readsOf I libOrdinal name = I.ordinalIndex libOrdinal := by simp [readsOf, hh]

theorem ordinalIndex_of_neg (I : Image) {libOrdinal : ℤ} (h : libOrdinal < 1) : I.ordinalIndex libOrdinal = [] :=
  if_neg (by omega)

namespace Quiet
variable {st : ResolverState}

theorem allocWeakSlot (E : Env) : Quiet [] st (allocWeakSlot E st).2 := by
  unfold Resolver.allocWeakSlot
  split
  next h => exact (Quiet.alloc h).trans (countMiss _ true)
  next => exact .stubbed E

theorem resolveDecoded (E : Env) (I : Image) (libOrdinal : ℤ) (name : Name) (weak : Bool) (addend : BitVec 64)
    (st : ResolverState) :
    Quiet (readsOf I libOrdinal name) st (resolveDecoded E I libOrdinal name weak addend st).2 := by
  unfold Resolver.resolveDecoded
  dsimp only
  split
  next h hh =>
    rw [readsOf_of_hook hh]
    exact (refl st).countResolved
  next hh =>
    rw [readsOf_of_no_hook hh]
    split
    next h =>
      rw [ordinalIndex_of_neg I (by omega)]
      split
      · exact (refl st).countResolved
      · exact .failed E
    split
    next h =>
      rw [ordinalIndex_of_neg I (by omega)]
      exact .resolveFlat E name _ weak addend st
    split
    next h =>
      rw [ordinalIndex_of_neg I (by omega)]
      split
      · exact (refl st).countResolved
      · split
        · exact (bindVariadic E _ (bindCtor E name _ addend st)).countResolved
        · exact .allocWeakSlot E
    · exact .resolveOrdinal E I libOrdinal name _ weak addend st

theorem resolveImport (E : Env) (I : Image) (C : ChainedFixups) (ordinal : ℕ) (addend : BitVec 64)
    (st : ResolverState) : ∃ l, Quiet l st (resolveImport E I C ordinal addend st).2 := by
  unfold Resolver.resolveImport
  split
  · exact ⟨_,.refl st⟩
  · split
    · exact ⟨_,.refl st⟩
    · exact ⟨_,.resolveDecoded E I _ _ _ _ st⟩

theorem resolveBindByName (E : Env) (I : Image) (libOrdinal : ℤ) (name : Name) (weak : Bool) (addend : BitVec 64)
    (st : ResolverState) :
    Quiet (readsOf I libOrdinal name) st (resolveBindByName E I libOrdinal name weak addend st).2 := by
  unfold Resolver.resolveBindByName
  dsimp only
  split
  next h hh =>
    rw [readsOf_of_hook hh]
    exact (refl st).countResolved
  next hh =>
    rw [readsOf_of_no_hook hh]
    split
    next h =>
      rw [ordinalIndex_of_neg I (by omega)]
      split
      · exact (refl st).countResolved
      · split
        · exact (refl st).countResolved
        · exact .miss E weak
    split
    next h =>
      rw [ordinalIndex_of_neg I (by omega)]
      exact .resolveFlat E name _ weak addend st
    split
    next h =>
      rw [ordinalIndex_of_neg I (by omega)]
      split
      · exact (refl st).countResolved
      · split
        · exact (bindCtor E name _ addend st).countResolved
        · exact .stubbed E
    · exact .resolveOrdinal E I libOrdinal name _ weak addend st

end Quiet

def HasRoom (E : Env) (p : Pool) (st : ResolverState) : Prop :=
  (E.mmap p).isSome ∧ st.used p + p.slotSize ≤ E.capacity p

instance (E : Env) (p : Pool) (st : ResolverState) : Decidable (HasRoom E p st) :=
  inferInstanceAs (Decidable (_ ∧ _))

theorem alloc_of_hasRoom {E : Env} {p : Pool} {st : ResolverState} (h : HasRoom E p st) :
    ∃ base, E.mmap p = some base ∧ alloc E p st = some (base + BitVec.ofNat 64 (st.used p),
      { st with used := Function.update st.used p (st.used p + p.slotSize) }) := by
  obtain ⟨hm,hu⟩ := h
  obtain ⟨base,hb⟩ := Option.isSome_iff_exists.mp hm
  refine ⟨base,hb,?_⟩
  rw [alloc, hb, Option.bind_some, if_pos hu]

theorem alloc_of_not_hasRoom {E : Env} {p : Pool} {st : ResolverState} (h : ¬HasRoom E p st) :
    alloc E p st = none := by
  unfold alloc
  cases hm : E.mmap p with
  | none => rfl
  | some base =>
    have hu : ¬st.used p + p.slotSize ≤ E.capacity p := fun hu => h ⟨by simp [hm],hu⟩
    rw [Option.bind_some, if_neg hu]

/-- A variadic function whose counterpart exists gets a thunk. -/
def HasThunk (E : Env) (lookup : Name) : Prop :=
  ∃ info, lookupVariadic lookup = some info ∧ E.dlsym rtldDefault info.vName ≠ 0

theorem bindVariadic_of_not_hasThunk {E : Env} {lookup : Name} (h : ¬HasThunk E lookup)
    (r : Target × ResolverState) : bindVariadic E lookup r = r := by
  unfold bindVariadic
  cases hv : lookupVariadic lookup with
  | none => rfl
  | some info =>
    have h0 : E.dlsym rtldDefault info.vName = 0 := by
      by_contra h0
      exact h ⟨info,hv,h0⟩
    simp only [h0, ↓reduceIte]

theorem bindVariadic_of_not_hasRoom {E : Env} (lookup : Name) {r : Target × ResolverState}
    (h : ¬HasRoom E .variadic r.2) : bindVariadic E lookup r = r := by
  unfold bindVariadic createVariadicThunk
  rw [alloc_of_not_hasRoom h]
  cases lookupVariadic lookup with
  | none => rfl
  | some info => simp

theorem bindVariadic_of_hasThunk {E : Env} {lookup : Name} (h : HasThunk E lookup) {r : Target × ResolverState}
    (hr : HasRoom E .variadic r.2) :
    ∃ slot vFunc info, (bindVariadic E lookup r).1 = .variadicThunk slot vFunc info := by
  obtain ⟨info,hv,h0⟩ := h
  obtain ⟨base,-,ha⟩ := alloc_of_hasRoom hr
  unfold bindVariadic createVariadicThunk
  rw [hv, ha]
  simp only [h0, ↓reduceIte, Option.map_some, Option.getD_some]
  exact ⟨_,_,_,rfl⟩

theorem bindCtor_hasRoom_variadic (E : Env) (name : Name) (sym : Addr) (addend : BitVec 64) (st : ResolverState) :
    HasRoom E .variadic (bindCtor E name sym addend st).2 ↔ HasRoom E .variadic st := by
  unfold bindCtor wrapCtorForAppleAbi
  split
  · by_cases hr : HasRoom E .ctor st
    · obtain ⟨base,-,ha⟩ := alloc_of_hasRoom hr
      rw [ha]
      exact Iff.rfl
    · rw [alloc_of_not_hasRoom hr]
  · rfl

/-- What lies at a target, without the place of its slot. -/
inductive Kind where
  | null
  | found (sym : Addr) (addend : BitVec 64)
  | ctorAdapter (sym : Addr) (addend : BitVec 64)
  | variadicThunk (vFunc : Addr) (info : VariadicInfo)
  | hook (h : Hook)
  | zeroSlot
  | return0
  deriving DecidableEq

def Target.kind : Target → Kind
  | .null => .null
  | .found sym addend => .found sym addend
  | .ctorAdapter _ sym addend => .ctorAdapter sym addend
  | .variadicThunk _ vFunc info => .variadicThunk vFunc info
  | .hook h => .hook h
  | .zeroSlot _ => .zeroSlot
  | .return0 _ => .return0

/-- The same kind of result and the same counters. -/
def SameOutcome (r s : Target × ResolverState) : Prop :=
  r.1.kind = s.1.kind ∧ r.2.bindsResolved = s.2.bindsResolved ∧ r.2.bindsStubbed = s.2.bindsStubbed ∧
    r.2.bindsFailed = s.2.bindsFailed

theorem SameOutcome.of_eq {r s : Target × ResolverState} (h : r = s) : SameOutcome r s := by
  subst h
  exact ⟨rfl,rfl,rfl,rfl⟩

/-- A target that is neither null nor a stub. -/
def Target.isBound : Target → Bool
  | .null | .return0 _ => false
  | _ => true

theorem allocReturn0Stub_isBound (E : Env) (st : ResolverState) : (allocReturn0Stub E st).1.isBound = false := by
  unfold allocReturn0Stub
  split <;> rfl

theorem allocReturn0Stub_counters (E : Env) (st : ResolverState) :
    (allocReturn0Stub E st).2.bindsResolved = st.bindsResolved ∧
      (allocReturn0Stub E st).2.bindsStubbed = st.bindsStubbed ∧
      (allocReturn0Stub E st).2.bindsFailed = st.bindsFailed := by
  unfold allocReturn0Stub
  by_cases hr : HasRoom E .return0 st
  · obtain ⟨base,-,ha⟩ := alloc_of_hasRoom hr
    rw [ha]
    exact ⟨rfl,rfl,rfl⟩
  · rw [alloc_of_not_hasRoom hr]
    exact ⟨rfl,rfl,rfl⟩

/-- The lookups at the three ordinals come out in a way both resolvers treat alike. -/
structure Agreeing (E : Env) (libOrdinal : ℤ) (name : Name) (weak : Bool) (st : ResolverState) : Prop where
  self : libOrdinal = 0 →
    E.machoSymbol name = 0 ∧ E.dlsym rtldDefault (linuxLookupName name 256) = 0 ∧ weak = false
  main : libOrdinal = -1 → E.machoSymbol name = 0 →
    E.dlsym rtldDefault (linuxLookupName name 256) = 0 ∧ weak = false
  weakFound : libOrdinal = -3 → E.machoSymbol name = 0 → E.dlsym rtldDefault (linuxLookupName name 256) ≠ 0 →
    HasThunk E (linuxLookupName name 256) → ¬HasRoom E .variadic st
  weakMiss : libOrdinal = -3 → E.machoSymbol name = 0 → E.dlsym rtldDefault (linuxLookupName name 256) = 0 →
    ¬HasRoom E .weak st

section Agree
variable {E : Env} {I : Image} {name : Name} {weak : Bool} {addend : BitVec 64} {st : ResolverState}

theorem not_sameOutcome_of_isBound {r s : Target × ResolverState} (hr : r.1.isBound = false) (hs : s.1.isBound = true) :
    ¬SameOutcome r s := by
  rintro ⟨hk,-⟩
  cases h : r.1 <;> cases h' : s.1 <;> simp [h, h', Target.kind, Target.isBound] at hk hr hs

/-- A failed strong bind against what the other resolver does at the ordinals 0 and -1. -/
theorem sameOutcome_failed_iff :
    SameOutcome (allocReturn0Stub E st.countFailed)
        (if E.dlsym rtldDefault (linuxLookupName name 256) ≠ 0 then
          (.found (E.dlsym rtldDefault (linuxLookupName name 256)) addend,st.countResolved)
        else allocReturn0Stub E (st.countMiss weak)) ↔
      E.dlsym rtldDefault (linuxLookupName name 256) = 0 ∧ weak = false := by
  by_cases hd : E.dlsym rtldDefault (linuxLookupName name 256) = 0
  · rw [if_neg (not_not_intro hd)]
    cases weak with
    | false => exact ⟨fun _ => ⟨hd,rfl⟩,fun _ => .of_eq rfl⟩
    | true =>
      constructor
      · intro h
        have hf := h.2.2.2
        rw [(allocReturn0Stub_counters E st.countFailed).2.2,
          (allocReturn0Stub_counters E (st.countMiss true)).2.2] at hf
        exact absurd hf (Nat.succ_ne_self _)
      · rintro ⟨-,h⟩
        cases h
  · rw [if_pos hd]
    constructor
    · intro h
      exact absurd h (not_sameOutcome_of_isBound (allocReturn0Stub_isBound E _) rfl)
    · intro h
      exact absurd h.1 hd

theorem bindCtor_kind (E : Env) (name : Name) (sym : Addr) (addend : BitVec 64) (st : ResolverState) :
    (bindCtor E name sym addend st).1.kind = .found sym addend ∨
      (bindCtor E name sym addend st).1.kind = .ctorAdapter sym addend := by
  unfold bindCtor wrapCtorForAppleAbi
  split
  · cases alloc E .ctor st with
    | none => exact .inl rfl
    | some p => exact .inr rfl
  · exact .inl rfl

theorem sameOutcome_weakFound_iff (lookup : Name) (sym : Addr) :
    SameOutcome
        ((bindVariadic E lookup (bindCtor E name sym addend st)).1,
          (bindVariadic E lookup (bindCtor E name sym addend st)).2.countResolved)
        ((bindCtor E name sym addend st).1,(bindCtor E name sym addend st).2.countResolved) ↔
      (HasThunk E lookup → ¬HasRoom E .variadic st) := by
  by_cases ht : HasThunk E lookup
  · by_cases hr : HasRoom E .variadic st
    · obtain ⟨slot,vFunc,info,hk⟩ :=
        bindVariadic_of_hasThunk ht ((bindCtor_hasRoom_variadic E name sym addend st).mpr hr)
      constructor
      · intro h
        have hkind : (bindCtor E name sym addend st).1.kind = .variadicThunk vFunc info := by
          have h1 := h.1
          rw [hk] at h1
          exact h1.symm
        rcases bindCtor_kind E name sym addend st with hc | hc
        · cases hc.symm.trans hkind
        · cases hc.symm.trans hkind
      · intro h
        exact absurd hr (h ht)
    · rw [bindVariadic_of_not_hasRoom lookup (mt (bindCtor_hasRoom_variadic E name sym addend st).mp hr)]
      exact ⟨fun _ _ => hr,fun _ => .of_eq rfl⟩
  · rw [bindVariadic_of_not_hasThunk ht]
    exact ⟨fun _ h => absurd h ht,fun _ => .of_eq rfl⟩

theorem sameOutcome_weakMiss_iff :
    SameOutcome (allocWeakSlot E st) (allocReturn0Stub E st.countStubbed) ↔ ¬HasRoom E .weak st := by
  unfold allocWeakSlot
  by_cases hr : HasRoom E .weak st
  · obtain ⟨base,-,ha⟩ := alloc_of_hasRoom hr
    simp only [ha]
    constructor
    · intro h
      have hk := h.1
      have hb := allocReturn0Stub_isBound E st.countStubbed
      cases h' : (allocReturn0Stub E st.countStubbed).1 <;> simp [h', Target.kind, Target.isBound] at hk hb
    · intro h
      exact absurd hr h
  · rw [alloc_of_not_hasRoom hr]
    exact ⟨fun _ => hr,fun _ => .of_eq rfl⟩

theorem resolveOrdinal_zero (lookup : Name) :
    resolveOrdinal E I 0 name lookup weak addend st = allocReturn0Stub E st.countFailed := if_pos (.inl (by decide))

/-! What `Agreeing` asks for, ordinal by ordinal. -/

theorem agreeing_self_iff :
    Agreeing E 0 name weak st ↔
      E.machoSymbol name = 0 ∧ E.dlsym rtldDefault (linuxLookupName name 256) = 0 ∧ weak = false := by
  constructor
  · intro h
    exact h.self rfl
  · intro h
    exact ⟨fun _ => h,nofun,nofun,nofun⟩

theorem agreeing_main_iff :
    Agreeing E (-1) name weak st ↔
      (E.machoSymbol name = 0 → E.dlsym rtldDefault (linuxLookupName name 256) = 0 ∧ weak = false) := by
  constructor
  · intro h
    exact h.main rfl
  · intro h
    exact ⟨nofun,fun _ => h,nofun,nofun⟩

theorem agreeing_weak_iff :
    Agreeing E (-3) name weak st ↔
      (E.machoSymbol name = 0 → if E.dlsym rtldDefault (linuxLookupName name 256) = 0 then ¬HasRoom E .weak st
        else HasThunk E (linuxLookupName name 256) → ¬HasRoom E .variadic st) := by
  constructor
  · intro h hm
    split
    next hd => exact h.weakMiss rfl hm hd
    next hd => exact h.weakFound rfl hm hd
  · intro h
    refine ⟨nofun,nofun,fun _ hm hd => ?_,fun _ hm hd => ?_⟩
    · have hw := h hm
      rwa [if_neg hd] at hw
    · have hw := h hm
      rwa [if_pos hd] at hw

theorem agreeing_of_ne {libOrdinal : ℤ} (h0 : libOrdinal ≠ 0) (h1 : libOrdinal ≠ -1) (h3 : libOrdinal ≠ -3) :
    Agreeing E libOrdinal name weak st :=
  ⟨fun h => absurd h h0,fun h => absurd h h1,fun h => absurd h h3,fun h => absurd h h3⟩

theorem resolveDecoded_sameOutcome_iff (libOrdinal : ℤ) :
    SameOutcome (resolveDecoded E I libOrdinal name weak addend st)
        (resolveBindByName E I libOrdinal name weak addend st) ↔
      hookOf name ≠ none ∨ Agreeing E libOrdinal name weak st := by
  unfold resolveDecoded resolveBindByName
  cases hh : hookOf name with
  | some h => exact ⟨fun _ => .inl (by simp),fun _ => .of_eq rfl⟩
  | none =>
    simp only [ne_eq, not_true_eq_false, false_or]
    by_cases h0 : libOrdinal = 0
    · subst h0
      simp only [↓reduceIte, true_or, show ¬(0 : ℤ) = -1 by decide, show ¬(0 : ℤ) = -2 by decide,
        show ¬(0 : ℤ) = -3 by decide, resolveOrdinal_zero]
      rw [agreeing_self_iff]
      by_cases hm : E.machoSymbol name = 0
      · rw [if_neg (not_not_intro hm), sameOutcome_failed_iff, and_iff_right hm]
      · rw [if_pos hm]
        constructor
        · intro h
          exact absurd h (not_sameOutcome_of_isBound (allocReturn0Stub_isBound E _) rfl)
        · intro h
          exact absurd h.1 hm
    by_cases h1 : libOrdinal = -1
    · subst h1
      simp only [↓reduceIte, or_true]
      rw [agreeing_main_iff]
      by_cases hm : E.machoSymbol name = 0
      · rw [if_neg (not_not_intro hm), if_neg (not_not_intro hm), sameOutcome_failed_iff, imp_iff_right hm]
      · rw [if_pos hm, if_pos hm]
        exact iff_of_true (.of_eq rfl) fun h => absurd h hm
    by_cases h3 : libOrdinal = -3
    · subst h3
      simp only [↓reduceIte, show ¬(-3 : ℤ) = -1 by decide, show ¬(-3 : ℤ) = -2 by decide,
        show ¬(-3 : ℤ) = 0 by decide, or_self]
      rw [agreeing_weak_iff]
      by_cases hm : E.machoSymbol name = 0
      · rw [if_neg (not_not_intro hm), if_neg (not_not_intro hm), imp_iff_right hm]
        by_cases hd : E.dlsym rtldDefault (linuxLookupName name 256) = 0
        · rw [if_neg (not_not_intro hd), if_neg (not_not_intro hd), if_pos hd, sameOutcome_weakMiss_iff]
        · rw [if_pos hd, if_pos hd, if_neg hd, sameOutcome_weakFound_iff]
      · rw [if_pos hm, if_pos hm]
        exact iff_of_true (.of_eq rfl) fun h => absurd h hm
    · simp only [h0, h1, h3, or_self, ↓reduceIte]
      exact iff_of_true (.of_eq rfl) (agreeing_of_ne h0 h1 h3)

end Agree

theorem resolveImport_of_readImport {E : Env} {I : Image} {C : ChainedFixups} {ordinal : ℕ} {imp : Import}
    (hin : ordinal < C.importsCount.toNat) (himp : C.readImport ordinal = some imp) (addend : BitVec 64)
    (st : ResolverState) :
    resolveImport E I C ordinal addend st =
      resolveDecoded E I imp.libOrdinal (C.symbols imp.nameOffset) imp.weak (addend + imp.addend) st := by
  rw [resolveImport, if_neg (by omega), himp]

/-- On an import record and on the parameters it decodes to, the two resolvers have the same outcome
exactly when the name is hooked or the lookups at the ordinals 0, -1 and -3 come out alike. -/
theorem resolvers_sameOutcome_iff (E : Env) (I : Image) (C : ChainedFixups) (ordinal : ℕ) (imp : Import)
    (hin : ordinal < C.importsCount.toNat) (himp : C.readImport ordinal = some imp) (addend : BitVec 64)
    (st : ResolverState) :
    SameOutcome (resolveImport E I C ordinal addend st)
        (resolveBindByName E I imp.libOrdinal (C.symbols imp.nameOffset) imp.weak (addend + imp.addend) st) ↔
      hookOf (C.symbols imp.nameOffset) ≠ none ∨ Agreeing E imp.libOrdinal (C.symbols imp.nameOffset) imp.weak st := by
  rw [resolveImport_of_readImport hin himp]
  exact resolveDecoded_sameOutcome_iff imp.libOrdinal

/-- An environment of one library: a symbol table and nothing else. -/
def oneLibrary (symbol : Name → Addr) : Env where
  dlsym := fun _ => symbol
  dlopen := fun _ => 1
  machoSymbol := fun _ => 0
  dylibLookup := fun _ _ => 0
  dylibLoad := fun _ => 0
  hookAddr := fun _ => 0x9000
  mmap := fun p => match p with
    | .ctor => some 0x100000
    | .variadic => some 0x200000
    | .weak => some 0x300000
    | .return0 => some 0x400000
  pageSize := 4096

def printfLibrary : Env := oneLibrary fun n =>
  if n = "printf".toList then 0x5000 else if n = "vprintf".toList then 0x6000 else 0

def oneImport (record : BitVec 32) (name : Name) : ChainedFixups where
  importsCount := 1
  importsFormat := 1
  imports := store (fun _ => 0) 0 4 record
  symbols := fun _ => name
  starts := []

def noImage : Image := ⟨0,0x10000,fun _ => ⟨[],.skip,[],0,0⟩,0,[]⟩

instance (r s : Target × ResolverState) : Decidable (SameOutcome r s) := inferInstanceAs (Decidable (_ ∧ _))

theorem resolvers_sameOutcome_flat :
    SameOutcome (resolveImport printfLibrary noImage (oneImport 0xFE#32 "_printf".toList) 0 8 (freshState fun _ => 0))
      (resolveBindByName printfLibrary noImage (-2) "_printf".toList false 8 (freshState fun _ => 0)) := by
  have himp : (oneImport 0xFE#32 "_printf".toList).readImport 0 = some ⟨-2,false,0,0⟩ := by decide
  refine (resolvers_sameOutcome_iff printfLibrary noImage _ 0 _ (by decide) himp 8 _).mpr (.inr ?_)
  exact agreeing_of_ne (by decide) (by decide) (by decide)

/-- A weak lookup of `printf`: a thunk to `vprintf` from a chained fixup, `printf` itself from a bind
opcode. -/
theorem weak_printf_differs :
    (oneImport 0xFD#32 "_printf".toList).readImport 0 = some ⟨-3,false,0,0⟩ ∧
      ¬SameOutcome (resolveImport printfLibrary noImage (oneImport 0xFD#32 "_printf".toList) 0 0
        (freshState fun _ => 0))
        (resolveBindByName printfLibrary noImage (-3) "_printf".toList false 0 (freshState fun _ => 0)) := by
  decide

end Machismo.Resolver
