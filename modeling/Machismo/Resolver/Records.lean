import Machismo.Resolver.Chained

/-! # Import records and bind pointers

The bit layouts of the fixup-chains format: a bind pointer with an unsigned 8-bit addend, and import
records of three formats, whose largest ordinals stand for the special negative ones. The resolver
sign-extends both the pointer addend and the ordinals.
-/
namespace Machismo.Resolver
open A64

inductive ImportRecord where
  | plain (ordinal : BitVec 8) (weak : Bool) (nameOffset : BitVec 23)
  | withAddend (ordinal : BitVec 8) (weak : Bool) (nameOffset : BitVec 23) (addend : BitVec 32)
  | withAddend64 (ordinal : BitVec 16) (weak : Bool) (reserved : BitVec 15) (nameOffset : BitVec 32)
      (addend : BitVec 64)

namespace ImportRecord

/-- Ordinals of width `w` are unsigned, except for the last 15. -/
def ordinalMeaning {w : ℕ} (ordinal : BitVec w) : ℤ :=
  if 2^w - 16 < ordinal.toNat then (ordinal.toNat : ℤ) - 2^w else ordinal.toNat

/-- What a record says. -/
def meaning : ImportRecord → Import
  | .plain ordinal weak nameOffset => ⟨ordinalMeaning ordinal,weak,nameOffset.toNat,0⟩
  | .withAddend ordinal weak nameOffset addend => ⟨ordinalMeaning ordinal,weak,nameOffset.toNat,addend.signExtend 64⟩
  | .withAddend64 ordinal weak _ nameOffset addend => ⟨ordinalMeaning ordinal,weak,nameOffset.toNat,addend⟩

/-- The ordinal is not one of those the resolver takes for a negative number by mistake. -/
def ordinalFits : ImportRecord → Prop
  | .plain ordinal _ _ => ordinal.toNat < 0x80 ∨ 0xF0 < ordinal.toNat
  | .withAddend ordinal _ _ _ => ordinal.toNat < 0x80 ∨ 0xF0 < ordinal.toNat
  | .withAddend64 ordinal _ _ _ _ => ordinal.toNat < 0x8000 ∨ 0xFFF0 < ordinal.toNat

end ImportRecord

/-- The import table holds a record at an ordinal. -/
def ChainedFixups.Holds (C : ChainedFixups) (i : ℕ) : ImportRecord → Prop
  | .plain ordinal weak nameOffset => C.importsFormat = 1#32 ∧
      load C.imports (BitVec.ofNat 64 (4*i)) 4 = nameOffset ++ BitVec.ofBool weak ++ ordinal
  | .withAddend ordinal weak nameOffset addend => C.importsFormat = 2#32 ∧
      load C.imports (BitVec.ofNat 64 (8*i)) 4 = nameOffset ++ BitVec.ofBool weak ++ ordinal ∧
      load C.imports (BitVec.ofNat 64 (8*i+4)) 4 = addend
  | .withAddend64 ordinal weak reserved nameOffset addend => C.importsFormat = 3#32 ∧
      load C.imports (BitVec.ofNat 64 (16*i)) 8 = nameOffset ++ reserved ++ BitVec.ofBool weak ++ ordinal ∧
      load C.imports (BitVec.ofNat 64 (16*i+8)) 8 = addend

structure BindPointer where
  ordinal : BitVec 24
  addend : BitVec 8
  reserved : BitVec 19
  next : BitVec 12

def BindPointer.encode (p : BindPointer) : BitVec 64 := 1#1 ++ p.next ++ p.reserved ++ p.addend ++ p.ordinal

section Decode
variable {C : ChainedFixups} {i : ℕ} {r : ImportRecord}

theorem extract_ordinal (nameOffset : BitVec 23) (weak : Bool) (ordinal : BitVec 8) :
    (nameOffset ++ BitVec.ofBool weak ++ ordinal).extractLsb' 0 8 = ordinal ∧
      (nameOffset ++ BitVec.ofBool weak ++ ordinal).getLsbD 8 = weak ∧
      (nameOffset ++ BitVec.ofBool weak ++ ordinal).extractLsb' 9 23 = nameOffset := by
  refine ⟨?_,?_,?_⟩
  · apply BitVec.eq_of_getLsbD_eq
    intro k hk
    simp only [BitVec.getLsbD_extractLsb', BitVec.getLsbD_append, Nat.zero_add, hk, decide_true, Bool.true_and,
      ↓reduceIte]
  · simp only [BitVec.getLsbD_append, BitVec.getLsbD_ofBool]
    simp
  · apply BitVec.eq_of_getLsbD_eq
    intro k hk
    have h1 : ¬9 + k < 8 := by omega
    have h2 : ¬9 + k - 8 < 1 := by omega
    have h3 : 9 + k - 8 - 1 = k := by omega
    simp only [BitVec.getLsbD_extractLsb', BitVec.getLsbD_append, h1, h2, h3, hk, decide_true, Bool.true_and,
      ↓reduceIte]

theorem extract_ordinal64 (nameOffset : BitVec 32) (reserved : BitVec 15) (weak : Bool) (ordinal : BitVec 16) :
    (nameOffset ++ reserved ++ BitVec.ofBool weak ++ ordinal).extractLsb' 0 16 = ordinal ∧
      (nameOffset ++ reserved ++ BitVec.ofBool weak ++ ordinal).getLsbD 16 = weak ∧
      (nameOffset ++ reserved ++ BitVec.ofBool weak ++ ordinal).extractLsb' 32 32 = nameOffset := by
  refine ⟨?_,?_,?_⟩
  · apply BitVec.eq_of_getLsbD_eq
    intro k hk
    simp only [BitVec.getLsbD_extractLsb', BitVec.getLsbD_append, Nat.zero_add, hk, decide_true, Bool.true_and,
      ↓reduceIte]
  · simp only [BitVec.getLsbD_append, BitVec.getLsbD_ofBool]
    simp
  · apply BitVec.eq_of_getLsbD_eq
    intro k hk
    have h1 : ¬32 + k < 16 := by omega
    have h2 : ¬32 + k - 16 < 1 := by omega
    have h3 : ¬32 + k - 16 - 1 < 15 := by omega
    have h4 : 32 + k - 16 - 1 - 15 = k := by omega
    simp only [BitVec.getLsbD_extractLsb', BitVec.getLsbD_append, h1, h2, h3, h4, hk, decide_true, Bool.true_and,
      ↓reduceIte]

theorem readImport_of_holds (h : C.Holds i r) :
    C.readImport i = some { r.meaning with libOrdinal := match r with
      | .plain ordinal _ _ => ordinal.toInt
      | .withAddend ordinal _ _ _ => ordinal.toInt
      | .withAddend64 ordinal _ _ _ _ => ordinal.toInt } := by
  unfold ChainedFixups.readImport
  cases r with
  | plain ordinal weak nameOffset =>
    obtain ⟨hf,hl⟩ := h
    obtain ⟨h1,h2,h3⟩ := extract_ordinal nameOffset weak ordinal
    simp only [hf, hl]
    exact congrArg some (by rw [h1, h2, h3]; rfl)
  | withAddend ordinal weak nameOffset addend =>
    obtain ⟨hf,hl,ha⟩ := h
    obtain ⟨h1,h2,h3⟩ := extract_ordinal nameOffset weak ordinal
    simp only [hf, hl, ha]
    exact congrArg some (by rw [h1, h2, h3]; rfl)
  | withAddend64 ordinal weak reserved nameOffset addend =>
    obtain ⟨hf,hl,ha⟩ := h
    obtain ⟨h1,h2,h3⟩ := extract_ordinal64 nameOffset reserved weak ordinal
    simp only [hf, hl, ha]
    exact congrArg some (by rw [h1, h2, h3]; rfl)

theorem toInt_eq_ordinalMeaning_iff {w : ℕ} (hw : 5 ≤ w) (ordinal : BitVec w) :
    ordinal.toInt = ImportRecord.ordinalMeaning ordinal ↔ 2*ordinal.toNat < 2^w ∨ 2^w - 16 < ordinal.toNat := by
  have hlt := ordinal.isLt
  have h32 : 2^5 ≤ 2^w := Nat.pow_le_pow_right (by decide) hw
  have hcast : (2 : ℤ)^w = (2^w : ℕ) := by push_cast; rfl
  rw [BitVec.toInt_eq_toNat_cond, ImportRecord.ordinalMeaning, hcast]
  generalize 2^w = n at *
  split <;> split <;> omega

/-- The ordinal the resolver reads. -/
def ImportRecord.signedOrdinal : ImportRecord → ℤ
  | .plain ordinal _ _ => ordinal.toInt
  | .withAddend ordinal _ _ _ => ordinal.toInt
  | .withAddend64 ordinal _ _ _ _ => ordinal.toInt

theorem signedOrdinal_eq_iff (r : ImportRecord) : r.signedOrdinal = r.meaning.libOrdinal ↔ r.ordinalFits := by
  cases r with
  | plain ordinal =>
    exact (toInt_eq_ordinalMeaning_iff (by decide) ordinal).trans (by simp only [ImportRecord.ordinalFits]; omega)
  | withAddend ordinal =>
    exact (toInt_eq_ordinalMeaning_iff (by decide) ordinal).trans (by simp only [ImportRecord.ordinalFits]; omega)
  | withAddend64 ordinal =>
    exact (toInt_eq_ordinalMeaning_iff (by decide) ordinal).trans (by simp only [ImportRecord.ordinalFits]; omega)

theorem signExtend_eq_setWidth_iff (a : BitVec 8) : a.signExtend 64 = a.setWidth 64 ↔ a.toNat < 128 := by
  constructor
  · intro h
    have hbit := congrArg (fun x => x.getLsbD 8) h
    simp only [BitVec.getLsbD_signExtend, BitVec.getLsbD_setWidth] at hbit
    have hmsb : a.msb = false := by simpa using hbit
    rw [BitVec.msb_eq_false_iff_two_mul_lt] at hmsb
    omega
  · intro h
    refine BitVec.signExtend_eq_setWidth_of_msb_false ?_
    rw [BitVec.msb_eq_false_iff_two_mul_lt]
    omega

end Decode

namespace BindPointer
variable (p : BindPointer)

theorem bind_encode : fixupPtrBind p.encode = true := by
  simp only [fixupPtrBind, encode, BitVec.getLsbD_append]
  simp

theorem ordinal_encode : fixupBindOrdinal p.encode = p.ordinal.toNat := by
  refine congrArg BitVec.toNat (?_ : p.encode.extractLsb' 0 24 = p.ordinal)
  apply BitVec.eq_of_getLsbD_eq
  intro k hk
  simp only [encode, BitVec.getLsbD_extractLsb', BitVec.getLsbD_append, Nat.zero_add, hk, decide_true, Bool.true_and,
    ↓reduceIte]

theorem addend_encode : fixupBindAddend p.encode = p.addend := by
  apply BitVec.eq_of_getLsbD_eq
  intro k hk
  have h1 : ¬24 + k < 24 := by omega
  have h2 : 24 + k - 24 = k := by omega
  simp only [fixupBindAddend, encode, BitVec.getLsbD_extractLsb', BitVec.getLsbD_append, h1, h2, hk, decide_true,
    Bool.true_and, ↓reduceIte]

end BindPointer

/-- The fields the resolver works with are those of the pointer and the record. -/
def Recovers (C : ChainedFixups) (p : BindPointer) (r : ImportRecord) : Prop :=
  ∃ imp, C.readImport (fixupBindOrdinal p.encode) = some imp ∧ imp.libOrdinal = r.meaning.libOrdinal ∧
    imp.weak = r.meaning.weak ∧ imp.nameOffset = r.meaning.nameOffset ∧
    (fixupBindAddend p.encode).signExtend 64 + imp.addend = p.addend.setWidth 64 + r.meaning.addend

/-- A symbol that is neither hooked nor gets an adapter or a thunk. -/
structure PlainSymbol (name : Name) (st : ResolverState) : Prop where
  hook : hookOf name = none
  ctor : adapted name = false
  variadic : lookupVariadic (linuxLookupName name 256) = none
  sdl : (st.deferred.active && !st.deferred.resolved) = true →
    linuxLookupName name 256 ≠ "SDL_GL_CreateContext".toList ∧ linuxLookupName name 256 ≠ "SDL_GL_SetAttribute".toList

/-- The bind is to a symbol found in a mapped library. -/
structure FoundIn (E : Env) (I : Image) (imp : Import) (name : Name) (sym : Addr) : Prop where
  ordinal : 1 ≤ imp.libOrdinal ∧ imp.libOrdinal ≤ I.ndylibs
  action : (I.dylibs (imp.libOrdinal - 1).toNat).action = .map
  lookup : lookupMapped E (I.dylibs (imp.libOrdinal - 1).toNat).handle (linuxLookupName name 256) = sym
  found : sym ≠ 0

/-- Wherever the bind is to a plain symbol of a mapped library, its slot gets the symbol's address plus
both addends. -/
def StoresFound (C : ChainedFixups) (p : BindPointer) (r : ImportRecord) : Prop :=
  ∀ (E : Env) (I : Image) (isOffset : Bool) (loc sym : Addr) (st : ResolverState),
    PlainSymbol (C.symbols r.meaning.nameOffset) st → FoundIn E I r.meaning (C.symbols r.meaning.nameOffset) sym →
    load (applyFixup E I C isOffset loc p.encode st).mem loc 8 = sym + p.addend.setWidth 64 + r.meaning.addend

theorem resolveDecoded_of_foundIn {E : Env} {I : Image} {imp : Import} {name : Name} {sym : Addr} {st : ResolverState}
    (hp : PlainSymbol name st) (hf : FoundIn E I imp name sym) (addend : BitVec 64) :
    (resolveDecoded E I imp.libOrdinal name imp.weak addend st).1 = .found sym addend := by
  obtain ⟨h1,h2⟩ := hf.ordinal
  have hsdl : ∀ r : Target × ResolverState, r.2.deferred = st.deferred →
      (hookSDL (linuxLookupName name 256) r).1 = r.1 := by
    intro r hr
    unfold hookSDL
    rw [hr]
    split
    next ha =>
      rw [if_neg (hp.sdl ha).1, if_neg (hp.sdl ha).2]
    next => rfl
  have hm1 : ¬imp.libOrdinal = -1 := by omega
  have hm2 : ¬imp.libOrdinal = -2 := by omega
  have hm3 : ¬imp.libOrdinal = -3 := by omega
  have hr : ¬(imp.libOrdinal < 1 ∨ (I.ndylibs : ℤ) < imp.libOrdinal) := by omega
  simp only [resolveDecoded, hp.hook, hm1, hm2, hm3, ↓reduceIte, resolveOrdinal, hr, resolveInDylib, hf.action,
    hf.lookup, ne_eq, hf.found, not_false_eq_true, bindVariadic, hp.variadic, bindCtor, hp.ctor, Bool.false_eq_true]
  exact hsdl _ rfl

theorem storesFound_of_recovers {C : ChainedFixups} {p : BindPointer} {r : ImportRecord}
    (hin : p.ordinal.toNat < C.importsCount.toNat) (h : Recovers C p r) : StoresFound C p r := by
  intro E I isOffset loc sym st hp hf
  obtain ⟨imp,hread,hord,-,hname,hadd⟩ := h
  have hf' : FoundIn E I imp (C.symbols imp.nameOffset) sym := by
    rw [hname]
    exact ⟨by rw [hord]; exact hf.ordinal,by rw [hord]; exact hf.action,by rw [hord]; exact hf.lookup,hf.found⟩
  rw [← hname] at hp
  have hval := resolveDecoded_of_foundIn hp hf' ((fixupBindAddend p.encode).signExtend 64 + imp.addend)
  have hmem := Fixup.apply_mem (E := E) (I := I) (C := C) st ⟨loc,p.encode,isOffset⟩
  have hin' : fixupBindOrdinal p.encode < C.importsCount.toNat := by rwa [p.ordinal_encode]
  rw [Fixup.apply, Fixup.value, if_pos p.bind_encode, resolveImport_of_readImport hin' hread, hval] at hmem
  rw [hmem, load_store_same _ _ _ _ (by omega), Target.addr, hadd, BitVec.add_assoc]

/-- The fields of a bind are recovered, and found symbols stored with their addends, exactly when the
pointer addend is below 128 and the ordinal is not taken for a negative one. -/
theorem bind_recovered_iff (C : ChainedFixups) (p : BindPointer) (r : ImportRecord)
    (hin : p.ordinal.toNat < C.importsCount.toNat) (hr : C.Holds p.ordinal.toNat r) :
    (Recovers C p r ∧ StoresFound C p r) ↔ p.addend.toNat < 128 ∧ r.ordinalFits := by
  have hread : C.readImport (fixupBindOrdinal p.encode) = some { r.meaning with libOrdinal := r.signedOrdinal } := by
    rw [p.ordinal_encode, readImport_of_holds hr]
    cases r <;> rfl
  constructor
  · rintro ⟨⟨imp,himp,hord,-,-,hadd⟩,-⟩
    obtain rfl := Option.some.inj (hread.symm.trans himp)
    rw [p.addend_encode] at hadd
    exact ⟨(signExtend_eq_setWidth_iff p.addend).mp (add_right_cancel hadd),(signedOrdinal_eq_iff r).mp hord⟩
  · rintro ⟨hadd,hord⟩
    have hrec : Recovers C p r :=
      ⟨_,hread,(signedOrdinal_eq_iff r).mpr hord,rfl,rfl,by
        rw [p.addend_encode, (signExtend_eq_setWidth_iff p.addend).mpr hadd]⟩
    exact ⟨hrec,storesFound_of_recovers hin hrec⟩

theorem bind_recovered_puts :
    (oneImport 1#32 "_puts".toList).Holds 0 (.plain 1#8 false 0#23) ∧
      Recovers (oneImport 1#32 "_puts".toList) ⟨0,127,0,0⟩ (.plain 1#8 false 0#23) ∧
      StoresFound (oneImport 1#32 "_puts".toList) ⟨0,127,0,0⟩ (.plain 1#8 false 0#23) := by
  have hr : (oneImport 1#32 "_puts".toList).Holds 0 (.plain 1#8 false 0#23) := ⟨rfl,by decide⟩
  exact ⟨hr,(bind_recovered_iff _ ⟨0,127,0,0⟩ _ (by decide) hr).mpr ⟨by decide,.inl (by decide)⟩⟩

def putsLibrary : Env := oneLibrary fun n => if n = "puts".toList then 0x5000 else 0

/-- An image that loads one mapped library. -/
def oneDylib : Image := { noImage with dylibs := fun _ => ⟨[],.map,[],1,0⟩, ndylibs := 1 }

/-- A bind to `puts` plus 128 is stored as `puts` minus 128. -/
theorem addend_128_not_stored :
    (oneImport 1#32 "_puts".toList).Holds 0 (.plain 1#8 false 0#23) ∧
      load (applyFixup putsLibrary oneDylib (oneImport 1#32 "_puts".toList) true 0x11000
        (BindPointer.encode ⟨0,128,0,0⟩) (freshState fun _ => 0)).mem 0x11000 8 = 0x5000#64 - 128#64 ∧
      ¬(Recovers (oneImport 1#32 "_puts".toList) ⟨0,128,0,0⟩ (.plain 1#8 false 0#23) ∧
        StoresFound (oneImport 1#32 "_puts".toList) ⟨0,128,0,0⟩ (.plain 1#8 false 0#23)) := by
  have hval : load (applyFixup putsLibrary oneDylib (oneImport 1#32 "_puts".toList) true 0x11000
      (BindPointer.encode ⟨0,128,0,0⟩) (freshState fun _ => 0)).mem 0x11000 8 = 0x5000#64 - 128#64 := by decide
  refine ⟨⟨rfl,by decide⟩,hval,fun h => ?_⟩
  have hs := h.2 putsLibrary oneDylib true 0x11000 0x5000 (freshState fun _ => 0)
    ⟨by decide,by decide,by decide,fun h => absurd h (by decide)⟩ ⟨by decide,rfl,by decide,by decide⟩
  exact absurd (hval.symm.trans hs) (by decide)

end Machismo.Resolver
