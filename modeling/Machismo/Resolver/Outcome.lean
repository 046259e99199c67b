import Machismo.Resolver.Import

/-! # What a bind finds

Whether a bind finds a definition, and whether it is counted as failed if not, is read off the lookups
alone. The two resolvers are shown to come out so.
-/
namespace Machismo.Resolver
open A64

/-- The address of something found: a definition, an adapter around one, or a hook for it. -/
def Target.isDefinition : Target → Bool
  | .found _ _ | .ctorAdapter _ _ _ | .variadicThunk _ _ _ | .hook _ => true
  | .null | .zeroSlot _ | .return0 _ => false

def DylibEntry.finds (E : Env) (de : DylibEntry) (name lookup : Name) : Bool :=
  match de.action with
  | .map => lookupMapped E de.handle lookup ≠ 0 || E.dlsym rtldDefault lookup ≠ 0
  | .macho => lookupMacho E de.machoInfo name ≠ 0
  | .stub | .skip | .deferred => false

def DylibEntry.stubs (de : DylibEntry) : Bool := de.action = .stub || de.action = .deferred

namespace Image
variable (I : Image) (libOrdinal : ℤ)

def hasOrdinal : Bool := 1 ≤ libOrdinal && libOrdinal ≤ I.ndylibs

def entry : DylibEntry := I.dylibs (libOrdinal - 1).toNat

def stubs : Bool := I.hasOrdinal libOrdinal && (I.entry libOrdinal).stubs

end Image

section Pure
variable (E : Env) (I : Image) (libOrdinal : ℤ) (name : Name) (weak : Bool)

def ordinalFinds : Bool := I.hasOrdinal libOrdinal && (I.entry libOrdinal).finds E name (linuxLookupName name 256)

/-- A miss in the table of dylibs counts as failed. -/
def ordinalCounts : Bool := if I.hasOrdinal libOrdinal then !weak && !(I.entry libOrdinal).stubs else true

def flatFinds : Bool := E.dlsym rtldDefault (linuxLookupName name 256) ≠ 0

/-- A chained bind finds a definition. -/
def decodedFinds : Bool :=
  (hookOf name).isSome ||
    if libOrdinal = -1 then E.machoSymbol name ≠ 0
    else if libOrdinal = -2 then flatFinds E name
    else if libOrdinal = -3 then E.machoSymbol name ≠ 0 || flatFinds E name
    else ordinalFinds E I libOrdinal name

/-- A chained bind counts as failed. -/
def decodedCounts : Bool :=
  !decodedFinds E I libOrdinal name &&
    if libOrdinal = -1 then true
    else if libOrdinal = -2 then !weak
    else if libOrdinal = -3 then false
    else ordinalCounts I libOrdinal weak

def byNameFinds : Bool :=
  (hookOf name).isSome ||
    if libOrdinal = 0 ∨ libOrdinal = -1 then E.machoSymbol name ≠ 0 || flatFinds E name
    else if libOrdinal = -2 then flatFinds E name
    else if libOrdinal = -3 then E.machoSymbol name ≠ 0 || flatFinds E name
    else ordinalFinds E I libOrdinal name

def byNameCounts : Bool :=
  !byNameFinds E I libOrdinal name &&
    if libOrdinal = 0 ∨ libOrdinal = -1 then !weak
    else if libOrdinal = -2 then !weak
    else if libOrdinal = -3 then false
    else ordinalCounts I libOrdinal weak

end Pure

/-- A result is a definition or not, and counts as failed or not. -/
structure Outcome (finds counts : Bool) (st : ResolverState) (r : Target × ResolverState) : Prop where
  definition : r.1.isDefinition = finds
  failed : r.2.bindsFailed = st.bindsFailed + counts.toNat

namespace Outcome
variable {E : Env} {st : ResolverState} {r : Target × ResolverState}

theorem alloc_failed {p : Pool} {a : Addr} {st' : ResolverState} (h : alloc E p st = some (a,st')) :
    st'.bindsFailed = st.bindsFailed := by
  obtain ⟨base,-,h⟩ := Option.bind_eq_some_iff.mp h
  split at h
  · cases h
    rfl
  · cases h

theorem bindCtor (E : Env) (name : Name) (sym : Addr) (addend : BitVec 64) (st : ResolverState) :
    Outcome true false st (bindCtor E name sym addend st) := by
  unfold Resolver.bindCtor wrapCtorForAppleAbi
  split
  · split
    next h => exact ⟨rfl,alloc_failed h⟩
    next => exact ⟨rfl,rfl⟩
  · exact ⟨rfl,rfl⟩

theorem bindVariadic (E : Env) (lookup : Name) (h : Outcome true false st r) :
    Outcome true false st (bindVariadic E lookup r) := by
  unfold Resolver.bindVariadic
  split
  · exact h
  · dsimp only
    split
    · exact h
    · unfold createVariadicThunk
      cases ha : alloc E .variadic r.2 with
      | none => exact h
      | some p => exact ⟨rfl,(alloc_failed ha).trans h.failed⟩

theorem hookSDL (lookup : Name) (h : Outcome true false st r) : Outcome true false st (hookSDL lookup r) := by
  unfold Resolver.hookSDL
  split
  · split
    · exact ⟨rfl,h.failed⟩
    · split
      · exact ⟨rfl,h.failed⟩
      · exact h
  · exact h

theorem countResolved (h : Outcome true false st r) : Outcome true false st (r.1,r.2.countResolved) :=
  ⟨h.definition,h.failed⟩

theorem found (sym : Addr) (addend : BitVec 64) : Outcome true false st (.found sym addend,st.countResolved) :=
  ⟨rfl,rfl⟩

theorem stub (E : Env) (st : ResolverState) : Outcome false false st (allocReturn0Stub E st) := by
  unfold allocReturn0Stub
  split
  next h => exact ⟨rfl,alloc_failed h⟩
  next => exact ⟨rfl,rfl⟩

theorem stubbed (E : Env) : Outcome false false st (allocReturn0Stub E st.countStubbed) :=
  ⟨(stub E _).definition,(stub E _).failed⟩

theorem failedStub (E : Env) : Outcome false true st (allocReturn0Stub E st.countFailed) :=
  ⟨(stub E _).definition,(stub E _).failed⟩

theorem miss (E : Env) (weak : Bool) : Outcome false (!weak) st (allocReturn0Stub E (st.countMiss weak)) := by
  cases weak with
  | false => exact failedStub E
  | true => exact stubbed E

theorem allocWeakSlot (E : Env) : Outcome false false st (allocWeakSlot E st) := by
  unfold Resolver.allocWeakSlot
  split
  next h =>
    have hf := alloc_failed h
    exact ⟨rfl,hf⟩
  next => exact stubbed E

theorem resolveInDylib (E : Env) (de : DylibEntry) (name lookup : Name) (weak : Bool) (addend : BitVec 64)
    (st : ResolverState) :
    Outcome (de.finds E name lookup) (!de.finds E name lookup && (!weak && !de.stubs)) st
      (resolveInDylib E de name lookup weak addend st) := by
  unfold Resolver.resolveInDylib DylibEntry.finds DylibEntry.stubs
  cases de.action with
  | map =>
    dsimp only
    by_cases h1 : lookupMapped E de.handle lookup = 0#64
    · by_cases h2 : E.dlsym rtldDefault lookup = 0#64
      · simpa [h1, h2] using miss E weak
      · simpa [h1, h2] using found _ addend
    · simpa [h1] using (hookSDL lookup (bindVariadic E lookup (bindCtor E name _ addend st))).countResolved
  | macho =>
    dsimp only
    by_cases h1 : lookupMacho E de.machoInfo name = 0#64
    · simpa [h1] using miss E weak
    · simpa [h1] using found _ addend
  | stub => simpa using stubbed E
  | skip => simpa using miss E weak
  | deferred => simpa using stubbed E

theorem resolveOrdinal (E : Env) (I : Image) (libOrdinal : ℤ) (name : Name) (weak : Bool) (addend : BitVec 64)
    (st : ResolverState) :
    Outcome (ordinalFinds E I libOrdinal name) (!ordinalFinds E I libOrdinal name && ordinalCounts I libOrdinal weak) st
      (resolveOrdinal E I libOrdinal name (linuxLookupName name 256) weak addend st) := by
  unfold Resolver.resolveOrdinal ordinalFinds ordinalCounts
  by_cases h : libOrdinal < 1 ∨ (I.ndylibs : ℤ) < libOrdinal
  · have hno : I.hasOrdinal libOrdinal = false := by
      simp only [Image.hasOrdinal, Bool.and_eq_false_iff, decide_eq_false_iff_not]
      omega
    simpa [hno, h] using failedStub E
  · have hin : I.hasOrdinal libOrdinal = true := by
      simp only [Image.hasOrdinal, Bool.and_eq_true, decide_eq_true_eq]
      omega
    simp only [h, hin, ↓reduceIte, Bool.true_and]
    exact ⟨(resolveInDylib E _ name _ weak addend _).definition,(resolveInDylib E _ name _ weak addend _).failed⟩

theorem resolveFlat (E : Env) (name : Name) (weak : Bool) (addend : BitVec 64) (st : ResolverState) :
    Outcome (flatFinds E name) (!flatFinds E name && !weak) st
      (resolveFlat E name (linuxLookupName name 256) weak addend st) := by
  unfold Resolver.resolveFlat flatFinds
  by_cases h : E.dlsym rtldDefault (linuxLookupName name 256) = 0#64
  · cases weak with
    | false => simpa [h] using failedStub E
    | true => simpa [h] using stub E st
  · simpa [h] using (bindVariadic E _ (bindCtor E name _ addend st)).countResolved

theorem resolveDecoded (E : Env) (I : Image) (libOrdinal : ℤ) (name : Name) (weak : Bool) (addend : BitVec 64)
    (st : ResolverState) :
    Outcome (decodedFinds E I libOrdinal name) (decodedCounts E I libOrdinal name weak) st
      (resolveDecoded E I libOrdinal name weak addend st) := by
  unfold Resolver.resolveDecoded decodedCounts decodedFinds
  cases hh : hookOf name with
  | some h => simpa using ⟨rfl,rfl⟩
  | none =>
    simp only [Option.isSome_none, Bool.false_or]
    by_cases h1 : libOrdinal = -1
    · by_cases hm : E.machoSymbol name = 0#64
      · simpa [h1, hm] using failedStub E
      · simpa [h1, hm] using found _ addend
    by_cases h2 : libOrdinal = -2
    · simpa [h2] using resolveFlat E name weak addend st
    by_cases h3 : libOrdinal = -3
    · by_cases hm : E.machoSymbol name = 0#64
      · by_cases hf : E.dlsym rtldDefault (linuxLookupName name 256) = 0#64
        · simpa [h3, hm, hf, flatFinds] using allocWeakSlot E
        · simpa [h3, hm, hf, flatFinds] using (bindVariadic E _ (bindCtor E name _ addend st)).countResolved
      · simpa [h3, hm] using found _ addend
    · simpa [h1, h2, h3] using resolveOrdinal E I libOrdinal name weak addend st

theorem resolveBindByName (E : Env) (I : Image) (libOrdinal : ℤ) (name : Name) (weak : Bool) (addend : BitVec 64)
    (st : ResolverState) :
    Outcome (byNameFinds E I libOrdinal name) (byNameCounts E I libOrdinal name weak) st
      (resolveBindByName E I libOrdinal name weak addend st) := by
  unfold Resolver.resolveBindByName byNameCounts byNameFinds
  cases hh : hookOf name with
  | some h => simpa using ⟨rfl,rfl⟩
  | none =>
    simp only [Option.isSome_none, Bool.false_or]
    by_cases h1 : libOrdinal = 0 ∨ libOrdinal = -1
    · by_cases hm : E.machoSymbol name = 0#64
      · by_cases hf : E.dlsym rtldDefault (linuxLookupName name 256) = 0#64
        · simpa [h1, hm, hf, flatFinds] using miss E weak
        · simpa [h1, hm, hf, flatFinds] using found _ addend
      · simpa [h1, hm] using found _ addend
    by_cases h2 : libOrdinal = -2
    · simpa [h2] using resolveFlat E name weak addend st
    by_cases h3 : libOrdinal = -3
    · by_cases hm : E.machoSymbol name = 0#64
      · by_cases hf : E.dlsym rtldDefault (linuxLookupName name 256) = 0#64
        · simpa [h3, hm, hf, flatFinds] using stubbed E
        · simpa [h3, hm, hf, flatFinds] using (bindCtor E name _ addend st).countResolved
      · simpa [h3, hm] using found _ addend
    · simpa [h1, h2, h3] using resolveOrdinal E I libOrdinal name weak addend st

end Outcome

end Machismo.Resolver
