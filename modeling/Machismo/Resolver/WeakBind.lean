import Machismo.Resolver.Outcome
import Machismo.Resolver.DyldInfo

/-! # Slots bound twice

The weak and lazy passes may bind a slot again that the regular pass has bound, and a weak bind names
no library. What a bind writes is first given in closed form, from the lookups and from whether the
pools have room; then the last bind of a slot is compared with the regular one.
-/
namespace Machismo.Resolver
open A64

section Closed
variable (E : Env) (s : ResolverState)

def ctorKind (name : Name) (sym : Addr) (addend : BitVec 64) : Kind :=
  if adapted name ∧ HasRoom E .ctor s then .ctorAdapter sym addend else .found sym addend

def variadicKind (lookup : Name) (k : Kind) : Kind :=
  match lookupVariadic lookup with
  | none => k
  | some info =>
    if E.dlsym rtldDefault info.vName ≠ 0 ∧ HasRoom E .variadic s then
      .variadicThunk (E.dlsym rtldDefault info.vName) info
    else k

def sdlKind (lookup : Name) (k : Kind) : Kind :=
  if s.deferred.active && !s.deferred.resolved then
    if lookup = "SDL_GL_CreateContext".toList then .hook .createContext
    else if lookup = "SDL_GL_SetAttribute".toList then .hook .setAttribute
    else k
  else k

def dylibKind (de : DylibEntry) (name lookup : Name) (addend : BitVec 64) : Option Kind :=
  match de.action with
  | .map =>
    if lookupMapped E de.handle lookup ≠ 0 then
      some (sdlKind s lookup (variadicKind E s lookup (ctorKind E s name (lookupMapped E de.handle lookup) addend)))
    else if E.dlsym rtldDefault lookup ≠ 0 then some (.found (E.dlsym rtldDefault lookup) addend)
    else none
  | .macho =>
    if lookupMacho E de.machoInfo name ≠ 0 then some (.found (lookupMacho E de.machoInfo name) addend) else none
  | .stub | .skip | .deferred => none

/-- The definition a bind by name comes to, if any. -/
def byNameKind (I : Image) (libOrdinal : ℤ) (name : Name) (addend : BitVec 64) : Option Kind :=
  let lookup := linuxLookupName name 256
  match hookOf name with
  | some h => some (.hook h)
  | none =>
    if libOrdinal = 0 ∨ libOrdinal = -1 then
      if E.machoSymbol name ≠ 0 then some (.found (E.machoSymbol name) addend)
      else if E.dlsym rtldDefault lookup ≠ 0 then some (.found (E.dlsym rtldDefault lookup) addend)
      else none
    else if libOrdinal = -2 then
      if E.dlsym rtldDefault lookup ≠ 0 then
        some (variadicKind E s lookup (ctorKind E s name (E.dlsym rtldDefault lookup) addend))
      else none
    else if libOrdinal = -3 then
      if E.machoSymbol name ≠ 0 then some (.found (E.machoSymbol name) addend)
      else if E.dlsym rtldDefault lookup ≠ 0 then some (ctorKind E s name (E.dlsym rtldDefault lookup) addend)
      else none
    else if I.hasOrdinal libOrdinal then dylibKind E s (I.entry libOrdinal) name lookup addend
    else none

end Closed

/-- The definition at a target, if there is one. -/
def Target.definition (t : Target) : Option Kind := if t.isDefinition then some t.kind else none

section Kinds
variable {E : Env} {s : ResolverState} {r : Target × ResolverState} {k : Kind}

theorem definition_stub (E : Env) (s : ResolverState) : (allocReturn0Stub E s).1.definition = none := by
  rw [Target.definition, (Outcome.stub E s).definition]
  rfl

theorem bindCtor_definition (E : Env) (s : ResolverState) (name : Name) (sym : Addr) (addend : BitVec 64) :
    (bindCtor E name sym addend s).1.definition = some (ctorKind E s name sym addend) := by
  unfold bindCtor wrapCtorForAppleAbi ctorKind
  by_cases ha : adapted name
  · by_cases hr : HasRoom E .ctor s
    · obtain ⟨base,-,hal⟩ := alloc_of_hasRoom hr
      simp only [ha, hr, hal, and_self, ↓reduceIte]
      rfl
    · simp only [ha, hr, alloc_of_not_hasRoom hr, and_false, ↓reduceIte]
      rfl
  · simp only [ha, Bool.false_eq_true, false_and, ↓reduceIte]
    rfl

theorem bindVariadic_definition (lookup : Name) (hr : HasRoom E .variadic r.2 ↔ HasRoom E .variadic s)
    (h : r.1.definition = some k) : (bindVariadic E lookup r).1.definition = some (variadicKind E s lookup k) := by
  unfold bindVariadic variadicKind
  cases lookupVariadic lookup with
  | none => exact h
  | some info =>
    dsimp only
    by_cases h0 : E.dlsym rtldDefault info.vName = 0
    · simp only [h0, ne_eq, not_true_eq_false, false_and, ↓reduceIte]
      exact h
    · by_cases hroom : HasRoom E .variadic s
      · obtain ⟨base,-,hal⟩ := alloc_of_hasRoom (hr.mpr hroom)
        simp only [h0, hroom, createVariadicThunk, hal, ne_eq, not_false_eq_true, and_self, ↓reduceIte, Option.map_some,
          Option.getD_some]
        rfl
      · simp only [h0, hroom, createVariadicThunk, alloc_of_not_hasRoom (fun h => hroom (hr.mp h)), and_false,
          ↓reduceIte, Option.map_none, Option.getD_none]
        exact h

theorem hookSDL_definition (lookup : Name) (hd : r.2.deferred = s.deferred) (h : r.1.definition = some k) :
    (hookSDL lookup r).1.definition = some (sdlKind s lookup k) := by
  unfold hookSDL sdlKind
  rw [hd]
  split
  · split
    · rfl
    · split
      · rfl
      · exact h
  · exact h

theorem resolveInDylib_definition (E : Env) (de : DylibEntry) (name lookup : Name) (weak : Bool) (addend : BitVec 64)
    (s : ResolverState) :
    (resolveInDylib E de name lookup weak addend s).1.definition = dylibKind E s de name lookup addend := by
  unfold resolveInDylib dylibKind
  cases de.action with
  | map =>
    dsimp only
    by_cases h1 : lookupMapped E de.handle lookup = 0
    · rw [if_neg (not_not_intro h1), if_neg (not_not_intro h1)]
      by_cases h2 : E.dlsym rtldDefault lookup = 0
      · rw [if_neg (not_not_intro h2), if_neg (not_not_intro h2)]
        exact definition_stub E _
      · rw [if_pos h2, if_pos h2]
        rfl
    · rw [if_pos h1, if_pos h1]
      have hq := Quiet.bindVariadic E lookup (Quiet.bindCtor E name (lookupMapped E de.handle lookup) addend s)
      exact hookSDL_definition lookup hq.deferred (bindVariadic_definition lookup
        (bindCtor_hasRoom_variadic E name _ addend s) (bindCtor_definition E s name _ addend))
  | macho =>
    dsimp only
    split
    · rfl
    · exact definition_stub E _
  | stub => exact definition_stub E _
  | skip => exact definition_stub E _
  | deferred => exact definition_stub E _

theorem resolveFlat_definition (E : Env) (name lookup : Name) (weak : Bool) (addend : BitVec 64) (s : ResolverState) :
    (resolveFlat E name lookup weak addend s).1.definition =
      if E.dlsym rtldDefault lookup ≠ 0 then
        some (variadicKind E s lookup (ctorKind E s name (E.dlsym rtldDefault lookup) addend))
      else none := by
  unfold resolveFlat
  dsimp only
  split
  · exact bindVariadic_definition lookup (bindCtor_hasRoom_variadic E name _ addend s)
      (bindCtor_definition E s name _ addend)
  · exact definition_stub E _

theorem resolveBindByName_definition (E : Env) (I : Image) (libOrdinal : ℤ) (name : Name) (weak : Bool)
    (addend : BitVec 64)
    (s : ResolverState) :
    (resolveBindByName E I libOrdinal name weak addend s).1.definition = byNameKind E s I libOrdinal name addend := by
  unfold resolveBindByName byNameKind
  dsimp only
  cases hookOf name with
  | some h => rfl
  | none =>
    dsimp only
    split
    · split
      · rfl
      · split
        · rfl
        · exact definition_stub E _
    split
    · exact resolveFlat_definition E name _ weak addend s
    split
    · split
      · rfl
      · split
        · exact bindCtor_definition E s name _ addend
        · exact definition_stub E _
    · unfold resolveOrdinal Image.hasOrdinal
      by_cases h : libOrdinal < 1 ∨ (I.ndylibs : ℤ) < libOrdinal
      · have hno : ¬(decide (1 ≤ libOrdinal) && decide (libOrdinal ≤ (I.ndylibs : ℤ))) = true := by
          simp only [Bool.and_eq_true, decide_eq_true_eq]
          omega
        rw [if_pos h, if_neg hno]
        exact definition_stub E _
      · have hin : (decide (1 ≤ libOrdinal) && decide (libOrdinal ≤ (I.ndylibs : ℤ))) = true := by
          simp only [Bool.and_eq_true, decide_eq_true_eq]
          omega
        rw [if_neg h, if_pos hin]
        exact resolveInDylib_definition E _ name _ weak addend _

end Kinds

namespace Bind
variable (E : Env) (I : Image) (s : ResolverState) (b : Bind)

def target : Target :=
  if I.isDeferred b.libOrdinal then (allocReturn0Stub E s).1
  else (resolveBindByName E I b.libOrdinal b.symName b.weak b.addend (touchOrdinal I b.libOrdinal s)).1

/-- The definition a bind comes to, from the lookups and the room in the pools. -/
def kind? : Option Kind :=
  if I.isDeferred b.libOrdinal then none else byNameKind E s I b.libOrdinal b.symName b.addend

/-- The bind writes no byte of the slot `a`. -/
def Misses (a : Addr) : Prop := ∀ addr, I.slot? b.cursor = some addr → Apart a 8 addr 8

end Bind

section Targets
variable {E : Env} {I : Image}

theorem byNameKind_touchOrdinal (E : Env) (I : Image) (libOrdinal n : ℤ) (s : ResolverState) (name : Name)
    (addend : BitVec 64) :
    byNameKind E (touchOrdinal I n s) I libOrdinal name addend = byNameKind E s I libOrdinal name addend := by
  unfold touchOrdinal
  split <;> rfl

theorem Bind.target_definition (s : ResolverState) (b : Bind) : (b.target E I s).definition = b.kind? E I s := by
  unfold target kind?
  split
  · exact definition_stub E s
  · rw [resolveBindByName_definition, byNameKind_touchOrdinal]

theorem allocReturn0Stub_congr (s s' : ResolverState) (h : s'.used = s.used) :
    (allocReturn0Stub E s').1 = (allocReturn0Stub E s).1 := by
  have hiff : HasRoom E .return0 s' ↔ HasRoom E .return0 s := by
    unfold HasRoom
    rw [h]
  unfold allocReturn0Stub
  by_cases hr : HasRoom E .return0 s
  · obtain ⟨base,hb,ha⟩ := alloc_of_hasRoom hr
    obtain ⟨base',hb',ha'⟩ := alloc_of_hasRoom (hiff.mpr hr)
    obtain rfl : base = base' := Option.some.inj (hb.symm.trans hb')
    rw [ha, ha', h]
  · rw [alloc_of_not_hasRoom hr, alloc_of_not_hasRoom fun h => hr (hiff.mp h)]

theorem doBindOne_target (s : ResolverState) (b : Bind) {a : Addr} (h : I.slot? b.cursor = some a) :
    (doBindOne E I s b).mem = store s.mem a 8 ((b.target E I s).addr E) := by
  have ht := Quiet.touchOrdinal I b.libOrdinal s
  have hu : (touchOrdinal I b.libOrdinal s).used = s.used := by
    unfold touchOrdinal
    split <;> rfl
  unfold doBindOne Bind.target
  rw [h]
  dsimp only
  split
  · unfold deferBind
    dsimp only
    have hq := fun g => Quiet.allocReturn0Stub E { touchOrdinal I b.libOrdinal s with deferred := g }
    have ha := fun g => allocReturn0Stub_congr (E := E) s { touchOrdinal I b.libOrdinal s with deferred := g } hu
    change store _ a 8 _ = _
    rw [(hq _).mem, ha]
    exact congrArg (store · a 8 _) ht.mem
  · have hq := ht.trans (Quiet.resolveBindByName E I b.libOrdinal b.symName b.weak b.addend _)
    exact congrArg (store · a 8 _) hq.mem

theorem load_foldl_misses {a : Addr} (l : List Bind) (s : ResolverState) (h : ∀ b ∈ l, b.Misses I a) :
    load (l.foldl (doBindOne E I) s).mem a 8 = load s.mem a 8 := by
  refine load_congr fun i hi => foldl_doBindOne_outside l s fun c hc addr hs => ?_
  obtain ⟨b,hb,rfl⟩ := List.mem_map.mp hc
  exact (h b hb addr hs).toNat_sub hi

theorem load_foldl_last {a : Addr} {pre post : List Bind} {b : Bind} (s : ResolverState)
    (hs : I.slot? b.cursor = some a)
    (hpost : ∀ c ∈ post, c.Misses I a) :
    load ((pre ++ b :: post).foldl (doBindOne E I) s).mem a 8 =
      (b.target E I (pre.foldl (doBindOne E I) s)).addr E := by
  rw [List.foldl_append, List.foldl_cons, load_foldl_misses post _ hpost, doBindOne_target _ b hs,
    load_store_same _ _ _ _ (by omega)]

end Targets

inductive Adaptation where
  | plain | ctor | variadic | hook
  deriving DecidableEq, Repr

def Kind.adaptation : Kind → Option Adaptation
  | .found _ _ => some .plain
  | .ctorAdapter _ _ => some .ctor
  | .variadicThunk _ _ => some .variadic
  | .hook _ => some .hook
  | .null | .zeroSlot | .return0 => none

/-- The same definition, or one of the same symbol under the same adaptation. -/
def NoWorse (name name' : Name) (k k' : Kind) : Prop := k' = k ∨ name' = name ∧ k'.adaptation = k.adaptation

/-- The binds of the weak and lazy passes. -/
def DyldInfo.laterBinds (D : DyldInfo) : List Bind :=
  (bindsThen (bindStream false D.weakBind) (bindStream true D.lazyBind)).2

theorem DyldInfo.binds_eq {D : DyldInfo} (hr : D.rebases.1) (hb : (bindStream false D.bind).1) :
    D.binds.2 = (bindStream false D.bind).2 ++ D.laterBinds := by
  unfold binds laterBinds bindsThen
  rw [if_pos hr, if_pos hb]
  split
  · rw [List.append_assoc]
  · rfl

section Later
variable (E : Env) (I : Image) (D : DyldInfo) (st : ResolverState)

/-- The state after the rebases, and after the regular pass. -/
def rebased : ResolverState := D.rebases.2.foldl (rebaseOne I) st
def regular : ResolverState := (bindStream false D.bind).2.foldl (doBindOne E I) (rebased I D st)

/-- A slot that the regular pass leaves bound to a definition still holds it in the end, or holds a
definition that is no worse. -/
def NeverWorse : Prop :=
  ∀ pre b post a k, (bindStream false D.bind).2 = pre ++ b :: post → I.slot? b.cursor = some a →
    (∀ c ∈ post, c.Misses I a) →
    (b.target E I (pre.foldl (doBindOne E I) (rebased I D st))).definition = some k →
    (∀ c ∈ D.laterBinds, c.Misses I a) ∧
        load (processDyldInfo E I D st).2.mem a 8 =
          (b.target E I (pre.foldl (doBindOne E I) (rebased I D st))).addr E ∨
      ∃ pre' b' post' k', D.laterBinds = pre' ++ b' :: post' ∧ I.slot? b'.cursor = some a ∧
        (∀ c ∈ post', c.Misses I a) ∧
        (b'.target E I (pre'.foldl (doBindOne E I) (regular E I D st))).definition = some k' ∧
        load (processDyldInfo E I D st).2.mem a 8 =
          (b'.target E I (pre'.foldl (doBindOne E I) (regular E I D st))).addr E ∧
        NoWorse b.symName b'.symName k k'

/-- The last later bind that meets a slot bound by the regular pass names the slot itself, and its own
lookups come to a definition that is no worse. -/
def LaterBindsAgree : Prop :=
  ∀ pre b post a k, (bindStream false D.bind).2 = pre ++ b :: post → I.slot? b.cursor = some a →
    (∀ c ∈ post, c.Misses I a) → b.kind? E I (pre.foldl (doBindOne E I) (rebased I D st)) = some k →
    (∀ c ∈ D.laterBinds, c.Misses I a) ∨
      ∃ pre' b' post' k', D.laterBinds = pre' ++ b' :: post' ∧ I.slot? b'.cursor = some a ∧
        (∀ c ∈ post', c.Misses I a) ∧
        b'.kind? E I (pre'.foldl (doBindOne E I) (regular E I D st)) = some k' ∧ NoWorse b.symName b'.symName k k'

end Later

theorem neverWorse_iff (E : Env) (I : Image) (D : DyldInfo) (st : ResolverState) (hr : D.rebases.1)
    (hb : (bindStream false D.bind).1) : NeverWorse E I D st ↔ LaterBindsAgree E I D st := by
  have hfinal : (processDyldInfo E I D st).2 = D.laterBinds.foldl (doBindOne E I) (regular E I D st) := by
    rw [processDyldInfo_eq, DyldInfo.binds_eq hr hb, List.foldl_append]
    rfl
  unfold NeverWorse LaterBindsAgree
  simp only [Bind.target_definition, hfinal]
  refine forall₅_congr fun pre b post a k => ?_
  refine imp_congr_right fun he => imp_congr_right fun hs => imp_congr_right fun hpost => imp_congr_right fun hk => ?_
  refine or_congr ⟨fun h => h.1,fun h => ⟨h,?_⟩⟩ ?_
  · rw [load_foldl_misses _ _ h, regular, he]
    exact load_foldl_last _ hs hpost
  · refine exists₄_congr fun pre' b' post' k' => ⟨?_,?_⟩
    · rintro ⟨h1,h2,h3,h4,-,h6⟩
      exact ⟨h1,h2,h3,h4,h6⟩
    · rintro ⟨h1,h2,h3,h4,h6⟩
      refine ⟨h1,h2,h3,h4,?_,h6⟩
      rw [h1]
      exact load_foldl_last _ h2 h3

/-- An image with one library, which is mapped, and one page. -/
def fooImage : Image := ⟨0,0x10000,fun _ => ⟨"foo".toList,.map,"foo.so".toList,1,0⟩,1,[⟨0x11000,0x1000⟩]⟩

def fooLibrary : Env := oneLibrary fun n =>
  if n = "_ZN3FooC1Ev".toList then 0x5000 else if n = "puts".toList then 0x6000 else 0

/-- A symbol of library 1, bound at the start of the page and then again by the weak pass. -/
def boundTwice (name : List Byte) : DyldInfo :=
  ⟨some [],some ([0x11,0x40] ++ name ++ [0,0x70,0,0x90]),some ([0x40] ++ name ++ [0,0x70,0,0x90]),some []⟩

def putsBytes : List Byte := [0x5F,0x70,0x75,0x74,0x73]

def ctorBytes : List Byte := [0x5F,0x5F,0x5A,0x4E,0x33,0x46,0x6F,0x6F,0x43,0x31,0x45,0x76]

theorem eq_of_singleton_split {α : Type} {x b : α} {pre post : List α} (h : [x] = pre ++ b :: post) :
    pre = [] ∧ b = x ∧ post = [] := by
  cases pre with
  | nil =>
    cases h
    exact ⟨rfl,rfl,rfl⟩
  | cons y pre =>
    simp at h

theorem neverWorse_puts : NeverWorse fooLibrary fooImage (boundTwice putsBytes) (freshState fun _ => 0) := by
  refine (neverWorse_iff _ _ _ _ (by decide) (by decide)).mpr ?_
  have hreg : (bindStream false (boundTwice putsBytes).bind).2 = [⟨⟨0,0⟩,1,"_puts".toList,false,0⟩] := by decide
  have hlater : (boundTwice putsBytes).laterBinds = [] ++ [⟨⟨0,0⟩,0,"_puts".toList,false,0⟩] := by decide
  intro pre b post a k he hs hpost hk
  rw [hreg] at he
  obtain ⟨rfl,rfl,rfl⟩ := eq_of_singleton_split he
  refine .inr ⟨[],_,[],k,hlater,hs,by simp,?_,.inl rfl⟩
  rw [← hk]
  decide

/-- A constructor is bound to its adapter, and then to itself. -/
theorem weakBind_unwraps_ctor :
    load (regular fooLibrary fooImage (boundTwice ctorBytes) (freshState fun _ => 0)).mem 0x11000 8 = 0x100000 ∧
      load (processDyldInfo fooLibrary fooImage (boundTwice ctorBytes) (freshState fun _ => 0)).2.mem
        0x11000 8 = 0x5000 ∧
      ¬NeverWorse fooLibrary fooImage (boundTwice ctorBytes) (freshState fun _ => 0) := by
  refine ⟨by decide,by decide,fun h => ?_⟩
  have hreg : (bindStream false (boundTwice ctorBytes).bind).2 =
      [] ++ [⟨⟨0,0⟩,1,"__ZN3FooC1Ev".toList,false,0⟩] := by decide
  have hlater : (boundTwice ctorBytes).laterBinds = [⟨⟨0,0⟩,0,"__ZN3FooC1Ev".toList,false,0⟩] := by decide
  have hslot : fooImage.slot? ⟨0,0⟩ = some 0x11000 := by decide
  rcases h [] _ [] 0x11000 (.ctorAdapter 0x5000 0) hreg hslot (by simp) (by decide) with ⟨hmiss,-⟩ | hworse
  · rw [hlater] at hmiss
    have hself : Apart 0x11000 8 0x11000 8 := hmiss _ (List.mem_singleton.mpr rfl) _ hslot
    exact absurd hself (by decide)
  · obtain ⟨pre',b',post',k',he,-,-,hk,-,hno⟩ := hworse
    rw [hlater] at he
    obtain ⟨rfl,rfl,rfl⟩ := eq_of_singleton_split he
    have hplain : k' = .found 0x5000 0 := by
      refine Option.some.inj (hk.symm.trans ?_)
      decide
    subst hplain
    rcases hno with hno | ⟨-,hno⟩
    · cases hno
    · cases hno

end Machismo.Resolver
