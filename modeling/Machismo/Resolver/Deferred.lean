import Machismo.Resolver.Load

/-! # Deferred binds

What the fixups of an image leave in the record of deferred binds, and what the completion makes of
it. The chained path records nothing, and the record holds 512 binds; the rest keep their stubs.
-/
namespace Machismo.Resolver
open A64

/-- The record of a bind, if its library is deferred and its place exists. -/
def Image.deferral (I : Image) (b : Bind) : Option DeferredBind :=
  if I.isDeferred b.libOrdinal then
    (I.slot? b.cursor).map fun addr => ⟨addr,b.symName,b.libOrdinal,b.weak,b.addend⟩
  else none

/-- The same for a fixup on a chain, from its import record. -/
def ChainedFixups.deferral (C : ChainedFixups) (I : Image) (x : Fixup) : Option DeferredBind :=
  if fixupPtrBind x.raw ∧ fixupBindOrdinal x.raw < C.importsCount.toNat then
    (C.readImport (fixupBindOrdinal x.raw)).bind fun imp =>
      if I.isDeferred imp.libOrdinal then
        some ⟨x.loc,C.symbols imp.nameOffset,imp.libOrdinal,imp.weak,
          (fixupBindAddend x.raw).signExtend 64 + imp.addend⟩
      else none
  else none

namespace Deferred
variable (g : Deferred)

/-- As many binds as there is room for are added. -/
def record (l : List DeferredBind) : Deferred :=
  { g with binds := g.binds ++ l.take (maxDeferredBinds - g.binds.length) }

def save (I : Image) : Deferred :=
  if g.active && !g.resolved then
    { g with dylibs := fun i => if i < maxDylibs then I.dylibs i else g.dylibs i, ndylibs := I.ndylibs }
  else g

@[simp] theorem record_nil : g.record [] = g := by simp [record]

theorem record_record (l l' : List DeferredBind) : (g.record l).record l' = g.record (l ++ l') := by
  have hn : maxDeferredBinds - (g.record l).binds.length = maxDeferredBinds - g.binds.length - l.length := by
    simp only [record, List.length_append, List.length_take]
    omega
  rw [record, hn]
  simp only [record, List.take_append, List.append_assoc]

end Deferred

section Record
variable (E : Env) (I : Image)

theorem rebaseOne_deferred (st : ResolverState) (c : Cursor) : (rebaseOne I st c).deferred = st.deferred := by
  unfold rebaseOne
  split <;> rfl

theorem foldl_rebaseOne_deferred (l : List Cursor) (st : ResolverState) :
    (l.foldl (rebaseOne I) st).deferred = st.deferred := by
  induction l generalizing st with
  | nil => rfl
  | cons c l ih => rw [List.foldl_cons, ih, rebaseOne_deferred]

theorem doBindOne_deferred (st : ResolverState) (b : Bind) :
    (doBindOne E I st b).deferred = st.deferred.record (I.deferral b).toList := by
  have ht := Quiet.touchOrdinal I b.libOrdinal st
  unfold doBindOne Image.deferral
  cases I.slot? b.cursor with
  | none => simp
  | some addr =>
    dsimp only
    split
    · unfold deferBind
      dsimp only
      have hq := fun g => Quiet.allocReturn0Stub E { touchOrdinal I b.libOrdinal st with deferred := g }
      refine (hq _).deferred.trans ?_
      rw [ht.deferred]
      simp only [Deferred.record, Option.map_some, Option.toList_some]
      split
      next hlt => rw [List.take_of_length_le (by simp only [List.length_singleton]; omega)]
      next hlt => rw [Nat.sub_eq_zero_of_le (by omega), List.take_zero, List.append_nil]
    · have hq := ht.trans (Quiet.resolveBindByName E I b.libOrdinal b.symName b.weak b.addend _)
      exact hq.deferred.trans (Deferred.record_nil _).symm

theorem foldl_doBindOne_deferred (l : List Bind) (st : ResolverState) :
    (l.foldl (doBindOne E I) st).deferred = st.deferred.record (l.filterMap I.deferral) := by
  induction l generalizing st with
  | nil => simp
  | cons b l ih =>
    rw [List.foldl_cons, ih, doBindOne_deferred, Deferred.record_record]
    cases h : I.deferral b <;> simp [h]

variable {I} in
theorem foldl_apply_deferred {C : ChainedFixups} (l : List Fixup) (st : ResolverState) :
    (l.foldl (Fixup.apply E I C) st).deferred = st.deferred := by
  induction l generalizing st with
  | nil => rfl
  | cons x l ih =>
    rw [List.foldl_cons, ih, Fixup.apply, applyFixup]
    split
    · obtain ⟨_,hq⟩ := Quiet.resolveImport E I C (fixupBindOrdinal x.raw) ((fixupBindAddend x.raw).signExtend 64) st
      exact hq.deferred
    · rfl

end Record

namespace ImageFile
variable (X : ImageFile) (E : Env) (mappings : List Mapping)

def hasFixups : Bool := X.parsed.chained.isSome || X.parsed.dyldInfo.isSome

/-- The fixups are there and can be carried out to the end. -/
def completes : Bool :=
  match X.parsed.chained, X.parsed.dyldInfo with
  | some C, _ => C.isSome
  | none, some D => D.binds.1
  | none, none => false

/-- The binds to deferred libraries that are carried out, in order. -/
def deferrals (fuel : ℕ) (st : ResolverState) : List DeferredBind :=
  match X.parsed.chained, X.parsed.dyldInfo with
  | some (some C), _ => (chainedTrace E (X.image E mappings) C fuel (st.begin (X.defers E mappings))).filterMap
      (C.deferral (X.image E mappings))
  | some none, _ => []
  | none, some D => D.binds.2.filterMap (X.image E mappings).deferral
  | none, none => []

/-- Those of them that are not on a chain. -/
def recordable : List DeferredBind :=
  match X.parsed.chained, X.parsed.dyldInfo with
  | none, some D => D.binds.2.filterMap (X.image E mappings).deferral
  | _, _ => []

/-- What an image does to the record. -/
def defer (g : Deferred) : Deferred :=
  if X.hasFixups then
    let g := { g with active := g.active || X.defers E mappings }.record (X.recordable E mappings)
    if X.completes then g.save (X.image E mappings) else g
  else g

end ImageFile

section Resolve
variable {E : Env} {mappings : List Mapping} {strict : Bool} {fuel : ℕ} {X : ImageFile} {st st' : ResolverState}
    {ok : Bool}

theorem processFixups_deferred (hX : X.hasFixups)
    (h : processFixups E (X.image E mappings) X.parsed fuel st = some (ok,st')) :
    ok = X.completes ∧ st'.deferred = st.deferred.record (X.recordable E mappings) := by
  unfold processFixups at h
  unfold ImageFile.hasFixups at hX
  unfold ImageFile.completes ImageFile.recordable
  cases hC : X.parsed.chained with
  | some C =>
    rw [hC] at h
    cases C with
    | none =>
      cases h
      simp
    | some C =>
      obtain ⟨st₁,h₁,h₂⟩ := Option.map_eq_some_iff.mp h
      cases h₂
      rw [processChainedFixups_eq_foldl h₁, foldl_apply_deferred]
      simp
  | none =>
    rw [hC] at h hX
    cases hD : X.parsed.dyldInfo with
    | none => simp [hD] at hX
    | some D =>
      rw [hD] at h
      simp only [processDyldInfo_eq, Option.some.injEq, Prod.mk.injEq] at h
      obtain ⟨rfl,rfl⟩ := h
      rw [foldl_doBindOne_deferred, foldl_rebaseOne_deferred]
      exact ⟨rfl,rfl⟩

theorem saveDylibs_deferred (I : Image) (st : ResolverState) :
    (saveDylibs I st).deferred = st.deferred.save I := by
  unfold saveDylibs Deferred.save
  split <;> rfl

theorem resolveFixups_deferred (h : resolveFixups E mappings strict fuel X st = some (ok,st')) :
    st'.deferred = X.defer E mappings st.deferred := by
  unfold resolveFixups at h
  unfold ImageFile.defer
  dsimp only at h
  split at h
  next hX =>
    cases h
    have hno : X.hasFixups = false := by simpa [ImageFile.hasFixups] using hX
    simp [hno, ResolverState.begin]
  next hX =>
    have hyes : X.hasFixups = true := by
      cases hC : X.parsed.chained <;> cases hD : X.parsed.dyldInfo <;> simp [ImageFile.hasFixups, hC, hD] at hX ⊢
    obtain ⟨⟨ok₁,st₁⟩,h₁,h₂⟩ := Option.map_eq_some_iff.mp h
    obtain ⟨rfl,hd⟩ := processFixups_deferred hyes h₁
    rw [if_pos hyes]
    have hb : (st.begin (X.defers E mappings)).deferred =
        { st.deferred with active := st.deferred.active || X.defers E mappings } := rfl
    cases hc : X.completes with
    | false =>
      simp only [hc, Bool.false_eq_true, ↓reduceIte, Prod.mk.injEq] at h₂
      rw [← h₂.2, hd, hb]
      simp
    | true =>
      simp only [hc, ↓reduceIte, Prod.mk.injEq] at h₂
      rw [← h₂.2, saveDylibs_deferred, hd, hb]
      simp

end Resolve

/-- A table entry after the loop that opens deferred libraries. -/
def DylibEntry.opened (E : Env) (de : DylibEntry) : DylibEntry :=
  if de.action = .deferred then
    if E.dlopen de.soPath = 0 then { de with handle := 0 } else { de with handle := E.dlopen de.soPath, action := .map }
  else de

/-- The definition the completion of a bind finds in a library. -/
def deferredLookup (E : Env) (handle : Handle) (symName : Name) : Addr :=
  let lookup := linuxLookupName symName 256
  if lookupMapped E handle lookup = 0 then E.dlsym rtldDefault lookup else lookupMapped E handle lookup

/-- The handle a deferred bind is looked up with. -/
def lookedUpIn (E : Env) (g : Deferred) (db : DeferredBind) : Handle :=
  let i := (db.libOrdinal - 1).toNat
  if i < g.ndylibs then ((g.dylibs i).opened E).handle else (g.dylibs i).handle

section Completion
variable {E : Env}

theorem DylibEntry.opened_handle {de : DylibEntry} (h : de.action = .deferred) :
    (de.opened E).handle = E.dlopen de.soPath := by
  unfold opened
  rw [if_pos h]
  split
  next h0 => exact h0.symm
  next => rfl

theorem openDeferred_eq (st : ResolverState) (i : ℕ) :
    openDeferred E st i = { st with
      touched := st.touched ++ [i]
      deferred := { st.deferred with
        dylibs := Function.update st.deferred.dylibs i ((st.deferred.dylibs i).opened E) } } := by
  unfold openDeferred DylibEntry.opened
  dsimp only [ResolverState.touch]
  split
  · rfl
  · rw [Function.update_eq_self]

theorem foldl_openDeferred (n : ℕ) (st : ResolverState) :
    (List.range n).foldl (openDeferred E) st = { st with
      touched := st.touched ++ List.range n
      deferred := { st.deferred with
        dylibs := fun i => if i < n then (st.deferred.dylibs i).opened E else st.deferred.dylibs i } } := by
  induction n with
  | zero => simp
  | succ n ih =>
    rw [List.range_succ, List.foldl_append, ih, List.foldl_cons, List.foldl_nil, openDeferred_eq]
    simp only [List.append_assoc, Nat.lt_irrefl, ↓reduceIte]
    congr
    funext i
    by_cases hi : i = n
    · subst hi
      simp
    · have hlt : i < n + 1 ↔ i < n := by omega
      simp only [Function.update_of_ne hi, hlt]

theorem completeBind_eq (st : ResolverState) (db : DeferredBind) :
    completeBind E st db =
      let i := (db.libOrdinal - 1).toNat
      let handle := (st.deferred.dylibs i).handle
      if handle = 0 ∨ deferredLookup E handle db.symName = 0 then st.touch i
      else
        let r := bindCtor E db.symName (deferredLookup E handle db.symName) db.addend (st.touch i)
        r.2.write db.gotSlot (r.1.addr E) := by
  unfold completeBind
  change (if _ then _ else if deferredLookup E _ _ = 0 then _ else _) = _
  dsimp only
  by_cases h0 : (st.deferred.dylibs (db.libOrdinal - 1).toNat).handle = 0
  · exact (if_pos h0).trans (if_pos (Or.inl h0)).symm
  · by_cases h1 : deferredLookup E (st.deferred.dylibs (db.libOrdinal - 1).toNat).handle db.symName = 0
    · exact (if_neg h0).trans ((if_pos h1).trans (if_pos (Or.inr h1)).symm)
    · exact (if_neg h0).trans ((if_neg h1).trans (if_neg (not_or.mpr ⟨h0,h1⟩)).symm)

theorem alloc_used {p q : Pool} {a : Addr} {st st' : ResolverState} (h : alloc E p st = some (a,st')) :
    st'.used q ≤ st.used q + p.slotSize := by
  obtain ⟨base,-,h⟩ := Option.bind_eq_some_iff.mp h
  split at h
  · cases h
    by_cases hq : q = p
    · subst hq
      simp
    · simp [Function.update_of_ne hq]
  · cases h

theorem bindCtor_used (name : Name) (sym : Addr) (addend : BitVec 64) (st : ResolverState) :
    (bindCtor E name sym addend st).2.used .ctor ≤ st.used .ctor + 32 := by
  unfold bindCtor wrapCtorForAppleAbi
  split
  · split
    next h => exact alloc_used h
    next => exact Nat.le_add_right _ _
  · exact Nat.le_add_right _ _

/-- What the completion of other binds leaves of the state. -/
structure Completes (k : ℕ) (l : List Addr) (st st' : ResolverState) : Prop where
  deferred : st'.deferred = st.deferred
  used : st'.used .ctor ≤ st.used .ctor + 32*k
  load : ∀ a, (∀ b ∈ l, Apart a 8 b 8) → load st'.mem a 8 = load st.mem a 8

theorem completeBind_completes (st : ResolverState) (db : DeferredBind) :
    Completes 1 [db.gotSlot] st (completeBind E st db) := by
  rw [completeBind_eq]
  dsimp only
  split
  · exact ⟨rfl,Nat.le_add_right _ _,fun _ _ => rfl⟩
  · have hq := Quiet.bindCtor E db.symName
      (deferredLookup E (st.deferred.dylibs (db.libOrdinal - 1).toNat).handle db.symName) db.addend
      (st.touch (db.libOrdinal - 1).toNat)
    refine ⟨hq.deferred,bindCtor_used ..,fun a ha => ?_⟩
    refine (load_store_apart _ _ (ha _ (by simp))).trans ?_
    rw [hq.mem]
    rfl

theorem foldl_completeBind_completes (l : List DeferredBind) (st : ResolverState) :
    Completes l.length (l.map DeferredBind.gotSlot) st (l.foldl (completeBind E) st) := by
  induction l generalizing st with
  | nil => exact ⟨rfl,Nat.le_add_right _ _,fun _ _ => rfl⟩
  | cons db l ih =>
    have h1 := completeBind_completes (E := E) st db
    have h2 := ih (completeBind E st db)
    refine ⟨h2.deferred.trans h1.deferred,?_,fun a ha => ?_⟩
    · have hu1 := h1.used
      have hu2 := h2.used
      rw [List.foldl_cons, List.length_cons]
      omega
    · rw [List.foldl_cons, h2.load a fun b hb => ha b (by simp only [List.map_cons, List.mem_cons, hb, or_true]),
        h1.load a fun b hb => ha b (by simp only [List.map_cons, List.mem_cons, List.mem_singleton.mp hb, true_or])]

/-- A recorded bind whose library opens and has the symbol ends as that definition, unless a later bind
shares its slot. -/
theorem completeDeferred_load {st : ResolverState} (hr : st.deferred.resolved = false) {pre post : List DeferredBind}
    {db : DeferredBind} (hb : st.deferred.binds = pre ++ db :: post)
    (hpost : ∀ d ∈ post, Apart db.gotSlot 8 d.gotSlot 8)
    (hh : lookedUpIn E st.deferred db ≠ 0) (hs : deferredLookup E (lookedUpIn E st.deferred db) db.symName ≠ 0) :
    ∃ s, s.used .ctor ≤ st.used .ctor + 32*pre.length ∧
      load (completeDeferred E st).mem db.gotSlot 8 =
        (bindCtor E db.symName (deferredLookup E (lookedUpIn E st.deferred db) db.symName) db.addend s).1.addr E := by
  unfold completeDeferred
  rw [hr]
  simp only [Bool.false_eq_true, ↓reduceIte, foldl_openDeferred, hb, List.foldl_append, List.foldl_cons]
  generalize hst₁ : ({ st with touched := _, deferred := _ } : ResolverState) = st₁
  have hpre := foldl_completeBind_completes (E := E) pre st₁
  have hpo := fun s => foldl_completeBind_completes (E := E) post s
  have hT : ((pre.foldl (completeBind E) st₁).deferred.dylibs (db.libOrdinal - 1).toNat).handle =
      lookedUpIn E st.deferred db := by
    rw [hpre.deferred, ← hst₁, lookedUpIn]
    dsimp only
    split <;> rfl
  rw [(hpo _).load _ (by simpa only [List.forall_mem_map] using hpost), completeBind_eq]
  dsimp only
  rw [hT, if_neg (not_or.mpr ⟨hh,hs⟩)]
  refine ⟨_,?_,load_store_same _ _ _ _ (by omega)⟩
  have hu : st₁.used .ctor = st.used .ctor := by rw [← hst₁]
  rw [← hu]
  exact hpre.used

end Completion

/-! ## Images whose deferred binds are all completed -/

/-- Every bind to a deferred library is recorded; where the library then opens and has the symbol, its
slot ends as the definition, behind an adapter for a constructor. -/
structure DeferralsHonoured (E : Env) (mappings : List Mapping) (fuel : ℕ) (X : ImageFile) (st st' : ResolverState) :
    Prop where
  recorded : st'.deferred.binds = st.deferred.binds ++ X.deferrals E mappings fuel st
  completed (E' : Env) (pre post : List DeferredBind) (db : DeferredBind)
    (he : X.deferrals E mappings fuel st = pre ++ db :: post) (hpost : ∀ d ∈ post, Apart db.gotSlot 8 d.gotSlot 8)
    (ho : db.libOrdinal ≤ (maxDylibs : ℤ)) (handle : Handle)
    (hh : handle = E'.dlopen ((X.image E mappings).dylibs (db.libOrdinal - 1).toNat).soPath) (h0 : handle ≠ 0)
    (hs : deferredLookup E' handle db.symName ≠ 0) :
    ∃ s, s.used .ctor ≤ st'.used .ctor + 32*st'.deferred.binds.length ∧
      load (completeDeferred E' st').mem db.gotSlot 8 =
        (bindCtor E' db.symName (deferredLookup E' handle db.symName) db.addend s).1.addr E'

section Honoured
variable {E : Env} {mappings : List Mapping} {strict : Bool} {fuel : ℕ} {X : ImageFile} {st st' : ResolverState}

theorem isDeferred_of_mem {db : DeferredBind} (h : db ∈ X.recordable E mappings) :
    (X.image E mappings).isDeferred db.libOrdinal := by
  unfold ImageFile.recordable at h
  split at h
  · obtain ⟨b,-,hb⟩ := List.mem_filterMap.mp h
    unfold Image.deferral at hb
    split at hb
    next hd =>
      obtain ⟨addr,-,rfl⟩ := Option.map_eq_some_iff.mp hb
      exact hd
    next => cases hb
  · cases h

theorem Image.isDeferred_iff {I : Image} {libOrdinal : ℤ} : I.isDeferred libOrdinal ↔
    1 ≤ libOrdinal ∧ libOrdinal ≤ I.ndylibs ∧ (I.dylibs (libOrdinal - 1).toNat).action = .deferred := by
  simp [isDeferred]

theorem defers_of_isDeferred {libOrdinal : ℤ} (h : (X.image E mappings).isDeferred libOrdinal)
    (ho : libOrdinal ≤ (maxDylibs : ℤ)) : X.defers E mappings := by
  obtain ⟨h1,h2,h3⟩ := Image.isDeferred_iff.mp h
  have hn : libOrdinal ≤ (X.parsed.ndylibs : ℤ) := h2
  unfold ImageFile.defers
  rw [List.any_eq_true]
  refine ⟨(libOrdinal - 1).toNat,List.mem_range.mpr (by omega),?_⟩
  rw [h3]
  rfl

theorem resolveFixups_completes (h : resolveFixups E mappings strict fuel X st = some (true,st')) (hX : X.hasFixups) :
    X.completes := by
  unfold resolveFixups at h
  dsimp only at h
  split at h
  next hno =>
    have : X.hasFixups = false := by simpa [ImageFile.hasFixups] using hno
    simp [this] at hX
  next =>
    obtain ⟨⟨ok₁,st₁⟩,h₁,h₂⟩ := Option.map_eq_some_iff.mp h
    obtain ⟨rfl,-⟩ := processFixups_deferred hX h₁
    cases hc : X.completes with
    | true => rfl
    | false => simp [hc] at h₂

theorem deferrals_of_not_chained (h : X.parsed.chained = none) (fuel : ℕ) (st : ResolverState) :
    X.deferrals E mappings fuel st = X.recordable E mappings := by
  unfold ImageFile.deferrals ImageFile.recordable
  cases hD : X.parsed.dyldInfo <;> simp [h]

theorem recordable_of_chained {C : Option ChainedFixups} (h : X.parsed.chained = some C) :
    X.recordable E mappings = [] := by
  unfold ImageFile.recordable
  simp [h]

theorem hasFixups_of_mem {db : DeferredBind} (h : db ∈ X.recordable E mappings) : X.hasFixups := by
  unfold ImageFile.recordable at h
  split at h
  next hD => simp [ImageFile.hasFixups, hD]
  next => cases h

theorem defer_binds (X : ImageFile) (E : Env) (mappings : List Mapping) (g : Deferred) :
    (X.defer E mappings g).binds =
      g.binds ++ (X.recordable E mappings).take (maxDeferredBinds - g.binds.length) := by
  have hs : ∀ (g : Deferred) (I : Image), (g.save I).binds = g.binds := by
    intro g I
    unfold Deferred.save
    split <;> rfl
  unfold ImageFile.defer
  by_cases hX : X.hasFixups
  · rw [if_pos hX]
    dsimp only
    split
    · rw [hs]
      rfl
    · rfl
  · have hno : X.recordable E mappings = [] := List.eq_nil_iff_forall_not_mem.mpr fun db h => hX (hasFixups_of_mem h)
    rw [if_neg hX, hno]
    simp

theorem defer_resolved (g : Deferred) : (X.defer E mappings g).resolved = g.resolved := by
  unfold ImageFile.defer Deferred.save
  dsimp only
  split
  · split
    · split <;> rfl
    · rfl
  · rfl

theorem lookedUpIn_of_completes (E' : Env) {g : Deferred} {db : DeferredBind} (hX : X.hasFixups) (hc : X.completes)
    (hr : g.resolved = false) (hd : (X.image E mappings).isDeferred db.libOrdinal)
    (ho : db.libOrdinal ≤ (maxDylibs : ℤ)) :
    lookedUpIn E' (X.defer E mappings g) db =
      E'.dlopen ((X.image E mappings).dylibs (db.libOrdinal - 1).toNat).soPath := by
  obtain ⟨h1,h2,h3⟩ := Image.isDeferred_iff.mp hd
  have ha := defers_of_isDeferred hd ho
  have hi : (db.libOrdinal - 1).toNat < maxDylibs := by omega
  have hn : (db.libOrdinal - 1).toNat < (X.image E mappings).ndylibs := by omega
  unfold ImageFile.defer Deferred.save lookedUpIn
  simp only [hX, hc, ha, hr, Deferred.record, ↓reduceIte, Bool.or_true, Bool.not_false, Bool.and_self, hn, hi]
  exact DylibEntry.opened_handle h3

/-- The binds of an image to deferred libraries are all honoured exactly when there are none, or none
is on a chain and the record has room for them. -/
theorem deferralsHonoured_iff (h : resolveFixups E mappings strict fuel X st = some (true,st'))
    (hr : st.deferred.resolved = false) :
    DeferralsHonoured E mappings fuel X st st' ↔
      X.deferrals E mappings fuel st = [] ∨ X.parsed.chained = none ∧
        st.deferred.binds.length + (X.deferrals E mappings fuel st).length ≤ maxDeferredBinds := by
  have hd := resolveFixups_deferred h
  have hb := defer_binds X E mappings st.deferred
  rw [← hd] at hb
  constructor
  · rintro ⟨hrec,-⟩
    have he := List.append_cancel_left (hb.symm.trans hrec)
    cases hC : X.parsed.chained with
    | some C =>
      rw [recordable_of_chained hC, List.take_nil] at he
      exact .inl he.symm
    | none =>
      rw [← deferrals_of_not_chained hC fuel st] at he
      have hlen := congrArg List.length he
      rw [List.length_take] at hlen
      by_cases h0 : X.deferrals E mappings fuel st = []
      · exact .inl h0
      · have := List.length_pos_iff.mpr h0
        exact .inr ⟨rfl,by omega⟩
  · rintro (h0 | ⟨hC,hlen⟩)
    · refine ⟨?_,fun E' pre post db he => ?_⟩
      · cases hC : X.parsed.chained with
        | some C => rw [hb, recordable_of_chained hC, h0, List.take_nil]
        | none => rw [hb, ← deferrals_of_not_chained hC fuel st, h0, List.take_nil]
      · rw [h0] at he
        cases pre <;> cases he
    · rw [deferrals_of_not_chained hC fuel st] at hlen
      have hrec : st'.deferred.binds = st.deferred.binds ++ X.recordable E mappings := by
        rw [hb, List.take_of_length_le (by omega)]
      refine ⟨by rw [hrec, deferrals_of_not_chained hC fuel st],fun E' pre post db he hpost ho handle hh h0 hs => ?_⟩
      rw [deferrals_of_not_chained hC fuel st] at he
      have hmem : db ∈ X.recordable E mappings := by
        rw [he]
        simp
      have hX := hasFixups_of_mem hmem
      have hl := lookedUpIn_of_completes E' hX (resolveFixups_completes h hX) hr (isDeferred_of_mem hmem) ho
      rw [← hd, ← hh] at hl
      have hr' : st'.deferred.resolved = false := by rw [hd, defer_resolved, hr]
      rw [he, ← List.append_assoc] at hrec
      obtain ⟨s,hs₁,hs₂⟩ := completeDeferred_load hr' hrec hpost (by rwa [hl]) (by rwa [hl])
      rw [hl] at hs₂
      refine ⟨s,hs₁.trans ?_,hs₂⟩
      simp only [hrec, List.length_append, List.length_cons]
      omega

end Honoured

/-- An image that loads one library, `GL`, and has a page of data. -/
def glImage (fixups : LoadCommand) : ImageFile :=
  ⟨[.dylib "/GL".toList,.segment ⟨0x11000,0x1000⟩,fixups],0,0x10000,fun _ => zeroEntry⟩

def glMappings : List Mapping := [⟨"GL".toList,"DEFERRED:gl".toList⟩]

/-- The symbol `_f` of library 1, bound at the start of the page. -/
def glBind : LoadCommand := .dyldInfo ⟨some [],some [0x11,0x40,0x5F,0x66,0,0x70,0,0x90],some [],some []⟩

def glChain : LoadCommand :=
  .chainedFixups (some { oneImport 1#32 "_f".toList with starts := twoFixups.starts })

def glMemory : Memory := store (fun _ => 0) 0x11000 8 (0x8000000000000000#64 : BitVec 64)

theorem exists_of_map_fst {r : Option (Bool × ResolverState)} (h : r.map Prod.fst = some true) :
    ∃ st', r = some (true,st') := by
  obtain ⟨⟨ok,st'⟩,rfl,rfl⟩ := Option.map_eq_some_iff.mp h
  exact ⟨st',rfl⟩

theorem deferralsHonoured_gl :
    ∃ st', resolveFixups printfLibrary glMappings false 1 (glImage glBind) (freshState glMemory) = some (true,st') ∧
      DeferralsHonoured printfLibrary glMappings 1 (glImage glBind) (freshState glMemory) st' := by
  obtain ⟨st',h⟩ := exists_of_map_fst
    (r := resolveFixups printfLibrary glMappings false 1 (glImage glBind) (freshState glMemory)) (by decide)
  exact ⟨st',h,(deferralsHonoured_iff h rfl).mpr (.inr ⟨rfl,by decide⟩)⟩

/-- The same bind on a chain is not recorded. -/
theorem deferral_on_chain_lost :
    ∃ st', resolveFixups printfLibrary glMappings false 1 (glImage glChain) (freshState glMemory) = some (true,st') ∧
      (glImage glChain).deferrals printfLibrary glMappings 1 (freshState glMemory) = [⟨0x11000,"_f".toList,1,false,0⟩] ∧
      st'.deferred.binds = [] ∧
      ¬DeferralsHonoured printfLibrary glMappings 1 (glImage glChain) (freshState glMemory) st' := by
  obtain ⟨st',h⟩ := exists_of_map_fst
    (r := resolveFixups printfLibrary glMappings false 1 (glImage glChain) (freshState glMemory)) (by decide)
  have hd : (glImage glChain).deferrals printfLibrary glMappings 1 (freshState glMemory) =
      [⟨0x11000,"_f".toList,1,false,0⟩] := by decide
  have hb : st'.deferred.binds = [] := by
    rw [resolveFixups_deferred h, defer_binds]
    decide
  refine ⟨st',h,hd,hb,fun hall => ?_⟩
  have hrec := hall.recorded
  rw [hd, hb] at hrec
  exact absurd hrec (by decide)

end Machismo.Resolver
