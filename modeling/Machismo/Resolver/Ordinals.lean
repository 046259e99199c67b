import Machismo.Resolver.Sequence

/-! # Indices into the table of dylibs

The table has room for 64 dylibs, the count goes on. The functions that take an ordinal compare it
with the count, so they stay in the table exactly when the image loads no more than 64 dylibs.
-/
namespace Machismo.Resolver
open A64

/-- The table of dylibs is read only at its own indices between two states. -/
def InTable (st st' : ResolverState) : Prop := ∃ l, st'.touched = st.touched ++ l ∧ ∀ i ∈ l, i < maxDylibs

theorem inTable_iff {st st' : ResolverState} {l : List ℕ} (h : st'.touched = st.touched ++ l) :
    InTable st st' ↔ ∀ i ∈ l, i < maxDylibs := by
  refine ⟨?_,fun hl => ⟨l,h,hl⟩⟩
  rintro ⟨l',h',hl⟩
  obtain rfl := List.append_cancel_left (h'.symm.trans h)
  exact hl

def SavedInTable (g : Deferred) : Prop :=
  g.ndylibs ≤ maxDylibs ∧ ∀ db ∈ g.binds, 1 ≤ db.libOrdinal ∧ db.libOrdinal ≤ (maxDylibs : ℤ)

/-- Every reader of the table stays in it, at the completion too unless earlier images spoiled that, and
an ordinal beyond the table is a failed bind. -/
structure IndicesInTable (E : Env) (mappings : List Mapping) (X : ImageFile) : Prop where
  resolveImport (E' : Env) (C : ChainedFixups) (ordinal : ℕ) (addend : BitVec 64) (st : ResolverState) :
    InTable st (resolveImport E' (X.image E mappings) C ordinal addend st).2
  resolveBindByName (E' : Env) (libOrdinal : ℤ) (name : Name) (weak : Bool) (addend : BitVec 64) (st : ResolverState) :
    InTable st (resolveBindByName E' (X.image E mappings) libOrdinal name weak addend st).2
  doBindOne (E' : Env) (st : ResolverState) (b : Bind) : InTable st (doBindOne E' (X.image E mappings) st b)
  completeDeferred (E' : Env) (strict ok : Bool) (fuel : ℕ) (st st' : ResolverState) (hs : SavedInTable st.deferred)
    (h : resolveFixups E mappings strict fuel X st = some (ok,st')) :
    SavedInTable st'.deferred ∧ InTable st' (completeDeferred E' st')
  reported (E' : Env) (libOrdinal : ℤ) (name : Name) (weak : Bool) (addend : BitVec 64) (st : ResolverState)
    (hl : ((min (X.image E mappings).ndylibs maxDylibs : ℕ) : ℤ) < libOrdinal) (hh : hookOf name = none) :
    (resolveDecoded E' (X.image E mappings) libOrdinal name weak addend st).2.bindsFailed = st.bindsFailed + 1 ∧
      (Resolver.resolveBindByName E' (X.image E mappings) libOrdinal name weak addend st).2.bindsFailed =
        st.bindsFailed + 1

section Small
variable {E : Env} {I : Image} (hI : I.ndylibs ≤ maxDylibs)
include hI

theorem ordinalIndex_lt (libOrdinal : ℤ) : ∀ i ∈ I.ordinalIndex libOrdinal, i < maxDylibs := by
  intro i hi
  unfold Image.ordinalIndex at hi
  split at hi
  · obtain rfl := List.mem_singleton.mp hi
    omega
  · cases hi

theorem readsOf_lt (libOrdinal : ℤ) (name : Name) : ∀ i ∈ readsOf I libOrdinal name, i < maxDylibs := by
  intro i hi
  unfold readsOf at hi
  split at hi
  · cases hi
  · exact ordinalIndex_lt hI libOrdinal i hi

theorem resolveImport_inTable (C : ChainedFixups) (ordinal : ℕ) (addend : BitVec 64) (st : ResolverState) :
    InTable st (resolveImport E I C ordinal addend st).2 := by
  unfold resolveImport
  split
  · exact ⟨[],by simp,by simp⟩
  · split
    · exact ⟨[],by simp,by simp⟩
    · exact ⟨_,(Quiet.resolveDecoded E I _ _ _ _ st).touched,readsOf_lt hI _ _⟩

theorem doBindOne_inTable (st : ResolverState) (b : Bind) : InTable st (doBindOne E I st b) := by
  cases h : I.slot? b.cursor with
  | none =>
    rw [doBindOne_none E I st b h]
    exact ⟨[],by simp,by simp⟩
  | some addr =>
    have ht := Quiet.touchOrdinal I b.libOrdinal st
    have hlt := ordinalIndex_lt hI b.libOrdinal
    unfold doBindOne
    rw [h]
    dsimp only
    split
    · unfold deferBind
      dsimp only
      generalize touchOrdinal I b.libOrdinal st = st₁ at ht
      have hq := fun g => Quiet.allocReturn0Stub E { st₁ with deferred := g }
      refine ⟨_,((hq _).touched.trans ?_),hlt⟩
      rw [List.append_nil]
      exact ht.touched
    · have hq := ht.trans (Quiet.resolveBindByName E I b.libOrdinal b.symName b.weak b.addend _)
      refine ⟨_,hq.touched,fun i hi => ?_⟩
      rcases List.mem_append.mp hi with hi | hi
      · exact hlt i hi
      · exact readsOf_lt hI _ _ i hi

end Small

section Complete
variable {E : Env}

theorem completeBind_touched (st : ResolverState) (db : DeferredBind) :
    (completeBind E st db).touched = st.touched ++ [(db.libOrdinal - 1).toNat] := by
  rw [completeBind_eq]
  dsimp only
  split
  · rfl
  · refine (Quiet.bindCtor E db.symName _ db.addend (st.touch (db.libOrdinal - 1).toNat)).touched.trans ?_
    rw [List.append_nil]
    rfl

theorem foldl_completeBind_touched (l : List DeferredBind) (st : ResolverState) :
    (l.foldl (completeBind E) st).touched = st.touched ++ l.map fun db => (db.libOrdinal - 1).toNat := by
  induction l generalizing st with
  | nil => simp
  | cons db l ih =>
    rw [List.foldl_cons, ih, completeBind_touched, List.map_cons, List.append_assoc, List.singleton_append]

theorem completeDeferred_inTable {st : ResolverState} (h : SavedInTable st.deferred) :
    InTable st (completeDeferred E st) := by
  obtain ⟨hn,hb⟩ := h
  cases hr : st.deferred.resolved with
  | true =>
    rw [completeDeferred, hr]
    exact ⟨[],by simp,by simp⟩
  | false =>
    rw [completeDeferred_eq_openAll hr, openAll, foldl_openDeferred]
    refine ⟨List.range st.deferred.ndylibs ++ st.deferred.binds.map fun db => (db.libOrdinal - 1).toNat,?_,?_⟩
    · rw [foldl_completeBind_touched, List.append_assoc]
    · intro i hi
      simp only [List.mem_append, List.mem_range, List.mem_map] at hi
      rcases hi with hi | ⟨db,hdb,rfl⟩
      · omega
      · have := hb db hdb
        omega

theorem savedInTable_defer {mappings : List Mapping} {X : ImageFile} (hI : (X.image E mappings).ndylibs ≤ maxDylibs)
    {g : Deferred} (h : SavedInTable g) : SavedInTable (X.defer E mappings g) := by
  refine ⟨?_,fun db hdb => ?_⟩
  · have hn := h.1
    unfold ImageFile.defer Deferred.save
    dsimp only
    split
    · split
      · split
        · exact hI
        · exact hn
      · exact hn
    · exact hn
  · rw [defer_binds] at hdb
    rcases List.mem_append.mp hdb with hdb | hdb
    · exact h.2 db hdb
    · have hd := Image.isDeferred_iff.mp (isDeferred_of_mem (List.mem_of_mem_take hdb))
      omega

theorem resolveAll_completeDeferred_inTable {mappings : List Mapping} {strict : Bool} (l : List Loading)
    (hl : ∀ L ∈ l, (L.image mappings).ndylibs ≤ maxDylibs) {st st' : ResolverState} (hs : SavedInTable st.deferred)
    (h : resolveAll mappings strict l st = some st') : InTable st' (completeDeferred E st') := by
  induction l generalizing st with
  | nil =>
    cases h
    exact completeDeferred_inTable hs
  | cons L l ih =>
    obtain ⟨⟨ok,st₁⟩,h₁,h₂⟩ := Option.bind_eq_some_iff.mp h
    refine ih (fun L' hL' => hl L' (by simp [hL'])) ?_ h₂
    rw [resolveFixups_deferred h₁]
    exact savedInTable_defer (hl L (by simp)) hs

end Complete

theorem resolveOrdinal_reported {E : Env} {I : Image} {libOrdinal : ℤ}
    (h : libOrdinal < 1 ∨ (I.ndylibs : ℤ) < libOrdinal)
    (name lookup : Name) (weak : Bool) (addend : BitVec 64) (st : ResolverState) :
    (resolveOrdinal E I libOrdinal name lookup weak addend st).2.bindsFailed = st.bindsFailed + 1 := by
  rw [resolveOrdinal, if_pos h]
  exact (allocReturn0Stub_counters E st.countFailed).2.2

theorem indicesInTable_of_le {E : Env} {mappings : List Mapping} {X : ImageFile}
    (hI : (X.image E mappings).ndylibs ≤ maxDylibs) : IndicesInTable E mappings X where
  resolveImport _ := resolveImport_inTable hI
  resolveBindByName E' libOrdinal name weak addend st :=
    ⟨_,(Quiet.resolveBindByName E' _ libOrdinal name weak addend st).touched,readsOf_lt hI _ _⟩
  doBindOne _ := doBindOne_inTable hI
  completeDeferred E' strict ok fuel st st' hs h := by
    have hs' : SavedInTable st'.deferred := by
      rw [resolveFixups_deferred h]
      exact savedInTable_defer hI hs
    exact ⟨hs',completeDeferred_inTable hs'⟩
  reported E' libOrdinal name weak addend st hlt hh := by
    rw [min_eq_left hI] at hlt
    have h0 : ¬libOrdinal = 0 := by omega
    have h1 : ¬libOrdinal = -1 := by omega
    have h2 : ¬libOrdinal = -2 := by omega
    have h3 : ¬libOrdinal = -3 := by omega
    simp only [resolveDecoded, resolveBindByName, hh, h0, h1, h2, h3, or_self, ↓reduceIte]
    exact ⟨resolveOrdinal_reported (.inr hlt) ..,resolveOrdinal_reported (.inr hlt) ..⟩

theorem readsOf_behind {I : Image} (hI : maxDylibs < I.ndylibs) : readsOf I 65 "_f".toList = [64] := by
  rw [readsOf_of_no_hook (by decide), Image.ordinalIndex, if_pos ⟨by decide,by simp only [maxDylibs] at hI; omega⟩]
  rfl

theorem not_indicesInTable {E : Env} {mappings : List Mapping} {X : ImageFile}
    (hI : maxDylibs < (X.image E mappings).ndylibs) : ¬IndicesInTable E mappings X := by
  intro h
  have hq := Quiet.resolveBindByName E (X.image E mappings) 65 "_f".toList false 0 (freshState fun _ => 0)
  rw [readsOf_behind hI] at hq
  exact absurd ((inTable_iff hq.touched).mp (h.resolveBindByName ..) 64 (by simp)) (by decide)

def LoadCommand.isDylib : LoadCommand → Bool
  | .dylib _ => true
  | _ => false

theorem foldl_parseCommand_ndylibs (l : List LoadCommand) (P : Parsed) :
    (l.foldl parseCommand P).ndylibs = P.ndylibs + (l.filter LoadCommand.isDylib).length := by
  induction l generalizing P with
  | nil => rfl
  | cons c l ih =>
    rw [List.foldl_cons, ih]
    cases c <;> simp [parseCommand, LoadCommand.isDylib, List.filter_cons]
    omega

/-- All readers stay in the table, and report ordinals beyond it, exactly for images that load at most
64 dylibs. -/
theorem indicesInTable_iff (E : Env) (mappings : List Mapping) (X : ImageFile) :
    IndicesInTable E mappings X ↔ (X.commands.filter LoadCommand.isDylib).length ≤ maxDylibs := by
  have hn : (X.image E mappings).ndylibs = (X.commands.filter LoadCommand.isDylib).length :=
    (foldl_parseCommand_ndylibs X.commands _).trans (Nat.zero_add _)
  rw [← hn]
  refine ⟨fun h => ?_,indicesInTable_of_le⟩
  by_contra hlt
  exact not_indicesInTable (not_le.mp hlt) h

/-- An image with 65 dylibs: a bind to the last of them reads behind the table. -/
theorem dylib_65_not_inTable :
    let X : ImageFile := ⟨List.replicate 65 (.dylib "/usr/lib/libz.dylib".toList),0,0x10000,fun _ => zeroEntry⟩
    ¬IndicesInTable printfLibrary [] X ∧
      64 ∈ (resolveBindByName printfLibrary (X.image printfLibrary []) 65 "_f".toList false 0
        (freshState fun _ => 0)).2.touched := by
  intro X
  have hn : maxDylibs < (X.image printfLibrary []).ndylibs := by decide
  refine ⟨not_indicesInTable hn,?_⟩
  rw [(Quiet.resolveBindByName printfLibrary _ 65 "_f".toList false 0 (freshState fun _ => 0)).touched,
    readsOf_behind hn]
  decide

end Machismo.Resolver
