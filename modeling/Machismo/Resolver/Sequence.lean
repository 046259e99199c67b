import Machismo.Resolver.Deferred

/-! # Several images, one saved table

Deferred binds of all images end up in one record, each with an ordinal of its own image. The table
that the ordinals index at the completion is the one of the image that was saved last.
-/
namespace Machismo.Resolver
open A64

/-- One call of `resolver_resolve_fixups`, with the answers the process gives at the time. -/
structure Loading where
  E : Env
  X : ImageFile
  fuel : ℕ

section
variable (mappings : List Mapping)

def Loading.image (L : Loading) : Image := L.X.image L.E mappings

def resolveAll (strict : Bool) : List Loading → ResolverState → Option ResolverState
  | [], st => some st
  | L :: rest, st => (resolveFixups L.E mappings strict L.fuel L.X st).bind fun r => resolveAll strict rest r.2

/-- The recorded binds, each with the image it comes from. -/
def owners : List Loading → Deferred → List (Image × DeferredBind)
  | [], _ => []
  | L :: rest, g =>
    ((L.X.recordable L.E mappings).take (maxDeferredBinds - g.binds.length)).map (Prod.mk (L.image mappings)) ++
      owners rest (L.X.defer L.E mappings g)

/-- Whether a deferred library has been met, and the image whose table was saved last. -/
def saveStep (s : Bool × Option Image) (L : Loading) : Bool × Option Image :=
  let active := s.1 || (L.X.hasFixups && L.X.defers L.E mappings)
  (active,if L.X.completes && active then some (L.image mappings) else s.2)

def savedImage (l : List Loading) : Option Image := (l.foldl (saveStep mappings) (false,none)).2

end

def openAll (E : Env) (st : ResolverState) : ResolverState :=
  (List.range st.deferred.ndylibs).foldl (openDeferred E) { st with deferred := { st.deferred with resolved := true } }

theorem completeDeferred_eq_openAll {E : Env} {st : ResolverState} (h : st.deferred.resolved = false) :
    completeDeferred E st = st.deferred.binds.foldl (completeBind E) (openAll E st) := by
  unfold completeDeferred
  rw [h]
  simp only [Bool.false_eq_true, ↓reduceIte, foldl_openDeferred, openAll]

theorem openAll_handle (E : Env) (st : ResolverState) (db : DeferredBind) :
    ((openAll E st).deferred.dylibs (db.libOrdinal - 1).toNat).handle = lookedUpIn E st.deferred db := by
  rw [openAll, foldl_openDeferred, lookedUpIn]
  dsimp only
  split <;> rfl

/-- The record as a run leaves it: not completed, with the table of the image saved last. -/
structure Saved (g : Deferred) (s : Bool × Option Image) : Prop where
  resolved : g.resolved = false
  active : g.active = s.1
  ndylibs : g.ndylibs = (s.2.map Image.ndylibs).getD 0
  dylibs : ∀ i < maxDylibs, g.dylibs i = (s.2.map fun J => J.dylibs i).getD zeroEntry

section Run
variable {mappings : List Mapping} {strict : Bool}

theorem hasFixups_of_completes {X : ImageFile} (h : X.completes) : X.hasFixups := by
  unfold ImageFile.completes at h
  unfold ImageFile.hasFixups
  cases hC : X.parsed.chained <;> cases hD : X.parsed.dyldInfo <;> simp_all

theorem Saved.step {g : Deferred} {s : Bool × Option Image} (h : Saved g s) (L : Loading) :
    Saved (L.X.defer L.E mappings g) (saveStep mappings s L) := by
  unfold ImageFile.defer saveStep
  cases hX : L.X.hasFixups with
  | false =>
    have hc : L.X.completes = false := by
      cases hc : L.X.completes with
      | false => rfl
      | true => exact absurd (hasFixups_of_completes hc) (by simp [hX])
    simpa [hc] using h
  | true =>
    simp only [↓reduceIte, Bool.true_and]
    cases hc : L.X.completes with
    | false => exact ⟨h.resolved,congrArg (· || L.X.defers L.E mappings) h.active,h.ndylibs,h.dylibs⟩
    | true =>
      simp only [Deferred.save, Deferred.record, h.active, h.resolved, Bool.not_false, Bool.and_true, Bool.true_and,
        ↓reduceIte]
      cases ha : s.1 || L.X.defers L.E mappings with
      | false => exact ⟨rfl,rfl,h.ndylibs,h.dylibs⟩
      | true => exact ⟨rfl,rfl,rfl,fun i hi => if_pos hi⟩

theorem resolveAll_deferred (l : List Loading) {st st' : ResolverState} {s : Bool × Option Image}
    (hs : Saved st.deferred s)
    (h : resolveAll mappings strict l st = some st') :
    st'.deferred.binds = st.deferred.binds ++ (owners mappings l st.deferred).map Prod.snd ∧
      Saved st'.deferred (l.foldl (saveStep mappings) s) := by
  induction l generalizing st s with
  | nil =>
    cases h
    exact ⟨by simp [owners],hs⟩
  | cons L l ih =>
    obtain ⟨⟨ok,st₁⟩,h₁,h₂⟩ := Option.bind_eq_some_iff.mp h
    have hd := resolveFixups_deferred h₁
    obtain ⟨hb,hsaved⟩ := ih (hd ▸ hs.step L) h₂
    refine ⟨?_,hsaved⟩
    rw [hb, hd, defer_binds, owners, List.map_append, List.map_map, List.append_assoc]
    congr 2
    exact (List.map_id _).symm

theorem saved_freshState (mem : Memory) : Saved (freshState mem).deferred (false,none) := ⟨rfl,rfl,rfl,fun _ _ => rfl⟩

/-- The image saved last has the library at the ordinal, still deferred. -/
def SameLibrary (J : Option Image) (I : Image) (libOrdinal : ℤ) : Prop :=
  ∃ K, J = some K ∧ libOrdinal ≤ K.ndylibs ∧ (K.dylibs (libOrdinal - 1).toNat).action = .deferred ∧
    (K.dylibs (libOrdinal - 1).toNat).soPath = (I.dylibs (libOrdinal - 1).toNat).soPath

/-- The library of an ordinal in a saved table, in every process that completes the binds. -/
theorem lookedUpIn_iff {g : Deferred} {s : Bool × Option Image} (h : Saved g s) {db : DeferredBind}
    (h1 : 1 ≤ db.libOrdinal)
    (ho : db.libOrdinal ≤ (maxDylibs : ℤ)) (I : Image) :
    (∀ E : Env, lookedUpIn E g db = E.dlopen (I.dylibs (db.libOrdinal - 1).toNat).soPath) ↔
      SameLibrary s.2 I db.libOrdinal := by
  have hi : (db.libOrdinal - 1).toNat < maxDylibs := by omega
  have hdylibs := h.dylibs _ hi
  have hn := h.ndylibs
  unfold lookedUpIn
  dsimp only
  constructor
  · intro hall
    -- a process in which every library opens, under a handle that the saved entry does not have
    have hdef : (db.libOrdinal - 1).toNat < g.ndylibs ∧ (g.dylibs (db.libOrdinal - 1).toNat).action = .deferred := by
      by_contra hno
      have hc := hall { oneLibrary fun _ => 0 with dlopen := fun _ => (g.dylibs (db.libOrdinal - 1).toNat).handle + 1 }
      have hop : ∀ E : Env, (if (db.libOrdinal - 1).toNat < g.ndylibs then
          ((g.dylibs (db.libOrdinal - 1).toNat).opened E).handle else (g.dylibs (db.libOrdinal - 1).toNat).handle) =
            (g.dylibs (db.libOrdinal - 1).toNat).handle := by
        intro E
        split
        next hlt => rw [DylibEntry.opened, if_neg fun hd => hno ⟨hlt,hd⟩]
        next => rfl
      rw [hop] at hc
      dsimp only at hc
      bv_omega
    -- and one in which only its own library opens
    have hpath : (g.dylibs (db.libOrdinal - 1).toNat).soPath = (I.dylibs (db.libOrdinal - 1).toNat).soPath := by
      have hc := hall { oneLibrary fun _ => 0 with
        dlopen := fun n => if n = (I.dylibs (db.libOrdinal - 1).toNat).soPath then 1 else 0 }
      rw [if_pos hdef.1, DylibEntry.opened_handle hdef.2] at hc
      by_contra hne
      dsimp only at hc
      rw [if_neg hne, if_pos rfl] at hc
      exact absurd hc (by decide)
    cases hs : s.2 with
    | none =>
      rw [hn, hs] at hdef
      exact absurd hdef.1 (Nat.not_lt_zero _)
    | some K =>
      rw [hs] at hdylibs hn
      simp only [Option.map_some, Option.getD_some] at hdylibs hn
      rw [hdylibs] at hdef hpath
      exact ⟨K,rfl,by omega,hdef.2,hpath⟩
  · rintro ⟨K,hK,hle,hd,hp⟩ E
    rw [hK] at hdylibs hn
    simp only [Option.map_some, Option.getD_some] at hdylibs hn
    rw [if_pos (by omega), hdylibs, DylibEntry.opened_handle hd, hp]

theorem owners_isDeferred (l : List Loading) (g : Deferred) :
    ∀ p ∈ owners mappings l g, p.1.isDeferred p.2.libOrdinal := by
  induction l generalizing g with
  | nil => simp [owners]
  | cons L l ih =>
    intro p hp
    rcases List.mem_append.mp hp with hp | hp
    · obtain ⟨db,hdb,rfl⟩ := List.mem_map.mp hp
      exact isDeferred_of_mem (List.mem_of_mem_take hdb)
    · exact ih _ p hp

/-- After any sequence of images every recorded bind is looked up in the library its own image means
exactly when the image saved last has that library at the same ordinal. -/
theorem deferred_lookups_iff (l : List Loading) (mem : Memory) {st' : ResolverState}
    (h : resolveAll mappings strict l (freshState mem) = some st') :
    st'.deferred.binds = (owners mappings l (freshState mem).deferred).map Prod.snd ∧
      ((∀ p ∈ owners mappings l (freshState mem).deferred, p.2.libOrdinal ≤ (maxDylibs : ℤ) → ∀ E : Env,
          ((openAll E st').deferred.dylibs (p.2.libOrdinal - 1).toNat).handle =
            E.dlopen (p.1.dylibs (p.2.libOrdinal - 1).toNat).soPath) ↔
        ∀ p ∈ owners mappings l (freshState mem).deferred, p.2.libOrdinal ≤ (maxDylibs : ℤ) →
          SameLibrary (savedImage mappings l) p.1 p.2.libOrdinal) := by
  obtain ⟨hb,hs⟩ := resolveAll_deferred l (saved_freshState mem) h
  refine ⟨hb,forall₂_congr fun p hp => forall_congr' fun ho => ?_⟩
  have h1 := (Image.isDeferred_iff.mp (owners_isDeferred l _ p hp)).1
  simp only [openAll_handle]
  exact lookedUpIn_iff hs h1 ho p.1

end Run

/-- An image whose only library is not deferred, and that binds nothing. -/
def zImage : ImageFile :=
  ⟨[.dylib "/z".toList,.dyldInfo ⟨some [],some [],some [],some []⟩],0,0x10000,fun _ => zeroEntry⟩

def glLoading : Loading := ⟨printfLibrary,glImage glBind,1⟩
def zLoading : Loading := ⟨printfLibrary,zImage,1⟩

/-- The bind of the first image. -/
def glOwner : Image × DeferredBind := (glLoading.image glMappings,⟨0x11000,"_f".toList,1,false,0⟩)

theorem deferred_lookups_gl :
    ∃ st', resolveAll glMappings false [zLoading,glLoading] (freshState glMemory) = some st' ∧
      ∀ p ∈ owners glMappings [zLoading,glLoading] (freshState glMemory).deferred, p.2.libOrdinal ≤ (maxDylibs : ℤ) →
        ∀ E : Env, ((openAll E st').deferred.dylibs (p.2.libOrdinal - 1).toNat).handle =
          E.dlopen (p.1.dylibs (p.2.libOrdinal - 1).toNat).soPath := by
  obtain ⟨st',h⟩ := Option.isSome_iff_exists.mp
    (by decide : (resolveAll glMappings false [zLoading,glLoading] (freshState glMemory)).isSome = true)
  refine ⟨st',h,(deferred_lookups_iff _ _ h).2.mpr fun p hp _ => ?_⟩
  have howners : owners glMappings [zLoading,glLoading] (freshState glMemory).deferred = [glOwner] := rfl
  rw [howners, List.mem_singleton] at hp
  subst hp
  exact ⟨glLoading.image glMappings,rfl,by decide,by decide,rfl⟩

/-- In the other order the bind of the first image is looked up in the library of the second. -/
theorem deferred_lookup_in_other_library :
    ∃ st', resolveAll glMappings false [glLoading,zLoading] (freshState glMemory) = some st' ∧
      glOwner ∈ owners glMappings [glLoading,zLoading] (freshState glMemory).deferred ∧
      ((openAll printfLibrary st').deferred.dylibs 0).name = "z".toList ∧
      ((openAll printfLibrary st').deferred.dylibs 0).handle ≠
        printfLibrary.dlopen ((glLoading.image glMappings).dylibs 0).soPath := by
  have howners : owners glMappings [glLoading,zLoading] (freshState glMemory).deferred = [glOwner] := rfl
  have hopened : (resolveAll glMappings false [glLoading,zLoading] (freshState glMemory)).map
      (fun st' => (openAll printfLibrary st').deferred.dylibs 0) = some ⟨"z".toList,.skip,[],0,0⟩ := by decide
  obtain ⟨st',h,he⟩ := Option.map_eq_some_iff.mp hopened
  refine ⟨st',h,by rw [howners]; exact List.mem_singleton.mpr rfl,?_⟩
  rw [he]
  decide

end Machismo.Resolver
