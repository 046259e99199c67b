import Machismo.Trampoline.PatchLib

/-! # The branches a call writes

A symbol that passes the filters is a site. What it needs from the pool depends on how it is redirected:
one island to a native function, two for a report that aborts, and once the shared islands. The
pool is used up in the order of the sites, so it is known beforehand which of them get their branch.
-/
namespace Machismo.Trampoline
open A64 Resolver

inductive Redirect where
  | direct (target : Addr)
  | stub
  | abort (nameAddr : Addr)
  deriving DecidableEq

namespace Redirect

def isStub : Redirect → Bool
  | stub => true
  | _ => false

def isAbort : Redirect → Bool
  | abort _ => true
  | _ => false

end Redirect

structure Site where
  func : Addr
  redirect : Redirect
  deriving DecidableEq

/-- The islands of a list of redirections, given which of the shared islands exist. -/
def islands (stubbed trapped : Bool) (l : List Redirect) : ℕ :=
  l.length + l.countP Redirect.isAbort + (!stubbed && l.any Redirect.isStub).toNat +
    (!trapped && l.any Redirect.isAbort).toNat

namespace State
variable (st : State)

def islandsFor (l : List Redirect) : ℕ := islands st.stubIsland.isSome st.abortCaller.isSome l

/-- The branch at a site that comes after others has room in the pool and reaches its island, the last of
those taken up to there. -/
def Reaches (before : List Site) (site : Site) : Prop :=
  ∃ base, st.pool = some base ∧
    let n := st.islandsFor (before.map Site.redirect ++ [site.redirect])
    st.poolUsed + islandSize*n ≤ st.poolSize ∧
      inBranchRange (branchOffset site.func (base + BitVec.ofNat 64 (st.poolUsed + islandSize*(n-1))))

end State

section Redirecting
variable (E : Env)

def redirectSite (site : Site) (st : State) : Bool × State :=
  match site.redirect with
  | .direct target => writeTrampoline site.func target st
  | .stub =>
    match getStubIsland st with
    | (none,st) => (false,st)
    | (some stub,st) => writeTrampoline site.func stub st
  | .abort nameAddr =>
    match makeAbortIsland E nameAddr st with
    | (none,st) => (false,st)
    | (some island,st) => (false,(writeTrampoline site.func island st).2)

def redirectSites : List Site → State → State
  | [], st => st
  | site :: sites, st => redirectSites sites (redirectSite E site st).2

end Redirecting

/-- What the patcher keeps: the pool is small, and the shared island that aborts is in it. -/
structure State.Ready (st : State) (base : Addr) : Prop where
  pool : st.pool = some base
  size : st.poolSize ≤ 2^26
  caller : ∀ a, st.abortCaller = some a →
    ∃ q ≤ st.poolSize, a = base + BitVec.ofNat 64 q ∧ q % 4 = st.poolUsed % 4

/-- Islands taken and branches written. -/
structure Took (n : ℕ) (stub trap : Bool) (l : List Addr) (st st' : State) : Prop where
  used : st'.poolUsed = st.poolUsed + islandSize*n
  stubbed : st'.stubIsland.isSome = (st.stubIsland.isSome || stub)
  trapped : st'.abortCaller.isSome = (st.abortCaller.isSome || trap)
  written : st'.written = st.written ++ l

/-- The branch a site gets from an island at a place of the pool. -/
def branchAt (base func : Addr) (used : ℕ) : List Addr :=
  if inBranchRange (branchOffset func (base + BitVec.ofNat 64 used)) then [func] else []

section Step
variable {E : Env} {st st' : State} {base : Addr}

theorem reserve_room (hp : st.pool = some base) (h : st.poolUsed + islandSize ≤ st.poolSize) :
    st.reserve = some (base + BitVec.ofNat 64 st.poolUsed) := by
  rw [State.reserve, hp, Option.bind_some, if_pos h]

theorem reserve_full (h : st.poolSize < st.poolUsed + islandSize) : st.reserve = none := by
  unfold State.reserve
  cases st.pool with
  | none => rfl
  | some base => rw [Option.bind_some, if_neg (by omega)]

theorem Took.refl (st : State) : Took 0 false false [] st st :=
  ⟨rfl,(Bool.or_false _).symm,(Bool.or_false _).symm,(List.append_nil _).symm⟩

theorem Took.trans {n n' : ℕ} {s s' t t' : Bool} {l l' : List Addr} {st'' : State} (h : Took n s t l st st')
    (h' : Took n' s' t' l' st' st'') : Took (n + n') (s || s') (t || t') (l ++ l') st st'' where
  used := by rw [h'.used, h.used, Nat.mul_add, Nat.add_assoc]
  stubbed := by rw [h'.stubbed, h.stubbed, Bool.or_assoc]
  trapped := by rw [h'.trapped, h.trapped, Bool.or_assoc]
  written := by rw [h'.written, h.written, List.append_assoc]

theorem took_take (a : Addr) (w₀ w₁ : Word) (q : BitVec 64) : Took 1 false false [] st (st.take a w₀ w₁ q) :=
  ⟨rfl,(Bool.or_false _).symm,(Bool.or_false _).symm,(List.append_nil _).symm⟩

theorem State.Ready.take (hr : st.Ready base) (a : Addr) (w₀ w₁ : Word) (q : BitVec 64) :
    (st.take a w₀ w₁ q).Ready base := by
  refine ⟨hr.pool,hr.size,fun c hc => ?_⟩
  obtain ⟨k,hk,rfl,hmod⟩ := hr.caller c hc
  refine ⟨k,hk,rfl,?_⟩
  simp only [State.take, islandSize]
  omega

theorem writeTrampoline_room (hr : st.Ready base) (h : st.poolUsed + islandSize ≤ st.poolSize) (func native : Addr) :
    Took 1 false false (branchAt base func st.poolUsed) st (writeTrampoline func native st).2 ∧
      (writeTrampoline func native st).2.Ready base := by
  have hready := hr.take (base + BitVec.ofNat 64 st.poolUsed) ldrX16 brX16 native
  unfold writeTrampoline allocIsland branchAt
  rw [reserve_room hr.pool h]
  dsimp only [Option.map_some]
  split
  · exact ⟨⟨rfl,(Bool.or_false _).symm,(Bool.or_false _).symm,rfl⟩,hready.pool,hready.size,hready.caller⟩
  · exact ⟨took_take _ _ _ _,hready⟩

theorem writeTrampoline_full (h : st.poolSize < st.poolUsed + islandSize) (func native : Addr) :
    writeTrampoline func native st = (false,st) := by
  unfold writeTrampoline allocIsland
  rw [reserve_full h]
  rfl

/-- Islands before the one of the branch. -/
structure Prepared (n : ℕ) (stub trap : Bool) (base : Addr) (st st' : State) : Prop where
  took : Took n stub trap [] st st'
  ready : st'.Ready base
  poolSize : st'.poolSize = st.poolSize

theorem Prepared.trans {n k : ℕ} {s t u v : Bool} {st'' : State} (h : Prepared n s t base st st')
    (h' : Prepared k u v base st' st'') : Prepared (n + k) (s || u) (t || v) base st st'' :=
  ⟨h.took.trans h'.took,h'.ready,h'.poolSize.trans h.poolSize⟩

theorem Prepared.write {n : ℕ} {s t : Bool} (hp : Prepared n s t base st st')
    (h : st.poolUsed + islandSize*(n + 1) ≤ st.poolSize) (func native : Addr) :
    Took (n + 1) s t (branchAt base func (st.poolUsed + islandSize*n)) st (writeTrampoline func native st').2 ∧
      (writeTrampoline func native st').2.Ready base := by
  have hroom : st'.poolUsed + islandSize ≤ st'.poolSize := by
    rw [hp.took.used, hp.poolSize]
    rw [Nat.mul_succ] at h
    omega
  obtain ⟨htook,hready⟩ := writeTrampoline_room hp.ready hroom func native
  have hboth := hp.took.trans htook
  rw [hp.took.used, List.nil_append, Bool.or_false, Bool.or_false] at hboth
  exact ⟨hboth,hready⟩

theorem Prepared.full {n : ℕ} {s t : Bool} (hp : Prepared n s t base st st')
    (h : st.poolSize < st.poolUsed + islandSize*(n + 1)) :
    st'.written = st.written ∧ st'.poolSize < st'.poolUsed + islandSize ∧ st'.Ready base := by
  rw [hp.took.written, hp.took.used, hp.poolSize]
  rw [Nat.mul_succ] at h
  exact ⟨List.append_nil _,by omega,hp.ready⟩

theorem getStubIsland_room (hr : st.Ready base)
    (h : st.stubIsland = none → st.poolUsed + islandSize ≤ st.poolSize) :
    ∃ a st', getStubIsland st = (some a,st') ∧
      Prepared (if st.stubIsland.isSome then 0 else 1) true false base st st' := by
  unfold getStubIsland
  cases hs : st.stubIsland with
  | some a =>
    refine ⟨a,st,rfl,⟨rfl,?_,(Bool.or_false _).symm,(List.append_nil _).symm⟩,hr,rfl⟩
    rw [hs]
    rfl
  | none =>
    have hready := hr.take (base + BitVec.ofNat 64 st.poolUsed) 0x52800000 0xD65F03C0 0xD503201FD503201F
    rw [reserve_room hr.pool (h hs)]
    refine ⟨_,_,rfl,⟨rfl,?_,(Bool.or_false _).symm,(List.append_nil _).symm⟩,
      ⟨hready.pool,hready.size,hready.caller⟩,rfl⟩
    rw [Bool.or_true]
    rfl

theorem getAbortCaller_room (hr : st.Ready base)
    (h : st.abortCaller = none → st.poolUsed + islandSize ≤ st.poolSize) :
    ∃ a st', getAbortCaller E st = (some a,st') ∧ st'.abortCaller = some a ∧
      Prepared (if st.abortCaller.isSome then 0 else 1) false true base st st' := by
  unfold getAbortCaller
  cases hs : st.abortCaller with
  | some a =>
    refine ⟨a,st,rfl,hs,⟨rfl,(Bool.or_false _).symm,?_,(List.append_nil _).symm⟩,hr,rfl⟩
    rw [hs]
    rfl
  | none =>
    have hroom := h hs
    rw [reserve_room hr.pool hroom]
    refine ⟨_,_,rfl,rfl,⟨rfl,(Bool.or_false _).symm,?_,(List.append_nil _).symm⟩,
      ⟨hr.pool,hr.size,fun a ha => ?_⟩,rfl⟩
    · rw [Bool.or_true]
      rfl
    · cases ha
      refine ⟨st.poolUsed,?_,rfl,?_⟩
      · dsimp only [State.take]
        omega
      · simp only [State.take, islandSize]
        omega

theorem inBranchRange_pool {p q : ℕ} (hp : p ≤ 2^26) (hq : q ≤ 2^26) (hmod : q % 4 = p % 4) :
    inBranchRange (branchOffset (base + BitVec.ofNat 64 p + 4) (base + BitVec.ofNat 64 q)) := by
  have hoff : branchOffset (base + BitVec.ofNat 64 p + 4) (base + BitVec.ofNat 64 q) = (q : ℤ) - p - 4 := by
    have hsub : base + BitVec.ofNat 64 q - (base + BitVec.ofNat 64 p + 4) =
        BitVec.ofNat 64 q - BitVec.ofNat 64 (p + 4) := by
      rw [BitVec.add_assoc, add_sub_add_left_eq_sub, BitVec.ofNat_add]
      rfl
    rw [branchOffset, hsub, BitVec.toInt_sub, BitVec.toInt_eq_toNat_bmod, BitVec.toInt_eq_toNat_bmod,
      BitVec.toNat_ofNat, BitVec.toNat_ofNat, Int.bmod_def, Int.bmod_def, Int.bmod_def]
    omega
  rw [hoff, inBranchRange_iff]
  omega

theorem makeAbortIsland_room (hr : st.Ready base) (nameAddr : Addr)
    (h : st.poolUsed + islandSize*((if st.abortCaller.isSome then 0 else 1) + 1) ≤ st.poolSize) :
    ∃ a st', makeAbortIsland E nameAddr st = (some a,st') ∧
      Prepared ((if st.abortCaller.isSome then 0 else 1) + 1) false true base st st' := by
  rw [Nat.mul_succ] at h
  have hcaller : st.abortCaller = none → st.poolUsed + islandSize ≤ st.poolSize := fun _ => by omega
  obtain ⟨c,st₁,hcall,hc,hprep⟩ := getAbortCaller_room (E := E) hr hcaller
  obtain ⟨q,hq,rfl,hmod⟩ := hprep.ready.caller c hc
  have hsize := hprep.ready.size
  have hroom : st₁.poolUsed + islandSize ≤ st₁.poolSize := by
    rw [hprep.took.used, hprep.poolSize]
    omega
  unfold makeAbortIsland
  rw [hcall]
  dsimp only
  rw [reserve_room hprep.ready.pool hroom]
  dsimp only
  rw [if_pos (inBranchRange_pool (by omega) (by omega) hmod)]
  exact ⟨_,_,rfl,hprep.trans (u := false) (v := false) ⟨took_take _ _ _ _,hprep.ready.take _ _ _ _,rfl⟩⟩

@[simp] theorem islandsFor_direct (target : Addr) : st.islandsFor [.direct target] = 1 := by
  simp [State.islandsFor, islands, Redirect.isStub, Redirect.isAbort]

@[simp] theorem islandsFor_stub : st.islandsFor [.stub] = (if st.stubIsland.isSome then 0 else 1) + 1 := by
  cases h : st.stubIsland <;> simp [State.islandsFor, islands, Redirect.isStub, Redirect.isAbort, h]

@[simp] theorem islandsFor_abort (nameAddr : Addr) :
    st.islandsFor [.abort nameAddr] = (if st.abortCaller.isSome then 0 else 1) + 1 + 1 := by
  cases h : st.abortCaller <;> simp [State.islandsFor, islands, Redirect.isStub, Redirect.isAbort, h]

theorem redirectSite_of_full (h : st.poolSize < st.poolUsed + islandSize) (site : Site) :
    (redirectSite E site st).2 = st := by
  obtain ⟨func,_ | _ | nameAddr⟩ := site
  · simp only [redirectSite, writeTrampoline_full h]
  · simp only [redirectSite, getStubIsland]
    cases st.stubIsland with
    | none => simp only [reserve_full h]
    | some a => simp only [writeTrampoline_full h]
  · simp only [redirectSite]
    have hnone : makeAbortIsland E nameAddr st = (none,st) := by
      unfold makeAbortIsland getAbortCaller
      cases st.abortCaller with
      | none => simp only [reserve_full h]
      | some a => simp only [reserve_full h]
    rw [hnone]

theorem redirectSites_of_full (h : st.poolSize < st.poolUsed + islandSize) (sites : List Site) :
    redirectSites E sites st = st := by
  induction sites with
  | nil => rfl
  | cons site sites ih => rw [redirectSites, redirectSite_of_full h, ih]

theorem redirectSite_room (hr : st.Ready base) (site : Site)
    (h : st.poolUsed + islandSize*st.islandsFor [site.redirect] ≤ st.poolSize) :
    Took (st.islandsFor [site.redirect]) site.redirect.isStub site.redirect.isAbort
        (branchAt base site.func (st.poolUsed + islandSize*(st.islandsFor [site.redirect] - 1)))
        st (redirectSite E site st).2 ∧
      (redirectSite E site st).2.Ready base := by
  obtain ⟨func,target | _ | nameAddr⟩ := site
  · dsimp only at h ⊢
    rw [islandsFor_direct] at h ⊢
    exact Prepared.write ⟨.refl st,hr,rfl⟩ h func target
  · dsimp only at h ⊢
    rw [islandsFor_stub] at h ⊢
    have hroom : st.stubIsland = none → st.poolUsed + islandSize ≤ st.poolSize := by
      intro hnone
      rw [Nat.mul_succ] at h
      omega
    obtain ⟨a,st₁,hstub,hprep⟩ := getStubIsland_room hr hroom
    have hstep : (redirectSite E ⟨func,.stub⟩ st).2 = (writeTrampoline func a st₁).2 := by
      simp only [redirectSite, hstub]
    rw [hstep]
    exact hprep.write h func a
  · dsimp only at h ⊢
    rw [islandsFor_abort] at h ⊢
    obtain ⟨a,st₁,habort,hprep⟩ := makeAbortIsland_room (E := E) hr nameAddr (by
      rw [Nat.mul_succ] at h
      omega)
    have hstep : (redirectSite E ⟨func,.abort nameAddr⟩ st).2 = (writeTrampoline func a st₁).2 := by
      simp only [redirectSite, habort]
    rw [hstep]
    exact hprep.write h func a

theorem redirectSite_tight (hr : st.Ready base) (site : Site)
    (h : st.poolSize < st.poolUsed + islandSize*st.islandsFor [site.redirect]) :
    (redirectSite E site st).2.written = st.written ∧
      (redirectSite E site st).2.poolSize < (redirectSite E site st).2.poolUsed + islandSize ∧
      (redirectSite E site st).2.Ready base := by
  by_cases hfull : st.poolSize < st.poolUsed + islandSize
  · rw [redirectSite_of_full hfull]
    exact ⟨rfl,hfull,hr⟩
  have hone : st.poolUsed + islandSize ≤ st.poolSize := by omega
  obtain ⟨func,target | _ | nameAddr⟩ := site
  · dsimp only at h
    rw [islandsFor_direct] at h
    omega
  · dsimp only at h
    rw [islandsFor_stub] at h
    obtain ⟨a,st₁,hstub,hprep⟩ := getStubIsland_room hr fun _ => hone
    obtain ⟨hwritten,hfull₁,hready⟩ := hprep.full h
    have hstep : (redirectSite E ⟨func,.stub⟩ st).2 = st₁ := by
      simp only [redirectSite, hstub, writeTrampoline_full hfull₁]
    rw [hstep]
    exact ⟨hwritten,hfull₁,hready⟩
  · dsimp only at h
    rw [islandsFor_abort] at h
    by_cases hroom : st.poolUsed + islandSize*((if st.abortCaller.isSome then 0 else 1) + 1) ≤ st.poolSize
    · obtain ⟨a,st₁,habort,hprep⟩ := makeAbortIsland_room (E := E) hr nameAddr hroom
      obtain ⟨hwritten,hfull₁,hready⟩ := hprep.full h
      have hstep : (redirectSite E ⟨func,.abort nameAddr⟩ st).2 = st₁ := by
        simp only [redirectSite, habort, writeTrampoline_full hfull₁]
      rw [hstep]
      exact ⟨hwritten,hfull₁,hready⟩
    · obtain ⟨c,st₁,hcall,-,hprep⟩ := getAbortCaller_room (E := E) hr fun _ => hone
      obtain ⟨hwritten,hfull₁,hready⟩ := hprep.full (not_le.mp hroom)
      have hstep : (redirectSite E ⟨func,.abort nameAddr⟩ st).2 = st₁ := by
        simp only [redirectSite, makeAbortIsland, hcall, reserve_full hfull₁]
      rw [hstep]
      exact ⟨hwritten,hfull₁,hready⟩

theorem patched_redirectSite (site : Site) (st : State) : ∃ l, Patched l st (redirectSite E site st).2 := by
  obtain ⟨func,target | _ | nameAddr⟩ := site
  · exact ⟨_,patched_writeTrampoline func target⟩
  · have hstub : Patched [] st (getStubIsland st).2 := patched_getStubIsland
    unfold redirectSite
    dsimp only
    split
    next heq =>
      rw [heq] at hstub
      exact ⟨_,hstub⟩
    next heq =>
      rw [heq] at hstub
      exact ⟨_,hstub.trans (patched_writeTrampoline _ _)⟩
  · have habort : Patched [] st (makeAbortIsland E nameAddr st).2 := patched_makeAbortIsland nameAddr
    unfold redirectSite
    dsimp only
    split
    next heq =>
      rw [heq] at habort
      exact ⟨_,habort⟩
    next heq =>
      rw [heq] at habort
      exact ⟨_,habort.trans (patched_writeTrampoline _ _)⟩

end Step

theorem islands_cons (s t : Bool) (r : Redirect) (l : List Redirect) :
    islands s t (r :: l) = islands s t [r] + islands (s || r.isStub) (t || r.isAbort) l := by
  unfold islands
  cases s <;> cases t <;> cases hs : r.isStub <;> cases ha : r.isAbort <;> simp [hs, ha] <;> omega

theorem length_le_islands (s t : Bool) (l : List Redirect) : l.length ≤ islands s t l := by
  unfold islands
  omega

section Run
variable {E : Env} {st : State} {base : Addr}

theorem patched_redirectSites (sites : List Site) (st : State) :
    ∃ l, Patched l st (redirectSites E sites st) := by
  induction sites generalizing st with
  | nil => exact ⟨[],.refl st⟩
  | cons site sites ih =>
    obtain ⟨l,hl⟩ := patched_redirectSite (E := E) site st
    obtain ⟨l',hl'⟩ := ih (redirectSite E site st).2
    exact ⟨_,hl.trans hl'⟩

theorem ready_redirectSites (hr : st.Ready base) (sites : List Site) : (redirectSites E sites st).Ready base := by
  induction sites generalizing st with
  | nil => exact hr
  | cons site sites ih =>
    by_cases h : st.poolUsed + islandSize*st.islandsFor [site.redirect] ≤ st.poolSize
    · exact ih (redirectSite_room hr site h).2
    · exact ih (redirectSite_tight hr site (not_le.mp h)).2.2

theorem reaches_cons (hr : st.Ready base) {site : Site}
    (h : st.poolUsed + islandSize*st.islandsFor [site.redirect] ≤ st.poolSize) (before : List Site) (s : Site) :
    st.Reaches (site :: before) s ↔ (redirectSite E site st).2.Reaches before s := by
  obtain ⟨htook,hready⟩ := redirectSite_room (E := E) hr site h
  obtain ⟨_,hpatched⟩ := patched_redirectSite (E := E) site st
  have hsplit := islands_cons st.stubIsland.isSome st.abortCaller.isSome site.redirect
    (before.map Site.redirect ++ [s.redirect])
  have hpos := length_le_islands (st.stubIsland.isSome || site.redirect.isStub)
    (st.abortCaller.isSome || site.redirect.isAbort) (before.map Site.redirect ++ [s.redirect])
  rw [List.length_append, List.length_singleton] at hpos
  unfold State.Reaches
  rw [hpatched.pool, hpatched.poolSize, htook.used]
  unfold State.islandsFor at *
  rw [htook.stubbed, htook.trapped, List.map_cons, List.cons_append, hsplit]
  generalize islands st.stubIsland.isSome st.abortCaller.isSome [site.redirect] = c at *
  generalize islands (st.stubIsland.isSome || site.redirect.isStub) (st.abortCaller.isSome || site.redirect.isAbort)
    (before.map Site.redirect ++ [s.redirect]) = n at *
  have hsub : c + n - 1 = c + (n - 1) := by omega
  dsimp only
  rw [hsub, Nat.mul_add, Nat.mul_add, Nat.add_assoc, Nat.add_assoc]

theorem not_reaches_of_tight (site : Site)
    (h : st.poolSize < st.poolUsed + islandSize*st.islandsFor [site.redirect]) {sites : List Site} :
    ∀ before s after, site :: sites = before ++ s :: after → ¬st.Reaches before s := by
  rintro before s after heq ⟨base,-,hroom,-⟩
  cases before with
  | nil =>
    cases heq
    exact absurd hroom (not_le.mpr h)
  | cons first before =>
    rw [List.cons_append, List.cons.injEq] at heq
    obtain ⟨rfl,-⟩ := heq
    rw [List.map_cons, List.cons_append, State.islandsFor, islands_cons, Nat.mul_add] at hroom
    unfold State.islandsFor at h
    omega

theorem written_redirectSites (hr : st.Ready base) (sites : List Site) :
    ∃ l, (redirectSites E sites st).written = st.written ++ l ∧
      ∀ a, a ∈ l ↔ ∃ before site after, sites = before ++ site :: after ∧ st.Reaches before site ∧ a = site.func := by
  induction sites generalizing st with
  | nil => exact ⟨[],(List.append_nil _).symm,fun a => by simp⟩
  | cons site sites ih =>
    by_cases h : st.poolUsed + islandSize*st.islandsFor [site.redirect] ≤ st.poolSize
    · obtain ⟨htook,hready⟩ := redirectSite_room (E := E) hr site h
      obtain ⟨l,hl,hmem⟩ := ih hready
      refine ⟨_,by rw [redirectSites, hl, htook.written, List.append_assoc],fun a => ?_⟩
      rw [List.mem_append, hmem]
      constructor
      · rintro (ha | ⟨before,s,after,rfl,hreach,rfl⟩)
        · unfold branchAt at ha
          split at ha
          next hrange =>
            rw [List.mem_singleton] at ha
            exact ⟨[],site,sites,rfl,⟨base,hr.pool,h,hrange⟩,ha⟩
          next => cases ha
        · exact ⟨site :: before,s,after,rfl,(reaches_cons hr h before s).mpr hreach,rfl⟩
      · rintro ⟨before,s,after,heq,hreach,rfl⟩
        cases before with
        | nil =>
          cases heq
          obtain ⟨base',hp,-,hrange⟩ := hreach
          obtain rfl : base = base' := Option.some.inj (hr.pool.symm.trans hp)
          have hbranch : branchAt base site.func (st.poolUsed + islandSize*(st.islandsFor [site.redirect] - 1)) =
              [site.func] := if_pos hrange
          rw [hbranch]
          exact .inl (List.mem_singleton_self _)
        | cons first before =>
          rw [List.cons_append, List.cons.injEq] at heq
          obtain ⟨rfl,rfl⟩ := heq
          exact .inr ⟨before,s,after,rfl,(reaches_cons hr h before s).mp hreach,rfl⟩
    · obtain ⟨hwritten,hfull,-⟩ := redirectSite_tight (E := E) hr site (not_le.mp h)
      refine ⟨[],by rw [redirectSites, redirectSites_of_full hfull, hwritten, List.append_nil],fun a => ?_⟩
      simp only [List.not_mem_nil, false_iff]
      rintro ⟨before,s,after,heq,hreach,-⟩
      exact not_reaches_of_tight site (not_le.mp h) before s after heq hreach

end Run

end Machismo.Trampoline
