import Machismo.Data.Bytes
import Machismo.Loader.Segments

/-! # Darwin pthread objects in data

Statically initialised pthread objects of a Mach-O image carry a signature. Before the image runs they
are initialised anew, as objects of the native C library. The writable segments of the executable and
those of dylibs are scanned by two loops. The content of a segment is addressed by the distance from
its start; an object at its end may reach beyond it.
-/
namespace Machismo.Loader
open A64 Trampoline Data

def darwinMutexSig : ℕ := 0x32AAABA7
def darwinRmutexSig : ℕ := 0x32AAABA1
def darwinRecursiveMutexSig : ℕ := 0x32AAABA2
def darwinFirstfitMutexSig : ℕ := 0x32AAABA3
def darwinCondSig : ℕ := 0x3CB0B1BB
def darwinRwlockSig : ℕ := 0x2DA8B3B4
def darwinOnceSig : ℕ := 0x30B1BCBA

def darwinMutexSigs : List ℕ := [darwinMutexSig,darwinRmutexSig,darwinRecursiveMutexSig,darwinFirstfitMutexSig]
def darwinSigs : List ℕ := darwinMutexSigs ++ [darwinCondSig,darwinRwlockSig,darwinOnceSig]

inductive PthreadKind where
  | mutex
  | cond
  | rwlock
  | once
  deriving DecidableEq, Repr

/-- The objects the native library initialises: a recursive mutex, a condition variable and a
read-write lock. None of the words of the mutex is a signature of Darwin. -/
structure NativePthread where
  mutex : List Byte
  cond : List Byte
  rwlock : List Byte
  mutex_length : mutex.length = 48
  mutex_quiet : ∀ k < 6, leNat ((mutex.drop (8*k)).take 8) ∉ darwinSigs

/-- The objects of glibc on this architecture. -/
def glibc : NativePthread where
  mutex := List.replicate 16 0 ++ 1 :: List.replicate 31 0
  cond := List.replicate 48 0
  rwlock := List.replicate 56 0
  mutex_length := by decide
  mutex_quiet := by decide

def long (c : Content) (off : ℕ) : ℕ := leNat (bytesFrom c off 8)
def uint32 (c : Content) (off : ℕ) : ℕ := leNat (bytesFrom c off 4)
def memset0 (c : Content) (off n : ℕ) : Content := put c off (List.replicate n 0)

abbrev Fixed := List (ℕ × PthreadKind)

section Model
variable (N : NativePthread)

def tryFixupPthreadAt (c : Content) (off : ℕ) : Option (PthreadKind × Content) :=
  let sig := long c off
  if sig ∈ darwinMutexSigs then some (.mutex,put (memset0 c off 64) off N.mutex)
  else if sig = darwinCondSig then some (.cond,put (memset0 c off 48) off N.cond)
  else if sig = darwinRwlockSig then some (.rwlock,put (memset0 c off 64) off N.rwlock)
  else if sig = darwinOnceSig then some (.once,memset0 c off 16)
  else none

def fixupLoop : ℕ → ℕ → Content → Content × Fixed
  | 0, _, c => (c,[])
  | n + 1, off, c =>
    match tryFixupPthreadAt N c off with
    | some (kind,c) => ((fixupLoop n (off+8) c).1,(off,kind) :: (fixupLoop n (off+8) c).2)
    | none => fixupLoop n (off+8) c

/-- The file-backed part of a segment; the second component tells which objects were initialised. -/
def fixupSegment (seg : SegmentCommand) (c : Content) : Content × Fixed :=
  fixupLoop N (seg.filesize.toNat / 8) 0 c

def dylibFixupLoop (vmsize : ℕ) : ℕ → ℕ → Content → Content × Fixed
  | 0, _, c => (c,[])
  | n + 1, scan, c =>
    if scan + 4 ≤ vmsize then
      if uint32 c scan = darwinMutexSig then
        let r := dylibFixupLoop vmsize n (scan + N.mutex.length) (put c scan N.mutex)
        (r.1,(scan,.mutex) :: r.2)
      else dylibFixupLoop vmsize n (scan+4) c
    else (c,[])

/-- A segment of a dylib; every iteration moves on by at least a word. -/
def dylibFixupSegment (seg : SegmentCommand) (c : Content) : Content × Fixed :=
  dylibFixupLoop N seg.vmsize.toNat (seg.vmsize.toNat / 4) 0 c

def SegmentCommand.writable (seg : SegmentCommand) : Bool := seg.initprot &&& 2 ≠ 0

/-- What a fixup does to the memory of a writable segment. -/
def onSegment (fix : SegmentCommand → Content → Content × Fixed) (slide : Addr) (m : Memory)
    (seg : SegmentCommand) : Memory :=
  if seg.writable then fun a =>
    (fix seg fun i => m (seg.vmaddr + slide + BitVec.ofNat 64 i)).1 (a - (seg.vmaddr + slide)).toNat
  else m

def fixupDarwinPthreadData (H : MachHeader) (slide : Addr) (m : Memory) : Memory :=
  H.segments.foldl (onSegment (fixupSegment N) slide) m

def dylibPthreadFixup (H : MachHeader) (slide : Addr) (m : Memory) : Memory :=
  H.segments.foldl (onSegment (dylibFixupSegment N) slide) m

end Model

/-- The signatures of a segment belong to normal mutexes of the file-backed part, with nothing in the
last 16 of their 64 bytes. -/
def OnlyNormalMutexes (seg : SegmentCommand) (c : Content) : Prop :=
  ∃ objs : List ℕ, objs.Pairwise (fun p q => p + 48 ≤ q) ∧
    (∀ p ∈ objs, 8 ∣ p ∧ p + 8 ≤ seg.filesize.toNat ∧ p + 4 ≤ seg.vmsize.toNat ∧ long c p = darwinMutexSig ∧
      ∀ i, 48 ≤ i → i < 64 → c (p + i) = 0) ∧
    (∀ x, 8 ∣ x → x + 8 ≤ seg.filesize.toNat → long c x ∈ darwinSigs → ∃ p ∈ objs, p ≤ x ∧ x < p + 48) ∧
    ∀ x, 4 ∣ x → x + 4 ≤ seg.vmsize.toNat → uint32 c x = darwinMutexSig → ∃ p ∈ objs, p ≤ x ∧ x < p + 48

section Initialised

/-- A string of bytes put at every one of some places. -/
def putAll (bs : List Byte) (c : Content) (objs : List ℕ) : Content := objs.foldl (fun c p => put c p bs) c

theorem putAll_outside {bs : List Byte} {objs : List ℕ} (c : Content) {x : ℕ}
    (h : ∀ p ∈ objs, x < p ∨ p + bs.length ≤ x) : putAll bs c objs x = c x := by
  induction objs generalizing c with
  | nil => rfl
  | cons p objs ih =>
    have hp := h p List.mem_cons_self
    rw [putAll, List.foldl_cons, ← putAll, ih _ fun q hq => h q (List.mem_cons_of_mem _ hq), put_outside c hp]

theorem putAll_inside {bs : List Byte} {objs : List ℕ} (c : Content) (h : objs.Pairwise fun p q => p + bs.length ≤ q)
    {p i : ℕ} (hp : p ∈ objs) (hi : i < bs.length) : putAll bs c objs (p + i) = bs[i] := by
  induction objs generalizing c with
  | nil => cases hp
  | cons q objs ih =>
    obtain ⟨hq,hobjs⟩ := List.pairwise_cons.mp h
    rw [putAll, List.foldl_cons, ← putAll]
    rcases List.mem_cons.mp hp with rfl | hp
    · rw [putAll_outside _ fun r hr => .inl (by have := hq r hr; omega), put_inside c p hi]
    · exact ih _ hobjs hp

theorem apart_of_mem {n : ℕ} {objs : List ℕ} (h : objs.Pairwise fun p q => p + n ≤ q) {p q : ℕ} (hp : p ∈ objs)
    (hq : q ∈ objs) : p = q ∨ p + n ≤ q ∨ q + n ≤ p := by
  have hpair : objs.Pairwise fun p q => p = q ∨ p + n ≤ q ∨ q + n ≤ p := h.imp fun hpq => .inr (.inl hpq)
  have hflip : objs.Pairwise (flip fun p q => p = q ∨ p + n ≤ q ∨ q + n ≤ p) := h.imp fun hpq => Or.inr (.inr hpq)
  exact hpair.forall_of_forall_of_flip (fun _ _ => .inl rfl) hflip hp hq

end Initialised

section Executable
variable {N : NativePthread}

/-- The 64 bytes of a mutex that has been initialised. -/
def mutexImage (N : NativePthread) : List Byte := N.mutex ++ List.replicate 16 0

theorem length_mutexImage : (mutexImage N).length = 64 := by simp [mutexImage, N.mutex_length]

theorem tryFixupPthreadAt_eq_none {c : Content} {off : ℕ} :
    tryFixupPthreadAt N c off = none ↔ long c off ∉ darwinSigs := by
  simp only [tryFixupPthreadAt, darwinSigs, List.mem_append, List.mem_cons, List.not_mem_nil, or_false, not_or]
  split_ifs <;> simp_all

theorem tryFixupPthreadAt_eq_mutex {c c' : Content} {off : ℕ} :
    tryFixupPthreadAt N c off = some (.mutex,c') ↔ long c off ∈ darwinMutexSigs ∧ c' = put c off (mutexImage N) := by
  have hput : put (memset0 c off 64) off N.mutex = put c off (mutexImage N) := by
    rw [memset0, put_put, N.mutex_length, mutexImage, List.drop_replicate]
  unfold tryFixupPthreadAt
  dsimp only
  rw [hput]
  split_ifs <;> simp_all [eq_comm]

theorem long_put_apart (c : Content) {off x : ℕ} (h : off + 64 ≤ x) :
    long (put c off (mutexImage N)) x = long c x := by
  rw [long, bytesFrom_put_outside c (.inr (by rw [length_mutexImage]; exact h)), long]

theorem long_put_inside (c : Content) {off k : ℕ} (h : k < 8) :
    long (put c off (mutexImage N)) (off + 8*k) ∉ darwinSigs := by
  rw [long, bytesFrom_put_inside c off (by rw [length_mutexImage]; omega), mutexImage]
  by_cases hk : k < 6
  · rw [List.drop_append_of_le_length (by rw [N.mutex_length]; omega),
      List.take_append_of_le_length (by rw [List.length_drop, N.mutex_length]; omega)]
    exact N.mutex_quiet k hk
  · rw [List.drop_append, List.drop_eq_nil_of_le (by rw [N.mutex_length]; omega), N.mutex_length]
    have : k = 6 ∨ k = 7 := by omega
    rcases this with rfl | rfl <;> decide

/-- The objects in the next `n` longs, if they all are mutexes. -/
structure Finds (n off : ℕ) (c : Content) (objs : List ℕ) : Prop where
  apart : objs.Pairwise fun p q => p + 64 ≤ q
  found : ∀ p ∈ objs, off ≤ p ∧ 8 ∣ p - off ∧ p + 8 ≤ off + 8*n ∧ long c p ∈ darwinMutexSigs
  all : ∀ x, off ≤ x → 8 ∣ x - off → x + 8 ≤ off + 8*n → long c x ∈ darwinSigs → ∃ p ∈ objs, p ≤ x ∧ x < p + 64

theorem finds_skip {n off : ℕ} {c : Content} {objs : List ℕ} (h : long c off ∉ darwinSigs) :
    Finds n (off+8) c objs ↔ Finds (n+1) off c objs := by
  constructor
  · intro hf
    refine ⟨hf.apart,fun p hp => ?_,fun x hx hdvd hle hsig => ?_⟩
    · obtain ⟨h1,h2,h3,h4⟩ := hf.found p hp
      exact ⟨by omega,by omega,by omega,h4⟩
    · by_cases hxo : x = off
      · exact absurd (hxo ▸ hsig) h
      · exact hf.all x (by omega) (by omega) (by omega) hsig
  · intro hf
    refine ⟨hf.apart,fun p hp => ?_,fun x hx hdvd hle hsig => ?_⟩
    · obtain ⟨h1,h2,h3,h4⟩ := hf.found p hp
      have hpo : p ≠ off := by
        rintro rfl
        exact h (List.mem_append_left _ h4)
      exact ⟨by omega,by omega,by omega,h4⟩
    · exact hf.all x (by omega) (by omega) (by omega) hsig

theorem finds_cons {n off p : ℕ} {c : Content} {objs : List ℕ} (hsig : long c off ∈ darwinSigs) :
    Finds (n+1) off c (p :: objs) ↔ p = off ∧ long c off ∈ darwinMutexSigs ∧
      Finds n (off+8) (put c off (mutexImage N)) objs := by
  -- behind a mutex that has just been initialised the next signature is 64 bytes away
  have hnext : ∀ x, off + 8 ≤ x → 8 ∣ x - (off+8) → long (put c off (mutexImage N)) x ∈ darwinSigs → off + 64 ≤ x := by
    intro x hx hdvd hx'
    by_contra hlt
    obtain ⟨k,hk⟩ := hdvd
    have hxk : x = off + 8*(k+1) := by omega
    rw [hxk] at hx'
    exact long_put_inside c (by omega) hx'
  constructor
  · intro hf
    obtain ⟨hp,hobjs⟩ := List.pairwise_cons.mp hf.apart
    obtain ⟨q,hq,hqo,-⟩ := hf.all off le_rfl (by simp) (by omega) hsig
    have hpo : p = off := by
      have hp' := (hf.found p List.mem_cons_self).1
      rcases List.mem_cons.mp hq with rfl | hq
      · omega
      · have := hp q hq
        omega
    subst hpo
    refine ⟨rfl,(hf.found p List.mem_cons_self).2.2.2,hobjs,fun q hq => ?_,fun x hx hdvd hle hxsig => ?_⟩
    · obtain ⟨h1,h2,h3,h4⟩ := hf.found q (List.mem_cons_of_mem _ hq)
      have hpq := hp q hq
      exact ⟨by omega,by omega,by omega,by rwa [long_put_apart c hpq]⟩
    · have hfar := hnext x hx hdvd hxsig
      rw [long_put_apart c hfar] at hxsig
      obtain ⟨q,hq,hqx,hxq⟩ := hf.all x (by omega) (by omega) (by omega) hxsig
      rcases List.mem_cons.mp hq with rfl | hq
      · omega
      · exact ⟨q,hq,hqx,hxq⟩
  · rintro ⟨rfl,hmutex,hf⟩
    have hfar : ∀ q ∈ objs, p + 64 ≤ q := by
      intro q hq
      obtain ⟨h1,h2,-,h4⟩ := hf.found q hq
      exact hnext q h1 h2 (List.mem_append_left _ h4)
    refine ⟨List.pairwise_cons.mpr ⟨hfar,hf.apart⟩,?_,fun x hx hdvd hle hxsig => ?_⟩
    · rintro q (_ | ⟨_,hq⟩)
      · exact ⟨le_rfl,by simp,by omega,hmutex⟩
      · obtain ⟨h1,h2,h3,h4⟩ := hf.found q hq
        rw [long_put_apart c (hfar q hq)] at h4
        exact ⟨by omega,by omega,by omega,h4⟩
    · by_cases hxp : x < p + 64
      · exact ⟨p,List.mem_cons_self,hx,hxp⟩
      · have hxsig' : long (put c p (mutexImage N)) x ∈ darwinSigs := by rwa [long_put_apart c (by omega)]
        obtain ⟨q,hq,hqx⟩ := hf.all x (by omega) (by omega) (by omega) hxsig'
        exact ⟨q,List.mem_cons_of_mem _ hq,hqx⟩

theorem fixupLoop_mutexes_iff (n off : ℕ) (c : Content) (objs : List ℕ) :
    (fixupLoop N n off c).2 = objs.map (fun p => (p,PthreadKind.mutex)) ↔ Finds n off c objs := by
  induction n generalizing off c objs with
  | zero =>
    constructor
    · intro h
      rw [List.map_eq_nil_iff.mp h.symm]
      exact ⟨.nil,by simp,fun x _ _ h3 => by omega⟩
    · intro hf
      cases objs with
      | nil => rfl
      | cons p objs =>
        have := hf.found p List.mem_cons_self
        omega
  | succ n ih =>
    unfold fixupLoop
    cases htry : tryFixupPthreadAt N c off with
    | none => rw [ih, finds_skip (tryFixupPthreadAt_eq_none.mp htry)]
    | some r =>
      obtain ⟨kind,c'⟩ := r
      have hsig : long c off ∈ darwinSigs := by
        by_contra hsig
        rw [tryFixupPthreadAt_eq_none.mpr hsig] at htry
        cases htry
      cases objs with
      | nil =>
        constructor
        · intro h
          cases h
        · intro hf
          obtain ⟨p,hp,-⟩ := hf.all off le_rfl (by simp) (by omega) hsig
          cases hp
      | cons p objs =>
        rw [finds_cons (N := N) hsig, List.map_cons, List.cons.injEq, Prod.mk.injEq]
        constructor
        · rintro ⟨⟨rfl,rfl⟩,hrest⟩
          obtain ⟨hmutex,rfl⟩ := tryFixupPthreadAt_eq_mutex.mp htry
          exact ⟨rfl,hmutex,(ih _ _ _).mp hrest⟩
        · rintro ⟨rfl,hmutex,hrest⟩
          rw [tryFixupPthreadAt_eq_mutex.mpr ⟨hmutex,rfl⟩] at htry
          cases htry
          exact ⟨⟨rfl,rfl⟩,(ih _ _ _).mpr hrest⟩

theorem fixupLoop_content {n off : ℕ} {c : Content} {objs : List ℕ}
    (h : (fixupLoop N n off c).2 = objs.map fun p => (p,PthreadKind.mutex)) :
    (fixupLoop N n off c).1 = putAll (mutexImage N) c objs := by
  induction n generalizing off c objs with
  | zero =>
    rw [List.map_eq_nil_iff.mp h.symm]
    rfl
  | succ n ih =>
    unfold fixupLoop at h ⊢
    cases htry : tryFixupPthreadAt N c off with
    | none =>
      rw [htry] at h
      exact ih h
    | some r =>
      rw [htry] at h
      cases objs with
      | nil => cases h
      | cons p objs =>
        obtain ⟨kind,c'⟩ := r
        rw [List.map_cons, List.cons.injEq, Prod.mk.injEq] at h
        obtain ⟨⟨rfl,rfl⟩,hrest⟩ := h
        obtain ⟨-,rfl⟩ := tryFixupPthreadAt_eq_mutex.mp htry
        exact ih hrest

end Executable

/-! ## What the scan of a dylib finds -/

section Dylib
variable {N : NativePthread}

structure DylibFinds (vmsize off : ℕ) (c : Content) (objs : List ℕ) : Prop where
  apart : objs.Pairwise fun p q => p + 48 ≤ q
  found : ∀ p ∈ objs, off ≤ p ∧ 4 ∣ p - off ∧ p + 4 ≤ vmsize ∧ uint32 c p = darwinMutexSig
  all : ∀ x, off ≤ x → 4 ∣ x - off → x + 4 ≤ vmsize → uint32 c x = darwinMutexSig → ∃ p ∈ objs, p ≤ x ∧ x < p + 48

theorem uint32_put_apart (c : Content) {off x : ℕ} (h : off + 48 ≤ x) : uint32 (put c off N.mutex) x = uint32 c x := by
  rw [uint32, bytesFrom_put_outside c (.inr (by rw [N.mutex_length]; exact h)), uint32]

theorem dylibFinds_skip {vmsize off : ℕ} {c : Content} {objs : List ℕ} (h : uint32 c off ≠ darwinMutexSig) :
    DylibFinds vmsize (off+4) c objs ↔ DylibFinds vmsize off c objs := by
  constructor
  · intro hf
    refine ⟨hf.apart,fun p hp => ?_,fun x hx hdvd hle hsig => ?_⟩
    · obtain ⟨h1,h2,h3,h4⟩ := hf.found p hp
      exact ⟨by omega,by omega,h3,h4⟩
    · by_cases hxo : x = off
      · exact absurd (hxo ▸ hsig) h
      · exact hf.all x (by omega) (by omega) hle hsig
  · intro hf
    refine ⟨hf.apart,fun p hp => ?_,fun x hx hdvd hle hsig => ?_⟩
    · obtain ⟨h1,h2,h3,h4⟩ := hf.found p hp
      have hpo : p ≠ off := by
        rintro rfl
        exact h h4
      exact ⟨by omega,by omega,h3,h4⟩
    · exact hf.all x (by omega) (by omega) hle hsig

theorem dylibFinds_cons {vmsize off p : ℕ} {c : Content} {objs : List ℕ} (hsig : uint32 c off = darwinMutexSig)
    (hle : off + 4 ≤ vmsize) :
    DylibFinds vmsize off c (p :: objs) ↔ p = off ∧ DylibFinds vmsize (off+48) (put c off N.mutex) objs := by
  constructor
  · intro hf
    obtain ⟨hp,hobjs⟩ := List.pairwise_cons.mp hf.apart
    obtain ⟨q,hq,hqo,-⟩ := hf.all off le_rfl (by simp) hle hsig
    have hpo : p = off := by
      have hp' := (hf.found p List.mem_cons_self).1
      rcases List.mem_cons.mp hq with rfl | hq
      · omega
      · have := hp q hq
        omega
    subst hpo
    refine ⟨rfl,hobjs,fun q hq => ?_,fun x hx hdvd hle hxsig => ?_⟩
    · obtain ⟨h1,h2,h3,h4⟩ := hf.found q (List.mem_cons_of_mem _ hq)
      have hpq := hp q hq
      exact ⟨hpq,by omega,h3,by rwa [uint32_put_apart c hpq]⟩
    · rw [uint32_put_apart c hx] at hxsig
      obtain ⟨q,hq,hqx,hxq⟩ := hf.all x (by omega) (by omega) hle hxsig
      rcases List.mem_cons.mp hq with rfl | hq
      · omega
      · exact ⟨q,hq,hqx,hxq⟩
  · rintro ⟨rfl,hf⟩
    have hfar : ∀ q ∈ objs, p + 48 ≤ q := fun q hq => (hf.found q hq).1
    refine ⟨List.pairwise_cons.mpr ⟨hfar,hf.apart⟩,?_,fun x hx hdvd hle hxsig => ?_⟩
    · rintro q (_ | ⟨_,hq⟩)
      · exact ⟨le_rfl,by simp,hle,hsig⟩
      · obtain ⟨h1,h2,h3,h4⟩ := hf.found q hq
        rw [uint32_put_apart c h1] at h4
        exact ⟨by omega,by omega,h3,h4⟩
    · by_cases hxp : x < p + 48
      · exact ⟨p,List.mem_cons_self,hx,hxp⟩
      · have hxsig' : uint32 (put c p N.mutex) x = darwinMutexSig := by rwa [uint32_put_apart c (by omega)]
        obtain ⟨q,hq,hqx⟩ := hf.all x (by omega) (by omega) hle hxsig'
        exact ⟨q,List.mem_cons_of_mem _ hq,hqx⟩

theorem dylibFinds_nil {vmsize off : ℕ} {c : Content} {objs : List ℕ} (h : vmsize < off + 4) :
    DylibFinds vmsize off c objs ↔ objs = [] := by
  constructor
  · intro hf
    cases objs with
    | nil => rfl
    | cons p objs =>
      have := hf.found p List.mem_cons_self
      omega
  · rintro rfl
    exact ⟨.nil,by simp,fun x _ _ h3 => by omega⟩

theorem dylibFixupLoop_mutexes_iff (vmsize n off : ℕ) (c : Content) (objs : List ℕ) (hn : vmsize < off + 4*n + 4) :
    (dylibFixupLoop N vmsize n off c).2 = objs.map (fun p => (p,PthreadKind.mutex)) ↔ DylibFinds vmsize off c objs := by
  induction n generalizing off c objs with
  | zero =>
    rw [dylibFinds_nil (by omega), dylibFixupLoop, eq_comm, List.map_eq_nil_iff]
  | succ n ih =>
    unfold dylibFixupLoop
    split_ifs with hle hsig
    · cases objs with
      | nil =>
        constructor
        · intro h
          cases h
        · intro hf
          obtain ⟨p,hp,-⟩ := hf.all off le_rfl (by simp) hle hsig
          cases hp
      | cons p objs =>
        rw [dylibFinds_cons (N := N) hsig hle, List.map_cons, List.cons.injEq, Prod.mk.injEq, N.mutex_length,
          ih _ _ _ (by omega)]
        constructor
        · rintro ⟨⟨rfl,-⟩,hrest⟩
          exact ⟨rfl,hrest⟩
        · rintro ⟨rfl,hrest⟩
          exact ⟨⟨rfl,rfl⟩,hrest⟩
    · rw [ih _ _ _ (by omega), dylibFinds_skip hsig]
    · rw [dylibFinds_nil (by omega), eq_comm, List.map_eq_nil_iff]

theorem dylibFixupLoop_content {vmsize n off : ℕ} {c : Content} {objs : List ℕ}
    (h : (dylibFixupLoop N vmsize n off c).2 = objs.map fun p => (p,PthreadKind.mutex)) :
    (dylibFixupLoop N vmsize n off c).1 = putAll N.mutex c objs := by
  induction n generalizing off c objs with
  | zero =>
    rw [List.map_eq_nil_iff.mp h.symm]
    rfl
  | succ n ih =>
    unfold dylibFixupLoop at h ⊢
    split_ifs at h ⊢ with hle hsig
    · cases objs with
      | nil => cases h
      | cons p objs =>
        rw [List.map_cons, List.cons.injEq, Prod.mk.injEq] at h
        obtain ⟨⟨rfl,-⟩,hrest⟩ := h
        exact ih hrest
    · exact ih h
    · rw [List.map_eq_nil_iff.mp h.symm]
      rfl

theorem dylibFixupLoop_mutexes (vmsize n off : ℕ) (c : Content) :
    ∃ objs : List ℕ, (dylibFixupLoop N vmsize n off c).2 = objs.map fun p => (p,PthreadKind.mutex) := by
  induction n generalizing off c with
  | zero => exact ⟨[],rfl⟩
  | succ n ih =>
    unfold dylibFixupLoop
    split_ifs with hle hsig
    · obtain ⟨objs,hobjs⟩ := ih (off + N.mutex.length) (put c off N.mutex)
      exact ⟨off :: objs,by rw [List.map_cons, ← hobjs]⟩
    · exact ih _ _
    · exact ⟨[],rfl⟩

end Dylib

section Agree
variable {N : NativePthread}

theorem long_eq (c : Content) (off : ℕ) : long c off = uint32 c off + 2^32 * uint32 c (off+4) := by
  rw [long, bytesFrom_add c off 4 4, leNat_append, length_bytesFrom]
  rfl

theorem uint32_of_long {c : Content} {off : ℕ} (h : long c off = darwinMutexSig) : uint32 c off = darwinMutexSig := by
  have hlt := leNat_lt (bytesFrom c off 4)
  rw [length_bytesFrom] at hlt
  rw [long_eq] at h
  unfold uint32 at *
  unfold darwinMutexSig at *
  omega

theorem long_of_uint32 {c : Content} {off : ℕ} (h : long c off ∈ darwinMutexSigs)
    (hlow : uint32 c off = darwinMutexSig) : long c off = darwinMutexSig := by
  have hlong := long_eq c off
  rw [hlow] at hlong
  simp only [darwinMutexSigs, List.mem_cons, List.not_mem_nil, or_false] at h
  unfold darwinMutexSig darwinRmutexSig darwinRecursiveMutexSig darwinFirstfitMutexSig at *
  omega

theorem long_not_mem_of_zero {c : Content} {off : ℕ} (h : c off = 0) : long c off ∉ darwinSigs := by
  have hlong : long c off = 2^8 * leNat (bytesFrom c (off+1) 7) := by
    rw [long, show 8 = 1 + 7 from rfl, bytesFrom_add, leNat_append, length_bytesFrom]
    simp [bytesFrom, leNat, h]
  rw [hlong]
  intro hmem
  simp only [darwinSigs, darwinMutexSigs, darwinMutexSig, darwinRmutexSig, darwinRecursiveMutexSig,
    darwinFirstfitMutexSig, darwinCondSig, darwinRwlockSig, darwinOnceSig, List.cons_append, List.nil_append,
    List.mem_cons, List.not_mem_nil, or_false] at hmem
  omega

theorem putAll_mutexImage {objs : List ℕ} (c : Content) (h : objs.Pairwise fun p q => p + 64 ≤ q) {p i : ℕ}
    (hp : p ∈ objs) (hi : i < 64) :
    putAll (mutexImage N) c objs (p + i) = if 48 ≤ i then 0 else putAll N.mutex c objs (p + i) := by
  have hlen := N.mutex_length
  rw [putAll_inside c (by rwa [length_mutexImage]) hp (by rwa [length_mutexImage])]
  simp only [mutexImage, List.getElem_append]
  split
  next h48 =>
    rw [if_neg (by omega), putAll_inside c (h.imp fun hpq => by omega) hp h48]
  next h48 => rw [if_pos (by omega), List.getElem_replicate]

theorem putAll_mutex_tail {objs : List ℕ} (c : Content) (h : objs.Pairwise fun p q => p + 64 ≤ q) {p i : ℕ}
    (hp : p ∈ objs) (h48 : 48 ≤ i) (hi : i < 64) : putAll N.mutex c objs (p + i) = c (p + i) := by
  refine putAll_outside c fun q hq => ?_
  have hlen := N.mutex_length
  have := apart_of_mem h hp hq
  omega

theorem agree_of_onlyNormalMutexes {seg : SegmentCommand} {c : Content} (h : OnlyNormalMutexes seg c) :
    dylibFixupSegment N seg c = fixupSegment N seg c := by
  obtain ⟨objs,hapart,hfound,hlong,huint⟩ := h
  have hapart64 : objs.Pairwise fun p q => p + 64 ≤ q := by
    refine hapart.imp_of_mem fun {p q} hp hq hpq => ?_
    by_contra hlt
    obtain ⟨i,rfl⟩ := Nat.exists_eq_add_of_le (show p ≤ q by omega)
    have hsig := (hfound _ hq).2.2.2.1
    have hnot := long_not_mem_of_zero ((hfound p hp).2.2.2.2 i (by omega) (by omega))
    rw [hsig] at hnot
    exact hnot (by decide)
  have hmain : Finds (seg.filesize.toNat / 8) 0 c objs := by
    refine ⟨hapart64,fun p hp => ?_,fun x _ hdvd hle hsig => ?_⟩
    · obtain ⟨h8,hfile,-,hsig,-⟩ := hfound p hp
      exact ⟨by omega,by omega,by omega,by rw [hsig]; decide⟩
    · obtain ⟨p,hp,hpx,hxp⟩ := hlong x (by omega) (by omega) hsig
      exact ⟨p,hp,hpx,by omega⟩
  have hdylib : DylibFinds seg.vmsize.toNat 0 c objs := by
    refine ⟨hapart,fun p hp => ?_,fun x _ hdvd hle hsig => ?_⟩
    · obtain ⟨h8,-,hvm,hsig,-⟩ := hfound p hp
      exact ⟨by omega,by omega,hvm,uint32_of_long hsig⟩
    · exact huint x (by omega) hle hsig
  have hmain' := (fixupLoop_mutexes_iff (N := N) _ _ _ _).mpr hmain
  have hdylib' := (dylibFixupLoop_mutexes_iff (N := N) _ (seg.vmsize.toNat / 4) _ _ _ (by omega)).mpr hdylib
  apply Prod.ext
  · rw [dylibFixupSegment, fixupSegment, fixupLoop_content hmain', dylibFixupLoop_content hdylib']
    funext x
    by_cases hx : ∃ p ∈ objs, p ≤ x ∧ x < p + 64
    · obtain ⟨p,hp,hpx,hxp⟩ := hx
      obtain ⟨i,rfl⟩ := Nat.exists_eq_add_of_le hpx
      rw [putAll_mutexImage c hapart64 hp (by omega)]
      split
      next h48 =>
        rw [putAll_mutex_tail c hapart64 hp h48 (by omega), (hfound p hp).2.2.2.2 i h48 (by omega)]
      next => rfl
    · push Not at hx
      rw [putAll_outside c fun p hp => ?_, putAll_outside c fun p hp => ?_]
      · rw [length_mutexImage]
        have := hx p hp
        omega
      · rw [N.mutex_length]
        have := hx p hp
        omega
  · rw [dylibFixupSegment, fixupSegment, hmain', hdylib']

theorem onlyNormalMutexes_of_agree {seg : SegmentCommand} {c : Content}
    (h : dylibFixupSegment N seg c = fixupSegment N seg c) : OnlyNormalMutexes seg c := by
  obtain ⟨objs,hdylib⟩ := dylibFixupLoop_mutexes (N := N) seg.vmsize.toNat (seg.vmsize.toNat / 4) 0 c
  have hmain : (fixupLoop N (seg.filesize.toNat / 8) 0 c).2 = objs.map fun p => (p,PthreadKind.mutex) := by
    rw [← hdylib]
    exact (congrArg Prod.snd h).symm
  have hcontent : putAll N.mutex c objs = putAll (mutexImage N) c objs := by
    rw [← dylibFixupLoop_content hdylib, ← fixupLoop_content hmain]
    exact congrArg Prod.fst h
  have hfinds := (fixupLoop_mutexes_iff _ _ _ _).mp hmain
  have hdfinds := (dylibFixupLoop_mutexes_iff _ _ _ _ _ (by omega)).mp hdylib
  have htail : ∀ p ∈ objs, ∀ i, 48 ≤ i → i < 64 → c (p + i) = 0 := by
    intro p hp i h48 hi
    rw [← putAll_mutex_tail (N := N) c hfinds.apart hp h48 hi, hcontent, putAll_mutexImage c hfinds.apart hp hi,
      if_pos h48]
  refine ⟨objs,hdfinds.apart,fun p hp => ?_,fun x hdvd hle hsig => ?_,fun x hdvd hle hsig => ?_⟩
  · obtain ⟨-,h8,hfile,hmutex⟩ := hfinds.found p hp
    obtain ⟨-,-,hvm,hsig⟩ := hdfinds.found p hp
    exact ⟨by omega,by omega,hvm,long_of_uint32 hmutex hsig,htail p hp⟩
  · obtain ⟨p,hp,hpx,hxp⟩ := hfinds.all x (by omega) (by omega) (by omega) hsig
    refine ⟨p,hp,hpx,?_⟩
    by_contra hlt
    obtain ⟨i,rfl⟩ := Nat.exists_eq_add_of_le hpx
    exact long_not_mem_of_zero (htail p hp i (by omega) (by omega)) hsig
  · exact hdfinds.all x (by omega) (by omega) hle hsig

/-- The fixup of a dylib does to a segment what the fixup of the executable does exactly if the only
signatures in it are those of normal mutexes. -/
theorem dylibFixupSegment_eq_iff (N : NativePthread) (seg : SegmentCommand) (c : Content) :
    dylibFixupSegment N seg c = fixupSegment N seg c ↔ OnlyNormalMutexes seg c :=
  ⟨onlyNormalMutexes_of_agree,agree_of_onlyNormalMutexes⟩

theorem onSegment_congr {slide : Addr} {m : Memory} {seg : SegmentCommand}
    (h : seg.writable → OnlyNormalMutexes seg fun i => m (seg.vmaddr + slide + BitVec.ofNat 64 i)) :
    onSegment (dylibFixupSegment N) slide m seg = onSegment (fixupSegment N) slide m seg := by
  unfold onSegment
  split
  next hw => rw [agree_of_onlyNormalMutexes (h hw)]
  next => rfl

/-- Over the segments of an image the two stay equal as long as each segment that is reached is of this kind. -/
theorem dylibPthreadFixup_eq {H : MachHeader} {slide : Addr} {m : Memory}
    (h : ∀ pre seg post, H.segments = pre ++ seg :: post → seg.writable →
      OnlyNormalMutexes seg fun i =>
        pre.foldl (onSegment (fixupSegment N) slide) m (seg.vmaddr + slide + BitVec.ofNat 64 i)) :
    dylibPthreadFixup N H slide m = fixupDarwinPthreadData N H slide m := by
  have hfold : ∀ post pre, H.segments = pre ++ post →
      post.foldl (onSegment (dylibFixupSegment N) slide) (pre.foldl (onSegment (fixupSegment N) slide) m) =
        post.foldl (onSegment (fixupSegment N) slide) (pre.foldl (onSegment (fixupSegment N) slide) m) := by
    intro post
    induction post with
    | nil => exact fun _ _ => rfl
    | cons seg post ih =>
      intro pre hpre
      have hstep := onSegment_congr (N := N) (h pre seg post hpre)
      have hrest := ih (pre ++ [seg]) (by rw [hpre, List.append_assoc]; rfl)
      rw [List.foldl_append] at hrest
      rw [List.foldl_cons, List.foldl_cons, hstep]
      exact hrest
  exact hfold H.segments [] rfl

/-- A writable segment of one recursive mutex, which is left as it is in a dylib. -/
def recursiveMutex : Content := put (fun _ => 0) 0 (leBytes 8 darwinRecursiveMutexSig)

def dataSegment : SegmentCommand where
  segname := "__DATA".toList
  vmaddr := 0x4000
  vmsize := 64
  fileoff := 0x4000
  filesize := 64
  maxprot := 3
  initprot := 3
  sections := []

theorem recursiveMutex_differs :
    dataSegment.writable ∧ (fixupSegment glibc dataSegment recursiveMutex).2 = [(0,.mutex)] ∧
      (dylibFixupSegment glibc dataSegment recursiveMutex).2 = [] ∧
      dylibFixupSegment glibc dataSegment recursiveMutex ≠ fixupSegment glibc dataSegment recursiveMutex := by
  have hmain : (fixupSegment glibc dataSegment recursiveMutex).2 = [(0,.mutex)] := by decide
  have hdylib : (dylibFixupSegment glibc dataSegment recursiveMutex).2 = [] := by decide
  refine ⟨by decide,hmain,hdylib,fun h => ?_⟩
  rw [h, hmain] at hdylib
  cases hdylib

end Agree

end Machismo.Loader
