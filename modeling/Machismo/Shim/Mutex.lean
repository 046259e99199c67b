import Mathlib

/-! # The mutex wrappers under threads

`pthread_mutex_lock` repairs a mutex before it takes it: an object with a Darwin signature is
wiped and initialised, and one that is all zero is initialised as a recursive one.  The
checks, the writes and the native call are steps of their own, and any number of threads take
them in any order.  A write that comes late, when another thread has the mutex already, lets
the writer in beside it; without such a write the mutex excludes.
-/
namespace Machismo.Shim.Mutex
variable {T : Type}

/-- A glibc mutex, as far as locking goes.  Its lock word is 0, 1 or 2 and is not kept apart from the owner. -/
structure Native (T : Type) where
  owner : Option T
  count : ℕ
  recursive : Bool
deriving DecidableEq

/-- All bytes zero: unlocked and of the plain kind. -/
def Native.zero : Native T := ⟨none,0,false⟩

/-- What `real_pthread_mutex_init` leaves with the recursive attribute. -/
def Native.fresh : Native T := ⟨none,0,true⟩

/-- The object: as the Darwin program left it, with this first word, or glibc's. -/
inductive Contents (T : Type) where
  | darwin (sig : BitVec 64)
  | native (m : Native T)
deriving DecidableEq

def darwinMutexSigMask : BitVec 64 := 0xFFFFFFF0
def darwinMutexSigCmp : BitVec 64 := 0x32AAABA0

-- the low half of glibc's first word is its lock word, so the mask leaves 0 of it
def Contents.hasDarwinSig : Contents T → Bool
  | .darwin sig => sig &&& darwinMutexSigMask == darwinMutexSigCmp
  | .native _ => false

section Calls
variable [DecidableEq T]

/-- `real_pthread_mutex_trylock`, and `real_pthread_mutex_lock` once it does not have to wait. -/
def Native.tryAcquire (m : Native T) (t : T) : Option (Native T) :=
  match m.owner with
  | none => some { m with owner := some t, count := 1 }
  | some u => if u = t ∧ m.recursive then some { m with count := m.count+1 } else none

/-- `real_pthread_mutex_unlock`: only a recursive mutex looks at its owner. -/
def Native.release (m : Native T) (t : T) : Native T :=
  if m.recursive then
    if m.owner = some t then
      if m.count ≤ 1 then .fresh else { m with count := m.count-1 }
    else m
  else .zero

end Calls

inductive Call where
  | lock
  | trylock
deriving DecidableEq, Repr

/-- Where a thread is in a wrapper: in `fixup_mutex`, in the upgrade of a zero mutex, or before the native call. -/
inductive Pc where
  | idle
  | wiping (c : Call)
  | initing (c : Call)
  | comparing
  | upgrading
  | acquiring (c : Call)
deriving DecidableEq, Repr

/-- Only `pthread_mutex_lock` upgrades. -/
def Call.afterFixup : Call → Pc
  | .lock => .comparing
  | .trylock => .acquiring .trylock

def Pc.rewrites : Pc → Bool
  | .wiping _ | .initing _ | .upgrading => true
  | .idle | .comparing | .acquiring _ => false

/-- The mutex, the threads, and how often each has taken the mutex and not given it back. -/
structure State (T : Type) where
  contents : Contents T
  pc : T → Pc
  held : T → ℕ

variable [DecidableEq T]

/-- One step of thread `t`.  Only a thread that has the mutex unlocks it. -/
inductive Step (t : T) : State T → State T → Prop where
  | check (s : State T) (c : Call) : s.pc t = .idle →
      Step t s { s with
        pc := Function.update s.pc t (if s.contents.hasDarwinSig then .wiping c else c.afterFixup) }
  | wipe (s : State T) (c : Call) : s.pc t = .wiping c →
      Step t s { s with
        contents := .native .zero
        pc := Function.update s.pc t (.initing c) }
  | init (s : State T) (c : Call) : s.pc t = .initing c →
      Step t s { s with
        contents := .native .fresh
        pc := Function.update s.pc t c.afterFixup }
  | compare (s : State T) : s.pc t = .comparing →
      Step t s { s with
        pc := Function.update s.pc t (if s.contents = .native .zero then .upgrading else .acquiring .lock) }
  | upgrade (s : State T) : s.pc t = .upgrading →
      Step t s { s with
        contents := .native .fresh
        pc := Function.update s.pc t (.acquiring .lock) }
  | acquire (s : State T) (c : Call) (m m' : Native T) : s.pc t = .acquiring c → s.contents = .native m →
      m.tryAcquire t = some m' →
      Step t s ⟨.native m',Function.update s.pc t .idle,Function.update s.held t (s.held t+1)⟩
  | busy (s : State T) (m : Native T) : s.pc t = .acquiring .trylock → s.contents = .native m →
      m.tryAcquire t = none →
      Step t s { s with pc := Function.update s.pc t .idle }
  | unlock (s : State T) (m : Native T) : s.pc t = .idle → 0 < s.held t → s.contents = .native m →
      Step t s { s with
        contents := .native (m.release t)
        held := Function.update s.held t (s.held t-1) }

def AnyStep (s s' : State T) : Prop := ∃ t, Step t s s'

/-- The mutex is not overwritten while a thread has it. -/
def CleanStep (s s' : State T) : Prop := ∃ t, Step t s s' ∧ ((s.pc t).rewrites → ∀ u, s.held u = 0)

/-- Contents a program may hand to the first call. -/
def Contents.Initial (c : Contents T) : Prop := c = .native .zero ∨ c.hasDarwinSig

def State.start (c : Contents T) : State T := ⟨c,fun _ => .idle,fun _ => 0⟩

/-- At most one thread has the mutex. -/
def State.Exclusive (s : State T) : Prop := ∀ t u, 0 < s.held t → 0 < s.held u → t = u

/-- What the mutex says of its owner is what the threads have. -/
def Owned (held : T → ℕ) : Contents T → Prop
  | .darwin _ => ∀ t, held t = 0
  | .native ⟨none,_,_⟩ => ∀ t, held t = 0
  | .native ⟨some t,count,recursive⟩ =>
    held t = count ∧ 0 < count ∧ (recursive = false → count = 1) ∧ ∀ u, u ≠ t → held u = 0

section Exclusion

omit [DecidableEq T] in
theorem Owned.exclusive {held : T → ℕ} {c : Contents T} (h : Owned held c) {t u : T} (ht : 0 < held t)
    (hu : 0 < held u) : t = u := by
  rcases c with sig | ⟨_ | owner,count,recursive⟩
  · exact absurd (h t) ht.ne'
  · exact absurd (h t) ht.ne'
  · obtain ⟨-,-,-,hother⟩ := h
    have howner : ∀ v, 0 < held v → v = owner := by
      intro v hv
      by_contra hne
      exact absurd (hother v hne) hv.ne'
    rw [howner t ht,howner u hu]

theorem Owned.acquire {held : T → ℕ} {m m' : Native T} {t : T} (h : Owned held (.native m))
    (hm : m.tryAcquire t = some m') : Owned (Function.update held t (held t+1)) (.native m') := by
  obtain ⟨_ | owner,count,recursive⟩ := m
  · obtain rfl : ⟨some t,1,recursive⟩ = m' := Option.some.inj hm
    refine ⟨?_,one_pos,fun _ => rfl,?_⟩
    · rw [Function.update_self,h t]
    · intro u hu
      rw [Function.update_of_ne hu,h u]
  · obtain ⟨hcount,hpos,-,hother⟩ := h
    have hcond : owner = t ∧ recursive = true := by
      by_contra hne
      simp [Native.tryAcquire,hne] at hm
    obtain ⟨rfl,rfl⟩ := hcond
    obtain rfl : ⟨some owner,count+1,true⟩ = m' := by simpa [Native.tryAcquire] using hm
    refine ⟨?_,Nat.succ_pos _,fun hrec => absurd hrec (by simp),?_⟩
    · rw [Function.update_self,hcount]
    · intro u hu
      rw [Function.update_of_ne hu,hother u hu]

theorem Owned.release {held : T → ℕ} {m : Native T} {t : T} (h : Owned held (.native m)) (ht : 0 < held t) :
    Owned (Function.update held t (held t-1)) (.native (m.release t)) := by
  obtain ⟨_ | owner,count,recursive⟩ := m
  · exact absurd (h t) ht.ne'
  · obtain ⟨hcount,hpos,hplain,hother⟩ := h
    obtain rfl : owner = t := by
      by_contra hne
      exact absurd (hother t (Ne.symm hne)) ht.ne'
    have hzero : count = 1 → ∀ u, Function.update held owner (held owner-1) u = 0 := by
      intro hone u
      rcases eq_or_ne u owner with rfl | hne
      · rw [Function.update_self,hcount,hone]
      · rw [Function.update_of_ne hne,hother u hne]
    cases recursive with
    | false => exact hzero (hplain rfl)
    | true =>
      by_cases hone : count ≤ 1
      · simp only [Native.release,if_true,if_pos hone]
        exact hzero (by omega)
      · simp only [Native.release,if_true,if_neg hone]
        refine ⟨?_,by omega,fun hrec => absurd hrec (by simp),?_⟩
        · rw [Function.update_self,hcount]
        · intro u hu
          rw [Function.update_of_ne hu,hother u hu]

theorem step_owned {s s' : State T} (h : Owned s.held s.contents) (hstep : CleanStep s s') :
    Owned s'.held s'.contents := by
  obtain ⟨t,hstep,hclean⟩ := hstep
  cases hstep with
  | check c ht => exact h
  | wipe c ht => exact hclean (by rw [ht]; rfl)
  | init c ht => exact hclean (by rw [ht]; rfl)
  | compare ht => exact h
  | upgrade ht => exact hclean (by rw [ht]; rfl)
  | acquire c m m' ht hm hacq =>
    rw [hm] at h
    exact h.acquire hacq
  | busy m ht hm hacq => exact h
  | unlock m ht hheld hm =>
    rw [hm] at h
    exact h.release hheld

omit [DecidableEq T] in
theorem Contents.Initial.owned {c : Contents T} (h : c.Initial) : Owned (State.start c).held c := by
  rcases h with rfl | hsig
  · exact fun _ => rfl
  · cases c with
    | darwin sig => exact fun _ => rfl
    | native m => exact absurd hsig (by simp [hasDarwinSig])

/-- In every run in which no thread overwrites the mutex while a thread has it, at most one has it. -/
theorem clean_exclusive {c : Contents T} (hc : c.Initial) {s : State T}
    (hrun : Relation.ReflTransGen CleanStep (.start c) s) : s.Exclusive := by
  have howned : Owned s.held s.contents := by
    induction hrun with
    | refl => exact hc.owned
    | tail _ hstep ih => exact step_owned ih hstep
  exact fun t u ht hu => howned.exclusive ht hu

/-- A thread takes a mutex that has the signature of a recursive Darwin mutex. -/
theorem clean_exclusive_darwin : ∃ s : State Bool, 0 < s.held false ∧ s.Exclusive := by
  have hc : (Contents.darwin 0x32AAABA2 : Contents Bool).Initial := Or.inr (by decide)
  refine ⟨_,?_,clean_exclusive hc (((((Relation.ReflTransGen.refl.tail
    ⟨false,Step.check _ .lock rfl,fun h => absurd h (by decide)⟩).tail
    ⟨false,Step.wipe _ .lock rfl,fun _ _ => rfl⟩).tail
    ⟨false,Step.init _ .lock rfl,fun _ _ => rfl⟩).tail
    ⟨false,Step.compare _ rfl,fun h => absurd h (by decide)⟩).tail
    ⟨false,Step.acquire _ .lock .fresh _ rfl rfl rfl,fun h => absurd h (by decide)⟩)⟩
  exact Nat.one_pos

end Exclusion

section Late
variable {s : State T} {t u : T}

theorem acquire_fresh (hc : s.contents = .native .fresh) {c : Call} (hu : s.pc u = .acquiring c) :
    ∃ s', AnyStep s s' ∧ s'.held = Function.update s.held u (s.held u+1) :=
  ⟨_,⟨u,Step.acquire s c _ _ hu hc rfl⟩,rfl⟩

theorem acquire_after_fixup (hc : s.contents = .native .fresh) {c : Call} (hu : s.pc u = c.afterFixup) :
    ∃ s', Relation.ReflTransGen AnyStep s s' ∧ s'.held = Function.update s.held u (s.held u+1) := by
  cases c with
  | trylock =>
    obtain ⟨s',hstep,hheld⟩ := acquire_fresh hc hu
    exact ⟨s',.single hstep,hheld⟩
  | lock =>
    have hne : s.contents ≠ .native .zero := by simp [hc,Native.fresh,Native.zero]
    have hcompare := Step.compare s hu
    rw [if_neg hne] at hcompare
    obtain ⟨s',hstep,hheld⟩ := acquire_fresh (s := { s with pc := Function.update s.pc u (.acquiring .lock) })
      hc (Function.update_self _ _ _)
    exact ⟨s',.head ⟨u,hcompare⟩ (.single hstep),hheld⟩

theorem rewrite_acquires (hu : (s.pc u).rewrites) :
    ∃ s', Relation.ReflTransGen AnyStep s s' ∧ s'.held = Function.update s.held u (s.held u+1) := by
  -- the initialisation by `fixup_mutex`, from which the wrapper goes on
  have hinit : ∀ {s : State T} {c : Call}, s.pc u = .initing c →
      ∃ s', Relation.ReflTransGen AnyStep s s' ∧ s'.held = Function.update s.held u (s.held u+1) := by
    intro s c hpc
    obtain ⟨s',hrun,hheld⟩ := acquire_after_fixup (c := c)
      (s := ⟨.native .fresh,Function.update s.pc u c.afterFixup,s.held⟩) rfl (Function.update_self _ _ _)
    exact ⟨s',.head ⟨u,Step.init s c hpc⟩ hrun,hheld⟩
  cases hpc : s.pc u with
  | wiping c =>
    obtain ⟨s',hrun,hheld⟩ := hinit (c := c)
      (s := ⟨.native .zero,Function.update s.pc u (.initing c),s.held⟩) (Function.update_self _ _ _)
    exact ⟨s',.head ⟨u,Step.wipe s c hpc⟩ hrun,hheld⟩
  | initing c => exact hinit hpc
  | upgrading =>
    obtain ⟨s',hstep,hheld⟩ := acquire_fresh (c := .lock)
      (s := ⟨.native .fresh,Function.update s.pc u (.acquiring .lock),s.held⟩) rfl (Function.update_self _ _ _)
    exact ⟨s',.head ⟨u,Step.upgrade s hpc⟩ (.single hstep),hheld⟩
  | idle => simp [hpc,Pc.rewrites] at hu
  | comparing => simp [hpc,Pc.rewrites] at hu
  | acquiring c => simp [hpc,Pc.rewrites] at hu

/-- Wherever a thread is about to overwrite a mutex another one has, the two can have it together. -/
theorem rewrite_joins (ht : 0 < s.held t) (hne : t ≠ u) (hu : (s.pc u).rewrites) :
    ∃ s', Relation.ReflTransGen AnyStep s s' ∧ ¬s'.Exclusive := by
  obtain ⟨s',hrun,hheld⟩ := rewrite_acquires hu
  refine ⟨s',hrun,fun hex => hne (hex t u ?_ ?_)⟩
  · rw [hheld,Function.update_of_ne hne]
    exact ht
  · rw [hheld,Function.update_self]
    exact Nat.succ_pos _

end Late

/-- Two threads find the mutex zero; the second one initialises it when the first has it. -/
theorem late_upgrade_not_exclusive : ∃ c : Contents Bool, c.Initial ∧
    ∃ s, Relation.ReflTransGen AnyStep (.start c) s ∧ ¬s.Exclusive := by
  refine ⟨.native .zero,Or.inl rfl,_,(((((((Relation.ReflTransGen.refl.tail
    ⟨false,Step.check _ .lock rfl⟩).tail ⟨false,Step.compare _ rfl⟩).tail
    ⟨true,Step.check _ .lock rfl⟩).tail ⟨true,Step.compare _ rfl⟩).tail
    ⟨false,Step.upgrade _ rfl⟩).tail ⟨false,Step.acquire _ .lock .fresh _ rfl rfl rfl⟩).tail
    ⟨true,Step.upgrade _ rfl⟩).tail ⟨true,Step.acquire _ .lock .fresh _ rfl rfl rfl⟩,?_⟩
  intro h
  exact absurd (h false true Nat.one_pos Nat.one_pos) (by decide)

end Machismo.Shim.Mutex
