import Machismo.Shim.Alloc

/-! # Every block goes back where it came from

The look-ups of `free` find the origin of every block but a mapping the registry does not
have; those of `realloc` know routed and heap blocks only.  Where a run keeps to what they
know, and allocations from the static buffer do not overflow its `int`, no facility ever gets
a block of another one, and `realloc` keeps the bytes.
-/
namespace Machismo.Shim.Alloc
variable {env : Env} {s : State}

/-- No byte in common, and an address in common only in the static buffer, where empty blocks have none of their own. -/
def Block.Apart (b c : Block) : Prop :=
  (b.addr+b.size ≤ c.addr ∨ c.addr+c.size ≤ b.addr) ∧
    (b.addr = c.addr → b.origin = .bootstrap ∧ c.origin = .bootstrap)

instance : Std.Symm Block.Apart := ⟨fun _ _ h => ⟨h.1.symm,fun heq => (h.2 heq.symm).symm⟩⟩

structure Inv (env : Env) (s : State) : Prop where
  pos : 0 ≤ s.bootstrapPos ∧ s.bootstrapPos ≤ bootstrapBufSize
  boot : ∀ b ∈ s.live, b.origin = .bootstrap → env.bootstrapBuf ≤ b.addr ∧
    b.addr < env.bootstrapBuf+bootstrapBufSize ∧ (b.addr+b.size : ℤ) ≤ env.bootstrapBuf+s.bootstrapPos
  other : ∀ b ∈ s.live, b.origin ≠ .bootstrap → b.addr ≠ 0 ∧
    (b.addr+max b.size 1 ≤ env.bootstrapBuf ∨ env.bootstrapBuf+bootstrapBufSize ≤ b.addr)
  apart : s.live.Pairwise Block.Apart
  entries : ∀ e ∈ s.registry, ⟨e.1,e.2,.mapped⟩ ∈ s.live
  nodup : (s.registry.map Prod.fst).Nodup
  unrouted : s.router = false → ∀ b ∈ s.live, b.origin ≠ .routed
  rightful : s.misdirected = []

theorem Inv.start : Inv env State.start :=
  ⟨⟨le_rfl,by decide⟩,by simp [State.start],by simp [State.start],.nil,by simp [State.start],
    by simp [State.start],by simp [State.start],rfl⟩

theorem Inv.unique (h : Inv env s) {b c : Block} (hb : b ∈ s.live) (hc : c ∈ s.live) (heq : b.addr = c.addr)
    (horigin : b.origin ≠ .bootstrap) : b = c := by
  by_contra hne
  exact horigin ((h.apart.forall hb hc hne).2 heq).1

/-- The invariant does not look at the memory, nor at what is resolved and how often the system was asked. -/
theorem Inv.congr (h : Inv env s) {s' : State} (hlive : s'.live = s.live) (hregistry : s'.registry = s.registry)
    (hpos : s'.bootstrapPos = s.bootstrapPos) (hrouter : s'.router = s.router)
    (hmis : s'.misdirected = s.misdirected) : Inv env s' := by
  constructor
  · rw [hpos]
    exact h.pos
  · rw [hlive,hpos]
    exact h.boot
  · rw [hlive]
    exact h.other
  · rw [hlive]
    exact h.apart
  · rw [hlive,hregistry]
    exact h.entries
  · rw [hregistry]
    exact h.nodup
  · rw [hlive,hrouter]
    exact h.unrouted
  · rw [hmis]
    exact h.rightful

section Registry

theorem mmapRegistryRemove_cases (registry : List (ℕ × ℕ)) (p : ℕ) :
    ((∀ e ∈ registry, e.1 ≠ p) ∧ mmapRegistryRemove registry p = (0,registry)) ∨
      ∃ size rest, mmapRegistryRemove registry p = (size,rest) ∧ ((p,size)::rest).Perm registry := by
  unfold mmapRegistryRemove
  cases hfind : registry.findIdx? fun e => e.1 == p with
  | none => exact Or.inl ⟨by simpa using hfind,rfl⟩
  | some i =>
    obtain ⟨hi,hp,-⟩ := List.findIdx?_eq_some_iff_getElem.mp hfind
    refine Or.inr ⟨_,_,rfl,?_⟩
    have hget : registry.getD i (0,0) = registry[i] := by simp [List.getD,hi]
    have haddr : registry[i].1 = p := by simpa using hp
    have hentry : (p,registry[i].2) = registry[i] := Prod.ext haddr.symm rfl
    rw [hget,hentry]
    exact Data.getElem_cons_swapRemove_perm hi

end Registry

section Blocks

theorem apart_of_max {a n x y : ℕ} (h : a+max n 1 ≤ x ∨ x+max y 1 ≤ a) : (a+n ≤ x ∨ x+y ≤ a) ∧ a ≠ x := by
  omega

theorem note_of_rightful {d : Deed} (h : d.Rightful s.live) : s.note d = s := if_pos h

theorem Inv.add (h : Inv env s) {a n : ℕ} (hfresh : s.Fresh env a n) {o : Origin} (hboot : o ≠ .bootstrap)
    (hrouted : o = .routed → s.router = true) : Inv env { s with live := ⟨a,n,o⟩::s.live } := by
  obtain ⟨ha,hbuf,hlive⟩ := hfresh
  refine ⟨h.pos,?_,?_,?_,?_,h.nodup,?_,h.rightful⟩
  · rintro b hb horigin
    rcases List.mem_cons.mp hb with rfl | hb
    · exact absurd horigin hboot
    · exact h.boot b hb horigin
  · rintro b hb horigin
    rcases List.mem_cons.mp hb with rfl | hb
    · exact ⟨ha,hbuf⟩
    · exact h.other b hb horigin
  · refine List.pairwise_cons.mpr ⟨fun b hb => ?_,h.apart⟩
    obtain ⟨hbytes,haddr⟩ := apart_of_max (hlive b hb)
    exact ⟨hbytes,fun heq => absurd heq haddr⟩
  · exact fun e he => List.mem_cons_of_mem _ (h.entries e he)
  · intro hr b hb
    rcases List.mem_cons.mp hb with rfl | hb
    · intro ho
      exact absurd (hrouted ho) (by simp [show s.router = false from hr])
    · exact h.unrouted hr b hb

theorem Inv.release (h : Inv env s) (p : ℕ) {o : Origin} (ho : o ≠ .mapped) : Inv env (s.release p o) := by
  have hsub : ∀ {b}, b ∈ (s.release p o).live → b ∈ s.live := fun hb => List.mem_of_mem_filter hb
  refine ⟨h.pos,fun b hb => h.boot b (hsub hb),fun b hb => h.other b (hsub hb),h.apart.filter _,?_,h.nodup,
    fun hr b hb => h.unrouted hr b (hsub hb),h.rightful⟩
  intro e he
  exact List.mem_filter.mpr ⟨h.entries e he,by simp [Ne.symm ho]⟩

theorem Inv.unmap (h : Inv env s) {p size : ℕ} {rest : List (ℕ × ℕ)}
    (hperm : ((p,size)::rest).Perm s.registry) : Inv env (munmap p size { s with registry := rest }) := by
  have hmem : ⟨p,size,.mapped⟩ ∈ s.live := h.entries _ (hperm.subset (List.mem_cons_self ..))
  have hright : (Deed.munmap p size).Rightful s.live := by
    intro b hb haddr
    obtain rfl := h.unique hmem hb haddr.symm (by simp)
    exact ⟨rfl,rfl⟩
  have hnote : State.note { s with registry := rest } (.munmap p size) = { s with registry := rest } :=
    note_of_rightful hright
  have hnodup : (p::rest.map Prod.fst).Nodup := (hperm.map Prod.fst).nodup_iff.mpr h.nodup
  rw [munmap,hnote]
  have hsub : ∀ {b}, b ∈ (State.release { s with registry := rest } p .mapped).live → b ∈ s.live :=
    fun hb => List.mem_of_mem_filter hb
  refine ⟨h.pos,fun b hb => h.boot b (hsub hb),fun b hb => h.other b (hsub hb),h.apart.filter _,?_,
    (List.nodup_cons.mp hnodup).2,fun hr b hb => h.unrouted hr b (hsub hb),h.rightful⟩
  intro e he
  refine List.mem_filter.mpr ⟨h.entries e (hperm.subset (List.mem_cons_of_mem _ he)),?_⟩
  have hne : e.1 ≠ p := fun heq => (List.nodup_cons.mp hnodup).1 (heq ▸ List.mem_map_of_mem he)
  simp [hne]

theorem mem_of_blockAt {p : ℕ} {o : Origin} {b : Block} (h : s.blockAt p o = some b) :
    b ∈ s.live ∧ b.addr = p ∧ b.origin = o := by
  have hp := List.find?_some h
  simp only [Bool.and_eq_true,beq_iff_eq] at hp
  exact ⟨List.mem_of_find?_eq_some h,hp⟩

theorem ne_of_blockAt {p : ℕ} {o : Origin} (h : s.blockAt p o = none) {b : Block} (hb : b ∈ s.live)
    (haddr : b.addr = p) : b.origin ≠ o := by
  have hnone := List.find?_eq_none.mp h b hb
  simpa [haddr] using hnone

end Blocks

end Machismo.Shim.Alloc

/-! # Runs of the allocation wrappers

What each wrapper is asked to keep to, that it keeps the blocks in order then, and the same
for whole runs.
-/
namespace Machismo.Shim.Alloc
variable {env : Env} {s : State}

section Resolve

@[simp] theorem resolve_live : (resolveRealFuncs env s).live = s.live := by
  unfold resolveRealFuncs
  split <;> rfl

@[simp] theorem resolve_mem : (resolveRealFuncs env s).mem = s.mem := by
  unfold resolveRealFuncs
  split <;> rfl

@[simp] theorem resolve_aligned : (resolveRealFuncs env s).aligned = s.aligned := by
  unfold resolveRealFuncs
  split <;> rfl

theorem Inv.resolve (h : Inv env s) : Inv env (resolveRealFuncs env s) := by
  unfold resolveRealFuncs
  split
  · exact h
  · exact h.congr rfl rfl rfl rfl rfl

end Resolve

/-- Allocations are served from the static buffer. -/
def State.Bootstraps (env : Env) (s : State) : Prop := (resolveRealFuncs env s).real.malloc = false

/-- The end of the block is an `int`, and an empty block does not lie behind the buffer. -/
def State.BootFits (s : State) (n : ℕ) : Prop := s.aligned+n < 2^31 ∧ (n = 0 → s.aligned < bootstrapBufSize)

/-- What an allocation from `s` leaves: the old blocks, and memory that changed in the new one only. -/
structure Given (env : Env) (s : State) (n : ℕ) (r : ℕ × State) : Prop where
  inv : Inv env r.2
  old : ∀ b ∈ s.live, b ∈ r.2.live
  apart : r.1 ≠ 0 → ∀ b ∈ s.live, r.1+n ≤ b.addr ∨ b.addr+b.size ≤ r.1
  mem : ∀ a, (r.1 ≠ 0 → a < r.1 ∨ r.1+n ≤ a) → r.2.mem a = s.mem a

section Allocate
variable {n : ℕ}

theorem Given.of_base {s' : State} {r : ℕ × State} (h : Given env s' n r) (hlive : s'.live = s.live)
    (hmem : s'.mem = s.mem) : Given env s n r := by
  refine ⟨h.inv,?_,?_,?_⟩
  · rw [← hlive]
    exact h.old
  · rw [← hlive]
    exact h.apart
  · rw [← hmem]
    exact h.mem

theorem Inv.refused (h : Inv env s) : Given env s n (0,s) := ⟨h,fun _ hb => hb,fun h0 => absurd rfl h0,fun _ _ => rfl⟩

theorem Given.again {r r' : ℕ × State} (h : Given env s n r) (h0 : r.1 = 0) (h' : Given env r.2 n r') :
    Given env s n r' := by
  refine ⟨h'.inv,fun b hb => h'.old b (h.old b hb),fun hr b hb => h'.apart hr b (h.old b hb),?_⟩
  intro a ha
  exact (h'.mem a ha).trans (h.mem a fun hr => absurd h0 hr)

theorem Given.memset {r : ℕ × State} (h : Given env s n r) (h0 : r.1 ≠ 0) :
    Given env s n (r.1,r.2.memset r.1 n) := by
  refine ⟨h.inv.congr rfl rfl rfl rfl rfl,h.old,h.apart,?_⟩
  intro a ha
  have hout : a < r.1 ∨ r.1+n ≤ a := ha h0
  have hnot : ¬(r.1 ≤ a ∧ a < r.1+n) := by omega
  exact (if_neg hnot).trans (h.mem a ha)

theorem Inv.hand (h : Inv env s) (a : ℕ) {o : Origin} (hboot : o ≠ .bootstrap)
    (hrouted : o = .routed → s.router = true) : Given env s n (s.hand env o a n) := by
  unfold State.hand
  split_ifs with hfresh
  · refine ⟨h.add hfresh hboot hrouted,fun b hb => List.mem_cons_of_mem _ hb,?_,fun _ _ => rfl⟩
    exact fun _ b hb => (apart_of_max (hfresh.2.2 b hb)).1
  · exact h.refused

theorem Inv.aligned (h : Inv env s) : s.bootstrapPos ≤ s.aligned ∧ 0 ≤ s.aligned ∧ s.aligned ≤ bootstrapBufSize := by
  obtain ⟨hlow,hhigh⟩ := h.pos
  simp only [State.aligned,bootstrapBufSize] at *
  omega

theorem Inv.addBootstrap (h : Inv env s) {k : ℕ} (hpos : s.bootstrapPos ≤ k) (hend : k+n ≤ bootstrapBufSize)
    (hin : k < bootstrapBufSize) : Inv env { s with
      bootstrapPos := k+n
      live := ⟨env.bootstrapBuf+k,n,.bootstrap⟩::s.live } := by
  simp only [bootstrapBufSize] at hend hin
  have hboot : ∀ b ∈ s.live, b.origin = .bootstrap → b.addr+b.size ≤ env.bootstrapBuf+k := by
    intro b hb horigin
    have hb := (h.boot b hb horigin).2.2
    omega
  refine ⟨⟨by dsimp only; omega,by dsimp only [bootstrapBufSize]; omega⟩,?_,?_,?_,?_,h.nodup,?_,h.rightful⟩
  · intro b hb horigin
    rcases List.mem_cons.mp hb with rfl | hb
    · simp only [bootstrapBufSize]
      push_cast
      omega
    · obtain ⟨hlow,hhigh,-⟩ := h.boot b hb horigin
      have hbefore := hboot b hb horigin
      dsimp only
      omega
  · intro b hb horigin
    rcases List.mem_cons.mp hb with rfl | hb
    · exact absurd rfl horigin
    · exact h.other b hb horigin
  · refine List.pairwise_cons.mpr ⟨fun b hb => ?_,h.apart⟩
    by_cases horigin : b.origin = .bootstrap
    · exact ⟨Or.inr (hboot b hb horigin),fun _ => ⟨rfl,horigin⟩⟩
    · obtain ⟨-,hbuf⟩ := h.other b hb horigin
      simp only [bootstrapBufSize] at hbuf
      refine ⟨?_,fun heq => ?_⟩
      · dsimp only
        omega
      · dsimp only at heq
        omega
  · exact fun e he => List.mem_cons_of_mem _ (h.entries e he)
  · intro hr b hb
    rcases List.mem_cons.mp hb with rfl | hb
    · simp
    · exact h.unrouted hr b hb

theorem Inv.bootstrapAlloc (h : Inv env s) (hfits : s.BootFits n) : Given env s n (bootstrapAlloc env n s) := by
  obtain ⟨hpos,hlow,hhigh⟩ := h.aligned
  obtain ⟨hint,hempty⟩ := hfits
  have hbuf := env.buf_pos
  have hmod : Int.bmod (s.aligned+n) (2^32) = s.aligned+n := Int.bmod_eq_of_le (by omega) (by omega)
  unfold Alloc.bootstrapAlloc
  simp only [hmod]
  split_ifs with hstop
  · obtain ⟨k,hk⟩ : ∃ k : ℕ, s.aligned = k := ⟨s.aligned.toNat,by omega⟩
    have hp : ((env.bootstrapBuf : ℤ)+k).toNat = env.bootstrapBuf+k := by omega
    rw [hk] at hpos hstop hempty
    simp only [hk,hp]
    have hinv := h.addBootstrap (n := n) hpos (by omega) (by omega)
    refine ⟨hinv.congr rfl rfl rfl rfl rfl,fun b hb => List.mem_cons_of_mem _ hb,?_,?_⟩
    · intro _ b hb
      exact (List.pairwise_cons.mp hinv.apart).1 b hb |>.1
    · intro a ha
      have hout : a < env.bootstrapBuf+k ∨ env.bootstrapBuf+k+n ≤ a := ha (by dsimp only; omega)
      exact if_neg (by omega)
  · exact h.refused

theorem Inv.allocRouter (h : Inv env s) (hrouter : s.router = true) : Given env s n (allocRouter env n s) := by
  have hask : Inv env s.ask := h.congr rfl rfl rfl rfl rfl
  have hgiven : Given env s n (s.ask.hand env .routed (env.router s.asked) n) :=
    (hask.hand _ (by simp) fun _ => hrouter).of_base rfl rfl
  unfold Alloc.allocRouter
  dsimp only
  split_ifs with h0
  · exact hgiven
  · exact hgiven.memset h0

theorem Inv.realMalloc (h : Inv env s) : Given env s n (realMalloc env n s) := by
  have hask : Inv env s.ask := h.congr rfl rfl rfl rfl rfl
  exact (hask.hand _ (by simp) (by simp)).of_base rfl rfl

theorem Inv.malloc (h : Inv env s) (hboot : s.Bootstraps env → s.BootFits n) : Given env s n (shimMalloc env n s) := by
  have hinv := h.resolve
  suffices hr : Given env (resolveRealFuncs env s) n (shimMalloc env n s) from hr.of_base resolve_live resolve_mem
  have haligned : (resolveRealFuncs env s).aligned = s.aligned := resolve_aligned
  unfold State.Bootstraps at hboot
  unfold shimMalloc
  dsimp only
  generalize resolveRealFuncs env s = s' at *
  by_cases hreal : s'.real.malloc = true
  · rw [if_pos hreal]
    by_cases hrouter : s'.router = true
    · rw [if_pos hrouter]
      have hgiven := hinv.allocRouter (n := n) hrouter
      split_ifs with h0 h1
      · exact hgiven.again h0 hgiven.inv.realMalloc
      · exact hgiven.again h0 (hgiven.inv.realMalloc.memset h1)
      · exact hgiven
    · rw [if_neg hrouter,if_pos rfl]
      split_ifs with h0
      · exact hinv.realMalloc
      · exact hinv.realMalloc.memset h0
  · rw [if_neg hreal]
    refine hinv.bootstrapAlloc ?_
    rw [State.BootFits,haligned]
    exact hboot (by simpa using hreal)

theorem Inv.realCalloc (h : Inv env s) (nmemb size : ℕ) : Inv env (realCalloc env nmemb size s).2 := by
  have hask : Inv env s.ask := h.congr rfl rfl rfl rfl rfl
  have hgiven : Given env s (nmemb*size) (s.ask.hand env .heap (env.heap s.asked) (nmemb*size)) :=
    (hask.hand _ (by simp) (by simp)).of_base rfl rfl
  unfold Alloc.realCalloc
  dsimp only
  split_ifs with hsize h0
  · exact hgiven.inv
  · exact (hgiven.memset h0).inv
  · exact h

/-- `if (!real_...) resolve_real_funcs();` -/
def State.resolvedUnless (env : Env) (s : State) (known : Bool) : State :=
  if known then s else resolveRealFuncs env s

theorem resolvedUnless_cases (env : Env) (s : State) (known : Bool) :
    s.resolvedUnless env known = s ∨ s.resolvedUnless env known = resolveRealFuncs env s := by
  cases known
  · exact Or.inr rfl
  · exact Or.inl rfl

theorem resolvedUnless_live (env : Env) (s : State) (known : Bool) : (s.resolvedUnless env known).live = s.live := by
  rcases resolvedUnless_cases env s known with heq | heq
  · rw [heq]
  · rw [heq,resolve_live]

theorem resolvedUnless_mem (env : Env) (s : State) (known : Bool) : (s.resolvedUnless env known).mem = s.mem := by
  rcases resolvedUnless_cases env s known with heq | heq
  · rw [heq]
  · rw [heq,resolve_mem]

theorem Inv.resolvedUnless (h : Inv env s) (known : Bool) : Inv env (s.resolvedUnless env known) := by
  rcases resolvedUnless_cases env s known with heq | heq
  · rw [heq]
    exact h
  · rw [heq]
    exact h.resolve

theorem Inv.calloc (h : Inv env s) {nmemb size : ℕ}
    (hboot : (s.resolvedUnless env s.real.calloc).real.calloc = false →
      (s.resolvedUnless env s.real.calloc).Bootstraps env → s.BootFits (nmemb*size)) :
    Inv env (shimCalloc env nmemb size s).2 := by
  have hinv := h.resolvedUnless s.real.calloc
  have haligned : (s.resolvedUnless env s.real.calloc).aligned = s.aligned := by
    rcases resolvedUnless_cases env s s.real.calloc with heq | heq
    · rw [heq]
    · rw [heq,resolve_aligned]
  have hdef : shimCalloc env nmemb size s = if (s.resolvedUnless env s.real.calloc).real.calloc then
      Alloc.realCalloc env nmemb size (s.resolvedUnless env s.real.calloc) else
      shimMalloc env (nmemb*size%2^64) (s.resolvedUnless env s.real.calloc) := rfl
  rw [hdef]
  generalize s.resolvedUnless env s.real.calloc = s' at *
  by_cases hreal : s'.real.calloc = true
  · rw [if_pos hreal]
    exact hinv.realCalloc nmemb size
  · rw [if_neg hreal]
    refine (hinv.malloc fun hb => ?_).inv
    obtain ⟨hint,hempty⟩ := hboot (by simpa using hreal) hb
    have hlow := h.aligned.2.1
    rw [Nat.mod_eq_of_lt (by omega)]
    rw [State.BootFits,haligned]
    exact ⟨hint,hempty⟩

end Allocate

/-- A mapping at the pointer is in the registry, and not as an empty one. -/
def State.Registered (s : State) (p : ℕ) : Prop :=
  ∀ b ∈ s.live, b.addr = p → b.origin = .mapped → b.size ≠ 0 ∧ (p,b.size) ∈ s.registry

section Release
variable {p : ℕ}

theorem Inv.freeRouter (h : Inv env s) : Inv env (freeRouter p s).2 := by
  unfold Alloc.freeRouter
  cases hb : s.blockAt p .routed with
  | none => exact h
  | some b =>
    obtain ⟨hmem,haddr,horigin⟩ := mem_of_blockAt hb
    have hright : (Deed.routerFree p).Rightful s.live := by
      intro c hc heq
      rw [← h.unique hmem hc (haddr.trans heq.symm) (by simp [horigin])]
      exact horigin
    dsimp only
    rw [note_of_rightful hright]
    exact h.release p (by simp)

theorem Inv.realFree (h : Inv env s) (hright : (Deed.realFree p).Rightful s.live) : Inv env (realFree p s) := by
  rw [Alloc.realFree,note_of_rightful hright]
  exact h.release p (by simp)

theorem Inv.not_routed (h : Inv env s) (hr : (if s.router then Alloc.freeRouter p s else (false,s)).1 = false)
    {b : Block} (hb : b ∈ s.live) (haddr : b.addr = p) : b.origin ≠ .routed := by
  by_cases hrouter : s.router = true
  · rw [if_pos hrouter] at hr
    unfold Alloc.freeRouter at hr
    cases hblock : s.blockAt p .routed with
    | none => exact ne_of_blockAt hblock hb haddr
    | some c => simp [hblock] at hr
  · exact h.unrouted (by simpa using hrouter) b hb

/-- Where neither the buffer, the router nor the registry know the pointer, the heap does. -/
theorem Inv.free (h : Inv env s) (hreg : s.Registered p) : Inv env (shimFree env p s) := by
  unfold shimFree
  dsimp only
  by_cases hnull : p = 0
  · rw [if_pos hnull]
    exact h
  rw [if_neg hnull]
  by_cases hbuf : env.bootstrapBuf ≤ p ∧ p < env.bootstrapBuf+bootstrapBufSize
  · rw [if_pos hbuf]
    exact h
  rw [if_neg hbuf]
  cases hrouted : (if s.router then Alloc.freeRouter p s else (false,s)).1 with
  | true =>
    rw [if_pos rfl]
    split_ifs
    · exact h.freeRouter
    · exact h
  | false =>
    rw [if_neg (by simp)]
    rcases mmapRegistryRemove_cases s.registry p with ⟨hnone,heq⟩ | ⟨size,rest,heq,hperm⟩
    · rw [heq,if_pos rfl]
      have hright : (Deed.realFree p).Rightful s.live := by
        intro b hb haddr
        cases horigin : b.origin with
        | bootstrap =>
          obtain ⟨hlow,hhigh,-⟩ := h.boot b hb horigin
          exact absurd ⟨haddr ▸ hlow,haddr ▸ hhigh⟩ hbuf
        | routed => exact absurd horigin (h.not_routed hrouted hb haddr)
        | mapped => exact absurd rfl (hnone _ (hreg b hb haddr horigin).2)
        | heap => rfl
      have hinv := h.resolvedUnless s.real.free
      have hlive := resolvedUnless_live env s s.real.free
      change Inv env (if (s.resolvedUnless env s.real.free).real.free then
        Alloc.realFree p (s.resolvedUnless env s.real.free) else s.resolvedUnless env s.real.free)
      generalize s.resolvedUnless env s.real.free = s' at *
      split_ifs
      · exact hinv.realFree (by rw [hlive]; exact hright)
      · exact hinv
    · have hmem : ⟨p,size,.mapped⟩ ∈ s.live := h.entries _ (hperm.subset (List.mem_cons_self ..))
      rw [heq,if_neg (hreg _ hmem rfl rfl).1]
      exact h.unmap hperm

theorem note_mem (d : Deed) : (s.note d).mem = s.mem := by
  unfold State.note
  split <;> rfl

@[simp] theorem realFree_mem : (realFree p s).mem = s.mem := note_mem _

@[simp] theorem munmap_mem {size : ℕ} : (munmap p size s).mem = s.mem := note_mem _

@[simp] theorem freeRouter_mem : (freeRouter p s).2.mem = s.mem := by
  unfold freeRouter
  cases s.blockAt p .routed with
  | none => rfl
  | some b => exact note_mem _

theorem shimFree_mem : (shimFree env p s).mem = s.mem := by
  unfold shimFree
  dsimp only
  split_ifs <;> simp

end Release

section Realloc
variable {p n : ℕ}

/-- The bytes of the block at `p` up to the new size are at the result, if there is one. -/
def KeepsBytes (s : State) (p n : ℕ) (r : ℕ × State) : Prop :=
  r.1 ≠ 0 → ∀ b ∈ s.live, b.addr = p → ∀ i < min b.size n, r.2.mem (r.1+i) = s.mem (p+i)

theorem memcpy_mem (p q : ℕ) {k i : ℕ} (hi : i < k) : (s.memcpy p q k).mem (p+i) = s.mem (q+i) := by
  have hin : p ≤ p+i ∧ p+i < p+k := ⟨Nat.le_add_right ..,Nat.add_lt_add_left hi p⟩
  have hsub : p+i-p = i := Nat.add_sub_cancel_left ..
  simp only [State.memcpy,if_pos hin,hsub]

theorem Inv.realRealloc (h : Inv env s) (hright : (Deed.realRealloc p).Rightful s.live) :
    Inv env (realRealloc env p n s).2 ∧ KeepsBytes s p n (realRealloc env p n s) := by
  unfold Alloc.realRealloc
  dsimp only
  rw [note_of_rightful hright]
  by_cases hnull : p = 0
  · rw [if_pos hnull]
    refine ⟨h.realMalloc.inv,fun _ b hb haddr => ?_⟩
    exact absurd (haddr.trans hnull) (h.other b hb (by simp [hright b hb haddr])).1
  rw [if_neg hnull]
  cases hblock : s.blockAt p .heap with
  | none => exact ⟨h,fun h0 => absurd rfl h0⟩
  | some b =>
    obtain ⟨hmem,haddr,horigin⟩ := mem_of_blockAt hblock
    have hrel : Inv env (s.release p .heap) := h.release p (by simp)
    have hask : Inv env (s.release p .heap).ask := hrel.congr rfl rfl rfl rfl rfl
    dsimp only
    by_cases hn : n = 0
    · rw [if_pos hn]
      exact ⟨hrel,fun h0 => absurd rfl h0⟩
    rw [if_neg hn]
    have hgiven := hask.hand (n := n) (env.heap s.asked) (o := .heap) (by simp) (by simp)
    have hsame : (State.hand env (s.release p .heap).ask .heap (env.heap s.asked) n).2.mem = s.mem := by
      unfold State.hand
      split_ifs <;> rfl
    generalize State.hand env (s.release p .heap).ask .heap (env.heap s.asked) n = r at *
    split_ifs with h0
    · exact ⟨h.congr rfl rfl rfl rfl rfl,fun h0 => absurd rfl h0⟩
    · refine ⟨hgiven.inv.congr rfl rfl rfl rfl rfl,fun _ c hc hcaddr i hi => ?_⟩
      obtain rfl : b = c := h.unique hmem hc (haddr.trans hcaddr.symm) (by simp [horigin])
      rw [memcpy_mem _ _ hi,hsame]

/-- What `realloc` may be called with: a block of the router or the heap, or anything while it cannot be resolved. -/
structure Resizable (env : Env) (s : State) (p n : ℕ) : Prop where
  known : ∀ b ∈ s.live, b.addr = p → b.origin = .heap ∨ (b.origin = .routed ∧ b.size ≠ 0) ∨
    (s.resolvedUnless env s.real.realloc).real.realloc = false
  fits : ∀ b ∈ s.live, b.addr = p → b.origin = .routed → s.Bootstraps env → s.BootFits n

theorem Inv.migrate (h : Inv env s) {b : Block} (hb : b ∈ s.live) (haddr : b.addr = p) (horigin : b.origin = .routed)
    {r : ℕ × State} (hr : Given env s n r) {t : State}
    (ht : t = if r.1 ≠ 0 ∧ n ≠ 0 then r.2.memcpy r.1 p (min b.size n) else r.2) :
    Inv env (if r.1 ≠ 0 ∨ n = 0 then shimFree env p t else t) ∧
      KeepsBytes s p n (r.1,if r.1 ≠ 0 ∨ n = 0 then shimFree env p t else t) := by
  have hlive : t.live = r.2.live := by
    rw [ht]
    split_ifs <;> rfl
  have hinv : Inv env t := by
    rw [ht]
    split_ifs
    · exact hr.inv.congr rfl rfl rfl rfl rfl
    · exact hr.inv
  have hreg : t.Registered p := by
    intro c hc hcaddr hmapped
    obtain rfl : b = c := hinv.unique (hlive ▸ hr.old b hb) hc (haddr.trans hcaddr.symm) (by simp [horigin])
    exact absurd (horigin.symm.trans hmapped) (by simp)
  refine ⟨?_,?_⟩
  · split_ifs
    · exact hinv.free hreg
    · exact hinv
  · intro h0 c hc hcaddr i hi
    obtain rfl : b = c := h.unique hb hc (haddr.trans hcaddr.symm) (by simp [horigin])
    have h0 : r.1 ≠ 0 := h0
    have hn : n ≠ 0 := by omega
    dsimp only
    rw [if_pos (Or.inl h0),shimFree_mem,ht,if_pos ⟨h0,hn⟩,memcpy_mem _ _ hi]
    refine hr.mem _ fun _ => ?_
    have hapart := hr.apart h0 b hb
    omega

theorem Inv.routed_empty (h : Inv env s) (hold : (if s.router && p != 0 then usableRouter p s else 0) = 0) :
    ∀ b ∈ s.live, b.addr = p → b.origin = .routed → b.size = 0 := by
  intro b hb haddr horigin
  have hrouter : s.router = true := by
    by_contra hr
    exact h.unrouted (by simpa using hr) b hb horigin
  have hp : p ≠ 0 := haddr ▸ (h.other b hb (by simp [horigin])).1
  rw [if_pos (by simp [hrouter,hp])] at hold
  unfold usableRouter at hold
  cases hblock : s.blockAt p .routed with
  | none => exact absurd horigin (ne_of_blockAt hblock hb haddr)
  | some c =>
    obtain ⟨hc,hcaddr,-⟩ := mem_of_blockAt hblock
    obtain rfl : b = c := h.unique hb hc (haddr.trans hcaddr.symm) (by simp [horigin])
    simpa [hblock] using hold

theorem Inv.realloc (h : Inv env s) (hre : Resizable env s p n) :
    Inv env (shimRealloc env p n s).2 ∧ KeepsBytes s p n (shimRealloc env p n s) := by
  unfold shimRealloc
  dsimp only
  by_cases hold : (if s.router && p != 0 then usableRouter p s else 0) = 0
  · rw [if_pos hold]
    have hinv := h.resolvedUnless s.real.realloc
    have hrouted := h.routed_empty hold
    have hknown := hre.known
    have hlive := resolvedUnless_live env s s.real.realloc
    have hmem := resolvedUnless_mem env s s.real.realloc
    change Inv env (if (s.resolvedUnless env s.real.realloc).real.realloc then
      Alloc.realRealloc env p n (s.resolvedUnless env s.real.realloc) else (0,s.resolvedUnless env s.real.realloc)).2 ∧
      KeepsBytes s p n (if (s.resolvedUnless env s.real.realloc).real.realloc then
        Alloc.realRealloc env p n (s.resolvedUnless env s.real.realloc) else (0,s.resolvedUnless env s.real.realloc))
    generalize s.resolvedUnless env s.real.realloc = s' at *
    by_cases hreal : s'.real.realloc = true
    · rw [if_pos hreal]
      have hright : (Deed.realRealloc p).Rightful s'.live := by
        intro b hb haddr
        rw [hlive] at hb
        rcases hknown b hb haddr with hheap | ⟨horigin,hsize⟩ | hfalse
        · exact hheap
        · exact absurd (hrouted b hb haddr horigin) hsize
        · exact absurd hreal (by simp [hfalse])
      obtain ⟨hafter,hkeeps⟩ := hinv.realRealloc (n := n) hright
      refine ⟨hafter,fun h0 b hb haddr i hi => ?_⟩
      rw [← hmem]
      exact hkeeps h0 b (by rw [hlive]; exact hb) haddr i hi
    · rw [if_neg hreal]
      exact ⟨hinv,fun h0 => absurd rfl h0⟩
  · rw [if_neg hold]
    have hcond : (s.router && p != 0) = true := by
      by_contra hc
      exact hold (if_neg hc)
    rw [if_pos hcond] at hold ⊢
    unfold usableRouter at hold ⊢
    cases hblock : s.blockAt p .routed with
    | none => simp [hblock] at hold
    | some b =>
      obtain ⟨hb,haddr,horigin⟩ := mem_of_blockAt hblock
      exact h.migrate hb haddr horigin (h.malloc (hre.fits b hb haddr horigin)) rfl

end Realloc

section Runs

/-- What a call keeps to. -/
def Call.Careful (env : Env) (s : State) : Call → Prop
  | .malloc size => s.Bootstraps env → s.BootFits size
  | .calloc nmemb size => (s.resolvedUnless env s.real.calloc).real.calloc = false →
      (s.resolvedUnless env s.real.calloc).Bootstraps env → s.BootFits (nmemb*size)
  | .realloc p size => Resizable env s p size
  | .free p => s.Registered p
  | .mmapRegistryAdd _ _ | .setAllocRouter | .write _ _ => True

def AnyStep (env : Env) (s s' : State) : Prop := ∃ c, exec env c s = s'

def CarefulStep (env : Env) (s s' : State) : Prop := ∃ c : Call, c.Careful env s ∧ exec env c s = s'

/-- No facility got a block of another one, and the blocks of the static buffer are in it and apart. -/
structure Sound (env : Env) (s : State) : Prop where
  rightful : s.misdirected = []
  inside : ∀ b ∈ s.live, b.origin = .bootstrap →
    env.bootstrapBuf ≤ b.addr ∧ b.addr+b.size ≤ env.bootstrapBuf+bootstrapBufSize
  disjoint : s.live.Pairwise fun b c => b.addr+b.size ≤ c.addr ∨ c.addr+c.size ≤ b.addr

theorem Inv.sound (h : Inv env s) : Sound env s := by
  refine ⟨h.rightful,fun b hb horigin => ?_,h.apart.imp And.left⟩
  obtain ⟨hlow,-,hend⟩ := h.boot b hb horigin
  have hpos := h.pos.2
  simp only [bootstrapBufSize] at *
  omega

theorem Inv.register (h : Inv env s) {a n : ℕ} (hfresh : s.Fresh env a n) : Inv env { s with
    registry := mmapRegistryAdd s.registry a n
    live := ⟨a,n,.mapped⟩::s.live } := by
  have hadd := h.add hfresh (o := .mapped) (by simp) (by simp)
  unfold mmapRegistryAdd
  split_ifs with hfull
  · exact hadd
  · refine ⟨hadd.pos,hadd.boot,hadd.other,hadd.apart,?_,?_,hadd.unrouted,hadd.rightful⟩
    · intro e he
      rcases List.mem_append.mp he with he | he
      · exact hadd.entries e he
      · obtain rfl := List.mem_singleton.mp he
        exact List.mem_cons_self ..
    · rw [List.map_append,List.map_singleton]
      refine List.nodup_append.mpr ⟨h.nodup,List.nodup_singleton _,?_⟩
      rintro x hx y hy rfl
      obtain rfl := List.mem_singleton.mp hy
      obtain ⟨e,he,heq⟩ := List.mem_map.mp hx
      exact (apart_of_max (hfresh.2.2 _ (h.entries e he))).2 heq.symm

theorem exec_inv (h : Inv env s) {c : Call} (hc : c.Careful env s) : Inv env (exec env c s) := by
  cases c with
  | malloc size => exact (h.malloc hc).inv
  | calloc nmemb size => exact h.calloc hc
  | realloc p size => exact (h.realloc hc).1
  | free p => exact h.free hc
  | mmapRegistryAdd a n =>
    unfold exec
    dsimp only
    split_ifs with hfresh
    · exact h.register hfresh
    · exact h
  | setAllocRouter =>
    exact ⟨h.pos,h.boot,h.other,h.apart,h.entries,h.nodup,fun hr => absurd hr (by simp [exec]),h.rightful⟩
  | write a v => exact h.congr rfl rfl rfl rfl rfl

/-- In every careful run each block stays with its facility, and `realloc` keeps the bytes. -/
theorem careful_sound (hrun : Relation.ReflTransGen (CarefulStep env) .start s) :
    Sound env s ∧ ∀ p n, Resizable env s p n → KeepsBytes s p n (shimRealloc env p n s) := by
  have hinv : Inv env s := by
    induction hrun with
    | refl => exact Inv.start
    | tail _ hstep ih =>
      obtain ⟨c,hc,rfl⟩ := hstep
      exact exec_inv ih hc
  exact ⟨hinv.sound,fun p n hre => (hinv.realloc hre).2⟩

/-- A system whose `dlsym` finds nothing the first time. -/
def lateEnv : Env :=
  ⟨4096,by decide,fun k => if k = 0 then ⟨false,false,false,false⟩ else ⟨true,true,true,true⟩,fun _ => 0,
    fun k => 0x10000*(k+1)⟩

/-- A block of the static buffer, then one of the heap, which is resized. -/
theorem careful_sound_two_blocks :
    ∃ s, s.live = [⟨0x30000,16,.heap⟩,⟨4096,8,.bootstrap⟩] ∧ Sound lateEnv s ∧
      KeepsBytes s 0x30000 32 (shimRealloc lateEnv 0x30000 32 s) := by
  have hboot : CarefulStep lateEnv .start (exec lateEnv (.malloc 8) .start) :=
    ⟨.malloc 8,fun _ => ⟨by decide,by decide⟩,rfl⟩
  have hresolved : (resolveRealFuncs lateEnv (exec lateEnv (.malloc 8) .start)).real.malloc ≠ false := by decide
  have hheap : CarefulStep lateEnv (exec lateEnv (.malloc 8) .start)
      (exec lateEnv (.malloc 16) (exec lateEnv (.malloc 8) .start)) :=
    ⟨.malloc 16,fun h => absurd h hresolved,rfl⟩
  obtain ⟨hsound,hkeeps⟩ := careful_sound ((Relation.ReflTransGen.single hboot).tail hheap)
  have hnone : ∀ b ∈ (exec lateEnv (.malloc 16) (exec lateEnv (.malloc 8) .start)).live, b.origin ≠ .routed := by decide
  refine ⟨_,by decide,hsound,hkeeps 0x30000 32 ⟨by decide,?_⟩⟩
  exact fun b hb _ horigin => absurd horigin (hnone b hb)

/-- A block of the static buffer is passed to the real `realloc`. -/
theorem realloc_bootstrap_not_sound : ∃ s, Relation.ReflTransGen (AnyStep lateEnv) .start s ∧ ¬Sound lateEnv s := by
  refine ⟨_,(Relation.ReflTransGen.single ⟨.malloc 8,rfl⟩).tail ⟨.realloc 4096 16,rfl⟩,fun h => ?_⟩
  exact absurd h.rightful (by decide)

end Runs

end Machismo.Shim.Alloc
