import Machismo.A64.Shared
import Machismo.IsaEmul.Refine

/-! # An island as a task among threads

An island of a word or doubleword operation, whose save slots do not overlap the cell, takes effect
exactly once: at its successful store-exclusive or, for a compare-and-swap that fails, at the
load-exclusive. Until then and afterwards it changes only its save slots, and it ends with the
registers the instruction gives, for every interference of other threads with the cell.
-/
namespace Machismo.IsaEmul
open A64

/-- The bytes of the first `n` save slots. -/
def OwnedSlots (e : Core) (n : ℕ) (b : Addr) : Prop := ∃ k < n, (b - slot e.sp (k+1)).toNat < 8

/-- The island of an operation as a task: what it does to memory and the registers it ends with. -/
def islandTask (d : LseDecoded) (a : Atomic) (e : Core) (origAddr : ℤ) : Task where
  code := fetch e.pc (emitIsland d e.pc origAddr)
  last := e.pc + (emitIsland d e.pc origAddr).length - 1
  own := OwnedSlots e (pushed d e).length
  act := fun m => (a.exec e m).2
  keeps := fun m => match a with
    | .cas size _ _ rs _ _ => load m (a.addr e) (bytes size) ≠ (e.read rs).setWidth (8*bytes size)
    | .rmw .. => false
  done := fun c m => c.x = (a.exec e m).1.x ∧ c.sp = e.sp ∧ c.flags = e.flags ∧ c.v = e.v

section Owned
variable {e : Core} {ρ : RegFile} {f : Flags} {k : ℕ} {pc : ℤ} {mon : Monitor} {n : ℕ}

theorem ownedBy_push (r : Reg) (hk : k < n) : (push r).ownedBy (OwnedSlots e n) (inIsland e ρ f k pc mon) := by
  intro b hb
  refine ⟨k,hk,?_⟩
  rw [inIsland_base, baseOf, if_pos rfl, slot_push] at hb
  exact hb

theorem ownedBy_pop (r : Reg) (hk : k < n) : (pop r).ownedBy (OwnedSlots e n) (inIsland e ρ f (k+1) pc mon) := by
  intro b hb
  rw [inIsland_base, baseOf, if_pos rfl] at hb
  exact ⟨k,hk,hb⟩

theorem OwnedRun.append {own : Addr → Prop} {s : State} {is js : List Insn} (h : OwnedRun own s is)
    (h' : OwnedRun own (is.foldl advance s) js) : OwnedRun own s (is ++ js) := by
  induction is generalizing s with
  | nil => exact h'
  | cons i is ih => exact ⟨h.1,ih h.2 h'⟩

theorem ownedRun_of_pure {own : Addr → Prop} {is : List Insn} (h : ∀ i ∈ is, isPure i) (s : State) :
    OwnedRun own s is := by
  induction is generalizing s with
  | nil => trivial
  | cons i is ih =>
    refine ⟨?_,ih (fun j hj => h j (by simp [hj])) _⟩
    have hi := h i (by simp)
    cases i <;> simp [isPure] at hi <;> trivial

theorem owned_outside {a : Addr} {l : ℕ} (hap : ∀ k < n, Apart a l (slot e.sp (k+1)) 8) {b : Addr}
    (hb : OwnedSlots e n b) : l ≤ (b - a).toNat := by
  obtain ⟨k,hk,hlt⟩ := hb
  have he : slot e.sp (k+1) + BitVec.ofNat 64 (b - slot e.sp (k+1)).toNat = b := by
    rw [BitVec.ofNat_toNat, BitVec.setWidth_eq, BitVec.add_comm, BitVec.sub_add_cancel]
  have := (hap k hk).symm.toNat_sub hlt
  rwa [he] at this

end Owned

theorem exec_x (a : Atomic) (e : Core) (m : Memory) :
    (a.exec e m).1.x = setReg e.x a.dest ((load m (a.addr e) a.nbytes).setWidth 64) := by
  simp only [Atomic.exec, Core.next, Core.write, setReg]
  split <;> rfl

/-- Restored registers are the entry registers, with the old value in the destination. -/
theorem Restored.eq_setReg {saved : List Reg} {e : Core} {ρ : RegFile} {M : Memory} {dest : Reg} {old : BitVec 64}
    (h : Restored saved e ρ M dest old) (hdest : dest ∉ saved)
    (hM : ∀ k (hk : k < saved.length), load M (slot e.sp (k+1)) 8 = e.x (saved.get ⟨k,hk⟩)) :
    ρ = setReg e.x dest old := by
  funext r
  by_cases hr : r ∈ saved
  · obtain ⟨⟨k,hk⟩,rfl⟩ := List.get_of_mem hr
    rw [h.slots k hk, hM k hk]
    unfold setReg
    split
    · rfl
    · rw [Function.update_of_ne]
      intro heq
      exact hdest (heq ▸ hr)
  · exact h.regs r hr

section Code
variable {code : ℤ → Option Insn} {base : ℤ} {l : List Insn} (hcode : ∀ k : ℕ, code (base + k) = l[k]?)
include hcode

theorem code_segment {pre is post : List Insn} (hl : l = pre ++ is ++ post) {pc : ℤ} (hpc : pc = base + pre.length)
    {k : ℕ} (hk : k < is.length) : code (pc + k) = is[k]? := by
  rw [hpc, add_assoc, ← Nat.cast_add, hcode, hl, List.getElem?_append_left (by simp; omega),
    List.getElem?_append_right (by omega), Nat.add_sub_cancel_left]

theorem code_at {pre post : List Insn} {i : Insn} (hl : l = pre ++ i :: post) {pc : ℤ}
    (hpc : pc = base + pre.length) : code pc = some i := by
  rw [hpc, hcode, hl]
  simp

end Code

/-- The instructions between the load- and the store-exclusive, while the monitor stands. -/
theorem marked_pure {T : Task} {n : ℕ} (e : Core) (M : Memory) (a : Addr) (j k : ℕ) (v : BitVec (8*k))
    (is : List Insn) (hp : ∀ i ∈ is, isPure i) (s : RegFile × Flags) (pc : ℤ)
    (hc : ∀ i : ℕ, i < is.length → T.code (pc + i) = is[i]?) (hl : pc + is.length ≤ T.last)
    (h : ∀ i ≤ n, T.Marked i (inIsland e (is.foldl pureStep s).1 (is.foldl pureStep s).2 j (pc + is.length) none)
      M a k v) :
    T.Marked n (inIsland e s.1 s.2 j pc none) M a k v := by
  induction is generalizing s pc n with
  | nil => simpa using h n le_rfl
  | cons i is ih =>
    have hi := hp i (by simp)
    simp only [List.length_cons] at hl
    push_cast at hl
    refine Task.Marked.quiet (inIsland e (pureStep s i).1 (pureStep s i).2 j (pc+1) none)
      (by simpa using hc 0 (by simp)) (by simp only [inIsland_pc]; omega) ?_ ?_ fun q hq => ?_
    · intro ok c m
      cases i <;> simp [isPure] at hi <;> rfl
    · intro ok mon m
      exact exec_pure e s j pc mon ok m hi
    · refine ih (fun i hi => hp i (by simp [hi])) _ _ ?_ (by omega) fun q' hq' => ?_
      · intro r hr
        have := hc (r+1) (by simpa using hr)
        rw [add_assoc, add_comm (1 : ℤ)]
        simpa using this
      · have := h q' (by omega)
        rw [List.length_cons, Nat.cast_succ, add_comm (is.length : ℤ), ← add_assoc] at this
        exact this

/-- What the proof uses of the task of a read-modify-write island. -/
structure RmwTask (T : Task) (d : LseDecoded) (s1 s2 s3 : Reg) (off : ℤ) (e : Core) : Prop where
  scratch : Scratch d [s1,s2,s3]
  op : d.op ≠ .cas
  rn : d.rn ≠ 31#5
  code : ∀ k : ℕ, T.code (e.pc + k) = (rmwInsns d s1 s2 s3 off)[k]?
  last : T.last = e.pc + (rmwInsns d s1 s2 s3 off).length - 1
  own : T.own = OwnedSlots e 4
  keeps : ∀ m, T.keeps m = false
  cell : ∀ b, T.own b → bytes d.size ≤ (b - e.base d.rn).toNat
  act : ∀ m, T.act m = store m (e.base d.rn) (bytes d.size)
    ((newVal d ((load m (e.base d.rn) (bytes d.size)).setWidth 64) (e.read d.rs)).setWidth _)
  done : ∀ c m, c.x = setReg e.x d.rt ((load m (e.base d.rn) (bytes d.size)).setWidth 64) → c.sp = e.sp →
    c.flags = e.flags → c.v = e.v → T.done c m

section Rmw
variable {T : Task} {d : LseDecoded} {s1 s2 s3 : Reg} {off : ℤ} {e : Core} (h : RmwTask T d s1 s2 s3 off e)
include h

theorem RmwTask.save_owned (M : Memory) : OwnedRun T.own ⟨e,M,0,[]⟩ (rmwSave s1 s2 s3) := by
  have hs := h.scratch
  have he : (⟨e,M,0,[]⟩ : State) = ⟨inIsland e e.x e.flags 0 e.pc e.monitor,M,0,[]⟩ := by rw [inIsland_entry]
  rw [h.own, he]
  simp only [rmwSave, OwnedRun, advance_push _ _ _ _ _ _ _ _ _ hs.s1_ne_xzr,
    advance_push _ _ _ _ _ _ _ _ _ hs.s2_ne_xzr, advance_push _ _ _ _ _ _ _ _ _ hs.s3_ne_xzr,
    advance_mrs _ _ _ _ _ _ _ _ _ hs.s1_ne_xzr]
  exact ⟨ownedBy_push _ (by omega),ownedBy_push _ (by omega),ownedBy_push _ (by omega),trivial,
    ownedBy_push _ (by omega),trivial⟩

theorem RmwTask.tail_owned (ρ : RegFile) (f : Flags) (pc : ℤ) (M : Memory) :
    OwnedRun T.own ⟨inIsland e ρ f 4 pc none,M,0,[]⟩ (moveResult d d.rt s1 ++ rmwRestore s1 s2 s3) := by
  have hs := h.scratch
  refine OwnedRun.append (ownedRun_of_pure (isPure_moveResult d d.rt s1) _) ?_
  rw [moveResult_run, h.own]
  simp only [rmwRestore, OwnedRun, advance_pop _ _ _ _ _ _ _ _ _ hs.s1_ne_xzr,
    advance_pop _ _ _ _ _ _ _ _ _ hs.s2_ne_xzr, advance_pop _ _ _ _ _ _ _ _ _ hs.s3_ne_xzr,
    advance_msr _ _ _ _ _ _ _ _ _ hs.s1_ne_xzr]
  exact ⟨ownedBy_pop _ (by omega),trivial,ownedBy_pop _ (by omega),ownedBy_pop _ (by omega),
    ownedBy_pop _ (by omega),trivial⟩

theorem RmwTask.tail (n : ℕ) {ρ : RegFile} (hρ : AgreeOff [s1,s2,s3] ρ e.x) (f : Flags) (m₀ M : Memory)
    (hv : ρ s1 = (load m₀ (e.base d.rn) (bytes d.size)).setWidth 64) :
    T.View n (inIsland e ρ f 4 (e.pc + 6 + (rmwBody d s1 s2 s3).length) none) (rmwSaved e s1 s2 s3 M) (some m₀) := by
  have hsplit : rmwInsns d s1 s2 s3 off = (rmwSave s1 s2 s3 ++ rmwBody d s1 s2 s3 ++ [rmwRetry d s1 s2 s3]) ++
      (moveResult d d.rt s1 ++ rmwRestore s1 s2 s3) ++ [Insn.b (BitVec.ofInt 26 off)] := by
    simp [rmwInsns]
  have hpc : e.pc + 6 + ((rmwBody d s1 s2 s3).length : ℤ) =
      e.pc + (rmwSave s1 s2 s3 ++ rmwBody d s1 s2 s3 ++ [rmwRetry d s1 s2 s3]).length := by
    simp only [rmwSave, List.length_append, List.length_cons, List.length_nil]
    push_cast
    ring
  have hpc' : e.pc + 6 + ((rmwBody d s1 s2 s3).length : ℤ) + (moveResult d d.rt s1 ++ rmwRestore s1 s2 s3).length =
      e.pc + (rmwSave s1 s2 s3 ++ rmwBody d s1 s2 s3 ++ [rmwRetry d s1 s2 s3] ++
        (moveResult d d.rt s1 ++ rmwRestore s1 s2 s3)).length := by
    rw [hpc, add_assoc, ← Nat.cast_add, ← List.length_append]
  have hlast : T.last = e.pc + 6 + ((rmwBody d s1 s2 s3).length : ℤ) +
      (moveResult d d.rt s1 ++ rmwRestore s1 s2 s3).length := by
    rw [h.last, hpc', hsplit, List.length_append, List.length_singleton]
    omega
  obtain ⟨ρ',hend,hr⟩ := rmwTail_fold h.scratch e hρ f _ hv (e.pc + 6 + (rmwBody d s1 s2 s3).length) none
    (rmwSaved e s1 s2 s3 M) 0 []
  refine Task.View.block (moveResult d d.rt s1 ++ rmwRestore s1 s2 s3)
    ⟨inIsland e ρ f 4 (e.pc + 6 + (rmwBody d s1 s2 s3).length) none,rmwSaved e s1 s2 s3 M,0,[]⟩ rfl
    (fun k hk => code_segment h.code hsplit hpc hk) (by rw [hlast]; rfl) (h.tail_owned ..) fun k _ => ?_
  rw [hend]
  refine Task.View.last (code_at h.code hsplit hpc') hlast.symm fun mon => ?_
  have hslots : ∀ k (hk : k < 4), load (rmwSaved e s1 s2 s3 M) (slot e.sp (k+1)) 8 =
      [e.x s1,e.x s2,e.x s3,e.flags.toReg].get ⟨k,hk⟩ := by
    intro k hk
    rw [rmwSaved_eq, add_comm k 1]
    exact load_saves e.sp 1 [e.x s1,e.x s2,e.x s3,e.flags.toReg] (by simp) M hk
  refine h.done _ m₀ (hr.eq_setReg h.scratch.rt fun k hk => ?_) (slot_zero _) ?_ rfl
  · have hk3 : k < 3 := hk
    obtain rfl | rfl | rfl : k = 0 ∨ k = 1 ∨ k = 2 := by omega
    · exact hslots 0 (by omega)
    · exact hslots 1 (by omega)
    · exact hslots 2 (by omega)
  · have hf := hslots 3 (by omega)
    simp only [Core.mark, Core.branch, inIsland]
    rw [hf]
    exact Flags.ofReg_toReg e.flags

theorem RmwTask.base_eq {ρ : RegFile} (hρ : AgreeOff [s1,s2,s3] ρ e.x) (f : Flags) (k : ℕ) (pc : ℤ) (mon : Monitor) :
    (inIsland e ρ f k pc mon).base d.rn = e.base d.rn := by
  rw [inIsland_base, baseOf, if_neg h.rn, hρ d.rn h.scratch.rn, Core.base, if_neg h.rn]

theorem RmwTask.length_le : e.pc + 7 + ((opInsns d s1 s2 s3).length : ℤ) < T.last := by
  rw [h.last]
  simp only [rmwInsns, rmwSave, rmwBody, rmwRestore, List.length_append, List.length_cons, List.length_nil]
  omega

/-- The retry branch, after a store-exclusive that left its status in the third scratch register. -/
theorem RmwTask.retry {n : ℕ} {ρ : RegFile} (f : Flags) (M : Memory) (lin : Option Memory)
    (hz : ∀ k < n, ρ s3 = 0#64 → T.View k (inIsland e ρ f 4 (e.pc + 6 + (rmwBody d s1 s2 s3).length) none) M lin)
    (hnz : ∀ k < n, ρ s3 = 1#64 → T.View k (inIsland e ρ f 4 (e.pc + 5) none) M lin)
    (hs : ρ s3 = 0#64 ∨ ρ s3 = 1#64) :
    T.View n (inIsland e ρ f 4 (e.pc + 5 + (rmwBody d s1 s2 s3).length) none) M lin := by
  have hlen : (rmwBody d s1 s2 s3).length = (opInsns d s1 s2 s3).length + 2 := by simp [rmwBody]
  have hlt := h.length_le
  have hcode : T.code (e.pc + 5 + (rmwBody d s1 s2 s3).length) = _ := code_at h.code
    (show rmwInsns d s1 s2 s3 off = (rmwSave s1 s2 s3 ++ rmwBody d s1 s2 s3) ++ rmwRetry d s1 s2 s3 ::
      (moveResult d d.rt s1 ++ rmwRestore s1 s2 s3 ++ [Insn.b (BitVec.ofInt 26 off)]) by simp [rmwInsns])
    (by rw [List.length_append, Nat.cast_add, add_assoc]; rfl)
  have hexec := fun ok mon m => exec_cbnz e ρ f 4 (e.pc + 5 + (rmwBody d s1 s2 s3).length) mon ok m s3
    (BitVec.ofInt 19 (-(rmwBody d s1 s2 s3).length))
  rw [operand_of_ne _ h.scratch.s3_ne_xzr, retryOffset_toInt] at hexec
  rcases hs with h0 | h1
  · refine Task.View.quiet (inIsland e ρ f 4 (e.pc + 6 + (rmwBody d s1 s2 s3).length) none) hcode
      (by simp only [inIsland_pc]; omega) (fun _ _ _ => rfl) (fun ok mon m => ⟨mon,?_⟩) fun k hk => hz k hk h0
    have hpc : e.pc + 5 + ((rmwBody d s1 s2 s3).length : ℤ) + 1 = e.pc + 6 + (rmwBody d s1 s2 s3).length := by ring
    refine (hexec ok mon m).trans ?_
    rw [h0, if_pos (by decide), hpc]
    rfl
  · refine Task.View.quiet (inIsland e ρ f 4 (e.pc + 5) none) hcode
      (by simp only [inIsland_pc]; omega) (fun _ _ _ => rfl) (fun ok mon m => ⟨mon,?_⟩) fun k hk => hnz k hk h1
    refine (hexec ok mon m).trans ?_
    rw [h1, if_neg (by decide), add_neg_cancel_right]
    rfl

/-- The loop, by induction on the number of steps looked ahead. -/
theorem RmwTask.head (M : Memory) (n : ℕ) {ρ : RegFile} (hρ : AgreeOff [s1,s2,s3] ρ e.x) (f : Flags) :
    T.View n (inIsland e ρ f 4 (e.pc + 5) none) (rmwSaved e s1 s2 s3 M) none := by
  have hs := h.scratch
  have hlt := h.length_le
  have hlen : (rmwBody d s1 s2 s3).length = (opInsns d s1 s2 s3).length + 2 := by simp [rmwBody]
  induction n using Nat.strong_induction_on generalizing ρ f with
  | _ n ih =>
    refine Task.View.ldxr (h.code 5) (by simp only [inIsland_pc]; omega) fun k hk m hm => ?_
    simp only [h.keeps, Bool.false_eq_true, ↓reduceIte, h.base_eq hρ]
    generalize hv : load m (e.base d.rn) (bytes d.size) = v
    have hcore : ((inIsland e ρ f 4 (e.pc+5) none).write s1 (v.setWidth 64)).next =
        inIsland e (Function.update ρ s1 (v.setWidth 64)) f 4 (e.pc+6) none :=
      write_next_inIsland e hs.s1_ne_xzr ρ f 4 (by ring) none _
    rw [hcore]
    obtain ⟨har,hr1,hr2⟩ := opInsns_after hs e h.op hρ f (v.setWidth 64)
    refine marked_pure e _ _ 4 _ v (opInsns d s1 s2 s3) (isPure_opInsns d s1 s2 s3)
      (Function.update ρ s1 (v.setWidth 64),f) (e.pc+6) ?_ (by omega) fun i hi => ?_
    · intro j hj
      exact code_segment h.code (show rmwInsns d s1 s2 s3 off = (rmwSave s1 s2 s3 ++
        [.ldxr d.size d.acquire s1 d.rn]) ++ opInsns d s1 s2 s3 ++ (.stxr d.size d.release s3 s2 d.rn ::
        rmwRetry d s1 s2 s3 :: (moveResult d d.rt s1 ++ rmwRestore s1 s2 s3 ++ [Insn.b (BitVec.ofInt 26 off)]))
        by simp [rmwInsns, rmwBody]) rfl hj
    obtain ⟨r,hr⟩ : ∃ r, r = (opInsns d s1 s2 s3).foldl pureStep (Function.update ρ s1 (v.setWidth 64),f) := ⟨_,rfl⟩
    rw [← hr] at har hr1 hr2 ⊢
    have hbase := h.base_eq har r.2 4 (e.pc + 6 + (opInsns d s1 s2 s3).length) none
    have hwrite : ∀ a, ((inIsland e r.1 r.2 4 (e.pc + 6 + (opInsns d s1 s2 s3).length) none).write s3 a).next =
        inIsland e (Function.update r.1 s3 a) r.2 4 (e.pc + 5 + (rmwBody d s1 s2 s3).length) none := by
      intro a
      have hpc : e.pc + 6 + ((opInsns d s1 s2 s3).length : ℤ) + 1 = e.pc + 5 + (rmwBody d s1 s2 s3).length := by
        rw [hlen]
        push_cast
        ring
      exact write_next_inIsland e hs.s3_ne_xzr r.1 r.2 4 hpc none a
    have hcode : T.code (e.pc + 6 + (opInsns d s1 s2 s3).length) = _ := code_at h.code
      (show rmwInsns d s1 s2 s3 off = (rmwSave s1 s2 s3 ++ .ldxr d.size d.acquire s1 d.rn :: opInsns d s1 s2 s3) ++
        .stxr d.size d.release s3 s2 d.rn :: (rmwRetry d s1 s2 s3 :: (moveResult d d.rt s1 ++
          rmwRestore s1 s2 s3 ++ [Insn.b (BitVec.ofInt 26 off)])) by simp [rmwInsns, rmwBody])
      (by simp [rmwSave]; ring)
    have hstxr := Task.Marked.stxr (T := T) (n := i) (M := rmwSaved e s1 s2 s3 M) (v := v)
      (c := inIsland e r.1 r.2 4 (e.pc + 6 + (opInsns d s1 s2 s3).length) none) hcode
      (by simp only [inIsland_pc]; omega) (by rw [hbase]; exact h.cell)
    rw [hbase, hwrite, hwrite] at hstxr
    refine hstxr ?_ ?_ ?_
    · intro m' hm' b _
      rw [h.act m', hm', inIsland_read, hr2]
    · intro j hj m' hm'
      refine h.retry r.2 _ (some m') (fun q _ _ => ?_) (fun q _ h1 => ?_) (.inl (Function.update_self ..))
      · refine h.tail q (har.update (by simp) _) r.2 m' M ?_
        rw [Function.update_of_ne hs.s1_ne_s3, hr1, hm']
      · rw [Function.update_self] at h1
        exact absurd h1 (by decide)
    · intro j hj
      refine h.retry r.2 _ none (fun q _ h0 => ?_) (fun q hq _ => ?_) (.inr (Function.update_self ..))
      · rw [Function.update_self] at h0
        exact absurd h0 (by decide)
      · exact ih q (by omega) (har.update (by simp) _) r.2

theorem RmwTask.entry (M : Memory) (n : ℕ) : T.View n e M none := by
  have hlt := h.length_le
  refine Task.View.block (rmwSave s1 s2 s3) ⟨e,M,0,[]⟩ rfl ?_ ?_ (h.save_owned M) fun k _ => ?_
  · intro k hk
    exact code_segment h.code (show rmwInsns d s1 s2 s3 off = [] ++ rmwSave s1 s2 s3 ++ (rmwBody d s1 s2 s3 ++
      [rmwRetry d s1 s2 s3] ++ moveResult d d.rt s1 ++ rmwRestore s1 s2 s3 ++ [.b (BitVec.ofInt 26 off)])
      by simp [rmwInsns]) (by simp) hk
  · simp only [rmwSave, List.length_cons, List.length_nil]
    push_cast
    omega
  · rw [rmwSave_run h.scratch]
    exact h.head M k ((AgreeOff.refl _ _).update (by simp) _) e.flags

end Rmw

/-! ## Compare-and-swap -/

/-- What the proof uses of the task of a compare-and-swap island. -/
structure CasTask (T : Task) (d : LseDecoded) (s1 s2 : Reg) (off : ℤ) (e : Core) : Prop where
  scratch : Scratch d [s1,s2]
  rn : d.rn ≠ 31#5
  code : ∀ k : ℕ, T.code (e.pc + k) = (casInsns d s1 s2 off)[k]?
  last : T.last = e.pc + (casInsns d s1 s2 off).length - 1
  own : T.own = OwnedSlots e 3
  keeps : ∀ m, T.keeps m = condHolds condNE
    (flagsAtWidth d.isX ((load m (e.base d.rn) (bytes d.size)).setWidth 64) (e.read d.rs))
  cell : ∀ b, T.own b → bytes d.size ≤ (b - e.base d.rn).toNat
  act_keeps : ∀ m, T.keeps m = true → T.act m = m
  act : ∀ m, T.keeps m = false →
    T.act m = store m (e.base d.rn) (bytes d.size) ((e.read d.rt).setWidth _)
  done : ∀ c m, c.x = setReg e.x d.rs ((load m (e.base d.rn) (bytes d.size)).setWidth 64) → c.sp = e.sp →
    c.flags = e.flags → c.v = e.v → T.done c m

section Cas
variable {T : Task} {d : LseDecoded} {s1 s2 : Reg} {off : ℤ} {e : Core} (h : CasTask T d s1 s2 off e)
include h

theorem CasTask.save_owned (M : Memory) : OwnedRun T.own ⟨e,M,0,[]⟩ (casSave s1 s2) := by
  have hs := h.scratch
  have he : (⟨e,M,0,[]⟩ : State) = ⟨inIsland e e.x e.flags 0 e.pc e.monitor,M,0,[]⟩ := by rw [inIsland_entry]
  rw [h.own, he]
  simp only [casSave, OwnedRun, advance_push _ _ _ _ _ _ _ _ _ hs.s1_ne_xzr,
    advance_push _ _ _ _ _ _ _ _ _ hs.s2_ne_xzr, advance_mrs _ _ _ _ _ _ _ _ _ hs.s1_ne_xzr]
  exact ⟨ownedBy_push _ (by omega),ownedBy_push _ (by omega),trivial,ownedBy_push _ (by omega),trivial⟩

theorem CasTask.tail_owned (ρ : RegFile) (f : Flags) (pc : ℤ) (M : Memory) :
    OwnedRun T.own ⟨inIsland e ρ f 3 pc none,M,0,[]⟩ (moveResult d d.rs s2 ++ casRestore s1 s2) := by
  have hs := h.scratch
  refine OwnedRun.append (ownedRun_of_pure (isPure_moveResult d d.rs s2) _) ?_
  rw [moveResult_run, h.own]
  simp only [casRestore, OwnedRun, advance_pop _ _ _ _ _ _ _ _ _ hs.s1_ne_xzr,
    advance_pop _ _ _ _ _ _ _ _ _ hs.s2_ne_xzr, advance_msr _ _ _ _ _ _ _ _ _ hs.s1_ne_xzr]
  exact ⟨ownedBy_pop _ (by omega),trivial,ownedBy_pop _ (by omega),ownedBy_pop _ (by omega),trivial⟩

theorem CasTask.tail (n : ℕ) {ρ : RegFile} (hρ : AgreeOff [s1,s2] ρ e.x) (f : Flags) (m₀ M : Memory)
    (hv : ρ s2 = (load m₀ (e.base d.rn) (bytes d.size)).setWidth 64) :
    T.View n (inIsland e ρ f 3 (e.pc + 9) none) (casSaved e s1 s2 M) (some m₀) := by
  have hlen := length_casInsns d s1 s2 off
  have hsplit : casInsns d s1 s2 off = (casInsns d s1 s2 off).take 10 ++ (moveResult d d.rs s2 ++ casRestore s1 s2) ++
      [Insn.b (BitVec.ofInt 26 off)] := by
    simp [casInsns, casSave]
  have hpc : e.pc + 10 = e.pc + ((casInsns d s1 s2 off).take 10).length := by
    rw [List.length_take, Nat.min_eq_left (by omega)]
    rfl
  have hpc' : e.pc + 10 + ((moveResult d d.rs s2 ++ casRestore s1 s2).length : ℤ) =
      e.pc + ((casInsns d s1 s2 off).take 10 ++ (moveResult d d.rs s2 ++ casRestore s1 s2)).length := by
    rw [hpc, add_assoc, ← Nat.cast_add, ← List.length_append]
  have hlast : T.last = e.pc + 10 + ((moveResult d d.rs s2 ++ casRestore s1 s2).length : ℤ) := by
    rw [h.last, hpc', hsplit, List.length_append, List.length_singleton, ← hsplit]
    omega
  obtain ⟨ρ',hend,hr⟩ := casTail_fold h.scratch e hρ f _ hv (e.pc + 10) none (casSaved e s1 s2 M) 0 []
  refine Task.View.quiet (inIsland e ρ f 3 (e.pc + 10) none) (h.code 9) (by simp only [inIsland_pc]; omega)
    (fun _ _ _ => rfl) (fun ok mon m => ⟨none,?_⟩) fun j _ => ?_
  · refine (exec_clrex e ρ f 3 (e.pc + 9) mon ok m).trans ?_
    rw [add_assoc]
    rfl
  refine Task.View.block (moveResult d d.rs s2 ++ casRestore s1 s2)
    ⟨inIsland e ρ f 3 (e.pc + 10) none,casSaved e s1 s2 M,0,[]⟩ rfl
    (fun k hk => code_segment h.code hsplit hpc hk) (by rw [hlast]; rfl) (h.tail_owned ..) fun k _ => ?_
  rw [hend]
  refine Task.View.last (code_at h.code hsplit hpc') hlast.symm fun mon => ?_
  have hslots : ∀ k (hk : k < 3), load (casSaved e s1 s2 M) (slot e.sp (k+1)) 8 =
      [e.x s1,e.x s2,e.flags.toReg].get ⟨k,hk⟩ := by
    intro k hk
    rw [casSaved_eq, add_comm k 1]
    exact load_saves e.sp 1 [e.x s1,e.x s2,e.flags.toReg] (by simp) M hk
  refine h.done _ m₀ (hr.eq_setReg h.scratch.rs fun k hk => ?_) (slot_zero _) ?_ rfl
  · have hk2 : k < 2 := hk
    obtain rfl | rfl : k = 0 ∨ k = 1 := by omega
    · exact hslots 0 (by omega)
    · exact hslots 1 (by omega)
  · have hf := hslots 2 (by omega)
    simp only [Core.mark, Core.branch, inIsland]
    rw [hf]
    exact Flags.ofReg_toReg e.flags

theorem CasTask.base_eq {ρ : RegFile} (hρ : AgreeOff [s1,s2] ρ e.x) (f : Flags) (k : ℕ) (pc : ℤ) (mon : Monitor) :
    (inIsland e ρ f k pc mon).base d.rn = e.base d.rn := by
  rw [inIsland_base, baseOf, if_neg h.rn, hρ d.rn h.scratch.rn, Core.base, if_neg h.rn]

theorem CasTask.length_le : e.pc + 9 < T.last := by
  have := length_casInsns d s1 s2 off
  rw [h.last]
  omega

theorem CasTask.exec_cmp {ρ : RegFile} (hρ : AgreeOff [s1,s2] ρ e.x) (f : Flags) (v : BitVec 64) (ok : Bool)
    (mon : Monitor) (m : Memory) :
    exec ok (inIsland e (Function.update ρ s2 v) f 3 (e.pc + 5) mon) m (cmpInsn d.isX s2 d.rs) =
      (inIsland e (Function.update ρ s2 v) (flagsAtWidth d.isX v (e.read d.rs)) 3 (e.pc + 6) mon,m) := by
  have hrs : operand (Function.update ρ s2 v) d.rs = e.read d.rs := by
    rw [operand_update_of_ne _ (fun he => h.scratch.rs (by simp [he])), hρ.operand h.scratch.rs]
    rfl
  refine (exec_pure e (Function.update ρ s2 v,f) 3 (e.pc + 5) mon ok m rfl).trans ?_
  simp only [cmpInsn, pureStep, operand_update_self _ h.scratch.s2_ne_xzr, hrs, add_assoc]
  rfl

omit h in
theorem exec_casBranch (ρ : RegFile) (f : Flags) (ok : Bool) (mon : Monitor) (m : Memory) :
    exec ok (inIsland e ρ f 3 (e.pc + 6) mon) m (.bcond condNE 3#19) =
      (inIsland e ρ f 3 (if condHolds condNE f then e.pc + 9 else e.pc + 7) mon,m) := by
  have h3 : (3#19).toInt = 3 := rfl
  rw [exec_bcond, h3, add_assoc, add_assoc]
  rfl

/-- The retry branch, after a store-exclusive that left its status in the first scratch register. -/
theorem CasTask.retry {n : ℕ} {ρ : RegFile} (f : Flags) (M : Memory) (lin : Option Memory)
    (hz : ∀ k < n, ρ s1 = 0#64 → T.View k (inIsland e ρ f 3 (e.pc + 9) none) M lin)
    (hnz : ∀ k < n, ρ s1 = 1#64 → T.View k (inIsland e ρ f 3 (e.pc + 4) none) M lin)
    (hs : ρ s1 = 0#64 ∨ ρ s1 = 1#64) : T.View n (inIsland e ρ f 3 (e.pc + 8) none) M lin := by
  have hlt := h.length_le
  have hexec := fun ok mon m => exec_cbnz e ρ f 3 (e.pc + 8) mon ok m s1 (BitVec.ofInt 19 (-4))
  rw [operand_of_ne _ h.scratch.s1_ne_xzr] at hexec
  rcases hs with h0 | h1
  · refine Task.View.quiet (inIsland e ρ f 3 (e.pc + 9) none) (h.code 8) (by simp only [inIsland_pc]; omega)
      (fun _ _ _ => rfl) (fun ok mon m => ⟨mon,?_⟩) fun k hk => hz k hk h0
    refine (hexec ok mon m).trans ?_
    rw [h0, if_pos (by decide), add_assoc]
    rfl
  · refine Task.View.quiet (inIsland e ρ f 3 (e.pc + 4) none) (h.code 8) (by simp only [inIsland_pc]; omega)
      (fun _ _ _ => rfl) (fun ok mon m => ⟨mon,?_⟩) fun k hk => hnz k hk h1
    refine (hexec ok mon m).trans ?_
    rw [h1, if_neg (by decide), add_assoc]
    rfl

/-- The loop, by induction on the number of steps looked ahead. -/
theorem CasTask.head (M : Memory) (n : ℕ) {ρ : RegFile} (hρ : AgreeOff [s1,s2] ρ e.x) (f : Flags) :
    T.View n (inIsland e ρ f 3 (e.pc + 4) none) (casSaved e s1 s2 M) none := by
  have hs := h.scratch
  have hlt := h.length_le
  induction n using Nat.strong_induction_on generalizing ρ f with
  | _ n ih =>
    refine Task.View.ldxr (h.code 4) (by simp only [inIsland_pc]; omega) fun k hk m hm => ?_
    simp only [h.base_eq hρ]
    have hkeeps := h.keeps m
    generalize hv : load m (e.base d.rn) (bytes d.size) = v at hkeeps ⊢
    have hcore : ((inIsland e ρ f 3 (e.pc+4) none).write s2 (v.setWidth 64)).next =
        inIsland e (Function.update ρ s2 (v.setWidth 64)) f 3 (e.pc+5) none :=
      write_next_inIsland e hs.s2_ne_xzr ρ f 3 (by ring) none _
    have hag : AgreeOff [s1,s2] (Function.update ρ s2 (v.setWidth 64)) e.x := hρ.update (by simp) _
    have hs2 : Function.update ρ s2 (v.setWidth 64) s2 = v.setWidth 64 := Function.update_self ..
    have hcmp := h.exec_cmp hρ f (v.setWidth 64)
    rw [hcore]
    generalize Function.update ρ s2 (v.setWidth 64) = ρ1 at hag hs2 hcmp ⊢
    generalize flagsAtWidth d.isX (v.setWidth 64) (e.read d.rs) = f1 at hkeeps hcmp ⊢
    have hbr := exec_casBranch (e := e) ρ1 f1
    by_cases hk : T.keeps m
    · rw [if_pos hk]
      rw [← hkeeps, if_pos hk] at hbr
      refine ⟨fun b _ => by rw [h.act_keeps m hk],?_⟩
      refine Task.View.quiet (inIsland e ρ1 f1 3 (e.pc + 6) none) (h.code 5) (by simp only [inIsland_pc]; omega)
        (fun _ _ _ => rfl) (fun ok mon m => ⟨mon,hcmp ok mon m⟩) fun j _ => ?_
      refine Task.View.quiet (inIsland e ρ1 f1 3 (e.pc + 9) none) (h.code 6) (by simp only [inIsland_pc]; omega)
        (fun _ _ _ => rfl) (fun ok mon m => ⟨mon,hbr ok mon m⟩) fun q _ => ?_
      exact h.tail q hag f1 m M (by rw [hs2, hv])
    · have hne : T.keeps m = false := by simpa using hk
      rw [if_neg hk]
      rw [← hkeeps, if_neg hk] at hbr
      refine Task.Marked.quiet (inIsland e ρ1 f1 3 (e.pc + 6) none) (h.code 5) (by simp only [inIsland_pc]; omega)
        (fun _ _ _ => rfl) hcmp fun i _ => ?_
      refine Task.Marked.quiet (inIsland e ρ1 f1 3 (e.pc + 7) none) (h.code 6) (by simp only [inIsland_pc]; omega)
        (fun _ _ _ => rfl) hbr fun j _ => ?_
      have hbase := h.base_eq hag f1 3 (e.pc + 7) none
      have hwrite : ∀ a, ((inIsland e ρ1 f1 3 (e.pc + 7) none).write s1 a).next =
          inIsland e (Function.update ρ1 s1 a) f1 3 (e.pc + 8) none := fun a =>
        write_next_inIsland e hs.s1_ne_xzr ρ1 f1 3 (by ring) none a
      have hstxr := Task.Marked.stxr (T := T) (n := j) (M := casSaved e s1 s2 M) (v := v)
        (c := inIsland e ρ1 f1 3 (e.pc + 7) none) (h.code 7) (by simp only [inIsland_pc]; omega)
        (by rw [hbase]; exact h.cell)
      rw [hbase, hwrite, hwrite] at hstxr
      refine hstxr ?_ ?_ ?_
      · intro m' hm' b _
        have hk' : T.keeps m' = false := by rw [h.keeps, hm', ← hv, ← h.keeps, hne]
        rw [h.act m' hk', inIsland_read, hag.operand hs.rt]
        rfl
      · intro q _ m' hm'
        refine h.retry f1 _ (some m') (fun q _ _ => ?_) (fun q _ h1 => ?_) (.inl (Function.update_self ..))
        · refine h.tail q (hag.update (by simp) _) f1 m' M ?_
          rw [Function.update_of_ne hs.s1_ne_s2.symm, hs2, hm']
        · rw [Function.update_self] at h1
          exact absurd h1 (by decide)
      · intro q _
        refine h.retry f1 _ none (fun q _ h0 => ?_) (fun r _ _ => ?_) (.inr (Function.update_self ..))
        · rw [Function.update_self] at h0
          exact absurd h0 (by decide)
        · exact ih r (by omega) (hag.update (by simp) _) f1

theorem CasTask.entry (M : Memory) (n : ℕ) : T.View n e M none := by
  have hlt := h.length_le
  refine Task.View.block (casSave s1 s2) ⟨e,M,0,[]⟩ rfl ?_ ?_ (h.save_owned M) fun k _ => ?_
  · intro k hk
    exact code_segment h.code (show casInsns d s1 s2 off = [] ++ casSave s1 s2 ++ (casInsns d s1 s2 off).drop 4
      from rfl) (by simp) hk
  · simp only [casSave, List.length_cons, List.length_nil]
    push_cast
    omega
  · rw [casSave_run h.scratch]
    exact h.head M k ((AgreeOff.refl _ _).update (by simp) _) e.flags

end Cas

theorem rmw_islandTask (op : RmwOp) {size : BitVec 2} {acquire release : Bool} {rs rt rn : Reg} {d : LseDecoded}
    (hd : d = ⟨.ofRmw op,size,acquire,release,rs,rt,rn⟩) (hwide : ¬size.toNat < 2) (hrn : rn ≠ 31#5) (e : Core)
    (hap : CellApart d e) (origAddr : ℤ) :
    RmwTask (islandTask d (.rmw op size acquire release rs rt rn) e origAddr) d (rmwS1 d) (rmwS2 d) (rmwS3 d)
      (backOffset e.pc origAddr (emitRmwIsland d e.pc origAddr).length) e := by
  have hop : d.op ≠ .cas := by cases op <;> simp [hd, LseOp.ofRmw]
  have hemit : emitIsland d e.pc origAddr = emitRmwIsland d e.pc origAddr := if_neg hop
  have hdec := decode_emitRmwIsland d e.pc origAddr
  have hlen : (pushed d e).length = 4 := by simp [pushed, scratch, hop]
  refine ⟨rmw_scratch d,hop,by rw [hd]; exact hrn,fun k => ?_,?_,?_,fun _ => rfl,?_,fun m => ?_,?_⟩
  · rw [← fetch_of_decode hdec k, ← hemit]
    rfl
  · rw [← length_of_decode hdec, ← hemit]
    rfl
  · rw [← hlen]
    rfl
  · exact fun b hb => owned_outside hap hb
  · subst hd
    have hs : ¬WideOperand size (e.read rs) := fun h => hwide h.1
    exact congrArg (store m (e.base rn) (bytes size))
      ((newVal_low op size acquire release rs rt rn _ _).trans (emulated_of_not_wide _ hs)).symm
  · subst hd
    intro c m hx hsp hf hv
    exact ⟨hx.trans (exec_x (.rmw op size acquire release rs rt rn) e m).symm,hsp,hf,hv⟩

theorem cas_islandTask {size : BitVec 2} {acquire acquire' release : Bool} {rs rt rn : Reg} {d : LseDecoded}
    (hd : d = ⟨.cas,size,acquire',release,rs,rt,rn⟩) (hwide : ¬size.toNat < 2) (hrn : rn ≠ 31#5) (e : Core)
    (hap : CellApart d e) (origAddr : ℤ) :
    CasTask (islandTask d (.cas size acquire release rs rt rn) e origAddr) d (casS1 d) (casS2 d)
      (backOffset e.pc origAddr (emitCasIsland d e.pc origAddr).length) e := by
  have hop : d.op = .cas := by rw [hd]
  have hemit : emitIsland d e.pc origAddr = emitCasIsland d e.pc origAddr := if_pos hop
  have hdec := decode_emitCasIsland d e.pc origAddr
  have hlen : (pushed d e).length = 3 := by simp [pushed, scratch, hop]
  refine ⟨cas_scratch d,by rw [hd]; exact hrn,fun k => ?_,?_,?_,fun m => ?_,?_,fun m hk => ?_,fun m hk => ?_,?_⟩
  · rw [← fetch_of_decode hdec k, ← hemit]
    rfl
  · rw [← length_of_decode hdec, ← hemit]
    rfl
  · rw [← hlen]
    rfl
  · have heq := equal_iff d (load m (e.base d.rn) (bytes d.size)) (e.read d.rs)
    subst hd
    have hs : ¬WideOperand size (e.read rs) := fun h => hwide h.1
    simp only [hs, not_false_eq_true, and_true] at heq
    change decide (load m (e.base rn) (bytes size) ≠ (e.read rs).setWidth _) = _
    rw [Bool.eq_iff_iff, decide_eq_true_eq, ne_eq, ← heq, Bool.not_eq_false]
  · exact fun b hb => owned_outside hap hb
  · have hne : load m (e.base rn) (bytes size) ≠ (e.read rs).setWidth _ := of_decide_eq_true hk
    exact (congrArg (store m (e.base rn) (bytes size)) (if_neg hne)).trans (store_load_same ..)
  · have heq : load m (e.base rn) (bytes size) = (e.read rs).setWidth _ := not_not.mp (of_decide_eq_false hk)
    subst hd
    exact congrArg (store m (e.base rn) (bytes size)) (if_pos heq)
  · subst hd
    intro c m hx hsp hf hv
    exact ⟨hx.trans (exec_x (.cas size acquire release rs rt rn) e m).symm,hsp,hf,hv⟩

/-- Every island of a word or doubleword operation, apart from its save slots, is safe from its entry on. -/
theorem islandTask_entry {w : Word} {d : LseDecoded} {a : Atomic} (hd : decodeLse w = some d)
    (ha : decodeAtomic w = some a) (hwide : ¬d.size.toNat < 2) (hrn : d.rn ≠ 31#5) (e : Core) (hap : CellApart d e)
    (origAddr : ℤ) (M : Memory) (n : ℕ) : (islandTask d a e origAddr).View n e M none := by
  cases a with
  | rmw op size acquire release rs rt rn =>
    obtain rfl := Option.some.inj ((decodeLse_of_rmw ha).symm.trans hd)
    exact (rmw_islandTask op rfl hwide hrn e hap origAddr).entry M n
  | cas size acquire release rs rt rn =>
    obtain rfl := Option.some.inj ((decodeLse_of_cas ha).symm.trans hd)
    exact (cas_islandTask rfl hwide hrn e hap origAddr).entry M n

end Machismo.IsaEmul
