import Machismo.A64.Run

/-! # One thread among others

A thread runs a fragment while other threads change the memory it does not own and clear its
exclusive monitor when they store into the marked span. A task says what the fragment is for: to
take effect on the shared memory exactly once, as `act` does, and to end with the registers `done`
allows. `Safe n` says that the next `n` steps keep to this under every interference; the rules
below run straight code, exclusive accesses and branches symbolically.
-/
namespace Machismo.A64

structure Task where
  code : ℤ → Option Insn
  last : ℤ
  own : Addr → Prop
  act : Memory → Memory
  keeps : Memory → Bool
  done : Core → Memory → Prop

/-- What other threads may do between two steps of this one. -/
structure Interfere (own : Addr → Prop) (mon : Option (Addr × ℕ)) (m : Memory) (mon' : Option (Addr × ℕ))
    (m' : Memory) : Prop where
  own : ∀ b, own b → m' b = m b
  monitor : mon' = none ∨ mon' = mon ∧ ∀ a n, mon = some (a,n) → load m' a n = load m a n

theorem Interfere.refl (own : Addr → Prop) (mon : Option (Addr × ℕ)) (m : Memory) : Interfere own mon m mon m :=
  ⟨fun _ _ => rfl,.inr ⟨rfl,fun _ _ _ => rfl⟩⟩

theorem Interfere.trans {own : Addr → Prop} {mon mon' mon'' : Option (Addr × ℕ)} {m m' m'' : Memory}
    (h : Interfere own mon m mon' m') (h' : Interfere own mon' m' mon'' m'') : Interfere own mon m mon'' m'' := by
  refine ⟨fun b hb => (h'.own b hb).trans (h.own b hb),?_⟩
  rcases h'.monitor with hn | ⟨rfl,hl'⟩
  · exact .inl hn
  · rcases h.monitor with hn | ⟨rfl,hl⟩
    · exact .inl hn
    · exact .inr ⟨rfl,fun a n hm => (hl' a n hm).trans (hl a n hm)⟩

def Core.mark (c : Core) (mon : Option (Addr × ℕ)) : Core := { c with monitor := mon }

namespace Task
variable (T : Task)

/-- When the task takes effect: at the store-exclusive that succeeds, or at a load-exclusive whose
value makes it a no-op. The memory at that point is remembered. -/
def linearize (lin : Option Memory) (ok : Bool) (c : Core) (m : Memory) : Insn → Option Memory
  | .stxr size _ _ _ rn => if c.exclusive ok (c.base rn) (bytes size) then some m else lin
  | .ldxr .. => if T.keeps m then some m else lin
  | _ => lin

/-- A step is silent outside the owned memory or is the one effect of the task. -/
def Effect (m : Memory) (lin : Option Memory) (m' : Memory) (lin' : Option Memory) : Prop :=
  (lin' = lin ∧ ∀ b, ¬T.own b → m' b = m b) ∨
    (lin = none ∧ lin' = some m ∧ ∀ b, ¬T.own b → m' b = T.act m b)

def Safe : ℕ → Core → Memory → Option Memory → Prop
  | 0, _, _, _ => True
  | n + 1, c, m, lin => ∃ i, T.code c.pc = some i ∧ ∀ ok,
    T.Effect m lin (exec ok c m i).2 (T.linearize lin ok c m i) ∧
    if c.pc = T.last then ∃ m₀, T.linearize lin ok c m i = some m₀ ∧ T.done (exec ok c m i).1 m₀
    else ∀ mon' m', Interfere T.own (exec ok c m i).1.monitor (exec ok c m i).2 mon' m' →
      Safe n ((exec ok c m i).1.mark mon') m' (T.linearize lin ok c m i)

/-- Safe whatever the monitor is and whatever is outside the owned memory. -/
def View (n : ℕ) (c : Core) (M : Memory) (lin : Option Memory) : Prop :=
  ∀ mon m, (∀ b, T.own b → m b = M b) → T.Safe n (c.mark mon) m lin

/-- Safe while a monitor that still marks the span `(a,k)` vouches for the value `v` there. -/
def Marked (n : ℕ) (c : Core) (M : Memory) (a : Addr) (k : ℕ) (v : BitVec (8*k)) : Prop :=
  ∀ mon m, (∀ b, T.own b → m b = M b) → (mon = none ∨ mon = some (a,k) ∧ load m a k = v) →
    T.Safe n (c.mark mon) m none

end Task

/-- The instruction touches, besides registers and flags, only owned memory. -/
def Insn.ownedBy (own : Addr → Prop) (c : Core) : Insn → Prop
  | .strPre _ rn imm => ∀ b : Addr, (b - (c.base rn + imm.signExtend 64)).toNat < 8 → own b
  | .ldrPost _ rn _ => ∀ b : Addr, (b - c.base rn).toNat < 8 → own b
  | .mrsNzcv _ | .msrNzcv _ | .alu .. | .subs .. | .csel .. | .sxt .. => True
  | _ => False

theorem load_agree {own : Addr → Prop} {m M : Memory} (h : ∀ b, own b → m b = M b) {a : Addr} {n : ℕ}
    (hn : n ≤ 2^64) (ha : ∀ b : Addr, (b - a).toNat < n → own b) : load m a n = load M a n := by
  refine load_congr fun i hi => h _ (ha _ ?_)
  rw [BitVec.add_comm, BitVec.add_sub_cancel, BitVec.toNat_ofNat, Nat.mod_eq_of_lt (by omega)]
  exact hi

theorem store_agree {own : Addr → Prop} {m M : Memory} (h : ∀ b, own b → m b = M b) (a : Addr) (n : ℕ)
    (v : BitVec (8*n)) : ∀ b, own b → store m a n v b = store M a n v b := by
  intro b hb
  unfold store
  split
  · rfl
  · exact h b hb

@[simp] theorem Core.mark_mark (c : Core) (mon mon' : Option (Addr × ℕ)) : (c.mark mon).mark mon' = c.mark mon' := rfl

@[simp] theorem Core.mark_pc (c : Core) (mon : Option (Addr × ℕ)) : (c.mark mon).pc = c.pc := rfl

@[simp] theorem Core.mark_read (c : Core) (mon : Option (Addr × ℕ)) (r : Reg) : (c.mark mon).read r = c.read r := rfl

@[simp] theorem Core.mark_base (c : Core) (mon : Option (Addr × ℕ)) (r : Reg) : (c.mark mon).base r = c.base r := rfl

@[simp] theorem Core.write_mark (c : Core) (mon : Option (Addr × ℕ)) (r : Reg) (a : BitVec 64) :
    (c.mark mon).write r a = (c.write r a).mark mon := by
  unfold Core.write
  split <;> rfl

@[simp] theorem Core.setBase_mark (c : Core) (mon : Option (Addr × ℕ)) (r : Reg) (a : Addr) :
    (c.mark mon).setBase r a = (c.setBase r a).mark mon := by
  unfold Core.setBase
  split <;> rfl

@[simp] theorem Core.next_mark (c : Core) (mon : Option (Addr × ℕ)) : (c.mark mon).next = c.next.mark mon := rfl

theorem exec_owned {own : Addr → Prop} {c : Core} {M m : Memory} {i : Insn} (hi : i.ownedBy own c)
    (h : ∀ b, own b → m b = M b) (mon : Option (Addr × ℕ)) (ok : Bool) :
    (exec ok (c.mark mon) m i).1 = (exec true c M i).1.mark mon ∧
      (∀ b, own b → (exec ok (c.mark mon) m i).2 b = (exec true c M i).2 b) ∧
      ∀ b, ¬own b → (exec ok (c.mark mon) m i).2 b = m b := by
  cases i <;> simp only [Insn.ownedBy] at hi <;> simp only [exec, Core.mark_base, Core.mark_read, Core.write_mark,
    Core.setBase_mark, Core.next_mark]
  case strPre rt rn imm =>
    refine ⟨trivial,store_agree h _ 8 _,fun b hb => store_outside _ _ _ _ ?_⟩
    by_contra hlt
    exact hb (hi b (by omega))
  case ldrPost rt rn imm =>
    rw [load_agree h (by omega) hi]
    exact ⟨rfl,h,fun _ _ => trivial⟩
  all_goals exact ⟨by trivial,h,fun _ _ => trivial⟩

namespace Task
variable {T : Task}

theorem linearize_owned {c : Core} {i : Insn} (hi : i.ownedBy T.own c) (lin : Option Memory) (ok : Bool)
    (c' : Core) (m : Memory) : T.linearize lin ok c' m i = lin := by
  cases i <;> simp only [Insn.ownedBy] at hi <;> rfl

theorem View.owned {n : ℕ} {c : Core} {M : Memory} {lin : Option Memory} {i : Insn} (hc : T.code c.pc = some i)
    (hl : c.pc ≠ T.last) (hi : i.ownedBy T.own c)
    (h : ∀ k < n, T.View k (exec true c M i).1 (exec true c M i).2 lin) : T.View n c M lin := by
  intro mon m hm
  cases n with
  | zero => trivial
  | succ n =>
    refine ⟨i,hc,fun ok => ?_⟩
    obtain ⟨h1,h2,h3⟩ := exec_owned hi hm mon ok
    rw [linearize_owned hi, h1]
    refine ⟨.inl ⟨rfl,h3⟩,?_⟩
    rw [if_neg (show (c.mark mon).pc ≠ T.last from hl)]
    intro mon' m' hint
    exact h n n.lt_succ_self mon' m' fun b hb => (hint.own b hb).trans (h2 b hb)

end Task

/-- A straight block touches only owned memory, at each of its instructions. -/
def OwnedRun (own : Addr → Prop) : State → List Insn → Prop
  | _, [] => True
  | s, i :: is => i.ownedBy own s.core ∧ OwnedRun own (advance s i) is

theorem Insn.ownedBy.straight {own : Addr → Prop} {c : Core} {i : Insn} (h : i.ownedBy own c) : i.straight := by
  cases i <;> simp only [Insn.ownedBy] at h <;> rfl

theorem advance_owned {own : Addr → Prop} {c : Core} {i : Insn} (h : i.ownedBy own c) (M : Memory)
    (tr : List Access) :
    advance ⟨c,M,0,tr⟩ i = ⟨(exec true c M i).1,(exec true c M i).2,0,tr⟩ := by
  cases i <;> simp only [Insn.ownedBy] at h <;> simp [advance, Insn.isStxr, accesses]

namespace Task
variable {T : Task} {n : ℕ} {c : Core} {M : Memory}

theorem View.block {lin : Option Memory} (is : List Insn) (s : State) (hs : s.spurious = 0)
    (hc : ∀ k : ℕ, k < is.length → T.code (s.core.pc + k) = is[k]?) (hl : s.core.pc + is.length ≤ T.last)
    (ho : OwnedRun T.own s is)
    (h : ∀ k ≤ n, T.View k (is.foldl advance s).core (is.foldl advance s).mem lin) :
    T.View n s.core s.mem lin := by
  induction is generalizing s n with
  | nil => exact h n le_rfl
  | cons i is ih =>
    obtain ⟨hi,ho⟩ := ho
    have hpc : (exec true s.core s.mem i).1.pc = s.core.pc + 1 := exec_straight_pc _ _ _ hi.straight
    have hadv : advance s i = ⟨(exec true s.core s.mem i).1,(exec true s.core s.mem i).2,0,s.trace⟩ := by
      obtain ⟨c,M,sp,tr⟩ := s
      obtain rfl : sp = 0 := hs
      exact advance_owned hi M tr
    simp only [List.length_cons] at hl
    push_cast at hl
    refine View.owned (by simpa using hc 0 (by simp)) (by omega) hi fun k hk => ?_
    have hstep := ih (n := k) (advance s i) (by rw [hadv]) ?_ ?_ ho (fun j hj => h j (by omega))
    · rwa [hadv] at hstep
    · intro j hj
      have := hc (j+1) (by simpa using hj)
      rw [hadv, hpc, add_assoc, add_comm (1 : ℤ)]
      simpa using this
    · rw [hadv, hpc]
      omega

theorem View.quiet {lin : Option Memory} (c' : Core) {i : Insn} (hc : T.code c.pc = some i) (hl : c.pc ≠ T.last)
    (hlin : ∀ ok c m, T.linearize lin ok c m i = lin)
    (hq : ∀ ok mon m, ∃ mon', exec ok (c.mark mon) m i = (c'.mark mon',m))
    (h : ∀ k < n, T.View k c' M lin) : T.View n c M lin := by
  intro mon m hm
  cases n with
  | zero => trivial
  | succ n =>
    refine ⟨i,hc,fun ok => ?_⟩
    obtain ⟨mon',he⟩ := hq ok mon m
    rw [hlin, he]
    refine ⟨.inl ⟨rfl,fun _ _ => rfl⟩,?_⟩
    rw [if_neg (show (c.mark mon).pc ≠ T.last from hl)]
    intro mon'' m' hint
    exact h n n.lt_succ_self mon'' m' fun b hb => (hint.own b hb).trans (hm b hb)

theorem Marked.quiet {a : Addr} {k : ℕ} {v : BitVec (8*k)} (c' : Core) {i : Insn} (hc : T.code c.pc = some i)
    (hl : c.pc ≠ T.last) (hlin : ∀ ok c m, T.linearize none ok c m i = none)
    (hq : ∀ ok mon m, exec ok (c.mark mon) m i = (c'.mark mon,m))
    (h : ∀ j < n, T.Marked j c' M a k v) : T.Marked n c M a k v := by
  intro mon m hm hmon
  cases n with
  | zero => trivial
  | succ n =>
    refine ⟨i,hc,fun ok => ?_⟩
    rw [hlin, hq]
    refine ⟨.inl ⟨rfl,fun _ _ => rfl⟩,?_⟩
    rw [if_neg (show (c.mark mon).pc ≠ T.last from hl)]
    intro mon' m' hint
    refine h n n.lt_succ_self mon' m' (fun b hb => (hint.own b hb).trans (hm b hb)) ?_
    rcases hint.monitor with hn | ⟨rfl,hload⟩
    · exact .inl hn
    · rcases hmon with hn | ⟨hs,hv⟩
      · exact .inl hn
      · exact .inr ⟨hs,(hload a k hs).trans hv⟩

theorem View.ldxr {size : BitVec 2} {acq : Bool} {rt rn : Reg} (hc : T.code c.pc = some (.ldxr size acq rt rn))
    (hl : c.pc ≠ T.last)
    (h : ∀ k < n, ∀ m : Memory, (∀ b, T.own b → m b = M b) →
      let v := load m (c.base rn) (bytes size)
      let c' := (c.write rt (v.setWidth 64)).next
      if T.keeps m then (∀ b, ¬T.own b → m b = T.act m b) ∧ T.View k c' M (some m)
      else T.Marked k c' M (c.base rn) (bytes size) v) : T.View n c M none := by
  intro mon m hm
  cases n with
  | zero => trivial
  | succ n =>
    refine ⟨_,hc,fun ok => ?_⟩
    have hn := h n n.lt_succ_self m hm
    simp only [linearize, exec, Core.mark_base, Core.write_mark]
    rw [if_neg (show (c.mark mon).pc ≠ T.last from hl)]
    by_cases hk : T.keeps m
    · simp only [hk, ↓reduceIte] at hn ⊢
      refine ⟨.inr ⟨rfl,rfl,hn.1⟩,fun mon' m' hint => ?_⟩
      exact hn.2 mon' m' fun b hb => (hint.own b hb).trans (hm b hb)
    · simp only [hk, Bool.false_eq_true, ↓reduceIte] at hn ⊢
      refine ⟨.inl ⟨rfl,fun _ _ => rfl⟩,fun mon' m' hint => ?_⟩
      refine hn mon' m' (fun b hb => (hint.own b hb).trans (hm b hb)) ?_
      rcases hint.monitor with hnone | ⟨rfl,hload⟩
      · exact .inl hnone
      · exact .inr ⟨rfl,hload _ _ rfl⟩

/-- A store-exclusive: with the monitor still set it is the effect of the task, else it fails. -/
theorem Marked.stxr {size : BitVec 2} {rel : Bool} {rs rt rn : Reg} {v : BitVec (8*bytes size)}
    (hc : T.code c.pc = some (.stxr size rel rs rt rn)) (hl : c.pc ≠ T.last)
    (hcell : ∀ b, T.own b → bytes size ≤ (b - c.base rn).toNat)
    (hact : ∀ m, load m (c.base rn) (bytes size) = v → ∀ b, ¬T.own b →
      store m (c.base rn) (bytes size) ((c.read rt).setWidth _) b = T.act m b)
    (hok : ∀ k < n, ∀ m, load m (c.base rn) (bytes size) = v → T.View k (c.write rs 0#64).next M (some m))
    (hfail : ∀ k < n, T.View k (c.write rs 1#64).next M none) :
    T.Marked n c M (c.base rn) (bytes size) v := by
  intro mon m hm hmon
  cases n with
  | zero => trivial
  | succ n =>
    refine ⟨_,hc,fun ok => ?_⟩
    simp only [linearize, exec, Core.mark_base, Core.mark_read, Core.write_mark]
    rw [if_neg (show (c.mark mon).pc ≠ T.last from hl)]
    by_cases hx : (c.mark mon).exclusive ok (c.base rn) (bytes size) = true
    · obtain ⟨-,hset⟩ := Core.exclusive_iff.mp hx
      have hv : load m (c.base rn) (bytes size) = v := by
        rcases hmon with rfl | ⟨-,hv⟩
        · cases hset
        · exact hv
      simp only [hx, ↓reduceIte]
      refine ⟨.inr ⟨rfl,rfl,hact m hv⟩,fun mon' m' hint => hok n n.lt_succ_self m hv mon' m' fun b hb => ?_⟩
      rw [hint.own b hb, store_outside _ _ _ _ (hcell b hb), hm b hb]
    · simp only [hx, Bool.false_eq_true, ↓reduceIte]
      refine ⟨.inl ⟨rfl,fun _ _ => rfl⟩,fun mon' m' hint => hfail n n.lt_succ_self mon' m' fun b hb => ?_⟩
      exact (hint.own b hb).trans (hm b hb)

theorem View.last {imm : BitVec 26} {m₀ : Memory} (hc : T.code c.pc = some (.b imm)) (hl : c.pc = T.last)
    (hd : ∀ mon, T.done ((c.branch imm).mark mon) m₀) : T.View n c M (some m₀) := by
  intro mon m hm
  cases n with
  | zero => trivial
  | succ n =>
    refine ⟨_,hc,fun ok => ⟨.inl ⟨rfl,fun _ _ => rfl⟩,?_⟩⟩
    rw [if_pos (show (c.mark mon).pc = T.last from hl)]
    exact ⟨m₀,rfl,hd mon⟩

end Task

/-- Another thread stores into `span`: a monitor that overlaps it is cleared. -/
def Core.observe (c : Core) (span : Option (Addr × ℕ)) : Core :=
  match c.monitor, span with
  | some (a,n), some (b,k) => if Apart a n b k then c else c.mark none
  | _, _ => c

theorem Core.observe_mark (c : Core) (span mon : Option (Addr × ℕ)) : (c.observe span).mark mon = c.mark mon := by
  unfold Core.observe
  split
  · split <;> rfl
  · rfl

theorem exec_storeSpan (ok : Bool) (c : Core) (m : Memory) (i : Insn) :
    match storeSpan ok c i with
    | none => (exec ok c m i).2 = m
    | some (a,n) => ∃ v, (exec ok c m i).2 = store m a n v := by
  cases i <;> simp only [storeSpan, exec]
  case strPre => exact ⟨_,rfl⟩
  case strQPre => exact ⟨_,rfl⟩
  case stxr size rel rs rt rn =>
    split
    next h =>
      split at h
      next hx => cases h
      next hx => rw [if_neg hx]
    next h =>
      split at h
      next hx =>
        cases h
        rw [if_pos hx]
        exact ⟨_,rfl⟩
      next hx => cases h

theorem observe_interfere {own : Addr → Prop} {c d : Core} {ok : Bool} {m : Memory} {i : Insn}
    (hown : ∀ b, own b → (exec ok c m i).2 b = m b) :
    Interfere own d.monitor m (d.observe (storeSpan ok c i)).monitor (exec ok c m i).2 := by
  refine ⟨hown,?_⟩
  have hspan := exec_storeSpan ok c m i
  unfold Core.observe
  split
  next a n b k hm hs =>
    rw [hs] at hspan
    obtain ⟨v,hv⟩ := hspan
    split
    next hap =>
      refine .inr ⟨rfl,fun a' n' hm' => ?_⟩
      rw [hm] at hm'
      cases hm'
      rw [hv]
      exact load_store_apart m v hap
    next => exact .inl rfl
  next hno =>
    refine .inr ⟨rfl,fun a n hm => ?_⟩
    cases hs : storeSpan ok c i with
    | none =>
      rw [hs] at hspan
      rw [hspan]
    | some p => exact absurd hs (hno a n p.1 p.2 hm)

end Machismo.A64
