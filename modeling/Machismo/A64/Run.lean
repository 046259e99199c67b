import Machismo.A64.Exec

/-! # Runs of a code fragment on one core

A fragment is a list of instruction words placed at a word address. Its run starts at the first
word and ends when the last word has been executed, wherever that branches to. The state counts
the spurious store-exclusive failures still to come, so that a run is deterministic and every
store-exclusive eventually succeeds; a trace records the exclusive accesses made.
-/
namespace Machismo.A64

inductive Access where
  | load (a : Addr) (n : ℕ)
  | store (a : Addr) (n : ℕ) (done : Bool)
  deriving DecidableEq, Repr

def Access.addr : Access → Addr
  | .load a _ => a
  | .store a _ _ => a

structure State where
  core : Core
  mem : Memory
  spurious : ℕ
  trace : List Access

def accesses (ok : Bool) (c : Core) : Insn → List Access
  | .ldxr size _ _ rn => [.load (c.base rn) (bytes size)]
  | .stxr size _ _ _ rn =>
    [.store (c.base rn) (bytes size) (c.exclusive ok (c.base rn) (bytes size))]
  | _ => []

def Insn.isStxr : Insn → Bool
  | .stxr .. => true
  | _ => false

def advance (s : State) (i : Insn) : State :=
  let ok := decide (s.spurious = 0)
  let r := exec ok s.core s.mem i
  ⟨r.1, r.2, if i.isStxr then s.spurious - 1 else s.spurious, s.trace ++ accesses ok s.core i⟩

/-- The instruction at a word address of the words `ws` placed at `base`. -/
def fetch (base : ℤ) (ws : List Word) (a : ℤ) : Option Insn :=
  if base ≤ a then ws[(a - base).toNat]?.bind decode else none

def runTo (code : ℤ → Option Insn) (last : ℤ) : ℕ → State → Option State
  | 0, _ => none
  | fuel + 1, s => (code s.core.pc).bind fun i =>
    if s.core.pc = last then some (advance s i) else runTo code last fuel (advance s i)

/-- The run from `s` executes the instruction at `last` and leaves the state `t`. -/
def Completes (code : ℤ → Option Insn) (last : ℤ) (s t : State) : Prop :=
  ∃ fuel, runTo code last fuel s = some t

/-- The run of a whole fragment. -/
def RunsTo (base : ℤ) (ws : List Word) (s t : State) : Prop :=
  Completes (fetch base ws) (base + ws.length - 1) s t

section Completes
variable {code : ℤ → Option Insn} {last : ℤ} {s t : State}

theorem runTo_mono {fuel : ℕ} (h : runTo code last fuel s = some t) (k : ℕ) :
    runTo code last (fuel + k) s = some t := by
  induction fuel generalizing s with
  | zero => simp [runTo] at h
  | succ fuel ih =>
    rw [Nat.add_right_comm]
    simp only [runTo] at h ⊢
    cases hc : code s.core.pc with
    | none => simp [hc] at h
    | some i =>
      simp only [hc, Option.bind_some] at h ⊢
      by_cases hl : s.core.pc = last
      · simpa only [if_pos hl] using h
      · simp only [if_neg hl] at h ⊢
        exact ih h

theorem Completes.unique {t' : State} (h : Completes code last s t) (h' : Completes code last s t') :
    t = t' := by
  obtain ⟨n,hn⟩ := h
  obtain ⟨k,hk⟩ := h'
  have h1 := runTo_mono hn k
  have h2 := runTo_mono hk n
  rw [Nat.add_comm] at h2
  exact Option.some.inj (h1.symm.trans h2)

theorem completes_last {i : Insn} (hc : code s.core.pc = some i) (hl : s.core.pc = last) :
    Completes code last s (advance s i) := ⟨1, by simp only [runTo, hc, if_pos hl, Option.bind_some]⟩

theorem completes_step {i : Insn} (hc : code s.core.pc = some i) (hl : s.core.pc ≠ last)
    (h : Completes code last (advance s i) t) : Completes code last s t := by
  obtain ⟨n,hn⟩ := h
  exact ⟨n+1, by simp [runTo, hc, hl, hn]⟩

end Completes

/-- Instructions after which control falls through. -/
def Insn.straight : Insn → Bool
  | .b _ | .bcond .. | .cbnz .. => false
  | _ => true

@[simp] theorem Core.write_pc (c : Core) (r : Reg) (a : BitVec 64) : (c.write r a).pc = c.pc := by
  unfold Core.write; split <;> rfl

@[simp] theorem Core.setBase_pc (c : Core) (r : Reg) (a : Addr) : (c.setBase r a).pc = c.pc := by
  unfold Core.setBase; split <;> rfl

theorem exec_straight_pc (ok : Bool) (c : Core) (m : Memory) {i : Insn} (h : i.straight) :
    (exec ok c m i).1.pc = c.pc + 1 := by
  cases i <;> simp [Insn.straight] at h <;> simp [exec, Core.next]
  case stxr => split <;> simp

theorem completes_block {code : ℤ → Option Insn} {last : ℤ} {t : State} (is : List Insn) (s : State)
    (hs : ∀ i ∈ is, i.straight) (hc : ∀ k : ℕ, k < is.length → code (s.core.pc + k) = is[k]?)
    (hl : s.core.pc + is.length ≤ last)
    (h : Completes code last (is.foldl advance s) t) : Completes code last s t := by
  induction is generalizing s with
  | nil => exact h
  | cons i is ih =>
    have hp : (advance s i).core.pc = s.core.pc + 1 := exec_straight_pc _ _ _ (hs i (by simp))
    simp only [List.length_cons] at hl
    push_cast at hl
    apply completes_step (i := i) (by simpa using hc 0 (by simp)) (by omega)
    apply ih (advance s i) (fun j hj => hs j (by simp [hj]))
    · intro k hk
      have := hc (k+1) (by simpa using hk)
      rw [hp, add_assoc, add_comm (1 : ℤ)]
      simpa using this
    · omega
    · exact h

/-- Where the words decode to the instructions `is`, the fragment is that instruction list. -/
theorem fetch_of_decode {base : ℤ} {ws : List Word} {is : List Insn}
    (h : ws.map decode = is.map some) (k : ℕ) : fetch base ws (base + k) = is[k]? := by
  have hk := congrArg (·[k]?) h
  simp only [List.getElem?_map] at hk
  simp only [fetch, le_add_iff_nonneg_right, Nat.cast_nonneg, ↓reduceIte, add_sub_cancel_left,
    Int.toNat_natCast]
  cases hw : ws[k]? with
  | none => cases hi : is[k]? <;> simp_all
  | some w => cases hi : is[k]? <;> simp_all

theorem length_of_decode {ws : List Word} {is : List Insn} (h : ws.map decode = is.map some) :
    ws.length = is.length := by simpa using congrArg List.length h

/-- The block rule for a segment `is` of a fragment that decodes to `pre ++ is ++ post`. -/
theorem runsTo_block {base : ℤ} {ws : List Word} {pre is post : List Insn} {s t : State}
    (hd : ws.map decode = (pre ++ is ++ post).map some) (hpost : post ≠ [])
    (hpc : s.core.pc = base + pre.length) (hs : ∀ i ∈ is, i.straight)
    (h : RunsTo base ws (is.foldl advance s) t) : RunsTo base ws s t := by
  have hlen := length_of_decode hd
  have hp := List.length_pos_of_ne_nil hpost
  simp only [List.length_append] at hlen
  refine completes_block is s hs ?_ (by omega) h
  intro k hk
  rw [hpc, add_assoc, ← Nat.cast_add, fetch_of_decode hd]
  rw [List.getElem?_append_left (by simp; omega), List.getElem?_append_right (by omega)]
  simp

theorem runsTo_at {base : ℤ} {ws : List Word} {is : List Insn} {s t : State}
    (hd : ws.map decode = is.map some) (k : ℕ) {i : Insn} (hi : is[k]? = some i) (hk : k + 1 < is.length)
    (hpc : s.core.pc = base + k) (h : RunsTo base ws (advance s i) t) : RunsTo base ws s t := by
  have hlen := length_of_decode hd
  refine completes_step ?_ (by omega) h
  rw [hpc, fetch_of_decode hd, hi]

theorem runsTo_step {base : ℤ} {ws : List Word} {pre post : List Insn} {i : Insn} {s t : State}
    (hd : ws.map decode = (pre ++ i :: post).map some) (hpost : post ≠ [])
    (hpc : s.core.pc = base + pre.length) (h : RunsTo base ws (advance s i) t) :
    RunsTo base ws s t := by
  have hp := List.length_pos_of_ne_nil hpost
  refine runsTo_at hd pre.length (by simp) ?_ hpc h
  simp only [List.length_append, List.length_cons]
  omega

theorem runsTo_last {base : ℤ} {ws : List Word} {pre : List Insn} {i : Insn} {s : State}
    (hd : ws.map decode = (pre ++ [i]).map some) (hpc : s.core.pc = base + pre.length) :
    RunsTo base ws s (advance s i) := by
  have hlen := length_of_decode hd
  simp only [List.length_append, List.length_cons, List.length_nil] at hlen
  refine completes_last ?_ (by omega)
  rw [hpc, fetch_of_decode hd]
  simp

end Machismo.A64
