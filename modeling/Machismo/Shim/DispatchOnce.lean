import Machismo.Data.Threads

/-! # `dispatch_once`

The first thread to change the predicate from 0 to 1 runs the block and stores all ones; the
others wait until they read that.  A thread that reads all ones before its compare-and-swap
takes the way of the others all the same.
-/
namespace Machismo.Shim.Once
open Machismo.Data.Threads
variable {T : Type}

/-- A block literal: whether it has a function. -/
structure Literal where
  invoke : Bool
deriving DecidableEq, Repr

/-- The block pointer and the function pointer are both there. -/
def callable : Option Literal → Bool
  | none => false
  | some blk => blk.invoke

/-- Where a thread is in `dispatch_once`. -/
inductive Pc where
  | idle
  | entered
  | claimed
  | running
  | storing
  | waiting
  | returning
deriving DecidableEq, Repr

/-- The predicate and the threads, and how often the block was begun and has ended and a call has returned. -/
structure State (T : Type) where
  predicate : ℤ
  pc : T → Pc
  invoked : ℕ
  finished : ℕ
  returned : ℕ

def State.start : State T := ⟨0,fun _ => .idle,0,0,0⟩

variable [DecidableEq T]

def State.goto (s : State T) (t : T) (pc : Pc) : State T := { s with pc := Function.update s.pc t pc }

@[simp] theorem State.goto_self (s : State T) (t : T) (pc : Pc) : (s.goto t pc).pc t = pc :=
  Function.update_self _ _ _

theorem State.goto_of_ne (s : State T) {t u : T} (h : u ≠ t) (pc : Pc) : (s.goto t pc).pc u = s.pc u :=
  Function.update_of_ne h _ _

/-- One step of thread `t`.  The block does not come back to the predicate, and ends in a step of its own. -/
inductive Step (block : Option Literal) (t : T) : State T → State T → Prop where
  | call (s : State T) : s.pc t = .idle → Step block t s (s.goto t .entered)
  | win (s : State T) : s.pc t = .entered → s.predicate = 0 →
      Step block t s { s.goto t .claimed with predicate := 1 }
  | lose (s : State T) : s.pc t = .entered → s.predicate ≠ 0 → Step block t s (s.goto t .waiting)
  | invoke (s : State T) : s.pc t = .claimed → callable block = true →
      Step block t s { s.goto t .running with invoked := s.invoked+1 }
  | skip (s : State T) : s.pc t = .claimed → callable block = false → Step block t s (s.goto t .storing)
  | finish (s : State T) : s.pc t = .running →
      Step block t s { s.goto t .storing with finished := s.finished+1 }
  | store (s : State T) : s.pc t = .storing → Step block t s { s.goto t .returning with predicate := -1 }
  | yield (s : State T) : s.pc t = .waiting → s.predicate ≠ -1 → Step block t s s
  | leave (s : State T) : s.pc t = .waiting → s.predicate = -1 → Step block t s (s.goto t .returning)
  | ret (s : State T) : s.pc t = .returning → Step block t s { s.goto t .idle with returned := s.returned+1 }

/-- How often the block was begun and has ended by the time its thread is here. -/
def Pc.owns : Pc → Option (ℕ × ℕ)
  | .claimed => some (0,0)
  | .running => some (1,0)
  | .storing => some (1,1)
  | .idle | .entered | .waiting | .returning => none

/-- Nobody has the predicate yet, or one thread has it and the others are on the way to it, or the block
has been run. -/
inductive Inv (s : State T) : Prop where
  | fresh : s.predicate = 0 → (∀ u, s.pc u ∈ [Pc.idle,.entered]) → s.invoked = 0 → s.finished = 0 →
      s.returned = 0 → Inv s
  | held (t : T) : s.predicate = 1 → (s.pc t).owns = some (s.invoked,s.finished) →
      (∀ u, u ≠ t → s.pc u ∈ [Pc.idle,.entered,.waiting]) → s.returned = 0 → Inv s
  | past : s.predicate = -1 → (∀ u, (s.pc u).owns = none) → s.invoked = 1 → s.finished = 1 → Inv s

section Safety
variable {block : Option Literal} {s s' : State T} {t u : T}

omit [DecidableEq T] in
theorem Inv.start : Inv (State.start : State T) := .fresh rfl (fun _ => by simp [State.start]) rfl rfl rfl

omit [DecidableEq T] in
theorem Inv.of_owns (h : Inv s) (ht : (s.pc t).owns ≠ none) :
    s.predicate = 1 ∧ (s.pc t).owns = some (s.invoked,s.finished) ∧
      (∀ u, u ≠ t → s.pc u ∈ [Pc.idle,.entered,.waiting]) ∧ s.returned = 0 := by
  cases h with
  | fresh _ hpc =>
    have hmem := hpc t
    simp only [List.mem_cons,List.not_mem_nil,or_false] at hmem
    rcases hmem with h | h <;> exact absurd (by rw [h]; rfl) ht
  | held w hpred hown hpc hret =>
    rcases eq_or_ne t w with rfl | hne
    · exact ⟨hpred,hown,hpc,hret⟩
    · have hmem := hpc t hne
      simp only [List.mem_cons,List.not_mem_nil,or_false] at hmem
      rcases hmem with h | h | h <;> exact absurd (by rw [h]; rfl) ht
  | past _ hpc => exact absurd (hpc t) ht

omit [DecidableEq T] in
theorem Inv.of_past (h : Inv s) (hpred : s.predicate = -1) :
    (∀ u, (s.pc u).owns = none) ∧ s.invoked = 1 ∧ s.finished = 1 := by
  cases h with
  | fresh h0 => exact absurd (h0.symm.trans hpred) (by decide)
  | held t h1 => exact absurd (h1.symm.trans hpred) (by decide)
  | past _ hpc hinv hfin => exact ⟨hpc,hinv,hfin⟩

omit [DecidableEq T] in
theorem Inv.of_returning (h : Inv s) (ht : s.pc t = .returning) : s.predicate = -1 := by
  cases h with
  | fresh _ hpc => exact absurd (hpc t) (by simp [ht])
  | held w _ hown hpc =>
    rcases eq_or_ne t w with rfl | hne
    · exact absurd hown (by simp [ht,Pc.owns])
    · exact absurd (hpc t hne) (by simp [ht])
  | past h _ => exact h

theorem Inv.goto (h : Inv s) {pc : Pc} (ht : (s.pc t).owns = none) (hown : pc.owns = none)
    (hfresh : s.predicate = 0 → pc ∈ [Pc.idle,.entered])
    (hheld : s.predicate = 1 → pc ∈ [Pc.idle,.entered,.waiting]) : Inv (s.goto t pc) := by
  cases h with
  | fresh hpred hpc hinv hfin hret =>
    refine .fresh hpred ?_ hinv hfin hret
    exact (Function.forall_update_iff s.pc fun _ pc => pc ∈ [Pc.idle,.entered]).mpr ⟨hfresh hpred,fun u _ => hpc u⟩
  | held w hpred hw hpc hret =>
    have hne : w ≠ t := by
      rintro rfl
      exact absurd (hw.symm.trans ht) (by simp)
    refine .held w hpred ?_ (fun u hu => ?_) hret
    · rwa [s.goto_of_ne hne]
    · rcases eq_or_ne u t with rfl | hut
      · rw [s.goto_self]
        exact hheld hpred
      · rw [s.goto_of_ne hut]
        exact hpc u hu
  | past hpred hpc hinv hfin =>
    refine .past hpred ?_ hinv hfin
    exact (Function.forall_update_iff s.pc fun _ pc => pc.owns = none).mpr ⟨hown,fun u _ => hpc u⟩

theorem Inv.own (h : Inv s) (ht : (s.pc t).owns ≠ none) (hpred : s'.predicate = s.predicate)
    (hpc : s'.pc = Function.update s.pc t (s'.pc t)) (hown : (s'.pc t).owns = some (s'.invoked,s'.finished))
    (hret : s'.returned = s.returned) : Inv s' := by
  obtain ⟨h1,-,hothers,h0⟩ := h.of_owns ht
  refine .held t (hpred.trans h1) hown (fun u hu => ?_) (hret.trans h0)
  rw [hpc,Function.update_of_ne hu]
  exact hothers u hu

theorem Inv.step (hblock : callable block = true) (h : Inv s) (hstep : Step block t s s') : Inv s' := by
  cases hstep with
  | call hidle => exact h.goto (by rw [hidle]; rfl) rfl (fun _ => by simp) fun _ => by simp
  | win hentered h0 =>
    cases h with
    | fresh _ hpc hinv hfin hret =>
      refine .held t rfl ?_ (fun u hu => ?_) hret
      · simp [State.goto,hinv,hfin,Pc.owns]
      · show (s.goto t .claimed).pc u ∈ _
        rw [s.goto_of_ne hu]
        exact List.mem_append_left [Pc.waiting] (hpc u)
    | held _ h1 => exact absurd (h1.symm.trans h0) (by decide)
    | past h1 => exact absurd (h1.symm.trans h0) (by decide)
  | lose hentered h0 =>
    exact h.goto (by rw [hentered]; rfl) rfl (fun hpred => absurd hpred h0) fun _ => by simp
  | invoke hclaimed =>
    have hcount := (h.of_owns (t := t) (by simp [hclaimed,Pc.owns])).2.1
    rw [hclaimed] at hcount
    obtain ⟨hinv,hfin⟩ := Prod.mk.inj (Option.some.inj hcount)
    refine h.own (t := t) (by simp [hclaimed,Pc.owns]) rfl (by simp [State.goto]) ?_ rfl
    simp [State.goto,Pc.owns,← hinv,← hfin]
  | skip _ hcall => exact absurd (hblock.symm.trans hcall) (by decide)
  | finish hrunning =>
    have hcount := (h.of_owns (t := t) (by simp [hrunning,Pc.owns])).2.1
    rw [hrunning] at hcount
    obtain ⟨hinv,hfin⟩ := Prod.mk.inj (Option.some.inj hcount)
    refine h.own (t := t) (by simp [hrunning,Pc.owns]) rfl (by simp [State.goto]) ?_ rfl
    simp [State.goto,Pc.owns,← hinv,← hfin]
  | store hstoring =>
    obtain ⟨-,hcount,hothers,-⟩ := h.of_owns (t := t) (by simp [hstoring,Pc.owns])
    rw [hstoring] at hcount
    obtain ⟨hinv,hfin⟩ := Prod.mk.inj (Option.some.inj hcount)
    refine .past rfl ?_ hinv.symm hfin.symm
    refine (Function.forall_update_iff s.pc fun _ pc => pc.owns = none).mpr ⟨rfl,fun u hu => ?_⟩
    have hmem := hothers u hu
    simp only [List.mem_cons,List.not_mem_nil,or_false] at hmem
    rcases hmem with h | h | h <;> rw [h] <;> rfl
  | yield => exact h
  | leave hwaiting hpast =>
    exact h.goto (by rw [hwaiting]; rfl) rfl (fun h0 => absurd (hpast.symm.trans h0) (by decide))
      fun h1 => absurd (hpast.symm.trans h1) (by decide)
  | ret hreturning =>
    have hpast := h.of_returning hreturning
    obtain ⟨hpc,hinv,hfin⟩ := h.of_past hpast
    refine .past hpast ?_ hinv hfin
    exact (Function.forall_update_iff s.pc fun _ pc => pc.owns = none).mpr ⟨rfl,fun u _ => hpc u⟩

end Safety

section Runs
variable {block : Option Literal}

theorem Inv.reaches (hblock : callable block = true) {s : State T} (h : Reaches (Step block) State.start s) : Inv s :=
  Reaches.invariant (fun _ _ _ hs hstep => hs.step hblock hstep) h .start

omit [DecidableEq T] in
/-- While no call has returned the block may be due, running or over; a call returns when it is over. -/
theorem Inv.exact {s : State T} (h : Inv s) : s.invoked ≤ 1 ∧ (0 < s.returned → s.invoked = 1 ∧ s.finished = 1) := by
  cases h with
  | fresh _ _ hinv _ hret => exact ⟨by omega,fun h => absurd h (by omega)⟩
  | held t _ hown _ hret =>
    refine ⟨?_,fun h => absurd h (by omega)⟩
    cases hpc : s.pc t <;> simp only [hpc,Pc.owns,reduceCtorEq,Option.some.injEq,Prod.mk.injEq] at hown <;> omega
  | past _ _ hinv hfin => exact ⟨by omega,fun _ => ⟨hinv,hfin⟩⟩

/-- The thread is in a call.  A block that runs comes to its end. -/
def InCall (s : State T) (t : T) : Prop := s.pc t ≠ .idle

theorem Step.pc_of_ne {s s' : State T} {t u : T} (h : Step block u s s') (hne : t ≠ u) : s'.pc t = s.pc t := by
  cases h <;> first | rfl | exact Function.update_of_ne hne _ _

def Pc.next (block : Option Literal) (predicate : ℤ) : Pc → Pc
  | .idle => .entered
  | .entered => if predicate = 0 then .claimed else .waiting
  | .claimed => if callable block then .running else .storing
  | .running => .storing
  | .storing => .returning
  | .waiting => if predicate = -1 then .returning else .waiting
  | .returning => .idle

theorem Step.pc_self {s s' : State T} {t : T} (h : Step block t s s') :
    s'.pc t = (s.pc t).next block s.predicate := by
  cases h with
  | call hpc => simp [hpc,Pc.next]
  | win hpc h0 => simp [hpc,h0,Pc.next,State.goto]
  | lose hpc h0 => simp [hpc,h0,Pc.next]
  | invoke hpc hcall => simp [hpc,hcall,Pc.next,State.goto]
  | skip hpc hcall => simp [hpc,hcall,Pc.next]
  | finish hpc => simp [hpc,Pc.next,State.goto]
  | store hpc => simp [hpc,Pc.next,State.goto]
  | yield hpc hpast => simp [hpc,hpast,Pc.next]
  | leave hpc hpast => simp [hpc,hpast,Pc.next]
  | ret hpc => simp [hpc,Pc.next,State.goto]

/-- The block has been run. -/
def Past (s : State T) : Prop := Inv s ∧ s.predicate = -1

theorem Past.step (hblock : callable block = true) {s s' : State T} {u : T} (h : Past s) (hstep : Step block u s s') :
    Past s' := by
  refine ⟨h.1.step hblock hstep,?_⟩
  cases hstep with
  | win _ h0 => exact absurd (h0.symm.trans h.2) (by decide)
  | store => rfl
  | _ => exact h.2

end Runs

section Progress
variable {block : Option Literal} (hblock : callable block = true) (run : FairRun (Step block) (InCall (T := T)))
include hblock

omit hblock in
/-- A thread comes to its next step, when this is the same in all states that can come before it. -/
theorem next_leadsTo {P : State T → Prop} (hP : ∀ u s s', P s → Step block u s s' → P s') (t : T) {pc pc' : Pc}
    (hpc : pc ≠ .idle) (hnext : ∀ s, P s → pc.next block s.predicate = pc') :
    run.LeadsTo (fun s => P s ∧ s.pc t = pc) fun s => P s ∧ s.pc t = pc' := by
  refine run.leadsTo_of_step t (fun s hs => ?_) (fun s s' hs hstep => ?_) fun u s s' hu hs hstep => Or.inl ?_
  · exact fun hidle => hpc (hs.2.symm.trans hidle)
  · exact ⟨hP t s s' hs.1 hstep,by rw [hstep.pc_self,hs.2,hnext s hs.1]⟩
  · exact ⟨hP u s s' hs.1 hstep,by rw [hstep.pc_of_ne hu.symm,hs.2]⟩

theorem taken (t : T) :
    run.LeadsTo (fun s => (Inv s ∧ s.pc t = .entered) ∧ s.predicate = 0) fun s => Inv s ∧ s.predicate ≠ 0 := by
  refine run.leadsTo_of_step t (fun s hs => ?_) (fun s s' hs hstep => ?_) fun u s s' hu hs hstep => ?_
  · exact fun hidle => absurd (hs.1.2.symm.trans hidle) (by decide)
  · have hinv := hs.1.1.step hblock hstep
    have hpc : s'.pc t = .claimed := by rw [hstep.pc_self,hs.1.2,hs.2]; rfl
    refine ⟨hinv,?_⟩
    rw [(hinv.of_owns (t := t) (by simp [hpc,Pc.owns])).1]
    decide
  · have hinv := hs.1.1.step hblock hstep
    by_cases h0 : s'.predicate = 0
    · exact Or.inl ⟨⟨hinv,by rw [hstep.pc_of_ne hu.symm,hs.1.2]⟩,h0⟩
    · exact Or.inr ⟨hinv,h0⟩

theorem run_to_end : run.LeadsTo (fun s => Inv s ∧ s.predicate ≠ 0) Past := by
  have hP : ∀ u (s s' : State T), Inv s → Step block u s s' → Inv s' := fun _ _ _ hs hstep => hs.step hblock hstep
  have hstore : ∀ t, run.LeadsTo (fun s => Inv s ∧ s.pc t = .storing) Past := fun t =>
    (next_leadsTo run hP t (by decide) fun _ _ => rfl).trans (.of_imp fun s hs => ⟨hs.1,hs.1.of_returning hs.2⟩)
  have hfinish : ∀ t, run.LeadsTo (fun s => Inv s ∧ s.pc t = .running) Past := fun t =>
    (next_leadsTo run hP t (by decide) fun _ _ => rfl).trans (hstore t)
  have hinvoke : ∀ t, run.LeadsTo (fun s => Inv s ∧ s.pc t = .claimed) Past := fun t =>
    (next_leadsTo run hP t (by decide) fun _ _ => by simp [Pc.next,hblock]).trans (hfinish t)
  rintro n ⟨hinv,h0⟩
  cases hinv with
  | fresh hpred => exact absurd hpred h0
  | held t hpred hown hpc hret =>
    have hinv := Inv.held t hpred hown hpc hret
    cases ht : (run.state n).pc t with
    | claimed => exact hinvoke t n ⟨hinv,ht⟩
    | running => exact hfinish t n ⟨hinv,ht⟩
    | storing => exact hstore t n ⟨hinv,ht⟩
    | _ => exact absurd hown (by simp [ht,Pc.owns])
  | past hpred hpc hrun hfin => exact ⟨n,le_rfl,.past hpred hpc hrun hfin,hpred⟩

theorem call_returns (t : T) :
    run.LeadsTo (fun s => Inv s ∧ InCall s t) fun s => Past s ∧ s.pc t = .idle := by
  have hP : ∀ u (s s' : State T), Past s → Step block u s s' → Past s' := fun _ _ _ hs hstep => hs.step hblock hstep
  have hreturning : run.LeadsTo (fun s => Past s ∧ s.pc t = .returning) fun s => Past s ∧ s.pc t = .idle :=
    next_leadsTo run hP t (by decide) fun _ _ => rfl
  have hwaiting : run.LeadsTo (fun s => Past s ∧ s.pc t = .waiting) fun s => Past s ∧ s.pc t = .idle :=
    (next_leadsTo run hP t (by decide) fun _ hs => by rw [hs.2]; rfl).trans hreturning
  have hentered : run.LeadsTo (fun s => Past s ∧ s.pc t = .entered) fun s => Past s ∧ s.pc t = .idle :=
    (next_leadsTo run hP t (by decide) fun _ hs => by rw [hs.2]; rfl).trans hwaiting
  have hpast : run.LeadsTo Past fun s => Past s ∧ s.pc t = .idle := by
    intro n hn
    have hown := (hn.1.of_past hn.2).1 t
    cases ht : (run.state n).pc t with
    | idle => exact ⟨n,le_rfl,hn,ht⟩
    | entered => exact hentered n ⟨hn,ht⟩
    | waiting => exact hwaiting n ⟨hn,ht⟩
    | returning => exact hreturning n ⟨hn,ht⟩
    | _ => exact absurd hown (by simp [ht,Pc.owns])
  have hset := (run_to_end hblock run).trans hpast
  intro n hn
  by_cases h0 : (run.state n).predicate = 0
  · have hin : (run.state n).pc t = .entered := by
      cases hn.1 with
      | fresh _ hpc => exact (by simpa using hpc t : _ ∨ _).resolve_left hn.2
      | held _ h1 => exact absurd (h1.symm.trans h0) (by decide)
      | past h1 => exact absurd (h1.symm.trans h0) (by decide)
    exact (taken hblock run t).trans hset n ⟨⟨hn.1,hin⟩,h0⟩
  · exact hset n ⟨hn.1,h0⟩

end Progress

section Once
variable {block : Option Literal}

/-- In any order of steps the block is begun at most once, and a call that has returned returned after its
end.  Where no thread is passed over for ever every call returns, so that the block is run. -/
theorem dispatch_once_runs_once (hblock : callable block = true) :
    (∀ s : State T, Reaches (Step block) .start s →
      s.invoked ≤ 1 ∧ (0 < s.returned → s.invoked = 1 ∧ s.finished = 1)) ∧
    ∀ run : FairRun (Step block) (InCall (T := T)), run.state 0 = .start → ∀ n t, InCall (run.state n) t →
      ∃ m, n ≤ m ∧ (run.state m).pc t = .idle ∧
        ∀ k, m ≤ k → (run.state k).invoked = 1 ∧ (run.state k).finished = 1 := by
  refine ⟨fun s hs => (Inv.reaches hblock hs).exact,fun run h0 n t ht => ?_⟩
  have hinv : Inv (run.state n) :=
    run.keeps (fun _ _ _ hs hstep => hs.step hblock hstep) (Nat.zero_le n) (h0 ▸ .start)
  obtain ⟨m,hm,hpast,hidle⟩ := call_returns hblock run t n ⟨hinv,ht⟩
  refine ⟨m,hm,hidle,fun k hk => ?_⟩
  have hk := run.keeps (fun _ _ _ hs hstep => Past.step hblock hs hstep) hk hpast
  exact (hk.1.of_past hk.2).2

/-- One thread and one call. -/
def alone : ℕ → State Unit
  | 0 => .start
  | 1 => ⟨0,fun _ => .entered,0,0,0⟩
  | 2 => ⟨1,fun _ => .claimed,0,0,0⟩
  | 3 => ⟨1,fun _ => .running,1,0,0⟩
  | 4 => ⟨1,fun _ => .storing,1,1,0⟩
  | 5 => ⟨-1,fun _ => .returning,1,1,0⟩
  | _ => ⟨-1,fun _ => .idle,1,1,1⟩

theorem goto_unit (s : State Unit) (t : Unit) (pc : Pc) : s.goto t pc = { s with pc := fun _ => pc } := by
  have hpc : Function.update s.pc t pc = fun _ => pc := Function.update_eq_const_of_subsingleton _ _ _
  rw [State.goto,hpc]

theorem moves_alone {n : ℕ} (hn : n < 6) (t : Unit) : Step (some ⟨true⟩) t (alone n) (alone (n+1)) := by
  interval_cases n
  · have h : Step (some ⟨true⟩) t (alone 0) ((alone 0).goto t .entered) := .call _ rfl
    rwa [goto_unit] at h
  · have h : Step (some ⟨true⟩) t (alone 1) { (alone 1).goto t .claimed with predicate := 1 } := .win _ rfl rfl
    rwa [goto_unit] at h
  · have h : Step (some ⟨true⟩) t (alone 2) { (alone 2).goto t .running with invoked := 1 } := .invoke _ rfl rfl
    rwa [goto_unit] at h
  · have h : Step (some ⟨true⟩) t (alone 3) { (alone 3).goto t .storing with finished := 1 } := .finish _ rfl
    rwa [goto_unit] at h
  · have h : Step (some ⟨true⟩) t (alone 4) { (alone 4).goto t .returning with predicate := -1 } := .store _ rfl
    rwa [goto_unit] at h
  · have h : Step (some ⟨true⟩) t (alone 5) { (alone 5).goto t .idle with returned := 1 } := .ret _ rfl
    rwa [goto_unit] at h

def aloneRun : FairRun (Step (T := Unit) (some ⟨true⟩)) InCall where
  state := alone
  turn n := if n < 6 then some () else none
  moves n t hturn := moves_alone (by by_contra hn; simp [hn] at hturn) t
  rests := by
    intro n hturn
    obtain ⟨k,rfl⟩ : ∃ k, n = k+6 := ⟨n-6,by split_ifs at hturn; omega⟩
    rfl
  fair := by
    intro n t hactive
    by_cases hn : n < 6
    · exact ⟨n,le_rfl,by simp [hn]⟩
    · obtain ⟨k,rfl⟩ : ∃ k, n = k+6 := ⟨n-6,by omega⟩
      exact absurd rfl (hactive _ le_rfl)

/-- A second thread comes while the block runs, and the first returns before it. -/
theorem dispatch_once_runs_once_overtaken :
    (∃ s : State Bool, Reaches (Step (some ⟨true⟩)) .start s ∧ s.pc false = .waiting ∧ 0 < s.returned ∧
      s.invoked = 1 ∧ s.finished = 1) ∧
    ∃ m, (aloneRun.state m).pc () = .idle ∧ ∀ k, m ≤ k → (aloneRun.state k).invoked = 1 := by
  have hreach : ∃ s : State Bool, Reaches (Step (some ⟨true⟩)) .start s ∧ s.pc false = .waiting ∧ 0 < s.returned := by
    refine ⟨_,((((((((Relation.ReflTransGen.refl.tail ⟨true,.call _ rfl⟩).tail ⟨true,.win _ rfl rfl⟩).tail
      ⟨true,.invoke _ rfl rfl⟩).tail ⟨false,.call _ rfl⟩).tail ⟨false,.lose _ rfl (by decide)⟩).tail
      ⟨true,.finish _ rfl⟩).tail ⟨true,.store _ rfl⟩).tail ⟨true,.ret _ rfl⟩),rfl,Nat.one_pos⟩
  obtain ⟨s,hs,hwaiting,hreturned⟩ := hreach
  obtain ⟨hinvoked,hfinished⟩ := ((dispatch_once_runs_once rfl).1 s hs).2 hreturned
  obtain ⟨m,-,hidle,hk⟩ := (dispatch_once_runs_once rfl).2 aloneRun rfl 1 () fun h => absurd h (by decide)
  exact ⟨⟨s,hs,hwaiting,hreturned,hinvoked,hfinished⟩,m,hidle,fun k hle => (hk k hle).1⟩

end Once

end Machismo.Shim.Once
