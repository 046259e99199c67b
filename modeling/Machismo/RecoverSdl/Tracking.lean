import Machismo.RecoverSdl.RegisterFile

/-! # One instruction of the tracker

What `string_references` takes an instruction for, and what one round of its loop does with that.
-/
namespace Machismo.RecoverSdl
open Machismo.Resolver (Name)

/-- A way to find a value for the destination, by the registers of the disassembler. -/
inductive Reading where
  | constant (v : ℤ)
  | sum (n : ℕ) (k : ℤ)
  | copy (n : ℕ)
  | pointer (location : ℤ)
  | pointerFrom (n : ℕ) (disp : ℤ)
  deriving DecidableEq

def Reading.source : Reading → Option ℕ
  | constant _ => none
  | sum n _ => some n
  | copy n => some n
  | pointer _ => none
  | pointerFrom n _ => some n

/-- What the tool takes an instruction for.  An index register is passed over, and a base that is the destination
is gone when it is asked for. -/
def Insn.takenFor (i : Insn) : Option Reading :=
  if i.mnemonic = "adr".toList ∨ i.mnemonic = "adrp".toList then
    match i.operands with
    | _ :: .imm v _ :: _ => some (.constant v)
    | _ => none
  else if i.mnemonic = "add".toList then
    match i.operands with
    | _ :: .reg n :: .imm v shift :: _ => some (.sum n (v*2^shift))
    | _ => none
  else if i.mnemonic = "mov".toList then
    match i.operands with
    | _ :: .reg n :: _ => some (.copy n)
    | _ => none
  else if "ldr".toList <+: i.mnemonic then
    match i.operands with
    | _ :: .imm v _ :: _ => some (.pointer v)
    | _ :: .mem base _ disp :: _ => if i.destination = some base then none else some (.pointerFrom base disp)
    | _ => none
  else none

namespace MachO
variable (X : MachO)

/-- The entry of the destination goes before anything is assigned. -/
def popped (known : Option ℕ → Option ℤ) (destination : Option ℕ) : Option ℕ → Option ℤ :=
  match destination with
  | some r => Function.update known (some r) none
  | none => known

/-- The pointer that the file has at an address, as the tool has numbers. -/
def pointerValue (location : ℤ) : Option ℤ := (X.pointerAt location).map Int.ofNat

def found (known : Option ℕ → Option ℤ) : Reading → Option ℤ
  | .constant v => some v
  | .sum n k => (known (some n)).map (· + k)
  | .copy n => known (some n)
  | .pointer location => X.pointerValue location
  | .pointerFrom n disp => (known (some n)).bind fun base => X.pointerValue (base+disp)

/-- The value that the tool finds for the destination. -/
def assigned (known : Option ℕ → Option ℤ) (i : Insn) : Option ℤ := i.takenFor.bind (X.found known)

/-- The register that is not there is only ever given a value. -/
def settle (known : Option ℕ → Option ℤ) (destination : Option ℕ) (value : Option ℤ) : Option ℕ → Option ℤ :=
  if destination = none ∧ value = none then known else Function.update known destination value

def referencesTo (site : ℕ) (value : Option ℤ) : List Reference :=
  match value with
  | none => []
  | some v => match X.stringForAddress v with
    | some entry => [⟨site,v,entry.value⟩]
    | none => []

theorem referencesTo_map (site : ℕ) (value : Option ℤ) :
    (X.referencesTo site value).map (fun r => (r.instruction,r.address)) = X.reports site value := by
  cases value with
  | none => rfl
  | some v =>
    unfold referencesTo reports
    dsimp only
    cases X.stringForAddress v with
    | none => rfl
    | some entry => rfl

theorem assign_popped (known : Known) (destination : Option ℕ) (v : ℤ) (site : ℕ) :
    X.assign (popped known.1 destination,known.2) destination v site =
      (settle known.1 destination (some v),known.2 ++ X.referencesTo site (some v)) := by
  unfold assign settle referencesTo
  dsimp only
  congr 1
  · rw [if_neg fun h => nomatch h.2]
    cases destination with
    | none => rfl
    | some r => exact Function.update_idem _ _ _
  · cases X.stringForAddress v with
    | none => exact (List.append_nil _).symm
    | some entry => rfl

theorem popped_settle (known : Option ℕ → Option ℤ) (destination : Option ℕ) :
    popped known destination = settle known destination none := by
  unfold settle
  cases destination with
  | none => exact (if_pos ⟨rfl,rfl⟩).symm
  | some r => exact (if_neg fun h => nomatch h.1).symm

theorem popped_apply (known : Option ℕ → Option ℤ) (destination : Option ℕ) (base : ℕ) :
    popped known destination (some base) = if destination = some base then none else known (some base) := by
  cases destination with
  | none => rfl
  | some r =>
    by_cases h : base = r
    · subst h
      exact (Function.update_self _ _ _).trans (if_pos rfl).symm
    · have hne : (some base : Option ℕ) ≠ some r := fun heq => h (Option.some.inj heq)
      exact (Function.update_of_ne hne _ _).trans (if_neg hne.symm).symm

/-- What `track` makes of a value that it has or has not found. -/
def trackWith (known : Known) (i : Insn) (value : Option ℤ) : Known :=
  match value with
  | none => (popped known.1 i.destination,known.2)
  | some v => X.assign (popped known.1 i.destination,known.2) i.destination v i.address

theorem assign_pointerValue (known : Known) (destination : Option ℕ) (site : ℕ) (base : Option ℤ) (disp : ℤ) :
    (match base.map (· + disp) with
      | some location => match X.pointerAt location with
        | some pointer => X.assign known destination pointer site
        | none => known
      | none => known) =
    match base.bind fun b => X.pointerValue (b+disp) with
      | none => known
      | some v => X.assign known destination v site := by
  cases base with
  | none => rfl
  | some b =>
    dsimp only [Option.map_some,Option.bind_some,pointerValue]
    cases X.pointerAt (b+disp) <;> rfl

theorem assign_pointerFrom (known : Known) (destination : Option ℕ) (site base : ℕ) (disp : ℤ) :
    (match (popped known.1 destination (some base)).map (· + disp) with
      | some location => match X.pointerAt location with
        | some pointer => X.assign (popped known.1 destination,known.2) destination pointer site
        | none => (popped known.1 destination,known.2)
      | none => (popped known.1 destination,known.2)) =
    match (if destination = some base then none else some (Reading.pointerFrom base disp)).bind (X.found known.1) with
      | none => (popped known.1 destination,known.2)
      | some v => X.assign (popped known.1 destination,known.2) destination v site := by
  rw [assign_pointerValue,popped_apply]
  by_cases h : destination = some base
  · rw [if_pos h,if_pos h]
    rfl
  · rw [if_neg h,if_neg h]
    rfl

theorem sourceRegister_cons (address size : ℕ) (mnemonic : Name) (a : Operand) (n : ℕ) (rest : List Operand) :
    (⟨address,size,mnemonic,a :: .reg n :: rest⟩ : Insn).sourceRegister = some n :=
  rfl

theorem track_eq_trackWith (known : Known) (i : Insn) :
    X.track known i = X.trackWith known i (X.assigned known.1 i) := by
  obtain ⟨address,size,mnemonic,operands⟩ := i
  unfold track trackWith assigned Insn.takenFor
  dsimp only
  split
  next =>
    rcases operands with _ | ⟨_ | _ | _ | _,_ | ⟨_ | _ | _ | _,_⟩⟩
    all_goals rfl
  next =>
  split
  next =>
    rcases operands with _ | ⟨_ | _ | _ | _,_ | ⟨n | _ | _ | _,_ | ⟨_ | _ | _ | _,_⟩⟩⟩
    all_goals first
      | rfl
      | rw [sourceRegister_cons]
        dsimp only [Option.bind_some,found]
        cases known.1 (some n) <;> rfl
  next =>
  split
  next =>
    rcases operands with _ | ⟨_ | _ | _ | _,_ | ⟨n | _ | _ | _,_⟩⟩
    all_goals first
      | rfl
      | rw [sourceRegister_cons]
        dsimp only [Option.bind_some,found]
        cases known.1 (some n) <;> rfl
  next =>
  split
  next =>
    rcases operands with _ | ⟨r | _ | _ | _,_ | ⟨_ | ⟨v,_⟩ | ⟨base,_,disp⟩ | _,_⟩⟩
    all_goals first
      | rfl
      | exact X.assign_pointerFrom known (some r) address base disp
      | exact X.assign_pointerFrom known none address base disp
      | dsimp only [Option.bind_some,found,pointerValue]
        cases X.pointerAt v <;> rfl
  next =>
    rcases operands with _ | ⟨_ | _ | _ | _,_⟩
    all_goals rfl

theorem track_eq (known : Known) (i : Insn) : X.track known i =
    (settle known.1 i.destination (X.assigned known.1 i),
      known.2 ++ X.referencesTo i.address (X.assigned known.1 i)) := by
  rw [track_eq_trackWith]
  unfold trackWith
  cases X.assigned known.1 i with
  | none => exact Prod.ext (popped_settle _ _) (List.append_nil _).symm
  | some v => exact X.assign_popped known i.destination v i.address

theorem mem_reports {site s : ℕ} {value : Option ℤ} {v : ℤ} :
    (s,v) ∈ X.reports site value ↔ s = site ∧ value = some v ∧ (X.stringForAddress v).isSome := by
  unfold reports
  cases value with
  | none => simp
  | some w =>
    dsimp only
    split
    next hstring =>
      rw [List.mem_singleton,Prod.mk.injEq,Option.some.injEq]
      constructor
      · rintro ⟨hs,rfl⟩
        exact ⟨hs,rfl,hstring⟩
      · rintro ⟨hs,rfl,-⟩
        exact ⟨hs,rfl⟩
    next hnone =>
      refine iff_of_false List.not_mem_nil ?_
      rintro ⟨-,heq,hstring⟩
      exact hnone (Option.some.inj heq ▸ hstring)

theorem reports_some_eq_nil (site : ℕ) (v : ℤ) : X.reports site (some v) = [] ↔ X.stringForAddress v = none := by
  rw [← Option.not_isSome_iff_eq_none]
  refine ite_eq_right_iff.trans ⟨?_,fun h hsome => absurd hsome h⟩
  intro h hsome
  cases h hsome

theorem reports_some_eq_iff (site : ℕ) {v w : ℤ} (h : v ≠ w) : X.reports site (some v) = X.reports site (some w) ↔
    X.stringForAddress v = none ∧ X.stringForAddress w = none := by
  rw [← X.reports_some_eq_nil site v,← X.reports_some_eq_nil site w]
  constructor
  · intro heq
    have hnil : X.reports site (some v) = [] := by
      rw [List.eq_nil_iff_forall_not_mem]
      rintro ⟨s,u⟩ hmem
      have hv := (X.mem_reports.mp hmem).2.1
      have hw := (X.mem_reports.mp (heq ▸ hmem)).2.1
      exact h (Option.some.inj (hv.trans hw.symm))
    exact ⟨hnil,heq.symm.trans hnil⟩
  · rintro ⟨hv,hw⟩
    exact hv.trans hw.symm

/-- The references from some knowledge of the registers on. -/
def referencesFrom (known : Option ℕ → Option ℤ) : List Insn → List Reference
  | [] => []
  | i :: insns => X.referencesTo i.address (X.assigned known i) ++
      referencesFrom (settle known i.destination (X.assigned known i)) insns

theorem foldl_track (insns : List Insn) (known : Known) :
    (insns.foldl X.track known).2 = known.2 ++ X.referencesFrom known.1 insns := by
  induction insns generalizing known with
  | nil => exact (List.append_nil _).symm
  | cons i insns ih =>
    rw [List.foldl_cons,ih,track_eq,List.append_assoc]
    rfl

theorem stringReferences_eq (insns : List Insn) :
    X.stringReferences insns = X.referencesFrom (fun _ => none) insns :=
  X.foldl_track insns _

end MachO

end Machismo.RecoverSdl
