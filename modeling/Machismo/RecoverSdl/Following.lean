import Machismo.Data.Bytes
import Machismo.RecoverSdl.Tracking

/-! # The registers followed for the tool and the machine

They have the same values until a load has its base for its destination, an instruction is taken for one that it
is not, half of a register is overwritten, `xzr` is used, or a sum leaves the 64 bits.  From there on it is
followed what only one of them has.
-/
namespace Machismo.RecoverSdl

/-- What the tool and the machine have of a value: the same, or one of them only, or each another. -/
inductive Followed where
  | unknown
  | same (v : BitVec 64)
  | lost (v : BitVec 64)
  | made (t : ℤ)
  | two (t : ℤ) (v : BitVec 64) (different : t ≠ v.toNat)

namespace Followed

def tool : Followed → Option ℤ
  | unknown => none
  | same v => some v.toNat
  | lost _ => none
  | made t => some t
  | two t _ _ => some t

def truth : Followed → Option (BitVec 64)
  | unknown => none
  | same v => some v
  | lost v => some v
  | made _ => none
  | two _ v _ => some v

def agreed : Option (BitVec 64) → Followed
  | some v => same v
  | none => unknown

/-- Where they part; they may meet again. -/
def parted : Option ℤ → Option (BitVec 64) → Followed
  | none, none => unknown
  | none, some v => lost v
  | some t, none => made t
  | some t, some v => if h : t = v.toNat then same v else two t v h

/-- A sum beyond the 64 bits parts them. -/
def add (k : ℕ) : Followed → Followed
  | same v =>
    if v.toNat+k < 2^64 then same (v + BitVec.ofNat 64 k) else parted (some (v.toNat+k)) (some (v + BitVec.ofNat 64 k))
  | F => parted (F.tool.map (· + (k : ℤ))) (F.truth.map (· + BitVec.ofNat 64 k))

def load (X : MachO) (disp : ℤ) : Followed → Followed
  | same v =>
    if 0 ≤ v.toNat+disp ∧ v.toNat+disp < 2^64 then agreed (X.load (v + BitVec.ofInt 64 disp))
    else parted (X.pointerValue (v.toNat+disp)) (X.load (v + BitVec.ofInt 64 disp))
  | F => parted (F.tool.bind fun b => X.pointerValue (b+disp)) (F.truth.bind fun b => X.load (b + BitVec.ofInt 64 disp))

/-- What only one of them has is not the address of a C string. -/
def Harmless (X : MachO) : Followed → Prop
  | unknown => True
  | same _ => True
  | lost v => X.stringForAddress v.toNat = none
  | made t => X.stringForAddress t = none
  | two t v _ => X.stringForAddress t = none ∧ X.stringForAddress v.toNat = none

@[simp] theorem parted_tool (t : Option ℤ) (c : Option (BitVec 64)) : (parted t c).tool = t := by
  cases t with
  | none => cases c <;> rfl
  | some t =>
    cases c with
    | none => rfl
    | some v =>
      dsimp only [parted]
      split
      next h => exact congrArg some h.symm
      next => rfl

@[simp] theorem parted_truth (t : Option ℤ) (c : Option (BitVec 64)) : (parted t c).truth = c := by
  cases t with
  | none => cases c <;> rfl
  | some t =>
    cases c with
    | none => rfl
    | some v =>
      dsimp only [parted]
      split
      next => rfl
      next => rfl

theorem add_tool (k : ℕ) (F : Followed) : (F.add k).tool = F.tool.map (· + (k : ℤ)) := by
  cases F with
  | same v =>
    dsimp only [add]
    split
    next hlt =>
      have hsum : (v + BitVec.ofNat 64 k).toNat = v.toNat+k := by
        rw [BitVec.toNat_add,BitVec.toNat_ofNat,Nat.add_mod_mod,Nat.mod_eq_of_lt hlt]
      simp only [tool,hsum,Option.map_some,Nat.cast_add]
    next => exact parted_tool _ _
  | _ => simp only [add,parted_tool]

theorem add_truth (k : ℕ) (F : Followed) : (F.add k).truth = F.truth.map (· + BitVec.ofNat 64 k) := by
  cases F with
  | same v =>
    dsimp only [add]
    split
    next => rfl
    next => exact parted_truth _ _
  | _ => simp only [add,parted_truth]

theorem pointerAt_lt {X : MachO} {location : ℤ} {p : ℕ} (h : X.pointerAt location = some p) : p < 2^64 := by
  unfold File.pointerAt at h
  split at h
  next => cases h
  next =>
    obtain ⟨raw,hraw,rfl⟩ := Option.map_eq_some_iff.mp h
    have hfold : raw.foldr (fun byte v => byte.toNat+256*v) 0 = Data.leNat raw := by
      clear hraw h
      induction raw with
      | nil => rfl
      | cons byte raw ih => exact congrArg (byte.toNat + 256 * ·) ih
    have hlt := Data.leNat_lt raw
    rw [File.length_bytesAt hraw] at hlt
    rw [hfold]
    exact hlt

theorem agreed_truth (value : Option (BitVec 64)) : (agreed value).truth = value := by
  cases value with
  | none => rfl
  | some p => rfl

theorem agreed_load_tool (X : MachO) (location : BitVec 64) :
    (agreed (X.load location)).tool = X.pointerValue location.toNat := by
  unfold MachO.load MachO.pointerValue
  cases h : X.pointerAt location.toNat with
  | none => rfl
  | some p => simp only [Option.map_some,agreed,tool,BitVec.toNat_ofNat,Nat.mod_eq_of_lt (pointerAt_lt h)]; rfl

theorem load_tool (X : MachO) (disp : ℤ) (F : Followed) :
    (F.load X disp).tool = F.tool.bind fun b => X.pointerValue (b+disp) := by
  cases F with
  | same v =>
    dsimp only [load]
    split
    next hrange =>
      have hsum : ((v + BitVec.ofInt 64 disp).toNat : ℤ) = v.toNat+disp := by
        rw [BitVec.toNat_add,BitVec.toNat_ofInt]
        omega
      rw [agreed_load_tool,hsum]
      rfl
    next => exact parted_tool _ _
  | _ => simp only [load,parted_tool]

theorem load_truth (X : MachO) (disp : ℤ) (F : Followed) :
    (F.load X disp).truth = F.truth.bind fun b => X.load (b + BitVec.ofInt 64 disp) := by
  cases F with
  | same v =>
    dsimp only [load]
    split
    next => exact agreed_truth _
    next => exact parted_truth _ _
  | _ => simp only [load,parted_truth]

theorem harmless_iff (X : MachO) (site : ℕ) (F : Followed) :
    X.reports site F.tool = X.reports site (F.truth.map fun b => (b.toNat : ℤ)) ↔ F.Harmless X := by
  cases F with
  | unknown => exact iff_of_true rfl trivial
  | same v => exact iff_of_true rfl trivial
  | lost v => exact eq_comm.trans (X.reports_some_eq_nil site v.toNat)
  | made t => exact X.reports_some_eq_nil site t
  | two t v h => exact X.reports_some_eq_iff site h

end Followed

abbrev Follow := Option ℕ → Followed

namespace Follow
variable {N : RegNames}

def start : Follow := fun _ => .unknown

variable (f : Follow)

def view : Option ℕ → Option ℤ := fun key => (f key).tool

/-- The machine reads zero from `xzr`, the tool what was last written to it. -/
def read (N : RegNames) (r : XReg) : Followed :=
  if r = .xzr then .parted (f (some (N.name r))).tool (some 0) else f (some (N.name r))

/-- A load whose base is its destination is one that the tool does not follow. -/
def result (X : MachO) (N : RegNames) : Listed → Followed
  | .adr _ target => .same target
  | .adrp _ target => .same target
  | .add _ n imm shift => (f.read N n).add (imm*2^shift)
  | .mov _ n => f.read N n
  | .ldrLiteral _ location => .agreed (X.load location)
  | .ldr d n disp => if d = n then .parted none ((f.read N n).load X disp).truth else (f.read N n).load X disp

/-- What the tool finds for an instruction that it takes for another. -/
def mistaken (X : MachO) (u : Unlisted N) : Option ℤ :=
  ((Instruction.unlisted u).decode 0).takenFor.bind (X.found f.view)

/-- What a destination is given; the machine has no `xzr`. -/
def outcome (X : MachO) : Instruction N → Followed
  | .listed l => if l.destination = .xzr then .parted (f.result X N l).tool none else f.result X N l
  | .unlisted u => .parted (f.mistaken X u) none

/-- The tool keeps the value of a register of which half is overwritten. -/
def advance (X : MachO) : Instruction N → Follow
  | .listed l => Function.update f (some (N.name l.destination)) (f.outcome X (.listed l : Instruction N))
  | .unlisted u =>
    match u.operands[0]?.bind Operand.reg? with
    | none => if f.mistaken X u = none then f else Function.update f none (f.outcome X (.unlisted u))
    | some k => fun key =>
      if key = some k then f.outcome X (.unlisted u)
      else if ∃ r, k = N.half r ∧ key = some (N.name r) then .parted (f key).tool none
      else f key

/-- No value that an instruction gives to one of them only is the address of a C string. -/
def PartsHarmlessly (X : MachO) (f : Follow) : List (Instruction N) → Prop
  | [] => True
  | op :: ops => (f.outcome X op).Harmless X ∧ PartsHarmlessly X (f.advance X op) ops

theorem read_tool (r : XReg) : (f.read N r).tool = f.view (some (N.name r)) := by
  unfold read
  split
  next => exact Followed.parted_tool _ _
  next => rfl

theorem name_ne {r s : XReg} (h : r ≠ s) : N.name r ≠ N.name s := by
  intro heq
  have hsum : Sum.elim N.name N.half (.inl r) = Sum.elim N.name N.half (.inl s) := heq
  exact h (Sum.inl.inj (N.distinct hsum))

theorem assigned_listed (X : MachO) (address : ℕ) (l : Listed) :
    X.assigned f.view ((Instruction.listed l : Instruction N).decode address) = (f.result X N l).tool := by
  cases l with
  | adr d target => rfl
  | adrp d target => rfl
  | add d n imm shift =>
    refine Eq.trans ?_ (Followed.add_tool _ _).symm
    rw [read_tool]
    exact congrArg (fun g => Option.map g (f.view (some (N.name n)))) (by funext v; push_cast; rfl)
  | mov d n => exact (f.read_tool n).symm
  | ldrLiteral d location => exact (Followed.agreed_load_tool X location).symm
  | ldr d n disp =>
    have htaken : ((Instruction.listed (.ldr d n disp) : Instruction N).decode address).takenFor =
        if some (N.name d) = some (N.name n) then none else some (.pointerFrom (N.name n) disp) := rfl
    unfold MachO.assigned
    rw [htaken]
    dsimp only [result]
    by_cases h : d = n
    · subst h
      rw [if_pos rfl,if_pos rfl,Followed.parted_tool]
      rfl
    · rw [if_neg fun heq => name_ne h (Option.some.inj heq),if_neg h,Followed.load_tool,read_tool]
      rfl

theorem assigned_outcome (X : MachO) (address : ℕ) (op : Instruction N) :
    X.assigned f.view (op.decode address) = (f.outcome X op).tool := by
  cases op with
  | listed l =>
    rw [assigned_listed]
    unfold outcome
    dsimp only
    split
    next => exact (Followed.parted_tool _ _).symm
    next => rfl
  | unlisted u => exact (Followed.parted_tool _ _).symm

theorem view_update (key : Option ℕ) (F : Followed) :
    view (Function.update f key F) = Function.update f.view key F.tool := by
  funext k
  unfold view
  by_cases h : k = key
  · subst h
    rw [Function.update_self,Function.update_self]
  · rw [Function.update_of_ne h,Function.update_of_ne h]

theorem settle_view (X : MachO) (address : ℕ) (op : Instruction N) :
    MachO.settle f.view (op.decode address).destination (X.assigned f.view (op.decode address)) =
      (f.advance X op).view := by
  rw [assigned_outcome]
  cases op with
  | listed l =>
    have hdestination : ((Instruction.listed l : Instruction N).decode address).destination =
        some (N.name l.destination) := by
      cases l <;> rfl
    rw [hdestination]
    exact (if_neg fun h => nomatch h.1).trans (f.view_update _ _).symm
  | unlisted u =>
    have hdestination : ((Instruction.unlisted u).decode address).destination = u.operands[0]?.bind Operand.reg? := rfl
    have htool : (f.outcome X (.unlisted u)).tool = f.mistaken X u := Followed.parted_tool _ _
    rw [hdestination]
    unfold MachO.settle
    dsimp only [advance]
    cases hfirst : u.operands[0]?.bind Operand.reg? with
    | none =>
      dsimp only
      by_cases hnone : f.mistaken X u = none
      · rw [if_pos ⟨rfl,htool.trans hnone⟩,if_pos hnone]
      · rw [if_neg fun h => hnone (htool.symm.trans h.2),if_neg hnone,view_update]
    | some k =>
      rw [if_neg fun h => nomatch h.1]
      funext key
      unfold view
      dsimp only
      by_cases hkey : key = some k
      · subst hkey
        rw [Function.update_self,if_pos rfl]
      · rw [Function.update_of_ne hkey,if_neg hkey]
        split
        next => exact (Followed.parted_tool _ _).symm
        next => rfl

def consts (N : RegNames) : MachO.Consts := fun r => if r = .xzr then none else (f (some (N.name r))).truth

theorem consts_read (r : XReg) : MachO.Consts.read (f.consts N) r = (f.read N r).truth := by
  cases r with
  | xzr => exact (Followed.parted_truth _ _).symm
  | x n => rfl
  | sp => rfl

theorem result_truth (X : MachO) (l : Listed) : X.result (f.consts N) l = (f.result X N l).truth := by
  cases l with
  | adr d target => rfl
  | adrp d target => rfl
  | add d n imm shift =>
    refine Eq.trans ?_ (Followed.add_truth _ _).symm
    rw [← consts_read]
    rfl
  | mov d n => exact f.consts_read n
  | ldrLiteral d location => exact (Followed.agreed_truth _).symm
  | ldr d n disp =>
    have hload : X.result (f.consts N) (.ldr d n disp) = ((f.read N n).load X disp).truth := by
      rw [Followed.load_truth,← consts_read]
      rfl
    rw [hload]
    dsimp only [result]
    split
    next => exact (Followed.parted_truth _ _).symm
    next => rfl

theorem written_truth (X : MachO) (l : Listed) :
    X.written (f.consts N) l = (f.outcome X (.listed l : Instruction N)).truth := by
  unfold MachO.written outcome
  dsimp only
  split
  next => exact (Followed.parted_truth _ _).symm
  next => exact f.result_truth X l

theorem outcome_unlisted_truth (X : MachO) (u : Unlisted N) : (f.outcome X (.unlisted u)).truth = none :=
  Followed.parted_truth _ _

theorem overwrites_iff (u : Unlisted N) {k : ℕ} (h : u.operands[0]?.bind Operand.reg? = some k) (r : XReg) :
    u.overwrites r ↔ k = N.name r ∨ k = N.half r := by
  constructor
  · rintro ⟨j,hj,hor⟩
    obtain rfl := Option.some.inj (h.symm.trans hj)
    exact hor
  · intro hor
    exact ⟨k,h,hor⟩

theorem execute_consts_listed (X : MachO) (l : Listed) :
    X.execute (f.consts N) (.listed l : Instruction N) = (f.advance X (.listed l : Instruction N)).consts N := by
  funext r
  dsimp only [MachO.execute,advance,consts]
  by_cases hr : r = .xzr
  · rw [if_pos hr]
    split
    next => exact if_pos hr
    next hd => exact (Function.update_of_ne (fun heq => hd (heq.symm.trans hr)) _ _).trans (if_pos hr)
  · rw [if_neg hr]
    by_cases hd : r = l.destination
    · subst hd
      rw [if_neg hr,Function.update_self,Function.update_self,result_truth]
      exact congrArg Followed.truth (if_neg hr).symm
    · have hkey : (some (N.name r) : Option ℕ) ≠ some (N.name l.destination) :=
        fun heq => name_ne hd (Option.some.inj heq)
      rw [Function.update_of_ne hkey]
      split
      next => exact if_neg hr
      next => exact (Function.update_of_ne hd _ _).trans (if_neg hr)

/-- An instruction that is not listed forgets the register of its first operand, under either name. -/
theorem execute_consts_unlisted (X : MachO) (u : Unlisted N) :
    X.execute (f.consts N) (.unlisted u) = (f.advance X (.unlisted u)).consts N := by
  funext r
  dsimp only [MachO.execute,advance,consts]
  by_cases hr : r = .xzr
  · rw [if_pos hr,if_pos hr]
    exact ite_self none
  · rw [if_neg hr,if_neg hr]
    cases hfirst : u.operands[0]?.bind Operand.reg? with
    | none =>
      have hnot : ¬u.overwrites r := by
        rintro ⟨k,hk,-⟩
        cases hfirst.symm.trans hk
      have hkey : (some (N.name r) : Option ℕ) ≠ none := Option.some_ne_none _
      rw [if_neg hnot]
      dsimp only
      split
      next => rfl
      next => exact (congrArg Followed.truth (Function.update_of_ne hkey _ _)).symm
    | some k =>
      have hiff := overwrites_iff u hfirst r
      dsimp only
      by_cases hname : k = N.name r
      · rw [if_pos (hiff.mpr (.inl hname)),if_pos (congrArg some hname).symm]
        exact (Followed.parted_truth _ _).symm
      · rw [if_neg fun heq => hname (Option.some.inj heq).symm]
        by_cases hhalf : k = N.half r
        · rw [if_pos (hiff.mpr (.inr hhalf)),if_pos ⟨r,hhalf,rfl⟩]
          exact (Followed.parted_truth _ _).symm
        · rw [if_neg fun h => (hiff.mp h).elim hname hhalf,if_neg]
          rintro ⟨s,hs,heq⟩
          by_cases hrs : r = s
          · exact hhalf (hrs ▸ hs)
          · exact name_ne hrs (Option.some.inj heq)

theorem execute_consts (X : MachO) (op : Instruction N) : X.execute (f.consts N) op = (f.advance X op).consts N := by
  cases op with
  | listed l => exact f.execute_consts_listed X l
  | unlisted u => exact f.execute_consts_unlisted X u

end Follow

end Machismo.RecoverSdl
