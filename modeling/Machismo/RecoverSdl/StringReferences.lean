import Machismo.RecoverSdl.Following

/-! # The string references of straight-line code

The report is exact just if no value that only the tool or only the machine has is the address of a C string, as
where the two never part.
-/
namespace Machismo.RecoverSdl

namespace MachO
variable (X : MachO) {N : RegNames}

/-- What the tool reports from some knowledge on, as pairs. -/
def pairsFrom (known : Option ℕ → Option ℤ) (insns : List Insn) : List (ℕ × ℤ) :=
  (X.referencesFrom known insns).map fun r => (r.instruction,r.address)

theorem pairsFrom_cons (known : Option ℕ → Option ℤ) (i : Insn) (insns : List Insn) :
    X.pairsFrom known (i :: insns) = X.reports i.address (X.assigned known i) ++
      X.pairsFrom (settle known i.destination (X.assigned known i)) insns := by
  unfold pairsFrom
  rw [referencesFrom,List.map_append,referencesTo_map]

theorem site_of_mem_pairsFrom {site : ℕ} {ops : List (Instruction N)} {known : Option ℕ → Option ℤ} {pair : ℕ × ℤ}
    (h : pair ∈ X.pairsFrom known (decodeAll site ops)) : site ≤ pair.1 := by
  induction ops generalizing site known with
  | nil => exact absurd h List.not_mem_nil
  | cons op ops ih =>
    rw [decodeAll,pairsFrom_cons] at h
    rcases List.mem_append.mp h with h | h
    · have haddress : (op.decode site).address = site := by cases op <;> rfl
      exact (X.mem_reports.mp h).1 ▸ haddress.ge
    · exact (Nat.le_add_right site 4).trans (ih h)

theorem site_of_mem_stringConstants {site : ℕ} {ops : List (Instruction N)} {c : Consts} {pair : ℕ × ℤ}
    (h : pair ∈ X.stringConstants site c ops) : site ≤ pair.1 := by
  induction ops generalizing site c with
  | nil => exact absurd h List.not_mem_nil
  | cons op ops ih =>
    cases op with
    | listed l =>
      rcases List.mem_append.mp h with h | h
      · exact (X.mem_reports.mp h).1.ge
      · exact (Nat.le_add_right site 4).trans (ih h)
    | unlisted u => exact (Nat.le_add_right site 4).trans (ih h)

theorem append_reports_iff {site : ℕ} {a b : Option ℤ} {as bs : List (ℕ × ℤ)} (has : ∀ pair ∈ as, site < pair.1)
    (hbs : ∀ pair ∈ bs, site < pair.1) :
    X.reports site a ++ as = X.reports site b ++ bs ↔ X.reports site a = X.reports site b ∧ as = bs := by
  constructor
  · intro h
    have hhere : ∀ value, (X.reports site value).filter (·.1 == site) = X.reports site value := by
      intro value
      rw [List.filter_eq_self]
      intro pair hmem
      exact beq_iff_eq.mpr (X.mem_reports.mp hmem).1
    have hlater : ∀ pairs : List (ℕ × ℤ), (∀ pair ∈ pairs, site < pair.1) → pairs.filter (·.1 == site) = [] := by
      intro pairs hpairs
      rw [List.filter_eq_nil_iff]
      intro pair hmem heq
      exact (hpairs pair hmem).ne' (beq_iff_eq.mp heq)
    have hfilter := congrArg (List.filter (·.1 == site)) h
    rw [List.filter_append,List.filter_append,hhere,hhere,hlater as has,hlater bs hbs,List.append_nil,
      List.append_nil] at hfilter
    rw [hfilter] at h
    exact ⟨hfilter,List.append_cancel_left h⟩
  · rintro ⟨hhere,rfl⟩
    rw [hhere]

/-- By the instructions: one reports the same for both just if it is harmless, and both go on alike. -/
theorem pairsFrom_eq_iff (f : Follow) (site : ℕ) (ops : List (Instruction N)) :
    X.pairsFrom f.view (decodeAll site ops) = X.stringConstants site (f.consts N) ops ↔ f.PartsHarmlessly X ops := by
  induction ops generalizing f site with
  | nil => exact iff_of_true rfl trivial
  | cons op ops ih =>
    have haddress : (op.decode site).address = site := by cases op <;> rfl
    have hconstants : X.stringConstants site (f.consts N) (op :: ops) =
        X.reports site ((f.outcome X op).truth.map fun b => (b.toNat : ℤ)) ++
          X.stringConstants (site+4) ((f.advance X op).consts N) ops := by
      rw [← f.execute_consts X op]
      cases op with
      | listed l => rw [stringConstants,f.written_truth]
      | unlisted u => rw [f.outcome_unlisted_truth X u]; rfl
    rw [decodeAll,pairsFrom_cons,f.settle_view,f.assigned_outcome,haddress,hconstants,X.append_reports_iff,
      Followed.harmless_iff,ih]
    · exact Iff.rfl
    · intro pair hmem
      exact (Nat.lt_add_of_pos_right four_pos).trans_le (X.site_of_mem_pairsFrom hmem)
    · intro pair hmem
      exact (Nat.lt_add_of_pos_right four_pos).trans_le (X.site_of_mem_stringConstants hmem)

end MachO

/-- What makes the tool and the machine part that know the same constants. -/
inductive Parts {N : RegNames} (c : MachO.Consts) : Instruction N → Prop
  | ownBase {d : XReg} {disp : ℤ} {v : BitVec 64} (hbase : c d = some v) : Parts c (.listed (.ldr d d disp))
  | writesZero {l : Listed} (hzero : l.destination = .xzr) : Parts c (.listed l)
  | readsZero {l : Listed} (hzero : l.source = some .xzr) : Parts c (.listed l)
  | leavesAdd {d n : XReg} {imm shift : ℕ} {v : BitVec 64} (hv : c n = some v)
      (hout : 2^64 ≤ v.toNat+imm*2^shift) : Parts c (.listed (.add d n imm shift))
  | leavesLoad {d n : XReg} {disp : ℤ} {v : BitVec 64} (hv : c n = some v)
      (hout : ¬(0 ≤ v.toNat+disp ∧ v.toNat+disp < 2^64)) : Parts c (.listed (.ldr d n disp))
  | mistaken {u : Unlisted N} {reading : Reading}
      (htaken : ((Instruction.unlisted u).decode 0).takenFor = some reading)
      (hsource : ∀ n, reading.source = some n → ∃ r v, n = N.name r ∧ c r = some v) : Parts c (.unlisted u)
  | half {u : Unlisted N} {r : XReg} {v : BitVec 64} (hhalf : u.operands[0]?.bind Operand.reg? = some (N.half r))
      (hv : c r = some v) : Parts c (.unlisted u)

/-- No instruction makes them part, from some constants on. -/
def PartsNowhere {N : RegNames} (X : MachO) (c : MachO.Consts) : List (Instruction N) → Prop
  | [] => True
  | op :: ops => ¬Parts c op ∧ PartsNowhere X (X.execute c op) ops

theorem MachO.Consts.read_of_ne {c : MachO.Consts} {r : XReg} (h : r ≠ .xzr) : c.read r = c r := by
  cases r with
  | x n => rfl
  | sp => rfl
  | xzr => exact absurd rfl h

namespace Followed

theorem add_agreed {k : ℕ} {value : Option (BitVec 64)} (h : ∀ v, value = some v → v.toNat+k < 2^64) :
    (agreed value).add k = agreed (value.map (· + BitVec.ofNat 64 k)) := by
  cases value with
  | none => rfl
  | some v => exact if_pos (h v rfl)

theorem load_agreed (X : MachO) {disp : ℤ} {value : Option (BitVec 64)}
    (h : ∀ v, value = some v → 0 ≤ v.toNat+disp ∧ v.toNat+disp < 2^64) :
    (agreed value).load X disp = agreed (value.bind fun v => X.load (v + BitVec.ofInt 64 disp)) := by
  cases value with
  | none => rfl
  | some v => exact if_pos (h v rfl)

theorem harmless_agreed (X : MachO) (value : Option (BitVec 64)) : (agreed value).Harmless X := by
  cases value with
  | none => trivial
  | some v => trivial

end Followed

/-- The tool and the machine know the same constants. -/
structure Together (N : RegNames) (f : Follow) (c : MachO.Consts) : Prop where
  zero : c .xzr = none
  named : ∀ r, f (some (N.name r)) = .agreed (c r)
  other : ∀ key, (∀ r, key ≠ some (N.name r)) → f key = .unknown

namespace Together
variable {X : MachO} {N : RegNames} {f : Follow} {c : MachO.Consts}

theorem start (N : RegNames) : Together N Follow.start fun _ => none := ⟨rfl,fun _ => rfl,fun _ _ => rfl⟩

theorem read (h : Together N f c) {r : XReg} (hr : r ≠ .xzr) : f.read N r = .agreed (c.read r) := by
  rw [MachO.Consts.read_of_ne hr]
  exact (if_neg hr).trans (h.named r)

theorem result (h : Together N f c) {l : Listed} (hparts : ¬Parts c (.listed l : Instruction N)) :
    f.result X N l = .agreed (X.result c l) := by
  have hsource : ∀ n, l.source = some n → n ≠ .xzr := by
    rintro _ hn rfl
    exact hparts (.readsZero hn)
  cases l with
  | adr d target => rfl
  | adrp d target => rfl
  | ldrLiteral d location => rfl
  | mov d n => exact h.read (hsource n rfl)
  | add d n imm shift =>
    have hn := hsource n rfl
    refine (congrArg (Followed.add (imm*2^shift)) (h.read hn)).trans (Followed.add_agreed ?_)
    intro v hv
    rw [MachO.Consts.read_of_ne hn] at hv
    by_contra hout
    exact hparts (.leavesAdd hv (not_lt.mp hout))
  | ldr d n disp =>
    have hn := hsource n rfl
    have hload : (f.read N n).load X disp = .agreed (X.result c (.ldr d n disp)) := by
      refine (congrArg (Followed.load X disp) (h.read hn)).trans (Followed.load_agreed X ?_)
      intro v hv
      rw [MachO.Consts.read_of_ne hn] at hv
      by_contra hout
      exact hparts (.leavesLoad hv hout)
    dsimp only [Follow.result]
    split
    next hd =>
      subst hd
      have hnone : c d = none := by
        rw [Option.eq_none_iff_forall_ne_some]
        intro v hv
        exact hparts (.ownBase hv)
      have hresult : X.result c (.ldr d d disp) = none := by
        dsimp only [MachO.result]
        rw [MachO.Consts.read_of_ne hn,hnone]
        rfl
      rw [hload,hresult]
      rfl
    next => exact hload

theorem outcome_listed (h : Together N f c) {l : Listed} (hparts : ¬Parts c (.listed l : Instruction N)) :
    f.outcome X (.listed l : Instruction N) = .agreed (X.result c l) :=
  (if_neg fun hzero => hparts (.writesZero hzero)).trans (h.result hparts)

theorem named_of_view (h : Together N f c) {n : ℕ} {t : ℤ} (ht : f.view (some n) = some t) :
    ∃ r v, n = N.name r ∧ c r = some v := by
  unfold Follow.view at ht
  by_cases hname : ∃ r, n = N.name r
  · obtain ⟨r,rfl⟩ := hname
    rw [h.named r] at ht
    cases hv : c r with
    | none =>
      rw [hv] at ht
      cases ht
    | some v => exact ⟨r,v,rfl,hv⟩
  · rw [h.other _ fun r heq => hname ⟨r,Option.some.inj heq⟩] at ht
    cases ht

theorem mistaken (h : Together N f c) {u : Unlisted N} (hparts : ¬Parts c (.unlisted u)) : f.mistaken X u = none := by
  rw [Option.eq_none_iff_forall_ne_some]
  intro t ht
  obtain ⟨reading,htaken,hfound⟩ := Option.bind_eq_some_iff.mp ht
  refine hparts (.mistaken htaken ?_)
  intro n hn
  cases reading with
  | constant v => cases hn
  | pointer location => cases hn
  | sum m k =>
    obtain rfl := Option.some.inj hn
    obtain ⟨b,hb,-⟩ := Option.map_eq_some_iff.mp hfound
    exact h.named_of_view hb
  | copy m =>
    obtain rfl := Option.some.inj hn
    exact h.named_of_view hfound
  | pointerFrom m disp =>
    obtain rfl := Option.some.inj hn
    obtain ⟨b,hb,-⟩ := Option.bind_eq_some_iff.mp hfound
    exact h.named_of_view hb

theorem outcome_unlisted (h : Together N f c) {u : Unlisted N} (hparts : ¬Parts c (.unlisted u)) :
    f.outcome X (.unlisted u) = .unknown := by
  dsimp only [Follow.outcome]
  rw [h.mistaken hparts]
  rfl

theorem advance_listed (h : Together N f c) {l : Listed} (hparts : ¬Parts c (.listed l : Instruction N)) :
    Together N (f.advance X (.listed l : Instruction N)) (X.execute c (.listed l : Instruction N)) := by
  have hzero : l.destination ≠ .xzr := fun heq => hparts (.writesZero heq)
  have hexecute : X.execute c (.listed l : Instruction N) = Function.update c l.destination (X.result c l) :=
    if_neg hzero
  have hadvance : f.advance X (.listed l : Instruction N) =
      Function.update f (some (N.name l.destination)) (.agreed (X.result c l)) :=
    congrArg (Function.update f (some (N.name l.destination))) (h.outcome_listed hparts)
  rw [hexecute,hadvance]
  refine ⟨?_,?_,?_⟩
  · rw [Function.update_of_ne hzero.symm]
    exact h.zero
  · intro r
    by_cases hr : r = l.destination
    · subst hr
      rw [Function.update_self,Function.update_self]
    · rw [Function.update_of_ne fun heq => Follow.name_ne hr (Option.some.inj heq),Function.update_of_ne hr]
      exact h.named r
  · intro key hkey
    rw [Function.update_of_ne (hkey l.destination)]
    exact h.other key hkey

theorem advance_unlisted (h : Together N f c) {u : Unlisted N} (hparts : ¬Parts c (.unlisted u)) :
    Together N (f.advance X (.unlisted u)) (X.execute c (.unlisted u)) := by
  dsimp only [Follow.advance,MachO.execute]
  rw [h.outcome_unlisted hparts,h.mistaken hparts]
  cases hfirst : u.operands[0]?.bind Operand.reg? with
  | none =>
    have hkept : (fun r => if u.overwrites r then none else c r) = c := by
      funext r
      refine if_neg ?_
      rintro ⟨k,hk,-⟩
      cases hfirst.symm.trans hk
    rw [hkept]
    exact h
  | some k =>
    refine ⟨?_,?_,?_⟩
    · rw [h.zero]
      exact ite_self none
    · intro r
      have hiff := Follow.overwrites_iff u hfirst r
      dsimp only
      by_cases hname : k = N.name r
      · rw [if_pos (congrArg some hname).symm,if_pos (hiff.mpr (.inl hname))]
        rfl
      rw [if_neg fun heq => hname (Option.some.inj heq).symm]
      by_cases hhalf : k = N.half r
      · have hnone : c r = none := by
          rw [Option.eq_none_iff_forall_ne_some]
          intro v hv
          exact hparts (.half (hfirst.trans (congrArg some hhalf)) hv)
        rw [if_pos ⟨r,hhalf,rfl⟩,if_pos (hiff.mpr (.inr hhalf)),h.named r,hnone]
        rfl
      · rw [if_neg fun hor => (hiff.mp hor).elim hname hhalf,if_neg]
        · exact h.named r
        · rintro ⟨s,hs,heq⟩
          by_cases hrs : r = s
          · exact hhalf (hrs ▸ hs)
          · exact Follow.name_ne hrs (Option.some.inj heq)
    · intro key hkey
      dsimp only
      split
      next => rfl
      next =>
      split
      next hnamed =>
        obtain ⟨r,-,heq⟩ := hnamed
        exact absurd heq (hkey r)
      next => exact h.other key hkey

end Together

/-- By the instructions: as long as they know the same constants, nothing is had by one of them only. -/
theorem partsHarmlessly_of_partsNowhere {X : MachO} {N : RegNames} {f : Follow} {c : MachO.Consts}
    {ops : List (Instruction N)} (h : Together N f c) (hnowhere : PartsNowhere X c ops) : f.PartsHarmlessly X ops := by
  induction ops generalizing f c with
  | nil => trivial
  | cons op ops ih =>
    obtain ⟨hparts,hrest⟩ := hnowhere
    cases op with
    | listed l =>
      refine ⟨?_,ih (h.advance_listed hparts) hrest⟩
      rw [h.outcome_listed hparts]
      exact Followed.harmless_agreed X _
    | unlisted u =>
      refine ⟨?_,ih (h.advance_unlisted hparts) hrest⟩
      rw [h.outcome_unlisted hparts]
      trivial

namespace MachO
variable (X : MachO) {N : RegNames}

/-- The tool reports exactly the string constants of straight-line code just if no value that one of the two only
has from where they part is the address of a C string, and that holds wherever they never part. -/
theorem reportsConstants_iff (site : ℕ) (ops : List (Instruction N)) :
    (X.ReportsConstants site ops ↔ Follow.start.PartsHarmlessly X ops) ∧
      (PartsNowhere X (fun _ => none) ops → Follow.start.PartsHarmlessly X ops) := by
  have hview : Follow.start.view = fun _ => none := rfl
  have hconsts : Follow.start.consts N = fun _ => none := funext fun r => ite_self none
  refine ⟨?_,fun h => partsHarmlessly_of_partsNowhere (.start N) h⟩
  rw [← X.pairsFrom_eq_iff,hview,hconsts]
  unfold ReportsConstants pairsFrom
  rw [stringReferences_eq]

end MachO

/-- `adr x0` and `ldr x0,[x0]` at `0x1004`, the string `hi` after them, and the pointer to it at `0x1018`. -/
def pointerFile : File where
  data := [0,0,0,0,0xa0,0,0,0x10,0,0,0x40,0xf9,0x68,0x69,0,4,0,0,0,0,0,0,0,0,0x0c,0x10,0,0,0,0,0,0]
  commands := [
    .segment ⟨"__TEXT".toList,0x1000,0x1000,0,32,5,[
      ⟨⟨0x1004,8,0x80000400⟩,"__text".toList,"__TEXT".toList,4⟩,
      ⟨⟨0x100c,3,2⟩,"__cstring".toList,"__TEXT".toList,12⟩]⟩,
    .functionStarts 15 2]
  stubs := []

def pointerMachO : MachO := ⟨pointerFile,[0x1004],by decide +kernel,[⟨0x100c,['h','i']⟩],by decide +kernel⟩

/-- Numbers for the registers from 1 on. -/
def countedNames : RegNames where
  name := fun
    | .x n => n+1
    | .sp => 32
    | .xzr => 33
  half := fun
    | .x n => n+34
    | .sp => 65
    | .xzr => 66
  distinct := by decide

/-- `adr x1` and `ldr x0,[x1]` there. -/
theorem reportsConstants_other_base : pointerMachO.ReportsConstants 0x1004
    [(.listed (.adr (.x 1) 0x1018) : Instruction countedNames),.listed (.ldr (.x 0) (.x 1) 0)] := by
  have hiff := pointerMachO.reportsConstants_iff 0x1004
    [(.listed (.adr (.x 1) 0x1018) : Instruction countedNames),.listed (.ldr (.x 0) (.x 1) 0)]
  refine hiff.1.mpr (hiff.2 ⟨?_,?_,trivial⟩)
  · intro hparts
    cases hparts with
    | writesZero hzero => cases hzero
    | readsZero hzero => cases hzero
  · intro hparts
    cases hparts with
    | writesZero hzero => cases hzero
    | readsZero hzero => cases hzero
    | leavesLoad hv hout =>
      cases hv
      exact hout (by decide)

theorem not_reportsConstants_own_base : ¬pointerMachO.ReportsConstants 0x1004
    [(.listed (.adr (.x 0) 0x1018) : Instruction countedNames),.listed (.ldr (.x 0) (.x 0) 0)] := by
  unfold MachO.ReportsConstants
  decide +kernel

end Machismo.RecoverSdl
