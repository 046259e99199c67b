import Machismo.Data.Leb
import Machismo.Dwarf.Cfi
import Machismo.Trampoline.FunctionStarts

/-! # The numbers of `LC_FUNCTION_STARTS`

What the decoder makes of a stream of variable-length numbers, against the numbers the stream holds.
The decoder takes numbers of at most ten bytes and keeps 64 bits of each, so that bits of a tenth
byte are lost without notice; apart from that it finds the addresses the stream stands for.
-/
namespace Machismo.Trampoline
open A64 Dwarf

/-- A number of at most `n` bytes. -/
def readUlebWithin : ℕ → List Byte → Option (ℕ × List Byte)
  | 0, _ => none
  | _ + 1, [] => none
  | n + 1, b :: p =>
    if b.toNat < 128 then some (b.toNat,p) else (readUlebWithin n p).map fun r => (b.toNat - 128 + 128*r.1,r.2)

theorem readUleb_of_within {n : ℕ} {bs : List Byte} {r : ℕ × List Byte} (h : readUlebWithin n bs = some r) :
    readUleb bs = some r := by
  induction n generalizing bs r with
  | zero => cases h
  | succ n ih =>
    cases bs with
    | nil => cases h
    | cons b p =>
      unfold readUlebWithin at h
      unfold readUleb
      split at h
      next hb => rwa [if_pos hb]
      next hb =>
        obtain ⟨r',hr,rfl⟩ := Option.map_eq_some_iff.mp h
        rw [if_neg hb,ih hr,Option.map_some]

theorem readUlebWithin_append {n v : ℕ} {e : List Byte} (h : readUlebWithin n e = some (v,[])) (p : List Byte) :
    readUlebWithin n (e ++ p) = some (v,p) := by
  induction n generalizing e v with
  | zero => cases h
  | succ n ih =>
    cases e with
    | nil => cases h
    | cons b e =>
      unfold readUlebWithin at h
      rw [List.cons_append]
      unfold readUlebWithin
      split at h
      next hb =>
        obtain ⟨rfl,rfl⟩ := Prod.mk.inj (Option.some.inj h)
        rw [if_pos hb,List.nil_append]
      next hb =>
        obtain ⟨⟨v',e'⟩,hr,he⟩ := Option.map_eq_some_iff.mp h
        obtain ⟨rfl,rfl⟩ := Prod.mk.inj he
        rw [if_neg hb,ih hr,Option.map_some]

theorem readUlebWithin_length {n v : ℕ} {bs p : List Byte} (h : readUlebWithin n bs = some (v,p)) :
    p.length < bs.length := by
  induction n generalizing bs v with
  | zero => cases h
  | succ n ih =>
    cases bs with
    | nil => cases h
    | cons b bs =>
      unfold readUlebWithin at h
      split at h
      next hb =>
        obtain ⟨-,rfl⟩ := Prod.mk.inj (Option.some.inj h)
        exact Nat.lt_succ_self _
      next hb =>
        obtain ⟨⟨v',p'⟩,hr,he⟩ := Option.map_eq_some_iff.mp h
        obtain ⟨-,rfl⟩ := Prod.mk.inj he
        exact (ih hr).trans (Nat.lt_succ_self _)

theorem readUlebWithin_encodeUleb {n v : ℕ} (h : v < 128^(n+1)) :
    readUlebWithin (n+1) (encodeUleb n v) = some (v,[]) := by
  induction n generalizing v with
  | zero =>
    have hv : v < 128 := by simpa using h
    have hb : (BitVec.ofNat 8 v).toNat = v := by
      rw [BitVec.toNat_ofNat]
      omega
    rw [encodeUleb,readUlebWithin,hb,if_pos hv]
  | succ n ih =>
    unfold encodeUleb
    split
    next hv =>
      have hb : (BitVec.ofNat 8 v).toNat = v := by
        rw [BitVec.toNat_ofNat]
        omega
      rw [readUlebWithin,hb,if_pos hv]
    next hv =>
      have hb : (BitVec.ofNat 8 (v % 128 + 128)).toNat = v % 128 + 128 := by
        rw [BitVec.toNat_ofNat]
        omega
      have hrest : v / 128 < 128^(n+1) := by
        rw [Nat.div_lt_iff_lt_mul (by decide),← pow_succ]
        exact h
      rw [readUlebWithin,hb,if_neg (by omega),ih hrest,Option.map_some]
      congr 2
      omega

theorem readDelta_eq {k : ℕ} {acc : BitVec 64} {bs : List Byte} (hk : k ≤ 10) (hacc : acc.toNat < 2^(7*k)) :
    readDelta (7*k) acc bs =
      (readUlebWithin (10 - k) bs).map fun r => (BitVec.ofNat 64 (acc.toNat + 2^(7*k)*r.1),r.2) := by
  induction bs generalizing k acc with
  | nil =>
    unfold readDelta
    cases 10 - k <;> rfl
  | cons b p ih =>
    unfold readDelta
    by_cases h10 : k = 10
    · subst h10
      rfl
    · obtain ⟨n,hn⟩ : ∃ n, 10 - k = n + 1 := ⟨9 - k,by omega⟩
      have hgroup := @Data.toNat_or_group_mod acc (7*k) b (by omega) hacc
      rw [if_neg (by omega),hn,readUlebWithin]
      generalize acc ||| (b &&& 0x7f).setWidth 64 <<< (7*k) = acc' at hgroup ⊢
      dsimp only
      by_cases hb : b.toNat < 128
      · have hlast : b.getLsbD 7 = false := by
          rw [← Bool.not_eq_true,Data.getLsbD_seven_iff]
          omega
        rw [hlast,if_neg Bool.false_ne_true,if_pos hb,Option.map_some]
        congr 2
        apply BitVec.eq_of_toNat_eq
        rw [hgroup,BitVec.toNat_ofNat,Nat.mod_eq_of_lt hb,Nat.mul_comm]
      · have hmore : b.getLsbD 7 = true := (Data.getLsbD_seven_iff b).mpr (Nat.le_of_not_lt hb)
        have hlow : b.toNat % 128 = b.toNat - 128 := by omega
        have hacc' : acc'.toNat < 2^(7*(k+1)) := by
          rw [hgroup]
          have hg : b.toNat % 128 + 1 ≤ 2^7 := Nat.mod_lt _ (by decide)
          calc (acc.toNat + b.toNat % 128 * 2^(7*k)) % 2^64
              ≤ acc.toNat + b.toNat % 128 * 2^(7*k) := Nat.mod_le _ _
            _ < 2^(7*k) + b.toNat % 128 * 2^(7*k) := Nat.add_lt_add_right hacc _
            _ = (b.toNat % 128 + 1) * 2^(7*k) := by ring
            _ ≤ 2^7 * 2^(7*k) := Nat.mul_le_mul_right _ hg
            _ = 2^(7*(k+1)) := by ring
        rw [if_pos hmore,if_neg hb,← Nat.mul_succ,ih (by omega) hacc',Option.map_map]
        have hn' : 10 - (k+1) = n := by omega
        rw [hn']
        congr 1
        funext r
        simp only [Function.comp_apply,Prod.mk.injEq,and_true]
        apply BitVec.eq_of_toNat_eq
        rw [BitVec.toNat_ofNat,BitVec.toNat_ofNat,hgroup,Nat.mod_add_mod,hlow]
        congr 1
        rw [Nat.mul_succ,pow_add]
        ring

/-- Reading numbers of at most ten bytes one after the other from an address `c` on, up to the end or
to one that counts as zero, gives the numbers `vs` and the sums `l`; `value` is what each number
counts. -/
inductive Sums (value : ℕ → ℕ) : ℕ → List Byte → List ℕ → List ℕ → Prop
  | done (c : ℕ) : Sums value c [] [] []
  | zero {c v : ℕ} {bs p : List Byte} (hread : readUlebWithin 10 bs = some (v,p)) (hzero : value v = 0) :
    Sums value c bs [v] []
  | next {c v : ℕ} {bs p : List Byte} {vs l : List ℕ} (hread : readUlebWithin 10 bs = some (v,p)) (hpos : value v ≠ 0)
    (hfits : c + value v < 2^64) (hrest : Sums value (c + value v) p vs l) :
    Sums value c bs (v :: vs) ((c + value v) :: l)

section Sums
variable {value : ℕ → ℕ} {c : ℕ} {bs : List Byte} {vs l : List ℕ}

theorem sums_nil_iff : Sums value c [] vs l ↔ vs = [] ∧ l = [] := by
  constructor
  · intro h
    cases h with
    | done => exact ⟨rfl,rfl⟩
    | zero hread _ => cases hread
    | next hread _ _ _ => cases hread
  · rintro ⟨rfl,rfl⟩
    exact .done c

theorem not_sums_of_none (hbs : bs ≠ []) (hread : readUlebWithin 10 bs = none) : ¬Sums value c bs vs l := by
  intro h
  cases h with
  | done => exact hbs rfl
  | zero hr _ => exact absurd (hread.symm.trans hr) (by simp)
  | next hr _ _ _ => exact absurd (hread.symm.trans hr) (by simp)

theorem sums_iff {v : ℕ} {p : List Byte} (hread : readUlebWithin 10 bs = some (v,p)) :
    Sums value c bs vs l ↔ value v = 0 ∧ vs = [v] ∧ l = [] ∨
      value v ≠ 0 ∧ c + value v < 2^64 ∧
        ∃ vs' l', vs = v :: vs' ∧ l = (c + value v) :: l' ∧ Sums value (c + value v) p vs' l' := by
  constructor
  · intro h
    cases h with
    | done => cases hread
    | zero hr hzero =>
      obtain ⟨rfl,rfl⟩ := Prod.mk.inj (Option.some.inj (hread.symm.trans hr))
      exact .inl ⟨hzero,rfl,rfl⟩
    | next hr hpos hfits hrest =>
      obtain ⟨rfl,rfl⟩ := Prod.mk.inj (Option.some.inj (hread.symm.trans hr))
      exact .inr ⟨hpos,hfits,_,_,rfl,rfl,hrest⟩
  · rintro (⟨hzero,rfl,rfl⟩ | ⟨hpos,hfits,vs',l',rfl,rfl,hrest⟩)
    · exact .zero hread hzero
    · exact .next hread hpos hfits hrest

end Sums

/-- What the decoder counts of a number. -/
def low64 (v : ℕ) : ℕ := v % 2^64

theorem readDelta_start (bs : List Byte) :
    readDelta 0 0 bs = (readUlebWithin 10 bs).map fun r => (BitVec.ofNat 64 (low64 r.1),r.2) := by
  rw [show readDelta 0 0 bs = readDelta (7*0) 0 bs from rfl,readDelta_eq (by decide) (by decide)]
  congr 1
  funext r
  simp only [Prod.mk.injEq,and_true]
  apply BitVec.eq_of_toNat_eq
  simp [low64]

theorem overflows_low64_iff (c : Addr) (v : ℕ) :
    BitVec.allOnes 64 - c < BitVec.ofNat 64 (low64 v) ↔ 2^64 ≤ c.toNat + low64 v := by
  rw [overflows_iff,BitVec.toNat_ofNat,low64,Nat.mod_mod]

theorem toNat_add_low64 {c : Addr} {v : ℕ} (h : c.toNat + low64 v < 2^64) :
    (c + BitVec.ofNat 64 (low64 v)).toNat = c.toNat + low64 v := by
  rw [BitVec.toNat_add,BitVec.toNat_ofNat,Nat.mod_eq_of_lt (show low64 v < 2^64 from Nat.mod_lt v (by decide)),
    Nat.mod_eq_of_lt h]

theorem startsFrom_iff {n : ℕ} {c : Addr} {bs : List Byte} (hn : bs.length ≤ n) (r : List Addr) :
    startsFrom n c bs = some r ↔ ∃ vs, Sums low64 c.toNat bs vs (r.map BitVec.toNat) := by
  have hnil : ∀ (c : Addr) (r : List Addr), some [] = some r ↔ ∃ vs, Sums low64 c.toNat [] vs (r.map BitVec.toNat) := by
    intro c r
    simp only [sums_nil_iff,List.map_eq_nil_iff,exists_eq_left,Option.some.injEq]
    exact eq_comm
  induction n generalizing c bs r with
  | zero =>
    obtain rfl := List.length_eq_zero_iff.mp (Nat.le_zero.mp hn)
    exact hnil c r
  | succ n ih =>
    cases bs with
    | nil => exact hnil c r
    | cons b p =>
      unfold startsFrom
      rw [readDelta_start]
      cases hread : readUlebWithin 10 (b :: p) with
      | none => simp [not_sums_of_none (List.cons_ne_nil b p) hread]
      | some vp =>
        obtain ⟨v,p'⟩ := vp
        have hlen : p'.length ≤ n := by
          have := readUlebWithin_length hread
          simp only [List.length_cons] at this hn
          omega
        have hzero : BitVec.ofNat 64 (low64 v) = 0 ↔ low64 v = 0 := by
          simp [low64,← BitVec.toNat_inj]
        simp only [sums_iff hread,Option.map_some,hzero,overflows_low64_iff]
        by_cases hv : low64 v = 0
        · rw [if_pos hv]
          constructor
          · rintro ⟨rfl⟩
            exact ⟨[v],.inl ⟨hv,rfl,rfl⟩⟩
          · rintro ⟨vs,⟨-,-,hr⟩ | ⟨hne,-⟩⟩
            · rw [List.map_eq_nil_iff.mp hr]
            · exact absurd hv hne
        · rw [if_neg hv]
          by_cases hfits : 2^64 ≤ c.toNat + low64 v
          · rw [if_pos hfits]
            constructor
            · intro h
              cases h
            · rintro ⟨vs,⟨hz,-⟩ | ⟨-,hlt,-⟩⟩
              · exact absurd hz hv
              · exact absurd hfits (Nat.not_le.mpr hlt)
          · have hlt := Nat.lt_of_not_le hfits
            have hsum := toNat_add_low64 hlt
            rw [if_neg hfits,Option.map_eq_some_iff]
            constructor
            · rintro ⟨l,hl,rfl⟩
              obtain ⟨vs,hvs⟩ := (ih hlen l).mp hl
              rw [hsum] at hvs
              exact ⟨v :: vs,.inr ⟨hv,hlt,vs,_,rfl,by rw [List.map_cons,hsum],hvs⟩⟩
            · rintro ⟨vs,⟨hz,-⟩ | ⟨-,-,vs',l',-,hr,hrest⟩⟩
              · exact absurd hz hv
              · obtain ⟨s,l,rfl,hs,rfl⟩ := List.map_eq_cons_iff.mp hr
                rw [← hsum] at hs hrest
                rw [BitVec.toNat_inj.mp hs]
                exact ⟨l,(ih hlen l).mpr ⟨vs',hrest⟩,rfl⟩

/-! ## What the stream stands for -/

/-- Bytes that hold the distances from `c` to the first address and from each to the next, each in at
most ten bytes, with or without a zero behind them. -/
inductive Encoded : Addr → List Byte → List Addr → Prop
  | done (c : Addr) : Encoded c [] []
  | stop (c : Addr) : Encoded c [0] []
  | next {c s : Addr} {e p : List Byte} {l : List Addr} (hlt : c < s)
    (he : readUlebWithin 10 e = some (s.toNat - c.toNat,[])) (hrest : Encoded s p l) : Encoded c (e ++ p) (s :: l)

theorem Encoded.bytes_of_nil {c : Addr} {bs : List Byte} (h : Encoded c bs []) : bs = [] ∨ bs = [0] := by
  cases h with
  | done => exact .inl rfl
  | stop => exact .inr rfl

theorem Encoded.sums {c : Addr} {bs : List Byte} {l : List Addr} (h : Encoded c bs l) :
    ∃ vs, Sums low64 c.toNat bs vs (l.map BitVec.toNat) := by
  induction h with
  | done c => exact ⟨[],.done _⟩
  | stop c => exact ⟨[0],.zero rfl rfl⟩
  | @next c s e p l hlt he _ ih =>
    obtain ⟨vs,hvs⟩ := ih
    have hs := s.isLt
    rw [BitVec.lt_def] at hlt
    have hlow : low64 (s.toNat - c.toNat) = s.toNat - c.toNat := Nat.mod_eq_of_lt (by omega)
    have hsum : c.toNat + low64 (s.toNat - c.toNat) = s.toNat := by rw [hlow]; omega
    rw [List.map_cons,← hsum]
    exact ⟨(s.toNat - c.toNat) :: vs,
      .next (readUlebWithin_append he p) (by omega) (by omega) (by rw [hsum]; exact hvs)⟩

theorem sums_id_of_low64 {c : ℕ} {bs : List Byte} {vs l : List ℕ} (h : Sums low64 c bs vs l)
    (hv : ∀ v ∈ vs, v < 2^64) : Sums id c bs vs l := by
  induction h with
  | done c => exact .done c
  | zero hread hzero =>
    have hlt := hv _ (List.mem_singleton_self _)
    exact .zero hread (by rwa [low64,Nat.mod_eq_of_lt hlt] at hzero)
  | next hread hpos hfits _ ih =>
    obtain ⟨hlt,hrest⟩ := List.forall_mem_cons.mp hv
    rw [low64,Nat.mod_eq_of_lt hlt] at *
    exact .next hread hpos hfits (ih hrest)

theorem lt_of_sums_id {c : ℕ} {bs : List Byte} {vs l vs' l' : List ℕ} (h : Sums low64 c bs vs l)
    (hid : Sums id c bs vs' l') : ∀ v ∈ vs, v < 2^64 := by
  induction h generalizing vs' l' with
  | done c => simp
  | @zero c v bs p hread hzero =>
    intro w hw
    obtain rfl := List.mem_singleton.mp hw
    rcases (sums_iff hread).mp hid with ⟨h0,-⟩ | ⟨-,hfits,-⟩
    · exact lt_of_eq_of_lt h0 (by decide)
    · exact lt_of_le_of_lt (Nat.le_add_left _ _) hfits
  | @next c v bs p vs l hread hpos _ _ ih =>
    rcases (sums_iff hread).mp hid with ⟨h0,-⟩ | ⟨-,hfits,vs',l',rfl,rfl,hrest⟩
    · exact absurd (by rw [show v = 0 from h0]; rfl) hpos
    · have hlt : v < 2^64 := lt_of_le_of_lt (Nat.le_add_left _ _) hfits
      have hlow : low64 v = v := Nat.mod_eq_of_lt hlt
      rw [hlow] at ih
      exact List.forall_mem_cons.mpr ⟨hlt,ih hrest⟩

/-- The bytes a load command gives for the stream. -/
def MachO.startsStream (M : MachO) (slide : Addr) (m : Memory) : Option (List Byte) :=
  M.startsCommand.bind fun cmd => (M.fileRangeToMem slide cmd.1 cmd.2).map fun a => bytesAt m a cmd.2.toNat

theorem decodeFunctionStarts_iff {M : MachO} {slide : Addr} {m : Memory} {bs : List Byte}
    (h : M.startsStream slide m = some bs) (r : List Addr) :
    decodeFunctionStarts M slide m = some r ↔
      M.textVmaddr ≠ 0 ∧ r ≠ [] ∧ ∃ vs, Sums low64 M.textVmaddr.toNat bs vs (r.map BitVec.toNat) := by
  obtain ⟨⟨dataoff,datasize⟩,hcmd,hbs⟩ := Option.bind_eq_some_iff.mp h
  obtain ⟨a,ha,rfl⟩ := Option.map_eq_some_iff.mp hbs
  have hlen : (bytesAt m a datasize.toNat).length ≤ datasize.toNat := by simp [bytesAt]
  rw [← startsFrom_iff hlen]
  unfold decodeFunctionStarts
  by_cases hbase : M.textVmaddr = 0
  · rw [if_pos hbase]
    exact ⟨(fun hn => by cases hn),fun hn => absurd hbase hn.1⟩
  rw [if_neg hbase,hcmd]
  dsimp only
  by_cases hsize : datasize = 0
  · rw [if_pos hsize,hsize]
    exact ⟨(fun hn => by cases hn),fun hn => absurd (Option.some.inj hn.2.2).symm hn.2.1⟩
  rw [if_neg hsize,ha]
  dsimp only
  cases startsFrom datasize.toNat M.textVmaddr (bytesAt m a datasize.toNat) with
  | none => simp
  | some l =>
    cases l with
    | nil =>
      exact ⟨(fun hn => by cases hn),fun hn => absurd (Option.some.inj hn.2.2).symm hn.2.1⟩
    | cons s l =>
      constructor
      · rintro ⟨rfl⟩
        exact ⟨hbase,List.cons_ne_nil s l,rfl⟩
      · exact fun hn => hn.2.2

theorem Sums.lt {value : ℕ → ℕ} {c : ℕ} {bs : List Byte} {vs l : List ℕ} (h : Sums value c bs vs l) :
    ∀ x ∈ l, x < 2^64 := by
  induction h with
  | done => simp
  | zero => simp
  | next _ _ hfits _ ih => exact List.forall_mem_cons.mpr ⟨hfits,ih⟩

/-- What the decoder should give for a stream. -/
structure Exact (base : Addr) (bs : List Byte) (r : Option (List Addr)) : Prop where
  complete : ∀ l, Encoded base bs l → r = some l
  sound : ∀ l, r = some l → l.Pairwise (· < ·) ∧ ∃ vs, Sums id base.toNat bs vs (l.map BitVec.toNat)
  rejects : (∀ vs l, ¬Sums id base.toNat bs vs l) → r = none

/-- No number that the decoder reads is 2^64 or more, unless it refuses the stream all the same. -/
def NoneLost (base : Addr) (bs : List Byte) : Prop :=
  ∀ vs l, Sums low64 base.toNat bs vs l → l ≠ [] → ∀ v ∈ vs, v < 2^64

theorem decodeFunctionStarts_exact_iff {M : MachO} {slide : Addr} {m : Memory} {bs : List Byte}
    (h : M.startsStream slide m = some bs) :
    Exact M.textVmaddr bs (decodeFunctionStarts M slide m) ↔
      (∀ l, Encoded M.textVmaddr bs l → M.textVmaddr ≠ 0 ∧ l ≠ []) ∧
        (M.textVmaddr ≠ 0 → NoneLost M.textVmaddr bs) := by
  constructor
  · intro hexact
    constructor
    · intro l hl
      obtain ⟨hbase,hne,-⟩ := (decodeFunctionStarts_iff h l).mp (hexact.complete l hl)
      exact ⟨hbase,hne⟩
    · intro hbase vs l hs hne
      have hmap : (l.map (BitVec.ofNat 64)).map BitVec.toNat = l := by
        rw [List.map_map]
        refine (List.map_congr_left fun x hx => ?_).trans (List.map_id l)
        rw [Function.comp_apply,BitVec.toNat_ofNat,Nat.mod_eq_of_lt (hs.lt x hx),id]
      have hne' : l.map (BitVec.ofNat 64) ≠ [] := by simpa using hne
      have hdecode := (decodeFunctionStarts_iff h _).mpr ⟨hbase,hne',vs,by rwa [hmap]⟩
      obtain ⟨-,vs',hid⟩ := hexact.sound _ hdecode
      exact lt_of_sums_id hs hid
  · rintro ⟨henc,hlost⟩
    have hsound : ∀ l, decodeFunctionStarts M slide m = some l →
        ∃ vs, Sums id M.textVmaddr.toNat bs vs (l.map BitVec.toNat) := by
      intro l hl
      obtain ⟨hbase,hne,vs,hs⟩ := (decodeFunctionStarts_iff h l).mp hl
      exact ⟨vs,sums_id_of_low64 hs (hlost hbase vs _ hs (by simpa using hne))⟩
    refine ⟨fun l hl => ?_,fun l hl => ⟨decodeFunctionStarts_sorted hl,hsound l hl⟩,fun hnone => ?_⟩
    · obtain ⟨hbase,hne⟩ := henc l hl
      exact (decodeFunctionStarts_iff h l).mpr ⟨hbase,hne,hl.sums⟩
    · cases hd : decodeFunctionStarts M slide m with
      | none => rfl
      | some l =>
        obtain ⟨vs,hs⟩ := hsound l hd
        exact absurd hs (hnone vs _)

/-- An image whose only segment is its text. -/
def textImage (datasize : BitVec 32) : MachO :=
  ⟨true,[.segment ⟨"__TEXT".toList,0x100000000,0x1000,0,0x1000,5,[]⟩,.functionStarts 0 datasize]⟩

def textMemory (bs : List Byte) : Memory := fun a => bs.getD (a - 0x100000000).toNat 0

theorem decodeFunctionStarts_exact_two :
    Exact (textImage 3).textVmaddr [4,8,0] (decodeFunctionStarts (textImage 3) 0 (textMemory [4,8,0])) := by
  refine (decodeFunctionStarts_exact_iff (by decide)).mpr ⟨fun l hl => ⟨by decide,?_⟩,fun _ vs l hs _ => ?_⟩
  · rintro rfl
    exact absurd hl.bytes_of_nil (by decide)
  · have h1 : readUlebWithin 10 [4,8,0] = some (4,[8,0]) := by decide
    have h2 : readUlebWithin 10 [8,0] = some (8,[0]) := by decide
    have h3 : readUlebWithin 10 [0] = some (0,[]) := by decide
    obtain ⟨h0,-⟩ | ⟨-,-,vs8,l8,rfl,rfl,hs8⟩ := (sums_iff h1).mp hs
    · exact absurd h0 (by decide)
    obtain ⟨h0,-⟩ | ⟨-,-,vs0,l0,rfl,rfl,hs0⟩ := (sums_iff h2).mp hs8
    · exact absurd h0 (by decide)
    obtain ⟨-,rfl,-⟩ | ⟨h0,-⟩ := (sums_iff h3).mp hs0
    · decide
    · exact absurd rfl h0

/-- The tenth byte of the number 2^64 + 1 is lost, and a function is found behind the base. -/
theorem not_exact_lostBits :
    ¬Exact (textImage 10).textVmaddr [0x81,0x80,0x80,0x80,0x80,0x80,0x80,0x80,0x80,0x02]
      (decodeFunctionStarts (textImage 10) 0
        (textMemory [0x81,0x80,0x80,0x80,0x80,0x80,0x80,0x80,0x80,0x02])) := by
  intro h
  have hdecode : decodeFunctionStarts (textImage 10) 0
      (textMemory [0x81,0x80,0x80,0x80,0x80,0x80,0x80,0x80,0x80,0x02]) = some [0x100000001] := by decide
  obtain ⟨-,vs,hs⟩ := h.sound _ hdecode
  have hread : readUlebWithin 10 [0x81,0x80,0x80,0x80,0x80,0x80,0x80,0x80,0x80,0x02] = some (2^64 + 1,[]) := by decide
  rcases (sums_iff hread).mp hs with ⟨h0,-⟩ | ⟨-,hfits,-⟩
  · exact absurd h0 (by decide)
  · exact absurd hfits (by decide)

end Machismo.Trampoline
