import Machismo.Resolver.Import
import Mathlib.Algebra.Order.BigOperators.Group.List
import Mathlib.Logic.Relation

/-! # Chained fixups

The fixups of a segment are threaded through the very words they apply to: each word holds the
distance to the next, in steps of four bytes. The walk over all pages of all segments is compared with
the slots that are reachable from the page starts before it begins.
-/
namespace Machismo.Resolver
open A64

def fixupPtrBind (raw : BitVec 64) : Bool := raw.getLsbD 63
def fixupPtrNext (raw : BitVec 64) : ℕ := (raw.extractLsb' 51 12).toNat
def fixupBindOrdinal (raw : BitVec 64) : ℕ := (raw.extractLsb' 0 24).toNat
def fixupBindAddend (raw : BitVec 64) : BitVec 8 := raw.extractLsb' 24 8
def fixupRebaseTarget (raw : BitVec 64) : BitVec 36 := raw.extractLsb' 0 36
def fixupRebaseHigh8 (raw : BitVec 64) : BitVec 8 := raw.extractLsb' 36 8

def dyldChainedPtr64 : BitVec 16 := 2
def dyldChainedPtr64Offset : BitVec 16 := 6
def dyldChainedPtrStartNone : BitVec 16 := 0xFFFF

/-- The rebased address: relative to the header, or a slid `vmaddr`. -/
def rebaseBase (I : Image) (isOffset : Bool) (raw : BitVec 64) : BitVec 64 :=
  if isOffset then I.mhAddr + (fixupRebaseTarget raw).setWidth 64 else (fixupRebaseTarget raw).setWidth 64 + I.slide

def rebaseValue (I : Image) (isOffset : Bool) (raw : BitVec 64) : BitVec 64 :=
  rebaseBase I isOffset raw ||| (fixupRebaseHigh8 raw).setWidth 64 <<< 56

/-- The body of the loop of `walk_chain`. -/
def applyFixup (E : Env) (I : Image) (C : ChainedFixups) (isOffset : Bool) (loc : Addr) (raw : BitVec 64)
    (st : ResolverState) : ResolverState :=
  if fixupPtrBind raw then
    let (t,st) := resolveImport E I C (fixupBindOrdinal raw) ((fixupBindAddend raw).signExtend 64) st
    st.write loc (t.addr E)
  else
    let st := st.write loc (rebaseValue I isOffset raw)
    { st with rebasesApplied := st.rebasesApplied + 1 }

def walkChain (E : Env) (I : Image) (C : ChainedFixups) (isOffset : Bool) :
    ℕ → Addr → ResolverState → Option ResolverState
  | 0, _, _ => none
  | fuel + 1, loc, st =>
    let raw : BitVec 64 := load st.mem loc 8
    let st := applyFixup E I C isOffset loc raw st
    if fixupPtrNext raw = 0 then some st
    else walkChain E I C isOffset fuel (loc + BitVec.ofNat 64 (fixupPtrNext raw * 4)) st

/-- The start of a chain in its segment; the product of page and page size is a C `int`. -/
def startOffset (page : ℕ) (pageSize pageStart : BitVec 16) : BitVec 64 :=
  (BitVec.ofNat 32 (page*pageSize.toNat)).signExtend 64 + pageStart.setWidth 64

def walkPages (E : Env) (I : Image) (C : ChainedFixups) (fuel : ℕ) (S : SegmentStarts) :
    ℕ → List (BitVec 16) → ResolverState → Option ResolverState
  | _, [], st => some st
  | page, pageStart :: rest, st =>
    if pageStart = dyldChainedPtrStartNone then walkPages E I C fuel S (page+1) rest st
    else
      (walkChain E I C (S.pointerFormat = dyldChainedPtr64Offset) fuel
        (I.mhAddr + S.segmentOffset + startOffset page S.pageSize pageStart) st).bind
        (walkPages E I C fuel S (page+1) rest)

def SegmentStarts.supported (S : SegmentStarts) : Bool :=
  S.pointerFormat = dyldChainedPtr64 ∨ S.pointerFormat = dyldChainedPtr64Offset

def processSegments (E : Env) (I : Image) (C : ChainedFixups) (fuel : ℕ) :
    List (Option SegmentStarts) → ResolverState → Option ResolverState
  | [], st => some st
  | none :: rest, st => processSegments E I C fuel rest st
  | some S :: rest, st =>
    if S.supported then (walkPages E I C fuel S 0 S.pageStart st).bind (processSegments E I C fuel rest)
    else processSegments E I C fuel rest st

def processChainedFixups (E : Env) (I : Image) (C : ChainedFixups) (fuel : ℕ) (st : ResolverState) :
    Option ResolverState := processSegments E I C fuel C.starts st

/-- A page start: the segment, its base, the offset of the first slot, and the pointer format. -/
structure ChainStart where
  seg : ℕ
  base : Addr
  offset : BitVec 64
  isOffset : Bool

def pageStarts (I : Image) (seg : ℕ) (S : SegmentStarts) : ℕ → List (BitVec 16) → List ChainStart
  | _, [] => []
  | page, pageStart :: rest =>
    if pageStart = dyldChainedPtrStartNone then pageStarts I seg S (page+1) rest
    else ⟨seg,I.mhAddr + S.segmentOffset,startOffset page S.pageSize pageStart,
        S.pointerFormat = dyldChainedPtr64Offset⟩ :: pageStarts I seg S (page+1) rest

def segmentStarts (I : Image) : ℕ → List (Option SegmentStarts) → List ChainStart
  | _, [] => []
  | seg, none :: rest => segmentStarts I (seg+1) rest
  | seg, some S :: rest =>
    if S.supported then pageStarts I seg S 0 S.pageStart ++ segmentStarts I (seg+1) rest
    else segmentStarts I (seg+1) rest

def chainStarts (I : Image) (C : ChainedFixups) : List ChainStart := segmentStarts I 0 C.starts

/-- Walks the chains one after the other. -/
def walkAll (E : Env) (I : Image) (C : ChainedFixups) (fuel : ℕ) :
    List ChainStart → ResolverState → Option ResolverState
  | [], st => some st
  | s :: rest, st => (walkChain E I C s.isOffset fuel (s.base + s.offset) st).bind (walkAll E I C fuel rest)

section WalkAll
variable {E : Env} {I : Image} {C : ChainedFixups} {fuel : ℕ}

theorem walkAll_append (l l' : List ChainStart) (st : ResolverState) :
    walkAll E I C fuel (l ++ l') st = (walkAll E I C fuel l st).bind (walkAll E I C fuel l') := by
  induction l generalizing st with
  | nil => rfl
  | cons s l ih =>
    simp only [List.cons_append, walkAll, Option.bind_assoc]
    congr 1
    exact funext ih

theorem walkPages_eq (seg : ℕ) (S : SegmentStarts) (page : ℕ) (l : List (BitVec 16)) (st : ResolverState) :
    walkPages E I C fuel S page l st = walkAll E I C fuel (pageStarts I seg S page l) st := by
  induction l generalizing page st with
  | nil => rfl
  | cons pageStart rest ih =>
    unfold walkPages pageStarts
    split
    · exact ih (page+1) st
    · simp only [walkAll]
      congr 1
      exact funext (ih (page+1))

theorem processSegments_eq (seg : ℕ) (l : List (Option SegmentStarts)) (st : ResolverState) :
    processSegments E I C fuel l st = walkAll E I C fuel (segmentStarts I seg l) st := by
  induction l generalizing seg st with
  | nil => rfl
  | cons o rest ih =>
    cases o with
    | none => exact ih (seg+1) st
    | some S =>
      unfold processSegments segmentStarts
      split
      · rw [walkAll_append, walkPages_eq seg]
        congr 1
        exact funext (ih (seg+1))
      · exact ih (seg+1) st

theorem processChainedFixups_eq (st : ResolverState) :
    processChainedFixups E I C fuel st = walkAll E I C fuel (chainStarts I C) st := processSegments_eq 0 C.starts st

end WalkAll

structure Fixup where
  loc : Addr
  raw : BitVec 64
  isOffset : Bool

namespace Fixup
variable (E : Env) (I : Image) (C : ChainedFixups)

def apply (st : ResolverState) (x : Fixup) : ResolverState := applyFixup E I C x.isOffset x.loc x.raw st

def value (st : ResolverState) (x : Fixup) : BitVec 64 :=
  if fixupPtrBind x.raw then
    (resolveImport E I C (fixupBindOrdinal x.raw) ((fixupBindAddend x.raw).signExtend 64) st).1.addr E
  else rebaseValue I x.isOffset x.raw

/-- The slots of two fixups share no byte. -/
def Disjoint (x y : Fixup) : Prop := Apart x.loc 8 y.loc 8

variable {E I C}

theorem apply_mem (st : ResolverState) (x : Fixup) :
    (x.apply E I C st).mem = store st.mem x.loc 8 (x.value E I C st) := by
  unfold apply applyFixup value
  split
  · obtain ⟨_,hq⟩ := Quiet.resolveImport E I C (fixupBindOrdinal x.raw) ((fixupBindAddend x.raw).signExtend 64) st
    simp only [ResolverState.write, hq.mem]
  · rfl

theorem apply_written (st : ResolverState) (x : Fixup) : (x.apply E I C st).written = st.written ++ [x.loc] := by
  unfold apply applyFixup
  split
  · obtain ⟨_,hq⟩ := Quiet.resolveImport E I C (fixupBindOrdinal x.raw) ((fixupBindAddend x.raw).signExtend 64) st
    simp only [ResolverState.write, hq.written]
  · rfl

theorem apply_rebases (st : ResolverState) (x : Fixup) :
    (x.apply E I C st).rebasesApplied = st.rebasesApplied + if fixupPtrBind x.raw then 0 else 1 := by
  unfold apply applyFixup
  split
  · obtain ⟨_,hq⟩ := Quiet.resolveImport E I C (fixupBindOrdinal x.raw) ((fixupBindAddend x.raw).signExtend 64) st
    exact hq.rebases
  · rfl

theorem foldl_outside {b : Addr} (l : List Fixup) (st : ResolverState) (h : ∀ x ∈ l, 8 ≤ (b - x.loc).toNat) :
    (l.foldl (apply E I C) st).mem b = st.mem b := by
  induction l generalizing st with
  | nil => rfl
  | cons x l ih =>
    rw [List.foldl_cons, ih _ fun y hy => h y (by simp [hy]), apply_mem, store_outside _ _ _ _ (h x (by simp))]

theorem load_foldl {a : Addr} (l : List Fixup) (st : ResolverState) (h : ∀ x ∈ l, Apart a 8 x.loc 8) :
    load (l.foldl (apply E I C) st).mem a 8 = load st.mem a 8 :=
  load_congr fun _ hi => foldl_outside l st fun x hx => (h x hx).toNat_sub hi

theorem load_foldl_mem {l pre post : List Fixup} {x : Fixup} (st : ResolverState) (hl : l.Pairwise Disjoint)
    (he : l = pre ++ x :: post) :
    load (l.foldl (apply E I C) st).mem x.loc 8 = x.value E I C (pre.foldl (apply E I C) st) := by
  subst he
  have hpost : ∀ y ∈ post, Disjoint x y := (List.pairwise_cons.mp (List.pairwise_append.mp hl).2.1).1
  rw [List.foldl_append, List.foldl_cons, load_foldl post _ hpost, apply_mem, load_store_same _ _ _ _ (by omega)]

theorem foldl_rebases (l : List Fixup) (st : ResolverState) :
    (l.foldl (apply E I C) st).rebasesApplied = st.rebasesApplied + (l.filter fun x => !fixupPtrBind x.raw).length := by
  induction l generalizing st with
  | nil => rfl
  | cons x l ih =>
    rw [List.foldl_cons, ih, apply_rebases]
    cases hx : fixupPtrBind x.raw <;> simp [hx]
    omega

theorem foldl_written (l : List Fixup) (st : ResolverState) :
    (l.foldl (apply E I C) st).written = st.written ++ l.map loc := by
  induction l generalizing st with
  | nil => simp
  | cons x l ih => rw [List.foldl_cons, ih, apply_written, List.map_cons, List.append_assoc, List.singleton_append]

end Fixup

/-- The words a walk reads, each with its place. -/
def walkTrace (E : Env) (I : Image) (C : ChainedFixups) (isOffset : Bool) : ℕ → Addr → ResolverState → List Fixup
  | 0, _, _ => []
  | fuel + 1, loc, st =>
    let x : Fixup := ⟨loc,load st.mem loc 8,isOffset⟩
    if fixupPtrNext x.raw = 0 then [x]
    else x :: walkTrace E I C isOffset fuel (loc + BitVec.ofNat 64 (fixupPtrNext x.raw * 4)) (x.apply E I C st)

def walkAllTrace (E : Env) (I : Image) (C : ChainedFixups) (fuel : ℕ) : List ChainStart → ResolverState → List Fixup
  | [], _ => []
  | s :: rest, st =>
    let l := walkTrace E I C s.isOffset fuel (s.base + s.offset) st
    l ++ walkAllTrace E I C fuel rest (l.foldl (Fixup.apply E I C) st)

/-- The fixups of an image as the walk meets them. -/
def chainedTrace (E : Env) (I : Image) (C : ChainedFixups) (fuel : ℕ) (st : ResolverState) : List Fixup :=
  walkAllTrace E I C fuel (chainStarts I C) st

section Trace
variable {E : Env} {I : Image} {C : ChainedFixups} {fuel : ℕ}

theorem walkChain_eq_foldl {isOffset : Bool} {loc : Addr} {st st' : ResolverState}
    (h : walkChain E I C isOffset fuel loc st = some st') :
    st' = (walkTrace E I C isOffset fuel loc st).foldl (Fixup.apply E I C) st := by
  induction fuel generalizing loc st with
  | zero => cases h
  | succ fuel ih =>
    simp only [walkChain] at h
    simp only [walkTrace]
    split at h
    next h0 =>
      rw [if_pos h0]
      exact (Option.some.inj h).symm
    next h0 =>
      rw [if_neg h0]
      exact ih h

theorem walkAll_eq_foldl {l : List ChainStart} {st st' : ResolverState} (h : walkAll E I C fuel l st = some st') :
    st' = (walkAllTrace E I C fuel l st).foldl (Fixup.apply E I C) st := by
  induction l generalizing st with
  | nil => exact (Option.some.inj h).symm
  | cons s l ih =>
    obtain ⟨st₁,h₁,h⟩ := Option.bind_eq_some_iff.mp h
    obtain rfl := walkChain_eq_foldl h₁
    rw [walkAllTrace, List.foldl_append]
    exact ih h

theorem processChainedFixups_eq_foldl {st st' : ResolverState} (h : processChainedFixups E I C fuel st = some st') :
    st' = (chainedTrace E I C fuel st).foldl (Fixup.apply E I C) st := by
  rw [processChainedFixups_eq] at h
  exact walkAll_eq_foldl h

end Trace

/-! ## The slots reachable before the walk -/

namespace ChainStart
variable (m : Memory) (s : ChainStart)

def slot (o : ℕ) : Addr := s.base + BitVec.ofNat 64 o

/-- The word at an offset links to a further one. -/
def Link (o o' : ℕ) : Prop :=
  fixupPtrNext (load m (s.slot o) 8) ≠ 0 ∧ o' = o + fixupPtrNext (load m (s.slot o) 8) * 4

/-- An offset on the chain from the page start. -/
def Reaches (o : ℕ) : Prop := Relation.ReflTransGen (s.Link m) s.offset.toNat o

def fixup (o : ℕ) : Fixup := ⟨s.slot o,load m (s.slot o) 8,s.isOffset⟩

inductive Chain : ℕ → List ℕ → Prop
  | last {o : ℕ} (h : fixupPtrNext (load m (s.slot o) 8) = 0) : Chain o [o]
  | link {o o' : ℕ} {l : List ℕ} (h : s.Link m o o') (hl : Chain o' l) : Chain o (o :: l)

variable {m s}

theorem Link.lt {o o' : ℕ} (h : s.Link m o o') : o < o' := by
  obtain ⟨h0,rfl⟩ := h
  omega

theorem exists_chain {n : ℕ} (o : ℕ) (h : ∀ o', Relation.ReflTransGen (s.Link m) o o' → o' + 8 ≤ n) :
    ∃ l, s.Chain m o l := by
  have hk : ∀ k o, n - o ≤ k → (∀ o', Relation.ReflTransGen (s.Link m) o o' → o' + 8 ≤ n) → ∃ l, s.Chain m o l := by
    intro k
    induction k with
    | zero =>
      intro o hn h
      have := h o .refl
      omega
    | succ k ih =>
      intro o hn h
      by_cases h0 : fixupPtrNext (load m (s.slot o) 8) = 0
      · exact ⟨[o],.last h0⟩
      · have hlink : s.Link m o _ := ⟨h0,rfl⟩
        have hlt := hlink.lt
        have hle := h o .refl
        obtain ⟨l,hl⟩ := ih _ (by omega) fun o' ho' => h o' (.head hlink ho')
        exact ⟨o :: l,.link hlink hl⟩
  exact hk (n - o) o le_rfl h

theorem Chain.mem_iff {o : ℕ} {l : List ℕ} (h : s.Chain m o l) (o' : ℕ) :
    o' ∈ l ↔ Relation.ReflTransGen (s.Link m) o o' := by
  induction h with
  | last h0 =>
    rw [List.mem_singleton]
    constructor
    · intro h
      exact h ▸ .refl
    · intro h
      rcases h.cases_head with he | ⟨c,hc,-⟩
      · exact he.symm
      · exact absurd h0 hc.1
  | @link a b l hlink _ ih =>
    rw [List.mem_cons, ih]
    constructor
    · rintro (rfl | h)
      · exact .refl
      · exact .head hlink h
    · intro h
      rcases h.cases_head with he | ⟨c,hc,hr⟩
      · exact .inl he.symm
      · obtain rfl : c = b := hc.2.trans hlink.2.symm
        exact .inr hr

theorem Chain.increasing {o : ℕ} {l : List ℕ} (h : s.Chain m o l) : l.Pairwise (· < ·) ∧ ∀ x ∈ l, o ≤ x := by
  induction h with
  | last => simp
  | @link a b l hlink _ ih =>
    have hlt := hlink.lt
    refine ⟨List.pairwise_cons.mpr ⟨fun x hx => ?_,ih.1⟩,fun x hx => ?_⟩
    · have := ih.2 x hx
      omega
    · rcases List.mem_cons.mp hx with rfl | hx
      · exact le_rfl
      · have := ih.2 x hx
        omega

theorem slot_add (o k : ℕ) : s.slot o + BitVec.ofNat 64 k = s.slot (o + k) := by
  rw [slot, slot, BitVec.add_assoc, BitVec.ofNat_add]

/-- The walk along a chain whose words are still the original ones applies its fixups. -/
theorem Chain.walk {E : Env} {I : Image} {C : ChainedFixups} {o : ℕ} {l : List ℕ} (h : s.Chain m o l)
    (hl : (l.map (s.fixup m)).Pairwise Fixup.Disjoint) (st : ResolverState)
    (hst : ∀ o ∈ l, load st.mem (s.slot o) 8 = load m (s.slot o) 8) {fuel : ℕ} (hf : l.length ≤ fuel) :
    walkChain E I C s.isOffset fuel (s.slot o) st = some ((l.map (s.fixup m)).foldl (Fixup.apply E I C) st) := by
  induction h generalizing st fuel with
  | @last o h0 =>
    obtain ⟨fuel,rfl⟩ : ∃ k, fuel = k+1 := Nat.exists_eq_succ_of_ne_zero (by simp at hf; omega)
    simp only [walkChain, hst o (by simp), h0, ↓reduceIte]
    rfl
  | @link o o' l hlink _ ih =>
    obtain ⟨fuel,rfl⟩ : ∃ k, fuel = k+1 := Nat.exists_eq_succ_of_ne_zero (by simp at hf; omega)
    obtain ⟨hne,hl⟩ := List.pairwise_cons.mp (List.map_cons ▸ hl)
    simp only [List.length_cons, Nat.add_le_add_iff_right] at hf
    simp only [walkChain, hst o (by simp), hlink.1, ↓reduceIte, slot_add, ← hlink.2, List.map_cons, List.foldl_cons]
    refine ih hl _ (fun x hx => ?_) hf
    have hap : Fixup.Disjoint (s.fixup m o) (s.fixup m x) := hne _ (List.mem_map_of_mem hx)
    have hmem := Fixup.apply_mem (E := E) (I := I) (C := C) st (s.fixup m o)
    have hkeep : load (Fixup.apply E I C st (s.fixup m o)).mem (s.slot x) 8 = load st.mem (s.slot x) 8 := by
      rw [hmem]
      exact load_store_apart _ _ hap.symm
    exact hkeep.trans (hst x (by simp [hx]))

end ChainStart

def chainFixups (m : Memory) (L : List (ChainStart × List ℕ)) : List Fixup := L.flatMap fun p => p.2.map (p.1.fixup m)

section Process
variable {E : Env} {I : Image} {C : ChainedFixups} {m : Memory}

theorem walkAll_of_chains {fuel : ℕ} (L : List (ChainStart × List ℕ))
    (hc : ∀ p ∈ L, p.1.Chain m p.1.offset.toNat p.2) (hf : ∀ p ∈ L, p.2.length ≤ fuel)
    (hd : (chainFixups m L).Pairwise Fixup.Disjoint) (st : ResolverState)
    (hst : ∀ x ∈ chainFixups m L, load st.mem x.loc 8 = x.raw) :
    walkAll E I C fuel (L.map Prod.fst) st = some ((chainFixups m L).foldl (Fixup.apply E I C) st) := by
  induction L generalizing st with
  | nil => rfl
  | cons p L ih =>
    have hcons : chainFixups m (p :: L) = p.2.map (p.1.fixup m) ++ chainFixups m L := List.flatMap_cons
    rw [hcons] at hd hst ⊢
    obtain ⟨hd1,hd2,hcross⟩ := List.pairwise_append.mp hd
    have hslot : p.1.base + p.1.offset = p.1.slot p.1.offset.toNat := by
      rw [ChainStart.slot, BitVec.ofNat_toNat, BitVec.setWidth_eq]
    have hwalk := (hc p (by simp)).walk (E := E) (I := I) (C := C) hd1 st
      (fun o ho => hst (p.1.fixup m o) (by simp only [List.mem_append, List.mem_map]; exact .inl ⟨o,ho,rfl⟩))
        (hf p (by simp))
    rw [List.map_cons, walkAll, hslot, hwalk, Option.bind_some, List.foldl_append]
    refine ih (fun q hq => hc q (by simp [hq])) (fun q hq => hf q (by simp [hq])) hd2 _ fun x hx => ?_
    rw [Fixup.load_foldl _ st fun y hy => (hcross y hy x hx).symm]
    exact hst x (by simp [hx])

def SlotsApart (m : Memory) (l : List ChainStart) : Prop :=
  ∀ (i j : ℕ) (s s' : ChainStart) (o o' : ℕ), l[i]? = some s → l[j]? = some s' → s.Reaches m o → s'.Reaches m o' →
    i ≠ j ∨ o ≠ o' → Apart (s.slot o) 8 (s'.slot o') 8

/-- Chains that stay inside their segment and whose slots do not overlap. -/
structure ChainsApart (I : Image) (C : ChainedFixups) (m : Memory) (size : ℕ → ℕ) : Prop where
  inside : ∀ s ∈ chainStarts I C, ∀ o, s.Reaches m o → o + 8 ≤ size s.seg
  apart : SlotsApart m (chainStarts I C)

/-- An address is a slot of the image. -/
def IsSlot (I : Image) (C : ChainedFixups) (m : Memory) (a : Addr) : Prop :=
  ∃ s ∈ chainStarts I C, ∃ o, s.Reaches m o ∧ s.slot o = a

theorem exists_chains {m : Memory} (l : List ChainStart) (h : ∀ s ∈ l, ∃ k, s.Chain m s.offset.toNat k) :
    ∃ L : List (ChainStart × List ℕ), L.map Prod.fst = l ∧ ∀ p ∈ L, p.1.Chain m p.1.offset.toNat p.2 := by
  induction l with
  | nil => exact ⟨[],rfl,by simp⟩
  | cons s l ih =>
    obtain ⟨k,hk⟩ := h s (by simp)
    obtain ⟨L,hL,hc⟩ := ih fun s hs => h s (by simp [hs])
    refine ⟨(s,k) :: L,by rw [List.map_cons, hL],fun p hp => ?_⟩
    rcases List.mem_cons.mp hp with rfl | hp
    · exact hk
    · exact hc p hp

theorem mem_chainFixups {L : List (ChainStart × List ℕ)} (hc : ∀ p ∈ L, p.1.Chain m p.1.offset.toNat p.2) {x : Fixup} :
    x ∈ chainFixups m L ↔ ∃ s ∈ L.map Prod.fst, ∃ o, s.Reaches m o ∧ x = s.fixup m o := by
  simp only [chainFixups, List.mem_flatMap, List.mem_map]
  constructor
  · rintro ⟨p,hp,o,ho,rfl⟩
    exact ⟨p.1,⟨p,hp,rfl⟩,o,((hc p hp).mem_iff o).mp ho,rfl⟩
  · rintro ⟨-,⟨p,hp,rfl⟩,o,ho,rfl⟩
    exact ⟨p,hp,o,((hc p hp).mem_iff o).mpr ho,rfl⟩

theorem chainFixups_disjoint {L : List (ChainStart × List ℕ)} (hc : ∀ p ∈ L, p.1.Chain m p.1.offset.toNat p.2)
    (h : SlotsApart m (L.map Prod.fst)) :
    (chainFixups m L).Pairwise Fixup.Disjoint := by
  induction L with
  | nil => exact .nil
  | cons p L ih =>
    have hp := hc p (by simp)
    refine List.pairwise_append.mpr ⟨?_,?_,fun x hx y hy => ?_⟩
    · refine List.pairwise_map.mpr (hp.increasing.1.imp_of_mem fun ha hb hlt => ?_)
      exact h 0 0 p.1 p.1 _ _ rfl rfl ((hp.mem_iff _).mp ha) ((hp.mem_iff _).mp hb) (.inr hlt.ne)
    · exact ih (fun q hq => hc q (by simp [hq])) fun i j s s' o o' hi hj hr hr' hne =>
        h (i+1) (j+1) s s' o o' hi hj hr hr' (by omega)
    · obtain ⟨o,ho,rfl⟩ := List.mem_map.mp hx
      obtain ⟨s',hs',o',hr',rfl⟩ := (mem_chainFixups fun q hq => hc q (by simp [hq])).mp hy
      obtain ⟨j,hj⟩ := List.getElem?_of_mem hs'
      exact h 0 (j+1) p.1 s' o o' rfl hj ((hp.mem_iff o).mp ho) hr' (.inl (by omega))

/-- The fixups of an image with separate chains, in the order of the walk, and that the walk applies
them. -/
theorem exists_fixups {size : ℕ → ℕ} (st : ResolverState) (h : ChainsApart I C st.mem size) :
    ∃ fx : List Fixup, ∃ n, (∀ fuel ≥ n, processChainedFixups E I C fuel st = some (fx.foldl (Fixup.apply E I C) st)) ∧
      fx.Pairwise Fixup.Disjoint ∧
      ∀ x, x ∈ fx ↔ ∃ s ∈ chainStarts I C, ∃ o, s.Reaches st.mem o ∧ x = s.fixup st.mem o := by
  obtain ⟨L,hL,hc⟩ := exists_chains (chainStarts I C) fun s hs => ChainStart.exists_chain _ (h.inside s hs)
  have hd := chainFixups_disjoint hc (by rw [hL]; exact h.apart)
  refine ⟨chainFixups st.mem L,(L.map fun p => p.2.length).sum,fun fuel hfuel => ?_,hd,fun x => ?_⟩
  · rw [processChainedFixups_eq, ← hL]
    refine walkAll_of_chains L hc (fun p hp => ?_) hd st fun x hx => ?_
    · exact (List.single_le_sum (by simp) _ (List.mem_map_of_mem hp)).trans hfuel
    · obtain ⟨s,-,o,-,rfl⟩ := (mem_chainFixups hc).mp hx
      rfl
  · rw [mem_chainFixups hc, hL]

/-- The outcome of the walk over the fixups `fx`, which are those reachable before it. -/
structure Walked (E : Env) (I : Image) (C : ChainedFixups) (st st' : ResolverState) (fx : List Fixup) : Prop where
  slots : ∀ x, x ∈ fx ↔ ∃ s ∈ chainStarts I C, ∃ o, s.Reaches st.mem o ∧ x = s.fixup st.mem o
  once : fx.Pairwise Fixup.Disjoint
  written : st'.written = st.written ++ fx.map Fixup.loc
  rebase : ∀ x ∈ fx, fixupPtrBind x.raw = false → load st'.mem x.loc 8 = rebaseValue I x.isOffset x.raw ∧
    ((rebaseBase I x.isOffset x.raw).toNat < 2^56 →
      (rebaseValue I x.isOffset x.raw).extractLsb' 56 8 = fixupRebaseHigh8 x.raw ∧
      (rebaseValue I x.isOffset x.raw).extractLsb' 0 56 = (rebaseBase I x.isOffset x.raw).extractLsb' 0 56)
  bind : ∀ pre x post, fx = pre ++ x :: post → fixupPtrBind x.raw = true → load st'.mem x.loc 8 =
    (resolveImport E I C (fixupBindOrdinal x.raw) ((fixupBindAddend x.raw).signExtend 64)
      (pre.foldl (Fixup.apply E I C) st)).1.addr E
  rebases : st'.rebasesApplied = st.rebasesApplied + (fx.filter fun x => !fixupPtrBind x.raw).length
  frame : ∀ b, (∀ a, IsSlot I C st.mem a → 8 ≤ (b - a).toNat) → st'.mem b = st.mem b

theorem rebaseValue_bits {isOffset : Bool} {raw : BitVec 64} (h : (rebaseBase I isOffset raw).toNat < 2^56) :
    (rebaseValue I isOffset raw).extractLsb' 56 8 = fixupRebaseHigh8 raw ∧
      (rebaseValue I isOffset raw).extractLsb' 0 56 = (rebaseBase I isOffset raw).extractLsb' 0 56 := by
  have hb : ∀ i, 56 ≤ i → (rebaseBase I isOffset raw).getLsbD i = false := fun i hi =>
    Nat.testBit_lt_two_pow (h.trans_le (Nat.pow_le_pow_right (by decide) hi))
  unfold rebaseValue
  constructor
  · apply BitVec.eq_of_getLsbD_eq
    intro i hi
    have h1 : 56 + i < 64 := by omega
    have hbit : (rebaseBase I isOffset raw)[56+i] = false := hb (56+i) (by omega)
    simp [hi, h1, hbit]
  · apply BitVec.eq_of_getLsbD_eq
    intro i hi
    simp [hi]

theorem startOffset_toNat {page : ℕ} {pageSize : BitVec 16} (hp : page < 2^16) (hs : pageSize.toNat ≤ 2^15)
    (pageStart : BitVec 16) : (startOffset page pageSize pageStart).toNat = page*pageSize.toNat + pageStart.toNat := by
  have hmul : page*pageSize.toNat < 2^31 :=
    calc page*pageSize.toNat ≤ page*2^15 := Nat.mul_le_mul_left _ hs
      _ < 2^16*2^15 := Nat.mul_lt_mul_of_pos_right hp (by decide)
  have hmsb : (BitVec.ofNat 32 (page*pageSize.toNat)).msb = false := by
    rw [BitVec.msb_eq_false_iff_two_mul_lt, BitVec.toNat_ofNat, Nat.mod_eq_of_lt (by omega)]
    omega
  have hstart := pageStart.isLt
  rw [startOffset, BitVec.signExtend_eq_setWidth_of_msb_false hmsb]
  simp only [BitVec.toNat_add, BitVec.toNat_setWidth, BitVec.toNat_ofNat]
  omega

/-- Where the chains stay in their segments and no two slots overlap, the walk ends; it applies each
reachable fixup once, from its original word, and changes nothing else. -/
theorem processChainedFixups_walked (E : Env) (I : Image) (C : ChainedFixups) (st : ResolverState) (size : ℕ → ℕ)
    (h : ChainsApart I C st.mem size) :
    ∃ st' fx n, (∀ fuel ≥ n, processChainedFixups E I C fuel st = some st') ∧ Walked E I C st st' fx := by
  obtain ⟨fx,n,hrun,hd,hmem⟩ := exists_fixups (E := E) st h
  refine ⟨_,fx,n,hrun,hmem,hd,Fixup.foldl_written fx st,fun x hx hb => ?_,fun pre x post he hb => ?_,
    Fixup.foldl_rebases fx st,fun b hb => ?_⟩
  · obtain ⟨pre,post,he⟩ := List.append_of_mem hx
    refine ⟨?_,rebaseValue_bits⟩
    rw [Fixup.load_foldl_mem st hd he, Fixup.value, hb]
    rfl
  · rw [Fixup.load_foldl_mem st hd he, Fixup.value, hb]
    rfl
  · refine Fixup.foldl_outside fx st fun x hx => hb x.loc ?_
    obtain ⟨s,hs,o,ho,rfl⟩ := (hmem x).mp hx
    exact ⟨s,hs,o,ho,rfl⟩

end Process

/-- A segment of one page with a rebase at 0 and a bind to import 0 at 8. -/
def twoFixups : ChainedFixups where
  importsCount := 1
  importsFormat := 1
  imports := store (fun _ => 0) 0 4 (0xFE#32 : BitVec 32)
  symbols := fun _ => "_printf".toList
  starts := [some ⟨0x4000,6,0x1000,[0],by decide⟩]

def twoWords : Memory :=
  store (store (fun _ => 0) 0x11000 8 (0x0010000000000040#64 : BitVec 64)) 0x11008 8 (0x8000000000000000#64 : BitVec 64)

def twoStart : ChainStart := ⟨0,0x11000,0,true⟩

theorem chainStarts_twoFixups : chainStarts noImage twoFixups = [twoStart] := rfl

theorem twoStart_chain : twoStart.Chain twoWords 0 [0,8] := .link ⟨by decide,by decide⟩ (.last (by decide))

theorem twoStart_reaches {m : Memory} (h : twoStart.Chain m 0 [0,8]) {o : ℕ} (ho : twoStart.Reaches m o) :
    o = 0 ∨ o = 8 := by
  simpa using (h.mem_iff o).mpr ho

theorem slotsApart_twoStart {m : Memory} (h : twoStart.Chain m 0 [0,8]) : SlotsApart m [twoStart] := by
  intro i j s s' o o' hi hj ho ho' hne
  have hone : ∀ {k : ℕ} {s : ChainStart}, [twoStart][k]? = some s → k = 0 ∧ s = twoStart := by
    intro k s hk
    obtain ⟨hlt,he⟩ := List.getElem?_eq_some_iff.mp hk
    obtain rfl : k = 0 := by simpa using hlt
    exact ⟨rfl,he.symm⟩
  obtain ⟨rfl,rfl⟩ := hone hi
  obtain ⟨rfl,rfl⟩ := hone hj
  rcases twoStart_reaches h ho with rfl | rfl <;> rcases twoStart_reaches h ho' with rfl | rfl
  · simp at hne
  · decide
  · decide
  · simp at hne

theorem twoFixups_apart : ChainsApart noImage twoFixups twoWords fun _ => 16 := by
  refine ⟨fun s hs o ho => ?_,slotsApart_twoStart twoStart_chain⟩
  obtain rfl := List.mem_singleton.mp hs
  have := twoStart_reaches twoStart_chain ho
  omega

theorem processChainedFixups_walked_two :
    ChainsApart noImage twoFixups (freshState twoWords).mem (fun _ => 16) ∧ ∃ st' fx n,
      (∀ fuel ≥ n, processChainedFixups printfLibrary noImage twoFixups fuel (freshState twoWords) = some st') ∧
        Walked printfLibrary noImage twoFixups (freshState twoWords) st' fx :=
  ⟨twoFixups_apart,processChainedFixups_walked printfLibrary noImage twoFixups (freshState twoWords) _ twoFixups_apart⟩

end Machismo.Resolver
