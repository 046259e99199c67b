import Machismo.Data.LinearProbe

/-! # The pointer map

The table from pointers to allocation indices has a power of two of slots and doubles when it is filled to
seven tenths.  `ptr_map_remove` stores the run behind the removed entry again through `ptr_map_insert`, which
would let the table grow if it were filled that far.
-/
namespace Machismo.Heaptrack
open Data.LinearProbe

/-- A pointer that is not null; null marks an empty slot. -/
abbrev Ptr := {p : BitVec 64 // p ≠ 0}

def hashPtr (p : Ptr) : BitVec 32 :=
  let v := p.1 ^^^ (p.1 >>> 16)
  let v := v * 0x45d9f3b
  (v ^^^ (v >>> 16)).setWidth 32

structure PtrTable where
  cap : ℕ
  count : ℕ
  slots : Slots Ptr ℤ

def PtrTable.initial : PtrTable := ⟨0,0,fun _ => none⟩

/-- `i & (ptr_table_cap - 1)` -/
def maskIndex (cap : ℕ) (i : BitVec 32) : ℕ := (i &&& BitVec.ofNat 32 (cap-1)).toNat

def nextSlot (cap i : ℕ) : ℕ := maskIndex cap (BitVec.ofNat 32 (i+1))

/-- The first slot from one on that is empty; `none` if a number of rounds is not enough. -/
def findFree (cap : ℕ) (slots : Slots Ptr ℤ) : ℕ → ℕ → Option ℕ
  | 0, _ => none
  | n + 1, i =>
    match slots i with
    | none => some i
    | some _ => findFree cap slots n (nextSlot cap i)

/-- The first slot from one on that is empty or has the pointer. -/
def findPtr (cap : ℕ) (slots : Slots Ptr ℤ) (p : Ptr) : ℕ → ℕ → Option ℕ
  | 0, _ => none
  | n + 1, i =>
    match slots i with
    | none => some i
    | some e => if e.1 = p then some i else findPtr cap slots p n (nextSlot cap i)

section Model
variable (hash : Ptr → BitVec 32)

/-- One round of the loop of `ptr_table_grow` over the old slots. -/
def moveEntry (newCap : ℕ) (old new : Slots Ptr ℤ) (i : ℕ) : Option (Slots Ptr ℤ) :=
  match old i with
  | none => some new
  | some e => (findFree newCap new newCap (maskIndex newCap (hash e.1))).map fun h => Function.update new h (some e)

def ptrTableGrow (t : PtrTable) : Option PtrTable :=
  let newCap := if t.cap = 0 then 2^16 else t.cap*2
  ((List.range t.cap).foldlM (moveEntry hash newCap t.slots) fun _ => none).map fun new =>
    { t with cap := newCap, slots := new }

def ptrMapInsert (ptr : Ptr) (allocInfoIdx : ℤ) (t : PtrTable) : Option PtrTable :=
  (if t.cap*7 ≤ t.count*10 then ptrTableGrow hash t else some t).bind fun t =>
    (findPtr t.cap t.slots ptr t.cap (maskIndex t.cap (hash ptr))).map fun h =>
      { t with
        slots := Function.update t.slots h (some (ptr,allocInfoIdx))
        count := match t.slots h with
          | none => t.count + 1
          | some _ => t.count }

/-- The loop of `ptr_map_remove` behind the emptied slot. -/
def rehash : ℕ → ℕ → PtrTable → Option PtrTable
  | 0, _, _ => none
  | n + 1, j, t =>
    match t.slots j with
    | none => some t
    | some (k,v) =>
      (ptrMapInsert hash k v { t with slots := Function.update t.slots j none, count := t.count - 1 }).bind fun t =>
        rehash n (nextSlot t.cap j) t

def ptrMapRemove (ptr : Ptr) (t : PtrTable) : Option (ℤ × PtrTable) :=
  if t.cap = 0 then some (-1,t)
  else
    (findPtr t.cap t.slots ptr t.cap (maskIndex t.cap (hash ptr))).bind fun h =>
      match t.slots h with
      | none => some (-1,t)
      | some (_,idx) =>
        (rehash hash t.cap (nextSlot t.cap h)
          { t with slots := Function.update t.slots h none, count := t.count - 1 }).map fun t => (idx,t)

end Model

section Search
variable {slots : Slots Ptr ℤ} {k : ℕ}

theorem maskIndex_eq (hk : k ≤ 32) (i : BitVec 32) : maskIndex (2^k) i = i.toNat % 2^k := by
  have hlt : 2^k - 1 < 2^32 := by
    have hpow : 2^k ≤ 2^32 := Nat.pow_le_pow_right (by decide) hk
    have hpos := Nat.two_pow_pos k
    omega
  rw [maskIndex,BitVec.toNat_and,BitVec.toNat_ofNat,Nat.mod_eq_of_lt hlt,Nat.and_two_pow_sub_one_eq_mod]

theorem nextSlot_eq (hk : k < 32) {i : ℕ} (hi : i < 2^k) : nextSlot (2^k) i = (i+1) % 2^k := by
  have hpow : 2^k ≤ 2^31 := Nat.pow_le_pow_right (by decide) (Nat.le_of_lt_succ hk)
  rw [nextSlot,maskIndex_eq hk.le,BitVec.toNat_ofNat,Nat.mod_eq_of_lt (by omega : i + 1 < 2^32)]

theorem findPtr_eq (hk : k < 32) (p : Ptr) (n : ℕ) {i : ℕ} (hi : i < 2^k) :
    findPtr (2^k) slots p n i = search (2^k) (stopAt slots p) n i := by
  induction n generalizing i with
  | zero => rfl
  | succ n ih =>
    rw [findPtr,search,stopAt]
    cases hs : slots i with
    | none => rfl
    | some e =>
      simp only [Option.all_some,decide_eq_true_eq]
      rw [nextSlot_eq hk hi,ih (Nat.mod_lt _ (Nat.two_pow_pos k))]

theorem findFree_eq (hk : k < 32) (n : ℕ) {i : ℕ} (hi : i < 2^k) :
    findFree (2^k) slots n i = search (2^k) (freeAt slots) n i := by
  induction n generalizing i with
  | zero => rfl
  | succ n ih =>
    rw [findFree,search,freeAt]
    cases hs : slots i with
    | none => rfl
    | some e =>
      simp only [Option.isNone_some,Bool.false_eq_true,↓reduceIte]
      rw [nextSlot_eq hk hi,ih (Nat.mod_lt _ (Nat.two_pow_pos k))]

/-- The loop from a pointer's own slot on, in a table whose capacity is a power of two. -/
theorem findPtr_maskIndex {cap : ℕ} (hk : k < 32) (hcap : cap = 2^k) (p : Ptr) (i : BitVec 32) :
    findPtr cap slots p cap (maskIndex cap i) = search cap (stopAt slots p) cap (i.toNat % cap) := by
  subst hcap
  rw [maskIndex_eq hk.le,findPtr_eq hk p _ (Nat.mod_lt _ (Nat.two_pow_pos k))]

theorem nextSlot_mod {cap : ℕ} (hk : k < 32) (hcap : cap = 2^k) {i : ℕ} (hi : i < cap) :
    nextSlot cap i = (i+1) % cap := by
  subst hcap
  exact nextSlot_eq hk hi

end Search

section Operation
variable {hash : Ptr → BitVec 32} {t : PtrTable}

def PtrTable.Has (t : PtrTable) (p : Ptr) (v : ℤ) : Prop := Data.LinearProbe.Has t.cap t.slots p v

/-- The table between two operations. -/
structure PtrTable.Sound (hash : Ptr → BitVec 32) (t : PtrTable) : Prop where
  cap : t.cap = 0 ∨ ∃ k, 16 ≤ k ∧ k ≤ 28 ∧ t.cap = 2^k
  valid : Valid (fun p => (hash p).toNat) t.cap t.slots
  count : t.count = filled t.cap t.slots
  load : t.count*10 < t.cap*7 + 10

theorem moveEntries_spec (hash : Ptr → BitVec 32) {k cap : ℕ} {old : Slots Ptr ℤ} (hk : k < 32) (hu : Unique cap old)
    (hfits : filled cap old < 2^k) {n : ℕ} (hn : n ≤ cap) :
    ∃ new, (List.range n).foldlM (moveEntry hash (2^k) old) (fun _ => none) = some new ∧
      Valid (fun p => (hash p).toNat) (2^k) new ∧ filled (2^k) new = filled n old ∧
      ∀ p v, Data.LinearProbe.Has (2^k) new p v ↔ ∃ i < n, old i = some (p,v) := by
  induction n with
  | zero =>
    refine ⟨fun _ => none,rfl,valid_empty _ _,?_,fun p v => ?_⟩
    · simp [filled]
    · refine iff_of_false ?_ ?_
      · rintro ⟨i,-,h⟩
        cases h
      · rintro ⟨i,hi,-⟩
        exact absurd hi (Nat.not_lt_zero i)
  | succ n ih =>
    obtain ⟨new,hfold,hvalid,hfilled,hhas⟩ := ih (Nat.le_of_succ_le hn)
    rw [List.range_succ,List.foldlM_append,hfold,Option.bind_eq_bind,Option.bind_some,List.foldlM_cons]
    simp only [List.foldlM_nil]
    cases hs : old n with
    | none =>
      have hmove : moveEntry hash (2^k) old new n = some new := by rw [moveEntry,hs]
      refine ⟨new,by rw [hmove]; rfl,hvalid,?_,fun p v => ?_⟩
      · rw [hfilled,filled_succ,hs]
        rfl
      · rw [hhas,Nat.exists_lt_succ_right,hs]
        exact (or_iff_left (Option.some_ne_none _).symm).symm
    | some e =>
      obtain ⟨p,v⟩ := e
      have habsent : ∀ j < 2^k, ∀ w, new j ≠ some (p,w) := by
        intro j hj w hw
        obtain ⟨i,hi,h⟩ := (hhas p w).mp ⟨j,hj,hw⟩
        exact absurd (hu i (by omega) n (by omega) p w v h hs) hi.ne
      have hfree : ∃ i < 2^k, new i = none :=
        exists_free (by rw [hfilled]; exact (filled_mono (Nat.le_of_succ_le hn) old).trans_lt hfits)
      obtain ⟨h,hsearch,hnone,hstop⟩ :=
        exists_stop_free (fun p : Ptr => (hash p).toNat) (k := p) hfree habsent
      have hmove : moveEntry hash (2^k) old new n = some (Function.update new h (some (p,v))) := by
        rw [moveEntry,hs]
        simp only
        rw [maskIndex_eq hk.le,findFree_eq hk _ (Nat.mod_lt _ (Nat.two_pow_pos k)),hsearch]
        rfl
      refine ⟨_,by rw [hmove]; rfl,hvalid.store hstop v,?_,fun p' v' => ?_⟩
      · rw [filled_store_free hstop.lt hnone,hfilled,filled_succ,hs]
        rfl
      · have hother : ∀ i < n, old i = some (p',v') → p' ≠ p := by
          rintro i hi h rfl
          exact absurd (hu i (by omega) n (by omega) p' v' v h hs) hi.ne
        rw [has_store hstop.lt hstop.slot hstop.absent,hhas,Nat.exists_lt_succ_right,hs]
        constructor
        · rintro (⟨rfl,rfl⟩ | ⟨-,hmoved⟩)
          · exact .inr rfl
          · exact .inl hmoved
        · rintro (⟨i,hi,h⟩ | heq)
          · exact .inr ⟨hother i hi h,i,hi,h⟩
          · cases heq
            exact .inl ⟨rfl,rfl⟩

theorem ptrTableGrow_spec (ht : t.Sound hash) (hcount : t.count < 2^27) (hload : t.cap*7 ≤ t.count*10) :
    ∃ t', ptrTableGrow hash t = some t' ∧ t'.Sound hash ∧ t'.count = t.count ∧ t'.count*10 < t'.cap*7 ∧
      t.cap < t'.cap ∧ ∀ p v, t'.Has p v ↔ t.Has p v := by
  obtain ⟨k,hk,hk',hnew⟩ : ∃ k, 16 ≤ k ∧ k ≤ 28 ∧ (if t.cap = 0 then 2^16 else t.cap*2) = 2^k := by
    rcases ht.cap with h0 | ⟨k,hk,hk',hcap⟩
    · exact ⟨16,le_rfl,by decide,if_pos h0⟩
    · have hlt : k < 28 := by
        by_contra hge
        obtain rfl : k = 28 := by omega
        omega
      refine ⟨k+1,by omega,hlt,?_⟩
      rw [if_neg (by rw [hcap]; exact (Nat.two_pow_pos k).ne'),hcap,pow_succ]
  have hcap : t.cap < 2^k ∧ t.count*10 < 2^k*7 := by
    have hpow : 2^16 ≤ 2^k := Nat.pow_le_pow_right (by decide) hk
    have hload' := ht.load
    rw [← hnew] at hpow ⊢
    split_ifs at hpow ⊢ with h0
    · rw [h0] at hload'
      omega
    · omega
  have hfits : filled t.cap t.slots < 2^k := by
    have hcount' := ht.count
    omega
  obtain ⟨new,hfold,hvalid,hfilled,hhas⟩ := moveEntries_spec hash (by omega) ht.valid.unique hfits le_rfl
  refine ⟨⟨2^k,t.count,new⟩,?_,⟨.inr ⟨k,hk,hk',rfl⟩,hvalid,?_,?_⟩,rfl,hcap.2,hcap.1,fun p v => hhas p v⟩
  · rw [ptrTableGrow]
    simp only [hnew,hfold,Option.map_some]
  · rw [hfilled]
    exact ht.count
  · dsimp only
    omega

theorem store_spec (ht : t.Sound hash) (hload : t.count*10 < t.cap*7) (p : Ptr) (v : ℤ) :
    ∃ t', ptrMapInsert hash p v t = some t' ∧ t'.Sound hash ∧ t'.cap = t.cap ∧
      ∀ q w, t'.Has q w ↔ (q = p ∧ w = v) ∨ (q ≠ p ∧ t.Has q w) := by
  obtain ⟨k,hk,hk',hcap⟩ := ht.cap.resolve_left (by omega)
  have hpow : 2^16 ≤ 2^k := Nat.pow_le_pow_right (by decide) hk
  have hcount := ht.count
  have hfree : ∃ i < t.cap, t.slots i = none := exists_free (by omega)
  obtain ⟨i,hsearch,hstop⟩ := ht.valid.exists_stop hfree p
  have hfind : findPtr t.cap t.slots p t.cap (maskIndex t.cap (hash p)) = some i :=
    (findPtr_maskIndex (by omega) hcap p (hash p)).trans hsearch
  have hins : ptrMapInsert hash p v t = some { t with
      slots := Function.update t.slots i (some (p,v))
      count := match t.slots i with
        | none => t.count + 1
        | some _ => t.count } := by
    rw [ptrMapInsert,if_neg (by omega),Option.bind_some,hfind]
    rfl
  refine ⟨_,hins,⟨ht.cap,ht.valid.store hstop v,?_,?_⟩,rfl,fun q w => has_store hstop.lt hstop.slot hstop.absent⟩
  · cases hs : t.slots i with
    | none =>
      rw [filled_store_free hstop.lt hs]
      exact congrArg (·+1) hcount
    | some e =>
      rw [filled_store_filled (by rw [hs]; exact Option.some_ne_none e)]
      exact hcount
  · cases hs : t.slots i with
    | none =>
      dsimp only
      omega
    | some e =>
      dsimp only
      omega

theorem ptrMapInsert_spec (ht : t.Sound hash) (hcount : t.count < 2^27) (p : Ptr) (v : ℤ) :
    ∃ t', ptrMapInsert hash p v t = some t' ∧ t'.Sound hash ∧
      ∀ q w, t'.Has q w ↔ (q = p ∧ w = v) ∨ (q ≠ p ∧ t.Has q w) := by
  by_cases hload : t.cap*7 ≤ t.count*10
  · obtain ⟨t₁,hgrow,ht₁,-,hload₁,-,hhas₁⟩ := ptrTableGrow_spec ht hcount hload
    obtain ⟨t₂,hins,ht₂,-,hhas₂⟩ := store_spec ht₁ hload₁ p v
    refine ⟨t₂,?_,ht₂,fun q w => ?_⟩
    · rw [ptrMapInsert,if_neg (not_le.mpr hload₁),Option.bind_some] at hins
      rw [ptrMapInsert,if_pos hload,hgrow,Option.bind_some]
      exact hins
    · rw [hhas₂,hhas₁]
  · obtain ⟨t',hins,ht',-,hhas⟩ := store_spec ht (not_le.mp hload) p v
    exact ⟨t',hins,ht',hhas⟩

theorem rehash_spec {k h D m n : ℕ} (hk : k < 32) (hcap : t.cap = 2^k)
    (hrun : Run (fun p => (hash p).toNat) t.cap t.slots h D m) (hcount : t.count = filled t.cap t.slots)
    (hload : t.count*10 < t.cap*7) (hn : D < n + m) :
    ∃ slots', rehash hash n ((h+m)%t.cap) t = some { t with slots := slots' } ∧
      Valid (fun p => (hash p).toNat) t.cap slots' ∧ filled t.cap slots' = filled t.cap t.slots ∧
      ∀ q w, Data.LinearProbe.Has t.cap slots' q w ↔ t.Has q w := by
  induction n generalizing m t with
  | zero =>
    have hle := hrun.le
    omega
  | succ n ih =>
    have hc : 0 < t.cap := hcap ▸ Nat.two_pow_pos k
    have hj : (h+m)%t.cap < t.cap := Nat.mod_lt _ hc
    rw [rehash]
    rcases Nat.lt_or_eq_of_le hrun.le with hm | rfl
    · cases hs : t.slots ((h+m)%t.cap) with
      | none => exact absurd hs (hrun.filled m le_rfl hm)
      | some e =>
        obtain ⟨p,v⟩ := e
        obtain ⟨i,hi,hsearch,hnone,hend,hplaced⟩ := hrun.exists_slot hm hs
        have hsome : t.slots ((h+m)%t.cap) ≠ none := hrun.filled m le_rfl hm
        have hclear := filled_clear hj hsome
        set cleared := Function.update t.slots ((h+m)%t.cap) none with hcleared
        have hfilled : filled t.cap (Function.update cleared i (some (p,v))) = filled t.cap t.slots := by
          rw [filled_store_free hi hnone,hclear]
        have hfind : findPtr t.cap cleared p t.cap (maskIndex t.cap (hash p)) = some i :=
          (findPtr_maskIndex hk hcap p (hash p)).trans hsearch
        have hins : ptrMapInsert hash p v { t with slots := cleared, count := t.count - 1 } =
            some { t with slots := Function.update cleared i (some (p,v)) } := by
          have hback : t.count - 1 + 1 = t.count := by omega
          rw [ptrMapInsert]
          simp only
          rw [if_neg (by omega),Option.bind_some,hfind,Option.map_some]
          simp only [hnone,hback]
        have hstep := hrun.step hm hs hi hnone hend hplaced
        have hnext : nextSlot t.cap ((h+m)%t.cap) = (h+(m+1))%t.cap := by
          rw [nextSlot_mod hk hcap hj,Nat.mod_add_mod,Nat.add_assoc]
        obtain ⟨slots',hloop,hvalid,hfilled',hhas⟩ :=
          ih (t := { t with slots := Function.update cleared i (some (p,v)) }) hcap hstep
            (hcount.trans hfilled.symm) hload (by omega)
        refine ⟨slots',?_,hvalid,hfilled'.trans hfilled,fun q w => (hhas q w).trans (has_restore hj hs hi hnone)⟩
        simp only
        rw [hins,Option.bind_some]
        simp only
        rw [hnext]
        exact hloop
    · rw [hrun.free]
      exact ⟨t.slots,rfl,hrun.valid,rfl,fun q w => Iff.rfl⟩

theorem ptrMapRemove_spec (ht : t.Sound hash) (p : Ptr) :
    ∃ idx t', ptrMapRemove hash p t = some (idx,t') ∧ t'.Sound hash ∧ t'.cap = t.cap ∧
      ((∃ v, t.Has p v ∧ idx = v) ∨ ((∀ v, ¬t.Has p v) ∧ idx = -1)) ∧
      ∀ q w, t'.Has q w ↔ q ≠ p ∧ t.Has q w := by
  rcases ht.cap with h0 | ⟨k,hk,hk',hcap⟩
  · have hnone : ∀ q w, ¬t.Has q w := by
      rintro q w ⟨i,hi,-⟩
      rw [h0] at hi
      exact Nat.not_lt_zero i hi
    refine ⟨-1,t,if_pos h0,ht,rfl,.inr ⟨hnone p,rfl⟩,fun q w => iff_of_false (hnone q w) fun h => hnone q w h.2⟩
  · have hpow : 2^16 ≤ 2^k := Nat.pow_le_pow_right (by decide) hk
    have hcount := ht.count
    have hload := ht.load
    have hfree : ∃ i < t.cap, t.slots i = none := exists_free (by omega)
    obtain ⟨h,hsearch,hstop⟩ := ht.valid.exists_stop hfree p
    have hfind : findPtr t.cap t.slots p t.cap (maskIndex t.cap (hash p)) = some h :=
      (findPtr_maskIndex (by omega) hcap p (hash p)).trans hsearch
    rw [ptrMapRemove,if_neg (by omega),hfind,Option.bind_some]
    cases hs : t.slots h with
    | none =>
      have habsent : ∀ v, ¬t.Has p v := by
        rintro v ⟨j,hj,hjv⟩
        by_cases hjh : j = h
        · rw [hjh,hs] at hjv
          cases hjv
        · exact hstop.absent j hj hjh v hjv
      refine ⟨-1,t,rfl,ht,rfl,.inr ⟨habsent,rfl⟩,fun q w => ⟨fun hq => ⟨?_,hq⟩,fun hq => hq.2⟩⟩
      rintro rfl
      exact habsent w hq
    | some e =>
      obtain ⟨p',idx⟩ := e
      obtain rfl : p' = p := hstop.slot _ hs
      have hsome : t.slots h ≠ none := by
        rw [hs]
        exact Option.some_ne_none _
      obtain ⟨D,hrun⟩ := ht.valid.run hstop.lt hsome hfree
      have hclear := filled_clear hstop.lt hsome
      have hnext : nextSlot t.cap h = (h+1)%t.cap := nextSlot_mod (by omega) hcap hstop.lt
      have hDlt := hrun.lt
      obtain ⟨slots',hloop,hvalid,hfilled,hhas⟩ := rehash_spec (k := k)
        (t := { t with slots := Function.update t.slots h none, count := t.count - 1 }) (n := t.cap) (by omega) hcap
        hrun (by dsimp only; omega) (by dsimp only; omega) (by omega)
      refine ⟨idx,{ t with slots := slots', count := t.count - 1 },?_,⟨ht.cap,hvalid,?_,?_⟩,rfl,
        .inl ⟨idx,⟨h,hstop.lt,hs⟩,rfl⟩,fun q w => ?_⟩
      · simp only
        rw [hnext,hloop]
        rfl
      · dsimp only at hfilled ⊢
        omega
      · dsimp only
        omega
      · exact (hhas q w).trans (has_clear ht.valid.unique hstop.lt hs)

end Operation

/-! ## Runs -/

inductive PtrOp where
  | insert (ptr : Ptr) (allocInfoIdx : ℤ)
  | remove (ptr : Ptr)

def PtrOp.ptr : PtrOp → Ptr
  | .insert ptr _ => ptr
  | .remove ptr => ptr

/-- What the removals return, and the table at the end. -/
def runOps (hash : Ptr → BitVec 32) : List PtrOp → PtrTable → Option (List ℤ × PtrTable)
  | [], t => some ([],t)
  | .insert ptr idx :: ops, t => (ptrMapInsert hash ptr idx t).bind fun t => runOps hash ops t
  | .remove ptr :: ops, t =>
    (ptrMapRemove hash ptr t).bind fun r => (runOps hash ops r.2).map fun r' => (r.1 :: r'.1,r'.2)

/-- The map that the table stands for. -/
abbrev PtrMap := Ptr → Option ℤ

def mapOps : List PtrOp → PtrMap → List ℤ × PtrMap
  | [], m => ([],m)
  | .insert ptr idx :: ops, m => mapOps ops (Function.update m ptr (some idx))
  | .remove ptr :: ops, m =>
    let r := mapOps ops (Function.update m ptr none)
    ((m ptr).getD (-1) :: r.1,r.2)

noncomputable def live (m : PtrMap) : ℕ := Set.ncard {ptr | m ptr ≠ none}

structure Represents (hash : Ptr → BitVec 32) (t : PtrTable) (m : PtrMap) : Prop where
  sound : t.Sound hash
  entries : ∀ p v, t.Has p v ↔ m p = some v

section Runs
variable {hash : Ptr → BitVec 32} {t t' : PtrTable} {m : PtrMap}

theorem Represents.count_eq (h : Represents hash t m) : t.count = live m := by
  rw [h.sound.count,filled_eq_ncard h.sound.valid.unique,live]
  congr 1
  ext p
  simp only [Set.mem_ofPred_eq,Option.ne_none_iff_exists']
  exact exists_congr fun v => h.entries p v

theorem Represents.exists_free (h : Represents hash t m) (hcap : t.cap ≠ 0) : ∃ i < t.cap, t.slots i = none := by
  obtain ⟨k,hk,-,hpow⟩ := h.sound.cap.resolve_left hcap
  have hle : 2^16 ≤ 2^k := Nat.pow_le_pow_right (by decide) hk
  have hcount := h.sound.count
  have hload := h.sound.load
  exact Data.LinearProbe.exists_free (by omega)

theorem Represents.cap_le (h : Represents hash t m) : t.cap ≤ 2^28 := by
  rcases h.sound.cap with h0 | ⟨k,-,hk,hcap⟩
  · omega
  · rw [hcap]
    exact Nat.pow_le_pow_right (by decide) hk

theorem Represents.insert (h : Represents hash t m) (hlive : live m < 2^27) (p : Ptr) (v : ℤ) :
    ∃ t', ptrMapInsert hash p v t = some t' ∧ Represents hash t' (Function.update m p (some v)) := by
  obtain ⟨t',hins,ht',hhas⟩ := ptrMapInsert_spec h.sound (h.count_eq ▸ hlive) p v
  refine ⟨t',hins,ht',fun q w => ?_⟩
  rw [hhas,h.entries]
  by_cases hq : q = p
  · subst hq
    rw [Function.update_self,Option.some.injEq]
    simp [eq_comm]
  · rw [Function.update_of_ne hq]
    simp [hq]

theorem Represents.remove (h : Represents hash t m) (p : Ptr) :
    ∃ t', ptrMapRemove hash p t = some ((m p).getD (-1),t') ∧ t'.cap = t.cap ∧
      Represents hash t' (Function.update m p none) := by
  obtain ⟨idx,t',hrem,ht',hcap,hidx,hhas⟩ := ptrMapRemove_spec h.sound p
  have hval : (m p).getD (-1) = idx := by
    rcases hidx with ⟨v,hv,rfl⟩ | ⟨hnone,rfl⟩
    · rw [(h.entries p _).mp hv]
      rfl
    · have hmp : m p = none := by
        cases hm : m p with
        | none => rfl
        | some v => exact absurd ((h.entries p v).mpr hm) (hnone v)
      rw [hmp]
      rfl
  refine ⟨t',hval ▸ hrem,hcap,ht',fun q w => ?_⟩
  rw [hhas,h.entries]
  by_cases hq : q = p
  · subst hq
    simp
  · rw [Function.update_of_ne hq,and_iff_right hq]

theorem Represents.run (h : Represents hash t m) (ops : List PtrOp)
    (hlive : ∀ n, live (mapOps (ops.take n) m).2 < 2^27) :
    ∃ t', runOps hash ops t = some ((mapOps ops m).1,t') ∧ Represents hash t' (mapOps ops m).2 := by
  induction ops generalizing t m with
  | nil => exact ⟨t,rfl,h⟩
  | cons op ops ih =>
    cases op with
    | insert p v =>
      obtain ⟨t₁,hins,h₁⟩ := h.insert (hlive 0) p v
      obtain ⟨t₂,hrun,h₂⟩ := ih h₁ fun n => hlive (n+1)
      refine ⟨t₂,?_,h₂⟩
      rw [runOps,hins,Option.bind_some]
      exact hrun
    | remove p =>
      obtain ⟨t₁,hrem,-,h₁⟩ := h.remove p
      obtain ⟨t₂,hrun,h₂⟩ := ih h₁ fun n => hlive (n+1)
      refine ⟨t₂,?_,h₂⟩
      rw [runOps,hrem,Option.bind_some,hrun]
      rfl

theorem represents_initial (hash : Ptr → BitVec 32) : Represents hash .initial fun _ => none where
  sound := ⟨.inl rfl,valid_empty _ _,rfl,by decide⟩
  entries p v := by
    refine iff_of_false ?_ (by simp)
    rintro ⟨i,hi,-⟩
    exact Nat.not_lt_zero i hi

theorem mem_of_mapOps {ops : List PtrOp} {p : Ptr} (h : (mapOps ops m).2 p ≠ none) :
    m p ≠ none ∨ p ∈ ops.map PtrOp.ptr := by
  induction ops generalizing m with
  | nil => exact .inl h
  | cons op ops ih =>
    have hupdate : ∀ {v}, Function.update m op.ptr v p ≠ none → m p ≠ none ∨ p ∈ (op :: ops).map PtrOp.ptr := by
      intro v hv
      by_cases hp : p = op.ptr
      · exact .inr (hp ▸ List.mem_cons_self)
      · rw [Function.update_of_ne hp] at hv
        exact .inl hv
    cases op <;> exact (ih h).elim hupdate fun hp => .inr (List.mem_cons_of_mem _ hp)

theorem live_mapOps_le (ops : List PtrOp) : live (mapOps ops fun _ => none).2 ≤ ops.length := by
  have hsub : {p | (mapOps ops fun _ => none).2 p ≠ none} ⊆ ((ops.map PtrOp.ptr).toFinset : Set Ptr) := by
    intro p hp
    rw [List.coe_toFinset]
    exact (mem_of_mapOps hp).resolve_left fun h => h rfl
  calc live (mapOps ops fun _ => none).2
      ≤ ((ops.map PtrOp.ptr).toFinset : Set Ptr).ncard := Set.ncard_le_ncard hsub (Finset.finite_toSet _)
    _ = (ops.map PtrOp.ptr).toFinset.card := Set.ncard_coe_finset _
    _ ≤ (ops.map PtrOp.ptr).length := List.toFinset_card_le _
    _ = ops.length := List.length_map _

end Runs

/-- With any hash the table is a finite map over every run of calls, as long as fewer than `2^27` pointers are in
it: the calls end and return what the map has, the table counts its keys and keeps a slot free, its size fits,
and no removal changes that size. -/
theorem runOps_refines (hash : Ptr → BitVec 32) (ops : List PtrOp)
    (hlive : ∀ n, live (mapOps (ops.take n) fun _ => none).2 < 2^27) :
    ∃ t, runOps hash ops .initial = some ((mapOps ops fun _ => none).1,t) ∧
      (∀ p v, t.Has p v ↔ (mapOps ops fun _ => none).2 p = some v) ∧
      t.count = live (mapOps ops fun _ => none).2 ∧ t.cap ≤ 2^28 ∧ (t.cap ≠ 0 → ∃ i < t.cap, t.slots i = none) ∧
      ∀ p, ∃ t', ptrMapRemove hash p t = some (((mapOps ops fun _ => none).2 p).getD (-1),t') ∧ t'.cap = t.cap := by
  obtain ⟨t,hrun,ht⟩ := (represents_initial hash).run ops hlive
  refine ⟨t,hrun,ht.entries,ht.count_eq,ht.cap_le,ht.exists_free,fun p => ?_⟩
  obtain ⟨t',hrem,hcap,-⟩ := ht.remove p
  exact ⟨t',hrem,hcap⟩

/-- A pointer is entered twice and removed. -/
theorem runOps_refines_twice :
    ∃ t, runOps hashPtr [.insert ⟨0x1000,by decide⟩ 7,.insert ⟨0x1000,by decide⟩ 8,.remove ⟨0x1000,by decide⟩]
      .initial = some ([8],t) ∧ t.count = live fun _ => none := by
  obtain ⟨t,hrun,-,hcount,-⟩ := runOps_refines hashPtr
    [.insert ⟨0x1000,by decide⟩ 7,.insert ⟨0x1000,by decide⟩ 8,.remove ⟨0x1000,by decide⟩]
    fun n => (live_mapOps_le _).trans_lt (by rw [List.length_take]; simp)
  refine ⟨t,?_,?_⟩
  · rw [hrun]
    simp [mapOps]
  · rw [hcount]
    simp [mapOps]

end Machismo.Heaptrack
