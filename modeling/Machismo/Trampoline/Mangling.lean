import Machismo.Trampoline.PatchLib
import Machismo.Resolver.State
import Mathlib.Data.List.Count

/-! # Two copies of the mangling variants

Both import paths try the names with some `y` replaced by `m`, and then those with some `m` replaced by
`y`.  A set of positions is a mask; with at most 16 positions every set has its mask.  The copy of the
trampolines gives up on a name without a `y` before it has tried the second direction.
-/
namespace Machismo.Trampoline
open A64 Resolver

/-- A spelling with a non-empty set of `a` replaced by `b`. -/
def Exchanged (a b : Char) (name v : Name) : Prop :=
  v ≠ name ∧ List.Forall₂ (fun c d => d = c ∨ c = a ∧ d = b) name v

theorem Exchanged.not_mem {a b : Char} {name v : Name} (h : Exchanged a b name v) : ¬a ∉ name := by
  obtain ⟨hne,hrel⟩ := h
  intro hnot
  refine hne ?_
  clear hne
  induction hrel with
  | nil => rfl
  | cons hcd hrel ih =>
    have hc := List.ne_of_not_mem_cons hnot
    rw [ih (List.not_mem_of_not_mem_cons hnot),hcd.resolve_right fun hab => hc hab.1.symm]

section Positions
variable {a b : Char} {name v : Name}

theorem positions_filter_length (name : Name) :
    ((List.range name.length).filter fun i => name[i]? = some a).length = name.count a := by
  induction name using List.reverseRecOn with
  | nil => rfl
  | append_singleton name c ih =>
    rw [List.length_append,List.length_singleton,List.range_succ,List.filter_append,List.length_append,
      List.count_append]
    have hinit : (List.range name.length).filter (fun i => (name++[c])[i]? = some a) =
        (List.range name.length).filter fun i => name[i]? = some a := by
      refine List.filter_congr fun i hi => ?_
      rw [List.getElem?_append_left (List.mem_range.mp hi)]
    rw [hinit,ih]
    by_cases hc : c = a <;> simp [hc]

theorem mem_positions (h : name.count a ≤ 16) {i : ℕ} : i ∈ positions a name ↔ name[i]? = some a := by
  rw [positions,List.take_of_length_le ((positions_filter_length name).trans_le h),List.mem_filter,List.mem_range,
    decide_eq_true_eq]
  exact and_iff_right_of_imp fun hi => (List.getElem?_eq_some_iff.mp hi).1

theorem positions_eq_nil : positions a name = [] ↔ a ∉ name := by
  rw [positions,List.take_eq_nil_iff,or_iff_right (by decide),List.filter_eq_nil_iff]
  simp only [decide_eq_true_eq,List.mem_range]
  constructor
  · intro h hmem
    obtain ⟨i,hi,heq⟩ := List.mem_iff_getElem.mp hmem
    exact h i hi (List.getElem?_eq_some_iff.mpr ⟨hi,heq⟩)
  · exact fun h i _ hi => h (List.mem_of_getElem? hi)

end Positions

section Masks
variable {a b : Char} {name v : Name} {pos : List ℕ} {mask : ℕ}

/-- The mask has the position. -/
def selects (pos : List ℕ) (mask i : ℕ) : Bool :=
  (List.range pos.length).any fun j => pos[j]? = some i && mask.testBit j

theorem selects_iff {i : ℕ} : selects pos mask i ↔ ∃ j, pos[j]? = some i ∧ mask.testBit j := by
  rw [selects,List.any_eq_true]
  constructor
  · rintro ⟨j,-,hj⟩
    simpa using ⟨j,by simpa using hj⟩
  · rintro ⟨j,hj,hbit⟩
    exact ⟨j,List.mem_range.mpr (List.getElem?_eq_some_iff.mp hj).1,by simp [hj,hbit]⟩

theorem length_substitute (name : Name) (pos : List ℕ) (mask : ℕ) (b : Char) :
    (substitute name pos mask b).length = name.length := List.length_mapIdx

theorem getElem_substitute (pos : List ℕ) (mask : ℕ) (b : Char) {i : ℕ}
    (hi : i < (substitute name pos mask b).length) (hi' : i < name.length) :
    (substitute name pos mask b)[i] = if selects pos mask i then b else name[i] := List.getElem_mapIdx ..

theorem exchanged_substitute (hab : a ≠ b) (hmask : mask ≠ 0) (hlt : mask < 2^(positions a name).length) :
    Exchanged a b name (substitute name (positions a name) mask b) := by
  have hmem : ∀ i, selects (positions a name) mask i → name[i]? = some a := by
    intro i hi
    obtain ⟨j,hj,-⟩ := selects_iff.mp hi
    have hpos := List.mem_of_mem_take (List.mem_of_getElem? hj)
    simpa using (List.mem_filter.mp hpos).2
  constructor
  · obtain ⟨j,hbit⟩ := Nat.exists_testBit_of_ne_zero hmask
    have hj : j < (positions a name).length := by
      by_contra hge
      have hpow : 2^(positions a name).length ≤ 2^j := Nat.pow_le_pow_right (by decide) (not_lt.mp hge)
      rw [Nat.testBit_lt_two_pow (hlt.trans_le hpow)] at hbit
      cases hbit
    have hsel : selects (positions a name) mask (positions a name)[j] :=
      selects_iff.mpr ⟨j,List.getElem?_eq_getElem hj,hbit⟩
    obtain ⟨hi,hname⟩ := List.getElem?_eq_some_iff.mp (hmem _ hsel)
    intro heq
    have hsubst := getElem_substitute (positions a name) mask b (by rw [length_substitute]; exact hi) hi
    rw [if_pos hsel] at hsubst
    simp only [heq] at hsubst
    exact hab (hname.symm.trans hsubst)
  · refine List.forall₂_iff_get.mpr ⟨(length_substitute ..).symm,fun i hi hi' => ?_⟩
    simp only [List.get_eq_getElem]
    rw [getElem_substitute _ _ _ hi' hi]
    split_ifs with hsel
    · exact .inr ⟨(List.getElem?_eq_some_iff.mp (hmem i hsel)).2,rfl⟩
    · exact .inl rfl

theorem exists_mask (h : name.count a ≤ 16) (hv : Exchanged a b name v) :
    ∃ mask, mask ≠ 0 ∧ mask < 2^(positions a name).length ∧ substitute name (positions a name) mask b = v := by
  obtain ⟨hne,hrel⟩ := hv
  obtain ⟨hlen,hget⟩ := List.forall₂_iff_get.mp hrel
  let chosen : Fin (positions a name).length → Bool := fun j => v[(positions a name)[j]]? = some b
  have hsubst : substitute name (positions a name) (Nat.ofBits chosen) b = v := by
    refine List.ext_getElem ((length_substitute ..).trans hlen) fun i hi hi' => ?_
    rw [length_substitute] at hi
    rw [getElem_substitute _ _ _ _ hi]
    have hrel := hget i hi hi'
    simp only [List.get_eq_getElem] at hrel
    split_ifs with hsel
    · obtain ⟨j,hj,hbit⟩ := selects_iff.mp hsel
      obtain ⟨hlt,hpos⟩ := List.getElem?_eq_some_iff.mp hj
      rw [Nat.testBit_ofBits_lt chosen j hlt] at hbit
      have hval : v[(positions a name)[j]]? = some b := by simpa [chosen] using hbit
      rw [hpos] at hval
      exact (List.getElem?_eq_some_iff.mp hval).2.symm
    · refine hrel.elim Eq.symm fun hab => absurd ?_ hsel
      have hmem : i ∈ positions a name := (mem_positions h).mpr (List.getElem?_eq_some_iff.mpr ⟨hi,hab.1⟩)
      obtain ⟨j,hlt,hpos⟩ := List.mem_iff_getElem.mp hmem
      refine selects_iff.mpr ⟨j,List.getElem?_eq_some_iff.mpr ⟨hlt,hpos⟩,?_⟩
      rw [Nat.testBit_ofBits_lt chosen j hlt]
      have hval : v[i]? = some b := List.getElem?_eq_some_iff.mpr ⟨hi',hab.2⟩
      simpa [chosen,hpos] using hval
  refine ⟨Nat.ofBits chosen,fun hzero => hne ?_,Nat.ofBits_lt_two_pow _,hsubst⟩
  rw [← hsubst,hzero]
  refine List.ext_getElem (length_substitute ..) fun i hi hi' => ?_
  rw [getElem_substitute _ _ _ hi hi',if_neg]
  rw [selects_iff]
  rintro ⟨j,-,hbit⟩
  rw [Nat.zero_testBit] at hbit
  cases hbit

theorem mem_drop_range {n k : ℕ} : k ∈ (List.range n).drop 1 ↔ k ≠ 0 ∧ k < n := by
  rw [List.range_eq_range',List.drop_range',List.mem_range'_1]
  omega

theorem mem_variants (hab : a ≠ b) (h : name.count a ≤ 16) : v ∈ variants a b name ↔ Exchanged a b name v := by
  constructor
  · intro hv
    obtain ⟨mask,hmask,rfl⟩ := List.mem_map.mp hv
    obtain ⟨hne,hlt⟩ := mem_drop_range.mp hmask
    exact exchanged_substitute hab hne hlt
  · intro hv
    obtain ⟨mask,hne,hlt,rfl⟩ := exists_mask h hv
    exact List.mem_map.mpr ⟨mask,mem_drop_range.mpr ⟨hne,hlt⟩,rfl⟩

end Masks

section Copies
variable {dlsym : Name → Addr} {name : Name}

theorem getD_find?_ne_zero {l : List Addr} : (l.find? (· ≠ 0)).getD 0 ≠ 0 ↔ ∃ x ∈ l, x ≠ 0 := by
  cases hfind : l.find? (· ≠ 0) with
  | none =>
    have hall := List.find?_eq_none.mp hfind
    simpa using hall
  | some x =>
    have hne : x ≠ 0 := by simpa using List.find?_some hfind
    exact iff_of_true hne ⟨x,List.mem_of_find?_eq_some hfind,hne⟩

def DefinesVariant (dlsym : Name → Addr) (name : Name) : Prop :=
  ∃ v, (Exchanged 'y' 'm' name v ∨ Exchanged 'm' 'y' name v) ∧ dlsym v ≠ 0

theorem resolver_tryManglingVariants_ne_zero (dlsym : Name → Addr) (hy : name.count 'y' ≤ 16)
    (hm : name.count 'm' ≤ 16) :
    Resolver.tryManglingVariants dlsym name ≠ 0 ↔ DefinesVariant dlsym name := by
  rw [Resolver.tryManglingVariants,getD_find?_ne_zero]
  simp only [List.mem_map,List.mem_append,mem_variants (show 'y' ≠ 'm' by decide) hy,
    mem_variants (show 'm' ≠ 'y' by decide) hm]
  constructor
  · rintro ⟨_,⟨v,hv,rfl⟩,hne⟩
    exact ⟨v,hv,hne⟩
  · rintro ⟨v,hv,hne⟩
    exact ⟨_,⟨v,hv,rfl⟩,hne⟩

/-- The copies agree where the name has a `y`; elsewhere that of the trampolines tries nothing. -/
theorem tryManglingVariants_eq (dlsym : Name → Addr) (name : Name) : tryManglingVariants dlsym name =
    if 'y' ∈ name then Resolver.tryManglingVariants dlsym name else 0 := by
  unfold tryManglingVariants Resolver.tryManglingVariants
  by_cases h : 'y' ∈ name
  · rw [if_pos h,if_neg fun hnil => positions_eq_nil.mp hnil h]
  · rw [if_neg h,if_pos (positions_eq_nil.mpr h)]

/-- The two copies return the same address, not null exactly if the library defines another spelling, if and
only if the name has a `y` or no spelling of it with some `m` replaced is defined. -/
theorem tryManglingVariants_agree_iff (hy : name.count 'y' ≤ 16) (hm : name.count 'm' ≤ 16) :
    (tryManglingVariants dlsym name = Resolver.tryManglingVariants dlsym name ∧
      (tryManglingVariants dlsym name ≠ 0 ↔ DefinesVariant dlsym name)) ↔
      'y' ∈ name ∨ ∀ v, Exchanged 'm' 'y' name v → dlsym v = 0 := by
  have hresolver := resolver_tryManglingVariants_ne_zero dlsym hy hm
  rw [tryManglingVariants_eq]
  by_cases h : 'y' ∈ name
  · rw [if_pos h]
    exact iff_of_true ⟨rfl,hresolver⟩ (.inl h)
  · rw [if_neg h,or_iff_right h]
    constructor
    · rintro ⟨heq,-⟩ v hv
      by_contra hne
      exact hresolver.mpr ⟨v,.inr hv,hne⟩ heq.symm
    · intro hnone
      have hdef : ¬DefinesVariant dlsym name := by
        rintro ⟨v,hv | hv,hne⟩
        · exact hv.not_mem h
        · exact hne (hnone v hv)
      exact ⟨(not_not.mp (mt hresolver.mp hdef)).symm,iff_of_false (fun hne => hne rfl) hdef⟩

/-- One `y`, and the library has the other spelling. -/
theorem tryManglingVariants_agree_y :
    tryManglingVariants (fun v => if v = ['m'] then 7 else 0) ['y'] =
      Resolver.tryManglingVariants (fun v => if v = ['m'] then 7 else 0) ['y'] :=
  ((tryManglingVariants_agree_iff (by decide) (by decide)).mpr (.inl (by decide))).1

/-- A name without a `y`, of which the library has the spelling with `y` in place of `m`. -/
theorem tryManglingVariants_differ_m :
    tryManglingVariants (fun v => if v = "_ZN1A1fEy".toList then 7 else 0) "_ZN1A1fEm".toList ≠
      Resolver.tryManglingVariants (fun v => if v = "_ZN1A1fEy".toList then 7 else 0) "_ZN1A1fEm".toList := by
  decide +kernel

end Copies

end Machismo.Trampoline
