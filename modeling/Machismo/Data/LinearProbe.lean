import Mathlib

/-! # Linear probing

A table of `c` slots, each empty or with an entry.  An entry lies in the first free slot at or behind the home
of its key when it is stored, and what matters afterwards is that the slots from its home to it stay filled.
To erase an entry, its slot is emptied and the entries of the run behind it are stored again one by one; the
empty slot behind the run is what keeps the other entries out of the way of this.
-/
namespace Machismo.Data.LinearProbe

abbrev Slots (K V : Type) := ℕ → Option (K × V)

/-- The first of `n` slots from one on that fulfils a condition. -/
def search (c : ℕ) (stop : ℕ → Bool) : ℕ → ℕ → Option ℕ
  | 0, _ => none
  | n + 1, i => if stop i then some i else search c stop n ((i+1)%c)

theorem search_spec {c : ℕ} {stop : ℕ → Bool} {n a : ℕ} (h : ∃ d < n, stop ((a+d)%c)) :
    ∃ d < n, search c stop n (a%c) = some ((a+d)%c) ∧ stop ((a+d)%c) ∧ ∀ d' < d, ¬stop ((a+d')%c) := by
  induction n generalizing a with
  | zero =>
    obtain ⟨d,hd,-⟩ := h
    exact absurd hd (Nat.not_lt_zero d)
  | succ n ih =>
    rw [search]
    by_cases hstop : stop (a%c)
    · exact ⟨0,Nat.succ_pos n,if_pos hstop,hstop,fun d' hd' => absurd hd' (Nat.not_lt_zero d')⟩
    · have hshift : ∀ d, (a+1+d)%c = (a+(d+1))%c := fun d => congrArg (·%c) (by omega)
      have hnext : ∃ d < n, stop ((a+1+d)%c) := by
        obtain ⟨d,hd,hd'⟩ := h
        cases d with
        | zero => exact absurd hd' hstop
        | succ d => exact ⟨d,Nat.lt_of_succ_lt_succ hd,by rw [hshift]; exact hd'⟩
      obtain ⟨d,hd,hfound,hat,hbefore⟩ := ih hnext
      refine ⟨d+1,Nat.succ_lt_succ hd,?_,by rw [← hshift]; exact hat,fun d' hd' => ?_⟩
      · rw [if_neg hstop,Nat.mod_add_mod,hfound,hshift]
      · cases d' with
        | zero => exact hstop
        | succ d' =>
          rw [← hshift]
          exact hbefore d' (Nat.lt_of_succ_lt_succ hd')

variable {K V : Type}

def stopAt [DecidableEq K] (s : Slots K V) (k : K) (i : ℕ) : Bool := (s i).all fun e => e.1 = k

def freeAt (s : Slots K V) (i : ℕ) : Bool := (s i).isNone

section Table
variable (home : K → ℕ) (c : ℕ)

/-- A slot at some distance from the home of a key, with filled slots before it. -/
def Placed (s : Slots K V) (k : K) (i : ℕ) : Prop :=
  ∃ d < c, (home k+d)%c = i ∧ ∀ d' < d, s ((home k+d')%c) ≠ none

def Has (s : Slots K V) (k : K) (v : V) : Prop := ∃ i < c, s i = some (k,v)

def Unique (s : Slots K V) : Prop :=
  ∀ i < c, ∀ j < c, ∀ k v w, s i = some (k,v) → s j = some (k,w) → i = j

structure Valid (s : Slots K V) : Prop where
  placed : ∀ i < c, ∀ k v, s i = some (k,v) → Placed home c s k i
  unique : Unique c s

def filled (s : Slots K V) : ℕ := ((Finset.range c).filter fun i => (s i).isSome).card

end Table

section Facts
variable {home : K → ℕ} {c : ℕ} {s : Slots K V} {k : K} {v : V} {i : ℕ}

theorem exists_free (h : filled c s < c) : ∃ i < c, s i = none := by
  by_contra hall
  refine absurd h (not_lt.mpr ?_)
  have hfull : (Finset.range c).filter (fun i => (s i).isSome) = Finset.range c := by
    refine Finset.filter_true_of_mem fun i hi => ?_
    rw [Option.isSome_iff_ne_none]
    exact fun hnone => hall ⟨i,Finset.mem_range.mp hi,hnone⟩
  rw [filled,hfull,Finset.card_range]

theorem filled_succ (n : ℕ) (s : Slots K V) : filled (n+1) s = filled n s + if (s n).isSome then 1 else 0 := by
  rw [filled,Finset.range_add_one,Finset.filter_insert]
  by_cases hn : (s n).isSome
  · rw [if_pos hn,if_pos hn,Finset.card_insert_of_notMem (by simp)]
    rfl
  · rw [if_neg hn,if_neg hn]
    rfl

theorem filled_mono {n : ℕ} (h : n ≤ c) (s : Slots K V) : filled n s ≤ filled c s :=
  Finset.card_le_card (Finset.filter_subset_filter _ (Finset.range_mono h))

theorem exists_distance (a : ℕ) (hi : i < c) : ∃ d < c, (a+d)%c = i := by
  have hc : 0 < c := Nat.zero_lt_of_lt hi
  refine ⟨(i+(c-a%c))%c,Nat.mod_lt _ hc,?_⟩
  have hlt := Nat.mod_lt a hc
  rw [Nat.add_mod_mod,← Nat.mod_add_mod]
  have hsum : a%c+(i+(c-a%c)) = i+c := by omega
  rw [hsum,Nat.add_mod_right,Nat.mod_eq_of_lt hi]

theorem filled_store_free (hi : i < c) (hfree : s i = none) (e : K × V) :
    filled c (Function.update s i (some e)) = filled c s + 1 := by
  have hinsert : (Finset.range c).filter (fun j => (Function.update s i (some e) j).isSome) =
      insert i ((Finset.range c).filter fun j => (s j).isSome) := by
    ext j
    rw [Finset.mem_filter,Finset.mem_insert,Finset.mem_filter]
    by_cases hj : j = i
    · subst hj
      simp [hi]
    · simp [hj]
  rw [filled,hinsert,Finset.card_insert_of_notMem (by simp [hfree])]
  rfl

theorem filled_store_filled (hfilled : s i ≠ none) (e : K × V) :
    filled c (Function.update s i (some e)) = filled c s := by
  refine congrArg Finset.card (Finset.filter_congr fun j _ => ?_)
  by_cases hj : j = i
  · subst hj
    simp [Option.isSome_iff_ne_none.mpr hfilled]
  · simp [hj]

theorem filled_clear (hi : i < c) (hfilled : s i ≠ none) : filled c (Function.update s i none) + 1 = filled c s := by
  have herase : (Finset.range c).filter (fun j => (Function.update s i none j).isSome) =
      ((Finset.range c).filter fun j => (s j).isSome).erase i := by
    ext j
    rw [Finset.mem_filter,Finset.mem_erase,Finset.mem_filter]
    by_cases hj : j = i
    · subst hj
      simp
    · simp [hj]
  rw [filled,herase]
  exact Finset.card_erase_add_one (Finset.mem_filter.mpr ⟨Finset.mem_range.mpr hi,
    Option.isSome_iff_ne_none.mpr hfilled⟩)

theorem valid_empty (home : K → ℕ) (c : ℕ) : Valid home c (fun _ => (none : Option (K × V))) where
  placed _ _ _ _ h := by cases h
  unique _ _ _ _ _ _ _ h _ := by cases h

theorem Placed.store (h : Placed home c s k i) (j : ℕ) (e : K × V) :
    Placed home c (Function.update s j (some e)) k i := by
  obtain ⟨d,hd,hi,hway⟩ := h
  refine ⟨d,hd,hi,fun d' hd' => ?_⟩
  by_cases hj : (home k+d')%c = j
  · rw [hj,Function.update_self]
    exact Option.some_ne_none e
  · rw [Function.update_of_ne hj]
    exact hway d' hd'

theorem has_store (hi : i < c) (hslot : ∀ e, s i = some e → e.1 = k) (habsent : ∀ j < c, j ≠ i → ∀ w, s j ≠ some (k,w))
    {k' : K} {v' : V} :
    Has c (Function.update s i (some (k,v))) k' v' ↔ (k' = k ∧ v' = v) ∨ (k' ≠ k ∧ Has c s k' v') := by
  constructor
  · rintro ⟨j,hj,hsome⟩
    by_cases hji : j = i
    · subst hji
      rw [Function.update_self] at hsome
      cases hsome
      exact .inl ⟨rfl,rfl⟩
    · rw [Function.update_of_ne hji] at hsome
      refine .inr ⟨?_,j,hj,hsome⟩
      rintro rfl
      exact habsent j hj hji v' hsome
  · rintro (⟨rfl,rfl⟩ | ⟨hne,j,hj,hsome⟩)
    · exact ⟨i,hi,Function.update_self i _ s⟩
    · have hji : j ≠ i := by
        rintro rfl
        exact hne (hslot _ hsome)
      exact ⟨j,hj,(Function.update_of_ne hji _ s).trans hsome⟩

theorem Unique.store (h : Unique c s) (habsent : ∀ j < c, j ≠ i → ∀ w, s j ≠ some (k,w)) :
    Unique c (Function.update s i (some (k,v))) := by
  intro a ha b hb k' v' w' hsa hsb
  by_cases hai : a = i
  · by_cases hbi : b = i
    · exact hai.trans hbi.symm
    · subst hai
      rw [Function.update_self] at hsa
      cases hsa
      rw [Function.update_of_ne hbi] at hsb
      exact absurd hsb (habsent b hb hbi w')
  · rw [Function.update_of_ne hai] at hsa
    by_cases hbi : b = i
    · subst hbi
      rw [Function.update_self] at hsb
      cases hsb
      exact absurd hsa (habsent a ha hai v')
    · rw [Function.update_of_ne hbi] at hsb
      exact h a ha b hb k' v' w' hsa hsb

theorem Unique.clear (h : Unique c s) (i : ℕ) : Unique c (Function.update s i none) := by
  have hold : ∀ {j e}, Function.update s i none j = some e → s j = some e := by
    intro j e hj
    by_cases hji : j = i
    · rw [hji,Function.update_self] at hj
      cases hj
    · rwa [Function.update_of_ne hji] at hj
  exact fun a ha b hb k v w hsa hsb => h a ha b hb k v w (hold hsa) (hold hsb)

theorem filled_eq_ncard (hu : Unique c s) : filled c s = Set.ncard {k | ∃ v, Has c s k v} := by
  have himage : some '' {k | ∃ v, Has c s k v} =
      (fun i => (s i).map Prod.fst) '' ((Finset.range c).filter fun i => (s i).isSome : Finset ℕ) := by
    ext o
    constructor
    · rintro ⟨k,⟨v,i,hi,hsome⟩,rfl⟩
      exact ⟨i,by simp [hi,hsome],by simp [hsome]⟩
    · rintro ⟨i,hi,rfl⟩
      obtain ⟨hi,hsome⟩ := Finset.mem_filter.mp hi
      obtain ⟨e,he⟩ := Option.isSome_iff_exists.mp hsome
      exact ⟨e.1,⟨e.2,i,Finset.mem_range.mp hi,he⟩,by simp [he]⟩
  have hinj : Set.InjOn (fun i => (s i).map Prod.fst)
      ((Finset.range c).filter fun i => (s i).isSome : Finset ℕ) := by
    intro a ha b hb hab
    obtain ⟨ha,hsa⟩ := Finset.mem_filter.mp ha
    obtain ⟨hb,hsb⟩ := Finset.mem_filter.mp hb
    obtain ⟨e,he⟩ := Option.isSome_iff_exists.mp hsa
    obtain ⟨e',he'⟩ := Option.isSome_iff_exists.mp hsb
    simp only [he,he',Option.map_some,Option.some.injEq] at hab
    exact hu a (Finset.mem_range.mp ha) b (Finset.mem_range.mp hb) e.1 e.2 e'.2 he (by rw [he',hab])
  rw [← Set.ncard_image_of_injective _ (Option.some_injective K),himage,hinj.ncard_image,Set.ncard_coe_finset]
  rfl

theorem Unique.absent_clear (h : Unique c s) {a : ℕ} (ha : a < c) (hentry : s a = some (k,v)) :
    ∀ j < c, ∀ w, Function.update s a none j ≠ some (k,w) := by
  intro j hj w hw
  by_cases hja : j = a
  · rw [hja,Function.update_self] at hw
    cases hw
  · rw [Function.update_of_ne hja] at hw
    exact hja (h j hj a ha k w v hw hentry)

/-- The slot a search for a key stops at: free, and then no slot has the key, or the one with the key. -/
structure Stop (home : K → ℕ) (c : ℕ) (s : Slots K V) (k : K) (i : ℕ) : Prop where
  lt : i < c
  placed : Placed home c s k i
  slot : ∀ e, s i = some e → e.1 = k
  absent : ∀ j < c, j ≠ i → ∀ w, s j ≠ some (k,w)

theorem Valid.exists_stop [DecidableEq K] (h : Valid home c s) (hfree : ∃ i < c, s i = none) (k : K) :
    ∃ i, search c (stopAt s k) c (home k%c) = some i ∧ Stop home c s k i := by
  obtain ⟨j,hj,hnone⟩ := hfree
  obtain ⟨d₀,hd₀,hat₀⟩ := exists_distance (home k) hj
  have hstop₀ : stopAt s k ((home k+d₀)%c) := by
    rw [stopAt,hat₀,hnone]
    rfl
  obtain ⟨d,hd,hfound,hstop,hbefore⟩ := search_spec ⟨d₀,hd₀,hstop₀⟩
  have hc : 0 < c := Nat.zero_lt_of_lt hd
  have hway : ∀ d' < d, ∃ e, s ((home k+d')%c) = some e ∧ e.1 ≠ k := by
    intro d' hd'
    have hgo := hbefore d' hd'
    unfold stopAt at hgo
    cases hs : s ((home k+d')%c) with
    | none =>
      rw [hs] at hgo
      exact absurd rfl hgo
    | some e =>
      rw [hs,Option.all_some,decide_eq_true_eq] at hgo
      exact ⟨e,rfl,hgo⟩
  refine ⟨_,hfound,Nat.mod_lt _ hc,⟨d,hd,rfl,fun d' hd' => ?_⟩,fun e he => ?_,fun j hj hji w hw => ?_⟩
  · obtain ⟨e,he,-⟩ := hway d' hd'
    rw [he]
    exact Option.some_ne_none e
  · rw [stopAt,he] at hstop
    exact of_decide_eq_true hstop
  · obtain ⟨d',hd',hat,hfilled⟩ := h.placed j hj k w hw
    rcases Nat.lt_trichotomy d' d with hlt | heq | hgt
    · obtain ⟨e,he,hne⟩ := hway d' hlt
      rw [hat,hw] at he
      cases he
      exact hne rfl
    · exact hji (by rw [← hat,heq])
    · rw [stopAt] at hstop
      have hsome := hfilled d hgt
      cases hs : s ((home k+d)%c) with
      | none => exact hsome hs
      | some e =>
        rw [hs] at hstop
        have hk : e.1 = k := of_decide_eq_true hstop
        have hentry : s ((home k+d)%c) = some (k,e.2) := by rw [hs,← hk]
        exact hji (h.unique j hj _ (Nat.mod_lt _ hc) k w e.2 hw hentry)

theorem Valid.store (h : Valid home c s) (hstop : Stop home c s k i) (v : V) :
    Valid home c (Function.update s i (some (k,v))) := by
  refine ⟨fun j hj k' v' hsome => ?_,h.unique.store hstop.absent⟩
  by_cases hji : j = i
  · subst hji
    rw [Function.update_self] at hsome
    cases hsome
    exact hstop.placed.store j _
  · rw [Function.update_of_ne hji] at hsome
    exact (h.placed j hj k' v' hsome).store i _

theorem exists_stop_free (home : K → ℕ) (hfree : ∃ i < c, s i = none) (habsent : ∀ j < c, ∀ w, s j ≠ some (k,w)) :
    ∃ i, search c (freeAt s) c (home k%c) = some i ∧ s i = none ∧ Stop home c s k i := by
  obtain ⟨j,hj,hnone⟩ := hfree
  obtain ⟨d₀,hd₀,hat₀⟩ := exists_distance (home k) hj
  have hstop₀ : freeAt s ((home k+d₀)%c) := by
    rw [freeAt,hat₀,hnone]
    rfl
  obtain ⟨d,hd,hfound,hstop,hbefore⟩ := search_spec ⟨d₀,hd₀,hstop₀⟩
  have hnone' : s ((home k+d)%c) = none := Option.isNone_iff_eq_none.mp hstop
  refine ⟨_,hfound,hnone',Nat.mod_lt _ (Nat.zero_lt_of_lt hd),⟨d,hd,rfl,fun d' hd' hn => ?_⟩,fun e he => ?_,
    fun j hj _ => habsent j hj⟩
  · exact hbefore d' hd' (Option.isNone_iff_eq_none.mpr hn)
  · rw [hnone'] at he
    cases he

/-! ## Erasing -/

theorem eq_of_add_mod {h a b : ℕ} (ha : a < c) (hb : b < c) (heq : (h+a)%c = (h+b)%c) : a = b := by
  have hmod : a ≡ b [MOD c] := Nat.ModEq.add_left_cancel' h heq
  exact hmod.eq_of_lt_of_lt ha hb

/-- An entry that is not in the run behind a slot, up to a free one, does not need that slot. -/
theorem Placed.clear {h D m : ℕ} (hplaced : Placed home c s k i) (hfilled : s i ≠ none)
    (hfree : s ((h+D)%c) = none) (hm : m < D) (hnot : ∀ m', m < m' → m' < D → i ≠ (h+m')%c) :
    Placed home c (Function.update s ((h+m)%c) none) k i := by
  obtain ⟨d,hd,hi,hway⟩ := hplaced
  refine ⟨d,hd,hi,fun d' hd' => ?_⟩
  have hc : 0 < c := Nat.zero_lt_of_lt hd
  by_cases hcross : (home k+d')%c = (h+m)%c
  · -- From the slot on the way leads through the run and the free slot behind it.
    have hshift : ∀ x, (home k+(d'+x))%c = (h+(m+x))%c := by
      intro x
      rw [← Nat.add_assoc,← Nat.add_assoc,← Nat.mod_add_mod,hcross,Nat.mod_add_mod]
    rcases Nat.lt_trichotomy (m+(d-d')) D with hlt | heq | hgt
    · refine absurd ?_ (hnot (m+(d-d')) (by omega) hlt)
      rw [← hi,← hshift,Nat.add_sub_cancel' hd'.le]
    · refine absurd ?_ hfilled
      rw [← hi,← Nat.add_sub_cancel' hd'.le,hshift,heq]
      exact hfree
    · refine absurd ?_ (hway (d'+(D-m)) (by omega))
      rw [hshift,Nat.add_sub_cancel' hm.le]
      exact hfree
  · rw [Function.update_of_ne hcross]
    exact hway d' hd'

/-- In the run behind the slot `h`, which a free slot ends at the distance `D`, the entries from the distance
`m` on are still to be stored again. -/
structure Run (home : K → ℕ) (c : ℕ) (s : Slots K V) (h D m : ℕ) : Prop where
  le : m ≤ D
  lt : D < c
  free : s ((h+D)%c) = none
  filled : ∀ m', m ≤ m' → m' < D → s ((h+m')%c) ≠ none
  unique : Unique c s
  placed : ∀ i < c, ∀ k v, s i = some (k,v) → (∀ m', m ≤ m' → m' < D → i ≠ (h+m')%c) → Placed home c s k i
  reach : ∀ m', m ≤ m' → m' < D → ∀ k v, s ((h+m')%c) = some (k,v) →
    ∃ d < c, (home k+d)%c = (h+m')%c ∧ ∀ d' < d, (home k+d')%c ≠ (h+D)%c

theorem Valid.run (hv : Valid home c s) {h : ℕ} (hh : h < c) (hsome : s h ≠ none) (hfree : ∃ i < c, s i = none) :
    ∃ D, Run home c (Function.update s h none) h D 1 := by
  have hc : 0 < c := Nat.zero_lt_of_lt hh
  have hstart : (h+0)%c = h := Nat.mod_eq_of_lt hh
  have hex : ∃ d, s ((h+d)%c) = none := by
    obtain ⟨i,hi,hnone⟩ := hfree
    obtain ⟨d,-,hat⟩ := exists_distance h hi
    exact ⟨d,hat ▸ hnone⟩
  classical
  set D := Nat.find hex with hD
  have hDfree : s ((h+D)%c) = none := Nat.find_spec hex
  have hDmin : ∀ d < D, s ((h+d)%c) ≠ none := fun d hd => Nat.find_min hex hd
  have hDpos : 0 < D := by
    refine Nat.pos_of_ne_zero fun h0 => hsome ?_
    rw [h0,hstart] at hDfree
    exact hDfree
  have hDlt : D < c := by
    obtain ⟨i,hi,hnone⟩ := hfree
    obtain ⟨d,hd,hat⟩ := exists_distance h hi
    refine lt_of_le_of_lt (Nat.find_min' hex ?_) hd
    rw [hat,hnone]
  have hne : ∀ m', 0 < m' → m' < c → (h+m')%c ≠ h := by
    intro m' hpos hlt heq
    exact absurd (eq_of_add_mod hlt hc (heq.trans hstart.symm)) hpos.ne'
  refine ⟨D,hDpos,hDlt,?_,fun m' hm hlt => ?_,hv.unique.clear h,fun i hi k v hentry hnot => ?_,
    fun m' hm hlt k v hentry => ?_⟩
  · rw [Function.update_of_ne (hne D hDpos hDlt)]
    exact hDfree
  · rw [Function.update_of_ne (hne m' hm (hlt.trans hDlt))]
    exact hDmin m' hlt
  · have hih : i ≠ h := by
      rintro rfl
      rw [Function.update_self] at hentry
      cases hentry
    rw [Function.update_of_ne hih] at hentry
    have hclear := (hv.placed i hi k v hentry).clear (by rw [hentry]; exact Option.some_ne_none _) hDfree hDpos
      fun m' hm hlt => hnot m' hm hlt
    rwa [hstart] at hclear
  · rw [Function.update_of_ne (hne m' hm (hlt.trans hDlt))] at hentry
    obtain ⟨d,hd,hat,hway⟩ := hv.placed _ (Nat.mod_lt _ hc) k v hentry
    exact ⟨d,hd,hat,fun d' hd' heq => hway d' hd' (heq ▸ hDfree)⟩

/-- The entry that is taken out of the run is stored again, without filling the free slot behind it. -/
theorem Run.exists_slot [DecidableEq K] {h D m : ℕ} (hr : Run home c s h D m) (hm : m < D)
    (hentry : s ((h+m)%c) = some (k,v)) :
    ∃ i < c, search c (stopAt (Function.update s ((h+m)%c) none) k) c (home k%c) = some i ∧
      Function.update s ((h+m)%c) none i = none ∧ i ≠ (h+D)%c ∧
      Placed home c (Function.update s ((h+m)%c) none) k i := by
  set s' := Function.update s ((h+m)%c) none with hs'
  obtain ⟨d₀,hd₀,hat₀,hway₀⟩ := hr.reach m le_rfl hm k v hentry
  have hc : 0 < c := Nat.zero_lt_of_lt hd₀
  have hstop₀ : stopAt s' k ((home k+d₀)%c) := by
    rw [stopAt,hat₀,hs',Function.update_self]
    rfl
  have habsent : ∀ j < c, ∀ w, s' j ≠ some (k,w) := hr.unique.absent_clear (Nat.mod_lt _ hc) hentry
  obtain ⟨d,hd,hfound,hstop,hbefore⟩ := search_spec ⟨d₀,hd₀,hstop₀⟩
  have hle : d ≤ d₀ := by
    by_contra hgt
    exact hbefore d₀ (not_le.mp hgt) hstop₀
  have hnone : s' ((home k+d)%c) = none := by
    cases hsome : s' ((home k+d)%c) with
    | none => rfl
    | some e =>
      rw [stopAt,hsome] at hstop
      have hk : e.1 = k := of_decide_eq_true hstop
      exact absurd (by rw [hsome,← hk]) (habsent ((home k+d)%c) (Nat.mod_lt _ hc) e.2)
  refine ⟨_,Nat.mod_lt _ hc,hfound,hnone,?_,d,hd,rfl,fun d' hd' => ?_⟩
  · rcases Nat.lt_or_eq_of_le hle with hlt | rfl
    · exact hway₀ d hlt
    · rw [hat₀]
      exact fun heq => absurd (eq_of_add_mod (hm.trans hr.lt) hr.lt heq) hm.ne
  · intro hnone'
    refine hbefore d' hd' ?_
    rw [stopAt,hnone']
    rfl

theorem Run.step {h D m : ℕ} (hr : Run home c s h D m) (hm : m < D) (hentry : s ((h+m)%c) = some (k,v)) (hi : i < c)
    (hfree : Function.update s ((h+m)%c) none i = none) (hend : i ≠ (h+D)%c)
    (hplaced : Placed home c (Function.update s ((h+m)%c) none) k i) :
    Run home c (Function.update (Function.update s ((h+m)%c) none) i (some (k,v))) h D (m+1) := by
  set s' := Function.update s ((h+m)%c) none with hs'
  have hc : 0 < c := Nat.zero_lt_of_lt hi
  have hother : ∀ m', m+1 ≤ m' → m' ≤ D → (h+m')%c ≠ (h+m)%c := by
    intro m' hlo hhi heq
    have hlt := hr.lt
    have heq' := eq_of_add_mod (by omega) (by omega) heq
    omega
  have hrest : ∀ m', m+1 ≤ m' → m' < D →
      Function.update s' i (some (k,v)) ((h+m')%c) = s ((h+m')%c) := by
    intro m' hlo hhi
    have hs : s' ((h+m')%c) = s ((h+m')%c) := Function.update_of_ne (hother m' hlo hhi.le) _ s
    have hne : (h+m')%c ≠ i := by
      rintro rfl
      exact hr.filled m' (by omega) hhi (hs.symm.trans hfree)
    rw [Function.update_of_ne hne,hs]
  have habsent : ∀ j < c, j ≠ i → ∀ w, s' j ≠ some (k,w) :=
    fun j hj _ => hr.unique.absent_clear (Nat.mod_lt _ hc) hentry j hj
  refine ⟨hm,hr.lt,?_,fun m' hlo hhi => ?_,(hr.unique.clear _).store habsent,fun j hj k' v' hsome hnot => ?_,
    fun m' hlo hhi k' v' hsome => ?_⟩
  · rw [Function.update_of_ne (Ne.symm hend),hs',Function.update_of_ne (hother D hm le_rfl)]
    exact hr.free
  · rw [hrest m' hlo hhi]
    exact hr.filled m' (by omega) hhi
  · by_cases hji : j = i
    · subst hji
      rw [Function.update_self] at hsome
      cases hsome
      exact hplaced.store j _
    · rw [Function.update_of_ne hji] at hsome
      have hjm : j ≠ (h+m)%c := by
        rintro rfl
        rw [hs',Function.update_self] at hsome
        cases hsome
      rw [hs',Function.update_of_ne hjm] at hsome
      have hold : Placed home c s k' j := by
        refine hr.placed j hj k' v' hsome fun m' hlo hhi => ?_
        rcases Nat.lt_or_eq_of_le hlo with hlt | rfl
        · exact hnot m' hlt hhi
        · exact hjm
      exact (hold.clear (by rw [hsome]; exact Option.some_ne_none _) hr.free hm hnot).store i _
  · rw [hrest m' hlo hhi] at hsome
    exact hr.reach m' (by omega) hhi k' v' hsome

theorem has_restore {j : ℕ} (hj : j < c) (hentry : s j = some (k,v)) (hi : i < c)
    (hfree : Function.update s j none i = none) {k' : K} {v' : V} :
    Has c (Function.update (Function.update s j none) i (some (k,v))) k' v' ↔ Has c s k' v' := by
  have hold : ∀ {a e}, Function.update s j none a = some e → s a = some e := by
    intro a e ha
    by_cases haj : a = j
    · rw [haj,Function.update_self] at ha
      cases ha
    · rwa [Function.update_of_ne haj] at ha
  constructor
  · rintro ⟨a,ha,hsome⟩
    by_cases hai : a = i
    · subst hai
      rw [Function.update_self] at hsome
      cases hsome
      exact ⟨j,hj,hentry⟩
    · rw [Function.update_of_ne hai] at hsome
      exact ⟨a,ha,hold hsome⟩
  · rintro ⟨a,ha,hsome⟩
    by_cases haj : a = j
    · subst haj
      rw [hentry] at hsome
      cases hsome
      exact ⟨i,hi,Function.update_self i _ _⟩
    · have hai : a ≠ i := by
        rintro rfl
        rw [Function.update_of_ne haj,hsome] at hfree
        cases hfree
      exact ⟨a,ha,by rw [Function.update_of_ne hai,Function.update_of_ne haj,hsome]⟩

theorem has_clear (hu : Unique c s) (hi : i < c) (hentry : s i = some (k,v)) {k' : K} {v' : V} :
    Has c (Function.update s i none) k' v' ↔ k' ≠ k ∧ Has c s k' v' := by
  constructor
  · rintro ⟨a,ha,hsome⟩
    have hai : a ≠ i := by
      rintro rfl
      rw [Function.update_self] at hsome
      cases hsome
    rw [Function.update_of_ne hai] at hsome
    refine ⟨?_,a,ha,hsome⟩
    rintro rfl
    exact hai (hu a ha i hi k' v' v hsome hentry)
  · rintro ⟨hne,a,ha,hsome⟩
    have hai : a ≠ i := by
      rintro rfl
      rw [hentry] at hsome
      cases hsome
      exact hne rfl
    exact ⟨a,ha,by rw [Function.update_of_ne hai,hsome]⟩

theorem Run.valid {h D : ℕ} (hr : Run home c s h D D) : Valid home c s :=
  ⟨fun i hi k v hentry => hr.placed i hi k v hentry fun _ hm hlt => absurd hlt (not_lt.mpr hm),hr.unique⟩

end Facts

end Machismo.Data.LinearProbe
