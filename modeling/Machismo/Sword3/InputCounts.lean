import Machismo.Sword3.InputKeys

/-! # The reference counts agree

`Counted`: the global count of every scancode is the keyboard's share plus the shares of
the controllers, and a controller's share is the number of its pressed buttons and
deflected axes that are mapped to the scancode.  First what changes of single parts do to
that, then every call.
-/
namespace Machismo.Sword3Input

def keySum (controllers : List Controller) (sc : ℤ) : ℕ := (controllers.map fun c => c.keyRefs sc).sum

def axisHeld (k : Keys) (axis direction sc : ℤ) : ℕ :=
  (if direction < 0 ∧ k.axisNegative axis = sc then 1 else 0)+
    (if 0 < direction ∧ k.axisPositive axis = sc then 1 else 0)

/-- How many pressed buttons and deflected axis directions of a controller are mapped to a scancode. -/
noncomputable def held (k : Keys) (c : Controller) (sc : ℤ) : ℕ :=
  (∑ b ∈ Finset.Ico 0 buttonMax,if c.buttonDown b = true ∧ k.buttonMap b = sc then 1 else 0)+
    ∑ a ∈ Finset.Ico 0 axisMax,axisHeld k a (c.axisDirection a) sc

structure Counted (k : Keys) : Prop where
  short : ∀ sc, k.keyRefs sc ≤ shortMax
  total : ∀ sc, k.keyRefs sc = (k.keyboardDown sc).toNat+keySum k.controllers sc
  held : ∀ c ∈ k.controllers, ∀ sc, validScancode sc = true → c.keyRefs sc = held k c sc
  unknown : ∀ sc, validScancode sc = false → k.keyRefs sc = 0

section Held
variable (k : Keys)

theorem sum_agree_off {s : Finset ℤ} {b : ℤ} (hb : b ∈ s) {f g : ℤ → ℕ} (hfg : ∀ x ∈ s, x ≠ b → f x = g x) :
    ∑ x ∈ s,f x+g b = ∑ x ∈ s,g x+f b := by
  have hrest : ∑ x ∈ s.erase b,f x = ∑ x ∈ s.erase b,g x :=
    Finset.sum_congr rfl fun x hx => hfg x (Finset.mem_of_mem_erase hx) (Finset.ne_of_mem_erase hx)
  rw [← Finset.add_sum_erase s f hb,← Finset.add_sum_erase s g hb,hrest]
  omega

theorem held_setButton (c : Controller) {b : ℤ} (hb : 0 ≤ b ∧ b < buttonMax) (pressed : Bool) (sc : ℤ) :
    held k (c.setButton b pressed) sc+(if c.buttonDown b = true ∧ k.buttonMap b = sc then 1 else 0) =
      held k c sc+(if pressed = true ∧ k.buttonMap b = sc then 1 else 0) := by
  have hsum := sum_agree_off (Finset.mem_Ico.mpr hb)
    (f := fun x => if (c.setButton b pressed).buttonDown x = true ∧ k.buttonMap x = sc then 1 else 0)
    (g := fun x => if c.buttonDown x = true ∧ k.buttonMap x = sc then 1 else 0)
    (fun x _ hne => by simp [Controller.setButton,hne])
  have hself : (c.setButton b pressed).buttonDown b = pressed := by simp [Controller.setButton]
  have haxis : (c.setButton b pressed).axisDirection = c.axisDirection := rfl
  simp only [hself] at hsum
  simp only [held,haxis]
  omega

theorem held_setAxis (c : Controller) {a : ℤ} (ha : 0 ≤ a ∧ a < axisMax) (direction sc : ℤ) :
    held k (c.setAxis a direction) sc+axisHeld k a (c.axisDirection a) sc =
      held k c sc+axisHeld k a direction sc := by
  have hsum := sum_agree_off (Finset.mem_Ico.mpr ha)
    (f := fun x => axisHeld k x ((c.setAxis a direction).axisDirection x) sc)
    (g := fun x => axisHeld k x (c.axisDirection x) sc)
    (fun x _ hne => by simp [Controller.setAxis,hne])
  have hself : (c.setAxis a direction).axisDirection a = direction := by simp [Controller.setAxis]
  have hbutton : (c.setAxis a direction).buttonDown = c.buttonDown := rfl
  simp only [hself] at hsum
  simp only [held,hbutton]
  omega

theorem held_clearInputs (c : Controller) (sc : ℤ) : held k c.clearInputs sc = 0 := by
  simp [held,Controller.clearInputs,axisHeld]

/-- The key of an axis direction; a centred axis has none. -/
def directionKey (axis direction : ℤ) : ℤ :=
  if direction = 0 then scancodeUnknown
  else if direction < 0 then k.axisNegative axis else k.axisPositive axis

theorem axisHeld_eq (axis direction : ℤ) {sc : ℤ} (hv : validScancode sc = true) :
    axisHeld k axis direction sc = if directionKey k axis direction = sc then 1 else 0 := by
  have hsc : scancodeUnknown ≠ sc := fun e => by
    have h0 := (validScancode_iff.mp hv).1
    rw [← e] at h0
    exact absurd h0 (lt_irrefl _)
  rcases lt_trichotomy direction 0 with hlt | rfl | hgt
  · simp [axisHeld,directionKey,hlt,hlt.ne,hlt.not_gt]
  · simp [axisHeld,directionKey,hsc]
  · simp [axisHeld,directionKey,hgt,hgt.ne',hgt.not_gt]

end Held

section Parts
variable {k : Keys}

theorem keySum_split (before after : List Controller) (c : Controller) (sc : ℤ) :
    keySum (before++c :: after) sc = keySum before sc+c.keyRefs sc+keySum after sc := by
  simp [keySum,Nat.add_assoc]

theorem Counted.le_total (h : Counted k) {c : Controller} (hc : c ∈ k.controllers) (sc : ℤ) :
    c.keyRefs sc ≤ k.keyRefs sc := by
  obtain ⟨before,after,hsplit⟩ := List.append_of_mem hc
  rw [h.total,hsplit,keySum_split]
  omega

theorem Counted.replace (h : Counted k) {before after : List Controller} {c c' : Controller}
    (hc : k.controllers = before++c :: after) {refs : ℤ → ℕ} (hshort : ∀ sc, refs sc ≤ shortMax)
    (hrefs : ∀ sc, refs sc+c.keyRefs sc = k.keyRefs sc+c'.keyRefs sc)
    (hheld : ∀ sc, validScancode sc = true → c'.keyRefs sc = Sword3Input.held k c' sc)
    (hunknown : ∀ sc, validScancode sc = false → refs sc = 0) :
    Counted { k with controllers := before++c' :: after, keyRefs := refs } := by
  refine ⟨hshort,?_,?_,hunknown⟩
  · intro sc
    have ht := h.total sc
    rw [hc,keySum_split] at ht
    have hr := hrefs sc
    simp only [keySum_split]
    omega
  · intro d hd sc hv
    rcases List.mem_append.mp hd with hd | hd
    · exact h.held d (by simp [hc,hd]) sc hv
    · rcases List.mem_cons.mp hd with rfl | hd
      · exact hheld sc hv
      · exact h.held d (by simp [hc,hd]) sc hv

theorem bump_le {pressed : Bool} {n : ℕ} (h : n ≤ shortMax) (hfull : pressed = true → n ≠ shortMax) :
    bump pressed n ≤ shortMax := by
  cases pressed with
  | true =>
    have hlt : n < shortMax := lt_of_le_of_ne h (hfull rfl)
    exact hlt
  | false => exact (Nat.sub_le _ _).trans h

theorem Counted.changeKey (h : Counted k) {before after : List Controller} {c d : Controller}
    (hc : k.controllers = before++c :: after) (hrefs : d.keyRefs = c.keyRefs) {key : ℤ}
    (hv : validScancode key = true) {pressed : Bool} (hfull : pressed = true → k.keyRefs key ≠ shortMax)
    (hheld : ∀ sc, validScancode sc = true →
      Sword3Input.held k d sc+(if pressed = false ∧ key = sc then 1 else 0) =
        Sword3Input.held k c sc+(if pressed = true ∧ key = sc then 1 else 0)) :
    Counted { k with
      controllers := before++d.setKeyRefs key (bump pressed (c.keyRefs key)) :: after
      keyRefs := Function.update k.keyRefs key (bump pressed (k.keyRefs key)) } := by
  have hmem : c ∈ k.controllers := by simp [hc]
  have hle := h.le_total hmem key
  have hself := h.held c hmem key hv
  have hkey := hheld key hv
  refine h.replace hc ?_ ?_ ?_ ?_
  · intro sc
    rcases eq_or_ne sc key with rfl | hne
    · rw [Function.update_self]
      exact bump_le (h.short sc) hfull
    · rw [Function.update_of_ne hne]
      exact h.short sc
  · intro sc
    rcases eq_or_ne sc key with rfl | hne
    · simp only [Controller.setKeyRefs,Function.update_self]
      cases pressed with
      | true =>
        simp only [bump,if_true]
        omega
      | false =>
        simp only [true_and,if_true,Bool.false_eq_true,false_and,if_false] at hkey
        simp only [bump,Bool.false_eq_true,if_false]
        omega
    · simp only [Controller.setKeyRefs,Function.update_of_ne hne,hrefs]
  · intro sc hsc
    have hsame : Sword3Input.held k (d.setKeyRefs key (bump pressed (c.keyRefs key))) sc =
        Sword3Input.held k d sc := rfl
    rw [hsame]
    rcases eq_or_ne sc key with rfl | hne
    · simp only [Controller.setKeyRefs,Function.update_self,hself]
      cases pressed with
      | true =>
        simp only [Bool.true_eq_false,false_and,if_false,true_and,if_true,Nat.add_zero] at hkey
        simp only [bump,if_true]
        omega
      | false =>
        simp only [true_and,if_true,Bool.false_eq_true,false_and,if_false] at hkey
        simp only [bump,Bool.false_eq_true,if_false]
        omega
    · have hother := hheld sc hsc
      simp only [hne.symm,and_false,if_false,Nat.add_zero] at hother
      simp only [Controller.setKeyRefs,Function.update_of_ne hne,hrefs,hother]
      exact h.held c hmem sc hsc
  · intro sc hu
    have hne : sc ≠ key := fun e => by simp [e,hv] at hu
    rw [Function.update_of_ne hne]
    exact h.unknown sc hu

theorem Counted.drop (h : Counted k) {before after : List Controller} {c : Controller}
    (hc : k.controllers = before++c :: after) (hzero : ∀ sc, c.keyRefs sc = 0) :
    Counted { k with controllers := before++after } := by
  refine ⟨h.short,?_,?_,h.unknown⟩
  · intro sc
    rw [h.total,hc,keySum_split,hzero]
    simp [keySum]
  · intro d hd sc hv
    refine h.held d ?_ sc hv
    rw [hc]
    rcases List.mem_append.mp hd with hd | hd
    · simp [hd]
    · simp [hd]

theorem Counted.add (h : Counted k) (instanceId : ℤ) :
    Counted { k with controllers := newController instanceId :: k.controllers } := by
  refine ⟨h.short,?_,?_,h.unknown⟩
  · intro sc
    rw [h.total]
    simp [keySum,newController]
  · intro d hd sc hv
    rcases List.mem_cons.mp hd with rfl | hd
    · simp [newController,Sword3Input.held,axisHeld]
    · exact h.held d hd sc hv

theorem counted_cleared (hc : ∀ c ∈ k.controllers, (∀ sc, c.keyRefs sc = 0) ∧ c.clearInputs = c)
    (hk : ∀ sc, k.keyRefs sc = (k.keyboardDown sc).toNat)
    (hu : ∀ sc, validScancode sc = false → k.keyRefs sc = 0) : Counted k := by
  have hsum : ∀ sc, keySum k.controllers sc = 0 := by
    intro sc
    refine List.sum_eq_zero fun n hn => ?_
    obtain ⟨c,hmem,rfl⟩ := List.mem_map.mp hn
    exact (hc c hmem).1 sc
  refine ⟨fun sc => ?_,fun sc => by rw [hk,hsum,Nat.add_zero],?_,hu⟩
  · rw [hk,shortMax]
    cases k.keyboardDown sc <;> simp
  · intro c hmem sc _
    rw [(hc c hmem).1,← (hc c hmem).2,held_clearInputs]

theorem Counted.keyboard (h : Counted k) {sc : ℤ} (hv : validScancode sc = true) {pressed : Bool}
    (hne : k.keyboardDown sc ≠ pressed) (hfull : pressed = true → k.keyRefs sc ≠ shortMax) :
    Counted { k with
      keyRefs := Function.update k.keyRefs sc (bump pressed (k.keyRefs sc))
      keyboardDown := Function.update k.keyboardDown sc pressed } := by
  have ht := h.total sc
  have hs := h.short sc
  refine ⟨?_,?_,h.held,?_⟩
  · intro sc'
    rcases eq_or_ne sc' sc with rfl | hne'
    · cases pressed with
      | true =>
        have := hfull rfl
        simp only [Function.update_self,bump,if_true]
        omega
      | false =>
        simp only [Function.update_self,bump,Bool.false_eq_true,if_false]
        omega
    · simpa [hne'] using h.short sc'
  · intro sc'
    rcases eq_or_ne sc' sc with rfl | hne'
    · cases pressed with
      | true =>
        have hdown : k.keyboardDown sc' = false := by simpa using hne
        simp only [hdown,Bool.toNat_false] at ht
        simp only [Function.update_self,bump,if_true,Bool.toNat_true]
        omega
      | false =>
        have hdown : k.keyboardDown sc' = true := by simpa using hne
        simp only [hdown,Bool.toNat_true] at ht
        simp only [Function.update_self,bump,Bool.false_eq_true,if_false,Bool.toNat_false]
        omega
    · simpa [hne'] using h.total sc'
  · intro sc' hu
    have hne' : sc' ≠ sc := fun e => by simp [e,hv] at hu
    simpa [hne'] using h.unknown sc' hu

end Parts

end Machismo.Sword3Input
