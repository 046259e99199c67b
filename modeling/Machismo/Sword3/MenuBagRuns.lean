import Machismo.Sword3.MenuBagList

/-! # Sessions with the item page

Over a session with the page the list in memory stays a list, whatever is pressed and drawn, and
whether or not there is memory for the copy. The bag loses exactly one item for each use and each drop
that is confirmed, from the one that was held when the page asked.
-/
namespace Machismo.Sword3
open Data

/-- The game's sort puts the nodes of a list into another order. -/
def Game.Sorts (g : Game) : Prop :=
  ∀ m l, m.Lists l → ∃ l', (g.sort m).Lists l' ∧ l'.Perm l ∧ ∀ b ∉ l.map Prod.fst, (g.sort m).node b = m.node b

/-- Where `full` holds there is memory for the copy. -/
def MenuEvent.Fits (full : Prop) : MenuEvent → Prop
  | .draw room | .member room => full → ∀ n, room n
  | .confirm g room => g.Sorts ∧ (full → ∀ n, room n)
  | .back | .shoulder _ | .sideways _ | .upDown _ => True

namespace Menu
variable {full : Prop} {s s' : Menu} {l : List BagEntry} {g : Game} {room : ℕ → Bool}

/-- How many items an event takes. -/
def takes (s : Menu) : MenuEvent → ℕ
  | .confirm g _ =>
    if !s.isOpen then 0
    else if s.layer = .pick then if g.party ≠ 0 ∧ s.actFlags &&& 1#32 <<< 7 = 0 then 1 else 0
    else if s.layer = .ask then 1
    else 0
  | _ => 0

def taken (s : Menu) : List MenuEvent → ℕ
  | [] => 0
  | e :: es =>
    s.takes e +
      match s.step e with
      | none => 0
      | some s' => s'.taken es

/-- The page knows the list. What it holds, while it asks, is shown, and there is one of it. -/
structure Inv (full : Prop) (s : Menu) (l : List BagEntry) : Prop where
  lists : s.mem.Lists l
  bag : s.bag <+: shown l
  whole : full → s.isOpen → s.bag = shown l
  held : s.layer = .pick ∨ s.layer = .ask → ∃ i, (s.actNode,i) ∈ shown l ∧ i.Takes s.actFromNew
  pick : s.layer = .pick → s.actFromNew = true

theorem Inv.idle (h : s.Inv full l) (hmem : s'.mem = s.mem) (hbag : s'.bag = s.bag) (hopen : s'.isOpen → s.isOpen)
    (hpick : s'.layer ≠ .pick) (hask : s'.layer ≠ .ask) : s'.Inv full l where
  lists := hmem ▸ h.lists
  bag := hbag ▸ h.bag
  whole hfull ho := hbag ▸ h.whole hfull (hopen ho)
  held hl := hl.elim (fun hp => absurd hp hpick) fun ha => absurd ha hask
  pick hp := absurd hp hpick

theorem refreshInv_eq (h : s.mem.Lists l) (hroom : full → ∀ n, room n) :
    ∃ bag, s.refreshInv room = some { s with bag := bag } ∧ bag <+: shown l ∧ (full → bag = shown l) := by
  obtain ⟨bag,hbag,hpre,hall⟩ := h.refresh room
  exact ⟨bag,by rw [refreshInv,hbag]; rfl,hpre,fun hfull => hall (hroom hfull)⟩

theorem Inv.refresh (h : s.Inv full l) (hroom : full → ∀ n, room n) :
    ∃ s', s.refreshInv room = some s' ∧ s'.Inv full l ∧ s'.mem = s.mem := by
  obtain ⟨bag,hbag,hpre,hall⟩ := refreshInv_eq h.lists hroom
  exact ⟨_,hbag,⟨h.lists,hpre,fun hfull _ => hall hfull,h.held,h.pick⟩,rfl⟩

theorem mem_of_viewAt {cat i : ℤ} {bag : List BagEntry} {e : BagEntry} (h : viewAt cat i bag = some e) :
    e ∈ bag ∧ e.2.inCat cat := by
  induction bag generalizing i with
  | nil => cases h
  | cons d bag ih =>
    rw [viewAt] at h
    split at h
    next hcat =>
      split at h
      next =>
        obtain rfl := Option.some.inj h
        exact ⟨List.mem_cons_self,hcat⟩
      next => exact (ih h).imp_left (List.mem_cons_of_mem _)
    next => exact (ih h).imp_left (List.mem_cons_of_mem _)

theorem takes_of_inCat {i : Item} {cat : ℤ} (h : i.inCat cat) : i.Takes (cat = 0) := by
  rw [Item.inCat] at h
  split at h
  next hzero => exact Or.inr ⟨by simpa using hzero,by simpa using h⟩
  next =>
    split at h
    next => cases h
    next hno => exact Or.inl (by omega)

theorem takes_new {i : Item} {fromNew : Bool} (h : i.Takes fromNew) : i.Takes true :=
  h.imp_right fun hnew => ⟨rfl,hnew.2⟩

theorem clampItemSel_same : s.clampItemSel.mem = s.mem ∧ s.clampItemSel.bag = s.bag ∧
    s.clampItemSel.isOpen = s.isOpen ∧ s.clampItemSel.layer = s.layer := by
  unfold clampItemSel
  split <;> dsimp only <;> split_ifs <;> exact ⟨rfl,rfl,rfl,rfl⟩

theorem itemUse_cases (o : Option BagEntry) : (s.itemUse g o).mem = s.mem ∧ (s.itemUse g o).bag = s.bag ∧
    (s.itemUse g o).isOpen = s.isOpen ∧ ((s.itemUse g o).layer = s.layer ∨ (s.itemUse g o).layer = .bestiary ∨
      ∃ e, o = some e ∧ (s.itemUse g o).layer = .pick ∧ (s.itemUse g o).actNode = e.1 ∧
        (s.itemUse g o).actFromNew = true) := by
  cases o with
  | none => exact ⟨rfl,rfl,rfl,Or.inl rfl⟩
  | some e =>
    unfold itemUse
    dsimp only
    split_ifs
    any_goals exact ⟨rfl,rfl,rfl,Or.inl rfl⟩
    · exact ⟨rfl,rfl,rfl,Or.inr (Or.inl rfl)⟩
    · exact ⟨rfl,rfl,rfl,Or.inr (Or.inr ⟨e,rfl,rfl,rfl,rfl⟩)⟩

theorem itemDrop_cases (o : Option BagEntry) : (s.itemDrop o).mem = s.mem ∧ (s.itemDrop o).bag = s.bag ∧
    (s.itemDrop o).isOpen = s.isOpen ∧ ((s.itemDrop o).layer = s.layer ∨
      ∃ e, o = some e ∧ (s.itemDrop o).layer = .ask ∧ (s.itemDrop o).actNode = e.1 ∧
        (s.itemDrop o).actFromNew = decide (s.cat = 0)) := by
  cases o with
  | none => exact ⟨rfl,rfl,rfl,Or.inl rfl⟩
  | some e =>
    unfold itemDrop
    dsimp only
    split_ifs
    any_goals exact ⟨rfl,rfl,rfl,Or.inl rfl⟩
    exact ⟨rfl,rfl,rfl,Or.inr ⟨e,rfl,rfl,rfl,rfl⟩⟩

theorem mem_of_itemCurrent {e : BagEntry} (h : s.itemCurrent = some e) : e ∈ s.bag ∧ e.2.inCat s.cat := by
  rw [itemCurrent] at h
  split at h
  next => cases h
  next => exact mem_of_viewAt h

theorem Inv.itemUse (h : s.Inv full l) (hlayer : s.layer = .inner) : (s.itemUse g s.itemCurrent).Inv full l := by
  obtain ⟨hmem,hbag,hopen,hcases⟩ := itemUse_cases (s := s) (g := g) s.itemCurrent
  have hstill : (s.itemUse g s.itemCurrent).isOpen → s.isOpen := fun ho => hopen ▸ ho
  obtain hsame | hbook | ⟨e,he,hpick,hnode,hnew⟩ := hcases
  · exact h.idle hmem hbag hstill (by simp [hsame,hlayer]) (by simp [hsame,hlayer])
  · exact h.idle hmem hbag hstill (by simp [hbook]) (by simp [hbook])
  · obtain ⟨hin,hcat⟩ := mem_of_itemCurrent he
    refine ⟨hmem ▸ h.lists,hbag ▸ h.bag,fun hfull ho => hbag ▸ h.whole hfull (hstill ho),fun _ => ⟨e.2,?_,?_⟩,
      fun _ => hnew⟩
    · rw [hnode]
      exact h.bag.subset hin
    · rw [hnew]
      exact takes_new (takes_of_inCat hcat)

theorem Inv.itemDrop (h : s.Inv full l) (hlayer : s.layer = .inner) : (s.itemDrop s.itemCurrent).Inv full l := by
  obtain ⟨hmem,hbag,hopen,hcases⟩ := itemDrop_cases (s := s) s.itemCurrent
  have hstill : (s.itemDrop s.itemCurrent).isOpen → s.isOpen := fun ho => hopen ▸ ho
  obtain hsame | ⟨e,he,hask,hnode,hnew⟩ := hcases
  · exact h.idle hmem hbag hstill (by simp [hsame,hlayer]) (by simp [hsame,hlayer])
  · obtain ⟨hin,hcat⟩ := mem_of_itemCurrent he
    refine ⟨hmem ▸ h.lists,hbag ▸ h.bag,fun hfull ho => hbag ▸ h.whole hfull (hstill ho),fun _ => ⟨e.2,?_,?_⟩,
      fun hp => by rw [hask] at hp; cases hp⟩
    · rw [hnode]
      exact h.bag.subset hin
    · rw [hnew]
      exact takes_of_inCat hcat

theorem Inv.itemAct (h : s.Inv full l) (hlayer : s.layer = .inner) (hsorts : g.Sorts) (hroom : full → ∀ n, room n) :
    ∃ s' l', s.itemAct g room = some s' ∧ s'.Inv full l' ∧ Becomes full s.mem l s'.mem l' 0 := by
  have hquiet : ({ s with note := none } : Menu).Inv full l := ⟨h.lists,h.bag,h.whole,h.held,h.pick⟩
  rw [Menu.itemAct]
  dsimp only
  split
  next =>
    obtain ⟨l',hlists,hperm,hout⟩ := hsorts _ _ h.lists
    obtain ⟨bag,hbag,hpre,hall⟩ :=
      refreshInv_eq (s := { s with note := none, mem := g.sort s.mem }) hlists hroom
    refine ⟨_,l',by rw [itemSort,hbag]; rfl,⟨hlists,hpre,fun hfull _ => hall hfull,fun hl => ?_,fun hp => ?_⟩,
      .sorted hlists hperm hout⟩
    · have hask : s.layer = .pick ∨ s.layer = .ask := hl
      simp [hlayer] at hask
    · exact absurd (hlayer.symm.trans hp) (by decide)
  next =>
    let c := ({ s with note := none } : Menu).clampItemSel
    obtain ⟨hmem,hbag,hopen,hsame⟩ := clampItemSel_same (s := { s with note := none })
    have hinner : c.layer = .inner := hsame.trans hlayer
    have hc : c.Inv full l := hquiet.idle hmem hbag (fun ho => hopen ▸ ho) (by simp [hinner]) (by simp [hinner])
    have hstays : ∀ d : Menu, d.mem = c.mem → Becomes full s.mem l d.mem l 0 := fun d hd => by
      rw [hd,hmem]
      exact .refl h.lists
    split
    next => exact ⟨_,l,rfl,hc.itemDrop hinner,hstays _ (itemDrop_cases _).1⟩
    next => exact ⟨_,l,rfl,hc.itemUse hinner,hstays _ (itemUse_cases _).1⟩

theorem Inv.consumeHeld (h : s.Inv full l) (ho : s.isOpen) (hasks : s.layer = .pick ∨ s.layer = .ask)
    (hroom : full → ∀ n, room n) (text : String) (sound : ℕ) :
    ∃ s' l', s.consumeHeld room s.actFromNew text sound = some s' ∧ s'.Inv full l' ∧
      Becomes full s.mem l s'.mem l' 1 := by
  obtain ⟨i,hin,htakes⟩ := h.held hasks
  obtain ⟨pre,rest,hsplit⟩ := List.append_of_mem hin
  obtain ⟨tail,htail⟩ : shown l <+: l := List.takeWhile_prefix _
  have hl : l = pre ++ (s.actNode,i) :: (rest ++ tail) := by
    rw [← htail,hsplit,List.append_assoc,List.cons_append]
  have hlists : s.mem.Lists (pre ++ (s.actNode,i) :: (rest ++ tail)) := hl ▸ h.lists
  have hreach : full → pre.length ≤ s.bag.length := by
    intro hfull
    rw [h.whole hfull ho,hsplit,List.length_append]
    exact Nat.le_add_right _ _
  obtain ⟨m,l',hm,hbecomes⟩ := BagMemory.itemConsume_becomes hlists htakes s.bag.length hreach
  obtain ⟨bag,hbag,hpre,hall⟩ := refreshInv_eq (s := { s with mem := m }) hbecomes.lists hroom
  refine ⟨_,l',by rw [Menu.consumeHeld,hm]; dsimp only; rw [hbag]; rfl,⟨hbecomes.lists,hpre,fun hfull _ => hall hfull,
    fun hl => ?_,fun hp => ?_⟩,hl ▸ hbecomes⟩
  · exact hl.elim (fun hp => by cases hp) fun ha => by cases ha
  · cases hp

theorem Inv.held_heap (h : s.Inv full l) (hasks : s.layer = .pick ∨ s.layer = .ask) :
    ¬(s.actNode = 0 ∨ (!heapOk s.actNode itemNodeSize) = true) := by
  obtain ⟨i,hin,-⟩ := h.held hasks
  have hmem := mem_of_shown hin
  refine not_or.mpr ⟨fun heq => h.lists.linked.null_notMem (heq ▸ List.mem_map_of_mem hmem),?_⟩
  simpa using h.lists.heap _ hmem

theorem takes_pick (ho : s.isOpen) (hlayer : s.layer = .pick) :
    s.takes (.confirm g room) = if g.party ≠ 0 ∧ s.actFlags &&& 1#32 <<< 7 = 0 then 1 else 0 := by
  rw [takes,if_neg (by simp [ho]),if_pos hlayer]

theorem takes_ask (ho : s.isOpen) (hlayer : s.layer = .ask) : s.takes (.confirm g room) = 1 := by
  rw [takes,if_neg (by simp [ho]),if_neg (by simp [hlayer]),if_pos hlayer]

theorem takes_none (hpick : s.layer ≠ .pick) (hask : s.layer ≠ .ask) : s.takes (.confirm g room) = 0 := by
  rw [takes,if_neg hpick,if_neg hask,ite_self]

theorem Inv.confirm (h : s.Inv full l) (ho : s.isOpen) (hsorts : g.Sorts) (hroom : full → ∀ n, room n) :
    ∃ s' l', s.confirm g room = some s' ∧ s'.Inv full l' ∧
      Becomes full s.mem l s'.mem l' (s.takes (.confirm g room)) := by
  cases hlayer : s.layer with
  | tabs =>
    rw [Menu.confirm,hlayer,takes_none (by simp [hlayer]) (by simp [hlayer])]
    exact ⟨_,l,rfl,h.idle rfl rfl id (by simp) (by simp),.refl h.lists⟩
  | bestiary =>
    rw [Menu.confirm,hlayer,takes_none (by simp [hlayer]) (by simp [hlayer])]
    exact ⟨s,l,rfl,h,.refl h.lists⟩
  | inner =>
    rw [Menu.confirm,hlayer,takes_none (by simp [hlayer]) (by simp [hlayer])]
    exact h.itemAct hlayer hsorts hroom
  | ask =>
    rw [Menu.confirm,hlayer,takes_ask ho hlayer]
    dsimp only
    rw [itemDropCommit,if_neg (h.held_heap (Or.inr hlayer))]
    exact h.consumeHeld ho (Or.inr hlayer) hroom _ _
  | pick =>
    rw [Menu.confirm,hlayer,takes_pick ho hlayer]
    dsimp only
    rw [itemUseCommit,if_neg (h.held_heap (Or.inl hlayer))]
    by_cases hparty : g.party = 0
    · rw [if_pos hparty,if_neg (by simp [hparty])]
      exact ⟨_,l,rfl,h.idle rfl rfl id (by simp [release]) (by simp [release]),.refl h.lists⟩
    · rw [if_neg hparty]
      by_cases hflag : s.actFlags &&& 1#32 <<< 7 = 0
      · rw [if_pos hflag,if_pos ⟨hparty,hflag⟩,← h.pick hlayer]
        exact h.consumeHeld ho (Or.inl hlayer) hroom _ _
      · rw [if_neg hflag,if_neg (fun hboth => hflag hboth.2)]
        obtain ⟨s₁,hs₁,hinv,hmem⟩ := h.refresh hroom
        refine ⟨s₁.release "使用成功" 0x8b,l,by rw [hs₁]; rfl,
          hinv.idle rfl rfl id (by simp [release]) (by simp [release]),?_⟩
        have hsame : (s₁.release "使用成功" 0x8b).mem = s.mem := hmem
        rw [hsame]
        exact .refl h.lists

/-- Each event keeps what is known of the page, and changes the bag by what it takes. -/
theorem Inv.step (h : s.Inv full l) {e : MenuEvent} (he : e.Fits full) :
    ∃ s' l', s.step e = some s' ∧ s'.Inv full l' ∧ Becomes full s.mem l s'.mem l' (s.takes e) := by
  have hstays : Becomes full s.mem l s.mem l 0 := .refl h.lists
  -- Buttons that only move something on the page do so while nothing is held.
  have hmove : ∀ d : Menu,
      (s.layer = .inner → d.mem = s.mem ∧ d.bag = s.bag ∧ d.isOpen = s.isOpen ∧ d.layer = .inner) →
      ∃ s' l', (if s.isOpen ∧ s.layer = .inner then some d else some s) = some s' ∧ s'.Inv full l' ∧
        Becomes full s.mem l s'.mem l' 0 := by
    intro d hd
    split
    next hinner =>
      obtain ⟨hmem,hbag,hopen,hlayer⟩ := hd hinner.2
      exact ⟨d,l,rfl,h.idle hmem hbag (fun ho => hopen ▸ ho) (by simp [hlayer]) (by simp [hlayer]),hmem ▸ hstays⟩
    next => exact ⟨s,l,rfl,h,hstays⟩
  cases e with
  | draw room =>
    rw [Menu.step]
    split
    next =>
      obtain ⟨s',hs',hinv,hmem⟩ := h.refresh he
      exact ⟨s',l,hs',hinv,hmem ▸ hstays⟩
    next => exact ⟨s,l,rfl,h,hstays⟩
  | confirm g room =>
    rw [Menu.step]
    split
    next ho => exact h.confirm ho he.1 he.2
    next hclosed =>
      rw [takes,if_pos (by simpa using hclosed)]
      exact ⟨s,l,rfl,h,hstays⟩
  | back =>
    rw [Menu.step]
    split
    next =>
      refine ⟨s.back,l,rfl,?_,?_⟩
      · cases hlayer : s.layer <;> rw [Menu.back,hlayer]
        case tabs =>
          exact ⟨h.lists,List.nil_prefix,fun _ ho => Bool.noConfusion ho,fun hl => by simp [close] at hl,
            fun hp => by simp [close] at hp⟩
        all_goals exact h.idle rfl rfl id (by simp) (by simp)
      · have hmem : s.back.mem = s.mem := by cases hlayer : s.layer <;> rw [Menu.back,hlayer] <;> rfl
        exact hmem ▸ hstays
    next => exact ⟨s,l,rfl,h,hstays⟩
  | shoulder delta => exact hmove _ fun hl => ⟨rfl,rfl,rfl,hl⟩
  | sideways delta => exact hmove _ fun hl => ⟨rfl,rfl,rfl,hl⟩
  | upDown delta =>
    refine hmove _ fun hl => ?_
    unfold moveItemSel
    dsimp only
    split
    next => exact ⟨rfl,rfl,rfl,hl⟩
    next => exact ⟨rfl,rfl,rfl,hl⟩
  | member room =>
    rw [Menu.step]
    split
    next =>
      have hquiet : ({ s with note := none } : Menu).Inv full l := ⟨h.lists,h.bag,h.whole,h.held,h.pick⟩
      obtain ⟨s',hs',hinv,hmem⟩ := hquiet.refresh he
      exact ⟨s',l,hs',hinv,hmem ▸ hstays⟩
    next => exact ⟨s,l,rfl,h,hstays⟩

theorem Inv.run (h : s.Inv full l) {es : List MenuEvent} (hes : ∀ e ∈ es, e.Fits full) :
    ∃ s' l', s.run es = some s' ∧ s'.Inv full l' ∧ Becomes full s.mem l s'.mem l' (s.taken es) := by
  induction es generalizing s l with
  | nil => exact ⟨s,l,rfl,h,.refl h.lists⟩
  | cons e es ih =>
    rw [List.forall_mem_cons] at hes
    obtain ⟨s₁,l₁,hs₁,hinv₁,hbecomes₁⟩ := h.step hes.1
    obtain ⟨s₂,l₂,hs₂,hinv₂,hbecomes₂⟩ := ih hinv₁ hes.2
    rw [Menu.run,taken,hs₁]
    exact ⟨s₂,l₂,hs₂,hinv₂,hbecomes₁.trans hbecomes₂⟩

/-- Over every session with the page each confirmed use and drop takes exactly one item, no node is
used after it was given back or given back twice, nothing outside the list is written, and the copy
is what the list shows. -/
theorem session_keeps_bag {full : Prop} {mem : BagMemory} {l : List BagEntry} (h : mem.Lists l)
    {room : ℕ → Bool} (hroom : full → ∀ n, room n) {es : List MenuEvent} (hes : ∀ e ∈ es, e.Fits full) :
    ∃ s s' l', Menu.opened mem room = some s ∧ s.run es = some s' ∧
      Becomes full mem l s'.mem l' (s.taken es) ∧ s'.bag <+: shown l' ∧ (full → s'.isOpen → s'.bag = shown l') := by
  obtain ⟨bag,hbag,hpre,hall⟩ := refreshInv_eq (s := .fresh mem) h hroom
  have hinv : Inv full { Menu.fresh mem with bag := bag } l :=
    ⟨h,hpre,fun hfull _ => hall hfull,fun hl => by simp [fresh] at hl,fun hp => by simp [fresh] at hp⟩
  obtain ⟨s',l',hs',hinv',hbecomes⟩ := hinv.run hes
  exact ⟨_,s',l',hbag,hs',hbecomes,hinv'.bag,hinv'.whole⟩

/-- A bag with one herb in it, which is new. -/
def herbBag : BagMemory := ⟨0x20000,fun a => if a = 0x20000 then some ⟨0,⟨1,0,1,0x1000,0xe⟩⟩ else none⟩

def obliging : Game := ⟨fun _ => false,false,fun _ => false,1,0x1000,id⟩

/-- The page is entered, the herb is chosen and its use confirmed. -/
def useHerb : List MenuEvent :=
  [.confirm obliging fun _ => true,.confirm obliging fun _ => true,.confirm obliging fun _ => true]

theorem session_keeps_bag_herb : ∃ s s' : Menu, ∃ l', opened herbBag (fun _ => true) = some s ∧
    s.run useHerb = some s' ∧ s'.mem.Lists l' ∧ bagQuantity l' + s.taken useHerb = 1 ∧ ∀ e ∈ l', 0 < e.2.quantity := by
  have hlists : herbBag.Lists [(0x20000,⟨1,0,1,0x1000,0xe⟩)] := by
    refine ⟨⟨.cons rfl (.nil 0),by decide⟩,?_,?_,?_⟩
    · simp [herbBag,BagMemory.item]
    · simp [heapOk,itemNodeSize]
    · simp
  have hsorts : obliging.Sorts := fun _ l h => ⟨l,h,.refl l,fun _ _ => rfl⟩
  have hroom : True → ∀ n : ℕ, (fun _ => true) n = true := fun _ _ => rfl
  have hfits : ∀ e ∈ useHerb, e.Fits True := by simp [useHerb,MenuEvent.Fits,hsorts]
  obtain ⟨s,s',l',hs,hrun,hbecomes,-,-⟩ := session_keeps_bag hlists hroom hfits
  refine ⟨s,s',l',hs,hrun,hbecomes.lists,hbecomes.total,fun e' he' => hbecomes.positive trivial e' he' fun e he _ => ?_⟩
  rw [List.mem_singleton.mp he]
  decide

end Menu

end Machismo.Sword3
