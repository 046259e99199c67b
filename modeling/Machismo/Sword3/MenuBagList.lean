import Mathlib
import Machismo.Sword3.MenuBag

/-! # The list behind the item page

What the copy of the bag shows of the list in memory, and what taking one of an item does to the list:
it stays a list, a node is given back to the game with its last counter, and nothing else is written.
-/
namespace Machismo.Sword3
open Data

def Item.quantity (i : Item) : ℤ := i.count + i.countNew

def bagQuantity (l : List BagEntry) : ℤ := (l.map fun e => e.2.quantity).sum

theorem bagQuantity_append (l l' : List BagEntry) : bagQuantity (l ++ l') = bagQuantity l + bagQuantity l' := by
  simp [bagQuantity]

theorem bagQuantity_cons (e : BagEntry) (l : List BagEntry) :
    bagQuantity (e :: l) = e.2.quantity + bagQuantity l := by
  simp [bagQuantity]

/-- The list of the repository holds these items. -/
structure BagMemory.Lists (m : BagMemory) (l : List BagEntry) : Prop where
  linked : Linked m.next 0 m.head (l.map Prod.fst)
  item : ∀ e ∈ l, m.item e.1 = some e.2
  heap : ∀ e ∈ l, heapOk e.1 itemNodeSize
  counted : ∀ e ∈ l, 0 ≤ e.2.count ∧ 0 ≤ e.2.countNew

/-- The items up to the first node that has none. -/
def shown (l : List BagEntry) : List BagEntry := l.takeWhile fun e => 1 ≤ e.2.temp

theorem mem_of_shown {l : List BagEntry} {e : BagEntry} (h : e ∈ shown l) : e ∈ l :=
  (List.takeWhile_prefix _).subset h

namespace BagMemory
variable {m m' : BagMemory} {l before rest pre post : List BagEntry} {e : BagEntry} {a node : NodeAddr} {i : Item}

theorem loadItem_eq (hitem : m.item a = some i) (hheap : heapOk a itemNodeSize)
    (hcounted : 0 ≤ i.count ∧ 0 ≤ i.countNew) : m.loadItem a = some (if i.temp < 1 then none else some i) := by
  have hcount : ¬i.count < 0 := not_lt_of_ge hcounted.1
  have hnew : ¬i.countNew < 0 := not_lt_of_ge hcounted.2
  rw [loadItem,hheap,hitem]
  split
  next h => cases h
  next =>
    dsimp only
    rw [if_neg hcount,if_neg hnew]
    split <;> rfl

theorem refreshBag_prefix {room : ℕ → Bool} (hlinked : Linked m.next 0 node (rest.map Prod.fst))
    (hnodup : ((before ++ rest).map Prod.fst).Nodup) (hitem : ∀ e ∈ rest, m.item e.1 = some e.2)
    (hheap : ∀ e ∈ rest, heapOk e.1 itemNodeSize) (hcounted : ∀ e ∈ rest, 0 ≤ e.2.count ∧ 0 ≤ e.2.countNew) :
    ∃ bag, m.refreshBag room before node = some (before ++ bag) ∧ bag <+: shown rest ∧
      ((∀ n, room n) → bag = shown rest) := by
  induction rest generalizing before node with
  | nil =>
    rw [refreshBag,if_pos hlinked.head_eq_null]
    exact ⟨[],by simp,List.nil_prefix,fun _ => rfl⟩
  | cons e rest ih =>
    rw [List.forall_mem_cons] at hitem hheap hcounted
    obtain ⟨rfl,hne⟩ := hlinked.head_ne
    obtain ⟨b,hb,htail⟩ := hlinked.tail
    have hseen : ¬seen before e.1 := by
      intro hin
      rw [List.map_append,List.nodup_append] at hnodup
      exact hnodup.2.2 _ (List.contains_iff_mem.mp hin) _ (List.mem_map_of_mem List.mem_cons_self) rfl
    have hnone : ∃ bag, some before = some (before ++ bag) ∧ bag <+: shown (e :: rest) :=
      ⟨[],by rw [List.append_nil],List.nil_prefix⟩
    rw [refreshBag,if_neg hne,if_neg (by simp [hheap.1]),if_neg hseen,
      loadItem_eq hitem.1 hheap.1 hcounted.1]
    split
    next hroom =>
      obtain ⟨bag,hbag,hpre⟩ := hnone
      exact ⟨bag,hbag,hpre,fun hall => by simp [hall] at hroom⟩
    next =>
      by_cases htemp : e.2.temp < 1
      · obtain ⟨bag,hbag,hpre⟩ := hnone
        have hshown : shown (e :: rest) = [] := List.takeWhile_cons_of_neg (by simpa using htemp)
        rw [if_pos htemp]
        exact ⟨bag,hbag,hpre,fun _ => by rw [hshown] at hpre ⊢; exact List.prefix_nil.mp hpre⟩
      · have hshown : shown (e :: rest) = e :: shown rest := List.takeWhile_cons_of_pos (by simpa using htemp)
        have hrest : ((before ++ [e] ++ rest).map Prod.fst).Nodup := by simpa using hnodup
        obtain ⟨bag,hbag,hpre,hall⟩ := ih htail hrest hitem.2 hheap.2 hcounted.2
        rw [if_neg htemp]
        simp only [hb]
        refine ⟨e :: bag,by simpa using hbag,?_,fun h => ?_⟩
        · rw [hshown]
          exact (List.prefix_cons_inj e).mpr hpre
        · rw [hshown,hall h]

theorem Lists.refresh (h : m.Lists l) (room : ℕ → Bool) :
    ∃ bag, m.refreshBag room [] m.head = some bag ∧ bag <+: shown l ∧ ((∀ n, room n) → bag = shown l) := by
  have hnodup : (([] ++ l).map Prod.fst).Nodup := h.linked.nodup
  obtain ⟨bag,hbag,hpre⟩ := refreshBag_prefix h.linked hnodup h.item h.heap h.counted
  exact ⟨bag,hbag,hpre⟩

theorem Lists.exists_node (h : m.Lists l) (he : e ∈ l) : ∃ n, m.node e.1 = some n ∧ n.item = e.2 := by
  have hitem := h.item e he
  exact Option.map_eq_some_iff.mp hitem

def takeOut (m : BagMemory) (prev : Option NodeAddr) (a : NodeAddr) : Option BagMemory :=
  match m.next a with
  | none => none
  | some next =>
    match m.setNext next prev with
    | none => none
    | some m' => m'.free a

theorem unlinkFrom_eq {mid : List BagEntry} {turns : ℕ}
    (hlinked : Linked m.next 0 node ((mid ++ (a,i) :: post).map Prod.fst)) :
    m.unlinkFrom a turns (before.getLast?.map Prod.fst) node =
      if mid.length < turns then m.takeOut ((before ++ mid).getLast?.map Prod.fst) a else some m := by
  induction turns generalizing before node mid with
  | zero => rfl
  | succ turns ih =>
    cases mid with
    | nil =>
      obtain ⟨rfl,hne⟩ := hlinked.head_ne
      have hturn : ([] : List BagEntry).length < turns + 1 := Nat.succ_pos _
      rw [unlinkFrom,if_neg hne,if_pos hturn,List.append_nil,takeOut]
      cases m.next node with
      | none => rfl
      | some next => exact if_pos rfl
    | cons e mid =>
      have hnodup := hlinked.nodup
      obtain ⟨rfl,hne⟩ := hlinked.head_ne
      obtain ⟨b,hb,htail⟩ := hlinked.tail
      have hother : e.1 ≠ a := by
        intro heq
        rw [List.cons_append,List.map_cons,List.nodup_cons] at hnodup
        exact hnodup.1 (List.mem_map.mpr ⟨(a,i),by simp,heq.symm⟩)
      have hlast : (before ++ [e]).getLast?.map Prod.fst = some e.1 := by simp
      rw [unlinkFrom,if_neg hne,hb]
      dsimp only
      rw [if_neg hother,← hlast,ih htail,List.append_assoc]
      simp only [List.length_cons,Nat.add_lt_add_iff_right,List.cons_append,List.nil_append]

/-- What a change of the list leaves alone and what it gives back. -/
structure Frame (m : BagMemory) (l : List BagEntry) (m' : BagMemory) (l' : List BagEntry) : Prop where
  outside : ∀ b ∉ l.map Prod.fst, m'.node b = m.node b
  freed : ∀ b ∈ l.map Prod.fst, b ∉ l'.map Prod.fst → m'.node b = none

theorem Lists.redirect (h : m.Lists (pre ++ (a,i) :: post)) {b : NodeAddr} (hnext : m.next a = some b) :
    ∃ m', m.setNext b (pre.getLast?.map Prod.fst) = some m' ∧ Linked m'.next 0 m'.head ((pre ++ post).map Prod.fst) ∧
      m'.item = m.item ∧ ∀ c ∉ (pre ++ (a,i) :: post).map Prod.fst, m'.node c = m.node c := by
  obtain rfl | ⟨front,p,rfl⟩ := List.eq_nil_or_concat' pre
  · obtain ⟨b',hb,htail⟩ := h.linked.tail
    obtain rfl := Option.some.inj (hnext.symm.trans hb)
    exact ⟨{ m with head := b },rfl,htail,rfl,fun _ _ => rfl⟩
  · have hp : p ∈ front ++ [p] ++ (a,i) :: post := by simp
    obtain ⟨q,hq,hqi⟩ := h.exists_node hp
    have hlinked := h.linked
    simp only [List.map_append,List.map_cons,List.append_assoc,List.cons_append,List.nil_append] at hlinked
    have hupdate : ({ m with node := Function.update m.node p.1 (some { q with next := b }) } : BagMemory).next =
        Function.update m.next p.1 (some b) := by
      funext c
      by_cases hc : c = p.1
      · subst hc
        simp [next]
      · simp [next,hc]
    refine ⟨{ m with node := Function.update m.node p.1 (some { q with next := b }) },by simp [setNext,hq],?_,?_,
      fun c hc => ?_⟩
    · rw [hupdate]
      simpa using hlinked.unlink hnext
    · funext c
      by_cases hc : c = p.1
      · subst hc
        simp [BagMemory.item,hq]
      · simp [BagMemory.item,hc]
    · exact Function.update_of_ne (fun heq : c = p.1 => hc (heq ▸ List.mem_map_of_mem hp)) _ _

theorem takeOut_lists (h : m.Lists (pre ++ (a,i) :: post)) :
    ∃ m', m.takeOut (pre.getLast?.map Prod.fst) a = some m' ∧ m'.Lists (pre ++ post) ∧
      m.Frame (pre ++ (a,i) :: post) m' (pre ++ post) := by
  have hnodup := h.linked.nodup
  rw [List.map_append,List.map_cons,List.nodup_middle,List.nodup_cons,← List.map_append] at hnodup
  have hmem : (a,i) ∈ pre ++ (a,i) :: post := by simp
  have ha : a ∈ (pre ++ (a,i) :: post).map Prod.fst := List.mem_map_of_mem hmem
  have hsub : ∀ e ∈ pre ++ post, e ∈ pre ++ (a,i) :: post := by
    intro e he
    rw [List.mem_append] at he ⊢
    exact he.imp_right (List.mem_cons_of_mem _)
  have hne : ∀ e ∈ pre ++ post, e.1 ≠ a := fun e he heq => hnodup.1 (List.mem_map.mpr ⟨e,he,heq⟩)
  obtain ⟨n,hn,-⟩ := h.exists_node hmem
  have hnext : m.next a = some n.next := by rw [next,hn]; rfl
  obtain ⟨m₁,hset,hlinked,hitem,houtside⟩ := h.redirect hnext
  have hitem₁ : m₁.item a = some i := (congrFun hitem a).trans (h.item _ hmem)
  obtain ⟨n₁,hn₁,-⟩ := Option.map_eq_some_iff.mp hitem₁
  have hkeep : ∀ b ≠ a, Function.update m₁.node a none b = m₁.node b := fun b hb => Function.update_of_ne hb _ _
  refine ⟨{ m₁ with node := Function.update m₁.node a none },by simp only [takeOut,hnext,hset,free,hn₁],
    ⟨hlinked.congr fun b hb => ?_,fun e he => ?_,fun e he => h.heap e (hsub e he),fun e he => h.counted e (hsub e he)⟩,
    fun b hb => ?_,fun b hb hout => ?_⟩
  · obtain ⟨e,he,rfl⟩ := List.mem_map.mp hb
    exact congrArg _ (hkeep _ (hne e he))
  · rw [← h.item e (hsub e he),← hitem]
    exact congrArg _ (hkeep _ (hne e he))
  · exact (hkeep b fun heq => hb (heq ▸ ha)).trans (houtside b hb)
  · obtain ⟨e,he,rfl⟩ := List.mem_map.mp hb
    rw [List.mem_append,List.mem_cons] at he
    obtain rfl : e = (a,i) := by
      by_contra hother
      exact hout (List.mem_map_of_mem (List.mem_append.mpr (he.imp_right fun hpost => hpost.resolve_left hother)))
    exact Function.update_self _ _ _

theorem itemUnlink_eq (h : m.Lists (pre ++ (a,i) :: post)) (n : ℕ) :
    m.itemUnlink n a = if pre.length ≤ n then m.takeOut (pre.getLast?.map Prod.fst) a else some m := by
  have hmem : (a,i) ∈ pre ++ (a,i) :: post := by simp
  have hne : a ≠ 0 := fun heq => h.linked.null_notMem (heq ▸ List.mem_map_of_mem hmem)
  have hwalk : m.unlinkFrom a (n + 1) (([] : List BagEntry).getLast?.map Prod.fst) m.head =
      if pre.length < n + 1 then m.takeOut ((([] : List BagEntry) ++ pre).getLast?.map Prod.fst) a else some m :=
    unlinkFrom_eq h.linked
  rw [itemUnlink,if_neg (not_or.mpr ⟨hne,by simp [h.heap _ hmem]⟩)]
  simpa [Nat.lt_succ_iff] using hwalk

theorem Lists.setItem (h : m.Lists (pre ++ (a,i) :: post)) {i' : Item} (hcounted : 0 ≤ i'.count ∧ 0 ≤ i'.countNew) :
    ∃ m', m.setItem a i' = some m' ∧ m'.Lists (pre ++ (a,i') :: post) ∧
      m.Frame (pre ++ (a,i) :: post) m' (pre ++ (a,i') :: post) := by
  have hnodup := h.linked.nodup
  rw [List.map_append,List.map_cons,List.nodup_middle,List.nodup_cons,← List.map_append] at hnodup
  have hmem : (a,i) ∈ pre ++ (a,i) :: post := by simp
  have ha : a ∈ (pre ++ (a,i) :: post).map Prod.fst := List.mem_map_of_mem hmem
  have hsame : (pre ++ (a,i') :: post).map Prod.fst = (pre ++ (a,i) :: post).map Prod.fst := by simp
  have hcases : ∀ e ∈ pre ++ (a,i') :: post, e = (a,i') ∨ e ∈ pre ++ (a,i) :: post ∧ e.1 ≠ a := by
    intro e he
    have hin : e = (a,i') ∨ e ∈ pre ++ post := by
      rw [List.mem_append,List.mem_cons] at he
      rw [List.mem_append]
      tauto
    refine hin.imp_right fun hrest => ⟨?_,fun heq => hnodup.1 (List.mem_map.mpr ⟨e,hrest,heq⟩)⟩
    rw [List.mem_append] at hrest ⊢
    exact hrest.imp_right (List.mem_cons_of_mem _)
  obtain ⟨n,hn,-⟩ := h.exists_node hmem
  have hnext :
      ({ m with node := Function.update m.node a (some { n with item := i' }) } : BagMemory).next = m.next := by
    funext b
    by_cases hb : b = a
    · subst hb
      simp [BagMemory.next,hn]
    · simp [BagMemory.next,hb]
  refine ⟨{ m with node := Function.update m.node a (some { n with item := i' }) },by simp only [BagMemory.setItem,hn],
    ⟨?_,fun e he => ?_,fun e he => ?_,fun e he => ?_⟩,fun b hb => ?_,fun b hb hout => ?_⟩
  · rw [hsame]
    exact h.linked.congr fun b _ => congrFun hnext b
  · obtain rfl | ⟨hin,hne⟩ := hcases e he
    · simp [BagMemory.item]
    · rw [← h.item e hin]
      simp [BagMemory.item,hne]
  · obtain rfl | ⟨hin,-⟩ := hcases e he
    · exact h.heap (a,i) hmem
    · exact h.heap e hin
  · obtain rfl | ⟨hin,-⟩ := hcases e he
    · exact hcounted
    · exact h.counted e hin
  · exact Function.update_of_ne (fun heq : b = a => hb (heq ▸ ha)) _ _
  · exact absurd hb (hsame ▸ hout)

theorem Frame.refl : m.Frame l m l := ⟨fun _ _ => rfl,fun _ hb hout => absurd hb hout⟩

theorem Frame.trans {m₁ m₂ : BagMemory} {l₁ l₂ : List BagEntry} (h₁ : m.Frame l m₁ l₁) (h₂ : m₁.Frame l₁ m₂ l₂)
    (hsub : l₁.map Prod.fst ⊆ l.map Prod.fst) : m.Frame l m₂ l₂ where
  outside b hb := (h₂.outside b fun hin => hb (hsub hin)).trans (h₁.outside b hb)
  freed b hb hout := by
    by_cases hin : b ∈ l₁.map Prod.fst
    · exact h₂.freed b hin hout
    · exact (h₂.outside b hin).trans (h₁.freed b hb hin)

end BagMemory

/-! ## What becomes of the items -/

/-- The same item with no more of it. -/
structure Item.LeftOf (i' i : Item) : Prop where
  temp : i'.temp = i.temp
  flags : i'.flags = i.flags
  place : i'.place = i.place
  count : i'.count ≤ i.count
  countNew : i'.countNew ≤ i.countNew

theorem Item.LeftOf.refl (i : Item) : i.LeftOf i := ⟨rfl,rfl,rfl,le_rfl,le_rfl⟩

theorem Item.LeftOf.trans {i i₁ i₂ : Item} (h₂ : i₂.LeftOf i₁) (h₁ : i₁.LeftOf i) : i₂.LeftOf i where
  temp := h₂.temp.trans h₁.temp
  flags := h₂.flags.trans h₁.flags
  place := h₂.place.trans h₁.place
  count := h₂.count.trans h₁.count
  countNew := h₂.countNew.trans h₁.countNew

/-- There is one to take. The new ones are taken before the others. -/
def Item.Takes (i : Item) (fromNew : Bool) : Prop := 0 < i.count ∨ fromNew ∧ 0 < i.countNew

theorem Item.consumed_counts {i : Item} (hcounted : 0 ≤ i.count ∧ 0 ≤ i.countNew) {fromNew : Bool}
    (h : i.Takes fromNew) : (i.consumed fromNew).quantity + 1 = i.quantity ∧ (i.consumed fromNew).LeftOf i ∧
      0 ≤ (i.consumed fromNew).count ∧ 0 ≤ (i.consumed fromNew).countNew := by
  have hcases : fromNew = true ∧ (0 < i.count ∨ 0 < i.countNew) ∨ fromNew = false ∧ 0 < i.count := by
    cases fromNew
    · exact Or.inr ⟨rfl,h.resolve_right fun hnew => Bool.noConfusion hnew.1⟩
    · exact Or.inl ⟨rfl,h.imp_right And.right⟩
  have hcount : (i.consumed fromNew).count + (i.consumed fromNew).countNew + 1 = i.count + i.countNew ∧
      0 ≤ (i.consumed fromNew).count ∧ (i.consumed fromNew).count ≤ i.count ∧
      0 ≤ (i.consumed fromNew).countNew ∧ (i.consumed fromNew).countNew ≤ i.countNew := by
    obtain ⟨rfl,hsome⟩ | ⟨rfl,hsome⟩ := hcases
    · simp only [consumed,if_true]
      split_ifs <;> omega
    · simp only [consumed,Bool.false_eq_true,if_false]
      split_ifs <;> omega
  exact ⟨hcount.1,⟨rfl,rfl,rfl,hcount.2.2.1,hcount.2.2.2.2⟩,hcount.2.1,hcount.2.2.2.1⟩

/-- What `n` confirmed uses and drops may do. While there is memory for the copy, no item stays listed of which
there was one and is none. -/
structure Becomes (full : Prop) (m : BagMemory) (l : List BagEntry) (m' : BagMemory) (l' : List BagEntry) (n : ℕ) :
    Prop where
  lists : m'.Lists l'
  frame : m.Frame l m' l'
  total : bagQuantity l' + n = bagQuantity l
  left : ∀ e' ∈ l', ∃ e ∈ l, e.1 = e'.1 ∧ e'.2.LeftOf e.2
  positive : full → ∀ e' ∈ l', (∀ e ∈ l, e.1 = e'.1 → 0 < e.2.quantity) → 0 < e'.2.quantity

namespace Becomes
variable {full : Prop} {m m₁ m₂ : BagMemory} {l l₁ l₂ : List BagEntry} {n k : ℕ}

theorem refl (h : m.Lists l) : Becomes full m l m l 0 where
  lists := h
  frame := .refl
  total := Int.add_zero _
  left e' he' := ⟨e',he',rfl,.refl _⟩
  positive _ e' he' h := h e' he' rfl

theorem subset (h : Becomes full m l m₁ l₁ n) : l₁.map Prod.fst ⊆ l.map Prod.fst := by
  intro b hb
  obtain ⟨e',he',rfl⟩ := List.mem_map.mp hb
  obtain ⟨e,he,heq,-⟩ := h.left e' he'
  exact List.mem_map.mpr ⟨e,he,heq⟩

theorem trans (h₁ : Becomes full m l m₁ l₁ n) (h₂ : Becomes full m₁ l₁ m₂ l₂ k) :
    Becomes full m l m₂ l₂ (n + k) where
  lists := h₂.lists
  frame := h₁.frame.trans h₂.frame h₁.subset
  total := by
    have h := h₁.total
    have h' := h₂.total
    push_cast
    omega
  left e' he' := by
    obtain ⟨e,he,heq,hleft⟩ := h₂.left e' he'
    obtain ⟨d,hd,heq',hleft'⟩ := h₁.left e he
    exact ⟨d,hd,heq'.trans heq,hleft.trans hleft'⟩
  positive hfull e' he' h := h₂.positive hfull e' he' fun e he heq =>
    h₁.positive hfull e he fun d hd heq' => h d hd (heq'.trans heq)

theorem sorted (h : m₁.Lists l₁) (hperm : l₁.Perm l) (hout : ∀ b ∉ l.map Prod.fst, m₁.node b = m.node b) :
    Becomes full m l m₁ l₁ 0 where
  lists := h
  frame := ⟨hout,fun _ hb hnot => absurd ((hperm.map _).mem_iff.mpr hb) hnot⟩
  total := (Int.add_zero _).trans (hperm.map _).sum_eq
  left e' he' := ⟨e',hperm.mem_iff.mp he',rfl,.refl _⟩
  positive _ e' he' hall := hall e' (hperm.mem_iff.mp he') rfl

end Becomes

theorem BagMemory.itemConsume_becomes {full : Prop} {m : BagMemory} {pre post : List BagEntry} {a : NodeAddr} {i : Item}
    (h : m.Lists (pre ++ (a,i) :: post)) {fromNew : Bool} (htakes : i.Takes fromNew) (n : ℕ)
    (hn : full → pre.length ≤ n) :
    ∃ m' l', m.itemConsume n a fromNew = some m' ∧ Becomes full m (pre ++ (a,i) :: post) m' l' 1 := by
  have hmem : (a,i) ∈ pre ++ (a,i) :: post := by simp
  have hne : a ≠ 0 := fun heq => h.linked.null_notMem (heq ▸ List.mem_map_of_mem hmem)
  have hbefore : 0 ≤ i.count ∧ 0 ≤ i.countNew := h.counted _ hmem
  obtain ⟨hless,hleft,hcounted⟩ := Item.consumed_counts hbefore htakes
  obtain ⟨m₁,hset,hlists,hframe⟩ := h.setItem hcounted
  have htotal : bagQuantity (pre ++ (a,i.consumed fromNew) :: post) + 1 = bagQuantity (pre ++ (a,i) :: post) := by
    simp only [bagQuantity_append,bagQuantity_cons]
    omega
  have hleft₁ : ∀ e' ∈ pre ++ (a,i.consumed fromNew) :: post,
      ∃ e ∈ pre ++ (a,i) :: post, e.1 = e'.1 ∧ e'.2.LeftOf e.2 := by
    intro e' he'
    rw [List.mem_append,List.mem_cons] at he'
    obtain hpre | rfl | hpost := he'
    · exact ⟨e',List.mem_append_left _ hpre,rfl,.refl _⟩
    · exact ⟨(a,i),hmem,rfl,hleft⟩
    · exact ⟨e',List.mem_append_right _ (List.mem_cons_of_mem _ hpost),rfl,.refl _⟩
  have hkept : (full → 0 < (i.consumed fromNew).quantity) →
      Becomes full m (pre ++ (a,i) :: post) m₁ (pre ++ (a,i.consumed fromNew) :: post) 1 := by
    refine fun hpositive => ⟨hlists,hframe,htotal,hleft₁,fun hfull e he hall => ?_⟩
    rw [List.mem_append,List.mem_cons] at he
    obtain hpre | rfl | hpost := he
    · exact hall e (List.mem_append_left _ hpre) rfl
    · exact hpositive hfull
    · exact hall e (List.mem_append_right _ (List.mem_cons_of_mem _ hpost)) rfl
  rw [itemConsume,if_neg (not_or.mpr ⟨hne,by simp [h.heap _ hmem]⟩),h.item _ hmem]
  dsimp only
  rw [hset]
  dsimp only
  split
  next hzero =>
    rw [itemUnlink_eq hlists]
    split
    next =>
      obtain ⟨m₂,htake,hlists₂,hframe₂⟩ := takeOut_lists hlists
      have hquantity : (i.consumed fromNew).quantity = 0 := by
        rw [Item.quantity]
        omega
      have hsub : ∀ e ∈ pre ++ post, e ∈ pre ++ (a,i.consumed fromNew) :: post := by
        intro e he
        rw [List.mem_append] at he ⊢
        exact he.imp_right (List.mem_cons_of_mem _)
      refine ⟨m₂,_,htake,hlists₂,hframe.trans hframe₂ (by simp),?_,fun e' he' => hleft₁ e' (hsub e' he'),
        fun _ e he hall => ?_⟩
      · rw [← htotal,bagQuantity_append,bagQuantity_append,bagQuantity_cons,hquantity]
        simp
      · rw [List.mem_append] at he
        exact hall e (List.mem_append.mpr (he.imp_right (List.mem_cons_of_mem _))) rfl
    next hfar => exact ⟨m₁,_,rfl,hkept fun hfull => absurd (hn hfull) hfar⟩
  next hsome =>
    refine ⟨m₁,_,rfl,hkept fun _ => ?_⟩
    rw [Item.quantity]
    omega

end Machismo.Sword3
