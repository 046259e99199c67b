import Mathlib.Data.Fintype.Card
import Mathlib.Data.FinEnum
import Mathlib.Data.List.TakeWhile
import Machismo.Data.Linked

/-! # The item page of the host menu

The bag is a linked list in the game's memory, and the page shows a copy of it that `draw` takes anew
for each frame. To use or drop an item the player holds it first and then confirms; a confirmed item
loses one of its counters, and when both are used up its node is taken out of the list and given back
to the game. What the game answers on the way is a parameter. An access to a node that is not there
has no result.
-/
namespace Machismo.Sword3

abbrev NodeAddr := BitVec 64

def itemNodeSize : ℕ := 0x130

/-- What a node says of its item. -/
structure Item where
  temp : ℤ
  count : ℤ
  countNew : ℤ
  flags : BitVec 32
  place : BitVec 16
deriving DecidableEq

structure ItemNode where
  next : NodeAddr
  item : Item

/-- The link of the repository, and the nodes that are there. -/
structure BagMemory where
  head : NodeAddr
  node : NodeAddr → Option ItemNode

def heapOk (addr : NodeAddr) (n : ℕ) : Bool :=
  if addr.toNat < 0x10000 ∨ 0x7fffffffffff < addr.toNat then false
  else if n = 0 then true
  else if 2^64 ≤ addr.toNat + n - 1 then false
  else addr.toNat + n - 1 ≤ 0x7fffffffffff

namespace BagMemory
variable (m : BagMemory)

def next (a : NodeAddr) : Option NodeAddr := (m.node a).map ItemNode.next

def item (a : NodeAddr) : Option Item := (m.node a).map ItemNode.item

def setNext (next : NodeAddr) : Option NodeAddr → Option BagMemory
  | none => some { m with head := next }
  | some p =>
    match m.node p with
    | none => none
    | some n => some { m with node := Function.update m.node p (some { n with next := next }) }

def setItem (a : NodeAddr) (i : Item) : Option BagMemory :=
  match m.node a with
  | none => none
  | some n => some { m with node := Function.update m.node a (some { n with item := i }) }

/-- The game's destructor and `free`. -/
def free (a : NodeAddr) : Option BagMemory :=
  match m.node a with
  | none => none
  | some _ => some { m with node := Function.update m.node a none }

/-- `host_menu_load_item`: the fields of a node, whose counters are never shown below zero. It has
nothing to show for a node outside the heap or without an item. -/
def loadItem (a : NodeAddr) : Option (Option Item) :=
  if !heapOk a itemNodeSize then some none
  else
    match m.item a with
    | none => none
    | some i =>
      if i.temp < 1 then some none
      else some (some { i with
        count := if i.count < 0 then 0 else i.count
        countNew := if i.countNew < 0 then 0 else i.countNew })

end BagMemory

/-- A node that is shown, with what was read of it. -/
abbrev BagEntry := NodeAddr × Item

/-- Whether the walk has been at a node, which is in `seen` exactly when it is in the bag. -/
def seen (bag : List BagEntry) (a : NodeAddr) : Bool := (bag.map Prod.fst).contains a

theorem card_seen {bag : List BagEntry} {a : NodeAddr} {i : Item} (h : ¬seen bag a) :
    Fintype.card NodeAddr - ((bag ++ [(a,i)]).map Prod.fst).toFinset.card <
      Fintype.card NodeAddr - (bag.map Prod.fst).toFinset.card := by
  have hnew : a ∉ (bag.map Prod.fst).toFinset := by
    rw [List.mem_toFinset]
    exact fun hin => h (List.contains_iff_mem.mpr hin)
  have hset : ((bag ++ [(a,i)]).map Prod.fst).toFinset = insert a (bag.map Prod.fst).toFinset := by
    simp [List.toFinset_append,Finset.union_comm]
  have hcard := Finset.card_insert_of_notMem hnew
  have hle := Finset.card_le_univ (insert a (bag.map Prod.fst).toFinset)
  rw [hset]
  omega

/-- `host_menu_refresh_bag`, after the entries of `bag`. It ends at the first node that it cannot
show, that it has seen, or for which `room` says there is no memory. -/
def BagMemory.refreshBag (m : BagMemory) (room : ℕ → Bool) (bag : List BagEntry) (node : NodeAddr) :
    Option (List BagEntry) :=
  if node = 0 then some bag
  else if !heapOk node itemNodeSize then some bag
  else if seen bag node then some bag
  else if !room bag.length then some bag
  else
    match m.loadItem node with
    | none => none
    | some none => some bag
    | some (some i) =>
      match m.next node with
      | none => none
      | some next => m.refreshBag room (bag ++ [(node,i)]) next
termination_by Fintype.card NodeAddr - (bag.map Prod.fst).toFinset.card
decreasing_by exact card_seen ‹_›

/-- The walk of `host_menu_item_unlink`, with the turns that `guard` leaves it. -/
def BagMemory.unlinkFrom (m : BagMemory) (target : NodeAddr) : ℕ → Option NodeAddr → NodeAddr → Option BagMemory
  | 0, _, _ => some m
  | turns + 1, prev, node =>
    if node = 0 then some m
    else
      match m.next node with
      | none => none
      | some next =>
        if node = target then
          match m.setNext next prev with
          | none => none
          | some m' => m'.free target
        else m.unlinkFrom target turns (some node) next

/-- `host_menu_item_unlink`, where `g_bag_n` is `n`. -/
def BagMemory.itemUnlink (m : BagMemory) (n : ℕ) (target : NodeAddr) : Option BagMemory :=
  if target = 0 ∨ !heapOk target itemNodeSize then some m else m.unlinkFrom target (n + 1) none m.head

def Item.consumed (i : Item) (fromNew : Bool) : Item :=
  let count :=
    if fromNew then if i.countNew - 1 ≤ 0 then i.count + (i.countNew - 1) else i.count
    else if i.count - 1 ≤ 0 then 0 else i.count - 1
  let countNew := if fromNew then if i.countNew - 1 ≤ 0 then 0 else i.countNew - 1 else i.countNew
  { i with count := if count < 0 then 0 else count, countNew := if countNew < 0 then 0 else countNew }

def BagMemory.itemConsume (m : BagMemory) (n : ℕ) (a : NodeAddr) (fromNew : Bool) : Option BagMemory :=
  if a = 0 ∨ !heapOk a itemNodeSize then some m
  else
    match m.item a with
    | none => none
    | some i =>
      match m.setItem a (i.consumed fromNew) with
      | none => none
      | some m' =>
        if (i.consumed fromNew).count ≤ 0 ∧ (i.consumed fromNew).countNew ≤ 0 then m'.itemUnlink n a else some m'

def itemCats : ℤ := 7

/-- `g_item_cat_mask` -/
def itemCatMask : ℤ → BitVec 32
  | 0 => 0x00008000
  | 1 => 0x00001003
  | 2 => 0x0000001c
  | 3 => 0x08000040
  | 4 => 0x00000700
  | 5 => 0x00000800
  | 6 => 0x00000020
  | _ => 0

/-- `host_menu_item_in_cat`; the category 0 is that of the new items. -/
def Item.inCat (i : Item) (cat : ℤ) : Bool :=
  if cat = 0 then 0 < i.countNew
  else if cat < 0 ∨ itemCats ≤ cat ∨ i.count ≤ 0 then false
  else if cat = 3 ∨ cat = 6 then
    if i.flags &&& itemCatMask cat ≠ 0 then true else cat = 6 ∧ i.flags = 0
  else if i.flags &&& itemCatMask cat = 0 then false
  else i.flags &&& (itemCatMask 3 ||| itemCatMask 6) = 0

/-- `host_menu_item_view_at`, for the positions from 0 on -/
def viewAt (cat : ℤ) : ℤ → List BagEntry → Option BagEntry
  | _, [] => none
  | i, e :: bag => if e.2.inCat cat then if i = 0 then some e else viewAt cat (i - 1) bag else viewAt cat i bag

def Item.usable (i : Item) : Bool := i.place &&& 0xe ≠ 0

def Item.droppable (i : Item) : Bool := i.flags &&& 1#32 <<< 5 = 0

/-- The layers of the page, of which `pick` asks for a member of the party and `ask` whether to drop
the item. -/
inductive Layer where
  | tabs | inner | bestiary | pick | ask
deriving DecidableEq

structure Menu where
  mem : BagMemory
  layer : Layer
  /-- `g_item_focus`: use, sort or drop. -/
  focus : ℤ
  cat : ℤ
  sel : ℤ
  /-- `g_item_note` with the sound that goes with it. -/
  note : Option (String × ℕ)
  bag : List BagEntry
  actNode : NodeAddr
  actFlags : BitVec 32
  actFromNew : Bool
  isOpen : Bool

/-- What the game answers when it is asked. -/
structure Game where
  /-- Whether the item of a kind is the bestiary, and whether the bestiary opens. -/
  isBook : ℤ → Bool
  bookOpens : Bool
  special : ℤ → Bool
  /-- The number of the party's members, and the record of the one chosen, 0 for none. -/
  teamSize : ℤ
  party : NodeAddr
  sort : BagMemory → BagMemory

namespace Menu
variable (s : Menu)

/-- `host_menu_refresh_inv`, as far as the bag goes. -/
def refreshInv (room : ℕ → Bool) : Option Menu :=
  (s.mem.refreshBag room [] s.mem.head).map fun bag => { s with bag := bag }

def viewCount : ℤ := s.bag.countP fun e => e.2.inCat s.cat

def clampItemSel : Menu :=
  let s := if s.cat < 0 ∨ itemCats ≤ s.cat then { s with cat := 0 } else s
  let n := s.viewCount
  if n ≤ 0 then { s with sel := 0 }
  else if n ≤ s.sel then { s with sel := n - 1 }
  else if s.sel < 0 then { s with sel := 0 }
  else s

/-- `host_menu_item_current`, once the selection has been clamped. -/
def itemCurrent : Option BagEntry :=
  if s.viewCount ≤ 0 ∨ s.sel < 0 ∨ s.viewCount ≤ s.sel then none else viewAt s.cat s.sel s.bag

def itemSay (text : String) (sound : ℕ) : Menu := { s with note := some (text,sound) }

def itemHold (e : BagEntry) (fromNew : Bool) : Menu :=
  { s with actNode := e.1, actFlags := e.2.flags, actFromNew := fromNew }

def itemClearHold : Menu := { s with actNode := 0, actFlags := 0, actFromNew := false }

def itemUse (g : Game) : Option BagEntry → Menu
  | none => s.itemSay "没有物品" 0x8c
  | some e =>
    if e.1 = 0 then s.itemSay "没有物品" 0x8c
    else if !e.2.usable then s.itemSay "无法使用" 0x8c
    else if g.isBook e.2.temp then
      if g.bookOpens then { s with layer := .bestiary, note := none } else s.itemSay "无法打开" 0x8c
    else if g.special e.2.temp then s.itemSay "此物品暂不能在此使用" 0x8c
    else if g.teamSize ≤ 0 then s.itemSay "无法使用" 0x8c
    else { s.itemHold e true with layer := .pick, note := none }

def itemDrop : Option BagEntry → Menu
  | none => s.itemSay "没有物品" 0x8c
  | some e =>
    if e.1 = 0 then s.itemSay "没有物品" 0x8c
    else if !e.2.droppable then s.itemSay "无法丢弃" 0xb8
    else { s.itemHold e (s.cat = 0) with layer := .ask, note := none }

def itemSort (g : Game) (room : ℕ → Bool) : Option Menu :=
  ({ s with mem := g.sort s.mem } : Menu).refreshInv room |>.map fun s => s.itemSay "整理完成" 0x2d

def itemAct (g : Game) (room : ℕ → Bool) : Option Menu :=
  let s := { s with note := none }
  if s.focus = 1 then s.itemSort g room
  else
    let s := s.clampItemSel
    if s.focus = 2 then some (s.itemDrop s.itemCurrent) else some (s.itemUse g s.itemCurrent)

/-- Back to the page with nothing held. -/
def release (text : String) (sound : ℕ) : Menu := { (s.itemSay text sound).itemClearHold with layer := .inner }

/-- One of the held item is taken and the bag read anew. -/
def consumeHeld (room : ℕ → Bool) (fromNew : Bool) (text : String) (sound : ℕ) : Option Menu :=
  match s.mem.itemConsume s.bag.length s.actNode fromNew with
  | none => none
  | some m => (({ s with mem := m } : Menu).refreshInv room).map fun s => s.release text sound

/-- `host_menu_item_use_commit`; an item with `HOST_MENU_ITEM_NO_CONSUME` is applied and kept. -/
def itemUseCommit (g : Game) (room : ℕ → Bool) : Option Menu :=
  if s.actNode = 0 ∨ !heapOk s.actNode itemNodeSize then some (s.release "没有物品" 0x8c)
  else if g.party = 0 then some (s.release "无法使用" 0x8c)
  else if s.actFlags &&& 1#32 <<< 7 = 0 then s.consumeHeld room true "使用成功" 0x8b
  else (s.refreshInv room).map fun s => s.release "使用成功" 0x8b

def itemDropCommit (room : ℕ → Bool) : Option Menu :=
  if s.actNode = 0 ∨ !heapOk s.actNode itemNodeSize then some (s.release "没有物品" 0x8c)
  else s.consumeHeld room s.actFromNew "已丢弃" 0xb8

/-- What `host_menu_open` starts from -/
def fresh (mem : BagMemory) : Menu := ⟨mem,.tabs,0,0,0,none,[],0,0,false,true⟩

/-- `host_menu_open`, as far as the item page goes. -/
def opened (mem : BagMemory) (room : ℕ → Bool) : Option Menu := (fresh mem).refreshInv room

def confirm (g : Game) (room : ℕ → Bool) : Option Menu :=
  match s.layer with
  | .bestiary => some s
  | .pick => s.itemUseCommit g room
  | .ask => s.itemDropCommit room
  | .tabs => some { s with layer := .inner, focus := 0 }
  | .inner => s.itemAct g room

def close : Menu := { s.itemClearHold with layer := .tabs, bag := [], isOpen := false }

def back : Menu :=
  match s.layer with
  | .bestiary | .pick | .ask => { s.itemClearHold with layer := .inner }
  | .inner => { s with layer := .tabs }
  | .tabs => s.close

/-- `host_menu_move_item`, by one to the left or to the right -/
def moveItem (delta : ℤ) : Menu := { s with focus := (s.focus + delta + 3).tmod 3, note := none }

def moveItemCat (delta : ℤ) : Menu :=
  { s with cat := (s.cat + delta + itemCats).tmod itemCats, sel := 0, note := none }

def moveItemSel (delta : ℤ) : Menu :=
  let n := s.viewCount
  if n ≤ 0 then s else { s with sel := (s.sel + delta.tmod n + n).tmod n, note := none }

end Menu

/-- What reaches the page: the buttons, and the frame that is drawn. -/
inductive MenuEvent where
  | draw (room : ℕ → Bool)
  | confirm (g : Game) (room : ℕ → Bool)
  | back
  | shoulder (delta : ℤ)
  | sideways (delta : ℤ)
  | upDown (delta : ℤ)
  /-- Another member of the party is chosen, for whom the inventory is read anew. -/
  | member (room : ℕ → Bool)

def Menu.step (s : Menu) : MenuEvent → Option Menu
  | .draw room => if s.isOpen then s.refreshInv room else some s
  | .confirm g room => if s.isOpen then s.confirm g room else some s
  | .back => if s.isOpen then some s.back else some s
  | .shoulder delta => if s.isOpen ∧ s.layer = .inner then some (s.moveItem delta) else some s
  | .sideways delta => if s.isOpen ∧ s.layer = .inner then some (s.moveItemCat delta) else some s
  | .upDown delta => if s.isOpen ∧ s.layer = .inner then some (s.moveItemSel delta) else some s
  | .member room => if s.isOpen ∧ s.layer = .pick then ({ s with note := none } : Menu).refreshInv room else some s

def Menu.run (s : Menu) : List MenuEvent → Option Menu
  | [] => some s
  | e :: es =>
    match s.step e with
    | none => none
    | some s' => s'.run es

end Machismo.Sword3
