import Machismo.Heaptrack.Stream
import Machismo.Data.SwapRemove

/-! # The tracer's tables

The hooks intern strings, instruction pointers, call stacks and alloc infos, each in a table
that gives numbers in the order of the records.  A table is a list of keys with their
numbers, newest first; the pointer map is a list of pointers with their alloc infos.

A hook runs alone.  What it finds outside (the frames, their names, the clock, the resident
pages, what a mapping is backed by) comes with the call.  Names fit the record buffer.
-/
namespace Machismo.Heaptrack.Stream
open Data

/-- A category of mappings and the made-up instruction pointer that stands for it. -/
structure TagIp where
  tag : Name
  ipIdx : ℕ
  addr : ℕ
deriving DecidableEq, Repr

structure Region where
  addr : ℕ
  len : ℕ
  ainfoIdx : ℕ
  traceIdx : ℕ
deriving DecidableEq, Repr

structure State where
  records : List Record
  strTable : List (Name × ℕ)
  strNext : ℕ
  ipTable : List (ℕ × ℕ)
  ipNext : ℕ
  tagIps : List TagIp
  traceTable : List ((ℕ × ℕ) × ℕ)
  traceNext : ℕ
  ainfoTable : List ((ℕ × ℕ) × ℕ)
  ainfoNext : ℕ
  ptrMap : List (ℕ × ℕ)
  regions : List Region
  allocCount : ℕ
deriving DecidableEq

def State.start : State := ⟨[],[],1,[],1,[],[],1,[],0,[],[],0⟩

def State.emit (s : State) (x : Record) : State := { s with records := s.records++[x] }

def unknown : Name := ['?','?']

section Intern

/-- The number of a key, if the table has it. -/
def indexOf {α : Type} [DecidableEq α] (table : List (α × ℕ)) (key : α) : Option ℕ :=
  (table.find? fun e => e.1 == key).map Prod.snd

def internString (name : Name) (s : State) : ℕ × State :=
  let name := if name = [] then unknown else name
  match indexOf s.strTable name with
  | some idx => (idx,s)
  | none =>
    let idx := s.strNext
    (idx,{ s with
      strTable := (name,idx)::s.strTable
      strNext := idx+1 }.emit (.string name))

/-- A pointer that was resolved before the lock was taken. -/
structure Hint where
  addr : ℕ
  fnName : Name
  modName : Name
deriving DecidableEq, Repr

/-- The three strings and the `i` record of a new pointer. -/
def emitIp (addr : ℕ) (modName fnName : Name) (s : State) : State :=
  let m := internString modName s
  let f := internString fnName m.2
  let u := internString unknown f.2
  u.2.emit (.ip addr m.1 f.1 u.1 0)

def internIp (addr : ℕ) (res : List Hint) (s : State) : ℕ × State :=
  match indexOf s.ipTable addr with
  | some idx => (idx,s)
  | none =>
    let idx := s.ipNext
    let r := (res.find? fun r => r.addr == addr).getD ⟨addr,unknown,unknown⟩
    (idx,emitIp addr r.modName r.fnName { s with
      ipTable := (addr,idx)::s.ipTable
      ipNext := idx+1 })

def internTrace (ipIdx ipHex parent : ℕ) (s : State) : ℕ × State :=
  match indexOf s.traceTable (ipHex,parent) with
  | some idx => (idx,s)
  | none =>
    let idx := s.traceNext
    (idx,{ s with
      traceTable := ((ipHex,parent),idx)::s.traceTable
      traceNext := idx+1 }.emit (.trace ipIdx parent))

def internAllocInfo (size traceIdx : ℕ) (s : State) : ℕ × State :=
  match indexOf s.ainfoTable (size,traceIdx) with
  | some idx => (idx,s)
  | none =>
    let idx := s.ainfoNext
    (idx,{ s with
      ainfoTable := ((size,traceIdx),idx)::s.ainfoTable
      ainfoNext := idx+1 }.emit (.alloc size traceIdx))

def htTagMax : ℕ := 32

def mmapOther : Name := ['m','m','a','p','(','o','t','h','e','r',')']

/-- The last slot becomes the catch-all.  Behind it there is no slot to write to. -/
def internTagIp (tag : Name) (s : State) : Option ((ℕ × ℕ) × State) :=
  match s.tagIps.find? fun g => g.tag == tag with
  | some g => some ((g.ipIdx,g.addr),s)
  | none =>
    let slot := s.tagIps.length
    if slot < htTagMax then
      let tag := if slot = htTagMax-1 then mmapOther else tag
      let addr := 0xfff0000000000000+slot+1
      let idx := s.ipNext
      let s := emitIp addr ['<','m','m','a','p','>'] tag { s with ipNext := idx+1 }
      some ((idx,addr),{ s with tagIps := s.tagIps++[⟨tag,idx,addr⟩] })
    else none

end Intern

section Frames

/-- `ht_presolve`: the frames whose pointers are new, each once, with their names. -/
def htPresolve (frames : List ℕ) (resolve : ℕ → Name × Name) (s : State) : List Hint :=
  ((frames.filter fun a => (indexOf s.ipTable a).isNone).eraseDups).map fun a => ⟨a,(resolve a).1,(resolve a).2⟩

def internFrame (res : List Hint) (acc : ℕ × State) (addr : ℕ) : ℕ × State :=
  let ip := internIp addr res acc.2
  internTrace ip.1 addr acc.1 ip.2

-- the frames are innermost first, and the innermost is the hook's own
def internFrames (frames : List ℕ) (res : List Hint) (s : State) : ℕ × State :=
  ((frames.drop (if frames.length > 1 then 1 else 0)).reverse).foldl (internFrame res) (0,s)

end Frames

/-- What a hook sees of the process. -/
structure Context where
  frames : List ℕ
  resolve : ℕ → Name × Name
  ms : ℕ
  rss : Option ℕ

def State.emitClock (c : Context) (s : State) : State :=
  let s := s.emit (.clock c.ms)
  match c.rss with
  | some pages => if pages = 0 then s else s.emit (.rss pages)
  | none => s

section Locked
variable (c : Context)

def ptrMapInsert (ptr ainfoIdx : ℕ) (map : List (ℕ × ℕ)) : List (ℕ × ℕ) :=
  if map.any fun e => e.1 == ptr then map.map fun e => if e.1 = ptr then (ptr,ainfoIdx) else e
  else (ptr,ainfoIdx)::map

def doAllocLocked (ptr size : ℕ) (res : List Hint) (s : State) : State :=
  let t := internFrames c.frames res s
  let a := internAllocInfo size t.1 t.2
  let s : State := { a.2 with
    ptrMap := ptrMapInsert ptr a.1 a.2.ptrMap
    allocCount := a.2.allocCount+1 }
  let s := if s.allocCount%1024 = 0 then s.emitClock c else s
  s.emit (.plus a.1)

def doFreeLocked (ptr : ℕ) (s : State) : State :=
  match s.ptrMap.find? fun e => e.1 == ptr with
  | none => s
  | some e => { s with ptrMap := s.ptrMap.eraseP fun e => e.1 == ptr }.emit (.minus e.2)

def regionAdd (addr len ainfoIdx traceIdx : ℕ) (s : State) : State :=
  { s with regions := s.regions++[⟨addr,len,ainfoIdx,traceIdx⟩] }

def doMmapLocked (ptr len : ℕ) (tag : Name) (res : List Hint) (s : State) : Option State := do
  let t := internFrames c.frames res s
  let g ← internTagIp tag t.2
  let t := internTrace g.1.1 g.1.2 t.1 g.2
  let a := internAllocInfo len t.1 t.2
  return ((regionAdd ptr len a.1 t.1 a.2).emit (.plus a.1)).emitClock c

def Region.overlaps (r : Region) (us ue : ℕ) : Bool := !(r.addr+r.len ≤ us || ue ≤ r.addr)

/-- What is left of a mapping on one side. -/
def survive (addr len traceIdx : ℕ) (s : State) : State :=
  let a := internAllocInfo len traceIdx s
  (regionAdd addr len a.1 traceIdx a.2).emit (.plus a.1)

/-- The body of the loop for a region that overlaps. -/
def retire (us ue i : ℕ) (r : Region) (s : State) : State :=
  let s := s.emit (.minus r.ainfoIdx)
  let s := { s with regions := swapRemove s.regions i }
  let s := if r.addr < us then survive r.addr (us-r.addr) r.traceIdx s else s
  if ue < r.addr+r.len then survive ue (r.addr+r.len-ue) r.traceIdx s else s

theorem internAllocInfo_regions (size traceIdx : ℕ) (s : State) :
    (internAllocInfo size traceIdx s).2.regions = s.regions := by
  unfold internAllocInfo
  split <;> rfl

theorem countP_survive {us ue addr len traceIdx : ℕ} {s : State} (h : addr+len ≤ us ∨ ue ≤ addr) :
    (survive addr len traceIdx s).regions.countP (·.overlaps us ue) = s.regions.countP (·.overlaps us ue) := by
  have hout : Region.overlaps ⟨addr,len,(internAllocInfo len traceIdx s).1,traceIdx⟩ us ue = false := by
    simp only [Region.overlaps,Bool.not_eq_false',Bool.or_eq_true,decide_eq_true_eq]
    exact h
  simp only [survive,regionAdd,State.emit,internAllocInfo_regions,List.countP_append,List.countP_singleton,hout]
  simp

theorem countP_retire {us ue i : ℕ} {s : State} (hi : i < s.regions.length) (h : (s.regions[i]).overlaps us ue) :
    (retire us ue i s.regions[i] s).regions.countP (·.overlaps us ue) < s.regions.countP (·.overlaps us ue) := by
  have hperm := (getElem_cons_swapRemove_perm hi).countP_eq (·.overlaps us ue)
  rw [List.countP_cons_of_pos (by simpa using h)] at hperm
  have hov : us < s.regions[i].addr+s.regions[i].len ∧ s.regions[i].addr < ue := by
    simpa [Region.overlaps] using h
  unfold retire
  dsimp only
  split_ifs with htail hhead hhead
  · rw [countP_survive (Or.inr le_rfl),countP_survive (Or.inl (by omega))]
    exact hperm ▸ Nat.lt_succ_self _
  · rw [countP_survive (Or.inr le_rfl)]
    exact hperm ▸ Nat.lt_succ_self _
  · rw [countP_survive (Or.inl (by omega))]
    exact hperm ▸ Nat.lt_succ_self _
  · exact hperm ▸ Nat.lt_succ_self _

def munmapLoop (us ue i : ℕ) (hit : Bool) (s : State) : Bool × State :=
  if h : i < s.regions.length then
    if s.regions[i].overlaps us ue then munmapLoop us ue i true (retire us ue i s.regions[i] s)
    else munmapLoop us ue (i+1) hit s
  else (hit,s)
termination_by (s.regions.countP (·.overlaps us ue),s.regions.length-i)
decreasing_by
  · exact Prod.Lex.left _ _ (countP_retire h (by assumption))
  · exact Prod.Lex.right _ (by omega)

def doMunmapLocked (ptr len : ℕ) (s : State) : State :=
  let r := munmapLoop ptr (ptr+len) 0 false s
  if r.1 then r.2.emitClock c else r.2

end Locked

section Hooks

/-- What a mapping is of, as `fstat`, `fstatfs` and `readlink` tell. -/
inductive Backing where
  | anonymous
  | unreadable
  | regular (tmpfs : Bool) (path : Option Name)
  | device (path : Option Name)
deriving DecidableEq, Repr

def pathTag : Option Name → Name
  | some path => ['m','m','a','p','(']++path++[')']
  | none => ['m','m','a','p','(','f','d',')']

/-- The category of a mapping that stays resident; others are not tracked. -/
def Backing.tag : Backing → Option Name
  | .anonymous => some ['m','m','a','p','(','a','n','o','n','y','m','o','u','s',')']
  | .unreadable => none
  | .regular tmpfs path => if tmpfs then some (pathTag path) else none
  | .device path => some (pathTag path)

inductive Hook where
  | alloc (ptr size : ℕ)
  | free (ptr : ℕ)
  | realloc (oldPtr newPtr size : ℕ)
  | mmap (ptr len : ℕ) (fixed : Bool) (backing : Backing)
  | munmap (ptr len : ℕ)
deriving DecidableEq, Repr

def mapFailed : ℕ := 2^64-1

def machismoHeaptrackMmap (c : Context) (ptr len : ℕ) (fixed : Bool) (backing : Backing) (s : State) :
    Option State :=
  if ptr = 0 ∨ ptr = mapFailed ∨ len = 0 then some s
  else
    match backing.tag with
    | none => some (if fixed then doMunmapLocked c ptr len s else s)
    | some tag =>
      let res := htPresolve c.frames c.resolve s
      doMmapLocked c ptr len tag res (if fixed then doMunmapLocked c ptr len s else s)

def machismoHeaptrackRealloc (c : Context) (oldPtr newPtr size : ℕ) (s : State) : State :=
  if newPtr = 0 ∧ size ≠ 0 then s
  else
    let res := htPresolve c.frames c.resolve s
    let s := if oldPtr = 0 then s else doFreeLocked oldPtr s
    if newPtr = 0 then s else doAllocLocked c newPtr size res s

/-- One call of a hook; nothing if it writes outside the tag table. -/
def Hook.run (c : Context) (s : State) : Hook → Option State
  | .alloc ptr size => some (if ptr = 0 then s else doAllocLocked c ptr size (htPresolve c.frames c.resolve s) s)
  | .free ptr => some (if ptr = 0 then s else doFreeLocked ptr s)
  | .realloc oldPtr newPtr size => some (machismoHeaptrackRealloc c oldPtr newPtr size s)
  | .mmap ptr len fixed backing => machismoHeaptrackMmap c ptr len fixed backing s
  | .munmap ptr len => some (if ptr = 0 ∨ len = 0 then s else doMunmapLocked c ptr len s)

end Hooks

section Held

/-- The frames of a trace, innermost first.  A parent is older than its child, so it is found in the rest. -/
def stackOf : List ((ℕ × ℕ) × ℕ) → ℕ → List ℕ
  | [],_ => []
  | ((ipHex,parent),idx)::rest,k => if k = idx then ipHex::stackOf rest parent else stackOf rest k

def infoOf : List ((ℕ × ℕ) × ℕ) → ℕ → ℕ × ℕ
  | [],_ => (0,0)
  | (info,idx)::rest,k => if k = idx then info else infoOf rest k

/-- The block of an alloc info, by the tracer's own tables. -/
def State.block (s : State) (k : ℕ) : Block :=
  ((infoOf s.ainfoTable k).1,stackOf s.traceTable (infoOf s.ainfoTable k).2)

/-- The alloc infos that the pointer map and the region table have. -/
def State.held (s : State) : Multiset ℕ := ↑(s.ptrMap.map Prod.snd)+↑(s.regions.map Region.ainfoIdx)

def State.blocks (s : State) : Multiset Block := s.held.map s.block

end Held

end Machismo.Heaptrack.Stream
