import Machismo.Shim.Classes

/-! # Method lists

The list of a class is an array of entries in one of two formats: three pointers, or three signed
offsets of 32 bits from the place of each to what it refers to. In the second format the name is the
selector's text itself or a word that points to it. `decodeMethod` reads an entry of either format in
place; what a list means is a list of methods.
-/
namespace Machismo.Shim
open A64

def ClassGraph.roAddr (G : ClassGraph) (cls : Addr) : Option Addr :=
  if cls = 0 then none
  else
    let data := G.dataBits cls &&& ~~~7
    if data = 0 ∨ data.toNat % 8 ≠ 0 then none else some data

theorem ClassGraph.classRo_eq (G : ClassGraph) (cls : Addr) : G.classRo cls = (G.roAddr cls).map G.roAt := by
  unfold classRo roAddr
  split
  next => rfl
  next =>
    dsimp only
    split
    next => rfl
    next => rfl

/-- The metadata of a process: its classes, the words of its memory and the texts at its addresses. -/
structure Metadata extends Runtime where
  superclass : Addr → Addr
  /-- `base_methods` of the read-only part at an address. -/
  baseMethods : Addr → Addr
  mem : Memory
  text : Addr → List Char

structure DecodedMethod where
  name : Addr
  types : Addr
  imp : Addr
  original : Option Addr
  identity : Addr
  deriving DecidableEq

def methodListSmall : BitVec 32 := 0x80000000
def methodListDirectSelectors : BitVec 32 := 0x40000000

/-- `field` is not NULL where this is called. -/
def relativeTarget (m : Memory) (field : Addr) : Option Addr :=
  let address := field.toNat
  let offset := (load m field 4).toInt
  if 0 ≤ offset then
    if 2^64 - 1 - address < offset.toNat then none
    else if address + offset.toNat = 0 then none
    else some (BitVec.ofNat 64 (address + offset.toNat))
  else if address < (-offset).toNat then none
  else if address - (-offset).toNat = 0 then none
  else some (BitVec.ofNat 64 (address - (-offset).toNat))

/-- What an entry of the list at `list` has to span. -/
def methodStride (m : Memory) (list : Addr) : ℕ := ((load m list 4 &&& 0xffff#32) &&& ~~~3#32).toNat

def methodCount (m : Memory) (list : Addr) : ℕ := (load m (list + 4) 4).toNat

def methodEntry (m : Memory) (list : Addr) (index : ℕ) : Addr :=
  list + 8 + BitVec.ofNat 64 (index * methodStride m list)

def decodeSmall (m : Memory) (direct : Bool) (entry : Addr) : Option DecodedMethod :=
  match relativeTarget m entry, relativeTarget m (entry + 4), relativeTarget m (entry + 8) with
  | some name, some types, some imp =>
    some ⟨if direct then name else load m name 8,types,imp,none,entry⟩
  | _, _, _ => none

def decodeMethod (m : Memory) (list : Addr) (index : ℕ) : Option DecodedMethod :=
  if list = 0 ∨ list.toNat % 4 ≠ 0 then none
  else if methodCount m list ≤ index then none
  else
    let entry := methodEntry m list index
    if load m list 4 &&& methodListSmall ≠ 0 then
      if methodStride m list < 12 ∨ methodStride m list % 4 ≠ 0 ∨ entry.toNat % 4 ≠ 0 then none
      else decodeSmall m (load m list 4 &&& methodListDirectSelectors ≠ 0) entry
    else if methodStride m list < 24 ∨ methodStride m list % 8 ≠ 0 ∨ entry.toNat % 8 ≠ 0 then none
    else some ⟨load m entry 8,load m (entry + 8) 8,load m (entry + 16) 8,some entry,entry⟩

@[ext] structure Method where
  name : Option (List Char)
  types : Option (List Char)
  imp : Addr
  deriving DecidableEq

inductive MethodFormat where
  | absolute
  | relative (direct : Bool)
  deriving DecidableEq

namespace MethodFormat

def entrySize : MethodFormat → ℕ
  | absolute => 24
  | relative _ => 12

def alignment : MethodFormat → ℕ
  | absolute => 8
  | relative _ => 4

end MethodFormat

/-- The offset in the word at `field` leads to `target`. -/
def LeadsTo (m : Memory) (field target : Addr) : Prop :=
  target ≠ 0 ∧ (target.toNat : ℤ) = field.toNat + (load m field 4).toInt

namespace Metadata
variable (M : Metadata)

def textAt (p : Addr) : Option (List Char) := if p = 0 then none else some (M.text p)

/-- The method in the entry at `e`. -/
def MethodAt (e : Addr) (d : Method) : MethodFormat → Prop
  | .absolute =>
    d.name = M.textAt (load M.mem e 8) ∧ d.types = M.textAt (load M.mem (e + 8) 8) ∧ d.imp = load M.mem (e + 16) 8
  | .relative direct => ∃ name types, LeadsTo M.mem e name ∧ LeadsTo M.mem (e + 4) types ∧ LeadsTo M.mem (e + 8) d.imp ∧
      d.name = M.textAt (if direct then name else load M.mem name 8) ∧ d.types = M.textAt types

/-- The list at `list` holds the methods `ds`, in entries of any size that the format allows. -/
structure ListAt (list : Addr) (format : MethodFormat) (ds : List Method) : Prop where
  aligned : list.toNat % 4 = 0
  count : methodCount M.mem list = ds.length
  small : (load M.mem list 4 &&& methodListSmall ≠ 0) ↔ format ≠ .absolute
  direct : ∀ b, format = .relative b → (load M.mem list 4 &&& methodListDirectSelectors ≠ 0 ↔ b = true)
  stride : format.entrySize ≤ methodStride M.mem list ∧ methodStride M.mem list % format.alignment = 0
  entries : ∀ i (h : i < ds.length), (methodEntry M.mem list i).toNat % format.alignment = 0 ∧
    M.MethodAt (methodEntry M.mem list i) ds[i] format

/-- The class at `cls` has the methods `ds`. -/
inductive HasMethods (cls : Addr) (ds : List Method) : Prop where
  | empty (hds : ds = []) (hro : ∀ data, M.roAddr cls = some data → M.baseMethods data = 0)
  | list (data : Addr) (format : MethodFormat) (hro : M.roAddr cls = some data)
      (hlist : M.baseMethods data ≠ 0) (h : M.ListAt (M.baseMethods data) format ds)

def methodOf (d : DecodedMethod) : Method := ⟨M.textAt d.name,M.textAt d.types,d.imp⟩

end Metadata

theorem relativeTarget_eq_some {m : Memory} {field target : Addr} (h : LeadsTo m field target) :
    relativeTarget m field = some target := by
  obtain ⟨hne,heq⟩ := h
  have hpos : target.toNat ≠ 0 := fun h0 => hne (BitVec.eq_of_toNat_eq h0)
  have hlt := target.isLt
  have hfield := field.isLt
  unfold relativeTarget
  dsimp only
  by_cases hoff : 0 ≤ (load m field 4).toInt
  · have hsum : field.toNat + (load m field 4).toInt.toNat = target.toNat := by omega
    rw [if_pos hoff,if_neg (by omega),hsum,if_neg hpos,BitVec.ofNat_toNat,BitVec.setWidth_eq]
  · have hsub : field.toNat - (-(load m field 4).toInt).toNat = target.toNat := by omega
    rw [if_neg hoff,if_neg (by omega),hsub,if_neg hpos,BitVec.ofNat_toNat,BitVec.setWidth_eq]

namespace Metadata
variable {M : Metadata} {list cls : Addr} {format : MethodFormat} {ds : List Method}

theorem ListAt.decode (h : M.ListAt list format ds) (hlist : list ≠ 0) {i : ℕ} (hi : i < ds.length) :
    ∃ d, decodeMethod M.mem list i = some d ∧ M.methodOf d = ds[i] := by
  obtain ⟨hal,hentry⟩ := h.entries i hi
  have hcount : ¬methodCount M.mem list ≤ i := by rw [h.count]; omega
  unfold decodeMethod
  rw [if_neg (not_or.mpr ⟨hlist,not_not.mpr h.aligned⟩),if_neg hcount]
  dsimp only
  cases format with
  | absolute =>
    have hsmall : ¬(load M.mem list 4 &&& methodListSmall ≠ 0) := fun hs => h.small.mp hs rfl
    have hfits : ¬(methodStride M.mem list < 24 ∨ methodStride M.mem list % 8 ≠ 0 ∨
        (methodEntry M.mem list i).toNat % 8 ≠ 0) := by
      simp only [not_or,not_lt,not_not]
      exact ⟨h.stride.1,h.stride.2,hal⟩
    obtain ⟨hname,htypes,himp⟩ := hentry
    rw [if_neg hsmall,if_neg hfits]
    exact ⟨_,rfl,Method.ext hname.symm htypes.symm himp.symm⟩
  | relative direct =>
    have hsmall : load M.mem list 4 &&& methodListSmall ≠ 0 := h.small.mpr (by simp)
    have hfits : ¬(methodStride M.mem list < 12 ∨ methodStride M.mem list % 4 ≠ 0 ∨
        (methodEntry M.mem list i).toNat % 4 ≠ 0) := by
      simp only [not_or,not_lt,not_not]
      exact ⟨h.stride.1,h.stride.2,hal⟩
    obtain ⟨name,types,hname,htypes,himp,hnameText,htypesText⟩ := hentry
    have hdirect : decide (load M.mem list 4 &&& methodListDirectSelectors ≠ 0) = direct := by
      rw [Bool.eq_iff_iff,decide_eq_true_iff]
      exact h.direct direct rfl
    rw [if_pos hsmall,if_neg hfits,hdirect,decodeSmall,relativeTarget_eq_some hname,relativeTarget_eq_some htypes,
      relativeTarget_eq_some himp]
    exact ⟨_,rfl,Method.ext hnameText.symm htypesText.symm rfl⟩

end Metadata

end Machismo.Shim

/-! # Method dispatch

A message is sent to the first class on the way up from the receiver's class, or from the superclass
of the class that sends it, whose list has the selector; an entry without an implementation counts
for nothing and does not hide those further up. `NSObject` and its metaclass are asked last, whether or
not the receiver inherits from them, and a selector nobody has is answered by `nsobject_init`.
-/
namespace Machismo.Shim
open A64

/-- Classes deeper than this are not looked at, so that a cycle ends. -/
def searchDepth : ℕ := 4096

/-- The implementation that the methods of one class have for a selector. -/
def implementation (selector : List Char) (ds : List Method) : Option Addr :=
  match ds.find? fun d => d.name = some selector with
  | some d => if d.imp = 0 then none else some d.imp
  | none => none

/-- The implementation that the first of several classes has for a selector. -/
def dispatch (selector : List Char) (classes : List (List Method)) : Option Addr :=
  classes.findSome? (implementation selector)

/-- The functions that implement the methods of `NSObject`. -/
inductive HostMethod where
  | init | initWithFrame | ignore | responds | addObserver | play | defaultCenter | initWithUrl | fileUrl
  | setLoops | setUrl | initWithData | dataWithBytes | stop | pause | setPlayer | player | instancesRespond
  deriving DecidableEq

section Tables
variable (host : HostMethod → Addr)

def HostMethod.method (name types : String) (m : HostMethod) : Method :=
  ⟨some name.toList,some types.toList,host m⟩

def nsobjectMethods : List Method :=
  let method := HostMethod.method host
  [
  method "init" "@16@0:8" .init,
  method "initWithFrame:" "@48@0:8\x7bCGRect=\x7bCGPoint=dd\x7d\x7bCGSize=dd\x7d\x7d16" .initWithFrame,
  method "setBackgroundColor:" "v24@0:8@16" .ignore,
  method "respondsToSelector:" "B24@0:8:16" .responds,
  method "clearColor" "@16@0:8" .init,
  method "whiteColor" "@16@0:8" .init,
  method "colorWithAlphaComponent:" "@24@0:8d16" .init,
  method "setTextColor:" "v24@0:8@16" .ignore,
  method "textColor" "@16@0:8" .init,
  method "systemFontOfSize:" "@24@0:8d16" .init,
  method "setText:" "v24@0:8@16" .ignore,
  method "addSubview:" "v24@0:8@16" .ignore,
  method "addObserver:selector:name:object:" "v40@0:8@16:24@32@40" .addObserver,
  method "play" "v16@0:8" .play,
  method "defaultCenter" "@16@0:8" .defaultCenter,
  method "initWithURL:" "@24@0:8@16" .initWithUrl,
  method "fileURLWithPath:" "@24@0:8@16" .fileUrl,
  method "initWithContentsOfURL:options:error:" "@40@0:8@16Q24^@32" .initWithUrl,
  method "setNumberOfLoops:" "v24@0:8q16" .setLoops,
  method "initFileURLWithPath:" "@24@0:8@16" .initWithUrl,
  method "Set:" "B24@0:8@16" .setUrl,
  method "initWithData:error:" "@32@0:8@16^@24" .initWithData,
  method "dataWithBytes:length:" "@32@0:8*16Q24" .dataWithBytes,
  method "setPan:" "v20@0:8f16" .ignore,
  method "stop" "v16@0:8" .stop,
  method "pause" "v16@0:8" .pause,
  method "setPlayer:" "v24@0:8@16" .setPlayer,
  method "player" "@16@0:8" .player,
  method "setDelegate:" "v24@0:8@16" .ignore]

def nsobjectClassMethods : List Method :=
  [HostMethod.method host "instancesRespondToSelector:" "B24@0:8:16" .instancesRespond]

end Tables

namespace Metadata
variable (M : Metadata)

/-- Of `n` entries that begin at `index`, the first one with the selector. -/
def findEntry (list selector : Addr) : ℕ → ℕ → Option DecodedMethod
  | 0, _ => none
  | n + 1, index =>
    match decodeMethod M.mem list index with
    | none => none
    | some d =>
      if d.name ≠ 0 ∧ (d.name = selector ∨ M.text d.name = M.text selector) then some d
      else findEntry list selector n (index + 1)

def findMethodInClass (cls selector : Addr) : Option DecodedMethod :=
  match M.roAddr cls with
  | none => none
  | some data =>
    let list := M.baseMethods data
    if selector = 0 ∨ list = 0 ∨ list.toNat % 4 ≠ 0 then none
    else findEntry M list selector (methodCount M.mem list) 0

/-- What `f` gives for the first class on the way up that it gives something for. -/
def climb {α : Type} (f : Addr → Option α) : ℕ → Addr → Option α
  | 0, _ => none
  | n + 1, cls =>
    if cls = 0 then none
    else match f cls with
      | some a => some a
      | none => climb f n (M.superclass cls)

def classGetInstanceMethod (cls selector : Addr) : Option DecodedMethod :=
  M.climb (fun c => M.findMethodInClass c selector) searchDepth cls

/-- The implementation of the first entry of a class for the selector, unless it is NULL. -/
def classImp (cls selector : Addr) : Option Addr :=
  match M.findMethodInClass cls selector with
  | some d => if d.imp = 0 then none else some d.imp
  | none => none

def nsobjectResponds (self requested : Addr) : Bool :=
  if self = 0 ∨ requested = 0 then false else (M.classGetInstanceMethod (M.isa self) requested).isSome

def nsobjectInstancesRespond (cls requested : Addr) : Bool :=
  if cls = 0 ∨ requested = 0 then false else (M.classGetInstanceMethod cls requested).isSome

/-- A class and those above it, at most `n` of them. -/
def superclasses : ℕ → Addr → List Addr
  | 0, _ => []
  | n + 1, cls => if cls = 0 then [] else cls :: superclasses n (M.superclass cls)

end Metadata

/-- The metadata of a process with the two classes the shim brings and their methods. -/
structure MessageRuntime extends Metadata where
  host : HostMethod → Addr
  metaclass : Addr
  host_ne : ∀ m, host m ≠ 0
  nsobject_methods : toMetadata.HasMethods nsobject (nsobjectMethods host)
  metaclass_methods : toMetadata.HasMethods metaclass (nsobjectClassMethods host)

namespace MessageRuntime
variable (R : MessageRuntime)

def lookupImp (receiver selector start : Addr) : Option Addr :=
  if receiver = 0 then none
  else
    match R.climb (fun c => R.classImp c selector) searchDepth (if start = 0 then R.isa receiver else start) with
    | some imp => some imp
    | none =>
      match R.classImp R.nsobject selector with
      | some imp => some imp
      | none =>
        match R.classImp R.metaclass selector with
        | some imp => some imp
        | none => some (R.host .init)

end MessageRuntime

namespace Metadata
variable {M : Metadata} {cls selector : Addr} {ds : List Method}

theorem methodOf_name (d : DecodedMethod) :
    (M.methodOf d).name = some (M.text selector) ↔
      d.name ≠ 0 ∧ (d.name = selector ∨ M.text d.name = M.text selector) := by
  unfold methodOf textAt
  by_cases h0 : d.name = 0
  · simp [h0]
  · simp only [h0,↓reduceIte,Option.some.injEq,ne_eq,not_false_eq_true,true_and]
    constructor
    · exact Or.inr
    · rintro (h | h)
      · rw [h]
      · exact h

theorem findEntry_eq {list : Addr} {format : MethodFormat} (h : M.ListAt list format ds) (hlist : list ≠ 0) (n i : ℕ)
    (hn : i + n = ds.length) :
    (M.findEntry list selector n i).map M.methodOf = (ds.drop i).find? fun d => d.name = some (M.text selector) := by
  induction n generalizing i with
  | zero => rw [findEntry,List.drop_of_length_le (by omega)]; rfl
  | succ n ih =>
    have hi : i < ds.length := by omega
    obtain ⟨d,hd,hmethod⟩ := h.decode hlist hi
    rw [findEntry,hd,List.drop_eq_getElem_cons hi,List.find?_cons,← hmethod]
    by_cases hname : (M.methodOf d).name = some (M.text selector)
    · simp only [hname,decide_true,if_pos ((methodOf_name d).mp hname),Option.map_some]
    · have hno := fun hc => hname ((methodOf_name d).mpr hc)
      simp only [hname,decide_false,if_neg hno]
      exact ih (i + 1) (by omega)

theorem findMethodInClass_eq (h : M.HasMethods cls ds) (hselector : selector ≠ 0) :
    (M.findMethodInClass cls selector).map M.methodOf = ds.find? fun d => d.name = some (M.text selector) := by
  unfold findMethodInClass
  cases h with
  | empty hds hro =>
    rw [hds]
    cases hdata : M.roAddr cls with
    | none => rfl
    | some data => simp [hro data hdata]
  | list data format hro hlist h =>
    have hok : ¬(selector = 0 ∨ M.baseMethods data = 0 ∨ (M.baseMethods data).toNat % 4 ≠ 0) := by
      simp only [not_or,not_not]
      exact ⟨hselector,hlist,h.aligned⟩
    rw [hro]
    dsimp only
    rw [if_neg hok,findEntry_eq h hlist _ 0 (by rw [Nat.zero_add,h.count])]
    rfl

theorem classImp_eq (h : M.HasMethods cls ds) (hselector : selector ≠ 0) :
    M.classImp cls selector = implementation (M.text selector) ds := by
  have hfind := findMethodInClass_eq h hselector
  unfold classImp implementation
  rw [← hfind]
  cases M.findMethodInClass cls selector with
  | none => rfl
  | some d => rfl

theorem map_climb {α β : Type} (g : α → β) (f : Addr → Option α) (n : ℕ) (cls : Addr) :
    (M.climb f n cls).map g = M.climb (fun c => (f c).map g) n cls := by
  induction n generalizing cls with
  | zero => rfl
  | succ n ih =>
    unfold climb
    split
    next => rfl
    next =>
      cases f cls with
      | some a => rfl
      | none => exact ih _

theorem climb_eq {α : Type} {f : Addr → Option α} {g : List Method → Option α} {methods : Addr → List Method} {n : ℕ}
    (h : ∀ c ∈ M.superclasses n cls, f c = g (methods c)) :
    M.climb f n cls = ((M.superclasses n cls).map methods).findSome? g := by
  induction n generalizing cls with
  | zero => rfl
  | succ n ih =>
    unfold climb superclasses
    unfold superclasses at h
    by_cases h0 : cls = 0
    · rw [if_pos h0,if_pos h0]
      rfl
    · rw [if_neg h0] at h
      rw [if_neg h0,if_neg h0,List.map_cons,List.findSome?_cons,← h cls List.mem_cons_self]
      cases f cls with
      | some a => rfl
      | none => exact ih fun c hc => h c (List.mem_cons_of_mem _ hc)

variable {methods : Addr → List Method}

theorem climb_classImp {n : ℕ} (hselector : selector ≠ 0)
    (h : ∀ c ∈ M.superclasses n cls, M.HasMethods c (methods c)) :
    M.climb (fun c => M.classImp c selector) n cls =
      dispatch (M.text selector) ((M.superclasses n cls).map methods) :=
  climb_eq fun c hc => classImp_eq (h c hc) hselector

theorem map_classGetInstanceMethod (hselector : selector ≠ 0)
    (h : ∀ c ∈ M.superclasses searchDepth cls, M.HasMethods c (methods c)) :
    (M.classGetInstanceMethod cls selector).map M.methodOf = ((M.superclasses searchDepth cls).map methods).findSome?
      fun ds => ds.find? fun d => d.name = some (M.text selector) := by
  rw [classGetInstanceMethod,map_climb]
  exact climb_eq fun c hc => findMethodInClass_eq (h c hc) hselector

theorem isSome_classGetInstanceMethod (hselector : selector ≠ 0)
    (h : ∀ c ∈ M.superclasses searchDepth cls, M.HasMethods c (methods c)) :
    (M.classGetInstanceMethod cls selector).isSome ↔
      ∃ c ∈ M.superclasses searchDepth cls, ∃ d ∈ methods c, d.name = some (M.text selector) := by
  rw [← Option.isSome_map (f := M.methodOf),map_classGetInstanceMethod hselector h,List.findSome?_isSome_iff]
  simp

/-- The first entry for the selector has an implementation, so it is the one that a message reaches. -/
theorem climb_classImp_of_method {d : DecodedMethod} (hd : M.classGetInstanceMethod cls selector = some d)
    (himp : d.imp ≠ 0) : M.climb (fun c => M.classImp c selector) searchDepth cls = some d.imp := by
  unfold classGetInstanceMethod at hd
  generalize searchDepth = n at hd
  induction n generalizing cls with
  | zero => cases hd
  | succ n ih =>
    unfold climb at hd ⊢
    split at hd
    next => cases hd
    next h0 =>
      rw [if_neg h0,classImp]
      cases hfind : M.findMethodInClass cls selector with
      | some d' =>
        rw [hfind] at hd
        obtain rfl := Option.some.inj hd
        simp only [if_neg himp]
      | none =>
        rw [hfind] at hd
        exact ih hd

theorem climb_classImp_of_none (hd : M.classGetInstanceMethod cls selector = none) :
    M.climb (fun c => M.classImp c selector) searchDepth cls = none := by
  unfold classGetInstanceMethod at hd
  generalize searchDepth = n at hd
  induction n generalizing cls with
  | zero => rfl
  | succ n ih =>
    unfold climb at hd ⊢
    split
    next => rfl
    next h0 =>
      rw [if_neg h0] at hd
      cases hfind : M.findMethodInClass cls selector with
      | some d' =>
        rw [hfind] at hd
        cases hd
      | none =>
        rw [hfind] at hd
        simp only [classImp,hfind]
        exact ih hd

end Metadata

/-! ## Messages -/

namespace MessageRuntime
variable {R : MessageRuntime} {methods : Addr → List Method} {receiver selector start : Addr}

/-- What `NSObject` has for a selector, or else its metaclass, or else `nsobject_init`. -/
def fallback (R : MessageRuntime) (selector : Addr) : Addr :=
  (dispatch (R.text selector) [nsobjectMethods R.host,nsobjectClassMethods R.host]).getD (R.host .init)

theorem lookupImp_eq (hreceiver : receiver ≠ 0) (hselector : selector ≠ 0) :
    R.lookupImp receiver selector start = some ((R.climb (fun c => R.classImp c selector) searchDepth
      (if start = 0 then R.isa receiver else start)).getD (R.fallback selector)) := by
  unfold lookupImp fallback dispatch
  rw [if_neg hreceiver,Metadata.classImp_eq R.nsobject_methods hselector,
    Metadata.classImp_eq R.metaclass_methods hselector]
  simp only [List.findSome?_cons,List.findSome?_nil]
  cases R.climb (fun c => R.classImp c selector) searchDepth (if start = 0 then R.isa receiver else start) with
  | some imp => rfl
  | none =>
    cases implementation (R.text selector) (nsobjectMethods R.host) with
    | some imp => rfl
    | none =>
      cases implementation (R.text selector) (nsobjectClassMethods R.host) with
      | some imp => rfl
      | none => rfl

/-- The lookup gives the implementation of the first class on the way up that has one, in whatever
format the classes keep their methods. -/
theorem lookupImp_dispatches (hreceiver : receiver ≠ 0) (hselector : selector ≠ 0)
    (h : ∀ c ∈ R.superclasses searchDepth (if start = 0 then R.isa receiver else start), R.HasMethods c (methods c)) :
    R.lookupImp receiver selector start = some ((dispatch (R.text selector)
      ((R.superclasses searchDepth (if start = 0 then R.isa receiver else start)).map methods ++
        [nsobjectMethods R.host,nsobjectClassMethods R.host])).getD (R.host .init)) := by
  rw [lookupImp_eq hreceiver hselector,Metadata.climb_classImp hselector h,fallback,dispatch,dispatch,dispatch,
    List.findSome?_append]
  cases List.findSome? (implementation (R.text selector))
      ((R.superclasses searchDepth (if start = 0 then R.isa receiver else start)).map methods) with
  | some imp => rfl
  | none => rfl

/-- `respondsToSelector:` says whether the object's classes have the method. Where it says yes a
message reaches that method, if it has an implementation, and where it says no a message is answered
by what the shim provides for every object. -/
theorem responds_agrees {self requested : Addr} (hself : self ≠ 0) (hrequested : requested ≠ 0)
    (h : ∀ c ∈ R.superclasses searchDepth (R.isa self), R.HasMethods c (methods c)) :
    (R.nsobjectResponds self requested = true ↔
      ∃ c ∈ R.superclasses searchDepth (R.isa self), ∃ d ∈ methods c, d.name = some (R.text requested)) ∧
    (R.nsobjectResponds self requested = true → ∃ d, R.classGetInstanceMethod (R.isa self) requested = some d ∧
      (d.imp ≠ 0 → R.lookupImp self requested 0 = some d.imp)) ∧
    (R.nsobjectResponds self requested = false → R.lookupImp self requested 0 = some (R.fallback requested)) := by
  have hresponds : R.nsobjectResponds self requested = (R.classGetInstanceMethod (R.isa self) requested).isSome :=
    if_neg (not_or.mpr ⟨hself,hrequested⟩)
  rw [hresponds,lookupImp_eq hself hrequested,if_pos rfl]
  refine ⟨Metadata.isSome_classGetInstanceMethod hrequested h,fun hyes => ?_,fun hno => ?_⟩
  · obtain ⟨d,hd⟩ := Option.isSome_iff_exists.mp hyes
    refine ⟨d,hd,fun himp => ?_⟩
    rw [Metadata.climb_classImp_of_method hd himp]
    rfl
  · rw [Metadata.climb_classImp_of_none (Option.isSome_eq_false_iff.mp hno |> Option.isNone_iff_eq_none.mp)]
    rfl

end MessageRuntime

namespace OneClass

def host : HostMethod → Addr
  | .init => 0x300000
  | _ => 0x300010

def names (i : ℕ) : List Char := ((nsobjectMethods host)[i]?.bind Method.name).getD []
def types (i : ℕ) : List Char := ((nsobjectMethods host)[i]?.bind Method.types).getD []

/-- Word `w` of memory: the list of `NSObject` from `0x10000` on, that of its metaclass from `0x20000`
on, and from `0x30000` on a list of one method in relative format. -/
def word (w : ℕ) : ℕ :=
  if w = 0x2000 then 24 + 29*2^32
  else if 0x2001 ≤ w ∧ w < 0x2001 + 3*29 then
    let i := (w - 0x2001) / 3
    if (w - 0x2001) % 3 = 0 then 0x100000 + i
    else if (w - 0x2001) % 3 = 1 then 0x200000 + i
    else ((nsobjectMethods host)[i]?.map fun d => d.imp.toNat).getD 0
  else if w = 0x4000 then 24 + 2^32
  else if w = 0x4001 then 0x100040
  else if w = 0x4002 then 0x200040
  else if w = 0x4003 then 0x300010
  else if w = 0x6000 then 0x8000000c + 2^32
  else if w = 0x6001 then 0x18 + (0x200041 - 0x3000c)*2^32
  else if w = 0x6002 then 0x400000 - 0x30010
  else if w = 0x6004 then 0x100041
  else 0

def runtime : MessageRuntime where
  isa a := if a = 0x8000 then 0x1000 else 0x3000
  dataBits cls := cls + 0x100
  roAt data := if data = 0x2100 then nsobjectClassRo else ⟨0,0,8,none⟩
  nsobject := 0x2000
  nsobject_ne := by decide
  nsobject_ro := by decide
  superclass cls := if cls = 0x1000 then 0x2000 else 0
  baseMethods data := if data = 0x2100 then 0x10000 else if data = 0x3100 then 0x20000 else 0x30000
  mem a := BitVec.ofNat 8 (word (a.toNat / 8) / 2^(8*(a.toNat % 8)))
  text p :=
    if p.toNat < 0x100040 then names (p.toNat - 0x100000)
    else if p = 0x100040 then "instancesRespondToSelector:".toList
    else if p = 0x100041 then "greet".toList
    else if p.toNat < 0x200040 then types (p.toNat - 0x200000)
    else if p = 0x200040 then "B24@0:8:16".toList
    else "v16@0:8".toList
  host := host
  metaclass := 0x3000
  host_ne m := by cases m <;> decide
  nsobject_methods := by
    refine .list 0x2100 .absolute (by decide) (by decide)
      ⟨by decide,by decide +kernel,by decide +kernel,by simp,by decide +kernel,?_⟩
    show ∀ i (h : i < 29), _ ∧ (_ ∧ _ ∧ _)
    decide +kernel
  metaclass_methods := by
    refine .list 0x3100 .absolute (by decide) (by decide)
      ⟨by decide,by decide +kernel,by decide +kernel,by simp,by decide +kernel,?_⟩
    show ∀ i (h : i < 1), _ ∧ (_ ∧ _ ∧ _)
    decide +kernel

theorem hasMethods_class : runtime.HasMethods 0x1000 [⟨some "greet".toList,some "v16@0:8".toList,0x400000⟩] := by
  refine .list 0x1100 (.relative false) (by decide) (by decide)
    ⟨by decide,by decide +kernel,by decide +kernel,fun b hb => ?_,by decide +kernel,?_⟩
  · cases hb
    decide +kernel
  · show ∀ i (h : i < 1), _ ∧ _
    intro i h
    obtain rfl : i = 0 := by omega
    simp only [List.getElem_cons_zero]
    exact ⟨by decide +kernel,0x30020,0x200041,⟨by decide,by decide +kernel⟩,⟨by decide,by decide +kernel⟩,
      ⟨by decide,by decide +kernel⟩,by decide +kernel,by decide +kernel⟩

def methods (c : Addr) : List Method :=
  if c = 0x1000 then [⟨some "greet".toList,some "v16@0:8".toList,0x400000⟩] else nsobjectMethods host

theorem superclasses_eq : runtime.superclasses searchDepth 0x1000 = [0x1000,0x2000] := by
  have hany : ∀ n, runtime.superclasses (n + 3) 0x1000 = [0x1000,0x2000] := fun _ => rfl
  exact hany 4093

theorem hasMethods_superclasses : ∀ c ∈ runtime.superclasses searchDepth 0x1000, runtime.HasMethods c (methods c) := by
  rw [superclasses_eq]
  simp only [List.forall_mem_cons,List.not_mem_nil,false_imp_iff,implies_true,and_true]
  exact ⟨hasMethods_class,runtime.nsobject_methods⟩

/-- The selector that the class has, sent to its object. -/
theorem lookupImp_dispatches_greet : runtime.lookupImp 0x8000 0x100041 0 = some 0x400000 :=
  (MessageRuntime.lookupImp_dispatches (by decide) (by decide) hasMethods_superclasses).trans (by
    rw [if_pos rfl,show runtime.isa 0x8000 = 0x1000 from rfl,superclasses_eq]
    decide +kernel)

/-- The same object is asked whether it responds. -/
theorem responds_agrees_greet :
    runtime.nsobjectResponds 0x8000 0x100041 = true ∧ ∃ d, runtime.classGetInstanceMethod 0x1000 0x100041 = some d := by
  have hself : (0x8000 : Addr) ≠ 0 := by decide
  have hrequested : (0x100041 : Addr) ≠ 0 := by decide
  obtain ⟨hiff,hyes,-⟩ := MessageRuntime.responds_agrees hself hrequested hasMethods_superclasses
  have hresponds := hiff.mpr ⟨0x1000,by rw [show runtime.isa 0x8000 = 0x1000 from rfl,superclasses_eq]; decide,
    _,List.mem_singleton_self _,by decide +kernel⟩
  obtain ⟨d,hd,-⟩ := hyes hresponds
  exact ⟨hresponds,d,hd⟩

end OneClass

end Machismo.Shim
