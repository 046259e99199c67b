import Mathlib
import Machismo.Shim.Classes

/-! # Receivers taken for audio blobs

The fallback methods of `NSObject` write the fields of `struct audio_blob` into any receiver and free what
they find in two of them; the setter of properties writes where the class's metadata has room. How much
there is of an object is decided by `objc_alloc`. A call has what the environment answers: the addresses
from `malloc` and `calloc`, and the path found for an argument.
-/
namespace Machismo.Shim
open A64

namespace ClassGraph
variable (G : ClassGraph)

/-- The bytes `objc_alloc` asks for: a class without `class_ro` gets 64. -/
def allocSize (cls : Addr) : ℕ := max ((alignedInstanceSize (G.classRo cls)).getD 64) 16

end ClassGraph

/-- Memory as the methods see it: the bytes of an object by their offsets, the string at an address. `size` is
what `objc_alloc` has allocated for an object, `owned` what the methods themselves have allocated. -/
structure BlobHeap where
  size : Addr → Option ℕ
  mem : Addr → Memory
  text : Addr → List Char
  owned : List Addr
  pending : Addr

/-- What a call writes, by object, offset and length, and what it frees. -/
structure Effects where
  writes : List (Addr × ℕ × ℕ)
  frees : List Addr
  deriving DecidableEq

def Effects.none : Effects := ⟨[],[]⟩

namespace BlobHeap
variable (h : BlobHeap)

def word (object : Addr) (offset : ℕ) : BitVec 64 := load (h.mem object) (BitVec.ofNat 64 offset) 8

def store (object : Addr) (offset n : ℕ) (value : BitVec (8*n)) : BlobHeap :=
  { h with mem := Function.update h.mem object (A64.store (h.mem object) (BitVec.ofNat 64 offset) n value) }

/-- A block from `malloc` with a string copied to it. -/
def copied (block : Addr) (text : List Char) : BlobHeap :=
  { h with text := Function.update h.text block text, owned := h.owned ++ [block] }

end BlobHeap

def asciiLower (c : Char) : Char := if 'A' ≤ c ∧ c ≤ 'Z' then Char.ofNat (c.toNat+32) else c

def pathHasExtension (path ext : List Char) : Bool :=
  ext.length ≤ path.length ∧ (path.drop (path.length-ext.length)).map asciiLower = ext.map asciiLower

def isVideoPath (path : List Char) : Bool :=
  pathHasExtension path ['.','m','p','4'] || pathHasExtension path ['.','m','4','v'] ||
    pathHasExtension path ['.','m','o','v'] || pathHasExtension path ['.','m','p','v']

def looksLikePath (path : Addr) (text : List Char) : Bool :=
  if path.toNat < 4096 then false
  else if text.head? = some '/' then true
  else 0 < text.length ∧ text.length < 4096 ∧ text.all fun c => 32 ≤ c.toNat ∧ c.toNat ≠ 127

def pathOffset : ℕ := 8
def bytesOffset : ℕ := 16
def lengthOffset : ℕ := 24
def loopsOffset : ℕ := 32

/-- `blob_set_path`; `copy` and `pendingCopy` are what `malloc` answers. -/
def blobSetPath (h : BlobHeap) (blob path copy pendingCopy : Addr) : Effects × BlobHeap :=
  if blob = 0 ∨ path = 0 ∨ copy = 0 then (.none,h)
  else
    let text := h.text path
    let effects : Effects := ⟨[(blob,pathOffset,8),(blob,bytesOffset,8),(blob,lengthOffset,8)],
      [h.word blob pathOffset,h.word blob bytesOffset]⟩
    let owning := h.copied copy text
    let h := ((owning.store blob pathOffset 8 copy).store blob bytesOffset 8 0).store blob lengthOffset 8 0
    if isVideoPath text then
      ({ effects with frees := effects.frees ++ [h.pending] },
        if pendingCopy = 0 then { h with pending := 0 } else { h.copied pendingCopy text with pending := pendingCopy })
    else (effects,h)

/-- `path` is what `object_path` finds for the argument. -/
def nsobjectInitWithUrl (h : BlobHeap) (self path copy pendingCopy : Addr) : Effects × BlobHeap :=
  if self = 0 ∨ path = 0 then (.none,h) else blobSetPath h self path copy pendingCopy

def nsobjectSetUrl (h : BlobHeap) (self path copy pendingCopy : Addr) : Effects × BlobHeap :=
  if path = 0 then (.none,h) else blobSetPath h self path copy pendingCopy

def nsobjectInitWithData (h : BlobHeap) (self source copy pendingCopy : Addr) : Effects × BlobHeap :=
  if self = 0 ∨ source = 0 then (.none,h)
  else
    let path := h.word source pathOffset
    if looksLikePath path (h.text path) then blobSetPath h self path copy pendingCopy
    else if h.word source bytesOffset ≠ 0 ∧ 0 < (h.word source lengthOffset).toNat then
      if copy = 0 then (.none,h)
      else
        let length := h.word source lengthOffset
        let owning : BlobHeap := { h with owned := h.owned ++ [copy] }
        (⟨[(self,pathOffset,8),(self,bytesOffset,8),(self,lengthOffset,8)],
          [h.word self bytesOffset,h.word self pathOffset]⟩,
          ((owning.store self pathOffset 8 0).store self bytesOffset 8 copy).store self lengthOffset 8 length)
    else (.none,h)

/-- The blob is a block of 64 bytes of its own, not one of `objc_alloc`. -/
def nsobjectDataWithBytes (h : BlobHeap) (cls bytes : Addr) (length : ℤ) (blob copy : Addr) : Effects × BlobHeap :=
  if cls = 0 ∨ bytes = 0 ∨ length ≤ 0 ∨ blob = 0 then (.none,h)
  else if copy = 0 then (⟨[],[blob]⟩,{ h with owned := h.owned ++ [blob] })
  else
    let h : BlobHeap := { h with
      size := Function.update h.size blob none
      mem := Function.update h.mem blob fun _ => 0
      owned := h.owned ++ [blob,copy] }
    (.none,((h.store blob 0 8 cls).store blob bytesOffset 8 copy).store blob lengthOffset 8 (BitVec.ofInt 64 length))

def nsobjectSetLoops (h : BlobHeap) (self : Addr) (loops : BitVec 64) : Effects × BlobHeap :=
  if self = 0 then (.none,h)
  else (⟨[(self,loopsOffset,4)],[]⟩,h.store self loopsOffset 4 (loops.setWidth 32))

/-- `property_slot`: the offset of the slot, if there is one. -/
def ClassGraph.propertySlot (G : ClassGraph) (h : BlobHeap) (object : Addr) (offset : ℤ) : Option ℕ :=
  if object = 0 ∨ offset < 0 then none
  else match ClassGraph.alignedInstanceSize (G.classRo (h.word object 0)) with
    | none => none
    | some size =>
      let unsignedOffset := offset.toNat
      if unsignedOffset > size ∨ 8 > size-unsignedOffset then none
      else if unsignedOffset > 2^64-1-object.toNat then none
      else if (object.toNat+unsignedOffset) % 8 ≠ 0 then none
      else some unsignedOffset

def ClassGraph.setProperty (G : ClassGraph) (h : BlobHeap) (object : Addr) (offset : ℤ) (value : BitVec 64) :
    Effects × BlobHeap :=
  match G.propertySlot h object offset with
  | none => (.none,h)
  | some slot => (⟨[(object,slot,8)],[]⟩,h.store object slot 8 value)

/-- `objc_alloc`; `object` is what `calloc` answers. -/
def ClassGraph.objcAlloc (G : ClassGraph) (h : BlobHeap) (cls object : Addr) : BlobHeap :=
  if cls = 0 ∨ object = 0 then h
  else
    let size := G.allocSize cls
    { h with
      size := Function.update h.size object (some size)
      mem := Function.update h.mem object
        (A64.store (fun a => if a.toNat < size then 0 else h.mem object a) 0 8 cls) }

end Machismo.Shim

/-! # Sequences of blob methods

Whether the methods stay inside the objects depends on the sizes in the guest's metadata and on what has
been stored where the methods expect their own pointers.
-/
namespace Machismo.Shim
open A64

inductive BlobCall where
  | alloc (cls object : Addr)
  | initWithUrl (self path copy pendingCopy : Addr)
  | setUrl (self path copy pendingCopy : Addr)
  | initWithData (self source copy pendingCopy : Addr)
  | dataWithBytes (cls bytes : Addr) (length : ℤ) (blob copy : Addr)
  | setLoops (self : Addr) (loops : BitVec 64)
  | setProperty (object : Addr) (offset : ℤ) (value : BitVec 64)
  /-- The guest's own code stores into one of its instance variables. -/
  | guestStore (object : Addr) (offset n : ℕ) (value : BitVec (8*n))

/-- A receiver is null or has been returned by `objc_alloc`; others are not followed. -/
def BlobHeap.follow (h : BlobHeap) (self : Addr) (r : Effects × BlobHeap) : Effects × BlobHeap :=
  if (h.size self).isSome then r else (.none,h)

namespace ClassGraph
variable (G : ClassGraph)

def blobCall (h : BlobHeap) : BlobCall → Effects × BlobHeap
  | .alloc cls object => (.none,G.objcAlloc h cls object)
  | .initWithUrl self path copy pendingCopy => h.follow self (nsobjectInitWithUrl h self path copy pendingCopy)
  | .setUrl self path copy pendingCopy => h.follow self (nsobjectSetUrl h self path copy pendingCopy)
  | .initWithData self source copy pendingCopy => h.follow self (nsobjectInitWithData h self source copy pendingCopy)
  | .dataWithBytes cls bytes length blob copy => nsobjectDataWithBytes h cls bytes length blob copy
  | .setLoops self loops => h.follow self (nsobjectSetLoops h self loops)
  | .setProperty object offset value => h.follow object (G.setProperty h object offset value)
  | .guestStore object offset n value => h.follow object (.none,h.store object offset n value)

end ClassGraph

/-- All writes are inside the objects; what is freed is null or from the methods' own allocations. -/
def SafeStep (h : BlobHeap) (r : Effects × BlobHeap) : Prop :=
  (∀ w ∈ r.1.writes, ∀ n, h.size w.1 = some n → w.2.1+w.2.2 ≤ n) ∧ ∀ p ∈ r.1.frees, p = 0 ∨ p ∈ r.2.owned

def SafeRun (G : ClassGraph) (h : BlobHeap) : List BlobCall → Prop
  | [] => True
  | c :: calls => SafeStep h (G.blobCall h c) ∧ SafeRun G (G.blobCall h c).2 calls

/-- A store leaves the object with a class no larger than it, and where it has room for the two pointers the
methods free, with values of theirs. -/
def KeepsFields (G : ClassGraph) (h : BlobHeap) (object : Addr) (offset n : ℕ) (value : BitVec (8*n)) : Prop :=
  ∀ size, h.size object = some size →
    (∀ m, ClassGraph.alignedInstanceSize (G.classRo ((h.store object offset n value).word object 0)) = some m →
      m ≤ size) ∧
    ∀ place, place = pathOffset ∨ place = bytesOffset → place+8 ≤ size →
      (h.store object offset n value).word object place = 0 ∨
        (h.store object offset n value).word object place ∈ h.owned

/-- The condition on a call in the state before it: the receiver has been allocated with room for what is
written, and stores that are not the methods' own keep the fields, and to their object. -/
def Meets (G : ClassGraph) (h : BlobHeap) : BlobCall → Prop
  | .initWithUrl self path copy _ => path = 0 ∨ copy = 0 ∨ ∀ n, h.size self = some n → 32 ≤ n
  | .setUrl self path copy _ => path = 0 ∨ copy = 0 ∨ ∀ n, h.size self = some n → 32 ≤ n
  | .initWithData self source copy _ => source = 0 ∨ copy = 0 ∨ ∀ n, h.size self = some n → 32 ≤ n
  | .setLoops self _ => ∀ n, h.size self = some n → 36 ≤ n
  | .setProperty object offset value =>
    ∀ slot, G.propertySlot h object offset = some slot → KeepsFields G h object slot 8 value
  | .guestStore object offset n value =>
    (∀ size, h.size object = some size → offset+n ≤ size) ∧ KeepsFields G h object offset n value
  | _ => True

def EachMeets (G : ClassGraph) (h : BlobHeap) : List BlobCall → Prop
  | [] => True
  | c :: calls => Meets G h c ∧ EachMeets G (G.blobCall h c).2 calls

/-- The invariant of the heap. -/
structure BlobInv (G : ClassGraph) (h : BlobHeap) : Prop where
  classFits : ∀ object n, h.size object = some n →
    ∀ m, ClassGraph.alignedInstanceSize (G.classRo (h.word object 0)) = some m → m ≤ n
  fields : ∀ object n, h.size object = some n → ∀ offset, offset = pathOffset ∨ offset = bytesOffset → offset+8 ≤ n →
    h.word object offset = 0 ∨ h.word object offset ∈ h.owned
  pending : h.pending = 0 ∨ h.pending ∈ h.owned

variable {G : ClassGraph} {h : BlobHeap}

section Words
variable {object other : Addr} {offset place n : ℕ}

theorem word_store_self (h : BlobHeap) (object : Addr) (offset : ℕ) (value : BitVec 64) :
    (h.store object offset 8 value).word object offset = value := by
  simp only [BlobHeap.store,BlobHeap.word,Function.update_self]
  exact load_store_same _ _ 8 value (by decide)

theorem word_store_other (h : BlobHeap) (value : BitVec (8*n)) (hne : other ≠ object) :
    (h.store object offset n value).word other place = h.word other place := by
  simp only [BlobHeap.store,BlobHeap.word,Function.update_of_ne hne]

theorem word_store_apart (h : BlobHeap) (object : Addr) (value : BitVec (8*n))
    (hapart : Apart (BitVec.ofNat 64 place) 8 (BitVec.ofNat 64 offset) n) :
    (h.store object offset n value).word object place = h.word object place := by
  simp only [BlobHeap.store,BlobHeap.word,Function.update_self]
  exact load_store_apart _ value hapart

end Words

theorem BlobInv.store (hinv : BlobInv G h) {object : Addr} {offset n : ℕ} {value : BitVec (8*n)}
    (hkeeps : KeepsFields G h object offset n value) : BlobInv G (h.store object offset n value) := by
  refine ⟨?_,?_,hinv.pending⟩
  · intro other size hsize m hm
    by_cases hother : other = object
    · subst hother
      exact (hkeeps size hsize).1 m hm
    · rw [word_store_other h value hother] at hm
      exact hinv.classFits other size hsize m hm
  · intro other size hsize place hplace hroom
    by_cases hother : other = object
    · subst hother
      exact (hkeeps size hsize).2 place hplace hroom
    · rw [word_store_other h value hother]
      exact hinv.fields other size hsize place hplace hroom

theorem BlobInv.own (hinv : BlobInv G h) (blocks : List Addr) (text : Addr → List Char) :
    BlobInv G { h with owned := h.owned ++ blocks, text := text } := by
  refine ⟨hinv.classFits,?_,?_⟩
  · intro object n hn offset hoffset hroom
    exact (hinv.fields object n hn offset hoffset hroom).imp_right (List.mem_append_left blocks)
  · exact hinv.pending.imp_right (List.mem_append_left blocks)

theorem keepsFields_apart (hinv : BlobInv G h) {object : Addr} {offset n : ℕ} {value : BitVec (8*n)}
    (hapart : ∀ place ∈ [0,pathOffset,bytesOffset], Apart (BitVec.ofNat 64 place) 8 (BitVec.ofNat 64 offset) n) :
    KeepsFields G h object offset n value := by
  intro size hsize
  refine ⟨fun m hm => ?_,fun place hplace hroom => ?_⟩
  · rw [word_store_apart h object value (hapart 0 (by decide))] at hm
    exact hinv.classFits object size hsize m hm
  · have hmem : place ∈ [0,pathOffset,bytesOffset] := by
      obtain rfl | rfl := hplace <;> decide
    rw [word_store_apart h object value (hapart place hmem)]
    exact hinv.fields object size hsize place hplace hroom

theorem keepsFields_pointer (hinv : BlobInv G h) {object : Addr} {offset : ℕ} {value : BitVec 64}
    (hoffset : offset = pathOffset ∨ offset = bytesOffset) (hvalue : value = 0 ∨ value ∈ h.owned) :
    KeepsFields G h object offset 8 value := by
  have hclass : Apart (BitVec.ofNat 64 0) 8 (BitVec.ofNat 64 offset) 8 := by
    obtain rfl | rfl := hoffset <;> decide
  intro size hsize
  refine ⟨fun m hm => ?_,fun place hplace hroom => ?_⟩
  · rw [word_store_apart h object value hclass] at hm
    exact hinv.classFits object size hsize m hm
  · by_cases hsame : place = offset
    · subst hsame
      rw [word_store_self]
      exact hvalue
    · have hapart : Apart (BitVec.ofNat 64 place) 8 (BitVec.ofNat 64 offset) 8 := by
        obtain rfl | rfl := hoffset <;> obtain rfl | rfl := hplace
        · exact absurd rfl hsame
        · decide
        · decide
        · exact absurd rfl hsame
      rw [word_store_apart h object value hapart]
      exact hinv.fields object size hsize place hplace hroom

theorem safeStep_quiet (h' : BlobHeap) : SafeStep h (.none,h') :=
  ⟨fun _ hw => absurd hw List.not_mem_nil,fun _ hp => absurd hp List.not_mem_nil⟩

theorem safe_none (hinv : BlobInv G h) : SafeStep h (.none,h) ∧ BlobInv G h := ⟨safeStep_quiet h,hinv⟩

/-- Three stores into the fields of a blob with room for them, and two pointers found there freed. -/
theorem fields_safe (hinv : BlobInv G h) {blob : Addr} {n : ℕ} (hsize : h.size blob = some n) (hroom : 32 ≤ n) :
    (∀ w ∈ [(blob,pathOffset,8),(blob,bytesOffset,8),(blob,lengthOffset,8)],
      ∀ k, h.size w.1 = some k → w.2.1+w.2.2 ≤ k) ∧
    (h.word blob pathOffset = 0 ∨ h.word blob pathOffset ∈ h.owned) ∧
    (h.word blob bytesOffset = 0 ∨ h.word blob bytesOffset ∈ h.owned) := by
  refine ⟨?_,?_,?_⟩
  · intro w hw k hk
    simp only [List.mem_cons,List.not_mem_nil,or_false] at hw
    obtain rfl | rfl | rfl := hw
    all_goals
      obtain rfl := Option.some.inj (hsize.symm.trans hk)
      simp only [pathOffset,bytesOffset,lengthOffset]
      omega
  · exact hinv.fields blob n hsize pathOffset (Or.inl rfl) (by simp only [pathOffset]; omega)
  · exact hinv.fields blob n hsize bytesOffset (Or.inr rfl) (by simp only [bytesOffset]; omega)

theorem BlobInv.storeFields (hinv : BlobInv G h) (blob : Addr) {path bytes : BitVec 64} (length : BitVec 64)
    (hpath : path = 0 ∨ path ∈ h.owned) (hbytes : bytes = 0 ∨ bytes ∈ h.owned) :
    BlobInv G (((h.store blob pathOffset 8 path).store blob bytesOffset 8 bytes).store blob lengthOffset 8 length) := by
  have hfirst : BlobInv G (h.store blob pathOffset 8 path) := hinv.store (keepsFields_pointer hinv (Or.inl rfl) hpath)
  have hsecond : BlobInv G ((h.store blob pathOffset 8 path).store blob bytesOffset 8 bytes) :=
    hfirst.store (keepsFields_pointer hfirst (Or.inr rfl) hbytes)
  exact hsecond.store (keepsFields_apart hsecond (by decide))

theorem blobSetPath_safe (hinv : BlobInv G h) {blob path copy pendingCopy : Addr} {n : ℕ} (hsize : h.size blob = some n)
    (hroom : path = 0 ∨ copy = 0 ∨ 32 ≤ n) :
    SafeStep h (blobSetPath h blob path copy pendingCopy) ∧ BlobInv G (blobSetPath h blob path copy pendingCopy).2 := by
  unfold blobSetPath
  split
  next => exact safe_none hinv
  next hgo =>
    rw [not_or,not_or] at hgo
    obtain ⟨hblob,hpath,hcopy⟩ := hgo
    have hroom : 32 ≤ n := (hroom.resolve_left hpath).resolve_left hcopy
    obtain ⟨hwrites,hpathOwned,hbytesOwned⟩ := fields_safe hinv hsize hroom
    have hown := hinv.own [copy] (Function.update h.text copy (h.text path))
    have hmem : copy ∈ h.owned ++ [copy] := List.mem_append_right _ (List.mem_singleton_self copy)
    have hstored := hown.storeFields blob 0 (Or.inr hmem) (Or.inl rfl)
    have hfrees : ∀ p ∈ [h.word blob pathOffset,h.word blob bytesOffset,h.pending], p = 0 ∨ p ∈ h.owned := by
      intro p hp
      simp only [List.mem_cons,List.not_mem_nil,or_false] at hp
      obtain rfl | rfl | rfl := hp
      · exact hpathOwned
      · exact hbytesOwned
      · exact hinv.pending
    dsimp only
    split
    next =>
      -- the pending path is freed as well, and replaced
      by_cases hpending : pendingCopy = 0
      · rw [if_pos hpending]
        refine ⟨⟨hwrites,?_⟩,hstored.classFits,hstored.fields,Or.inl rfl⟩
        intro p hp
        exact (hfrees p hp).imp_right (List.mem_append_left [copy])
      · rw [if_neg hpending]
        have hmore := hstored.own [pendingCopy]
          (Function.update (Function.update h.text copy (h.text path)) pendingCopy (h.text path))
        refine ⟨⟨hwrites,?_⟩,hmore.classFits,hmore.fields,Or.inr ?_⟩
        · intro p hp
          exact (hfrees p hp).imp_right fun hold => List.mem_append_left _ (List.mem_append_left _ hold)
        · exact List.mem_append_right _ (List.mem_singleton_self pendingCopy)
    next =>
      refine ⟨⟨hwrites,?_⟩,hstored⟩
      intro p hp
      exact (hfrees p (List.mem_append_left [h.pending] hp)).imp_right (List.mem_append_left [copy])

theorem initWithData_safe (hinv : BlobInv G h) {self source copy pendingCopy : Addr} {n : ℕ}
    (hsize : h.size self = some n) (hroom : source = 0 ∨ copy = 0 ∨ 32 ≤ n) :
    SafeStep h (nsobjectInitWithData h self source copy pendingCopy) ∧
      BlobInv G (nsobjectInitWithData h self source copy pendingCopy).2 := by
  unfold nsobjectInitWithData
  split
  next => exact safe_none hinv
  next hgo =>
    have hroom := hroom.resolve_left (not_or.mp hgo).2
    dsimp only
    split
    next => exact blobSetPath_safe hinv hsize (Or.inr hroom)
    next =>
      split
      next =>
        by_cases hcopy : copy = 0
        · rw [if_pos hcopy]
          exact safe_none hinv
        · rw [if_neg hcopy]
          obtain ⟨hwrites,hpathOwned,hbytesOwned⟩ := fields_safe hinv hsize (hroom.resolve_left hcopy)
          have hown := hinv.own [copy] h.text
          have hmem : copy ∈ h.owned ++ [copy] := List.mem_append_right _ (List.mem_singleton_self copy)
          refine ⟨⟨hwrites,?_⟩,hown.storeFields self _ (Or.inl rfl) (Or.inr hmem)⟩
          intro p hp
          simp only [List.mem_cons,List.not_mem_nil,or_false] at hp
          obtain rfl | rfl := hp
          · exact hbytesOwned.imp_right (List.mem_append_left [copy])
          · exact hpathOwned.imp_right (List.mem_append_left [copy])
      next => exact safe_none hinv

theorem dataBlock_spec (h : BlobHeap) (cls blob copy : Addr) (length : ℤ) :
    let h' := ((BlobHeap.store { h with
      size := Function.update h.size blob none
      mem := Function.update h.mem blob fun _ => 0
      owned := h.owned ++ [blob,copy] } blob 0 8 cls).store blob bytesOffset 8 copy).store blob lengthOffset 8
        (BitVec.ofInt 64 length)
    (∀ object n, h'.size object = some n → object ≠ blob ∧ h.size object = some n) ∧
      ∀ object, object ≠ blob → ∀ offset, h'.word object offset = h.word object offset := by
  refine ⟨fun object n hn => ?_,fun object hobject offset => ?_⟩
  · change Function.update h.size blob none object = some n at hn
    by_cases hobject : object = blob
    · rw [hobject,Function.update_self] at hn
      cases hn
    · rw [Function.update_of_ne hobject] at hn
      exact ⟨hobject,hn⟩
  · rw [word_store_other _ _ hobject,word_store_other _ _ hobject,word_store_other _ _ hobject]
    simp only [BlobHeap.word,Function.update_of_ne hobject]

theorem dataWithBytes_safe (hinv : BlobInv G h) (cls bytes : Addr) (length : ℤ) (blob copy : Addr) :
    SafeStep h (nsobjectDataWithBytes h cls bytes length blob copy) ∧
      BlobInv G (nsobjectDataWithBytes h cls bytes length blob copy).2 := by
  unfold nsobjectDataWithBytes
  split
  next => exact safe_none hinv
  next =>
    split
    next =>
      refine ⟨⟨fun _ hw => absurd hw List.not_mem_nil,?_⟩,hinv.own [blob] h.text⟩
      intro p hp
      rw [List.mem_singleton.mp hp]
      exact Or.inr (List.mem_append_right _ (List.mem_singleton_self blob))
    next =>
      refine ⟨safeStep_quiet _,?_⟩
      obtain ⟨hsize,hwords⟩ := dataBlock_spec h cls blob copy length
      refine ⟨?_,?_,hinv.pending.imp_right (List.mem_append_left [blob,copy])⟩
      · intro object n hn m hm
        obtain ⟨hobject,hn⟩ := hsize object n hn
        rw [hwords object hobject] at hm
        exact hinv.classFits object n hn m hm
      · intro object n hn offset hoffset hfits
        obtain ⟨hobject,hn⟩ := hsize object n hn
        rw [hwords object hobject]
        exact (hinv.fields object n hn offset hoffset hfits).imp_right (List.mem_append_left [blob,copy])

theorem setLoops_safe (hinv : BlobInv G h) {self : Addr} (loops : BitVec 64) {n : ℕ} (hsize : h.size self = some n)
    (hroom : 36 ≤ n) : SafeStep h (nsobjectSetLoops h self loops) ∧ BlobInv G (nsobjectSetLoops h self loops).2 := by
  unfold nsobjectSetLoops
  split
  next => exact safe_none hinv
  next =>
    refine ⟨⟨?_,fun _ hp => absurd hp List.not_mem_nil⟩,hinv.store (keepsFields_apart hinv (by decide))⟩
    intro w hw k hk
    rw [List.mem_singleton.mp hw] at hk ⊢
    obtain rfl := Option.some.inj (hsize.symm.trans hk)
    exact hroom

theorem propertySlot_fits (hinv : BlobInv G h) {object : Addr} {offset : ℤ} {slot : ℕ}
    (hslot : G.propertySlot h object offset = some slot) {n : ℕ} (hsize : h.size object = some n) : slot+8 ≤ n := by
  unfold ClassGraph.propertySlot at hslot
  split at hslot
  next => cases hslot
  next =>
    split at hslot
    next => cases hslot
    next m hm =>
      have hclass := hinv.classFits object n hsize m hm
      dsimp only at hslot
      split_ifs at hslot with hbig
      have heq := Option.some.inj hslot
      omega

theorem setProperty_safe (hinv : BlobInv G h) {object : Addr} {offset : ℤ} {value : BitVec 64} {n : ℕ}
    (hsize : h.size object = some n)
    (hmeets : ∀ slot, G.propertySlot h object offset = some slot → KeepsFields G h object slot 8 value) :
    SafeStep h (G.setProperty h object offset value) ∧ BlobInv G (G.setProperty h object offset value).2 := by
  unfold ClassGraph.setProperty
  cases hslot : G.propertySlot h object offset with
  | none => exact safe_none hinv
  | some slot =>
    have hfits := propertySlot_fits hinv hslot hsize
    refine ⟨⟨?_,fun _ hp => absurd hp List.not_mem_nil⟩,hinv.store (hmeets slot hslot)⟩
    intro w hw k hk
    rw [List.mem_singleton.mp hw] at hk ⊢
    obtain rfl := Option.some.inj (hsize.symm.trans hk)
    exact hfits

theorem load_zeros {m : Memory} {a : Addr} (hm : ∀ i < 8, m (a + BitVec.ofNat 64 i) = 0) : load m a 8 = 0 := by
  have hzero : load (fun _ => 0) a 8 = 0 := by
    apply BitVec.eq_of_getLsbD_eq
    intro i hi
    rw [getLsbD_load]
    simp
  rw [← hzero]
  exact load_congr fun i hi => hm i hi

theorem word_objcAlloc {cls object : Addr} (hgo : ¬(cls = 0 ∨ object = 0)) :
    (G.objcAlloc h cls object).word object 0 = cls ∧
    (∀ place, place = pathOffset ∨ place = bytesOffset → place+8 ≤ G.allocSize cls →
      (G.objcAlloc h cls object).word object place = 0) ∧
    ∀ other, other ≠ object → ∀ place, (G.objcAlloc h cls object).word other place = h.word other place := by
  rw [ClassGraph.objcAlloc,if_neg hgo]
  refine ⟨?_,fun place hplace hroom => ?_,fun other hother place => ?_⟩
  · simp only [BlobHeap.word,Function.update_self]
    exact load_store_same _ _ 8 cls (by decide)
  · have hapart : Apart (BitVec.ofNat 64 place) 8 0 8 := by
      obtain rfl | rfl := hplace <;> decide
    have hsmall : place ≤ 16 := by
      obtain rfl | rfl := hplace <;> decide
    have hzeros : load (fun a => if a.toNat < G.allocSize cls then 0 else h.mem object a)
        (BitVec.ofNat 64 place) 8 = 0 := by
      apply load_zeros
      intro i hi
      have hin : (BitVec.ofNat 64 place + BitVec.ofNat 64 i).toNat < G.allocSize cls := by
        simp only [BitVec.toNat_add,BitVec.toNat_ofNat]
        omega
      exact if_pos hin
    simp only [BlobHeap.word,Function.update_self]
    rw [load_store_apart (k := 8) _ cls hapart]
    exact hzeros
  · simp only [BlobHeap.word,Function.update_of_ne hother]

theorem size_objcAlloc {cls object : Addr} (hgo : ¬(cls = 0 ∨ object = 0)) :
    (G.objcAlloc h cls object).size = Function.update h.size object (some (G.allocSize cls)) := by
  rw [ClassGraph.objcAlloc,if_neg hgo]

theorem objcAlloc_inv (hinv : BlobInv G h) (cls object : Addr) : BlobInv G (G.objcAlloc h cls object) := by
  by_cases hgo : cls = 0 ∨ object = 0
  · rw [ClassGraph.objcAlloc,if_pos hgo]
    exact hinv
  · obtain ⟨hclass,hzero,hothers⟩ := word_objcAlloc (G := G) (h := h) hgo
    have hsize := size_objcAlloc (G := G) (h := h) hgo
    have hkeep : (G.objcAlloc h cls object).owned = h.owned ∧ (G.objcAlloc h cls object).pending = h.pending := by
      rw [ClassGraph.objcAlloc,if_neg hgo]
      exact ⟨rfl,rfl⟩
    refine ⟨?_,?_,by rw [hkeep.1,hkeep.2]; exact hinv.pending⟩
    · intro other n hn m hm
      rw [hsize] at hn
      by_cases hother : other = object
      · subst hother
        rw [Function.update_self] at hn
        obtain rfl := Option.some.inj hn
        rw [hclass] at hm
        rw [ClassGraph.allocSize,hm]
        exact le_max_left m 16
      · rw [Function.update_of_ne hother] at hn
        rw [hothers other hother] at hm
        exact hinv.classFits other n hn m hm
    · intro other n hn place hplace hroom
      rw [hsize] at hn
      by_cases hother : other = object
      · subst hother
        rw [Function.update_self] at hn
        obtain rfl := Option.some.inj hn
        exact Or.inl (hzero place hplace hroom)
      · rw [Function.update_of_ne hother] at hn
        rw [hothers other hother,hkeep.1]
        exact hinv.fields other n hn place hplace hroom

theorem follow_cases (P : Effects × BlobHeap → Prop) {self : Addr} {r : Effects × BlobHeap} (hnone : P (.none,h))
    (hr : ∀ n, h.size self = some n → P r) : P (h.follow self r) := by
  unfold BlobHeap.follow
  split
  next hsome =>
    obtain ⟨n,hn⟩ := Option.isSome_iff_exists.mp hsome
    exact hr n hn
  next => exact hnone

/-- One call that meets its condition is safe and keeps the invariant. -/
theorem blobCall_safe (hinv : BlobInv G h) (c : BlobCall) (hmeets : Meets G h c) :
    SafeStep h (G.blobCall h c) ∧ BlobInv G (G.blobCall h c).2 := by
  have hfollow : ∀ (self : Addr) (r : Effects × BlobHeap), (∀ n, h.size self = some n → SafeStep h r ∧ BlobInv G r.2) →
      SafeStep h (h.follow self r) ∧ BlobInv G (h.follow self r).2 := fun self r hr =>
    follow_cases (fun r => SafeStep h r ∧ BlobInv G r.2) (safe_none hinv) hr
  cases c with
  | alloc cls object =>
    exact ⟨safeStep_quiet _,objcAlloc_inv hinv cls object⟩
  | initWithUrl self path copy pendingCopy =>
    apply hfollow
    intro n hn
    unfold nsobjectInitWithUrl
    split
    next => exact safe_none hinv
    next => exact blobSetPath_safe hinv hn (hmeets.imp_right (Or.imp_right fun hroom => hroom n hn))
  | setUrl self path copy pendingCopy =>
    apply hfollow
    intro n hn
    unfold nsobjectSetUrl
    split
    next => exact safe_none hinv
    next => exact blobSetPath_safe hinv hn (hmeets.imp_right (Or.imp_right fun hroom => hroom n hn))
  | initWithData self source copy pendingCopy =>
    apply hfollow
    intro n hn
    exact initWithData_safe hinv hn (hmeets.imp_right (Or.imp_right fun hroom => hroom n hn))
  | dataWithBytes cls bytes length blob copy => exact dataWithBytes_safe hinv cls bytes length blob copy
  | setLoops self loops =>
    apply hfollow
    intro n hn
    exact setLoops_safe hinv loops hn (hmeets n hn)
  | setProperty object offset value =>
    apply hfollow
    intro n hn
    exact setProperty_safe hinv hn hmeets
  | guestStore object offset n value =>
    apply hfollow
    intro size hsize
    exact ⟨safeStep_quiet _,hinv.store hmeets.2⟩

theorem safeRun_of_eachMeets (hinv : BlobInv G h) {calls : List BlobCall} (hmeets : EachMeets G h calls) :
    SafeRun G h calls := by
  induction calls generalizing h with
  | nil => trivial
  | cons c calls ih =>
    obtain ⟨hsafe,hnext⟩ := blobCall_safe hinv c hmeets.1
    exact ⟨hsafe,ih hnext hmeets.2⟩

/-! ## Every sequence on a class -/

structure Fresh (h : BlobHeap) : Prop where
  size : ∀ object, h.size object = none
  owned : h.owned = []
  pending : h.pending = 0

theorem Fresh.inv (hfresh : Fresh h) : BlobInv G h := by
  refine ⟨?_,?_,Or.inl hfresh.pending⟩
  · intro object n hn
    rw [hfresh.size] at hn
    cases hn
  · intro object n hn
    rw [hfresh.size] at hn
    cases hn

/-- The objects are of one class, and the guest's code stores nothing itself. -/
def OnlyClass (cls : Addr) : BlobCall → Prop
  | .alloc cls' _ => cls' = cls
  | .guestStore _ _ _ _ => False
  | _ => True

/-- The objects that are left are as large as before and of the same classes. -/
def SameClasses (h h' : BlobHeap) : Prop :=
  ∀ object n, h'.size object = some n → h.size object = some n ∧ h'.word object 0 = h.word object 0

theorem SameClasses.refl (h : BlobHeap) : SameClasses h h := fun _ _ hn => ⟨hn,rfl⟩

theorem SameClasses.store {h h' : BlobHeap} (hsame : SameClasses h h') (object : Addr) {offset n : ℕ}
    (value : BitVec (8*n)) (hapart : Apart (BitVec.ofNat 64 0) 8 (BitVec.ofNat 64 offset) n) :
    SameClasses h (h'.store object offset n value) := by
  intro other size hn
  obtain ⟨hsize,hword⟩ := hsame other size hn
  refine ⟨hsize,?_⟩
  rw [← hword]
  by_cases hother : other = object
  · subst hother
    exact word_store_apart h' other value hapart
  · exact word_store_other h' value hother

theorem SameClasses.storeFields {h h' : BlobHeap} (hsame : SameClasses h h') (blob : Addr)
    (path bytes length : BitVec 64) : SameClasses h
      (((h'.store blob pathOffset 8 path).store blob bytesOffset 8 bytes).store blob lengthOffset 8 length) :=
  ((hsame.store blob (n := 8) path (by decide)).store blob (n := 8) bytes (by decide)).store blob (n := 8) length
    (by decide)

theorem blobSetPath_sameClasses (h : BlobHeap) (blob path copy pendingCopy : Addr) :
    SameClasses h (blobSetPath h blob path copy pendingCopy).2 := by
  have hcopied : SameClasses h (h.copied copy (h.text path)) := SameClasses.refl h
  have hstored := hcopied.storeFields blob copy 0 0
  unfold blobSetPath
  split
  next => exact SameClasses.refl h
  next =>
    dsimp only
    split
    next =>
      by_cases hpending : pendingCopy = 0
      · rw [if_pos hpending]
        exact hstored
      · rw [if_neg hpending]
        exact hstored
    next => exact hstored

theorem initWithData_sameClasses (h : BlobHeap) (self source copy pendingCopy : Addr) :
    SameClasses h (nsobjectInitWithData h self source copy pendingCopy).2 := by
  unfold nsobjectInitWithData
  split
  next => exact SameClasses.refl h
  next =>
    dsimp only
    split
    next => exact blobSetPath_sameClasses h self _ copy pendingCopy
    next =>
      split
      next =>
        by_cases hcopy : copy = 0
        · rw [if_pos hcopy]
          exact SameClasses.refl h
        · rw [if_neg hcopy]
          have hown : SameClasses h { h with owned := h.owned ++ [copy] } := SameClasses.refl h
          exact hown.storeFields self 0 copy _
      next => exact SameClasses.refl h

theorem dataWithBytes_sameClasses (h : BlobHeap) (cls bytes : Addr) (length : ℤ) (blob copy : Addr) :
    SameClasses h (nsobjectDataWithBytes h cls bytes length blob copy).2 := by
  unfold nsobjectDataWithBytes
  split
  next => exact SameClasses.refl h
  next =>
    split
    next => exact SameClasses.refl h
    next =>
      obtain ⟨hsize,hwords⟩ := dataBlock_spec h cls blob copy length
      intro object n hn
      obtain ⟨hobject,hn⟩ := hsize object n hn
      exact ⟨hn,hwords object hobject 0⟩

theorem setProperty_sameClasses {h : BlobHeap} {object : Addr} (hcls : G.classRo (h.word object 0) = none)
    (offset : ℤ) (value : BitVec 64) : SameClasses h (G.setProperty h object offset value).2 := by
  have hslot : G.propertySlot h object offset = none := by
    unfold ClassGraph.propertySlot
    rw [hcls]
    split <;> rfl
  rw [ClassGraph.setProperty,hslot]
  exact SameClasses.refl h

theorem blobCall_sameClasses (h : BlobHeap) {c : BlobCall} {cls : Addr} (hc : OnlyClass cls c)
    (hcls : G.classRo cls = none) (hall : ∀ object n, h.size object = some n → h.word object 0 = cls)
    (halloc : ∀ object, c ≠ .alloc cls object) : SameClasses h (G.blobCall h c).2 := by
  have hfollow : ∀ (self : Addr) (r : Effects × BlobHeap), (∀ n, h.size self = some n → SameClasses h r.2) →
      SameClasses h (h.follow self r).2 := fun self r hr =>
    follow_cases (fun r => SameClasses h r.2) (SameClasses.refl h) hr
  cases c with
  | alloc cls' object => exact absurd (congrArg (BlobCall.alloc · object) hc) (halloc object)
  | initWithUrl self path copy pendingCopy =>
    apply hfollow
    intro n hn
    unfold nsobjectInitWithUrl
    split
    next => exact SameClasses.refl h
    next => exact blobSetPath_sameClasses h self path copy pendingCopy
  | setUrl self path copy pendingCopy =>
    apply hfollow
    intro n hn
    unfold nsobjectSetUrl
    split
    next => exact SameClasses.refl h
    next => exact blobSetPath_sameClasses h self path copy pendingCopy
  | initWithData self source copy pendingCopy =>
    exact hfollow self _ fun n hn => initWithData_sameClasses h self source copy pendingCopy
  | dataWithBytes cls' bytes length blob copy => exact dataWithBytes_sameClasses h cls' bytes length blob copy
  | setLoops self loops =>
    apply hfollow
    intro n hn
    unfold nsobjectSetLoops
    split
    next => exact SameClasses.refl h
    next => exact (SameClasses.refl h).store self (n := 4) _ (by decide)
  | setProperty object offset value =>
    exact hfollow object _ fun n hn => setProperty_sameClasses (hall object n hn ▸ hcls) offset value
  | guestStore object offset n value => exact hc.elim

/-- The objects are of the class, and have the 64 bytes of a class without metadata. -/
def AllOf (cls : Addr) (h : BlobHeap) : Prop := ∀ object n, h.size object = some n → h.word object 0 = cls ∧ n = 64

theorem objcAlloc_allOf {cls : Addr} (hcls : G.classRo cls = none) (hall : AllOf cls h) (object : Addr) :
    AllOf cls (G.objcAlloc h cls object) := by
  by_cases hgo : cls = 0 ∨ object = 0
  · rw [ClassGraph.objcAlloc,if_pos hgo]
    exact hall
  · obtain ⟨hclass,-,hothers⟩ := word_objcAlloc (G := G) (h := h) hgo
    intro other n hn
    rw [size_objcAlloc hgo] at hn
    by_cases hother : other = object
    · subst hother
      rw [Function.update_self] at hn
      obtain rfl := Option.some.inj hn
      refine ⟨hclass,?_⟩
      rw [ClassGraph.allocSize,hcls]
      rfl
    · rw [Function.update_of_ne hother] at hn
      rw [hothers other hother]
      exact hall other n hn

theorem blobCall_allOf {cls : Addr} (hcls : G.classRo cls = none) (hall : AllOf cls h) {c : BlobCall}
    (hc : OnlyClass cls c) : AllOf cls (G.blobCall h c).2 := by
  by_cases halloc : ∃ object, c = .alloc cls object
  · obtain ⟨object,rfl⟩ := halloc
    exact objcAlloc_allOf hcls hall object
  · have hsame := blobCall_sameClasses h hc hcls (fun object n hn => (hall object n hn).1)
      (fun object h => halloc ⟨object,h⟩)
    intro object n hn
    obtain ⟨hsize,hword⟩ := hsame object n hn
    rw [hword]
    exact hall object n hsize

/-- On objects of 64 bytes, without slots for properties, every call meets its condition. -/
theorem meets_of_allOf {cls : Addr} (hcls : G.classRo cls = none) (hall : AllOf cls h) {c : BlobCall}
    (hc : OnlyClass cls c) : Meets G h c := by
  have hsize : ∀ object n, h.size object = some n → 36 ≤ n := by
    intro object n hn
    rw [(hall object n hn).2]
    decide
  cases c with
  | alloc cls' object => trivial
  | initWithUrl self path copy pendingCopy =>
    exact Or.inr (Or.inr fun n hn => Nat.le_trans (by decide) (hsize self n hn))
  | setUrl self path copy pendingCopy =>
    exact Or.inr (Or.inr fun n hn => Nat.le_trans (by decide) (hsize self n hn))
  | initWithData self source copy pendingCopy =>
    exact Or.inr (Or.inr fun n hn => Nat.le_trans (by decide) (hsize self n hn))
  | dataWithBytes cls' bytes length blob copy => trivial
  | setLoops self loops => exact hsize self
  | setProperty object offset value =>
    intro slot hslot n hn
    unfold ClassGraph.propertySlot at hslot
    rw [(hall object n hn).1,hcls] at hslot
    split at hslot <;> cases hslot
  | guestStore object offset n value => exact hc.elim

theorem eachMeets_of_allOf {cls : Addr} (hcls : G.classRo cls = none) (hall : AllOf cls h) {calls : List BlobCall}
    (hcalls : ∀ c ∈ calls, OnlyClass cls c) : EachMeets G h calls := by
  induction calls generalizing h with
  | nil => trivial
  | cons c calls ih =>
    have hc := hcalls c List.mem_cons_self
    exact ⟨meets_of_allOf hcls hall hc,
      ih (blobCall_allOf hcls hall hc) fun d hd => hcalls d (List.mem_cons_of_mem c hd)⟩

/-- Every sequence of the methods on objects of the class is safe. -/
def ClassSafe (G : ClassGraph) (cls : Addr) : Prop :=
  ∀ h, Fresh h → ∀ calls, (∀ c ∈ calls, OnlyClass cls c) → SafeRun G h calls

section Unsafe

def emptyHeap : BlobHeap := ⟨fun _ => none,fun _ _ => 0,fun _ => [],[],0⟩

theorem fresh_emptyHeap : Fresh emptyHeap := ⟨fun _ => rfl,rfl,rfl⟩

theorem alloc_emptyHeap {cls : Addr} (hcls : cls ≠ 0) :
    (G.objcAlloc emptyHeap cls 4096).size 4096 = some (G.allocSize cls) ∧
      (G.objcAlloc emptyHeap cls 4096).word 4096 0 = cls ∧ (G.objcAlloc emptyHeap cls 4096).text = emptyHeap.text ∧
      (G.objcAlloc emptyHeap cls 4096).owned = [] := by
  have hgo : ¬(cls = 0 ∨ (4096 : Addr) = 0) := not_or.mpr ⟨hcls,by decide⟩
  have hsize := size_objcAlloc (G := G) (h := emptyHeap) hgo
  have hkeep : (G.objcAlloc emptyHeap cls 4096).text = emptyHeap.text ∧
      (G.objcAlloc emptyHeap cls 4096).owned = [] := by
    rw [ClassGraph.objcAlloc,if_neg hgo]
    exact ⟨rfl,rfl⟩
  exact ⟨by rw [hsize,Function.update_self],(word_objcAlloc hgo).1,hkeep⟩

theorem follow_sized {self : Addr} {n : ℕ} (hn : h.size self = some n) (r : Effects × BlobHeap) :
    h.follow self r = r := by
  rw [BlobHeap.follow,hn]
  rfl

theorem blobCall_setProperty {object : Addr} {offset : ℤ} {value : BitVec 64} {n slot : ℕ} (hn : h.size object = some n)
    (hslot : G.propertySlot h object offset = some slot) :
    (G.blobCall h (.setProperty object offset value)).2 = h.store object slot 8 value := by
  change (h.follow object _).2 = _
  rw [follow_sized hn,ClassGraph.setProperty,hslot]

theorem not_safeStep_foreign {self : Addr} {n : ℕ} (hself : self ≠ 0) (hn : h.size self = some n)
    (hword : h.word self pathOffset = 1) (htext : h.text 8192 = []) (howned : h.owned = []) :
    ¬SafeStep h (G.blobCall h (.initWithUrl self 8192 12288 0)) := by
  rintro ⟨-,hfrees⟩
  change ∀ p ∈ (h.follow self _).1.frees, p = 0 ∨ p ∈ (h.follow self _).2.owned at hfrees
  have hgo : ¬(self = 0 ∨ (8192 : Addr) = 0) := not_or.mpr ⟨hself,by decide⟩
  have hgo' : ¬(self = 0 ∨ (8192 : Addr) = 0 ∨ (12288 : Addr) = 0) := not_or.mpr ⟨hself,by decide⟩
  have hvideo : isVideoPath (h.text 8192) = false := by
    rw [htext]
    rfl
  rw [follow_sized hn,nsobjectInitWithUrl,if_neg hgo,blobSetPath,if_neg hgo'] at hfrees
  simp only [hvideo,hword] at hfrees
  have hin := hfrees 1 List.mem_cons_self
  change (1 : Addr) = 0 ∨ (1 : Addr) ∈ h.owned ++ [12288] at hin
  rw [howned] at hin
  exact absurd hin (by decide)

/-- A class with metadata has objects too small for a method, or a slot where a method finds its path. -/
theorem not_classSafe {cls : Addr} {ro : ClassRo} (hcls : G.classRo cls = some ro) : ¬ClassSafe G cls := by
  intro hsafe
  have hne : cls ≠ 0 := by
    rintro rfl
    cases hcls
  obtain ⟨hsize,hword,htext,howned⟩ := alloc_emptyHeap (G := G) hne
  by_cases hsmall : G.allocSize cls < 36
  · have hrun := hsafe emptyHeap fresh_emptyHeap [.alloc cls 4096,.setLoops 4096 0] (by
      intro c hc
      simp only [List.mem_cons,List.not_mem_nil,or_false] at hc
      obtain rfl | rfl := hc
      · exact rfl
      · exact trivial)
    obtain ⟨-,⟨hwrites,-⟩,-⟩ := hrun
    change ∀ w ∈ ((G.objcAlloc emptyHeap cls 4096).follow 4096 _).1.writes, _ at hwrites
    rw [follow_sized hsize] at hwrites
    have hin := hwrites (4096,loopsOffset,4) (List.mem_singleton_self _) _ hsize
    exact absurd hin (Nat.not_le.mpr hsmall)
  · obtain ⟨m,hm⟩ : ∃ m, ClassGraph.alignedInstanceSize (G.classRo cls) = some m := by
      rw [hcls]
      exact ⟨_,rfl⟩
    have hlarge : 36 ≤ m := by
      rw [ClassGraph.allocSize,hm,Option.getD_some] at hsmall
      omega
    have hslot : G.propertySlot (G.objcAlloc emptyHeap cls 4096) 4096 8 = some 8 := by
      unfold ClassGraph.propertySlot
      rw [if_neg (by decide),hword,hm]
      dsimp only
      rw [if_neg (by norm_num; omega),if_neg (by decide),if_neg (by decide)]
      rfl
    have hrun := hsafe emptyHeap fresh_emptyHeap
      [.alloc cls 4096,.setProperty 4096 8 1,.initWithUrl 4096 8192 12288 0] (by
        intro c hc
        simp only [List.mem_cons,List.not_mem_nil,or_false] at hc
        obtain rfl | rfl | rfl := hc
        · exact rfl
        · exact trivial
        · exact trivial)
    obtain ⟨-,-,hstep,-⟩ := hrun
    rw [show (G.blobCall emptyHeap (.alloc cls 4096)).2 = G.objcAlloc emptyHeap cls 4096 from rfl,
      blobCall_setProperty hsize hslot] at hstep
    exact not_safeStep_foreign (h := (G.objcAlloc emptyHeap cls 4096).store 4096 8 8 1) (by decide) hsize
      (word_store_self _ 4096 8 1) (congrFun htext 8192) howned hstep

end Unsafe

/-- A run is safe in which every call meets its condition; and a class has only safe runs just when it has no
metadata. -/
theorem safeRun_and_classSafe_iff (G : ClassGraph) :
    (∀ h, Fresh h → ∀ calls, EachMeets G h calls → SafeRun G h calls) ∧
    ∀ cls, ClassSafe G cls ↔ G.classRo cls = none := by
  refine ⟨fun h hfresh calls hmeets => safeRun_of_eachMeets hfresh.inv hmeets,?_⟩
  intro cls
  constructor
  · intro hsafe
    cases hcls : G.classRo cls with
    | none => rfl
    | some ro => exact absurd hsafe (not_classSafe hcls)
  · intro hcls h hfresh calls hcalls
    refine safeRun_of_eachMeets hfresh.inv (eachMeets_of_allOf hcls ?_ hcalls)
    intro object n hn
    rw [hfresh.size] at hn
    cases hn

/-- A class without metadata, as the imported ones are. -/
def blankClass : ClassGraph where
  isa := fun _ => 256
  dataBits := fun _ => 0
  roAt := fun _ => nsobjectClassRo

theorem safeRun_blankClass :
    SafeRun blankClass emptyHeap [.alloc 256 4096,.initWithUrl 4096 8192 12288 0,.setLoops 4096 3] ∧
      ClassSafe blankClass 256 := by
  refine ⟨(safeRun_and_classSafe_iff blankClass).1 emptyHeap fresh_emptyHeap _ ⟨trivial,?_,?_,trivial⟩,
    ((safeRun_and_classSafe_iff blankClass).2 256).mpr rfl⟩
  · refine Or.inr (Or.inr fun n hn => ?_)
    obtain rfl : 64 = n := Option.some.inj hn
    decide
  · intro n hn
    obtain rfl : 64 = n := Option.some.inj hn
    decide

/-- The shim's own class at 192: an object of it has sixteen bytes. -/
def smallClass : ClassGraph where
  isa := fun _ => 192
  dataBits := fun a => a
  roAt := fun _ => nsobjectClassRo

/-- `setNumberOfLoops:` writes sixteen bytes behind the object. -/
theorem not_safeRun_setLoops : ¬SafeRun smallClass emptyHeap [.alloc 192 4096,.setLoops 4096 3] := by
  rintro ⟨-,⟨hwrites,-⟩,-⟩
  exact absurd (hwrites (4096,32,4) (by decide) 16 (by decide)) (by decide)

end Machismo.Shim
