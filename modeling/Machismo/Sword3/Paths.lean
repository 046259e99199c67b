import Machismo.Data.Path
import Machismo.Data.TextBuffer

/-! # Absolute paths and paths below a root

`normalize_absolute` and `join_relative` build their result in a block from `malloc`,
whose first content is left open.  A string is what stands before the first null
character; a write outside a block has no result, which is not the same as a call that
returns `-1`.
-/
namespace Machismo.Sword3Paths
open Machismo.Data Machismo.Data.TextBuffer
open Machismo.Data.Path (Name dot dotdot)

def sizeMax : ℕ := 2^64-1

def nul : Char := Char.ofNat 0

/-- A string of C, without the null character that ends it. -/
structure CString where
  chars : List Char
  terminated : nul ∉ chars

/-- What the calls of the allocator answer: a block of the size that was asked for, or nothing. -/
structure Memory where
  strdup : Bool
  malloc : ℕ → Option (List Char)
  size : ∀ n block, malloc n = some block → block.length = n

inductive Errno where
  | einval | enametoolong | enomem | eperm
deriving DecidableEq, Repr

/-- The string at the front of a block. -/
def cstring (block : List Char) : List Char := upTo nul block

/-- `if (length > 1) out[length++] = '/'` -/
def separate (state : List Char × ℕ) : Option (List Char × ℕ) :=
  if 1 < state.2 then (store state.1 state.2 '/').map fun out => (out,state.2+1) else some state

section Normalize

/-- `strtok_r` with the delimiter `/`: the next token and what is left behind it. -/
def strtok (s : List Char) : Option (Name × List Char) :=
  let s := s.dropWhile (· == '/')
  if s = [] then none else some (s.takeWhile (· != '/'),(s.dropWhile (· != '/')).drop 1)

theorem strtok_shorter {s rest : List Char} {part : Name} (h : strtok s = some (part,rest)) :
    rest.length < s.length := by
  unfold strtok at h
  dsimp only at h
  split at h
  · simp at h
  · rename_i hne
    obtain ⟨-,rfl⟩ := Prod.mk.inj (Option.some.inj h)
    have hpos : 0 < (s.dropWhile (· == '/')).length := List.length_pos_iff.mpr hne
    have hle := List.length_dropWhile_le (· == '/') s
    have hle' := List.length_dropWhile_le (· != '/') (s.dropWhile (· == '/'))
    have hfirst : (s.dropWhile (· == '/')).head hne ≠ '/' := by
      have := List.head_dropWhile_not (· == '/') (l := s) hne
      simpa using this
    rw [List.length_drop]
    omega

def parts (s : List Char) : List Name :=
  match _ : strtok s with
  | none => []
  | some (part,rest) => part :: parts rest
termination_by s.length
decreasing_by exact strtok_shorter ‹_›

/-- `while (length > 1 && out[length - 1] != '/') length--` -/
def backUp (out : List Char) : ℕ → Option ℕ
  | 0 => some 0
  | length+1 =>
    if 1 < length+1 then
      match out[length]? with
      | none => none
      | some c => if c ≠ '/' then backUp out length else some (length+1)
    else some (length+1)

/-- One round of the loop. -/
def appendPart (state : List Char × ℕ) (part : Name) : Option (List Char × ℕ) := do
  let (out,length) := state
  if part = dot ∨ part = [] then some (out,length)
  else if part = dotdot then
    if 1 < length then
      let length ← backUp out length
      let length := if 1 < length then length-1 else length
      let out ← store out length nul
      some (out,length)
    else some (out,length)
  else
    let (out,length) ← separate (out,length)
    let out ← storeAll out length part
    let out ← store out (length+part.length) nul
    some (out,length+part.length)

/-- `normalize_absolute`: an error, or the block the result is in. -/
def normalizeAbsolute (mem : Memory) (path : Option CString) (result : Bool) :
    Option (Except Errno (List Char)) :=
  match path with
  | none => some (.error .einval)
  | some path =>
    if path.chars.head? ≠ some '/' ∨ result = false then some (.error .einval)
    else if sizeMax-2 < path.chars.length then some (.error .enametoolong)
    else
      match mem.strdup,mem.malloc (path.chars.length+2) with
      | true,some out => do
        let out ← store out 0 '/'
        let out ← store out 1 nul
        let (out,_) ← (parts path.chars).foldlM appendPart (out,1)
        some (.ok out)
      | _,_ => some (.error .enomem)

end Normalize

section Join

/-- What a cursor that goes from `strchr` to `strchr` sees. -/
def pieces (s : List Char) : List Name :=
  if _ : s = [] then []
  else s.takeWhile (· != '/') :: pieces ((s.dropWhile (· != '/')).drop 1)
termination_by s.length
decreasing_by
  have hle := List.length_dropWhile_le (· != '/') s
  have hpos := List.length_pos_iff.mpr ‹¬s = []›
  rw [List.length_drop]
  omega

/-- One round of the second loop. -/
def joinPiece (state : List Char × ℕ) (piece : Name) : Option (List Char × ℕ) := do
  let (joined,used) := state
  if piece ≠ [] ∧ piece ≠ dot then
    let (joined,used) ← separate (joined,used)
    let joined ← storeAll joined used piece
    some (joined,used+piece.length)
  else some (joined,used)

def joinRelative (mem : Memory) (root relative : Option CString) (result : Bool) :
    Option (Except Errno (List Char)) :=
  match root,relative with
  | some root,some relative =>
    if result = false ∨ relative.chars.head? = some '/' then some (.error .einval)
    else if (pieces relative.chars).contains dotdot then some (.error .eperm)
    else if sizeMax-2 < relative.chars.length ∨ sizeMax-relative.chars.length-2 < root.chars.length then
      some (.error .enametoolong)
    else
      match mem.malloc (root.chars.length+relative.chars.length+2) with
      | none => some (.error .enomem)
      | some joined => do
        let joined ← storeAll joined 0 root.chars
        let (joined,used) ← (pieces relative.chars).foldlM joinPiece (joined,root.chars.length)
        let joined ← store joined used nul
        some (.ok joined)
  | _,_ => some (.error .einval)

structure Directories where
  bundleDir : Option CString
  dataDir : Option CString

def resource (mem : Memory) (paths : Option Directories) (relative : Option CString) (result : Bool) :
    Option (Except Errno (List Char)) :=
  match paths with
  | some ⟨some bundle,_⟩ => joinRelative mem (some bundle) relative result
  | _ => some (.error .einval)

def data (mem : Memory) (paths : Option Directories) (relative : Option CString) (result : Bool) :
    Option (Except Errno (List Char)) :=
  match paths with
  | some ⟨_,some directory⟩ => joinRelative mem (some directory) relative result
  | _ => some (.error .einval)

end Join

end Machismo.Sword3Paths
