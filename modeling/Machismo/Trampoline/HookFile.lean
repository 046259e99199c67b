import Machismo.Trampoline.Island

/-! # The file of address hooks

A line names an address, a library, a symbol of it, and the bytes expected at the address, in hex.
Comments start with `#`, empty lines are skipped, and any other line spoils the whole file.
-/
namespace Machismo.Trampoline
open A64

/-- A hook as the file gives it. At least the four bytes that a branch overwrites are expected. -/
structure AddressHook where
  vmaddr : Addr
  libPath : Name
  symbol : Name
  expected : List Byte
  fourBytes : 4 ≤ expected.length

def hexNibble (c : Char) : Option ℕ :=
  if '0' ≤ c ∧ c ≤ '9' then some (c.toNat - '0'.toNat)
  else if 'a' ≤ c.toLower ∧ c.toLower ≤ 'f' then some (c.toLower.toNat - 'a'.toNat + 10)
  else none

def hexBytes : List Char → Option (List Byte)
  | [] => some []
  | [_] => none
  | hi :: lo :: t => do
    let high ← hexNibble hi
    let low ← hexNibble lo
    let rest ← hexBytes t
    return BitVec.ofNat 8 (16*high + low) :: rest

theorem length_hexBytes : ∀ {text : List Char} {l : List Byte}, hexBytes text = some l → 2*l.length = text.length
  | [], l, h => by
    cases h
    rfl
  | [_], l, h => by cases h
  | hi :: lo :: t, l, h => by
    simp only [hexBytes, Option.bind_eq_bind, Option.pure_def, Option.bind_eq_some_iff, Option.some.injEq] at h
    obtain ⟨high,-,low,-,rest,hrest,rfl⟩ := h
    have hl := length_hexBytes hrest
    simp only [List.length_cons]
    omega

def parseExpectedBytes (text : List Char) : Option { l : List Byte // 4 ≤ l.length } :=
  if h8 : 8 ≤ text.length then
    match h : hexBytes text with
    | some l => some ⟨l,by
        have hl := length_hexBytes h
        omega⟩
    | none => none
  else none

def isSpace (c : Char) : Bool := c ∈ [' ','\t','\n','\x0b','\x0c','\r']

/-- `strtoull` with base 16, where the whole string must be a number that fits. -/
def strtoull16 (s : List Char) : Option (BitVec 64) :=
  let s := s.dropWhile isSpace
  let neg := s.head? = some '-'
  let s := if neg ∨ s.head? = some '+' then s.drop 1 else s
  let s := match s with
    | '0' :: x :: c :: t => if (x = 'x' ∨ x = 'X') ∧ (hexNibble c).isSome then c :: t else s
    | _ => s
  match s.mapM hexNibble with
  | none => none
  | some [] => none
  | some (d :: l) =>
    let v := (d :: l).foldl (fun v d => 16*v + d) 0
    if 2^64 ≤ v then none else some (if neg then -BitVec.ofNat 64 v else BitVec.ofNat 64 v)

/-- The non-empty stretches between separators, as `strtok_r` finds them. -/
def fieldsFrom (sep : Char → Bool) (field : List Char) : List Char → List (List Char)
  | [] => if field = [] then [] else [field.reverse]
  | c :: s =>
    if sep c then
      if field = [] then fieldsFrom sep [] s else field.reverse :: fieldsFrom sep [] s
    else fieldsFrom sep (c :: field) s

/-- A line: a hook, nothing, or an error. -/
def parseAddressHookLine (line : List Char) : Option (Option AddressHook) :=
  let text := (line.takeWhile (· ≠ '\x00')).takeWhile (· ≠ '#')
  match fieldsFrom (· ∈ [' ','\t','\r','\n']) [] text with
  | [] => some none
  | [address,libPath,symbol,expected] =>
    match strtoull16 address, parseExpectedBytes expected with
    | some vmaddr, some ⟨bytes,h⟩ => some (some ⟨vmaddr,libPath,symbol,bytes,h⟩)
    | _, _ => none
  | _ => none

/-- The hooks of a file, `none` if it cannot be read, has a bad line or has no hook. -/
def loadAddressHooks (file : Option (List Char)) : Option (List AddressHook) := do
  let text ← file
  let lines ← (fieldsFrom (· = '\n') [] text).mapM parseAddressHookLine
  match lines.filterMap id with
  | [] => none
  | hook :: l => some (hook :: l)

end Machismo.Trampoline
