import Machismo.Data.Occurrence
import Machismo.Data.TextBuffer

/-! # Components of a string

`componentsSeparatedByString:` of the string proxies goes over the string twice: first it counts the
separators, then it fills an array of that size. Both go from one `strstr` to the next.
-/
namespace Machismo.Shim.StringComponents
open Machismo.Data.Occurrence Machismo.Data.TextBuffer

/-- What a string argument may be: nothing, one of the proxies, or a constant string of the guest. -/
inductive Object where
  | nil
  | proxyString (value : Option (List Char))
  | constant (bytes : Option (List Char)) (length : BitVec 64)

def sizeMax : BitVec 64 := -1

def objectCstring : Object → List Char
  | .nil => []
  | .proxyString value => value.getD []
  | .constant bytes length => if length.ult sizeMax then bytes.getD [] else []

/-- An array whose places hold the strings put there, or nothing as `calloc` leaves them. -/
structure ProxyArray where
  items : List (Option (List Char))
  count : ℕ
  deriving DecidableEq

def makeProxyArray (count : ℕ) : ProxyArray := ⟨List.replicate count none,count⟩

/-- The first loop, in at most the given number of rounds. -/
def countFrom (separator : List Char) : ℕ → List Char → ℕ → ℕ
  | 0, _, count => count
  | fuel + 1, cursor, count =>
    match find separator cursor with
    | none => count
    | some next => countFrom separator fuel (cursor.drop (next+separator.length)) (count+1)

/-- The second loop, with so many places to go; a store outside of the array has no result. -/
def splitFrom (separator : List Char) :
    ℕ → List Char → ℕ → List (Option (List Char)) → Option (ℕ × List (Option (List Char)))
  | 0, _, index, items => some (index,items)
  | left + 1, cursor, index, items =>
    match find separator cursor with
    | none => (store items index (some cursor)).map fun items => (index+1,items)
    | some next => (store items index (some (cursor.take next))).bind fun items =>
        splitFrom separator left (cursor.drop (next+separator.length)) (index+1) items

/-- `proxy_string_components`, where no allocation fails. -/
def proxyStringComponents (self separatorObject : Object) : Option ProxyArray :=
  let value := objectCstring self
  let separator := objectCstring separatorObject
  if separator = [] then some ⟨[some value],1⟩
  else
    let count := countFrom separator (value.length+1) value 1
    (splitFrom separator count value 0 (makeProxyArray count).items).map fun (index,items) => ⟨items,index⟩

theorem store_next (filled : List (List Char)) (n : ℕ) (part : List Char) :
    store (filled.map some ++ List.replicate (n+1) none) filled.length (some part) =
      some ((filled ++ [part]).map some ++ List.replicate n none) := by
  have hlen : (filled.map some).length = filled.length := List.length_map some
  have hroom : filled.length < (filled.map some ++ List.replicate (n+1) (none : Option (List Char))).length := by
    rw [List.length_append,hlen,List.length_replicate]
    omega
  rw [store,if_pos hroom,List.set_append_right _ _ (le_of_eq hlen),hlen,Nat.sub_self,List.replicate_succ,
    List.set_cons_zero,List.map_append,List.append_assoc]
  rfl

section Components
variable {separator : List Char}

theorem countFrom_eq (hseparator : separator ≠ []) {fuel : ℕ} {cursor : List Char}
    (hfuel : cursor.length < fuel) (count : ℕ) :
    countFrom separator fuel cursor count = count+occurrences separator cursor := by
  induction fuel generalizing cursor count with
  | zero => exact absurd hfuel (Nat.not_lt_zero _)
  | succ fuel ih =>
    unfold countFrom
    split
    next hnone => rw [(find_none hseparator hnone).2,Nat.add_zero]
    next next hsome =>
      have hshorter := find_some_lt hseparator hsome
      have hlater := (find_some hseparator hsome).2.2
      rw [ih (by omega),hlater]
      omega

theorem splitFrom_eq (hseparator : separator ≠ []) {left : ℕ} {cursor : List Char}
    (hleft : left = occurrences separator cursor+1) (filled : List (List Char)) :
    ∃ parts : List (List Char), parts.length = left ∧
      splitFrom separator left cursor filled.length (filled.map some ++ List.replicate left none) =
        some (filled.length+left,(filled ++ parts).map some) ∧
      (∀ part ∈ parts, ¬separator <:+: part) ∧ separator.intercalate parts = cursor := by
  induction left generalizing cursor filled with
  | zero => cases hleft
  | succ left ih =>
    unfold splitFrom
    split
    next hnone =>
      obtain ⟨hno,hzero⟩ := find_none hseparator hnone
      obtain rfl : left = 0 := by omega
      refine ⟨[cursor],rfl,?_,?_,List.intercalate_singleton⟩
      · rw [store_next,Option.map_some,List.replicate_zero,List.append_nil]
      · intro part hpart
        rwa [List.mem_singleton.mp hpart]
    next next hsome =>
      obtain ⟨hsplit,hno,hlater⟩ := find_some hseparator hsome
      have hrest : left = occurrences separator (cursor.drop (next+separator.length))+1 := by omega
      obtain ⟨parts,hlength,hloop,hparts,hjoin⟩ := ih hrest (filled ++ [cursor.take next])
      rw [List.length_append,List.length_singleton] at hloop
      refine ⟨cursor.take next :: parts,congrArg (· + 1) hlength,?_,?_,?_⟩
      · rw [store_next,Option.bind_some,hloop,List.append_assoc,Nat.add_assoc,Nat.add_comm 1 left]
        rfl
      · intro part hpart
        obtain rfl | hpart := List.mem_cons.mp hpart
        · exact hno
        · exact hparts part hpart
      · have hne : parts ≠ [] := by
          rintro rfl
          rw [← hlength] at hrest
          cases hrest
        obtain ⟨first,others,rfl⟩ := List.exists_cons_of_ne_nil hne
        rw [List.intercalate_cons_cons,hjoin]
        exact hsplit.symm

/-- The parts are the value again when they are joined, none of them has the separator in it, and there is
one more of them than there are separators. The array has a place for each and no other place. -/
theorem components_split_and_join (self separatorObject : Object) (h : objectCstring separatorObject ≠ []) :
    ∃ parts : List (List Char), proxyStringComponents self separatorObject = some ⟨parts.map some,parts.length⟩ ∧
      (∀ part ∈ parts, ¬objectCstring separatorObject <:+: part) ∧
      (objectCstring separatorObject).intercalate parts = objectCstring self ∧
      parts.length = occurrences (objectCstring separatorObject) (objectCstring self)+1 := by
  generalize hvalue : objectCstring self = value
  generalize hseparator : objectCstring separatorObject = separator at h
  have hcount := countFrom_eq h (Nat.lt_succ_self value.length) 1
  rw [Nat.add_comm] at hcount
  obtain ⟨parts,hlength,hloop,hparts,hjoin⟩ := splitFrom_eq h (rfl : occurrences separator value+1 = _) []
  refine ⟨parts,?_,hparts,hjoin,hlength⟩
  unfold proxyStringComponents
  simp only [hvalue,hseparator,if_neg h]
  rw [hcount]
  rw [List.length_nil,List.map_nil,List.nil_append,Nat.zero_add,List.nil_append] at hloop
  rw [makeProxyArray,hloop,Option.map_some,hlength]

theorem components_of_overlapping :
    let self := Object.proxyString (some ['a','a','a'])
    let separatorObject := Object.constant (some ['a','a']) 2
    ∃ parts : List (List Char), proxyStringComponents self separatorObject = some ⟨parts.map some,parts.length⟩ ∧
      (∀ part ∈ parts, ¬objectCstring separatorObject <:+: part) ∧
      (objectCstring separatorObject).intercalate parts = objectCstring self ∧
      parts.length = occurrences (objectCstring separatorObject) (objectCstring self)+1 :=
  components_split_and_join _ _ (by decide)

end Components

end Machismo.Shim.StringComponents
