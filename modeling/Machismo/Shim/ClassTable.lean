import Mathlib
import Machismo.Shim.Classes

/-! # Classes found by name

`object_getClass` and `class_getName` remember the classes they meet, up to 256 of them, in the order in
which they are met. A lookup by name takes the first of these that has the name; a class and its
metaclass have the same one.
-/
namespace Machismo.Shim
open A64

def observedCapacity : ℕ := 256

/-- `observed_classes` up to `observed_class_count` -/
structure ClassTable where
  classes : List Addr
  bounded : classes.length ≤ observedCapacity

def ClassTable.empty : ClassTable := ⟨[],Nat.zero_le _⟩

/-- The entry points with their arguments; a name may be NULL. -/
inductive ClassCall where
  | objectGetClass (object : Addr)
  | classGetName (cls : Addr)
  | lookUpClass (name : Option (List Char))
  | getClass (name : Option (List Char))
  | getMetaClass (name : Option (List Char))

inductive ClassAnswer where
  | cls (c : Addr)
  | name (text : List Char)
  deriving DecidableEq

def rememberClass (t : ClassTable) (cls : Addr) : ClassTable :=
  if cls = 0 ∨ t.classes.contains cls then t
  else if h : t.classes.length < observedCapacity then
    ⟨t.classes ++ [cls],by rw [List.length_append,List.length_singleton]; exact h⟩
  else t

theorem eraseDups_concat (met : List Addr) (cls : Addr) :
    (met ++ [cls]).eraseDups = if cls ∈ met then met.eraseDups else met.eraseDups ++ [cls] := by
  rw [List.eraseDups_append]
  by_cases h : cls ∈ met
  · rw [if_pos h]
    simp [List.removeAll,h]
  · rw [if_neg h]
    simp [List.removeAll,h,List.eraseDups_cons]

theorem rememberClass_classes {t : ClassTable} {met : List Addr}
    (ht : t.classes = met.eraseDups.take observedCapacity) {cls : Addr} (hcls : cls ≠ 0) :
    (rememberClass t cls).classes = (met ++ [cls]).eraseDups.take observedCapacity := by
  unfold rememberClass
  rw [eraseDups_concat]
  by_cases hin : cls ∈ t.classes
  · have hmet : cls ∈ met := List.mem_eraseDups.mp (List.mem_of_mem_take (ht ▸ hin))
    rw [if_pos (Or.inr (List.contains_iff_mem.mpr hin)),if_pos hmet]
    exact ht
  · have hno : ¬(cls = 0 ∨ t.classes.contains cls = true) :=
      not_or.mpr ⟨hcls,fun h => hin (List.contains_iff_mem.mp h)⟩
    rw [if_neg hno]
    have hlen := congrArg List.length ht
    rw [List.length_take] at hlen
    by_cases hroom : t.classes.length < observedCapacity
    · -- nothing has been left out so far
      have hall : met.eraseDups.length ≤ observedCapacity := by omega
      rw [List.take_of_length_le hall] at ht
      have hmet : cls ∉ met := fun h => hin (ht ▸ List.mem_eraseDups.mpr h)
      rw [dif_pos hroom,if_neg hmet,List.take_of_length_le (by rw [List.length_append,List.length_singleton]; omega)]
      exact congrArg (· ++ [cls]) ht
    · rw [dif_neg hroom]
      split
      next => exact ht
      next => rw [List.take_append_of_le_length (by omega)]; exact ht

namespace Runtime
variable (R : Runtime)

def objectGetClass (t : ClassTable) (object : Addr) : Addr × ClassTable :=
  if object = 0 then (0,t) else (R.isa object,rememberClass t (R.isa object))

def classGetName (t : ClassTable) (cls : Addr) : List Char × ClassTable :=
  ((R.rawClassName cls).getD [],rememberClass t cls)

def objcLookUpClass (t : ClassTable) : Option (List Char) → Addr
  | none => 0
  | some name =>
    if name = nsobjectName then R.nsobject
    else (t.classes.find? fun cls => R.rawClassName cls = some name).getD 0

def objcGetClass (t : ClassTable) (name : Option (List Char)) : Addr := R.objcLookUpClass t name

def objcGetMetaClass (t : ClassTable) (name : Option (List Char)) : Addr :=
  let cls := R.objcLookUpClass t name
  if cls = 0 then 0 else R.isa cls

def call (t : ClassTable) : ClassCall → ClassAnswer × ClassTable
  | .objectGetClass object => (.cls (R.objectGetClass t object).1,(R.objectGetClass t object).2)
  | .classGetName cls => (.name (R.classGetName t cls).1,(R.classGetName t cls).2)
  | .lookUpClass name => (.cls (R.objcLookUpClass t name),t)
  | .getClass name => (.cls (R.objcGetClass t name),t)
  | .getMetaClass name => (.cls (R.objcGetMetaClass t name),t)

def tableAfter (calls : List ClassCall) : ClassTable := calls.foldl (fun t c => (R.call t c).2) .empty

/-- The class a call meets. -/
def seen : ClassCall → Option Addr
  | .objectGetClass object => if object = 0 ∨ R.isa object = 0 then none else some (R.isa object)
  | .classGetName cls => if cls = 0 then none else some cls
  | _ => none

def observed (calls : List ClassCall) : List Addr := calls.filterMap R.seen

theorem call_snd (t : ClassTable) (c : ClassCall) :
    (R.call t c).2 = match R.seen c with
      | some cls => rememberClass t cls
      | none => t := by
  cases c with
  | objectGetClass object =>
    simp only [call,seen,objectGetClass]
    by_cases hobject : object = 0
    · rw [if_pos hobject,if_pos (Or.inl hobject)]
    · by_cases hcls : R.isa object = 0
      · rw [if_neg hobject,if_pos (Or.inr hcls)]
        exact if_pos (Or.inl hcls)
      · rw [if_neg hobject,if_neg (not_or.mpr ⟨hobject,hcls⟩)]
  | classGetName cls =>
    simp only [call,seen,classGetName]
    by_cases hcls : cls = 0
    · rw [if_pos hcls]
      exact if_pos (Or.inl hcls)
    · rw [if_neg hcls]
  | lookUpClass name => rfl
  | getClass name => rfl
  | getMetaClass name => rfl

theorem seen_ne_zero {c : ClassCall} {cls : Addr} (h : R.seen c = some cls) : cls ≠ 0 := by
  cases c with
  | objectGetClass object =>
    obtain ⟨hne,hcls⟩ := Option.ite_none_left_eq_some.mp h
    obtain rfl := Option.some.inj hcls
    exact fun hzero => hne (Or.inr hzero)
  | classGetName cls =>
    obtain ⟨hne,hcls⟩ := Option.ite_none_left_eq_some.mp h
    exact Option.some.inj hcls ▸ hne
  | lookUpClass name => cases h
  | getClass name => cases h
  | getMetaClass name => cases h

theorem tableAfter_eq (calls : List ClassCall) :
    (R.tableAfter calls).classes = (R.observed calls).eraseDups.take observedCapacity := by
  induction calls using List.reverseRecOn with
  | nil => rfl
  | append_singleton calls c ih =>
    have hstep : R.tableAfter (calls ++ [c]) = (R.call (R.tableAfter calls) c).2 := List.foldl_append
    have hseen : R.observed (calls ++ [c]) = R.observed calls ++ (R.seen c).toList := by
      rw [observed,List.filterMap_append]
      cases h : R.seen c with
      | none => simp [h,observed]
      | some cls => simp [h,observed]
    rw [hstep,hseen,call_snd]
    cases h : R.seen c with
    | none => simpa using ih
    | some cls => exact rememberClass_classes ih (R.seen_ne_zero h)

/-- The class of the name, and never a metaclass; one is found if one has been met. -/
def FoundRight (before : List ClassCall) (name : List Char) (cls : Addr) : Prop :=
  (cls ≠ 0 → R.rawClassName cls = some name ∧ R.classIsMetaClass cls = false) ∧
  ((∃ d ∈ R.observed before, R.rawClassName d = some name ∧ R.classIsMetaClass d = false) → cls ≠ 0)

/-- What is asked of the answer to a call, in the state after the calls before it. -/
def AnsweredRight (before : List ClassCall) : ClassCall → Prop
  | .lookUpClass (some name) => ∃ cls, (R.call (R.tableAfter before) (.lookUpClass (some name))).1 = .cls cls ∧
      R.FoundRight before name cls
  | .getClass (some name) => ∃ cls, (R.call (R.tableAfter before) (.getClass (some name))).1 = .cls cls ∧
      R.FoundRight before name cls
  | .getMetaClass (some name) => ∃ cls, (R.call (R.tableAfter before) (.getClass (some name))).1 = .cls cls ∧
      R.FoundRight before name cls ∧
      (R.call (R.tableAfter before) (.getMetaClass (some name))).1 = .cls (if cls = 0 then 0 else R.isa cls)
  | _ => True

/-- Of the first 256 distinct classes met, the first with the name is no metaclass; if none of them has it, no
class met later that has it is anything but a metaclass. -/
def FirstIsClass (before : List ClassCall) (name : List Char) : Prop :=
  match ((R.observed before).eraseDups.take 256).find? fun cls => R.rawClassName cls = some name with
  | some cls => R.classIsMetaClass cls = false
  | none => ∀ d ∈ R.observed before, R.rawClassName d = some name → R.classIsMetaClass d = true

/-- The name a call looks up. -/
def lookedUp : ClassCall → Option (List Char)
  | .lookUpClass name => name
  | .getClass name => name
  | .getMetaClass name => name
  | _ => none

theorem rawClassName_nsobject : R.rawClassName R.nsobject = some nsobjectName := by
  rw [ClassGraph.rawClassName,R.nsobject_ro]
  rfl

theorem classIsMetaClass_nsobject : R.classIsMetaClass R.nsobject = false := by
  rw [ClassGraph.classIsMetaClass,R.nsobject_ro]
  rfl

theorem foundRight_iff (before : List ClassCall) (name : List Char) :
    R.FoundRight before name (R.objcLookUpClass (R.tableAfter before) (some name)) ↔
      name = nsobjectName ∨ R.FirstIsClass before name := by
  rw [objcLookUpClass]
  by_cases hname : name = nsobjectName
  · rw [if_pos hname]
    refine iff_of_true ⟨fun _ => ?_,fun _ => R.nsobject_ne⟩ (Or.inl hname)
    exact ⟨hname ▸ R.rawClassName_nsobject,R.classIsMetaClass_nsobject⟩
  · rw [if_neg hname,R.tableAfter_eq,or_iff_right hname,FirstIsClass]
    change R.FoundRight before name ((((R.observed before).eraseDups.take 256).find? _).getD 0) ↔ _
    cases hfind : ((R.observed before).eraseDups.take 256).find? fun cls => R.rawClassName cls = some name with
    | none =>
      constructor
      · rintro ⟨-,hmet⟩ d hd hdname
        by_contra hmeta
        exact hmet ⟨d,hd,hdname,Bool.eq_false_iff.mpr hmeta⟩ rfl
      · intro hall
        refine ⟨fun h => absurd rfl h,?_⟩
        rintro ⟨d,hd,hdname,hmeta⟩
        rw [hall d hd hdname] at hmeta
        cases hmeta
    | some cls =>
      have hmem := List.mem_eraseDups.mp (List.mem_of_mem_take (List.mem_of_find?_eq_some hfind))
      obtain ⟨c,-,hc⟩ := List.mem_filterMap.mp hmem
      have hne := R.seen_ne_zero hc
      have hfound := List.find?_some hfind
      have hcls := of_decide_eq_true hfound
      constructor
      · rintro ⟨hright,-⟩
        exact (hright hne).2
      · intro hmeta
        exact ⟨fun _ => ⟨hcls,hmeta⟩,fun _ => hne⟩

/-- A call is answered right just when the first class met with the name it looks up is no metaclass. -/
theorem answeredRight_iff (before : List ClassCall) (c : ClassCall) :
    R.AnsweredRight before c ↔ ∀ name, lookedUp c = some name → name = nsobjectName ∨ R.FirstIsClass before name := by
  have hlookup : ∀ name, (∃ cls, ClassAnswer.cls (R.objcLookUpClass (R.tableAfter before) (some name)) = .cls cls ∧
      R.FoundRight before name cls) ↔ name = nsobjectName ∨ R.FirstIsClass before name := by
    intro name
    rw [← foundRight_iff]
    constructor
    · rintro ⟨cls,hcls,hright⟩
      obtain rfl := ClassAnswer.cls.inj hcls
      exact hright
    · intro hright
      exact ⟨_,rfl,hright⟩
  have hsome : ∀ name, (∀ name', some name = some name' → name' = nsobjectName ∨ R.FirstIsClass before name') ↔
      name = nsobjectName ∨ R.FirstIsClass before name := by
    intro name
    constructor
    · intro h
      exact h name rfl
    · intro h name' heq
      obtain rfl := Option.some.inj heq
      exact h
  have hmeta : ∀ name, R.AnsweredRight before (.getMetaClass (some name)) ↔
      R.AnsweredRight before (.getClass (some name)) := by
    intro name
    constructor
    · rintro ⟨cls,hcls,hright,-⟩
      exact ⟨cls,hcls,hright⟩
    · rintro ⟨cls,hcls,hright⟩
      obtain rfl := ClassAnswer.cls.inj hcls
      exact ⟨_,rfl,hright,rfl⟩
  cases c with
  | objectGetClass object => exact iff_of_true trivial (fun name h => by cases h)
  | classGetName cls => exact iff_of_true trivial (fun name h => by cases h)
  | lookUpClass name =>
    cases name with
    | none => exact iff_of_true trivial (fun name h => by cases h)
    | some name => exact (hlookup name).trans (hsome name).symm
  | getClass name =>
    cases name with
    | none => exact iff_of_true trivial (fun name h => by cases h)
    | some name => exact (hlookup name).trans (hsome name).symm
  | getMetaClass name =>
    cases name with
    | none => exact iff_of_true trivial (fun name h => by cases h)
    | some name => exact (hmeta name).trans ((hlookup name).trans (hsome name).symm)

/-- Every call of the run is answered right. -/
def LookupsRight (calls : List ClassCall) : Prop :=
  ∀ before c after, calls = before ++ c :: after → R.AnsweredRight before c

theorem lookupsRight_iff (calls : List ClassCall) : R.LookupsRight calls ↔
    ∀ before c after, calls = before ++ c :: after → ∀ name, lookedUp c = some name → name = nsobjectName ∨
      R.FirstIsClass before name := by
  constructor
  · intro h before c after hsplit
    exact (R.answeredRight_iff before c).mp (h before c after hsplit)
  · intro h before c after hsplit
    exact (R.answeredRight_iff before c).mpr (h before c after hsplit)

end Runtime

section Metaclass

/-- A class at 64 and its metaclass at 128, both of the name `A`, beside the shim's class at 192. -/
def pairOfClasses : Runtime where
  isa := fun a => if a = 64 then 128 else 192
  dataBits := fun a => a
  roAt := fun a =>
    if a = 64 then ⟨0,8,16,some ['A']⟩ else if a = 128 then ⟨roMeta,40,40,some ['A']⟩ else nsobjectClassRo
  nsobject := 192
  nsobject_ne := by decide
  nsobject_ro := by decide

/-- `object_getClass` of the class itself meets the metaclass first. -/
theorem not_lookupsRight_metaclass : ¬pairOfClasses.LookupsRight
    [.objectGetClass 64,.classGetName 64,.getClass (some ['A'])] := by
  intro h
  obtain ⟨cls,hcls,hright,-⟩ := h [.objectGetClass 64,.classGetName 64] (.getClass (some ['A'])) [] rfl
  have hfirst : (pairOfClasses.call (pairOfClasses.tableAfter [.objectGetClass 64,.classGetName 64])
      (.getClass (some ['A']))).1 = .cls 128 := by decide
  obtain rfl := ClassAnswer.cls.inj (hfirst.symm.trans hcls)
  exact absurd (hright (by decide)).2 (by decide)

end Metaclass

end Machismo.Shim
