import Mathlib

/-! # Lua values and the interface to C

Tables with metatables, ordinary and raw lookups, and the stack through which C functions work. What a call of
a function does is a parameter; which calls are made is on record.
-/
namespace Machismo.Lua

inductive Value where
  | nil
  | boolean (b : Bool)
  | number (bits : BitVec 64)
  | string (s : List Char)
  | table (a : ℕ)
  | function (n : ℕ)
  | userdata (n : ℕ)
  deriving DecidableEq

/-- `lua_type` -/
def Value.type : Value → ℕ
  | nil => 0
  | boolean _ => 1
  | number _ => 3
  | string _ => 4
  | table _ => 5
  | function _ => 6
  | userdata _ => 7

def luaTnil : ℕ := 0

theorem Value.type_eq_nil {v : Value} : v.type = luaTnil ↔ v = .nil := by
  cases v with
  | nil => exact ⟨fun _ => rfl,fun _ => rfl⟩
  | _ => exact ⟨nofun,nofun⟩

/-- Keys that are not there have `nil`; values other than tables have the metatables of their types. -/
structure Heap where
  raw : ℕ → Value → Value
  metatable : Value → Option ℕ

structure World where
  heap : Heap
  calls : List (Value × List Value)

/-- `undefined` is for what the interface forbids. -/
inductive Failure where
  | raised (v : Value)
  | indexing (v : Value)
  | loop
  | undefined
  deriving DecidableEq

abbrev Run := ExceptT Failure (StateM World)

/-- What a call does: its results or its error, and what it leaves of the heap. -/
abbrev Calls := Value → List Value → Heap → Except Value (List Value) × Heap

/-- To so many results. -/
def adjust (n : ℕ) (results : List Value) : List Value := results.take n ++ List.replicate (n-results.length) .nil

theorem length_adjust (n : ℕ) (results : List Value) : (adjust n results).length = n := by
  simp only [adjust,List.length_append,List.length_take,List.length_replicate]
  omega

theorem adjust_zero (results : List Value) : adjust 0 results = [] :=
  List.length_eq_zero_iff.mp (length_adjust 0 results)

def invoke (run : Calls) (callee : Value) (args : List Value) : Run (List Value) := fun w =>
  let calls := w.calls ++ [(callee,args)]
  match run callee args w.heap with
  | (.ok results,heap) => (.ok results,⟨heap,calls⟩)
  | (.error v,heap) => (.error (.raised v),⟨heap,calls⟩)

namespace Run
variable {w w' : World}

theorem bind_ok {α β : Type} {x : Run α} {g : α → Run β} {a : α} (h : x w = (.ok a,w')) : (x >>= g) w = g a w' := by
  simp only [bind,ExceptT.bind,ExceptT.mk,StateT.bind]
  rw [h]
  rfl

theorem bind_error {α β : Type} {x : Run α} {g : α → Run β} {e : Failure} (h : x w = (.error e,w')) :
    (x >>= g) w = (.error e,w') := by
  simp only [bind,ExceptT.bind,ExceptT.mk,StateT.bind]
  rw [h]
  rfl

/-- A run only adds to the record of calls. -/
def Records {α : Type} (x : Run α) : Prop := ∀ w, w.calls <+: (x w).2.calls

theorem Records.pure {α : Type} (a : α) : Records (pure a) := fun _ => List.prefix_refl _

theorem Records.after {α β : Type} {g : α → Run β} (hg : ∀ a, Records (g a)) (x : Run α) (w : World) :
    (x w).2.calls <+: ((x >>= g) w).2.calls := by
  cases hrun : x w with
  | mk result w' =>
    cases result with
    | ok a =>
      rw [bind_ok hrun]
      exact hg a w'
    | error e =>
      rw [bind_error hrun]

theorem Records.bind {α β : Type} {x : Run α} {g : α → Run β} (hx : Records x) (hg : ∀ a, Records (g a)) :
    Records (x >>= g) :=
  fun w => (hx w).trans (Records.after hg x w)

theorem calls_map {α β : Type} (g : α → β) (x : Run α) (w : World) :
    ((do return g (← x) : Run β) w).2.calls = (x w).2.calls := by
  cases hrun : x w with
  | mk result w' =>
    cases result with
    | ok a => rw [bind_ok hrun]; rfl
    | error e => rw [bind_error hrun]

theorem map_eq_ok_iff {α β : Type} {g : α → β} (hg : g.Injective) (x : Run α) (a : α) :
    (do return g (← x) : Run β) w = (.ok (g a),w') ↔ x w = (.ok a,w') := by
  refine ⟨fun h => ?_,bind_ok⟩
  cases hrun : x w with
  | mk result w₁ =>
    cases result with
    | ok b =>
      obtain ⟨hresult,hworld⟩ := Prod.mk.inj ((bind_ok hrun).symm.trans h)
      rw [hg (Except.ok.inj hresult),hworld]
    | error e => exact nomatch (bind_error hrun).symm.trans h

end Run

theorem invoke_calls (run : Calls) (callee : Value) (args : List Value) (w : World) :
    (invoke run callee args w).2.calls = w.calls ++ [(callee,args)] := by
  unfold invoke
  dsimp only
  cases run callee args w.heap with
  | mk result heap => cases result <;> rfl

theorem Run.Records.invoke (run : Calls) (callee : Value) (args : List Value) : Records (invoke run callee args) := by
  intro w
  rw [invoke_calls]
  exact List.prefix_append _ _

namespace Heap
variable (H : Heap)

/-- The value that a table itself has. -/
def own (t key : Value) : Option Value :=
  match t with
  | .table a => if H.raw a key = .nil then none else some (H.raw a key)
  | _ => none

/-- The `__index` entry of the metatable. -/
def indexHandler (t : Value) : Value :=
  match H.metatable t with
  | none => .nil
  | some m => H.raw m (.string "__index".toList)

theorem own_ne_nil {H : Heap} {t key v : Value} (h : H.own t key = some v) : v ≠ .nil := by
  cases t with
  | table a =>
    dsimp only [own] at h
    split at h
    next => exact nomatch h
    next hne => exact Option.some.inj h ▸ hne
  | _ => exact nomatch h

end Heap

def maxTagLoop : ℕ := 100

/-- The ordinary lookup `t[key]`, with so many handlers at most. -/
def index (run : Calls) : ℕ → Value → Value → Run Value
  | 0, _, _ => throw .loop
  | n + 1, t, key => fun w =>
    match w.heap.own t key with
    | some v => (.ok v,w)
    | none =>
      match w.heap.indexHandler t with
      | .nil =>
        match t with
        | .table _ => (.ok .nil,w)
        | _ => (.error (.indexing t),w)
      | .function f =>
        match invoke run (.function f) [t,key] w with
        | (.ok results,w) => (.ok (results.headD .nil),w)
        | (.error e,w) => (.error e,w)
      | handler => index run n handler key w

def rawgetOf (t key : Value) : Run Value := fun w =>
  match t with
  | .table a => (.ok (w.heap.raw a key),w)
  | _ => (.error (.indexing t),w)

/-- No table on the way has the key, and the way ends without a call. -/
def Absent (H : Heap) : ℕ → Value → Value → Prop
  | 0, _, _ => False
  | n + 1, t, key => H.own t key = none ∧
    match H.indexHandler t with
    | .nil => ∃ a, t = .table a
    | .function _ => False
    | handler => Absent H n handler key

/-- What becomes of a lookup. -/
inductive Looked (H : Heap) (n : ℕ) (t key : Value) (w : World) (r : Except Failure Value × World) : Prop where
  | absent (h : Absent H n t key) (hr : r = (.ok .nil,w))
  | found (h : ¬Absent H n t key) {v : Value} (hv : v ≠ .nil) (hr : r = (.ok v,w))
  | failed (h : ¬Absent H n t key) {e : Failure} (hr : r = (.error e,w))
  | called (h : ¬Absent H n t key) {f : ℕ} {t' : Value} (hhandler : H.indexHandler t' = .function f)
      (hr : r.2.calls = w.calls ++ [(.function f,[t',key])])

section Steps
variable {run : Calls} {n : ℕ} {t key : Value} {w : World}

theorem index_own {v : Value} (h : w.heap.own t key = some v) : index run (n+1) t key w = (.ok v,w) := by
  unfold index
  rw [h]

theorem index_bare {a : ℕ} (h : w.heap.own (.table a) key = none) (hhandler : w.heap.indexHandler (.table a) = .nil) :
    index run (n+1) (.table a) key w = (.ok .nil,w) := by
  unfold index
  rw [h,hhandler]

theorem index_not_table (h : w.heap.own t key = none) (hhandler : w.heap.indexHandler t = .nil)
    (ht : ∀ a, t ≠ .table a) : index run (n+1) t key w = (.error (.indexing t),w) := by
  unfold index
  rw [h,hhandler]
  cases t with
  | table a => exact absurd rfl (ht a)
  | _ => rfl

theorem index_function {f : ℕ} (h : w.heap.own t key = none) (hhandler : w.heap.indexHandler t = .function f) :
    (index run (n+1) t key w).2.calls = w.calls ++ [(.function f,[t,key])] := by
  have hcalls := invoke_calls run (.function f) [t,key] w
  unfold index
  rw [h,hhandler]
  dsimp only
  cases hinvoke : invoke run (.function f) [t,key] w with
  | mk result w' =>
    rw [hinvoke] at hcalls
    cases result <;> exact hcalls

theorem index_on (h : w.heap.own t key = none) (hnil : w.heap.indexHandler t ≠ .nil)
    (hfunction : ∀ f, w.heap.indexHandler t ≠ .function f) :
    index run (n+1) t key w = index run n (w.heap.indexHandler t) key w := by
  conv_lhs => unfold index
  rw [h]
  dsimp only
  cases hhandler : w.heap.indexHandler t with
  | nil => exact absurd hhandler hnil
  | function f => exact absurd hhandler (hfunction f)
  | _ => rfl

theorem absent_on (h : w.heap.own t key = none) (hnil : w.heap.indexHandler t ≠ .nil)
    (hfunction : ∀ f, w.heap.indexHandler t ≠ .function f) :
    Absent w.heap (n+1) t key ↔ Absent w.heap n (w.heap.indexHandler t) key := by
  rw [Absent,h]
  cases hhandler : w.heap.indexHandler t with
  | nil => exact absurd hhandler hnil
  | function f => exact absurd hhandler (hfunction f)
  | _ => exact and_iff_right rfl

end Steps

theorem index_looked (run : Calls) (n : ℕ) (t key : Value) (w : World) :
    Looked w.heap n t key w (index run n t key w) := by
  induction n generalizing t with
  | zero => exact .failed id rfl
  | succ n ih =>
    cases hown : w.heap.own t key with
    | some v => exact .found (fun h => nomatch hown.symm.trans h.1) (Heap.own_ne_nil hown) (index_own hown)
    | none =>
      by_cases hnil : w.heap.indexHandler t = .nil
      · have habsent : Absent w.heap (n+1) t key ↔ ∃ a, t = .table a := by
          rw [Absent,hnil]
          exact and_iff_right hown
        by_cases htable : ∃ a, t = .table a
        · obtain ⟨a,rfl⟩ := htable
          exact .absent (habsent.mpr ⟨a,rfl⟩) (index_bare hown hnil)
        · have hnot : ∀ a, t ≠ .table a := fun a ha => htable ⟨a,ha⟩
          exact .failed (fun h => htable (habsent.mp h)) (index_not_table hown hnil hnot)
      · by_cases hfunction : ∃ f, w.heap.indexHandler t = .function f
        · obtain ⟨f,hf⟩ := hfunction
          refine .called (fun h => ?_) hf (index_function hown hf)
          rw [Absent,hf] at h
          exact h.2
        · have hnot : ∀ f, w.heap.indexHandler t ≠ .function f := fun f hf => hfunction ⟨f,hf⟩
          have habsent : Absent w.heap (n+1) t key ↔ _ := absent_on hown hnil hnot
          rw [index_on hown hnil hnot]
          cases ih (w.heap.indexHandler t) with
          | absent h hr => exact .absent (habsent.mpr h) hr
          | found h hv hr => exact .found (fun h' => h (habsent.mp h')) hv hr
          | failed h hr => exact .failed (fun h' => h (habsent.mp h')) hr
          | called h hhandler hr => exact .called (fun h' => h (habsent.mp h')) hhandler hr

theorem index_calls (run : Calls) (n : ℕ) (t key : Value) (w : World) :
    (index run n t key w).2.calls = w.calls ∨ ∃ f t', w.heap.indexHandler t' = .function f ∧
      (index run n t key w).2.calls = w.calls ++ [(.function f,[t',key])] := by
  cases index_looked run n t key w with
  | absent _ hr => exact .inl (hr ▸ rfl)
  | found _ _ hr => exact .inl (hr ▸ rfl)
  | failed _ hr => exact .inl (hr ▸ rfl)
  | called _ hhandler hr => exact .inr ⟨_,_,hhandler,hr⟩

theorem Run.Records.index (run : Calls) (n : ℕ) (t key : Value) : Records (index run n t key) := by
  intro w
  obtain hr | ⟨f,t',-,hr⟩ := index_calls run n t key w
  · exact hr ▸ List.prefix_refl _
  · exact hr ▸ List.prefix_append _ _

theorem Run.Records.rawgetOf (t key : Value) : Records (rawgetOf t key) := by
  intro w
  cases t <;> exact List.prefix_refl _

/-! ## Raw lookups -/

/-- The table has the key, or no table on the way to its `__index` does. -/
def RawSuffices (H : Heap) (a : ℕ) (key : Value) : Prop := H.raw a key ≠ .nil ∨ Absent H maxTagLoop (.table a) key

theorem index_raw (run : Calls) {w : World} {a : ℕ} {key : Value} (h : RawSuffices w.heap a key) :
    index run maxTagLoop (.table a) key w = (.ok (w.heap.raw a key),w) := by
  by_cases hraw : w.heap.raw a key = .nil
  · have habsent : Absent w.heap maxTagLoop (.table a) key := h.resolve_left (not_not_intro hraw)
    cases index_looked run maxTagLoop (.table a) key w with
    | absent _ hr => rw [hr,hraw]
    | found h => exact absurd habsent h
    | failed h => exact absurd habsent h
    | called h => exact absurd habsent h
  · exact index_own (if_neg hraw)

/-- Where the raw value is `nil` and does not do, the lookup finds something, fails or calls. -/
theorem index_not_raw (run : Calls) {w : World} {a : ℕ} {key : Value} (h : ¬RawSuffices w.heap a key) :
    w.heap.raw a key = .nil ∧
      ((∃ v, v ≠ .nil ∧ index run maxTagLoop (.table a) key w = (.ok v,w)) ∨
        (∃ e, index run maxTagLoop (.table a) key w = (.error e,w)) ∨
        ∃ f t, w.heap.indexHandler t = .function f ∧
          (index run maxTagLoop (.table a) key w).2.calls = w.calls ++ [(.function f,[t,key])]) := by
  obtain ⟨hraw,habsent⟩ := not_or.mp h
  refine ⟨not_not.mp hraw,?_⟩
  cases index_looked run maxTagLoop (.table a) key w with
  | absent h => exact absurd h habsent
  | found _ hv hr => exact .inl ⟨_,hv,hr⟩
  | failed _ hr => exact .inr (.inl ⟨_,hr⟩)
  | called _ hhandler hr => exact .inr (.inr ⟨_,_,hhandler,hr⟩)

theorem index_eq_raw_iff (run : Calls) {w : World} {a : ℕ} {key : Value} :
    index run maxTagLoop (.table a) key w = (.ok (w.heap.raw a key),w) ↔ RawSuffices w.heap a key := by
  refine ⟨fun h => by_contra fun hnot => ?_,index_raw run⟩
  obtain ⟨hraw,⟨v,hv,hr⟩ | ⟨e,hr⟩ | ⟨f,t,-,hr⟩⟩ := index_not_raw run hnot
  · rw [hr,hraw] at h
    exact hv (Except.ok.inj (congrArg Prod.fst h))
  · exact nomatch congrArg Prod.fst (hr.symm.trans h)
  · rw [h] at hr
    exact List.cons_ne_nil _ _ (List.self_eq_append_right.mp hr)

/-- A C function has its arguments on the stack from below, room up to a limit, and one upvalue. -/
structure Frame where
  stack : List Value
  limit : ℕ
  upvalue : Value

abbrev Api := StateT Frame Run

def luaMinstack : ℕ := 20

/-- `lua_upvalueindex(1)` -/
def upvalueIndex : ℤ := -10003

namespace Api

def undefined {α : Type} : Api α := throw .undefined

/-- Indices count from below from 1 on, or from the top from -1 on. -/
def slot (idx : ℤ) : Api Value := do
  let f ← get
  if idx = upvalueIndex then return f.upvalue
  let place := if 0 < idx then idx-1 else f.stack.length+idx
  if place < 0 then undefined
  else
    match f.stack[place.toNat]? with
    | some v => return v
    | none => undefined

def push (v : Value) : Api Unit := do
  let f ← get
  if f.stack.length < f.limit then set { f with stack := f.stack ++ [v] } else undefined

def pushstring (s : String) : Api Unit := push (.string s.toList)

def pushvalue (idx : ℤ) : Api Unit := do push (← slot idx)

def rawget (idx : ℤ) : Api Unit := do
  let t ← slot idx
  let key ← slot (-1)
  match t with
  | .table a =>
    let w ← getThe World
    modify fun f => { f with stack := f.stack.dropLast ++ [w.heap.raw a key] }
  | _ => undefined

def type (idx : ℤ) : Api ℕ := do return (← slot idx).type

def settop (n : ℕ) : Api Unit := modify fun f => { f with stack := adjust n f.stack }

def call (run : Calls) (nargs nresults : ℕ) : Api Unit := do
  let f ← get
  if f.stack.length < nargs+1 then undefined
  else
    let base := f.stack.length-(nargs+1)
    match f.stack.drop base with
    | callee :: args =>
      let results ← invoke run callee args
      set { f with stack := f.stack.take base ++ adjust nresults results }
    | [] => undefined

end Api

namespace Api
variable {w w' : World} {f f' : Frame}

theorem bind_run {α β : Type} {x : Api α} {g : α → Api β} {a : α} (h : x f w = (.ok (a,f'),w')) :
    (x >>= g) f w = g a f' w' := by
  simp only [bind,StateT.bind,ExceptT.bind,ExceptT.mk,ExceptT.bindCont]
  rw [h]

theorem bind_error {α β : Type} {x : Api α} {g : α → Api β} {e : Failure} (h : x f w = (.error e,w')) :
    (x >>= g) f w = (.error e,w') := by
  simp only [bind,StateT.bind,ExceptT.bind,ExceptT.mk,ExceptT.bindCont]
  rw [h]
  rfl

theorem lift_ok {α : Type} {x : Run α} {a : α} (h : x w = (.ok a,w')) : (liftM x : Api α) f w = (.ok (a,f),w') := by
  simp only [liftM,monadLift,MonadLift.monadLift,StateT.lift,bind,ExceptT.bind,ExceptT.mk,ExceptT.bindCont,StateT.bind]
  rw [h]
  rfl

theorem lift_error {α : Type} {x : Run α} {e : Failure} (h : x w = (.error e,w')) :
    (liftM x : Api α) f w = (.error e,w') := by
  simp only [liftM,monadLift,MonadLift.monadLift,StateT.lift,bind,ExceptT.bind,ExceptT.mk,ExceptT.bindCont,StateT.bind]
  rw [h]
  rfl

theorem push_run (v : Value) (h : f.stack.length < f.limit) :
    push v f w = (.ok ((),{ f with stack := f.stack ++ [v] }),w) := by
  have hget : (get : Api Frame) f w = (.ok (f,f),w) := rfl
  refine (bind_run hget).trans ?_
  rw [if_pos h]
  rfl

theorem pushvalue_run {idx : ℤ} {v : Value} (hslot : slot idx f w = (.ok (v,f),w)) (h : f.stack.length < f.limit) :
    pushvalue idx f w = (.ok ((),{ f with stack := f.stack ++ [v] }),w) :=
  (bind_run hslot).trans (push_run v h)

theorem rawget_run {idx : ℤ} {a : ℕ} {key : Value} (htable : slot idx f w = (.ok (.table a,f),w))
    (hkey : slot (-1) f w = (.ok (key,f),w)) :
    rawget idx f w = (.ok ((),{ f with stack := f.stack.dropLast ++ [w.heap.raw a key] }),w) :=
  (bind_run htable).trans ((bind_run hkey).trans rfl)

theorem type_run {idx : ℤ} {v : Value} (hslot : slot idx f w = (.ok (v,f),w)) :
    type idx f w = (.ok (v.type,f),w) := (bind_run hslot).trans rfl

section Call
variable {run : Calls} {nargs : ℕ} {callee : Value} {args : List Value}
  (hdrop : f.stack.drop (f.stack.length-(nargs+1)) = callee :: args) (h : nargs+1 ≤ f.stack.length)
include hdrop h

theorem call_run (nresults : ℕ) {results : List Value} (hinvoke : invoke run callee args w = (.ok results,w')) :
    call run nargs nresults f w =
      (.ok ((),{ f with stack := f.stack.take (f.stack.length-(nargs+1)) ++ adjust nresults results }),w') := by
  have hget : (get : Api Frame) f w = (.ok (f,f),w) := rfl
  refine (bind_run hget).trans ?_
  rw [if_neg h.not_gt,hdrop]
  exact (bind_run (lift_ok hinvoke)).trans rfl

theorem call_error (nresults : ℕ) {e : Failure} (hinvoke : invoke run callee args w = (.error e,w')) :
    call run nargs nresults f w = (.error e,w') := by
  have hget : (get : Api Frame) f w = (.ok (f,f),w) := rfl
  refine (bind_run hget).trans ?_
  rw [if_neg h.not_gt,hdrop]
  exact (bind_error (lift_error hinvoke)).trans rfl

end Call

end Api

/-- A C function gives as many results as it says, from the top of its stack. -/
def cfunction (f : Api ℕ) (args : List Value) (upvalue : Value) : Run (List Value) := do
  let (n,frame) ← f.run ⟨args,args.length+luaMinstack,upvalue⟩
  if n ≤ frame.stack.length then return frame.stack.drop (frame.stack.length-n) else throw .undefined

theorem cfunction_ok {f : Api ℕ} {args : List Value} {upvalue : Value} {n : ℕ} {frame : Frame} {w w' : World}
    (h : f ⟨args,args.length+luaMinstack,upvalue⟩ w = (.ok (n,frame),w')) (hn : n ≤ frame.stack.length) :
    cfunction f args upvalue w = (.ok (frame.stack.drop (frame.stack.length-n)),w') := by
  simp only [cfunction,StateT.run,bind,ExceptT.bind,ExceptT.mk,ExceptT.bindCont,StateT.bind]
  rw [h]
  dsimp only
  rw [if_pos hn]
  rfl

theorem cfunction_error {f : Api ℕ} {args : List Value} {upvalue : Value} {e : Failure} {w w' : World}
    (h : f ⟨args,args.length+luaMinstack,upvalue⟩ w = (.error e,w')) : cfunction f args upvalue w = (.error e,w') := by
  simp only [cfunction,StateT.run,bind,ExceptT.bind,ExceptT.mk,ExceptT.bindCont,StateT.bind]
  rw [h]
  rfl

theorem cfunction_call {run : Calls} {f : Api ℕ} {args : List Value} {upvalue : Value} {w : World}
    (limit : ℕ) (base : List Value) (callee : Value) (args' : List Value) (n : ℕ)
    (h : f ⟨args,args.length+luaMinstack,upvalue⟩ w =
      (do Api.call run args'.length n; return n : Api ℕ) ⟨base ++ callee :: args',limit,upvalue⟩ w) :
    cfunction f args upvalue w = (do return adjust n (← invoke run callee args') : Run (List Value)) w := by
  have hlength : (base ++ callee :: args').length-(args'.length+1) = base.length := by simp
  have hdrop : (base ++ callee :: args').drop ((base ++ callee :: args').length-(args'.length+1)) =
      callee :: args' := by
    rw [hlength]
    exact List.drop_left
  have hle : args'.length+1 ≤ (base ++ callee :: args').length := by simp
  simp only [bind,ExceptT.bind,ExceptT.mk,ExceptT.bindCont,StateT.bind]
  cases hinvoke : invoke run callee args' w with
  | mk result w' =>
    cases result with
    | ok results =>
      have hcall := Api.call_run (f := ⟨base ++ callee :: args',limit,upvalue⟩) hdrop hle n hinvoke
      refine (cfunction_ok (h.trans ((Api.bind_run hcall).trans rfl)) ?_).trans ?_
      · rw [List.length_append,length_adjust]
        exact Nat.le_add_left n _
      · rw [List.length_append,length_adjust,Nat.add_sub_cancel]
        exact congrArg (fun l => (Except.ok l,w')) List.drop_left
    | error e =>
      have hcall := Api.call_error (f := ⟨base ++ callee :: args',limit,upvalue⟩) hdrop hle n hinvoke
      exact cfunction_error (h.trans (Api.bind_error hcall))

end Machismo.Lua
