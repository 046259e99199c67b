import Machismo.Lua.Machine

/-! # The metamethods of component tables in C

The C functions read `_ids`, `_fields` and `_setters` raw, where the Lua functions that they stand for look
them up.
-/
namespace Machismo.Lua

section C
open Api
variable (run : Calls)

def componentIndex : Api ℕ := do
  pushstring "_ids"
  rawget 1
  pushvalue 2
  rawget 3
  if (← type (-1)) ≠ luaTnil then
    pushstring "_fields"
    rawget 1
    pushvalue 4
    rawget (-2)
    return 1
  settop 2
  pushvalue upvalueIndex
  pushvalue 1
  pushvalue 2
  call run 2 1
  return 1

def componentNewindex : Api ℕ := do
  pushstring "_setters"
  rawget 1
  pushvalue 2
  rawget 4
  if (← type (-1)) ≠ luaTnil then
    pushstring "_fields"
    rawget 1
    pushvalue 3
    call run 2 0
    return 0
  settop 3
  pushvalue upvalueIndex
  pushvalue 1
  pushvalue 2
  call run 2 0
  return 0

end C

section Documented
variable (run : Calls)

/-- A metamethod for `__index` has one result. -/
def documentedIndex (defaultValue self key : Value) : Run (List Value) := do
  let id ← index run maxTagLoop (← rawgetOf self (.string "_ids".toList)) key
  if id ≠ .nil then
    return [← index run maxTagLoop (← rawgetOf self (.string "_fields".toList)) id]
  else return adjust 1 (← invoke run defaultValue [self,key])

def documentedNewindex (invalidWriteError self key value : Value) : Run (List Value) := do
  let setter ← index run maxTagLoop (← rawgetOf self (.string "_setters".toList)) key
  if setter ≠ .nil then
    let _ ← invoke run setter [← rawgetOf self (.string "_fields".toList),value]
    return []
  else
    let _ ← invoke run invalidWriteError [self,key]
    return []

end Documented

/-- A component table with the functions that its metamethods fall back on. The tables are not the component
itself, whose own handler is none of the two. -/
structure Component (H : Heap) where
  self : ℕ
  ids : ℕ
  fields : ℕ
  setters : ℕ
  defaultValue : Value
  invalidWriteError : Value
  ids_eq : H.raw self (.string "_ids".toList) = .table ids
  fields_eq : H.raw self (.string "_fields".toList) = .table fields
  setters_eq : H.raw self (.string "_setters".toList) = .table setters
  fields_ne : fields ≠ self
  default_ne : H.indexHandler (.table self) ≠ defaultValue
  invalid_ne : H.indexHandler (.table self) ≠ invalidWriteError

section Runs
open Api
variable {run : Calls} {w : World} (C : Component w.heap) (key value : Value)

theorem componentIndex_start {u : Value} : componentIndex run ⟨[.table C.self,key],22,u⟩ w =
    (if (w.heap.raw C.ids key).type ≠ luaTnil then do
      pushstring "_fields"
      rawget 1
      pushvalue 4
      rawget (-2)
      return 1
    else do
      settop 2
      pushvalue upvalueIndex
      pushvalue 1
      pushvalue 2
      call run 2 1
      return 1 : Api ℕ) ⟨[.table C.self,key,.table C.ids,w.heap.raw C.ids key],22,u⟩ w := by
  have hname : pushstring "_ids" ⟨[.table C.self,key],22,u⟩ w =
      (.ok ((),⟨[.table C.self,key,.string "_ids".toList],22,u⟩),w) := push_run _ (by simp)
  have htable : rawget 1 ⟨[.table C.self,key,.string "_ids".toList],22,u⟩ w =
      (.ok ((),⟨[.table C.self,key,.table C.ids],22,u⟩),w) := by
    rw [← C.ids_eq]
    exact rawget_run rfl rfl
  have hkey : pushvalue 2 ⟨[.table C.self,key,.table C.ids],22,u⟩ w =
      (.ok ((),⟨[.table C.self,key,.table C.ids,key],22,u⟩),w) := pushvalue_run rfl (by simp)
  have hid : rawget 3 ⟨[.table C.self,key,.table C.ids,key],22,u⟩ w =
      (.ok ((),⟨[.table C.self,key,.table C.ids,w.heap.raw C.ids key],22,u⟩),w) := rawget_run rfl rfl
  exact (bind_run hname).trans ((bind_run htable).trans ((bind_run hkey).trans ((bind_run hid).trans
    (bind_run (type_run rfl)))))

theorem componentIndex_field (h : w.heap.raw C.ids key ≠ .nil) :
    cfunction (componentIndex run) [.table C.self,key] C.defaultValue w =
      (.ok [w.heap.raw C.fields (w.heap.raw C.ids key)],w) := by
  let u := C.defaultValue
  let id := w.heap.raw C.ids key
  have hname : pushstring "_fields" ⟨[.table C.self,key,.table C.ids,id],22,u⟩ w =
      (.ok ((),⟨[.table C.self,key,.table C.ids,id,.string "_fields".toList],22,u⟩),w) := push_run _ (by simp)
  have htable : rawget 1 ⟨[.table C.self,key,.table C.ids,id,.string "_fields".toList],22,u⟩ w =
      (.ok ((),⟨[.table C.self,key,.table C.ids,id,.table C.fields],22,u⟩),w) := by
    rw [← C.fields_eq]
    exact rawget_run rfl rfl
  have hid : pushvalue 4 ⟨[.table C.self,key,.table C.ids,id,.table C.fields],22,u⟩ w =
      (.ok ((),⟨[.table C.self,key,.table C.ids,id,.table C.fields,id],22,u⟩),w) := pushvalue_run rfl (by simp)
  have hfield : rawget (-2) ⟨[.table C.self,key,.table C.ids,id,.table C.fields,id],22,u⟩ w =
      (.ok ((),⟨[.table C.self,key,.table C.ids,id,.table C.fields,w.heap.raw C.fields id],22,u⟩),w) :=
    rawget_run rfl rfl
  have hstart : componentIndex run ⟨[.table C.self,key],22,u⟩ w = _ := componentIndex_start C key
  rw [if_pos (Value.type_eq_nil.not.mpr h)] at hstart
  have hrun : componentIndex run ⟨[.table C.self,key],22,u⟩ w =
      (.ok (1,⟨[.table C.self,key,.table C.ids,id,.table C.fields,w.heap.raw C.fields id],22,u⟩),w) :=
    hstart.trans ((bind_run hname).trans ((bind_run htable).trans ((bind_run hid).trans ((bind_run hfield).trans rfl))))
  exact cfunction_ok hrun (Nat.le_add_left 1 5)

theorem componentIndex_default (h : w.heap.raw C.ids key = .nil) :
    cfunction (componentIndex run) [.table C.self,key] C.defaultValue w =
      (do return adjust 1 (← invoke run C.defaultValue [.table C.self,key]) : Run (List Value)) w := by
  let u := C.defaultValue
  have hsettop : settop 2 ⟨[.table C.self,key,.table C.ids,w.heap.raw C.ids key],22,u⟩ w =
      (.ok ((),⟨[.table C.self,key],22,u⟩),w) := rfl
  have hupvalue : pushvalue upvalueIndex ⟨[.table C.self,key],22,u⟩ w =
      (.ok ((),⟨[.table C.self,key,u],22,u⟩),w) := pushvalue_run rfl (by simp)
  have hself : pushvalue 1 ⟨[.table C.self,key,u],22,u⟩ w =
      (.ok ((),⟨[.table C.self,key,u,.table C.self],22,u⟩),w) := pushvalue_run rfl (by simp)
  have hkey : pushvalue 2 ⟨[.table C.self,key,u,.table C.self],22,u⟩ w =
      (.ok ((),⟨[.table C.self,key,u,.table C.self,key],22,u⟩),w) := pushvalue_run rfl (by simp)
  have hstart : componentIndex run ⟨[.table C.self,key],22,u⟩ w = _ := componentIndex_start C key
  rw [if_neg (not_not_intro (Value.type_eq_nil.mpr h))] at hstart
  refine cfunction_call 22 [.table C.self,key] u [.table C.self,key] 1 (hstart.trans ?_)
  exact (bind_run hsettop).trans ((bind_run hupvalue).trans ((bind_run hself).trans (bind_run hkey)))

theorem componentNewindex_start {u : Value} : componentNewindex run ⟨[.table C.self,key,value],23,u⟩ w =
    (if (w.heap.raw C.setters key).type ≠ luaTnil then do
      pushstring "_fields"
      rawget 1
      pushvalue 3
      call run 2 0
      return 0
    else do
      settop 3
      pushvalue upvalueIndex
      pushvalue 1
      pushvalue 2
      call run 2 0
      return 0 : Api ℕ) ⟨[.table C.self,key,value,.table C.setters,w.heap.raw C.setters key],23,u⟩ w := by
  have hname : pushstring "_setters" ⟨[.table C.self,key,value],23,u⟩ w =
      (.ok ((),⟨[.table C.self,key,value,.string "_setters".toList],23,u⟩),w) := push_run _ (by simp)
  have htable : rawget 1 ⟨[.table C.self,key,value,.string "_setters".toList],23,u⟩ w =
      (.ok ((),⟨[.table C.self,key,value,.table C.setters],23,u⟩),w) := by
    rw [← C.setters_eq]
    exact rawget_run rfl rfl
  have hkey : pushvalue 2 ⟨[.table C.self,key,value,.table C.setters],23,u⟩ w =
      (.ok ((),⟨[.table C.self,key,value,.table C.setters,key],23,u⟩),w) := pushvalue_run rfl (by simp)
  have hsetter : rawget 4 ⟨[.table C.self,key,value,.table C.setters,key],23,u⟩ w =
      (.ok ((),⟨[.table C.self,key,value,.table C.setters,w.heap.raw C.setters key],23,u⟩),w) := rawget_run rfl rfl
  exact (bind_run hname).trans ((bind_run htable).trans ((bind_run hkey).trans ((bind_run hsetter).trans
    (bind_run (type_run rfl)))))

theorem componentNewindex_setter (h : w.heap.raw C.setters key ≠ .nil) :
    cfunction (componentNewindex run) [.table C.self,key,value] C.invalidWriteError w =
      (do return adjust 0 (← invoke run (w.heap.raw C.setters key) [.table C.fields,value]) : Run (List Value)) w := by
  let u := C.invalidWriteError
  let setter := w.heap.raw C.setters key
  let base : List Value := [.table C.self,key,value,.table C.setters]
  have hname : pushstring "_fields" ⟨base ++ [setter],23,u⟩ w =
      (.ok ((),⟨base ++ [setter,.string "_fields".toList],23,u⟩),w) := push_run _ (by simp [base])
  have htable : rawget 1 ⟨base ++ [setter,.string "_fields".toList],23,u⟩ w =
      (.ok ((),⟨base ++ [setter,.table C.fields],23,u⟩),w) := by
    rw [← C.fields_eq]
    exact rawget_run rfl rfl
  have hvalue : pushvalue 3 ⟨base ++ [setter,.table C.fields],23,u⟩ w =
      (.ok ((),⟨base ++ [setter,.table C.fields,value],23,u⟩),w) := pushvalue_run rfl (by simp [base])
  have hstart : componentNewindex run ⟨[.table C.self,key,value],23,u⟩ w = _ := componentNewindex_start C key value
  rw [if_pos (Value.type_eq_nil.not.mpr h)] at hstart
  refine cfunction_call 23 base setter [.table C.fields,value] 0 (hstart.trans ?_)
  exact (bind_run hname).trans ((bind_run htable).trans (bind_run hvalue))

theorem componentNewindex_invalid (h : w.heap.raw C.setters key = .nil) :
    cfunction (componentNewindex run) [.table C.self,key,value] C.invalidWriteError w =
      (do return adjust 0 (← invoke run C.invalidWriteError [.table C.self,key]) : Run (List Value)) w := by
  let u := C.invalidWriteError
  let base : List Value := [.table C.self,key,value]
  have hsettop : settop 3 ⟨base ++ [.table C.setters,w.heap.raw C.setters key],23,u⟩ w =
      (.ok ((),⟨base,23,u⟩),w) := rfl
  have hupvalue : pushvalue upvalueIndex ⟨base,23,u⟩ w =
      (.ok ((),⟨base ++ [u],23,u⟩),w) := pushvalue_run rfl (by simp [base])
  have hself : pushvalue 1 ⟨base ++ [u],23,u⟩ w =
      (.ok ((),⟨base ++ [u,.table C.self],23,u⟩),w) := pushvalue_run rfl (by simp [base])
  have hkey : pushvalue 2 ⟨base ++ [u,.table C.self],23,u⟩ w =
      (.ok ((),⟨base ++ [u,.table C.self,key],23,u⟩),w) := pushvalue_run rfl (by simp [base])
  have hstart : componentNewindex run ⟨[.table C.self,key,value],23,u⟩ w = _ := componentNewindex_start C key value
  rw [if_neg (not_not_intro (Value.type_eq_nil.mpr h))] at hstart
  refine cfunction_call 23 base u [.table C.self,key] 0 (hstart.trans ?_)
  exact (bind_run hsettop).trans ((bind_run hupvalue).trans ((bind_run hself).trans (bind_run hkey)))

end Runs

/-- The function kept to its stack, and returned so many results. -/
def Balanced (n : ℕ) (r : Except Failure (List Value) × World) : Prop :=
  r.1 ≠ .error .undefined ∧ ∀ results, r.1 = .ok results → results.length = n

section Balance
variable (run : Calls) {w : World} (C : Component w.heap) (key value : Value)

theorem balanced_adjust (n : ℕ) (callee : Value) (args : List Value) :
    Balanced n ((do return adjust n (← invoke run callee args) : Run (List Value)) w) := by
  have hinvoke : (invoke run callee args w).1 ≠ .error .undefined := by
    unfold invoke
    split <;> nofun
  cases hrun : invoke run callee args w with
  | mk result w' =>
    rw [hrun] at hinvoke
    cases result with
    | ok results =>
      rw [Run.bind_ok hrun]
      exact ⟨nofun,fun results' h => Except.ok.inj h ▸ length_adjust n results⟩
    | error e =>
      rw [Run.bind_error hrun]
      exact ⟨fun h => hinvoke (congrArg Except.error (Except.error.inj h)),nofun⟩

theorem componentIndex_balanced :
    Balanced 1 (cfunction (componentIndex run) [.table C.self,key] C.defaultValue w) := by
  by_cases h : w.heap.raw C.ids key = .nil
  · rw [componentIndex_default C key h]
    exact balanced_adjust run 1 _ _
  · rw [componentIndex_field C key h]
    exact ⟨nofun,fun results h => Except.ok.inj h ▸ rfl⟩

theorem componentNewindex_balanced :
    Balanced 0 (cfunction (componentNewindex run) [.table C.self,key,value] C.invalidWriteError w) := by
  by_cases h : w.heap.raw C.setters key = .nil
  · rw [componentNewindex_invalid C key value h]
    exact balanced_adjust run 0 _ _
  · rw [componentNewindex_setter C key value h]
    exact balanced_adjust run 0 _ _

end Balance

/-! ## Where they agree -/

section Agreement
variable (run : Calls) {w : World} (C : Component w.heap) (key value : Value)

theorem rawgetOf_self {name : String} {v : Value} (h : w.heap.raw C.self (.string name.toList) = v) :
    rawgetOf (.table C.self) (.string name.toList) w = (.ok v,w) :=
  h ▸ rfl

theorem calls_adjust (n : ℕ) (callee : Value) (args : List Value) :
    ((do return adjust n (← invoke run callee args) : Run (List Value)) w).2.calls = w.calls ++ [(callee,args)] :=
  (Run.calls_map _ _ _).trans (invoke_calls run callee args w)

section Index
variable (defaultValue : Value)

theorem documentedIndex_field {id : Value} (hid : id ≠ .nil)
    (h : index run maxTagLoop (.table C.ids) key w = (.ok id,w)) :
    documentedIndex run defaultValue (.table C.self) key w =
      (do return [← index run maxTagLoop (.table C.fields) id] : Run (List Value)) w := by
  refine (Run.bind_ok (rawgetOf_self C C.ids_eq)).trans ((Run.bind_ok h).trans ?_)
  rw [if_pos hid]
  exact Run.bind_ok (rawgetOf_self C C.fields_eq)

theorem documentedIndex_default (h : index run maxTagLoop (.table C.ids) key w = (.ok .nil,w)) :
    documentedIndex run defaultValue (.table C.self) key w =
      (do return adjust 1 (← invoke run defaultValue [.table C.self,key]) : Run (List Value)) w := by
  refine (Run.bind_ok (rawgetOf_self C C.ids_eq)).trans ((Run.bind_ok h).trans ?_)
  exact if_neg (not_not_intro rfl) ▸ rfl

theorem documentedIndex_error {e : Failure} (h : index run maxTagLoop (.table C.ids) key w = (.error e,w)) :
    documentedIndex run defaultValue (.table C.self) key w = (.error e,w) :=
  (Run.bind_ok (rawgetOf_self C C.ids_eq)).trans (Run.bind_error h)

theorem documentedIndex_records : (index run maxTagLoop (.table C.ids) key w).2.calls <+:
    (documentedIndex run defaultValue (.table C.self) key w).2.calls := by
  rw [documentedIndex,Run.bind_ok (rawgetOf_self C C.ids_eq)]
  refine Run.Records.after (fun id => ?_) _ w
  split
  · exact .bind (.rawgetOf _ _) fun t => .bind (.index run _ t id) fun v => .pure _
  · exact .bind (.invoke run _ _) fun results => .pure _

end Index

theorem handler_call_ne {H : Heap} {self f : ℕ} {callee t key k : Value}
    (hcallee : H.indexHandler (.table self) ≠ callee) (hhandler : H.indexHandler t = .function f) :
    (Value.function f,[t,k]) ≠ (callee,[.table self,key]) := by
  intro h
  obtain ⟨hf,hargs⟩ := Prod.mk.inj h
  obtain ⟨rfl,-⟩ := List.cons.inj hargs
  exact hcallee (hhandler.trans hf)

/-- So a record that goes on from a handler's call is not one with the call of the fallback. -/
theorem fallback_call_ne {H : Heap} {self f : ℕ} {callee t key k : Value} {calls calls' : List (Value × List Value)}
    (hcallee : H.indexHandler (.table self) ≠ callee) (hhandler : H.indexHandler t = .function f)
    (hfirst : calls ++ [(.function f,[t,k])] <+: calls') : calls' ≠ calls ++ [(callee,[.table self,key])] := by
  intro hsame
  rw [hsame,List.prefix_append_right_inj] at hfirst
  exact handler_call_ne hcallee hhandler (List.singleton_inj.mp (hfirst.eq_of_length rfl))

theorem calls_ne_longer (calls : List (Value × List Value)) (call : Value × List Value) : calls ≠ calls ++ [call] :=
  fun hsame => List.cons_ne_nil _ _ (List.self_eq_append_right.mp hsame)

/-- Where the raw lookup of the id does not do, the default value is not what is called. -/
theorem documentedIndex_calls_ne (h : ¬RawSuffices w.heap C.ids key) :
    (documentedIndex run C.defaultValue (.table C.self) key w).2.calls ≠
      w.calls ++ [(C.defaultValue,[.table C.self,key])] := by
  obtain ⟨-,⟨id,hid,hfound⟩ | ⟨e,herror⟩ | ⟨f,t,hhandler,hcalled⟩⟩ := index_not_raw run h
  · rw [documentedIndex_field run C key C.defaultValue hid hfound,Run.calls_map]
    obtain hnone | ⟨f,t,hhandler,hcalled⟩ := index_calls run maxTagLoop (.table C.fields) id w
    · exact hnone ▸ calls_ne_longer _ _
    · rw [hcalled]
      exact fallback_call_ne C.default_ne hhandler (List.prefix_refl _)
  · rw [documentedIndex_error run C key C.defaultValue herror]
    exact calls_ne_longer _ _
  · exact fallback_call_ne C.default_ne hhandler (hcalled ▸ documentedIndex_records run C key C.defaultValue)

theorem index_agrees_iff :
    cfunction (componentIndex run) [.table C.self,key] C.defaultValue w =
      documentedIndex run C.defaultValue (.table C.self) key w ↔
    RawSuffices w.heap C.ids key ∧
      (w.heap.raw C.ids key ≠ .nil → RawSuffices w.heap C.fields (w.heap.raw C.ids key)) := by
  by_cases hid : w.heap.raw C.ids key = .nil
  · rw [componentIndex_default C key hid]
    refine ⟨fun h => ⟨?_,fun hne => absurd hid hne⟩,fun h => ?_⟩
    · by_contra hnot
      apply documentedIndex_calls_ne run C key hnot
      rw [← h]
      exact calls_adjust run 1 _ _
    · have hlookup := index_raw run h.1
      rw [hid] at hlookup
      exact (documentedIndex_default run C key C.defaultValue hlookup).symm
  · have hraw : RawSuffices w.heap C.ids key := .inl hid
    rw [componentIndex_field C key hid,documentedIndex_field run C key C.defaultValue hid (index_raw run hraw)]
    rw [eq_comm,Run.map_eq_ok_iff List.singleton_injective,index_eq_raw_iff]
    exact ⟨fun h => ⟨hraw,fun _ => h⟩,fun h => h.2 hid⟩

section Newindex
variable (invalidWriteError : Value)

theorem documentedNewindex_setter {setter : Value} (hsetter : setter ≠ .nil)
    (h : index run maxTagLoop (.table C.setters) key w = (.ok setter,w)) :
    documentedNewindex run invalidWriteError (.table C.self) key value w =
      (do return adjust 0 (← invoke run setter [.table C.fields,value]) : Run (List Value)) w := by
  simp only [adjust_zero]
  refine (Run.bind_ok (rawgetOf_self C C.setters_eq)).trans ((Run.bind_ok h).trans ?_)
  rw [if_pos hsetter]
  exact Run.bind_ok (rawgetOf_self C C.fields_eq)

theorem documentedNewindex_invalid (h : index run maxTagLoop (.table C.setters) key w = (.ok .nil,w)) :
    documentedNewindex run invalidWriteError (.table C.self) key value w =
      (do return adjust 0 (← invoke run invalidWriteError [.table C.self,key]) : Run (List Value)) w := by
  simp only [adjust_zero]
  refine (Run.bind_ok (rawgetOf_self C C.setters_eq)).trans ((Run.bind_ok h).trans ?_)
  exact if_neg (not_not_intro rfl) ▸ rfl

theorem documentedNewindex_error {e : Failure} (h : index run maxTagLoop (.table C.setters) key w = (.error e,w)) :
    documentedNewindex run invalidWriteError (.table C.self) key value w = (.error e,w) :=
  (Run.bind_ok (rawgetOf_self C C.setters_eq)).trans (Run.bind_error h)

theorem documentedNewindex_records : (index run maxTagLoop (.table C.setters) key w).2.calls <+:
    (documentedNewindex run invalidWriteError (.table C.self) key value w).2.calls := by
  rw [documentedNewindex,Run.bind_ok (rawgetOf_self C C.setters_eq)]
  refine Run.Records.after (fun setter => ?_) _ w
  split
  · exact .bind (.rawgetOf _ _) fun fields => .bind (.invoke run _ _) fun results => .pure _
  · exact .bind (.invoke run _ _) fun results => .pure _

end Newindex

/-- Where the raw lookup of the setter does not do, the error function is not what is called. -/
theorem documentedNewindex_calls_ne (h : ¬RawSuffices w.heap C.setters key) :
    (documentedNewindex run C.invalidWriteError (.table C.self) key value w).2.calls ≠
      w.calls ++ [(C.invalidWriteError,[.table C.self,key])] := by
  obtain ⟨-,⟨setter,hsetter,hfound⟩ | ⟨e,herror⟩ | ⟨f,t,hhandler,hcalled⟩⟩ := index_not_raw run h
  · rw [documentedNewindex_setter run C key value C.invalidWriteError hsetter hfound,calls_adjust]
    intro hsame
    obtain ⟨-,hargs⟩ := Prod.mk.inj (List.singleton_inj.mp (List.append_cancel_left hsame))
    exact C.fields_ne (Value.table.inj (List.cons.inj hargs).1)
  · rw [documentedNewindex_error run C key value C.invalidWriteError herror]
    exact calls_ne_longer _ _
  · apply fallback_call_ne C.invalid_ne hhandler
    exact hcalled ▸ documentedNewindex_records run C key value C.invalidWriteError

theorem newindex_agrees_iff :
    cfunction (componentNewindex run) [.table C.self,key,value] C.invalidWriteError w =
      documentedNewindex run C.invalidWriteError (.table C.self) key value w ↔
    RawSuffices w.heap C.setters key := by
  refine ⟨fun h => ?_,fun h => ?_⟩
  · by_contra hnot
    have hsetter := (index_not_raw run hnot).1
    apply documentedNewindex_calls_ne run C key value hnot
    rw [← h,componentNewindex_invalid C key value hsetter]
    exact calls_adjust run 0 _ _
  · have hlookup := index_raw run h
    by_cases hsetter : w.heap.raw C.setters key = .nil
    · rw [hsetter] at hlookup
      rw [componentNewindex_invalid C key value hsetter]
      exact (documentedNewindex_invalid run C key value C.invalidWriteError hlookup).symm
    · rw [componentNewindex_setter C key value hsetter]
      exact (documentedNewindex_setter run C key value C.invalidWriteError hsetter hlookup).symm

/-- The C metamethods do what the Lua ones do exactly where raw lookups give what ordinary ones give; they are
always balanced. -/
theorem metamethods_agree_iff :
    (cfunction (componentIndex run) [.table C.self,key] C.defaultValue w =
        documentedIndex run C.defaultValue (.table C.self) key w ∧
      cfunction (componentNewindex run) [.table C.self,key,value] C.invalidWriteError w =
        documentedNewindex run C.invalidWriteError (.table C.self) key value w ∧
      Balanced 1 (cfunction (componentIndex run) [.table C.self,key] C.defaultValue w) ∧
      Balanced 0 (cfunction (componentNewindex run) [.table C.self,key,value] C.invalidWriteError w)) ↔
    RawSuffices w.heap C.ids key ∧
      (w.heap.raw C.ids key ≠ .nil → RawSuffices w.heap C.fields (w.heap.raw C.ids key)) ∧
      RawSuffices w.heap C.setters key := by
  have hbalanced := And.intro (componentIndex_balanced run C key)
    (componentNewindex_balanced run C key value)
  rw [and_iff_left hbalanced,index_agrees_iff,newindex_agrees_iff,and_assoc]

end Agreement

/-- A component 0 whose `_ids` are empty and inherit the key `x` from another table. -/
def inheritingHeap : Heap where
  raw
    | 0, .string ['_','i','d','s'] => .table 1
    | 0, .string ['_','f','i','e','l','d','s'] => .table 2
    | 0, .string ['_','s','e','t','t','e','r','s'] => .table 3
    | 4, .string ['_','_','i','n','d','e','x'] => .table 5
    | 5, .string ['x'] => .number 1
    | 2, .number 1 => .boolean true
    | 6, .string ['_','_','i','n','d','e','x'] => .function 2
    | _, _ => .nil
  metatable
    | .table 0 => some 6
    | .table 1 => some 4
    | _ => none

def inheritingComponent : Component inheritingHeap where
  self := 0
  ids := 1
  fields := 2
  setters := 3
  defaultValue := .function 0
  invalidWriteError := .function 1
  ids_eq := by decide
  fields_eq := by decide
  setters_eq := by decide
  fields_ne := by decide
  default_ne := by decide
  invalid_ne := by decide

/-- The field is there, and the default is asked for instead. -/
theorem not_agrees_inherited : ¬∀ (run : Calls) (w : World) (C : Component w.heap) (key value : Value),
    cfunction (componentIndex run) [.table C.self,key] C.defaultValue w =
        documentedIndex run C.defaultValue (.table C.self) key w ∧
      cfunction (componentNewindex run) [.table C.self,key,value] C.invalidWriteError w =
        documentedNewindex run C.invalidWriteError (.table C.self) key value w ∧
      Balanced 1 (cfunction (componentIndex run) [.table C.self,key] C.defaultValue w) ∧
      Balanced 0 (cfunction (componentNewindex run) [.table C.self,key,value] C.invalidWriteError w) := by
  intro hagree
  obtain ⟨hindex,-⟩ := hagree (fun _ _ heap => (.ok [],heap)) ⟨inheritingHeap,[]⟩ inheritingComponent
    (.string ['x']) .nil
  have hresult := congrArg Prod.fst hindex
  revert hresult
  decide

end Machismo.Lua
