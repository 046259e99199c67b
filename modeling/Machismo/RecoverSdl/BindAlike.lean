import Machismo.RecoverSdl.BindEvents

/-! # Streams that both read alike

Of a stream that both accept, the tool reports every bind the loader makes, and more where the
stream goes on after its end or asks for `2^64` binds at once.
-/
namespace Machismo.RecoverSdl
open Machismo.A64 (Byte)
open Machismo.Data Machismo.Resolver

section Lists
variable {α : Type}

theorem append_eq_append_iff_of_le {a b c d : List α} (hca : c.length ≤ a.length) (hdb : d.length ≤ b.length) :
    a++b = c++d ↔ a = c ∧ b = d := by
  constructor
  · intro h
    have hlen := congrArg List.length h
    rw [List.length_append,List.length_append] at hlen
    exact List.append_inj h (by omega)
  · rintro ⟨rfl,rfl⟩
    rfl

theorem forall_cut_cons {P : List α → α → Prop} {x : α} {l : List α} :
    (∀ pre y post, x::l = pre++y::post → P pre y) ↔ P [] x ∧ ∀ pre y post, l = pre++y::post → P (x::pre) y := by
  constructor
  · exact fun h => ⟨h [] x l rfl,fun pre y post hl => h (x::pre) y post (congrArg (x::·) hl)⟩
  · rintro ⟨hx,h⟩ pre y post hl
    cases pre with
    | nil =>
      obtain ⟨rfl,-⟩ := List.cons.inj hl
      exact hx
    | cons z pre =>
      obtain ⟨rfl,htail⟩ := List.cons.inj hl
      exact h pre y post htail

end Lists

section Runs
variable {I : Image} {m : Reads} {r r' : Regs} {q : BindRegs} {events : List Event} {isLazy : Bool}

/-- Each bind is one of fewer than `2^64`, comes before the end, and names what was read alike. -/
def AlikeFrom (isLazy : Bool) (m : Reads) (ops : List Op) : Prop :=
  ∀ pre op post, ops = pre++op::post → op.count ≠ 0 →
    op.count < 2^64 ∧ (isLazy = true ∨ .done ∉ pre) ∧ (pre.foldl Op.read m).all

theorem alikeFrom_nil : AlikeFrom isLazy m [] := fun pre _ _ h => by simp at h

theorem alikeFrom_cons {op : Op} {ops : List Op} (h : isLazy = true ∨ op ≠ .done) :
    AlikeFrom isLazy m (op::ops) ↔ (op.count ≠ 0 → op.count < 2^64 ∧ m.all) ∧ AlikeFrom isLazy (op.read m) ops := by
  have hpre (pre : List Op) : isLazy = true ∨ .done ∉ op::pre ↔ isLazy = true ∨ .done ∉ pre := by
    rw [List.mem_cons,not_or]
    have := h.imp id Ne.symm
    tauto
  have hhead : isLazy = true ∨ .done ∉ ([] : List Op) := .inr List.not_mem_nil
  refine forall_cut_cons.trans (and_congr ?_ ?_)
  · rw [List.foldl_nil]
    exact imp_congr_right fun _ => and_congr_right fun _ => and_iff_right hhead
  · simp only [hpre,List.foldl_cons]
    rfl

theorem alikeFrom_done {ops : List Op} : AlikeFrom false m (.done::ops) ↔ ∀ op ∈ ops, op.count = 0 := by
  constructor
  · intro h op hop
    obtain ⟨pre,post,rfl⟩ := List.append_of_mem hop
    by_contra hne
    obtain ⟨-,hlazy | hdone,-⟩ := h (.done::pre) op post rfl hne
    · cases hlazy
    · exact hdone List.mem_cons_self
  · intro h pre op post hops hne
    refine absurd ?_ hne
    have hop : op ∈ .done::ops := hops ▸ List.mem_append_right pre List.mem_cons_self
    obtain rfl | hop := List.mem_cons.mp hop
    · rfl
    · exact h op hop

theorem Step.length_le {op : Op} (hstep : Step I m op r' events q) :
    ((op.toLoader.exec q).2.filterMap (bindSlot? I)).length ≤ (events.map Event.slot).length := by
  rw [hstep.slots,List.length_map,List.length_map]
  exact List.length_take_le' _ _

theorem Step.slots_eq_iff {op : Op} (hstep : Step I m op r' events q) :
    events.map Event.slot = (op.toLoader.exec q).2.filterMap (bindSlot? I) ↔
      (op.count ≠ 0 → op.count < 2^64 ∧ m.all) := by
  rw [hstep.slots,← hstep.length]
  constructor
  · intro h hne
    have hlen := congrArg List.length h
    rw [List.length_map,List.length_map,List.length_take] at hlen
    have hmod := Nat.mod_lt events.length (show 0 < 2^64 by decide)
    have hlt : events.length < 2^64 := by omega
    rw [Nat.mod_eq_of_lt hlt,List.take_length,List.map_inj_left] at h
    obtain ⟨event,hmem⟩ := List.exists_mem_of_length_pos (Nat.pos_of_ne_zero hne)
    exact ⟨hlt,(hstep.told event hmem).mp (h event hmem)⟩
  · intro h
    by_cases hzero : events.length = 0
    · rw [List.eq_nil_of_length_eq_zero hzero]
      rfl
    · obtain ⟨hlt,hall⟩ := h hzero
      rw [Nat.mod_eq_of_lt hlt,List.take_length,List.map_inj_left]
      exact fun event hmem => (hstep.told event hmem).mpr hall

theorem Sim.run_eq_nil_iff {ops : List Op} (hsim : Sim m r q) (h : run I.segments ops r = some events) :
    events = [] ↔ ∀ op ∈ ops, op.count = 0 := by
  induction ops generalizing m r q events with
  | nil =>
    obtain rfl := Option.some.inj h
    simp
  | cons op ops ih =>
    obtain ⟨⟨r',first⟩,hexec,h⟩ := Option.bind_eq_some_iff.mp h
    obtain ⟨rest,hrest,rfl⟩ := Option.map_eq_some_iff.mp h
    have hstep := hsim.exec hexec
    rw [List.append_eq_nil_iff,ih hstep.sim hrest,List.forall_mem_cons,← hstep.length,List.length_eq_zero_iff]

theorem Sim.length_le {ops : List Op} (hsim : Sim m r q) (h : run I.segments ops r = some events) :
    ((bindRun isLazy (ops.map Op.toLoader) q).2.filterMap (bindSlot? I)).length ≤ (events.map Event.slot).length := by
  induction ops generalizing m r q events with
  | nil => exact Nat.zero_le _
  | cons op ops ih =>
    obtain ⟨⟨r',first⟩,hexec,h⟩ := Option.bind_eq_some_iff.mp h
    obtain ⟨rest,hrest,rfl⟩ := Option.map_eq_some_iff.mp h
    have hstep := hsim.exec hexec
    by_cases hthreaded : op = .threaded
    · subst hthreaded
      exact Nat.zero_le _
    by_cases hdone : isLazy = true ∨ op ≠ .done
    · rw [List.map_cons,bindRun_toLoader_cons hdone hthreaded,List.filterMap_append,List.map_append,List.length_append,
        List.length_append]
      exact Nat.add_le_add hstep.length_le (ih hstep.sim hrest)
    · obtain ⟨hlazy,rfl⟩ := not_or.mp hdone |>.imp Bool.eq_false_of_not_eq_true not_not.mp
      subst hlazy
      exact Nat.zero_le _

theorem Sim.slots_eq_iff {ops : List Op} (hsim : Sim m r q) (htool : run I.segments ops r = some events)
    (hloader : (bindRun isLazy (ops.map Op.toLoader) q).1 = true) :
    events.map Event.slot = (bindRun isLazy (ops.map Op.toLoader) q).2.filterMap (bindSlot? I) ↔
      AlikeFrom isLazy m ops := by
  induction ops generalizing m r q events with
  | nil =>
    obtain rfl := Option.some.inj htool
    exact iff_of_true rfl alikeFrom_nil
  | cons op ops ih =>
    obtain ⟨⟨r',first⟩,hexec,htool⟩ := Option.bind_eq_some_iff.mp htool
    obtain ⟨rest,hrest,rfl⟩ := Option.map_eq_some_iff.mp htool
    have hstep := hsim.exec hexec
    have hthreaded : op ≠ .threaded := by
      rintro rfl
      cases hloader
    by_cases hdone : isLazy = true ∨ op ≠ .done
    · rw [List.map_cons,bindRun_toLoader_cons hdone hthreaded] at hloader ⊢
      dsimp only
      rw [List.filterMap_append,List.map_append,
        append_eq_append_iff_of_le hstep.length_le (hstep.sim.length_le hrest),alikeFrom_cons hdone]
      exact and_congr hstep.slots_eq_iff (ih hstep.sim hrest hloader)
    · -- The loader ends here, and what the tool reports from here on is too much.
      obtain ⟨hlazy,rfl⟩ := not_or.mp hdone |>.imp Bool.eq_false_of_not_eq_true not_not.mp
      subst hlazy
      obtain rfl := List.eq_nil_of_length_eq_zero hstep.length
      rw [alikeFrom_done,← hstep.sim.run_eq_nil_iff hrest]
      exact List.map_eq_nil_iff

end Runs

/-- The condition on the opcodes of a stream. -/
def Alike (kind : Kind) (raw : List Byte) : Prop :=
  ∀ ops, opsFrom raw.length raw = some ops → AlikeFrom kind.isLazy (.initial kind) ops

/-- Of a stream that both accept, the tool reports the loader's binds exactly when it is read alike. -/
theorem bind_events_iff {I : Image} {kind : Kind} {raw : List Byte} {events : List Event}
    (htool : decodeBind kind I.segments raw = some events)
    (hloader : (bindRun kind.isLazy (bindOps raw) .initial).1 = true) :
    events.map Event.slot = (streamBinds kind.isLazy raw).filterMap (bindSlot? I) ↔ Alike kind raw := by
  obtain ⟨ops,hops,hrun⟩ := ops_of_decodeBindFrom htool
  have hbinds : bindRun kind.isLazy (bindOps raw) .initial = bindRun kind.isLazy (ops.map Op.toLoader) .initial :=
    bindRun_bindOpsFrom hops _
  rw [hbinds] at hloader
  rw [streamBinds,hbinds,(Sim.initial kind).slots_eq_iff hrun hloader]
  constructor
  · intro h ops' hops'
    obtain rfl := Option.some.inj (hops.symm.trans hops')
    exact h
  · exact fun h => h ops hops

section Examples

/-- One segment of a page at the address `0x1000`. -/
def pageImage : Image := ⟨0x500000,0,fun _ => ⟨[],.map,[],0,0⟩,0,[⟨0x1000,0x1000⟩]⟩

/-- A symbol `f` of the library 1, bound at the start of the segment. -/
def oneBind : List Byte := [0x11,0x40,0x66,0x00,0x70,0x00,0x90,0x00]

theorem bind_events_oneBind : decodeBind .bind pageImage.segments oneBind = some [⟨0x1000,['f'],1,0⟩] ∧
    Alike .bind oneBind := by
  have htool : decodeBind .bind pageImage.segments oneBind = some [⟨0x1000,['f'],1,0⟩] := by decide +kernel
  have hloader : (bindRun Kind.bind.isLazy (bindOps oneBind) .initial).1 = true := by decide +kernel
  exact ⟨htool,(bind_events_iff htool hloader).mp (by decide +kernel)⟩

/-- The tool goes on after the end of a stream, and starts a stream of weak binds with an ordinal of its own. -/
theorem bind_events_differ :
    (∃ events, decodeBind .bind pageImage.segments (oneBind++[0x90]) = some events ∧
      (bindRun Kind.bind.isLazy (bindOps (oneBind++[0x90])) .initial).1 = true ∧
      events.map Event.slot ≠ (streamBinds Kind.bind.isLazy (oneBind++[0x90])).filterMap (bindSlot? pageImage)) ∧
    ∃ events, decodeBind .weakBind pageImage.segments (oneBind.drop 1) = some events ∧
      (bindRun Kind.weakBind.isLazy (bindOps (oneBind.drop 1)) .initial).1 = true ∧
      events.map Event.slot ≠ (streamBinds Kind.weakBind.isLazy (oneBind.drop 1)).filterMap (bindSlot? pageImage) := by
  refine ⟨⟨[⟨0x1000,['f'],1,0⟩,⟨0x1008,['f'],1,0⟩],?_⟩,[⟨0x1000,['f'],-3,0⟩],?_⟩
  · decide +kernel
  · decide +kernel

end Examples

end Machismo.RecoverSdl
