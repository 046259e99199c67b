import Machismo.Heaptrack.Replay

/-! # Runs of the hooks

Every `+` goes with an entry of the pointer map or the region table, and every `-` with one
that leaves, as long as no pointer is entered that the map has already and the tag table has
room.  Then the stream of a whole run replays to the blocks the tracer holds.
-/
namespace Machismo.Heaptrack.Stream
open Data

section Emit
variable {s : State} {r : Replay} {c : Context}

theorem emit_stringsOnly (s : State) (x : Record) : StringsOnly s (s.emit x) := ⟨_,_,_,rfl⟩

theorem emitClock_stringsOnly (c : Context) (s : State) : StringsOnly s (s.emitClock c) := by
  unfold State.emitClock
  cases c.rss with
  | none => exact emit_stringsOnly _ _
  | some pages =>
    dsimp only
    split_ifs
    · exact emit_stringsOnly _ _
    · exact (emit_stringsOnly _ _).trans (emit_stringsOnly _ _)

theorem Names.emitClock (h : Names s r) (c : Context) : Names (s.emitClock c) r := by
  have hclock : Names (s.emit (.clock c.ms)) r := h.emit trivial rfl rfl
  unfold State.emitClock
  cases c.rss with
  | none => exact hclock
  | some pages =>
    dsimp only
    split_ifs
    · exact hclock
    · exact hclock.emit trivial rfl rfl

theorem Sim.emitClock (h : Sim s r) (c : Context) : Sim (s.emitClock c) r :=
  ⟨h.names.emitClock c,h.tables.strings (emitClock_stringsOnly c s) r.strings⟩

theorem apply_plus {k : ℕ} (hk : k < r.infos.length) : r.apply (.plus k) = some { r with live := k ::ₘ r.live } := by
  simp [Replay.apply,List.getElem?_eq_getElem hk]

theorem apply_minus {k : ℕ} (hk : k ∈ r.live) : r.apply (.minus k) = some { r with live := r.live.erase k } := by
  simp [Replay.apply,hk]

theorem Names.plus {s' : State} {k : ℕ} (h : Names s r) (ht : Tables s' { r with live := k ::ₘ r.live })
    (hrec : s'.records = s.records) (htable : s'.strTable = s.strTable) (hnext : s'.strNext = s.strNext)
    (hk : k < s'.ainfoNext) : Sim (s'.emit (.plus k)) { r with live := k ::ₘ r.live } := by
  have hnames : Names s' r := ⟨hrec ▸ h.replay,hrec ▸ h.lines,hnext ▸ h.next,htable ▸ h.string⟩
  have hlen : k < r.infos.length := ht.infos.symm ▸ hk
  exact ⟨hnames.emit trivial (apply_plus hlen) rfl,ht.strings (emit_stringsOnly _ _) r.strings⟩

theorem Sim.minus {s' : State} {k : ℕ} (h : Sim s r) (ht : Tables s' { r with live := r.live.erase k })
    (hrec : s'.records = s.records) (htable : s'.strTable = s.strTable) (hnext : s'.strNext = s.strNext)
    (hk : k ∈ s.held) : Sim (s'.emit (.minus k)) { r with live := r.live.erase k } := by
  have hnames : Names s' r :=
    ⟨hrec ▸ h.names.replay,hrec ▸ h.names.lines,hnext ▸ h.names.next,htable ▸ h.names.string⟩
  exact ⟨hnames.emit trivial (apply_minus (h.tables.live ▸ hk)) rfl,ht.strings (emit_stringsOnly _ _) r.strings⟩

theorem Tables.reheld (h : Tables s r) {ptrMap : List (ℕ × ℕ)} {regions : List Region} {count : ℕ}
    (hregions : ∀ g ∈ regions, g.traceIdx < s.traceNext) {live : Multiset ℕ}
    (hlive : live = ↑(ptrMap.map Prod.snd)+↑(regions.map Region.ainfoIdx)) (hbound : ∀ k ∈ live, k < s.ainfoNext)
    (hkeys : (ptrMap.map Prod.fst).Nodup) :
    Tables { s with ptrMap := ptrMap, regions := regions, allocCount := count } { r with live := live } :=
  ⟨h.ips,h.ip,h.tag,h.traces,h.trace,h.given,h.infos,h.info,h.based,h.known,hregions,
    fun k hk => hbound k (hlive ▸ hk),hlive,hkeys⟩

end Emit

section Locked
variable {s : State} {r : Replay} {c : Context}

theorem perm_cons_eraseP {α : Type} {p : α → Bool} {l : List α} {e : α} (h : l.find? p = some e) :
    l.Perm (e::l.eraseP p) := by
  induction l with
  | nil => simp at h
  | cons a l ih =>
    by_cases ha : p a
    · rw [List.find?_cons_of_pos ha] at h
      rw [List.eraseP_cons_of_pos ha,Option.some.inj h]
    · rw [List.find?_cons_of_neg ha] at h
      rw [List.eraseP_cons_of_neg ha]
      exact ((ih h).cons a).trans (List.Perm.swap ..)

theorem Sim.doFreeLocked (h : Sim s r) (ptr : ℕ) : ∃ r', Sim (doFreeLocked ptr s) r' := by
  unfold Stream.doFreeLocked
  cases hfind : s.ptrMap.find? fun e => e.1 == ptr with
  | none => exact ⟨r,h⟩
  | some e =>
    have hperm := (perm_cons_eraseP hfind).map Prod.snd
    have hheld : s.held = e.2 ::ₘ
        (↑((s.ptrMap.eraseP fun e => e.1 == ptr).map Prod.snd)+↑(s.regions.map Region.ainfoIdx)) := by
      rw [State.held,Multiset.coe_eq_coe.mpr hperm]
      rfl
    have hrest : r.live.erase e.2 =
        ↑((s.ptrMap.eraseP fun e => e.1 == ptr).map Prod.snd)+↑(s.regions.map Region.ainfoIdx) := by
      rw [h.tables.live,hheld,Multiset.erase_cons_head]
    refine ⟨_,h.minus (h.tables.reheld h.tables.region hrest ?_ ?_) rfl rfl rfl ?_⟩
    · intro k hk
      exact h.tables.held k (by rw [← h.tables.live]; exact Multiset.mem_of_mem_erase hk)
    · exact h.tables.keys.sublist (List.eraseP_sublist.map _)
    · rw [hheld]
      exact Multiset.mem_cons_self _ _

theorem ptrMapInsert_new {ptr ainfoIdx : ℕ} {map : List (ℕ × ℕ)} (h : ∀ e ∈ map, e.1 ≠ ptr) :
    ptrMapInsert ptr ainfoIdx map = (ptr,ainfoIdx)::map := by
  refine if_neg fun hany => ?_
  obtain ⟨e,he,heq⟩ := List.any_eq_true.mp hany
  exact h e he (by simpa using heq)

theorem Sim.insert (h : Sim s r) {ptr k : ℕ} (hnew : ∀ e ∈ s.ptrMap, e.1 ≠ ptr) (hk : k < s.ainfoNext) :
    ∃ r', Sim (State.emit (if (s.allocCount+1)%1024 = 0 then
      State.emitClock c { s with ptrMap := ptrMapInsert ptr k s.ptrMap, allocCount := s.allocCount+1 } else
      { s with ptrMap := ptrMapInsert ptr k s.ptrMap, allocCount := s.allocCount+1 }) (.plus k)) r' := by
  rw [ptrMapInsert_new hnew]
  have ht : Tables { s with ptrMap := (ptr,k)::s.ptrMap, allocCount := s.allocCount+1 }
      { r with live := k ::ₘ r.live } := by
    refine h.tables.reheld h.tables.region ?_ ?_ (List.nodup_cons.mpr ⟨fun hmem => ?_,h.tables.keys⟩)
    · rw [h.tables.live]
      rfl
    · intro j hj
      rcases Multiset.mem_cons.mp hj with rfl | hj
      · exact hk
      · exact h.tables.held j (h.tables.live ▸ hj)
    · obtain ⟨e,he,heq⟩ := List.mem_map.mp hmem
      exact hnew e he heq
  have hnames : Names { s with ptrMap := (ptr,k)::s.ptrMap, allocCount := s.allocCount+1 } r :=
    ⟨h.names.replay,h.names.lines,h.names.next,h.names.string⟩
  split_ifs
  · have hstrings := emitClock_stringsOnly c { s with ptrMap := (ptr,k)::s.ptrMap, allocCount := s.allocCount+1 }
    have hnext : k < (State.emitClock c { s with
        ptrMap := (ptr,k)::s.ptrMap
        allocCount := s.allocCount+1 }).ainfoNext := by
      obtain ⟨_,_,_,heq⟩ := hstrings
      rw [heq]
      exact hk
    exact ⟨_,(hnames.emitClock c).plus (ht.strings hstrings r.strings) rfl rfl rfl hnext⟩
  · exact ⟨_,hnames.plus ht rfl rfl rfl hk⟩

theorem Sim.doAllocLocked (h : Sim s r) {ptr : ℕ} (hnew : ∀ e ∈ s.ptrMap, e.1 ≠ ptr) (size : ℕ) {res : List Hint}
    (hres : ∀ hint ∈ res, hint.OneLine) : ∃ r', Sim (doAllocLocked c ptr size res s) r' := by
  obtain ⟨r₁,h₁,hidx,hkept₁⟩ := h.internFrames c.frames hres
  obtain ⟨r₂,h₂,hinfo,hkept₂,-⟩ := h₁.internAllocInfo size hidx
  refine h₂.insert ?_ hinfo
  rw [hkept₂.ptrMap,hkept₁.ptrMap]
  exact hnew

theorem Sim.add (h : Sim s r) (addr len : ℕ) {k traceIdx : ℕ} (hk : k < s.ainfoNext) (htrace : traceIdx < s.traceNext) :
    ∃ r', Sim ((regionAdd addr len k traceIdx s).emit (.plus k)) r' := by
  have ht : Tables (regionAdd addr len k traceIdx s) { r with live := k ::ₘ r.live } := by
    refine h.tables.reheld ?_ ?_ ?_ h.tables.keys
    · intro g hg
      rcases List.mem_append.mp hg with hg | hg
      · exact h.tables.region g hg
      · rw [List.mem_singleton.mp hg]
        exact htrace
    · have hperm : ((s.regions++[(⟨addr,len,k,traceIdx⟩ : Region)]).map Region.ainfoIdx).Perm
          (k::s.regions.map Region.ainfoIdx) := by
        rw [List.map_append]
        exact List.perm_append_singleton _ _
      rw [h.tables.live,State.held,Multiset.coe_eq_coe.mpr hperm,← Multiset.cons_coe,Multiset.add_cons]
    · intro j hj
      rcases Multiset.mem_cons.mp hj with rfl | hj
      · exact hk
      · exact h.tables.held j (h.tables.live ▸ hj)
  exact ⟨_,h.names.plus ht rfl rfl rfl hk⟩

theorem Sim.doMmapLocked (h : Sim s r) (ptr len : ℕ) {tag : Name} (htag : '\n' ∉ tag) (hslot : s.HasSlot tag)
    {res : List Hint} (hres : ∀ hint ∈ res, hint.OneLine) :
    ∃ s', doMmapLocked c ptr len tag res s = some s' ∧ ∃ r', Sim s' r' := by
  obtain ⟨r₁,h₁,hidx,hkept₁⟩ := h.internFrames c.frames hres
  have hslot₁ : (Stream.internFrames c.frames res s).2.HasSlot tag := by
    rw [State.HasSlot,hkept₁.tagIps]
    exact hslot
  obtain ⟨g,s₂,heq,r₂,h₂,hip,-,-,hnext⟩ := h₁.internTagIp htag hslot₁
  obtain ⟨r₃,h₃,htrace,-⟩ := h₂.internTrace hip (hnext ▸ hidx)
  obtain ⟨r₄,h₄,hinfo,-,hnext₄⟩ := h₃.internAllocInfo len htrace
  obtain ⟨r₅,h₅⟩ := h₄.add ptr len hinfo (hnext₄ ▸ htrace)
  refine ⟨_,?_,r₅,h₅.emitClock c⟩
  unfold Stream.doMmapLocked
  dsimp only
  rw [heq]
  rfl

theorem Sim.survive (h : Sim s r) (addr len : ℕ) {traceIdx : ℕ} (htrace : traceIdx < s.traceNext) :
    ∃ r', Sim (survive addr len traceIdx s) r' ∧ (Stream.survive addr len traceIdx s).traceNext = s.traceNext ∧
      (Stream.survive addr len traceIdx s).tagIps = s.tagIps := by
  obtain ⟨r₁,h₁,hinfo,hkept,hnext⟩ := h.internAllocInfo len htrace
  obtain ⟨r₂,h₂⟩ := h₁.add addr len hinfo (hnext ▸ htrace)
  exact ⟨r₂,h₂,hnext,hkept.tagIps⟩

theorem Sim.drop (h : Sim s r) {i : ℕ} (hi : i < s.regions.length) :
    ∃ r', Sim { s.emit (.minus s.regions[i].ainfoIdx) with regions := swapRemove s.regions i } r' := by
  have hperm := (getElem_cons_swapRemove_perm hi).map Region.ainfoIdx
  have hheld : s.held = s.regions[i].ainfoIdx ::ₘ
      (↑(s.ptrMap.map Prod.snd)+↑((swapRemove s.regions i).map Region.ainfoIdx)) := by
    rw [State.held,← Multiset.coe_eq_coe.mpr hperm,List.map_cons,← Multiset.cons_coe,Multiset.add_cons]
  have hrest : r.live.erase s.regions[i].ainfoIdx =
      ↑(s.ptrMap.map Prod.snd)+↑((swapRemove s.regions i).map Region.ainfoIdx) := by
    rw [h.tables.live,hheld,Multiset.erase_cons_head]
  have ht : Tables { s with regions := swapRemove s.regions i }
      { r with live := r.live.erase s.regions[i].ainfoIdx } := by
    refine h.tables.reheld ?_ hrest ?_ h.tables.keys
    · exact fun g hg => h.tables.region g ((getElem_cons_swapRemove_perm hi).subset (List.mem_cons_of_mem _ hg))
    · intro k hk
      exact h.tables.held k (by rw [← h.tables.live]; exact Multiset.mem_of_mem_erase hk)
  refine ⟨_,h.minus ht rfl rfl rfl ?_⟩
  rw [hheld]
  exact Multiset.mem_cons_self _ _

theorem Sim.retire (h : Sim s r) (us ue : ℕ) {i : ℕ} (hi : i < s.regions.length) :
    ∃ r', Sim (retire us ue i s.regions[i] s) r' ∧ (Stream.retire us ue i s.regions[i] s).tagIps = s.tagIps := by
  have htrace := h.tables.region _ (List.getElem_mem hi)
  obtain ⟨r₁,h₁⟩ := h.drop hi
  obtain ⟨r₂,h₂,hnext₂,htags₂⟩ := h₁.survive s.regions[i].addr (us-s.regions[i].addr) htrace
  obtain ⟨r₃,h₃,-,htags₃⟩ := h₁.survive ue (s.regions[i].addr+s.regions[i].len-ue) htrace
  obtain ⟨r₄,h₄,-,htags₄⟩ := h₂.survive ue (s.regions[i].addr+s.regions[i].len-ue) (hnext₂ ▸ htrace)
  unfold Stream.retire
  dsimp only
  split_ifs
  · exact ⟨r₄,h₄,htags₄.trans htags₂⟩
  · exact ⟨r₃,h₃,htags₃⟩
  · exact ⟨r₂,h₂,htags₂⟩
  · exact ⟨r₁,h₁,rfl⟩

theorem Sim.munmapLoop (us ue i : ℕ) (hit : Bool) (h : Sim s r) : ∃ r', Sim (munmapLoop us ue i hit s).2 r' ∧
    (Stream.munmapLoop us ue i hit s).2.tagIps = s.tagIps := by
  induction i, hit, s using Stream.munmapLoop.induct us ue generalizing r with
  | case1 i hit s hi hover ih =>
    obtain ⟨r₁,h₁,htags₁⟩ := h.retire us ue hi
    obtain ⟨r₂,h₂,htags₂⟩ := ih h₁
    rw [Stream.munmapLoop,dif_pos hi,if_pos hover]
    exact ⟨r₂,h₂,htags₂.trans htags₁⟩
  | case2 i hit s hi hout ih =>
    rw [Stream.munmapLoop,dif_pos hi,if_neg hout]
    exact ih h
  | case3 i hit s hi =>
    rw [Stream.munmapLoop,dif_neg hi]
    exact ⟨r,h,rfl⟩

theorem Sim.doMunmapLocked (h : Sim s r) (ptr len : ℕ) : ∃ r', Sim (doMunmapLocked c ptr len s) r' ∧
    (Stream.doMunmapLocked c ptr len s).tagIps = s.tagIps := by
  obtain ⟨r₁,h₁,htags⟩ := h.munmapLoop ptr (ptr+len) 0 false
  unfold Stream.doMunmapLocked
  dsimp only
  split_ifs
  · exact ⟨r₁,h₁.emitClock c,(emitClock_stringsOnly c _).kept.1.tagIps.trans htags⟩
  · exact ⟨r₁,h₁,htags⟩

end Locked

section Hooks
variable {s : State} {r : Replay} {c : Context}

/-- Names without a line's end. -/
def Context.OneLine (c : Context) : Prop := ∀ addr ∈ c.frames, '\n' ∉ (c.resolve addr).1 ∧ '\n' ∉ (c.resolve addr).2

def State.Untracked (s : State) (ptr : ℕ) : Prop := ∀ e ∈ s.ptrMap, e.1 ≠ ptr

/-- What a hook is to meet: a new block is not in the pointer map, a new tag finds a slot, and names are lines. -/
def Hook.Clean (c : Context) (s : State) : Hook → Prop
  | .alloc ptr _ => ptr ≠ 0 → s.Untracked ptr ∧ c.OneLine
  | .free _ => True
  | .realloc oldPtr newPtr _ => newPtr ≠ 0 → (newPtr = oldPtr ∨ s.Untracked newPtr) ∧ c.OneLine
  | .mmap ptr len _ backing => ptr ≠ 0 → ptr ≠ mapFailed → len ≠ 0 →
      ∀ tag, backing.tag = some tag → s.HasSlot tag ∧ '\n' ∉ tag ∧ c.OneLine
  | .munmap _ _ => True

theorem Context.OneLine.hints (h : c.OneLine) (s : State) : ∀ hint ∈ htPresolve c.frames c.resolve s, hint.OneLine := by
  intro hint hmem
  obtain ⟨addr,haddr,rfl⟩ := List.mem_map.mp hmem
  obtain ⟨hfn,hmod⟩ := h addr (List.mem_of_mem_filter (List.mem_eraseDups.mp haddr))
  exact ⟨hmod,hfn⟩

theorem doFreeLocked_untracked (hkeys : (s.ptrMap.map Prod.fst).Nodup) (ptr : ℕ) :
    (doFreeLocked ptr s).Untracked ptr := by
  unfold doFreeLocked
  cases hfind : s.ptrMap.find? fun e => e.1 == ptr with
  | none => exact fun e he heq => absurd (List.find?_eq_none.mp hfind e he) (by simp [heq])
  | some e =>
    have hptr : e.1 = ptr := by simpa using List.find?_some hfind
    have hnodup := ((perm_cons_eraseP hfind).map Prod.fst).nodup_iff.mp hkeys
    intro e' he' heq
    have hkey : e'.1 = e.1 := heq.trans hptr.symm
    exact (List.nodup_cons.mp hnodup).1 (hkey ▸ List.mem_map_of_mem he')

theorem State.Untracked.doFreeLocked {ptr : ℕ} (h : s.Untracked ptr) (p : ℕ) : (doFreeLocked p s).Untracked ptr := by
  unfold Stream.doFreeLocked
  cases s.ptrMap.find? fun e => e.1 == p with
  | none => exact h
  | some e => exact fun e' he' => h e' (List.mem_of_mem_eraseP he')

theorem Sim.realloc (h : Sim s r) {oldPtr newPtr size : ℕ} (hc : (Hook.realloc oldPtr newPtr size).Clean c s) :
    ∃ r', Sim (machismoHeaptrackRealloc c oldPtr newPtr size s) r' := by
  unfold machismoHeaptrackRealloc
  dsimp only
  by_cases hfail : newPtr = 0 ∧ size ≠ 0
  · rw [if_pos hfail]
    exact ⟨r,h⟩
  rw [if_neg hfail]
  obtain ⟨r₁,h₁⟩ : ∃ r', Sim (if oldPtr = 0 then s else Stream.doFreeLocked oldPtr s) r' := by
    split_ifs
    · exact ⟨r,h⟩
    · exact h.doFreeLocked oldPtr
  by_cases hnull : newPtr = 0
  · rw [if_pos hnull]
    exact ⟨r₁,h₁⟩
  rw [if_neg hnull]
  obtain ⟨hnew,hlines⟩ := hc hnull
  refine h₁.doAllocLocked ?_ size (hlines.hints s)
  split_ifs with hold
  · exact hnew.resolve_left fun heq => hnull (heq.trans hold)
  · rcases hnew with rfl | hnew
    · exact doFreeLocked_untracked h.tables.keys newPtr
    · exact hnew.doFreeLocked oldPtr

theorem Sim.mmap (h : Sim s r) {ptr len : ℕ} {fixed : Bool} {backing : Backing}
    (hc : (Hook.mmap ptr len fixed backing).Clean c s) :
    ∃ s', machismoHeaptrackMmap c ptr len fixed backing s = some s' ∧ ∃ r', Sim s' r' := by
  unfold machismoHeaptrackMmap
  by_cases hskip : ptr = 0 ∨ ptr = mapFailed ∨ len = 0
  · rw [if_pos hskip]
    exact ⟨s,rfl,r,h⟩
  rw [if_neg hskip]
  obtain ⟨hptr,hfailed,hlen⟩ : ptr ≠ 0 ∧ ptr ≠ mapFailed ∧ len ≠ 0 := by simpa [not_or] using hskip
  obtain ⟨r₁,h₁,htags⟩ : ∃ r', Sim (if fixed then Stream.doMunmapLocked c ptr len s else s) r' ∧
      (if fixed then Stream.doMunmapLocked c ptr len s else s).tagIps = s.tagIps := by
    split_ifs
    · exact h.doMunmapLocked ptr len
    · exact ⟨r,h,rfl⟩
  cases htag : backing.tag with
  | none => exact ⟨_,rfl,r₁,h₁⟩
  | some tag =>
    obtain ⟨hslot,hline,hlines⟩ := hc hptr hfailed hlen tag htag
    refine h₁.doMmapLocked ptr len hline ?_ (hlines.hints s)
    rw [State.HasSlot,htags]
    exact hslot

theorem Sim.run (h : Sim s r) {hook : Hook} (hc : hook.Clean c s) : ∃ s', hook.run c s = some s' ∧ ∃ r', Sim s' r' := by
  cases hook with
  | alloc ptr size =>
    refine ⟨_,rfl,?_⟩
    split_ifs with hnull
    · exact ⟨r,h⟩
    · exact h.doAllocLocked (hc hnull).1 size ((hc hnull).2.hints s)
  | free ptr =>
    refine ⟨_,rfl,?_⟩
    split_ifs
    · exact ⟨r,h⟩
    · exact h.doFreeLocked ptr
  | realloc oldPtr newPtr size => exact ⟨_,rfl,h.realloc hc⟩
  | mmap ptr len fixed backing => exact h.mmap hc
  | munmap ptr len =>
    refine ⟨_,rfl,?_⟩
    split_ifs
    · exact ⟨r,h⟩
    · obtain ⟨r₁,h₁,-⟩ := h.doMunmapLocked (c := c) ptr len
      exact ⟨r₁,h₁⟩

end Hooks

section Runs

def runAll (hooks : List (Context × Hook)) (s : State) : Option State := hooks.foldlM (fun s h => h.2.run h.1 s) s

/-- No `int` of the tables has come near its limit: the load of a table is taken as ten times its entries. -/
structure State.Small (s : State) : Prop where
  strings : s.strTable.length < 2^27
  ips : s.ipTable.length < 2^27
  traces : s.traceTable.length < 2^27
  infos : s.ainfoTable.length < 2^27
  ptrs : s.ptrMap.length < 2^27
  regions : s.regions.length < 2^27
  allocs : s.allocCount < 2^31

/-- Every hook of the run is clean where it is called, and leaves small tables. -/
def AllClean : State → List (Context × Hook) → Prop
  | _,[] => True
  | s,h::rest => h.2.Clean h.1 s ∧ ∀ s', h.2.run h.1 s = some s' → s'.Small ∧ AllClean s' rest

theorem Sim.runAll {s : State} {r : Replay} (h : Sim s r) {hooks : List (Context × Hook)} (hc : AllClean s hooks) :
    ∃ s', runAll hooks s = some s' ∧ ∃ r', Sim s' r' := by
  induction hooks generalizing s r with
  | nil => exact ⟨s,rfl,r,h⟩
  | cons hook rest ih =>
    obtain ⟨s₁,hrun,r₁,h₁⟩ := h.run hc.1
    obtain ⟨s₂,hrest,hsim⟩ := ih h₁ (hc.2 s₁ hrun).2
    refine ⟨s₂,?_,hsim⟩
    rw [Stream.runAll,List.foldlM_cons,hrun]
    exact hrest

theorem Sim.blocks {s : State} {r : Replay} (h : Sim s r) : r.blocks = s.blocks := by
  rw [Replay.blocks,State.blocks,h.tables.live]
  refine Multiset.map_congr rfl fun k hk => ?_
  rw [List.getD_eq_getElem?_getD,h.tables.info k (h.tables.held k hk)]
  rfl

/-- The stream of a clean run replays, and to the blocks that the tracer holds. -/
theorem clean_replay (hooks : List (Context × Hook)) (hc : AllClean .start hooks) :
    ∃ s r, runAll hooks .start = some s ∧ replayText (text s.records) = some r ∧ r.blocks = s.blocks := by
  obtain ⟨s,hrun,r,h⟩ := Sim.runAll ⟨Names.start,Tables.start⟩ hc
  exact ⟨s,r,hrun,(replayText_text h.names.lines).trans h.names.replay,h.blocks⟩

/-- Two frames whose names are not known, and no clock to speak of. -/
def plainContext : Context := ⟨[0x2000,0x1000],fun _ => (unknown,unknown),0,none⟩

/-- A block and a mapping. -/
theorem clean_replay_two_blocks : ∃ s r,
    runAll [(plainContext,.alloc 64 8),(plainContext,.mmap 4096 100 false .anonymous)] .start = some s ∧
      replayText (text s.records) = some r ∧ r.blocks = s.blocks := by
  have hlines : plainContext.OneLine := fun _ _ => ⟨not_mem_unknown,not_mem_unknown⟩
  refine clean_replay _ ⟨fun _ => ⟨by simp [State.Untracked,State.start],hlines⟩,?_⟩
  rintro s₁ hs₁
  obtain rfl := Option.some.inj hs₁
  refine ⟨by constructor <;> decide,fun _ _ _ tag htag => ⟨?_,?_,hlines⟩,fun s₂ hs₂ => ⟨?_,trivial⟩⟩
  · exact Or.inr (by decide)
  · obtain rfl := Option.some.inj htag
    decide
  · obtain rfl := Option.some.inj hs₂
    constructor <;> decide

/-- A pointer is entered twice: the reader has two blocks, the tracer one. -/
theorem replay_twice : ∃ s r, runAll [(plainContext,.alloc 64 8),(plainContext,.alloc 64 8)] .start = some s ∧
    replayText (text s.records) = some r ∧ r.blocks ≠ s.blocks := by
  refine ⟨_,_,rfl,rfl,fun h => ?_⟩
  exact absurd (congrArg Multiset.card h) (by decide)

end Runs

end Machismo.Heaptrack.Stream
