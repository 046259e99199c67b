import Machismo.Heaptrack.Trace

/-! # Replaying the tracer's stream

The reader's lists and the tracer's tables agree after every record: a number the tracer has
given is the number of a record that is written already, and what it names is the same on
both sides.  Interning keeps this, so the blocks the reader finds live at the end are those
of the pointer map and the region table.
-/
namespace Machismo.Heaptrack.Stream
open Data

section Numbered
variable {α : Type} {l : List α} {k : ℕ} {x : α}

theorem numbered_append (h : numbered l k = some x) (l' : List α) : numbered (l++l') k = some x := by
  unfold numbered at h ⊢
  split_ifs at h ⊢ with hk
  rw [List.getElem?_append_left (List.getElem?_eq_some_iff.mp h).1]
  exact h

theorem isSome_numbered_append (h : (numbered l k).isSome) (l' : List α) : (numbered (l++l') k).isSome := by
  obtain ⟨x,hx⟩ := Option.isSome_iff_exists.mp h
  rw [numbered_append hx]
  rfl

theorem numbered_concat (l : List α) (x : α) : numbered (l++[x]) (l.length+1) = some x := by
  simp [numbered]

theorem mem_of_indexOf [DecidableEq α] {table : List (α × ℕ)} {idx : ℕ} (h : indexOf table x = some idx) :
    (x,idx) ∈ table := by
  obtain ⟨e,he,rfl⟩ := Option.map_eq_some_iff.mp h
  have hkey : e.1 = x := by simpa using List.find?_some he
  rw [← hkey]
  exact List.mem_of_find?_eq_some he

end Numbered

/-- The strings, and that the stream reads back. -/
structure Names (s : State) (r : Replay) : Prop where
  replay : replay s.records = some r
  lines : ∀ x ∈ s.records, x.OneLine
  next : r.strings.length+1 = s.strNext
  string : ∀ e ∈ s.strTable, numbered r.strings e.2 = some e.1

/-- The other tables, and the live blocks. -/
structure Tables (s : State) (r : Replay) : Prop where
  ips : r.ips.length+1 = s.ipNext
  ip : ∀ e ∈ s.ipTable, numbered r.ips e.2 = some e.1
  tag : ∀ g ∈ s.tagIps, numbered r.ips g.ipIdx = some g.addr
  traces : r.traces.length+1 = s.traceNext
  trace : ∀ k < s.traceNext, r.stack k = some (stackOf s.traceTable k)
  given : ∀ e ∈ s.traceTable, e.2 < s.traceNext
  infos : r.infos.length = s.ainfoNext
  info : ∀ k < s.ainfoNext, r.infos[k]? = some (s.block k)
  based : ∀ k < s.ainfoNext, (infoOf s.ainfoTable k).2 < s.traceNext
  known : ∀ e ∈ s.ainfoTable, e.2 < s.ainfoNext
  region : ∀ g ∈ s.regions, g.traceIdx < s.traceNext
  held : ∀ k ∈ s.held, k < s.ainfoNext
  live : r.live = s.held
  keys : (s.ptrMap.map Prod.fst).Nodup

theorem Names.start : Names .start .start := ⟨rfl,by simp [State.start],rfl,by simp [State.start]⟩

theorem Tables.start : Tables .start .start := by
  refine ⟨rfl,by simp [State.start],by simp [State.start],rfl,?_,by simp [State.start],rfl,by simp [State.start],
    by simp [State.start],by simp [State.start],by simp [State.start],by simp [State.start,State.held],rfl,.nil⟩
  intro k hk
  obtain rfl : k = 0 := by simpa [State.start] using hk
  rfl

theorem Names.emit {s : State} {r r' : Replay} (h : Names s r) {x : Record} (hx : x.OneLine)
    (happly : r.apply x = some r') (hstrings : r'.strings = r.strings) : Names (s.emit x) r' := by
  refine ⟨(replay_concat h.replay x).trans happly,?_,?_,?_⟩
  · intro y hy
    rcases List.mem_append.mp hy with hy | hy
    · exact h.lines y hy
    · rw [List.mem_singleton.mp hy]
      exact hx
  · rw [hstrings]
    exact h.next
  · rw [hstrings]
    exact h.string

section Strings
variable {s : State} {r : Replay}

/-- At most the strings and the records change. -/
def StringsOnly (s s' : State) : Prop := ∃ records table next,
  s' = { s with records := records, strTable := table, strNext := next }

theorem StringsOnly.trans {s s' s'' : State} (h : StringsOnly s s') (h' : StringsOnly s' s'') : StringsOnly s s'' := by
  obtain ⟨_,_,_,rfl⟩ := h
  obtain ⟨_,_,_,rfl⟩ := h'
  exact ⟨_,_,_,rfl⟩

theorem internString_stringsOnly (name : Name) (s : State) : StringsOnly s (internString name s).2 := by
  unfold internString
  dsimp only
  cases indexOf s.strTable (if name = [] then unknown else name) with
  | some idx => exact ⟨_,_,_,rfl⟩
  | none => exact ⟨_,_,_,rfl⟩

theorem emitIp_stringsOnly (addr : ℕ) (modName fnName : Name) (s : State) :
    StringsOnly s (emitIp addr modName fnName s) := by
  have hmod := internString_stringsOnly modName s
  have hfn := internString_stringsOnly fnName (internString modName s).2
  have hfile := internString_stringsOnly unknown (internString fnName (internString modName s).2).2
  exact ((hmod.trans hfn).trans hfile).trans ⟨_,_,_,rfl⟩

theorem Names.internString (h : Names s r) {name : Name} (hname : '\n' ∉ name) : ∃ names,
    Names (internString name s).2 { r with strings := r.strings++names } ∧
      (numbered (r.strings++names) (internString name s).1).isSome := by
  unfold Stream.internString
  dsimp only
  have hline : '\n' ∉ (if name = [] then unknown else name) := by
    split_ifs
    · decide
    · exact hname
  generalize (if name = [] then unknown else name) = name' at *
  cases hidx : indexOf s.strTable name' with
  | some idx =>
    refine ⟨[],?_,?_⟩
    · rw [List.append_nil]
      exact h
    · rw [List.append_nil,h.string _ (mem_of_indexOf hidx)]
      rfl
  | none =>
    have hnew : numbered (r.strings++[name']) s.strNext = some name' := by
      rw [← h.next]
      exact numbered_concat _ _
    refine ⟨[name'],⟨(replay_concat h.replay _).trans rfl,?_,?_,?_⟩,?_⟩
    · intro y hy
      rcases List.mem_append.mp hy with hy | hy
      · exact h.lines y hy
      · rw [List.mem_singleton.mp hy]
        exact hline
    · simp [State.emit,h.next]
    · intro e he
      rcases List.mem_cons.mp he with rfl | he
      · exact hnew
      · exact numbered_append (h.string e he) _
    · rw [hnew]
      rfl

theorem apply_ip {addr m f u : ℕ} (hm : (numbered r.strings m).isSome) (hf : (numbered r.strings f).isSome)
    (hu : (numbered r.strings u).isSome) :
    r.apply (.ip addr m f u 0) = some { r with ips := r.ips++[addr] } := by
  obtain ⟨x,hx⟩ := Option.isSome_iff_exists.mp hm
  obtain ⟨y,hy⟩ := Option.isSome_iff_exists.mp hf
  obtain ⟨z,hz⟩ := Option.isSome_iff_exists.mp hu
  simp [Replay.apply,hx,hy,hz]

theorem not_mem_unknown : '\n' ∉ unknown := by decide

theorem Names.emitIp (h : Names s r) (addr : ℕ) {modName fnName : Name} (hmod : '\n' ∉ modName)
    (hfn : '\n' ∉ fnName) : ∃ names, Names (emitIp addr modName fnName s)
      { r with strings := r.strings++names, ips := r.ips++[addr] } := by
  obtain ⟨n₁,h₁,hm⟩ := h.internString hmod
  obtain ⟨n₂,h₂,hf⟩ := h₁.internString hfn
  obtain ⟨n₃,h₃,hu⟩ := h₂.internString not_mem_unknown
  dsimp only at h₂ h₃ hf hu
  refine ⟨n₁++(n₂++n₃),?_⟩
  rw [← List.append_assoc,← List.append_assoc]
  refine h₃.emit trivial (apply_ip ?_ ?_ hu) rfl
  · exact isSome_numbered_append (isSome_numbered_append hm n₂) n₃
  · exact isSome_numbered_append hf n₃

end Strings

theorem Tables.strings {s s' : State} {r : Replay} (h : Tables s r) (hs : StringsOnly s s') (names : List Name) :
    Tables s' { r with strings := names } := by
  obtain ⟨_,_,_,rfl⟩ := hs
  exact ⟨h.ips,h.ip,h.tag,h.traces,h.trace,h.given,h.infos,h.info,h.based,h.known,h.region,h.held,h.live,h.keys⟩

/-- The reader follows the tracer. -/
structure Sim (s : State) (r : Replay) : Prop where
  names : Names s r
  tables : Tables s r

/-- What interning leaves alone. -/
structure Kept (s s' : State) : Prop where
  ptrMap : s'.ptrMap = s.ptrMap
  regions : s'.regions = s.regions
  tagIps : s'.tagIps = s.tagIps

theorem Kept.refl (s : State) : Kept s s := ⟨rfl,rfl,rfl⟩

theorem Kept.trans {s s' s'' : State} (h : Kept s s') (h' : Kept s' s'') : Kept s s'' :=
  ⟨h'.ptrMap.trans h.ptrMap,h'.regions.trans h.regions,h'.tagIps.trans h.tagIps⟩

section Intern
variable {s : State} {r : Replay}

/-- Names that stay on their lines. -/
def Hint.OneLine (hint : Hint) : Prop := '\n' ∉ hint.modName ∧ '\n' ∉ hint.fnName

theorem Tables.bumpIp (h : Tables s r) (addr : ℕ) :
    Tables { s with ipNext := s.ipNext+1 } { r with ips := r.ips++[addr] } := by
  refine ⟨?_,?_,?_,h.traces,h.trace,h.given,h.infos,h.info,h.based,h.known,h.region,h.held,h.live,h.keys⟩
  · simp [h.ips]
  · exact fun e he => numbered_append (h.ip e he) _
  · exact fun g hg => numbered_append (h.tag g hg) _

theorem Tables.numbered_ipNext (h : Tables s r) (addr : ℕ) : numbered (r.ips++[addr]) s.ipNext = some addr := by
  rw [← h.ips]
  exact numbered_concat _ _

theorem Tables.addIp (h : Tables s r) (addr : ℕ) : Tables { s with
    ipTable := (addr,s.ipNext)::s.ipTable
    ipNext := s.ipNext+1 } { r with ips := r.ips++[addr] } := by
  have hbump := h.bumpIp addr
  refine ⟨hbump.ips,?_,hbump.tag,h.traces,h.trace,h.given,h.infos,h.info,h.based,h.known,h.region,h.held,h.live,h.keys⟩
  intro e he
  rcases List.mem_cons.mp he with rfl | he
  · exact h.numbered_ipNext addr
  · exact hbump.ip e he

theorem Names.emitIp_sim {s' : State} (h : Names s r) {addr : ℕ} (ht : Tables s' { r with ips := r.ips++[addr] })
    (hrec : s'.records = s.records) (htable : s'.strTable = s.strTable) (hnext : s'.strNext = s.strNext)
    {modName fnName : Name} (hmod : '\n' ∉ modName) (hfn : '\n' ∉ fnName) :
    ∃ names, Sim (Stream.emitIp addr modName fnName s')
      { r with strings := r.strings++names, ips := r.ips++[addr] } := by
  have hnames : Names s' r := ⟨hrec ▸ h.replay,hrec ▸ h.lines,hnext ▸ h.next,htable ▸ h.string⟩
  obtain ⟨names,hnames⟩ := hnames.emitIp addr hmod hfn
  exact ⟨names,hnames,ht.strings (emitIp_stringsOnly ..) _⟩

theorem StringsOnly.kept {s s' : State} (h : StringsOnly s s') : Kept s s' ∧ s'.traceNext = s.traceNext := by
  obtain ⟨_,_,_,rfl⟩ := h
  exact ⟨⟨rfl,rfl,rfl⟩,rfl⟩

theorem Sim.internIp (h : Sim s r) (addr : ℕ) {res : List Hint} (hres : ∀ hint ∈ res, hint.OneLine) :
    ∃ r', Sim (internIp addr res s).2 r' ∧ numbered r'.ips (internIp addr res s).1 = some addr ∧
      Kept s (internIp addr res s).2 ∧ (internIp addr res s).2.traceNext = s.traceNext := by
  unfold Stream.internIp
  cases hidx : indexOf s.ipTable addr with
  | some idx => exact ⟨r,h,h.tables.ip _ (mem_of_indexOf hidx),.refl s,rfl⟩
  | none =>
    dsimp only
    have hhint : ((res.find? fun hint => hint.addr == addr).getD ⟨addr,unknown,unknown⟩).OneLine := by
      cases hfind : res.find? fun hint => hint.addr == addr with
      | none => exact ⟨not_mem_unknown,not_mem_unknown⟩
      | some hint => exact hres hint (List.mem_of_find?_eq_some hfind)
    generalize (res.find? fun hint => hint.addr == addr).getD ⟨addr,unknown,unknown⟩ = hint at *
    obtain ⟨names,hsim⟩ := h.names.emitIp_sim (h.tables.addIp addr) rfl rfl rfl hhint.1 hhint.2
    obtain ⟨hkept,htrace⟩ := (emitIp_stringsOnly addr hint.modName hint.fnName { s with
      ipTable := (addr,s.ipNext)::s.ipTable
      ipNext := s.ipNext+1 }).kept
    exact ⟨_,hsim,h.tables.numbered_ipNext addr,⟨hkept.ptrMap,hkept.regions,hkept.tagIps⟩,htrace⟩

theorem stack_append {k : ℕ} {l : List ℕ} (h : r.stack k = some l) (x : List (List ℕ)) :
    Replay.stack { r with traces := r.traces++x } k = some l := by
  unfold Replay.stack at h ⊢
  split_ifs at h ⊢ with hk
  · exact h
  · exact numbered_append h x

theorem Tables.addTrace (h : Tables s r) (parent ipHex : ℕ) : Tables { s with
    traceTable := ((ipHex,parent),s.traceNext)::s.traceTable
    traceNext := s.traceNext+1 } { r with traces := r.traces++[ipHex::stackOf s.traceTable parent] } := by
  have hold : ∀ k < s.traceNext, stackOf (((ipHex,parent),s.traceNext)::s.traceTable) k = stackOf s.traceTable k :=
    fun k hk => if_neg hk.ne
  refine ⟨h.ips,h.ip,h.tag,?_,?_,?_,h.infos,?_,?_,h.known,?_,h.held,h.live,h.keys⟩
  · simp [h.traces]
  · intro k hk
    rcases Nat.lt_succ_iff_lt_or_eq.mp hk with hk | rfl
    · exact (stack_append (h.trace k hk) _).trans (congrArg some (hold k hk).symm)
    · have hne : s.traceNext ≠ 0 := by
        rw [← h.traces]
        exact Nat.succ_ne_zero _
      refine (if_neg hne).trans ?_
      rw [← h.traces,numbered_concat,h.traces]
      exact congrArg some (if_pos rfl).symm
  · intro e he
    rcases List.mem_cons.mp he with rfl | he
    · exact Nat.lt_succ_self _
    · exact (h.given e he).trans (Nat.lt_succ_self _)
  · intro k hk
    refine (h.info k hk).trans (congrArg some ?_)
    exact Prod.ext rfl (hold _ (h.based k hk)).symm
  · exact fun k hk => (h.based k hk).trans (Nat.lt_succ_self _)
  · exact fun g hg => (h.region g hg).trans (Nat.lt_succ_self _)

theorem Sim.internTrace (h : Sim s r) {ipIdx ipHex parent : ℕ} (hip : numbered r.ips ipIdx = some ipHex)
    (hparent : parent < s.traceNext) : ∃ r', Sim (internTrace ipIdx ipHex parent s).2 r' ∧
      (internTrace ipIdx ipHex parent s).1 < (internTrace ipIdx ipHex parent s).2.traceNext ∧
      Kept s (internTrace ipIdx ipHex parent s).2 := by
  unfold Stream.internTrace
  cases hidx : indexOf s.traceTable (ipHex,parent) with
  | some idx => exact ⟨r,h,h.tables.given _ (mem_of_indexOf hidx),.refl s⟩
  | none =>
    have happly : r.apply (.trace ipIdx parent) =
        some { r with traces := r.traces++[ipHex::stackOf s.traceTable parent] } := by
      simp [Replay.apply,hip,h.tables.trace parent hparent]
    have hnames := h.names.emit (x := .trace ipIdx parent) trivial happly rfl
    exact ⟨_,⟨⟨hnames.replay,hnames.lines,hnames.next,hnames.string⟩,
      (h.tables.addTrace parent ipHex).strings ⟨_,_,_,rfl⟩ _⟩,Nat.lt_succ_self _,⟨rfl,rfl,rfl⟩⟩

theorem Tables.addInfo (h : Tables s r) {traceIdx : ℕ} (htrace : traceIdx < s.traceNext) (size : ℕ) : Tables { s with
    ainfoTable := ((size,traceIdx),s.ainfoNext)::s.ainfoTable
    ainfoNext := s.ainfoNext+1 } { r with infos := r.infos++[(size,stackOf s.traceTable traceIdx)] } := by
  have hnew : infoOf (((size,traceIdx),s.ainfoNext)::s.ainfoTable) s.ainfoNext = (size,traceIdx) := if_pos rfl
  have hold : ∀ k < s.ainfoNext, infoOf (((size,traceIdx),s.ainfoNext)::s.ainfoTable) k = infoOf s.ainfoTable k :=
    fun k hk => if_neg hk.ne
  refine ⟨h.ips,h.ip,h.tag,h.traces,h.trace,h.given,?_,?_,?_,?_,h.region,?_,h.live,h.keys⟩
  · simp [h.infos]
  · intro k hk
    simp only [State.block]
    rcases Nat.lt_succ_iff_lt_or_eq.mp hk with hk | rfl
    · rw [List.getElem?_append_left (by rw [h.infos]; exact hk),h.info k hk,hold k hk]
      rfl
    · rw [hnew,← h.infos]
      simp
  · intro k hk
    dsimp only
    rcases Nat.lt_succ_iff_lt_or_eq.mp hk with hk | rfl
    · rw [hold k hk]
      exact h.based k hk
    · rw [hnew]
      exact htrace
  · intro e he
    rcases List.mem_cons.mp he with rfl | he
    · exact Nat.lt_succ_self _
    · exact (h.known e he).trans (Nat.lt_succ_self _)
  · exact fun k hk => (h.held k hk).trans (Nat.lt_succ_self _)

theorem Sim.internAllocInfo (h : Sim s r) (size : ℕ) {traceIdx : ℕ} (htrace : traceIdx < s.traceNext) :
    ∃ r', Sim (internAllocInfo size traceIdx s).2 r' ∧
      (internAllocInfo size traceIdx s).1 < (internAllocInfo size traceIdx s).2.ainfoNext ∧
      Kept s (internAllocInfo size traceIdx s).2 ∧ (internAllocInfo size traceIdx s).2.traceNext = s.traceNext := by
  unfold Stream.internAllocInfo
  cases hidx : indexOf s.ainfoTable (size,traceIdx) with
  | some idx => exact ⟨r,h,h.tables.known _ (mem_of_indexOf hidx),.refl s,rfl⟩
  | none =>
    have happly : r.apply (.alloc size traceIdx) =
        some { r with infos := r.infos++[(size,stackOf s.traceTable traceIdx)] } := by
      simp [Replay.apply,h.tables.trace traceIdx htrace]
    have hnames := h.names.emit (x := .alloc size traceIdx) trivial happly rfl
    exact ⟨_,⟨⟨hnames.replay,hnames.lines,hnames.next,hnames.string⟩,
      (h.tables.addInfo htrace size).strings ⟨_,_,_,rfl⟩ _⟩,Nat.lt_succ_self _,⟨rfl,rfl,rfl⟩,rfl⟩

theorem Sim.foldFrames (frames : List ℕ) {res : List Hint} (hres : ∀ hint ∈ res, hint.OneLine) {acc : ℕ × State}
    (h : Sim acc.2 r) (hacc : acc.1 < acc.2.traceNext) : ∃ r', Sim (frames.foldl (internFrame res) acc).2 r' ∧
      (frames.foldl (internFrame res) acc).1 < (frames.foldl (internFrame res) acc).2.traceNext ∧
      Kept acc.2 (frames.foldl (internFrame res) acc).2 := by
  induction frames generalizing acc r with
  | nil => exact ⟨r,h,hacc,.refl _⟩
  | cons addr frames ih =>
    obtain ⟨r₁,h₁,hip,hkept₁,hnext⟩ := h.internIp addr hres
    obtain ⟨r₂,h₂,hidx,hkept₂⟩ := h₁.internTrace hip (hnext ▸ hacc)
    obtain ⟨r₃,h₃,hlast,hkept₃⟩ := ih (show Sim (internFrame res acc addr).2 r₂ from h₂) hidx
    exact ⟨r₃,h₃,hlast,(hkept₁.trans hkept₂).trans hkept₃⟩

theorem Sim.internFrames (h : Sim s r) (frames : List ℕ) {res : List Hint} (hres : ∀ hint ∈ res, hint.OneLine) :
    ∃ r', Sim (internFrames frames res s).2 r' ∧
      (internFrames frames res s).1 < (internFrames frames res s).2.traceNext ∧
      Kept s (internFrames frames res s).2 := by
  have hpos : 0 < s.traceNext := by
    rw [← h.tables.traces]
    exact Nat.succ_pos _
  exact Sim.foldFrames _ hres h hpos

/-- The table has the tag, or a free slot. -/
def State.HasSlot (s : State) (tag : Name) : Prop := (∃ g ∈ s.tagIps, g.tag = tag) ∨ s.tagIps.length < htTagMax

theorem Sim.internTagIp (h : Sim s r) {tag : Name} (htag : '\n' ∉ tag) (hslot : s.HasSlot tag) :
    ∃ g s', internTagIp tag s = some (g,s') ∧ ∃ r', Sim s' r' ∧ numbered r'.ips g.1 = some g.2 ∧
      s'.ptrMap = s.ptrMap ∧ s'.regions = s.regions ∧ s'.traceNext = s.traceNext := by
  unfold Stream.internTagIp
  cases hfind : s.tagIps.find? fun g => g.tag == tag with
  | some g => exact ⟨_,_,rfl,r,h,h.tables.tag g (List.mem_of_find?_eq_some hfind),rfl,rfl,rfl⟩
  | none =>
    have hlen : s.tagIps.length < htTagMax := by
      refine hslot.resolve_left ?_
      rintro ⟨g,hg,rfl⟩
      exact absurd (List.find?_eq_none.mp hfind g hg) (by simp)
    dsimp only
    rw [if_pos hlen]
    have hline : '\n' ∉ (if s.tagIps.length = htTagMax-1 then mmapOther else tag) := by
      split_ifs
      · decide
      · exact htag
    generalize (if s.tagIps.length = htTagMax-1 then mmapOther else tag) = tag' at *
    generalize 0xfff0000000000000+s.tagIps.length+1 = addr
    obtain ⟨names,hsim⟩ := h.names.emitIp_sim (h.tables.bumpIp addr) rfl rfl rfl
      (show '\n' ∉ ['<','m','m','a','p','>'] by decide) hline
    obtain ⟨hkept,htrace⟩ := (emitIp_stringsOnly addr ['<','m','m','a','p','>'] tag' { s with
      ipNext := s.ipNext+1 }).kept
    have hnum := h.tables.numbered_ipNext addr
    refine ⟨_,_,rfl,_,⟨⟨hsim.names.replay,hsim.names.lines,hsim.names.next,hsim.names.string⟩,?_⟩,hnum,
      hkept.ptrMap,hkept.regions,htrace⟩
    have ht := hsim.tables
    refine ⟨ht.ips,ht.ip,?_,ht.traces,ht.trace,ht.given,ht.infos,ht.info,ht.based,ht.known,ht.region,ht.held,ht.live,
      ht.keys⟩
    intro g hg
    rcases List.mem_append.mp hg with hg | hg
    · exact ht.tag g hg
    · rw [List.mem_singleton.mp hg]
      exact hnum

end Intern

end Machismo.Heaptrack.Stream
