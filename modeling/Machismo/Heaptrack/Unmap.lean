import Machismo.Heaptrack.ReplayRuns

/-! # Unmapping a range

The regions that overlap the range leave the table, and what is left of them on either side is entered
anew.  What is entered lies outside the range, so that one scan is enough.  The trace has a `-` for a
region that leaves and a `+` for one that is entered, each with an alloc info of its size.
-/
namespace Machismo.Heaptrack.Stream
open Data

/-- The alloc infos that the records have defined, and the bytes that are live by them. -/
structure Ledger where
  infos : List (ℕ×ℕ)
  live : ℤ

def Ledger.size (L : Ledger) (info : ℕ) : ℕ := (L.infos.getD info (0,0)).1

def Ledger.apply (L : Ledger) : Record → Ledger
  | .alloc size traceIdx => { L with infos := L.infos++[(size,traceIdx)] }
  | .plus info => { L with live := L.live+L.size info }
  | .minus info => { L with live := L.live-L.size info }
  | _ => L

def State.ledger (s : State) : Ledger := s.records.foldl Ledger.apply ⟨[],0⟩

def State.liveTotal (s : State) : ℤ := s.ledger.live

/-- An alloc info has the number of its record, and that of a region its length and its trace. -/
structure State.Tracked (s : State) : Prop where
  next : s.ledger.infos.length = s.ainfoNext
  info : ∀ e ∈ s.ainfoTable, s.ledger.infos[e.2]? = some e.1
  region : ∀ g ∈ s.regions, s.ledger.infos[g.ainfoIdx]? = some (g.len,g.traceIdx)

theorem ledger_emit (s : State) (x : Record) : (s.emit x).ledger = s.ledger.apply x := by
  rw [State.ledger,State.emit,List.foldl_append]
  rfl

def Region.bytes (g : Region) : Finset ℕ := Finset.Ico g.addr (g.addr+g.len)

/-- A byte of a region with a trace. -/
def Traced (regions : List Region) (a traceIdx : ℕ) : Prop := ∃ g ∈ regions, g.traceIdx = traceIdx ∧ a ∈ g.bytes

def bytesOf (regions : List Region) : Finset ℕ := regions.foldr (fun g bytes => g.bytes ∪ bytes) ∅

def Region.Apart (g g' : Region) : Prop := g.addr+g.len ≤ g'.addr ∨ g'.addr+g'.len ≤ g.addr

/-- Regions that are not empty, and pairwise disjoint. -/
structure Separate (regions : List Region) : Prop where
  nonempty : ∀ g ∈ regions, 0 < g.len
  apart : regions.Pairwise Region.Apart

def totalLen (regions : List Region) : ℕ := (regions.map Region.len).sum

section Bytes
variable {regions regions' : List Region} {g g' : Region} {a us ue : ℕ}

theorem mem_bytesOf : a ∈ bytesOf regions ↔ ∃ g ∈ regions, a ∈ g.bytes := by
  induction regions with
  | nil => simp [bytesOf]
  | cons g regions ih =>
    change a ∈ g.bytes ∪ bytesOf regions ↔ _
    rw [Finset.mem_union,ih,List.exists_mem_cons_iff]

theorem Region.Apart.symm (h : g.Apart g') : g'.Apart g := Or.symm h

theorem Region.Apart.disjoint (h : g.Apart g') : Disjoint g.bytes g'.bytes := by
  refine Finset.disjoint_left.mpr fun a ha ha' => ?_
  obtain ⟨hlo,hhi⟩ := Finset.mem_Ico.mp ha
  obtain ⟨hlo',hhi'⟩ := Finset.mem_Ico.mp ha'
  rcases h with h | h
  · omega
  · omega

theorem Separate.perm (h : Separate regions) (hperm : regions.Perm regions') : Separate regions' :=
  ⟨fun g hg => h.nonempty g (hperm.mem_iff.mpr hg),hperm.pairwise h.apart Region.Apart.symm⟩

theorem Separate.card_bytesOf (h : regions.Pairwise Region.Apart) : (bytesOf regions).card = totalLen regions := by
  induction regions with
  | nil => rfl
  | cons g regions ih =>
    obtain ⟨hg,hrest⟩ := List.pairwise_cons.mp h
    have hdisj : Disjoint g.bytes (bytesOf regions) := by
      refine Finset.disjoint_left.mpr fun a ha hmem => ?_
      obtain ⟨g',hg',ha'⟩ := mem_bytesOf.mp hmem
      exact Finset.disjoint_left.mp (hg g' hg').disjoint ha ha'
    change (g.bytes ∪ bytesOf regions).card = _
    rw [Finset.card_union_of_disjoint hdisj,ih hrest,Region.bytes,Nat.card_Ico,Nat.add_sub_cancel_left]
    rfl

theorem mem_bytesOf_iff_traced : a ∈ bytesOf regions ↔ ∃ t, Traced regions a t := by
  rw [mem_bytesOf]
  constructor
  · rintro ⟨g,hg,ha⟩
    exact ⟨g.traceIdx,g,hg,rfl,ha⟩
  · rintro ⟨t,g,hg,-,ha⟩
    exact ⟨g,hg,ha⟩

theorem overlaps_iff : g.overlaps us ue ↔ us < g.addr+g.len ∧ g.addr < ue := by
  simp [Region.overlaps]

end Bytes

/-- Regions that make up what a region has outside a range. -/
structure Pieces (us ue : ℕ) (r : Region) (pieces : List Region) : Prop where
  separate : Separate pieces
  within : ∀ g ∈ pieces, g.traceIdx = r.traceIdx ∧ r.addr ≤ g.addr ∧ g.addr+g.len ≤ r.addr+r.len
  outside : ∀ g ∈ pieces, ¬g.overlaps us ue
  cover : ∀ a ∈ r.bytes, a ∉ Finset.Ico us ue → ∃ g ∈ pieces, a ∈ g.bytes

section Pieces
variable {us ue i : ℕ} {r : Region} {regions rest pieces : List Region}

theorem Pieces.mem (h : Pieces us ue r pieces) {g : Region} (hg : g ∈ pieces) {a : ℕ} (ha : a ∈ g.bytes) :
    a ∈ r.bytes := by
  obtain ⟨-,hlo,hhi⟩ := h.within g hg
  obtain ⟨ha,ha'⟩ := Finset.mem_Ico.mp ha
  exact Finset.mem_Ico.mpr ⟨hlo.trans ha,ha'.trans_le hhi⟩

theorem Pieces.apart (h : Pieces us ue r pieces) {g g' : Region} (hg : g ∈ pieces) (happart : r.Apart g') :
    g'.Apart g := by
  obtain ⟨-,hlo,hhi⟩ := h.within g hg
  rcases happart with hle | hle
  · exact .inr (hhi.trans hle)
  · exact .inl (hle.trans hlo)

theorem Pieces.replace (h : Pieces us ue r pieces) (hsep : Separate (r::rest)) : Separate (rest++pieces) := by
  obtain ⟨hr,hrest⟩ := List.pairwise_cons.mp hsep.apart
  refine ⟨fun g hg => ?_,List.pairwise_append.mpr ⟨hrest,h.separate.apart,fun g hg g' hg' => ?_⟩⟩
  · rcases List.mem_append.mp hg with hg | hg
    · exact hsep.nonempty g (List.mem_cons_of_mem _ hg)
    · exact h.separate.nonempty g hg
  · exact h.apart hg' (hr g hg)

theorem Pieces.traced (h : Pieces us ue r pieces) {a : ℕ} (ha : a ∉ Finset.Ico us ue) (t : ℕ) :
    Traced (rest++pieces) a t ↔ Traced (r::rest) a t := by
  constructor
  · rintro ⟨g,hg,htrace,hag⟩
    rcases List.mem_append.mp hg with hg | hg
    · exact ⟨g,List.mem_cons_of_mem _ hg,htrace,hag⟩
    · exact ⟨r,List.mem_cons_self,(h.within g hg).1.symm.trans htrace,h.mem hg hag⟩
  · rintro ⟨g,hg,htrace,hag⟩
    rcases List.mem_cons.mp hg with rfl | hg
    · obtain ⟨g',hg',hag'⟩ := h.cover a hag ha
      exact ⟨g',List.mem_append_right _ hg',(h.within g' hg').1.trans htrace,hag'⟩
    · exact ⟨g,List.mem_append_left _ hg,htrace,hag⟩

/-- What lies before the range, and what lies behind it. -/
def headPiece (us : ℕ) (r : Region) (k : ℕ) : List Region :=
  if r.addr < us then [⟨r.addr,us-r.addr,k,r.traceIdx⟩] else []

def tailPiece (ue : ℕ) (r : Region) (k : ℕ) : List Region :=
  if ue < r.addr+r.len then [⟨ue,r.addr+r.len-ue,k,r.traceIdx⟩] else []

theorem mem_headPiece {g : Region} {k : ℕ} : g ∈ headPiece us r k ↔
    r.addr < us ∧ g = ⟨r.addr,us-r.addr,k,r.traceIdx⟩ := by
  unfold headPiece
  split_ifs with h <;> simp [h]

theorem mem_tailPiece {g : Region} {k : ℕ} :
    g ∈ tailPiece ue r k ↔ ue < r.addr+r.len ∧ g = ⟨ue,r.addr+r.len-ue,k,r.traceIdx⟩ := by
  unfold tailPiece
  split_ifs with h <;> simp [h]

theorem pieces_append (hle : us ≤ ue) (hover : r.overlaps us ue) (k k' : ℕ) :
    Pieces us ue r (headPiece us r k++tailPiece ue r k') := by
  obtain ⟨hlo,hhi⟩ := overlaps_iff.mp hover
  have hcases : ∀ g ∈ headPiece us r k++tailPiece ue r k', g.traceIdx = r.traceIdx ∧ 0 < g.len ∧
      (g.addr = r.addr ∧ g.addr+g.len = us ∨ g.addr = ue ∧ g.addr+g.len = r.addr+r.len) := by
    intro g hg
    rcases List.mem_append.mp hg with hg | hg
    · obtain ⟨hlt,rfl⟩ := mem_headPiece.mp hg
      exact ⟨rfl,Nat.sub_pos_of_lt hlt,.inl ⟨rfl,Nat.add_sub_of_le hlt.le⟩⟩
    · obtain ⟨hlt,rfl⟩ := mem_tailPiece.mp hg
      exact ⟨rfl,Nat.sub_pos_of_lt hlt,.inr ⟨rfl,Nat.add_sub_of_le hlt.le⟩⟩
  refine ⟨⟨fun g hg => (hcases g hg).2.1,?_⟩,fun g hg => ?_,fun g hg => ?_,fun a ha hout => ?_⟩
  · refine List.pairwise_append.mpr ⟨?_,?_,fun g hg g' hg' => ?_⟩
    · unfold headPiece
      split_ifs <;> simp
    · unfold tailPiece
      split_ifs <;> simp
    · obtain ⟨hlt,rfl⟩ := mem_headPiece.mp hg
      obtain ⟨-,rfl⟩ := mem_tailPiece.mp hg'
      exact .inl ((Nat.add_sub_of_le hlt.le).le.trans hle)
  · obtain ⟨htrace,hpos,hplace⟩ := hcases g hg
    exact ⟨htrace,by omega,by omega⟩
  · obtain ⟨-,hpos,hplace⟩ := hcases g hg
    rw [overlaps_iff]
    omega
  · obtain ⟨ha,ha'⟩ := Finset.mem_Ico.mp ha
    rw [Finset.mem_Ico,not_and_or,not_le,not_lt] at hout
    rcases hout with hbefore | hbehind
    · refine ⟨_,List.mem_append_left _ (mem_headPiece.mpr ⟨ha.trans_lt hbefore,rfl⟩),Finset.mem_Ico.mpr ⟨ha,?_⟩⟩
      dsimp only
      omega
    · refine ⟨_,List.mem_append_right _ (mem_tailPiece.mpr ⟨hbehind.trans_lt ha',rfl⟩),Finset.mem_Ico.mpr ⟨hbehind,?_⟩⟩
      dsimp only
      omega

end Pieces

section Steps
variable {s : State} {c : Context}

/-- The live total, less the length of the regions. -/
def State.slack (s : State) : ℤ := s.liveTotal-totalLen s.regions

theorem size_of_info {L : Ledger} {k size traceIdx : ℕ} (h : L.infos[k]? = some (size,traceIdx)) : L.size k = size := by
  rw [Ledger.size,List.getD_eq_getElem?_getD,h]
  rfl

theorem State.Tracked.internAllocInfo (h : s.Tracked) (size traceIdx : ℕ) :
    (internAllocInfo size traceIdx s).2.Tracked ∧ (internAllocInfo size traceIdx s).2.slack = s.slack ∧
      (internAllocInfo size traceIdx s).2.ledger.infos[(internAllocInfo size traceIdx s).1]? =
        some (size,traceIdx) := by
  unfold Stream.internAllocInfo
  cases hidx : indexOf s.ainfoTable (size,traceIdx) with
  | some idx => exact ⟨h,rfl,h.info _ (mem_of_indexOf hidx)⟩
  | none =>
    have hold : ∀ (k : ℕ) (x : ℕ×ℕ), s.ledger.infos[k]? = some x →
        (s.ledger.infos++[(size,traceIdx)])[k]? = some x := by
      intro k x hk
      rw [List.getElem?_append_left (List.getElem?_eq_some_iff.mp hk).1]
      exact hk
    have hnew : (s.ledger.infos++[(size,traceIdx)])[s.ainfoNext]? = some (size,traceIdx) := by
      rw [← h.next,List.getElem?_concat_length]
    refine ⟨⟨?_,?_,?_⟩,?_,?_⟩
    · rw [ledger_emit]
      simp only [Ledger.apply,List.length_append,List.length_singleton,State.emit]
      rw [← h.next]
      rfl
    · rw [ledger_emit]
      intro e he
      rcases List.mem_cons.mp he with rfl | he
      · exact hnew
      · exact hold _ _ (h.info e he)
    · rw [ledger_emit]
      exact fun g hg => hold _ _ (h.region g hg)
    · rw [State.slack,State.liveTotal,ledger_emit]
      rfl
    · rw [ledger_emit]
      exact hnew

theorem totalLen_append (l l' : List Region) : totalLen (l++l') = totalLen l+totalLen l' := by
  rw [totalLen,List.map_append,List.sum_append]
  rfl

theorem totalLen_perm {l l' : List Region} (h : l.Perm l') : totalLen l = totalLen l' := (h.map Region.len).sum_eq

theorem State.Tracked.survive (h : s.Tracked) (addr len traceIdx : ℕ) : ∃ k,
    (survive addr len traceIdx s).regions = s.regions++[⟨addr,len,k,traceIdx⟩] ∧
      (survive addr len traceIdx s).Tracked ∧ (survive addr len traceIdx s).slack = s.slack := by
  obtain ⟨ht,hslack,hinfo⟩ := h.internAllocInfo len traceIdx
  have hregions := internAllocInfo_regions len traceIdx s
  unfold Stream.survive
  generalize Stream.internAllocInfo len traceIdx s = a at *
  obtain ⟨k,s'⟩ := a
  dsimp only at *
  refine ⟨k,?_,⟨?_,?_,?_⟩,?_⟩
  · rw [← hregions]
    rfl
  · rw [ledger_emit]
    exact ht.next
  · rw [ledger_emit]
    exact ht.info
  · rw [ledger_emit]
    intro g hg
    rcases List.mem_append.mp hg with hg | hg
    · exact ht.region g hg
    · rw [List.mem_singleton.mp hg]
      exact hinfo
  · have hsize : s'.ledger.size k = len := size_of_info hinfo
    have hlen : totalLen (s'.regions++[⟨addr,len,k,traceIdx⟩]) = totalLen s'.regions+len := totalLen_append _ _
    rw [← hslack,State.slack,State.liveTotal,ledger_emit,State.slack,State.liveTotal]
    simp only [State.emit,regionAdd,Ledger.apply]
    rw [hlen]
    change s'.ledger.live+s'.ledger.size k-_ = _
    rw [hsize]
    push_cast
    ring

theorem State.Tracked.drop (h : s.Tracked) {i : ℕ} (hi : i < s.regions.length) :
    State.Tracked { s.emit (.minus s.regions[i].ainfoIdx) with regions := swapRemove s.regions i } ∧
      State.slack { s.emit (.minus s.regions[i].ainfoIdx) with regions := swapRemove s.regions i } = s.slack := by
  have hperm := getElem_cons_swapRemove_perm hi
  have hledger : State.ledger { s.emit (.minus s.regions[i].ainfoIdx) with regions := swapRemove s.regions i } =
      s.ledger.apply (.minus s.regions[i].ainfoIdx) := ledger_emit s _
  refine ⟨⟨?_,?_,?_⟩,?_⟩
  · rw [hledger]
    exact h.next
  · rw [hledger]
    exact h.info
  · rw [hledger]
    exact fun g hg => h.region g (hperm.subset (List.mem_cons_of_mem _ hg))
  · have hsize : s.ledger.size s.regions[i].ainfoIdx = s.regions[i].len :=
      size_of_info (h.region _ (List.getElem_mem hi))
    have hlen : totalLen s.regions = s.regions[i].len+totalLen (swapRemove s.regions i) := (totalLen_perm hperm).symm
    rw [State.slack,State.liveTotal,hledger,State.slack,State.liveTotal,hlen]
    simp only [Ledger.apply]
    rw [hsize]
    push_cast
    ring

theorem State.Tracked.surviveIf (h : s.Tracked) (p : Prop) [Decidable p] (addr len traceIdx : ℕ) : ∃ k,
    (if p then Stream.survive addr len traceIdx s else s).regions =
        s.regions++(if p then [⟨addr,len,k,traceIdx⟩] else []) ∧
      (if p then Stream.survive addr len traceIdx s else s).Tracked ∧
      (if p then Stream.survive addr len traceIdx s else s).slack = s.slack := by
  split_ifs
  · exact h.survive addr len traceIdx
  · exact ⟨0,(List.append_nil _).symm,h,rfl⟩

theorem State.Tracked.retire (h : s.Tracked) {us ue i : ℕ} (hle : us ≤ ue) (hi : i < s.regions.length)
    (hover : s.regions[i].overlaps us ue) : ∃ pieces,
    (retire us ue i s.regions[i] s).regions = swapRemove s.regions i++pieces ∧ Pieces us ue s.regions[i] pieces ∧
      (retire us ue i s.regions[i] s).Tracked ∧ (retire us ue i s.regions[i] s).slack = s.slack := by
  obtain ⟨h₁,hslack₁⟩ := h.drop hi
  obtain ⟨k,hregions₂,h₂,hslack₂⟩ := h₁.surviveIf (s.regions[i].addr < us) s.regions[i].addr
    (us-s.regions[i].addr) s.regions[i].traceIdx
  obtain ⟨k',hregions₃,h₃,hslack₃⟩ := h₂.surviveIf (ue < s.regions[i].addr+s.regions[i].len) ue
    (s.regions[i].addr+s.regions[i].len-ue) s.regions[i].traceIdx
  refine ⟨_,?_,pieces_append hle hover k k',h₃,(hslack₃.trans hslack₂).trans hslack₁⟩
  rw [← List.append_assoc]
  exact hregions₃.trans (congrArg (· ++ _) hregions₂)

end Steps

/-! ## The scan -/

section Loop
variable {s : State} {us ue i : ℕ} {hit : Bool}

theorem take_swapRemove {α : Type} {l : List α} {i : ℕ} (hi : i < l.length) : (swapRemove l i).take i = l.take i := by
  have hne : l ≠ [] := List.ne_nil_of_length_pos (Nat.zero_lt_of_lt hi)
  rw [swapRemove,List.getLast?_eq_getLast_of_ne_nil hne]
  dsimp only
  rw [List.dropLast_eq_take,List.take_take,List.length_set,Nat.min_eq_left (Nat.le_sub_one_of_lt hi),
    List.take_set_of_le le_rfl]

theorem munmapLoop_spec (hit : Bool) (hle : us ≤ ue) (h : s.Tracked) (hsep : Separate s.regions)
    (hbefore : ∀ g ∈ s.regions.take i, ¬g.overlaps us ue) :
    (munmapLoop us ue i hit s).2.Tracked ∧ (munmapLoop us ue i hit s).2.slack = s.slack ∧
      Separate (munmapLoop us ue i hit s).2.regions ∧
      (∀ g ∈ (munmapLoop us ue i hit s).2.regions, ¬g.overlaps us ue) ∧
      ∀ a t, a ∉ Finset.Ico us ue → (Traced (munmapLoop us ue i hit s).2.regions a t ↔ Traced s.regions a t) := by
  induction i, hit, s using munmapLoop.induct us ue with
  | case1 i hit s hi hover ih =>
    rw [munmapLoop,dif_pos hi,if_pos hover]
    obtain ⟨pieces,hregions,hpieces,ht,hslack⟩ := h.retire hle hi hover
    have hperm := getElem_cons_swapRemove_perm hi
    have hlen : (swapRemove s.regions i).length+1 = s.regions.length := hperm.length_eq
    have htake : (swapRemove s.regions i++pieces).take i = s.regions.take i := by
      rw [List.take_append_of_le_length (by omega),take_swapRemove hi]
    obtain ⟨ht',hslack',hsep',hout,htraced⟩ := ih ht (hregions ▸ hpieces.replace (hsep.perm hperm.symm))
      (by rw [hregions,htake]; exact hbefore)
    refine ⟨ht',hslack'.trans hslack,hsep',hout,fun a t ha => (htraced a t ha).trans ?_⟩
    rw [hregions,hpieces.traced ha]
    exact exists_congr fun g => and_congr_left' hperm.mem_iff
  | case2 i hit s hi hover ih =>
    rw [munmapLoop,dif_pos hi,if_neg hover]
    refine ih h hsep fun g hg => ?_
    rw [← List.take_concat_get' _ _ hi] at hg
    rcases List.mem_append.mp hg with hg | hg
    · exact hbefore g hg
    · rw [List.mem_singleton.mp hg]
      exact hover
  | case3 i hit s hi =>
    rw [munmapLoop,dif_neg hi]
    rw [List.take_of_length_le (not_lt.mp hi)] at hbefore
    exact ⟨h,rfl,hsep,hbefore,fun _ _ _ => Iff.rfl⟩

theorem ledger_emitClock (c : Context) (s : State) : (s.emitClock c).ledger = s.ledger := by
  unfold State.emitClock
  cases c.rss with
  | none => exact ledger_emit s _
  | some pages =>
    dsimp only
    split_ifs
    · exact ledger_emit s _
    · rw [ledger_emit,ledger_emit]
      rfl

theorem State.Tracked.congr {s' : State} (h : s.Tracked) (hledger : s'.ledger.infos = s.ledger.infos)
    (htable : s'.ainfoTable = s.ainfoTable) (hnext : s'.ainfoNext = s.ainfoNext) (hregions : s'.regions = s.regions) :
    s'.Tracked :=
  ⟨by rw [hledger,hnext]; exact h.next,by rw [hledger,htable]; exact h.info,by rw [hledger,hregions]; exact h.region⟩

theorem State.Tracked.emitClock (h : s.Tracked) (c : Context) : (s.emitClock c).Tracked ∧
    (s.emitClock c).regions = s.regions ∧ (s.emitClock c).liveTotal = s.liveTotal := by
  obtain ⟨_,_,_,heq⟩ := emitClock_stringsOnly c s
  have hledger := ledger_emitClock c s
  refine ⟨h.congr (congrArg Ledger.infos hledger) ?_ ?_ ?_,?_,congrArg Ledger.live hledger⟩
  all_goals rw [heq]

theorem not_mem_bytesOf (hout : ∀ g ∈ s.regions, ¬g.overlaps us ue) {a : ℕ} (ha : a ∈ Finset.Ico us ue) :
    a ∉ bytesOf s.regions := by
  intro hmem
  obtain ⟨g,hg,hbyte⟩ := mem_bytesOf.mp hmem
  obtain ⟨hlo,hhi⟩ := Finset.mem_Ico.mp ha
  obtain ⟨hlo',hhi'⟩ := Finset.mem_Ico.mp hbyte
  exact hout g hg (overlaps_iff.mpr ⟨hlo.trans_lt hhi',hlo'.trans_lt hhi⟩)

theorem doMunmapLocked_loop (c : Context) (h : s.Tracked) (hsep : Separate s.regions) (ptr len : ℕ) :
    (doMunmapLocked c ptr len s).Tracked ∧ (doMunmapLocked c ptr len s).slack = s.slack ∧
      Separate (doMunmapLocked c ptr len s).regions ∧
      (∀ g ∈ (doMunmapLocked c ptr len s).regions, ¬g.overlaps ptr (ptr+len)) ∧
      ∀ a t, a ∉ Finset.Ico ptr (ptr+len) →
        (Traced (doMunmapLocked c ptr len s).regions a t ↔ Traced s.regions a t) := by
  have hloop := munmapLoop_spec false (i := 0) (Nat.le_add_right ptr len) h hsep (by simp)
  obtain ⟨hclock,hregions,hlive⟩ := hloop.1.emitClock c
  unfold doMunmapLocked
  dsimp only
  split_ifs
  · refine ⟨hclock,?_,?_⟩
    · rw [State.slack,hregions,hlive]
      exact hloop.2.1
    · rw [hregions]
      exact hloop.2.2
  · exact hloop

/-- The regions that are left have the bytes outside the range, each with its trace, and the live total has
gone down by the bytes removed. -/
theorem doMunmapLocked_exact (c : Context) (s : State) (h : s.Tracked) (hsep : Separate s.regions) (ptr len : ℕ) :
    (doMunmapLocked c ptr len s).Tracked ∧ Separate (doMunmapLocked c ptr len s).regions ∧
      bytesOf (doMunmapLocked c ptr len s).regions = bytesOf s.regions \ Finset.Ico ptr (ptr+len) ∧
      (∀ a ∈ bytesOf (doMunmapLocked c ptr len s).regions, ∀ t,
        Traced (doMunmapLocked c ptr len s).regions a t ↔ Traced s.regions a t) ∧
      (doMunmapLocked c ptr len s).liveTotal =
        s.liveTotal-((bytesOf s.regions ∩ Finset.Ico ptr (ptr+len)).card : ℤ) := by
  obtain ⟨ht,hslack,hsep',hout,htraced⟩ := doMunmapLocked_loop c h hsep ptr len
  have hbytes : bytesOf (doMunmapLocked c ptr len s).regions = bytesOf s.regions \ Finset.Ico ptr (ptr+len) := by
    ext a
    rw [Finset.mem_sdiff]
    by_cases ha : a ∈ Finset.Ico ptr (ptr+len)
    · exact iff_of_false (not_mem_bytesOf hout ha) fun hmem => hmem.2 ha
    · rw [mem_bytesOf_iff_traced,mem_bytesOf_iff_traced,and_iff_left ha]
      exact exists_congr fun t => htraced a t ha
  refine ⟨ht,hsep',hbytes,fun a ha t => ?_,?_⟩
  · rw [hbytes] at ha
    exact htraced a t (Finset.mem_sdiff.mp ha).2
  · have hcard := Finset.card_sdiff_add_card_inter (bytesOf s.regions) (Finset.Ico ptr (ptr+len))
    rw [← hbytes,Separate.card_bytesOf hsep'.apart,Separate.card_bytesOf hsep.apart] at hcard
    rw [State.slack,State.slack] at hslack
    omega

end Loop

section Runs
variable {s s' : State} {c : Context}

/-- What has nothing to do with alloc infos and regions. -/
structure Untouched (s s' : State) : Prop where
  ledger : s'.ledger.infos = s.ledger.infos
  table : s'.ainfoTable = s.ainfoTable
  next : s'.ainfoNext = s.ainfoNext
  regions : s'.regions = s.regions

theorem Untouched.trans {s'' : State} (h : Untouched s s') (h' : Untouched s' s'') : Untouched s s'' :=
  ⟨h'.ledger.trans h.ledger,h'.table.trans h.table,h'.next.trans h.next,h'.regions.trans h.regions⟩

theorem Untouched.refl (s : State) : Untouched s s := ⟨rfl,rfl,rfl,rfl⟩

theorem Untouched.tracked (h : Untouched s s') (ht : s.Tracked) : s'.Tracked :=
  ht.congr h.ledger h.table h.next h.regions

theorem Untouched.internString (name : Name) (s : State) : Untouched s (internString name s).2 := by
  unfold Stream.internString
  dsimp only
  cases indexOf s.strTable (if name = [] then unknown else name) with
  | some idx => exact .refl s
  | none => exact ⟨congrArg Ledger.infos (ledger_emit ..),rfl,rfl,rfl⟩

theorem Untouched.emitIp (addr : ℕ) (modName fnName : Name) (s : State) :
    Untouched s (emitIp addr modName fnName s) := by
  have hmod := Untouched.internString modName s
  have hfn := Untouched.internString fnName (Stream.internString modName s).2
  have hfile := Untouched.internString unknown (Stream.internString fnName (Stream.internString modName s).2).2
  exact ((hmod.trans hfn).trans hfile).trans ⟨congrArg Ledger.infos (ledger_emit ..),rfl,rfl,rfl⟩

theorem Untouched.internIp (addr : ℕ) (res : List Hint) (s : State) : Untouched s (internIp addr res s).2 := by
  unfold Stream.internIp
  cases indexOf s.ipTable addr with
  | some idx => exact .refl s
  | none =>
    have hip := Untouched.emitIp addr ((res.find? fun r => r.addr == addr).getD ⟨addr,unknown,unknown⟩).modName
      ((res.find? fun r => r.addr == addr).getD ⟨addr,unknown,unknown⟩).fnName
      { s with ipTable := (addr,s.ipNext)::s.ipTable, ipNext := s.ipNext+1 }
    exact ⟨hip.ledger,hip.table,hip.next,hip.regions⟩

theorem Untouched.internTrace (ipIdx ipHex parent : ℕ) (s : State) :
    Untouched s (internTrace ipIdx ipHex parent s).2 := by
  unfold Stream.internTrace
  cases indexOf s.traceTable (ipHex,parent) with
  | some idx => exact .refl s
  | none => exact ⟨congrArg Ledger.infos (ledger_emit ..),rfl,rfl,rfl⟩

theorem Untouched.internFrames (frames : List ℕ) (res : List Hint) (s : State) :
    Untouched s (internFrames frames res s).2 := by
  have hfold : ∀ (frames : List ℕ) (acc : ℕ×State), Untouched acc.2 (frames.foldl (internFrame res) acc).2 := by
    intro frames
    induction frames with
    | nil => exact fun acc => .refl acc.2
    | cons addr frames ih =>
      intro acc
      have hip := Untouched.internIp addr res acc.2
      have htrace := Untouched.internTrace (Stream.internIp addr res acc.2).1 addr acc.1
        (Stream.internIp addr res acc.2).2
      exact (hip.trans htrace).trans (ih (internFrame res acc addr))
  exact hfold _ (0,s)

theorem Untouched.internTagIp {tag : Name} {r : (ℕ×ℕ)×State} (h : internTagIp tag s = some r) : Untouched s r.2 := by
  unfold Stream.internTagIp at h
  cases hfind : s.tagIps.find? fun g => g.tag == tag with
  | some g =>
    rw [hfind] at h
    obtain rfl := Option.some.inj h
    exact .refl s
  | none =>
    rw [hfind] at h
    dsimp only at h
    by_cases hroom : s.tagIps.length < htTagMax
    swap
    · rw [if_neg hroom] at h
      cases h
    rw [if_pos hroom] at h
    obtain rfl := Option.some.inj h
    have hip := Untouched.emitIp (0xfff0000000000000+s.tagIps.length+1) ['<','m','m','a','p','>']
      (if s.tagIps.length = htTagMax-1 then mmapOther else tag) { s with ipNext := s.ipNext+1 }
    exact ⟨hip.ledger,hip.table,hip.next,hip.regions⟩

theorem Untouched.plus (k : ℕ) (s : State) : Untouched s (s.emit (.plus k)) :=
  ⟨by rw [ledger_emit]; rfl,rfl,rfl,rfl⟩

theorem Untouched.minus (k : ℕ) (s : State) : Untouched s (s.emit (.minus k)) :=
  ⟨by rw [ledger_emit]; rfl,rfl,rfl,rfl⟩

theorem Untouched.emitClock (c : Context) (s : State) : Untouched s (s.emitClock c) := by
  obtain ⟨_,_,_,heq⟩ := emitClock_stringsOnly c s
  refine ⟨congrArg Ledger.infos (ledger_emitClock c s),?_,?_,?_⟩
  all_goals rw [heq]

theorem Untouched.doFreeLocked (ptr : ℕ) (s : State) : Untouched s (doFreeLocked ptr s) := by
  unfold Stream.doFreeLocked
  cases s.ptrMap.find? fun e => e.1 == ptr with
  | none => exact .refl s
  | some e =>
    have hminus := Untouched.minus e.2 { s with ptrMap := s.ptrMap.eraseP fun e => e.1 == ptr }
    exact ⟨hminus.ledger,hminus.table,hminus.next,hminus.regions⟩

theorem State.Tracked.doAllocLocked (h : s.Tracked) (ptr size : ℕ) (res : List Hint) :
    (doAllocLocked c ptr size res s).Tracked := by
  have hframes := (Untouched.internFrames c.frames res s).tracked h
  obtain ⟨ht,-,-⟩ := hframes.internAllocInfo size (internFrames c.frames res s).1
  unfold Stream.doAllocLocked
  dsimp only
  generalize Stream.internAllocInfo size _ _ = a at *
  have hcount : Untouched a.2 { a.2 with
      ptrMap := ptrMapInsert ptr a.1 a.2.ptrMap
      allocCount := a.2.allocCount+1 } := ⟨rfl,rfl,rfl,rfl⟩
  split_ifs
  · exact ((hcount.trans (.emitClock c _)).trans (.plus a.1 _)).tracked ht
  · exact (hcount.trans (.plus a.1 _)).tracked ht

theorem State.Tracked.doMmapLocked (h : s.Tracked) {ptr len : ℕ} {tag : Name} {res : List Hint}
    (hrun : doMmapLocked c ptr len tag res s = some s') : s'.Tracked := by
  unfold Stream.doMmapLocked at hrun
  obtain ⟨g,hg,hrest⟩ := Option.bind_eq_some_iff.mp hrun
  obtain rfl := Option.some.inj hrest
  have htag := (Untouched.internTagIp hg).tracked ((Untouched.internFrames c.frames res s).tracked h)
  have htrace := (Untouched.internTrace g.1.1 g.1.2 (internFrames c.frames res s).1 g.2).tracked htag
  obtain ⟨k,-,ht,-⟩ := htrace.survive ptr len (internTrace g.1.1 g.1.2 (internFrames c.frames res s).1 g.2).1
  exact (Untouched.emitClock c _).tracked ht

theorem State.Tracked.munmapLoop (h : s.Tracked) {us ue : ℕ} (hle : us ≤ ue) (i : ℕ) (hit : Bool) :
    (munmapLoop us ue i hit s).2.Tracked := by
  induction i, hit, s using Stream.munmapLoop.induct us ue with
  | case1 i hit s hi hover ih =>
    rw [Stream.munmapLoop,dif_pos hi,if_pos hover]
    obtain ⟨pieces,-,-,ht,-⟩ := h.retire hle hi hover
    exact ih ht
  | case2 i hit s hi hover ih =>
    rw [Stream.munmapLoop,dif_pos hi,if_neg hover]
    exact ih h
  | case3 i hit s hi =>
    rw [Stream.munmapLoop,dif_neg hi]
    exact h

theorem State.Tracked.doMunmapLocked (h : s.Tracked) (ptr len : ℕ) : (doMunmapLocked c ptr len s).Tracked := by
  have hloop := h.munmapLoop (Nat.le_add_right ptr len) 0 false
  unfold Stream.doMunmapLocked
  dsimp only
  split_ifs
  · exact (Untouched.emitClock c _).tracked hloop
  · exact hloop

theorem State.Tracked.run (h : s.Tracked) {hook : Hook} (hrun : hook.run c s = some s') : s'.Tracked := by
  cases hook with
  | alloc ptr size =>
    obtain rfl := Option.some.inj hrun
    split_ifs
    · exact h
    · exact h.doAllocLocked ptr size _
  | free ptr =>
    obtain rfl := Option.some.inj hrun
    split_ifs
    · exact h
    · exact (Untouched.doFreeLocked ptr s).tracked h
  | realloc oldPtr newPtr size =>
    obtain rfl := Option.some.inj hrun
    unfold machismoHeaptrackRealloc
    split_ifs
    · exact h
    · exact h
    · exact h.doAllocLocked newPtr size _
    · exact (Untouched.doFreeLocked oldPtr s).tracked h
    · exact ((Untouched.doFreeLocked oldPtr s).tracked h).doAllocLocked newPtr size _
  | mmap ptr len fixed backing =>
    have hfixed : (if fixed then Stream.doMunmapLocked c ptr len s else s).Tracked := by
      split_ifs
      · exact h.doMunmapLocked ptr len
      · exact h
    simp only [Hook.run,machismoHeaptrackMmap] at hrun
    by_cases hskip : ptr = 0 ∨ ptr = mapFailed ∨ len = 0
    · rw [if_pos hskip] at hrun
      exact Option.some.inj hrun ▸ h
    · rw [if_neg hskip] at hrun
      cases htag : backing.tag with
      | none =>
        rw [htag] at hrun
        exact Option.some.inj hrun ▸ hfixed
      | some tag =>
        rw [htag] at hrun
        exact hfixed.doMmapLocked hrun
  | munmap ptr len =>
    obtain rfl := Option.some.inj hrun
    split_ifs
    · exact h
    · exact h.doMunmapLocked ptr len

theorem tracked_start : State.Tracked .start := by
  refine ⟨rfl,?_,?_⟩
  · intro e he
    cases he
  · intro g hg
    cases hg

theorem tracked_of_runAll {hooks : List (Context×Hook)} (h : s.Tracked) (hrun : runAll hooks s = some s') :
    s'.Tracked := by
  induction hooks generalizing s with
  | nil => exact Option.some.inj hrun ▸ h
  | cons hook hooks ih =>
    rw [runAll,List.foldlM_cons] at hrun
    obtain ⟨s₁,hhook,hrest⟩ := Option.bind_eq_some_iff.mp hrun
    exact ih (h.run hhook) hrest

/-- The state after one mapping. -/
def oneMapping : State := (runAll [(plainContext,.mmap 4096 100 false .anonymous)] .start).getD .start

/-- Eight bytes in the middle of the mapping. -/
theorem doMunmapLocked_exact_middle :
    bytesOf (doMunmapLocked plainContext 4100 8 oneMapping).regions =
        bytesOf oneMapping.regions \ Finset.Ico 4100 4108 ∧
      (doMunmapLocked plainContext 4100 8 oneMapping).liveTotal = oneMapping.liveTotal-8 := by
  have hrun : runAll [(plainContext,.mmap 4096 100 false .anonymous)] .start = some oneMapping := rfl
  have hregions : oneMapping.regions = [⟨4096,100,0,2⟩] := rfl
  have hsep : Separate oneMapping.regions := by
    rw [hregions]
    exact ⟨by decide,List.pairwise_singleton _ _⟩
  have hcard : (bytesOf oneMapping.regions ∩ Finset.Ico 4100 (4100+8)).card = 8 := by
    rw [hregions]
    decide +kernel
  obtain ⟨-,-,hbytes,-,hlive⟩ := doMunmapLocked_exact plainContext _ (tracked_of_runAll tracked_start hrun) hsep 4100 8
  rw [hcard] at hlive
  exact ⟨hbytes,hlive⟩

end Runs

end Machismo.Heaptrack.Stream
