import Machismo.Heaptrack.Replay

/-! # The tag table

The table has 32 slots.  The first 31 categories get slots of their own, and the next one makes the last
slot the catch-all.  Its own name is not what is entered there, so that the next look-up of it, or of any
category that is not in the table, ends at a slot behind the table.
-/
namespace Machismo.Heaptrack.Stream

/-- A call of `intern_tag_ip`, with what other hooks have done since the last one. -/
structure TagCall where
  tag : Name
  since : State → State
  kept : ∀ s, (since s).tagIps = s.tagIps

/-- Calls one after the other; nothing once one of them writes outside the table. -/
def runTags (calls : List TagCall) (s : State) : Option State :=
  calls.foldlM (fun s call => (internTagIp call.tag (call.since s)).map Prod.snd) s

/-- The entry that a look-up finds. -/
def State.tagEntry (s : State) (tag : Name) : Option TagIp := s.tagIps.find? fun g => g.tag == tag

def appear {α : Type} [DecidableEq α] (seen : List α) (tag : α) : List α :=
  if tag ∈ seen then seen else seen++[tag]

def distinctTags (tags : List Name) : List Name := tags.foldl appear []

/-- The tags that get slots of their own. -/
def ownTags (tags : List Name) : List Name := (distinctTags tags).take (htTagMax-1)

/-- The tags that the table has after calls for the given ones. -/
def slotTags (tags : List Name) : List Name :=
  ownTags tags++(if htTagMax ≤ (distinctTags tags).length then [mmapOther] else [])

theorem distinctTags_concat (tags : List Name) (tag : Name) :
    distinctTags (tags++[tag]) = appear (distinctTags tags) tag := by
  rw [distinctTags,List.foldl_append]
  rfl

section Appear
variable {tags : List Name} {tag : Name}

theorem slotTags_concat_of_mem (h : tag ∈ slotTags tags) : slotTags (tags++[tag]) = slotTags tags := by
  unfold slotTags ownTags at h ⊢
  rw [distinctTags_concat,appear]
  by_cases hseen : tag ∈ distinctTags tags
  · rw [if_pos hseen]
  · rw [if_neg hseen]
    have hown : tag ∉ (distinctTags tags).take (htTagMax-1) := fun hmem => hseen (List.mem_of_mem_take hmem)
    have hfull : htTagMax ≤ (distinctTags tags).length := by
      by_contra hroom
      rw [if_neg hroom,List.append_nil] at h
      exact hown h
    have hlen : htTagMax ≤ (distinctTags tags++[tag]).length := hfull.trans (List.length_append ▸ Nat.le_add_right _ _)
    rw [if_pos hfull,if_pos hlen,List.take_append_of_le_length ((Nat.sub_le _ _).trans hfull)]

/-- A tag that is not found gets the next slot, which is the catch-all if it is the last one. -/
theorem slotTags_concat_of_not_mem (h : tag ∉ slotTags tags) (hroom : (distinctTags tags).length < htTagMax) :
    slotTags (tags++[tag]) =
      slotTags tags++[if (slotTags tags).length = htTagMax-1 then mmapOther else tag] := by
  have hslots : slotTags tags = distinctTags tags := by
    rw [slotTags,if_neg (not_le.mpr hroom),List.append_nil,ownTags,List.take_of_length_le (Nat.le_sub_one_of_lt hroom)]
  rw [hslots] at h ⊢
  rw [slotTags,ownTags,distinctTags_concat,appear,if_neg h,List.length_append,List.length_singleton]
  by_cases hlast : (distinctTags tags).length = htTagMax-1
  · have hfull : htTagMax ≤ (distinctTags tags).length+1 := by
      rw [hlast]
      decide
    rw [if_pos hfull,if_pos hlast,List.take_left' hlast]
  · have hshort : ¬htTagMax ≤ (distinctTags tags).length+1 := by
      unfold htTagMax at *
      omega
    rw [if_neg hshort,if_neg hlast,List.append_nil,List.take_of_length_le]
    rw [List.length_append,List.length_singleton]
    unfold htTagMax at *
    omega

theorem length_slotTags_of_full (h : htTagMax ≤ (distinctTags tags).length) : (slotTags tags).length = htTagMax := by
  rw [slotTags,if_pos h,ownTags,List.length_append,List.length_take_of_le ((Nat.sub_le _ _).trans h)]
  rfl

theorem length_slotTags_le (tags : List Name) : (slotTags tags).length ≤ htTagMax := by
  by_cases h : htTagMax ≤ (distinctTags tags).length
  · exact (length_slotTags_of_full h).le
  · rw [slotTags,if_neg h,List.append_nil,ownTags]
    exact (List.length_take_le _ _).trans (Nat.sub_le _ _)

end Appear

section Call
variable {s : State} {tag : Name}

theorem internTagIp_found {g : TagIp} (h : s.tagEntry tag = some g) :
    internTagIp tag s = some ((g.ipIdx,g.addr),s) := by
  unfold internTagIp
  rw [← State.tagEntry,h]

theorem internTagIp_new (h : s.tagEntry tag = none) (hroom : s.tagIps.length < htTagMax) :
    ∃ r s', internTagIp tag s = some (r,s') ∧
      s'.tagIps = s.tagIps++[⟨if s.tagIps.length = htTagMax-1 then mmapOther else tag,r.1,r.2⟩] := by
  unfold internTagIp
  rw [← State.tagEntry,h]
  dsimp only
  rw [if_pos hroom]
  refine ⟨_,_,rfl,?_⟩
  dsimp only
  rw [(emitIp_stringsOnly _ _ _ _).kept.1.tagIps]

theorem internTagIp_full (h : s.tagEntry tag = none) (hfull : htTagMax ≤ s.tagIps.length) :
    internTagIp tag s = none := by
  unfold internTagIp
  rw [← State.tagEntry,h]
  exact if_neg (not_lt.mpr hfull)

theorem tagEntry_eq_none : s.tagEntry tag = none ↔ tag ∉ s.tagIps.map TagIp.tag := by
  rw [State.tagEntry,List.find?_eq_none]
  simp

theorem tag_of_tagEntry {g : TagIp} (h : s.tagEntry tag = some g) : g.tag = tag := by
  simpa using List.find?_some h

/-- After a call the table has grown by at most one entry, and a look-up of the tag finds what was returned,
if the tag has an entry at all. -/
theorem internTagIp_spec {s' : State} {r : ℕ × ℕ} (h : internTagIp tag s = some (r,s')) :
    s.tagIps <+: s'.tagIps ∧ (∀ g, s'.tagEntry tag = some g → r = (g.ipIdx,g.addr)) := by
  cases hentry : s.tagEntry tag with
  | some g =>
    rw [internTagIp_found hentry] at h
    obtain ⟨rfl,rfl⟩ := Prod.mk.inj (Option.some.inj h)
    refine ⟨List.prefix_rfl,fun g' hg' => ?_⟩
    rw [hentry] at hg'
    rw [Option.some.inj hg']
  | none =>
    have hroom : s.tagIps.length < htTagMax := by
      by_contra hfull
      rw [internTagIp_full hentry (not_lt.mp hfull)] at h
      cases h
    obtain ⟨r',s'',hnew,htags⟩ := internTagIp_new hentry hroom
    rw [hnew] at h
    obtain ⟨rfl,rfl⟩ := Prod.mk.inj (Option.some.inj h)
    refine ⟨htags ▸ List.prefix_append _ _,fun g hg => ?_⟩
    rw [State.tagEntry,htags,List.find?_append,← State.tagEntry,hentry,Option.none_or] at hg
    obtain rfl := List.mem_singleton.mp (List.mem_of_find?_eq_some hg)
    rfl

theorem tagEntry_of_prefix {s' : State} {g : TagIp} (h : s.tagIps <+: s'.tagIps) (hentry : s.tagEntry tag = some g) :
    s'.tagEntry tag = some g := by
  obtain ⟨l,hl⟩ := h
  rw [State.tagEntry,← hl,List.find?_append,← State.tagEntry,hentry,Option.some_or]

end Call

section Runs
variable {s s' : State} {calls pre : List TagCall} {call : TagCall}

theorem runTags_concat (calls : List TagCall) (call : TagCall) (s : State) :
    runTags (calls++[call]) s =
      (runTags calls s).bind fun s => (internTagIp call.tag (call.since s)).map Prod.snd := by
  rw [runTags,List.foldlM_append]
  simp [runTags]

theorem tagEntry_since (call : TagCall) (s : State) (tag : Name) : (call.since s).tagEntry tag = s.tagEntry tag := by
  rw [State.tagEntry,call.kept]
  rfl

theorem map_tag_of_runTags (h : runTags calls .start = some s) :
    s.tagIps.map TagIp.tag = slotTags (calls.map TagCall.tag) := by
  induction calls using List.reverseRecOn generalizing s with
  | nil =>
    obtain rfl := Option.some.inj h
    rfl
  | append_singleton calls call ih =>
    rw [runTags_concat] at h
    obtain ⟨s₀,hrun,hcall⟩ := Option.bind_eq_some_iff.mp h
    obtain ⟨⟨r,s₁⟩,hintern,rfl⟩ := Option.map_eq_some_iff.mp hcall
    have htags := ih hrun
    rw [← call.kept] at htags
    rw [List.map_append,List.map_singleton]
    cases hentry : (call.since s₀).tagEntry call.tag with
    | some g =>
      have hmem : call.tag ∈ slotTags (calls.map TagCall.tag) := by
        rw [← htags,← tag_of_tagEntry hentry]
        exact List.mem_map_of_mem (List.mem_of_find?_eq_some hentry)
      rw [internTagIp_found hentry] at hintern
      obtain ⟨-,rfl⟩ := Prod.mk.inj (Option.some.inj hintern)
      rw [slotTags_concat_of_mem hmem]
      exact htags
    | none =>
      have hnew : call.tag ∉ slotTags (calls.map TagCall.tag) := by
        rw [← htags]
        exact tagEntry_eq_none.mp hentry
      have hroom : (call.since s₀).tagIps.length < htTagMax := by
        by_contra hfull
        rw [internTagIp_full hentry (not_lt.mp hfull)] at hintern
        cases hintern
      have hlen : (call.since s₀).tagIps.length = (slotTags (calls.map TagCall.tag)).length := by
        rw [← htags,List.length_map]
      have hfew : (distinctTags (calls.map TagCall.tag)).length < htTagMax := by
        by_contra hmany
        rw [hlen,length_slotTags_of_full (not_lt.mp hmany)] at hroom
        exact lt_irrefl _ hroom
      obtain ⟨r',s',hres,hgrown⟩ := internTagIp_new hentry hroom
      rw [hres] at hintern
      obtain ⟨-,rfl⟩ := Prod.mk.inj (Option.some.inj hintern)
      rw [hgrown,List.map_append,htags,slotTags_concat_of_not_mem hnew hfew,hlen]
      rfl

/-- Every tag that comes once there are 32 is one of the first 31, or the name of the catch-all. -/
def FewTags (tags : List Name) : Prop := ∀ pre tag post, tags = pre++tag::post →
  htTagMax ≤ (distinctTags pre).length → tag = mmapOther ∨ tag ∈ ownTags pre

/-- What the table is to be over a run of calls. -/
structure TagTable (calls : List TagCall) : Prop where
  /-- No call writes outside the table. -/
  inside : ∀ pre, pre <+: calls → ∃ s, runTags pre .start = some s ∧ s.tagIps.length ≤ htTagMax
  /-- A tag that has an entry gets the same index and address again. -/
  same : ∀ pre call mid call' post s s' s'', calls = pre++call::(mid++call'::post) → call'.tag = call.tag →
    runTags pre .start = some s → runTags (pre++[call]) .start = some s' → call.tag ∈ s'.tagIps.map TagIp.tag →
    runTags (pre++call::mid) .start = some s'' →
    (internTagIp call'.tag (call'.since s'')).map Prod.fst = (internTagIp call.tag (call.since s)).map Prod.fst
  /-- Once the table is full, a tag without a slot of its own gets the catch-all, and nothing is written. -/
  other : ∀ pre call post s, calls = pre++call::post → runTags pre .start = some s → s.tagIps.length = htTagMax →
    call.tag ∉ ownTags (pre.map TagCall.tag) →
    ∃ g, s.tagIps[htTagMax-1]? = some g ∧ g.tag = mmapOther ∧
      internTagIp call.tag (call.since s) = some ((g.ipIdx,g.addr),call.since s)

theorem runTags_grows {post : List TagCall} (hpre : runTags pre .start = some s)
    (h : runTags (pre++post) .start = some s') : s.tagIps <+: s'.tagIps := by
  induction post using List.reverseRecOn generalizing s' with
  | nil =>
    rw [List.append_nil,hpre] at h
    rw [Option.some.inj h]
  | append_singleton post call ih =>
    rw [← List.append_assoc,runTags_concat] at h
    obtain ⟨s₀,hrun,hcall⟩ := Option.bind_eq_some_iff.mp h
    obtain ⟨⟨r,s₁⟩,hintern,rfl⟩ := Option.map_eq_some_iff.mp hcall
    have hgrown := (internTagIp_spec hintern).1
    rw [call.kept] at hgrown
    exact (ih hrun).trans hgrown

/-- A call finds a slot exactly if there are few tags so far or it has one of theirs. -/
theorem internTagIp_isSome_iff (h : runTags pre .start = some s) : (internTagIp call.tag (call.since s)).isSome ↔
    (htTagMax ≤ (distinctTags (pre.map TagCall.tag)).length →
      call.tag = mmapOther ∨ call.tag ∈ ownTags (pre.map TagCall.tag)) := by
  have htags := map_tag_of_runTags h
  rw [← call.kept] at htags
  have hlen : (call.since s).tagIps.length = (slotTags (pre.map TagCall.tag)).length := by
    rw [← htags,List.length_map]
  by_cases hfull : htTagMax ≤ (distinctTags (pre.map TagCall.tag)).length
  · have hmem : call.tag ∈ slotTags (pre.map TagCall.tag) ↔
        call.tag = mmapOther ∨ call.tag ∈ ownTags (pre.map TagCall.tag) := by
      rw [slotTags,if_pos hfull,List.mem_append,List.mem_singleton,or_comm]
    rw [← hmem,← htags]
    cases hentry : (call.since s).tagEntry call.tag with
    | some g =>
      refine iff_of_true (by rw [internTagIp_found hentry]; rfl) fun _ => ?_
      rw [← tag_of_tagEntry hentry]
      exact List.mem_map_of_mem (List.mem_of_find?_eq_some hentry)
    | none =>
      rw [length_slotTags_of_full hfull] at hlen
      rw [internTagIp_full hentry hlen.ge]
      exact iff_of_false Bool.false_ne_true fun himp => tagEntry_eq_none.mp hentry (himp hfull)
  · refine iff_of_true ?_ fun hmany => absurd hmany hfull
    cases hentry : (call.since s).tagEntry call.tag with
    | some g =>
      rw [internTagIp_found hentry]
      rfl
    | none =>
      have hroom : (call.since s).tagIps.length < htTagMax := by
        rw [hlen,slotTags,if_neg hfull,List.append_nil,ownTags]
        exact Nat.lt_of_le_of_lt (List.length_take_le _ _) (by decide)
      obtain ⟨r,s',hnew,-⟩ := internTagIp_new hentry hroom
      rw [hnew]
      rfl

theorem FewTags.runTags (h : FewTags (calls.map TagCall.tag)) (hpre : pre <+: calls) :
    ∃ s, runTags pre .start = some s := by
  induction pre using List.reverseRecOn with
  | nil => exact ⟨_,rfl⟩
  | append_singleton pre call ih =>
    obtain ⟨post,rfl⟩ := hpre
    obtain ⟨s,hs⟩ := ih ⟨call::post,by simp⟩
    have hsome : (internTagIp call.tag (call.since s)).isSome := by
      refine (internTagIp_isSome_iff hs).mpr (h _ call.tag (post.map TagCall.tag) ?_)
      simp
    obtain ⟨r,hr⟩ := Option.isSome_iff_exists.mp hsome
    exact ⟨r.2,by rw [runTags_concat,hs,Option.bind_some,hr]; rfl⟩

theorem length_tagIps_le (h : runTags calls .start = some s) : s.tagIps.length ≤ htTagMax := by
  rw [← List.length_map TagIp.tag,map_tag_of_runTags h]
  exact length_slotTags_le _

theorem internTagIp_again {s'' : State} {mid : List TagCall} {call' : TagCall} (htag : call'.tag = call.tag)
    (hpre : runTags pre .start = some s) (hcall : runTags (pre++[call]) .start = some s')
    (hmem : call.tag ∈ s'.tagIps.map TagIp.tag) (hmid : runTags (pre++call::mid) .start = some s'') :
    (internTagIp call'.tag (call'.since s'')).map Prod.fst = (internTagIp call.tag (call.since s)).map Prod.fst := by
  have hlater : runTags ((pre++[call])++mid) .start = some s'' := by
    rw [List.append_assoc]
    exact hmid
  have hgrown := runTags_grows hcall hlater
  rw [runTags_concat,hpre,Option.bind_some] at hcall
  obtain ⟨⟨r,s₁⟩,hintern,rfl⟩ := Option.map_eq_some_iff.mp hcall
  cases hentry : s₁.tagEntry call.tag with
  | none => exact absurd hmem (tagEntry_eq_none.mp hentry)
  | some g =>
    have hfound : (call'.since s'').tagEntry call'.tag = some g := by
      rw [tagEntry_since,htag]
      exact tagEntry_of_prefix hgrown hentry
    rw [internTagIp_found hfound,hintern]
    exact congrArg some ((internTagIp_spec hintern).2 g hentry).symm

theorem distinctTags_of_full (h : runTags pre .start = some s) (hfull : s.tagIps.length = htTagMax) :
    htTagMax ≤ (distinctTags (pre.map TagCall.tag)).length := by
  by_contra hfew
  have hlen := congrArg List.length (map_tag_of_runTags h)
  rw [List.length_map,hfull,slotTags,if_neg hfew,List.append_nil,ownTags] at hlen
  exact absurd (hlen.trans_le (List.length_take_le _ _)) (by decide)

/-- The name of the catch-all finds the last slot of a full table, if it has none of its own. -/
theorem tagEntry_mmapOther (h : runTags pre .start = some s) (hfull : s.tagIps.length = htTagMax)
    (hown : mmapOther ∉ ownTags (pre.map TagCall.tag)) :
    ∃ g, s.tagIps[htTagMax-1]? = some g ∧ s.tagEntry mmapOther = some g := by
  have htags := map_tag_of_runTags h
  have hmany := distinctTags_of_full h hfull
  rw [slotTags,if_pos hmany] at htags
  obtain ⟨l,l',hl,hfirst,hlast⟩ := List.map_eq_append_iff.mp htags
  obtain ⟨g,rfl,hg⟩ := List.map_eq_singleton_iff.mp hlast
  have hlen : l.length = htTagMax-1 := by
    rw [← List.length_map TagIp.tag,hfirst,ownTags]
    exact List.length_take_of_le ((Nat.sub_le _ _).trans hmany)
  refine ⟨g,?_,?_⟩
  · rw [hl,List.getElem?_append_right hlen.le,hlen,Nat.sub_self]
    rfl
  · have hbefore : (l.find? fun g => g.tag == mmapOther) = none := by
      rw [List.find?_eq_none]
      intro g' hg' htag
      refine hown ?_
      rw [← hfirst,← beq_iff_eq.mp htag]
      exact List.mem_map_of_mem hg'
    rw [State.tagEntry,hl,List.find?_append,hbefore,Option.none_or,List.find?_cons_of_pos (by simp [hg])]

/-- The table is what it is to be over a run of calls exactly if, once there were 32 different tags, only the
first 31 of them and the name of the catch-all come. -/
theorem tagTable_iff (calls : List TagCall) : TagTable calls ↔ FewTags (calls.map TagCall.tag) := by
  constructor
  · intro h pre tag post hsplit
    obtain ⟨pre',post',rfl,rfl,hpost⟩ := List.map_eq_append_iff.mp hsplit
    obtain ⟨call,rest,rfl,rfl,-⟩ := List.map_eq_cons_iff.mp hpost
    obtain ⟨s,hs,-⟩ := h.inside pre' (List.prefix_append _ _)
    obtain ⟨s',hs',-⟩ := h.inside (pre'++[call]) ⟨rest,by simp⟩
    refine (internTagIp_isSome_iff hs).mp ?_
    rw [runTags_concat,hs,Option.bind_some] at hs'
    obtain ⟨r,hr,-⟩ := Option.map_eq_some_iff.mp hs'
    rw [hr]
    rfl
  · intro h
    refine ⟨fun pre hpre => ?_,?_,?_⟩
    · obtain ⟨s,hs⟩ := h.runTags hpre
      exact ⟨s,hs,length_tagIps_le hs⟩
    · intro pre call mid call' post s s' s'' _ htag hpre hcall hmem hmid
      exact internTagIp_again htag hpre hcall hmem hmid
    · rintro pre call post s rfl hs hfull hown
      have hother : call.tag = mmapOther :=
        (h _ call.tag (post.map TagCall.tag) (by simp) (distinctTags_of_full hs hfull)).resolve_right hown
      rw [hother] at hown ⊢
      obtain ⟨g,hlast,hentry⟩ := tagEntry_mmapOther hs hfull hown
      refine ⟨g,hlast,tag_of_tagEntry hentry,internTagIp_found ?_⟩
      rw [tagEntry_since]
      exact hentry

end Runs

def plainCall (tag : Name) : TagCall := ⟨tag,id,fun _ => rfl⟩

/-- The 32nd tag comes a second time, and the table has no slot for it. -/
theorem not_tagTable_twice :
    ¬TagTable (((List.range 32)++[31]).map fun n => plainCall (List.replicate n 'a')) := by
  intro h
  obtain ⟨s,hs,-⟩ := h.inside _ List.prefix_rfl
  have hnone : (runTags (((List.range 32)++[31]).map fun n => plainCall (List.replicate n 'a')) .start).isNone := by
    decide +kernel
  rw [hs] at hnone
  cases hnone

end Machismo.Heaptrack.Stream
