import Machismo.RecoverSdl.HookText

/-! # Where the hooks come from

Every hook is at a function that the tool has summarized, with the first bytes of it, and no two are
at one address.  An instruction has four bytes, so a function that is not empty has as many.
-/
namespace Machismo.RecoverSdl
open Machismo.A64 (Byte)
open Machismo.Data

variable {X : MachO} {D : Disassembler}

structure MachO.Summary (X : MachO) (address : ℕ) (expected : List Byte) : Prop where
  bounds : ∃ finish, X.functionBounds address = some (address,finish) ∧ address+4 ≤ finish ∧
    X.bytesAt address (min 16 (finish-address)) = some expected

theorem functionBounds_fst {start s finish : ℕ} (h : X.functionBounds start = some (s,finish)) : s = start := by
  obtain ⟨index,-,h⟩ := Option.bind_eq_some_iff.mp h
  obtain ⟨text,-,h⟩ := Option.map_eq_some_iff.mp h
  exact (Prod.mk.inj h).1.symm

theorem sum_sizes {insns : List Insn} (h : ∀ i ∈ insns, i.size = 4) : (insns.map Insn.size).sum = 4*insns.length := by
  induction insns with
  | nil => rfl
  | cons i insns ih =>
    obtain ⟨hi,hinsns⟩ := List.forall_mem_cons.mp h
    rw [List.map_cons,List.sum_cons,hi,ih hinsns,List.length_cons]
    omega

theorem stringReferences_nil : X.stringReferences [] = [] := rfl

section Sizes
variable (hD : ∀ raw address, ∀ i ∈ D raw address, i.size = 4)
include hD

theorem instructions_length {start finish : ℕ} {insns : List Insn} (h : X.instructions D start finish = some insns) :
    start ≤ finish ∧ 4*insns.length = finish-start := by
  unfold MachO.instructions at h
  split_ifs at h with hle
  obtain ⟨raw,hraw,h⟩ := Option.bind_eq_some_iff.mp h
  split_ifs at h with hsum
  obtain rfl := Option.some.inj h
  rw [sum_sizes (hD raw start),File.length_bytesAt hraw] at hsum
  exact ⟨Nat.le_of_not_lt hle,hsum⟩

theorem summary_of_summarizeFunction {start : ℕ} {c : Candidate} (h : X.summarizeFunction D start = some c)
    (hne : ∀ finish insns, X.functionBounds start = some (start,finish) → X.instructions D start finish = some insns →
      start ≠ finish) : X.Summary c.address c.expected := by
  obtain ⟨⟨s,finish⟩,hbounds,hrest⟩ := Option.bind_eq_some_iff.mp h
  obtain rfl := functionBounds_fst hbounds
  obtain ⟨insns,hinsns,hlast⟩ := Option.bind_eq_some_iff.mp hrest
  obtain ⟨expected,hexpected,rfl⟩ := Option.map_eq_some_iff.mp hlast
  obtain ⟨hle,hlen⟩ := instructions_length hD hinsns
  have hne := hne finish insns hbounds hinsns
  have hfour : s+4 ≤ finish := by omega
  exact ⟨finish,hbounds,hfour,hexpected⟩

theorem summary_of_summaryAt {address : ℕ} {c : Candidate} (h : summaryAt X D address = some c) :
    X.Summary c.address c.expected := by
  unfold summaryAt at h
  split_ifs at h with hcontains
  refine summary_of_summarizeFunction hD h ?_
  rintro finish insns hbounds - rfl
  unfold MachO.containingFunction at hcontains
  split at hcontains
  · cases hcontains
  next lo _ =>
    obtain ⟨start,-,hfound⟩ := Option.bind_eq_some_iff.mp hcontains
    obtain ⟨⟨s,finish⟩,hb,hif⟩ := Option.map_eq_some_iff.mp hfound
    dsimp only at hif
    split_ifs at hif with hlt
    obtain rfl := Option.some.inj hif
    obtain rfl := functionBounds_fst hb
    obtain ⟨-,rfl⟩ := Prod.mk.inj (Option.some.inj (hb.symm.trans hbounds))
    exact Nat.lt_irrefl _ hlt

theorem summary_of_anchoredCandidate {anchors : List (List Char)} {start : ℕ} {c : Candidate}
    (h : X.anchoredCandidate D anchors start = some (some c)) : X.Summary c.address c.expected := by
  obtain ⟨⟨begin,finish⟩,hbounds,hrest⟩ := Option.bind_eq_some_iff.mp h
  obtain rfl := functionBounds_fst hbounds
  obtain ⟨insns,hinsns,hlast⟩ := Option.bind_eq_some_iff.mp hrest
  dsimp only at hlast
  split_ifs at hlast with hrefs
  · cases hlast
  obtain ⟨summary,hsummary,heq⟩ := Option.map_eq_some_iff.mp hlast
  obtain rfl := Option.some.inj heq
  change X.Summary summary.address summary.expected
  refine summary_of_summarizeFunction hD hsummary ?_
  rintro finish' insns' hbounds' - rfl
  obtain ⟨-,rfl⟩ := Prod.mk.inj (Option.some.inj (hbounds.symm.trans hbounds'))
  -- A function of no bytes has no instructions, which refer to nothing.
  obtain ⟨-,hlen⟩ := instructions_length hD hinsns
  obtain rfl : insns = [] := List.eq_nil_of_length_eq_zero (by omega)
  exact hrefs (by rw [stringReferences_nil,List.filter_nil])

theorem summary_of_anchoredCandidates {anchors : List (List Char)} {search : List Candidate}
    (h : X.anchoredCandidates D anchors = some search) : ∀ c ∈ search, X.Summary c.address c.expected := by
  obtain ⟨found,hfound,rfl⟩ := Option.map_eq_some_iff.mp h
  intro c hc
  obtain ⟨r,hr,hrc⟩ := List.mem_filterMap.mp hc
  obtain ⟨start,-,hstart⟩ := mem_of_mapM hfound hr
  obtain rfl : r = some c := hrc
  exact summary_of_anchoredCandidate hD hstart

end Sizes

section Passes

theorem mem_intercalate {α : Type} {sep : List α} {ls : List (List α)} {x : α} (h : x ∈ sep.intercalate ls) :
    x ∈ sep ∨ ∃ l ∈ ls, x ∈ l := by
  induction ls with
  | nil => cases h
  | cons l ls ih =>
    cases ls with
    | nil =>
      rw [List.intercalate_singleton] at h
      exact .inr ⟨l,List.mem_cons_self,h⟩
    | cons l' ls =>
      rw [List.intercalate_cons_cons,List.mem_append,List.mem_append] at h
      rcases h with (h | h) | h
      · exact .inr ⟨l,List.mem_cons_self,h⟩
      · exact .inl h
      · exact (ih h).imp_right fun ⟨l,hl,hx⟩ => ⟨l,List.mem_cons_of_mem _ hl,hx⟩

theorem foldlM_invariant {α β : Type} {P : β → Prop} {f : β → α → Option β}
    (hf : ∀ b a b', P b → f b a = some b' → P b') {l : List α} {b b' : β} (hb : P b) (h : l.foldlM f b = some b') :
    P b' := by
  induction l generalizing b with
  | nil => exact Option.some.inj h ▸ hb
  | cons a l ih =>
    obtain ⟨b₁,hstep,hrest⟩ := Option.bind_eq_some_iff.mp h
    exact ih (hf b a b₁ hb hstep) hrest

/-- The hooks so far: each is at a summarized function, and no two are at one address. -/
structure Progress.Sound (X : MachO) (st : Progress) : Prop where
  nodup : (st.emitted.map Emitted.address).Nodup
  summary : ∀ e ∈ st.emitted, X.Summary e.address e.expected
  written : ∀ e ∈ st.emitted, e.Written

theorem not_mem_joinWords (comment : Text) : '\n' ∉ joinWords comment := by
  unfold joinWords
  intro h
  rcases mem_intercalate h with h | ⟨word,hword,h⟩
  · exact absurd h (by decide)
  · obtain ⟨-,hmem⟩ := mem_fieldsFrom (fun _ hc => absurd hc List.not_mem_nil) hword
    exact absurd (hmem _ h).1 (by decide)

theorem Progress.Sound.emitHook {library comment : Text} {entry : Anchor} {c : Candidate} {st st' : Progress}
    (hst : st.Sound X) (hc : X.Summary c.address c.expected)
    (h : RecoverSdl.emitHook library entry c comment st = some st') : st'.Sound X := by
  obtain ⟨hostSymbol,hhost,h⟩ := Option.bind_eq_some_iff.mp h
  obtain ⟨name,hname,h⟩ := Option.bind_eq_some_iff.mp h
  split_ifs at h with haddress hseen
  obtain rfl := Option.some.inj h
  have hhost : hostSymbol ≠ [] := by
    unfold hostName at hhost
    split at hhost
    · obtain rfl := Option.some.inj hhost
      exact List.append_ne_nil_of_left_ne_nil (by decide +kernel) _
    · split_ifs at hhost with hnil
      obtain rfl := Option.some.inj hhost
      exact hnil
  have hname : name ≠ [] := by
    unfold libraryName at hname
    dsimp only at hname
    split_ifs at hname with hnil
    obtain rfl := Option.some.inj hname
    exact hnil
  constructor
  · rw [List.map_append,List.nodup_append]
    refine ⟨hst.nodup,List.nodup_singleton _,?_⟩
    rintro a ha b hb rfl
    obtain rfl : a = c.address := List.mem_singleton.mp hb
    exact hseen ha
  · rw [List.forall_mem_append,List.forall_mem_singleton]
    exact ⟨hst.summary,hc⟩
  · rw [List.forall_mem_append,List.forall_mem_singleton]
    exact ⟨hst.written,hname,hhost,not_mem_joinWords comment⟩

theorem Progress.Sound.of_emitted {st st' : Progress} (hst : st.Sound X) (h : st'.emitted = st.emitted) : st'.Sound X :=
  ⟨h ▸ hst.nodup,h ▸ hst.summary,h ▸ hst.written⟩

theorem mem_of_uniqueFunctionForString {search : List Candidate} {anchor : Text} {exclude : List Text} {c : Candidate}
    (h : uniqueFunctionForString search anchor exclude = some c) : c ∈ search := by
  unfold uniqueFunctionForString at h
  split at h
  next c' hfilter =>
    obtain rfl := Option.some.inj h
    exact List.mem_of_mem_filter (hfilter ▸ List.mem_singleton_self c')
  · cases h

theorem emitted_functionForString {search : List Candidate} {anchor : Text} {c : Candidate} {st st' : Progress}
    (h : functionForString search anchor st = some (c,st')) : st'.emitted = st.emitted := by
  unfold functionForString at h
  split at h
  · obtain ⟨-,rfl⟩ := Prod.mk.inj (Option.some.inj h)
    rfl
  · obtain ⟨c',-,heq⟩ := Option.map_eq_some_iff.mp h
    obtain ⟨-,rfl⟩ := Prod.mk.inj heq
    rfl

theorem emitted_nthOrigin {search : List Candidate} {nth : NthAfter} {st st' : Progress} {address : ℕ} {origin : Text}
    (h : nthOrigin search nth st = some (address,origin,st')) : st'.emitted = st.emitted := by
  unfold nthOrigin at h
  split_ifs at h
  · obtain ⟨e,-,heq⟩ := Option.map_eq_some_iff.mp h
    cases heq
    rfl
  · obtain ⟨⟨c,st₁⟩,hfound,heq⟩ := Option.map_eq_some_iff.mp h
    cases heq
    exact emitted_functionForString hfound

section Sizes
variable {library : Text} {search : List Candidate} {st st' : Progress} {entry : Anchor}
variable (hD : ∀ raw address, ∀ i ∈ D raw address, i.size = 4)

theorem Progress.Sound.passString (hsearch : ∀ c ∈ search, X.Summary c.address c.expected) (hst : st.Sound X)
    (h : RecoverSdl.passString library search st entry = some st') : st'.Sound X := by
  unfold RecoverSdl.passString at h
  split_ifs at h
  split at h
  · exact Option.some.inj h ▸ hst
  next anchor _ =>
    obtain ⟨c,hc,hemit⟩ := Option.bind_eq_some_iff.mp h
    have hst₁ : Progress.Sound X { st with stringToFunction := (anchor,c)::st.stringToFunction } := hst.of_emitted rfl
    exact hst₁.emitHook (hsearch c (mem_of_uniqueFunctionForString hc)) hemit

include hD

theorem Progress.Sound.passVia (hst : st.Sound X) (h : RecoverSdl.passVia X D library search st entry = some st') :
    st'.Sound X := by
  unfold RecoverSdl.passVia at h
  split at h
  · exact Option.some.inj h ▸ hst
  · obtain ⟨⟨parent,st₁⟩,hparent,hrest⟩ := Option.bind_eq_some_iff.mp h
    obtain ⟨parentSummary,-,hrest⟩ := Option.bind_eq_some_iff.mp hrest
    split_ifs at hrest
    obtain ⟨call,-,hrest⟩ := Option.bind_eq_some_iff.mp hrest
    obtain ⟨c,hc,hemit⟩ := Option.bind_eq_some_iff.mp hrest
    exact (hst.of_emitted (emitted_functionForString hparent)).emitHook (summary_of_summaryAt hD hc) hemit

theorem Progress.Sound.passNth (hst : st.Sound X) (h : RecoverSdl.passNth X D library search st entry = some st') :
    st'.Sound X := by
  unfold RecoverSdl.passNth at h
  split at h
  · exact Option.some.inj h ▸ hst
  · split_ifs at h
    obtain ⟨⟨address,origin,st₁⟩,horigin,hrest⟩ := Option.bind_eq_some_iff.mp h
    obtain ⟨index,-,hrest⟩ := Option.bind_eq_some_iff.mp hrest
    obtain ⟨following,-,hrest⟩ := Option.bind_eq_some_iff.mp hrest
    obtain ⟨c,hc,hemit⟩ := Option.bind_eq_some_iff.mp hrest
    exact (hst.of_emitted (emitted_nthOrigin horigin)).emitHook (summary_of_summaryAt hD hc) hemit

theorem sound_of_generateHooks {symbols : List Anchor} {emitted : List Emitted}
    (h : generateHooks X D library symbols = some emitted) :
    emitted ≠ [] ∧ ∃ st : Progress, st.emitted = emitted ∧ st.Sound X := by
  obtain ⟨anchors,hanchors,h⟩ := Option.bind_eq_some_iff.mp h
  obtain ⟨search,hsearch,h⟩ := Option.bind_eq_some_iff.mp h
  obtain ⟨st₁,h₁,h⟩ := Option.bind_eq_some_iff.mp h
  obtain ⟨st₂,h₂,h⟩ := Option.bind_eq_some_iff.mp h
  obtain ⟨st₃,h₃,h⟩ := Option.bind_eq_some_iff.mp h
  split_ifs at h with hlen
  obtain rfl := Option.some.inj h
  have hstart : (⟨[],[]⟩ : Progress).Sound X :=
    ⟨List.nodup_nil,fun _ h => absurd h List.not_mem_nil,fun _ h => absurd h List.not_mem_nil⟩
  have hfound := summary_of_anchoredCandidates hD hsearch
  have hs₁ := foldlM_invariant (fun st entry st' hst hstep => hst.passString hfound hstep) hstart h₁
  have hs₂ := foldlM_invariant (fun st entry st' hst hstep => hst.passVia hD hstep) hs₁ h₂
  have hs₃ := foldlM_invariant (fun st entry st' hst hstep => hst.passNth hD hstep) hs₂ h₃
  refine ⟨?_,st₃,rfl,hs₃⟩
  rintro hnil
  -- Without symbols there are no strings to look for.
  obtain rfl : symbols = [] := List.eq_nil_of_length_eq_zero (by rw [← hlen,hnil]; rfl)
  cases hanchors

end Sizes

end Passes

end Machismo.RecoverSdl
