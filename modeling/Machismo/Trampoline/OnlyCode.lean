import Machismo.Trampoline.PatchAddresses
import Machismo.Trampoline.Sites

/-! # Branches over code and over data

The filter that keeps data symbols away from the patcher is the page-rounded range of `__TEXT`, and
this segment holds constants besides code. A call writes over instructions only if the sites that it
reaches are all in sections of instructions.
-/
namespace Machismo.Trampoline
open A64 Resolver

section Model
variable (E : Env) (M : MachO) (slide : Addr)

def libRedirect (stubMode : Bool) (lib : Handle) (overrides : List Override) (name : Name) (nameAddr : Addr) :
    Redirect :=
  if findOverride name overrides ≠ 0 then .direct (findOverride name overrides)
  else if stubMode then .stub
  else if nativeSymbol E lib name ≠ 0 then .direct (nativeSymbol E lib name)
  else .abort nameAddr

def libSite (text : State) (stubMode : Bool) (lib : Handle) (prefixes : List Name) (overrides : List Override)
    (sym : Nlist) : Option Site :=
  sym.name.bind fun name =>
    if sym.isDefined ∧ sym.isExternal ∧ ¬sym.isStab ∧ matchesPrefix name prefixes ∧
        text.inText (sym.nValue + slide) then
      some ⟨sym.nValue + slide,libRedirect E stubMode lib overrides name sym.nameAddr⟩
    else none

def overrideSite (text : State) (handle : Handle) (matchLocal : Bool) (sym : Nlist) : Option Site :=
  sym.name.bind fun name =>
    if sym.isDefined ∧ (matchLocal ∨ sym.isExternal) ∧ ¬sym.isStab ∧ text.inText (sym.nValue + slide) ∧
        E.dlsym handle (dropUnderscore name) ≠ 0 then
      some ⟨sym.nValue + slide,.direct (E.dlsym handle (dropUnderscore name))⟩
    else none

/-- The sites of `patchLib`; there are none where it returns early. -/
def libSites (libPath : Name) (prefixes : List Name) (overrides : List Override) (st : State) : List Site :=
  let stubMode : Bool := libPath = "STUB".toList
  if (stubMode ∨ E.dlopen libPath ≠ 0) ∧ (makeTextWritable E M slide st).1 then
    M.symbols.filterMap (libSite E slide (makeTextWritable E M slide st).2 stubMode
      (if stubMode then 0 else E.dlopen libPath) prefixes overrides)
  else []

def overrideSites (handle : Handle) (matchLocal : Bool) (st : State) : List Site :=
  if (makeTextWritable E M slide st).1 then
    M.symbols.filterMap (overrideSite E slide (makeTextWritable E M slide st).2 handle matchLocal)
  else []

end Model

section Sites
variable {E : Env} {M : MachO} {slide : Addr} {st : State}

theorem inText_congr {text : State} (hb : st.textBase = text.textBase) (hs : st.textSize = text.textSize) (a : Addr) :
    st.inText a = text.inText a := by
  unfold State.inText
  rw [hb, hs]

theorem patchLibSymbol_eq {text : State} (hb : st.textBase = text.textBase) (hs : st.textSize = text.textSize)
    (stubMode : Bool) (lib : Handle) (prefixes : List Name) (overrides : List Override) (sym : Nlist) :
    (patchLibSymbol E slide stubMode lib prefixes overrides sym st).2 =
      ((libSite E slide text stubMode lib prefixes overrides sym).elim st fun site => (redirectSite E site st).2) := by
  have htext := inText_congr hb hs
  unfold patchLibSymbol libSite libRedirect
  cases sym.name with
  | none => split <;> rfl
  | some name =>
    rw [Option.bind_some]
    split
    next hsym =>
      rw [if_neg (by tauto)]
      rfl
    next hsym =>
      dsimp only
      split
      next hname =>
        rw [if_neg (by tauto)]
        rfl
      next hname =>
        rw [htext]
        split
        next hin =>
          rw [if_neg (by tauto)]
          rfl
        next hin =>
          have hsel : sym.isDefined ∧ sym.isExternal ∧ ¬sym.isStab ∧ matchesPrefix name prefixes ∧
              text.inText (sym.nValue + slide) := by tauto
          rw [if_pos hsel, Option.elim_some]
          split
          · rfl
          · split
            · unfold redirectSite
              rfl
            · split
              · rfl
              · unfold redirectSite
                rfl

theorem patchOverridesSymbol_eq {text : State} (hb : st.textBase = text.textBase) (hs : st.textSize = text.textSize)
    (handle : Handle) (matchLocal : Bool) (sym : Nlist) :
    (patchOverridesSymbol E slide handle matchLocal sym st).2 =
      ((overrideSite E slide text handle matchLocal sym).elim st fun site => (redirectSite E site st).2) := by
  have htext := inText_congr hb hs
  unfold patchOverridesSymbol overrideSite
  cases sym.name with
  | none => split <;> rfl
  | some name =>
    rw [Option.bind_some]
    split
    next hsym =>
      rw [if_neg (by tauto)]
      rfl
    next hsym =>
      dsimp only
      rw [htext]
      split
      next hin =>
        rw [if_neg (by tauto)]
        rfl
      next hin =>
        split
        next h0 =>
          rw [if_neg (by tauto)]
          rfl
        next h0 =>
          rw [if_pos (by tauto)]
          rfl

theorem patchSymbols_eq {step : Nlist → State → Bool × State} {site : Nlist → Option Site} {text : State}
    (hstep : ∀ sym st, st.textBase = text.textBase → st.textSize = text.textSize →
      (step sym st).2 = ((site sym).elim st fun s => (redirectSite E s st).2))
    (syms : List Nlist) (hb : st.textBase = text.textBase) (hs : st.textSize = text.textSize) :
    (patchSymbols step syms st).2 = redirectSites E (syms.filterMap site) st := by
  induction syms generalizing st with
  | nil => rfl
  | cons sym syms ih =>
    rw [patchSymbols]
    dsimp only
    rw [hstep sym st hb hs]
    cases hsite : site sym with
    | none =>
      rw [List.filterMap_cons_none hsite]
      exact ih hb hs
    | some s =>
      obtain ⟨_,hp⟩ := patched_redirectSite (E := E) s st
      rw [List.filterMap_cons_some hsite, redirectSites]
      exact ih (hp.textBase.trans hb) (hp.textSize.trans hs)

/-- A call with a symbol table and a writable text redirects its sites, any other changes nothing. -/
theorem patchLib_eq (E : Env) (M : MachO) (slide : Addr) (libPath : Name) (prefixes : List Name)
    (overrides : List Override) (st : State) :
    ∃ a b, (patchLib E M slide libPath prefixes overrides st).2 =
      redirectSites E (libSites E M slide libPath prefixes overrides st) { st with textBase := a, textSize := b } := by
  unfold patchLib libSites MachO.symbols
  generalize (decide (libPath = "STUB".toList)) = stubMode
  rcases hw : makeTextWritable E M slide st with ⟨ok,st₁⟩
  obtain ⟨a,b,rfl⟩ := makeTextWritable_eq hw
  have hkeep : ∃ a b, st = redirectSites E [] { st with textBase := a, textSize := b } :=
    ⟨st.textBase,st.textSize,rfl⟩
  rcases M.symtab with _ | _ | syms
  · simpa using hkeep
  · simp only [Option.bind_some, id, Option.getD_none, List.filterMap_nil, ite_self]
    exact hkeep
  · dsimp only [Option.bind_some, id, Option.getD_some]
    by_cases hlib : stubMode ∨ E.dlopen libPath ≠ 0
    · have hguard : ¬(¬stubMode ∧ (if stubMode then 0 else E.dlopen libPath) = 0) := by
        rintro ⟨hs,h0⟩
        rw [if_neg hs] at h0
        exact hlib.elim hs fun h => h h0
      rw [if_neg hguard]
      cases ok with
      | false =>
        have hno : ¬((stubMode ∨ E.dlopen libPath ≠ 0) ∧ false) := fun h => nomatch h.2
        rw [if_neg hno]
        exact ⟨a,b,rfl⟩
      | true =>
        have hyes : (stubMode ∨ E.dlopen libPath ≠ 0) ∧ true := ⟨hlib,rfl⟩
        rw [if_pos hyes]
        refine ⟨a,b,patchSymbols_eq (fun sym st hb hs => ?_) syms rfl rfl⟩
        exact patchLibSymbol_eq hb hs _ _ _ _ sym
    · have hguard : ¬stubMode ∧ (if stubMode then 0 else E.dlopen libPath) = 0 := by
        push Not at hlib
        exact ⟨by simpa using hlib.1,by rw [if_neg (by simpa using hlib.1), hlib.2]⟩
      rw [if_pos hguard, if_neg fun h => hlib h.1]
      exact hkeep

theorem patchOverrides_eq (E : Env) (M : MachO) (slide : Addr) (handle : Handle) (matchLocal : Bool) (st : State) :
    ∃ a b, (patchOverrides E M slide handle matchLocal st).2 =
      redirectSites E (overrideSites E M slide handle matchLocal st) { st with textBase := a, textSize := b } := by
  unfold patchOverrides overrideSites MachO.symbols
  rcases hw : makeTextWritable E M slide st with ⟨ok,st₁⟩
  obtain ⟨a,b,rfl⟩ := makeTextWritable_eq hw
  have hkeep : ∃ a b, st = redirectSites E [] { st with textBase := a, textSize := b } :=
    ⟨st.textBase,st.textSize,rfl⟩
  rcases M.symtab with _ | _ | syms
  · simpa using hkeep
  · simpa using hkeep
  · dsimp only [Option.bind_some, id, Option.getD_some]
    cases ok with
    | false => exact ⟨a,b,rfl⟩
    | true =>
      refine ⟨a,b,patchSymbols_eq (fun sym st hb hs => ?_) syms rfl rfl⟩
      exact patchOverridesSymbol_eq hb hs _ _ sym

end Sites

def State.start (m : Memory) : State where
  mem := m
  pool := none
  poolSize := 0
  poolUsed := 0
  stubIsland := none
  abortCaller := none
  textBase := 0
  textSize := 0
  written := []

def setPool (base : Addr) (size : ℕ) (st : State) : State :=
  { st with pool := some base, poolSize := size, poolUsed := 0 }

inductive Call where
  | patchAddresses (M : MachO) (slide : Addr) (file : Option (List Char))
  | patchLib (M : MachO) (slide : Addr) (libPath : Name) (prefixes : List Name) (overrides : List Override)
  | patchOverrides (M : MachO) (slide : Addr) (handle : Handle) (matchLocal : Bool)

def Call.run (E : Env) (st : State) : Call → State
  | .patchAddresses M slide file => (Trampoline.patchAddresses E M slide file st).2
  | .patchLib M slide libPath prefixes overrides =>
    (Trampoline.patchLib E M slide libPath prefixes overrides st).2
  | .patchOverrides M slide handle matchLocal => (Trampoline.patchOverrides E M slide handle matchLocal st).2

/-- The loader sets the pool at the start, if it has one. Between the calls memory may change. -/
inductive Reachable : State → Prop where
  | start (m : Memory) : Reachable (.start m)
  | setPool (m : Memory) (base : Addr) {size : ℕ} (h : size ≤ 2^26) : Reachable (setPool base size (.start m))
  | memory {st : State} (m : Memory) (h : Reachable st) : Reachable { st with mem := m }
  | call {st : State} (E : Env) (c : Call) (h : Reachable st) : Reachable (c.run E st)

section Sound
variable {E : Env} {M : MachO} {slide : Addr} {st st' : State}

def State.Sound (st : State) : Prop := ∀ base, st.pool = some base → st.Ready base

theorem State.Ready.congr {base : Addr} (hr : st.Ready base) (hp : st'.pool = st.pool) (hs : st'.poolSize = st.poolSize)
    (hu : st'.poolUsed = st.poolUsed) (hc : st'.abortCaller = st.abortCaller) : st'.Ready base := by
  refine ⟨hp.trans hr.pool,by rw [hs]; exact hr.size,fun a ha => ?_⟩
  rw [hs, hu]
  exact hr.caller a (hc.symm.trans ha)

theorem sound_redirectSites (hs : st.Sound) (sites : List Site) : (redirectSites E sites st).Sound := by
  intro base hp
  obtain ⟨_,hpatched⟩ := patched_redirectSites (E := E) sites st
  exact ready_redirectSites (hs base (hpatched.pool ▸ hp)) sites

theorem sound_call (hs : st.Sound) (E : Env) (c : Call) : (c.run E st).Sound := by
  have htext : ∀ a b, ({ st with textBase := a, textSize := b } : State).Sound :=
    fun a b base hp => (hs base hp).congr rfl rfl rfl rfl
  cases c with
  | patchAddresses M slide file =>
    unfold Call.run
    dsimp only
    rcases patchAddresses_cases E M slide file st with ⟨a,b,hr⟩ | ⟨base,hooks,starts,hpass⟩
    · rw [hr]
      exact htext a b
    · obtain ⟨a,b,hr⟩ := hpass.result
      rw [hr]
      intro base' hp
      have hready := hs base' hp
      refine ⟨hready.pool,hready.size,fun c hc => ?_⟩
      obtain ⟨q,hq,hc,hmod⟩ := hready.caller c hc
      refine ⟨q,hq,hc,?_⟩
      dsimp only [islandSize]
      omega
  | patchLib M slide libPath prefixes overrides =>
    obtain ⟨a,b,h⟩ := patchLib_eq E M slide libPath prefixes overrides st
    rw [Call.run, h]
    exact sound_redirectSites (htext a b) _
  | patchOverrides M slide handle matchLocal =>
    obtain ⟨a,b,h⟩ := patchOverrides_eq E M slide handle matchLocal st
    rw [Call.run, h]
    exact sound_redirectSites (htext a b) _

theorem sound_of_reachable (h : Reachable st) : st.Sound := by
  induction h with
  | start m => exact fun base hp => nomatch hp
  | setPool m base hsize => exact fun base' hp => ⟨hp,hsize,fun a ha => nomatch ha⟩
  | memory m _ ih => exact fun base hp => (ih base hp).congr rfl rfl rfl rfl
  | call E c _ ih => exact sound_call ih E c

end Sound

/-! ## Only code -/

/-- A byte of a section of instructions, at its place in memory. -/
def CodeByte (M : MachO) (slide b : Addr) : Prop :=
  ∃ sec ∈ M.sections, sec.hasInstructions ∧ sec.contains (b - slide)

instance (M : MachO) (slide b : Addr) : Decidable (CodeByte M slide b) :=
  inferInstanceAs (Decidable (∃ sec ∈ M.sections, sec.hasInstructions = true ∧ sec.contains (b - slide) = true))

def CodeWord (M : MachO) (slide a : Addr) : Prop := ∀ k < 4, CodeByte M slide (a + BitVec.ofNat 64 k)

instance (M : MachO) (slide a : Addr) : Decidable (CodeWord M slide a) := Nat.decidableBallLT 4 _

/-- Outside the pool, only words of code at symbols are overwritten. -/
def OnlyCode (M : MachO) (slide : Addr) (st st' : State) : Prop :=
  ∃ l, st'.written = st.written ++ l ∧
    (∀ a ∈ l, (∃ sym ∈ M.symbols, a = sym.nValue + slide) ∧ CodeWord M slide a) ∧
    ∀ b, ¬st.InPool b → (∀ a ∈ l, 4 ≤ (b - a).toNat) → st'.mem b = st.mem b

/-- Of the bytes of `__TEXT`, only words of code at symbols are overwritten. -/
def OnlyTextCode (M : MachO) (slide : Addr) (st st' : State) : Prop :=
  ∃ l, st'.written = st.written ++ l ∧
    (∀ a ∈ l, (∃ sym ∈ M.symbols, a = sym.nValue + slide) ∧ CodeWord M slide a) ∧
    ∀ v, M.IsText v → (∀ a ∈ l, 4 ≤ (v + slide - a).toNat) → st'.mem (v + slide) = st.mem (v + slide)

/-- Every site that gets its branch is code. -/
def ReachedAreCode (M : MachO) (slide : Addr) (sites : List Site) (st : State) : Prop :=
  ∀ before site after, sites = before ++ site :: after → st.Reaches before site → CodeWord M slide site.func

section OnlyCode
variable {E : Env} {M : MachO} {slide : Addr} {st : State}

theorem written_of_sites (hs : st.Sound) {sites : List Site} {st' : State} (hpool : st.pool = none → sites = [])
    (heq : ∃ a b, st' = redirectSites E sites { st with textBase := a, textSize := b }) :
    ∃ l, st'.written = st.written ++ l ∧
      (∀ a, a ∈ l ↔ ∃ before site after, sites = before ++ site :: after ∧ st.Reaches before site ∧ a = site.func) ∧
      ∀ b, ¬st.InPool b → (∀ a ∈ l, 4 ≤ (b - a).toNat) → st'.mem b = st.mem b := by
  obtain ⟨a,b,rfl⟩ := heq
  obtain ⟨l',hpatched⟩ := patched_redirectSites (E := E) sites { st with textBase := a, textSize := b }
  obtain ⟨l,hl,hmem⟩ : ∃ l, (redirectSites E sites { st with textBase := a, textSize := b }).written = st.written ++ l ∧
      ∀ a, a ∈ l ↔ ∃ before site after, sites = before ++ site :: after ∧ st.Reaches before site ∧ a = site.func := by
    rcases Option.eq_none_or_eq_some st.pool with hp | ⟨base,hp⟩
    · obtain rfl := hpool hp
      exact ⟨[],(List.append_nil _).symm,fun a => by simp⟩
    · have hready : ({ st with textBase := a, textSize := b } : State).Ready base := (hs base hp).congr rfl rfl rfl rfl
      exact written_redirectSites hready sites
  obtain rfl : l' = l := List.append_cancel_left (hpatched.written.symm.trans hl)
  exact ⟨l',hl,hmem,hpatched.mem⟩

theorem onlyCode_iff (hs : st.Sound) {sites : List Site} {st' : State} (hpool : st.pool = none → sites = [])
    (hsyms : ∀ site ∈ sites, ∃ sym ∈ M.symbols, site.func = sym.nValue + slide)
    (heq : ∃ a b, st' = redirectSites E sites { st with textBase := a, textSize := b }) :
    (OnlyCode M slide st st' ↔ ReachedAreCode M slide sites st) ∧
      (PoolOutsideText M slide st → (OnlyTextCode M slide st st' ↔ ReachedAreCode M slide sites st)) := by
  obtain ⟨l,hl,hmem,hframe⟩ := written_of_sites hs hpool heq
  have hreached : ∀ l₂, st'.written = st.written ++ l₂ →
      (∀ a ∈ l₂, (∃ sym ∈ M.symbols, a = sym.nValue + slide) ∧ CodeWord M slide a) →
      ReachedAreCode M slide sites st := by
    intro l₂ hl₂ hcode before site after hsites hreach
    obtain rfl : l₂ = l := List.append_cancel_left (hl₂.symm.trans hl)
    exact (hcode site.func ((hmem _).mpr ⟨before,site,after,hsites,hreach,rfl⟩)).2
  have hcode : ReachedAreCode M slide sites st →
      ∀ a ∈ l, (∃ sym ∈ M.symbols, a = sym.nValue + slide) ∧ CodeWord M slide a := by
    intro hcode a ha
    obtain ⟨before,site,after,hsites,hreach,rfl⟩ := (hmem a).mp ha
    exact ⟨hsyms site (by simp [hsites]),hcode before site after hsites hreach⟩
  refine ⟨⟨?_,fun h => ⟨l,hl,hcode h,hframe⟩⟩,fun hout => ⟨?_,fun h => ⟨l,hl,hcode h,fun v hv => hframe _ (hout v hv)⟩⟩⟩
  · rintro ⟨l₂,hl₂,h,-⟩
    exact hreached l₂ hl₂ h
  · rintro ⟨l₂,hl₂,h,-⟩
    exact hreached l₂ hl₂ h

theorem makeTextWritable_of_no_pool (h : st.pool = none) : ¬(makeTextWritable E M slide st).1 := by
  unfold makeTextWritable
  split
  · simp
  · simp [h]

theorem symbol_of_mem_sites {site : Nlist → Option Site}
    (hfunc : ∀ sym s, site sym = some s → s.func = sym.nValue + slide) {s : Site}
    (hs : s ∈ M.symbols.filterMap site) : ∃ sym ∈ M.symbols, s.func = sym.nValue + slide := by
  obtain ⟨sym,hsym,hs⟩ := List.mem_filterMap.mp hs
  exact ⟨sym,hsym,hfunc sym s hs⟩

theorem patchLib_onlyCode_iff (E : Env) (M : MachO) (slide : Addr) (hs : st.Sound) (libPath : Name)
    (prefixes : List Name) (overrides : List Override) :
    (OnlyCode M slide st (patchLib E M slide libPath prefixes overrides st).2 ↔
      ReachedAreCode M slide (libSites E M slide libPath prefixes overrides st) st) ∧
    (PoolOutsideText M slide st →
      (OnlyTextCode M slide st (patchLib E M slide libPath prefixes overrides st).2 ↔
        ReachedAreCode M slide (libSites E M slide libPath prefixes overrides st) st)) := by
  refine onlyCode_iff hs (fun hp => ?_) (fun site hsite => ?_) (patchLib_eq E M slide libPath prefixes overrides st)
  · exact if_neg fun h => makeTextWritable_of_no_pool hp h.2
  · unfold libSites at hsite
    dsimp only at hsite
    split at hsite
    · refine symbol_of_mem_sites (fun sym s h => ?_) hsite
      obtain ⟨name,-,h⟩ := Option.bind_eq_some_iff.mp h
      split at h
      · cases h
        rfl
      · cases h
    · cases hsite

theorem patchOverrides_onlyCode_iff (E : Env) (M : MachO) (slide : Addr) (hs : st.Sound) (handle : Handle)
    (matchLocal : Bool) :
    (OnlyCode M slide st (patchOverrides E M slide handle matchLocal st).2 ↔
      ReachedAreCode M slide (overrideSites E M slide handle matchLocal st) st) ∧
    (PoolOutsideText M slide st →
      (OnlyTextCode M slide st (patchOverrides E M slide handle matchLocal st).2 ↔
        ReachedAreCode M slide (overrideSites E M slide handle matchLocal st) st)) := by
  refine onlyCode_iff hs (fun hp => ?_) (fun site hsite => ?_) (patchOverrides_eq E M slide handle matchLocal st)
  · exact if_neg (makeTextWritable_of_no_pool hp)
  · unfold overrideSites at hsite
    split at hsite
    · refine symbol_of_mem_sites (fun sym s h => ?_) hsite
      obtain ⟨name,-,h⟩ := Option.bind_eq_some_iff.mp h
      split at h
      · cases h
        rfl
      · cases h
    · cases hsite

/-- A call to either patcher writes over code only, if and only if the sites that get a branch are code. Islands
are no exception if the pool lies outside of the text. -/
theorem patch_onlyCode_iff (h : Reachable st) (E : Env) (M : MachO) (slide : Addr) :
    ((∀ libPath prefixes overrides,
        OnlyCode M slide st (patchLib E M slide libPath prefixes overrides st).2 ↔
          ReachedAreCode M slide (libSites E M slide libPath prefixes overrides st) st) ∧
      ∀ handle matchLocal,
        OnlyCode M slide st (patchOverrides E M slide handle matchLocal st).2 ↔
          ReachedAreCode M slide (overrideSites E M slide handle matchLocal st) st) ∧
    (PoolOutsideText M slide st →
      (∀ libPath prefixes overrides,
        OnlyTextCode M slide st (patchLib E M slide libPath prefixes overrides st).2 ↔
          ReachedAreCode M slide (libSites E M slide libPath prefixes overrides st) st) ∧
      ∀ handle matchLocal,
        OnlyTextCode M slide st (patchOverrides E M slide handle matchLocal st).2 ↔
          ReachedAreCode M slide (overrideSites E M slide handle matchLocal st) st) := by
  have hlib := patchLib_onlyCode_iff E M slide (sound_of_reachable h)
  have hover := patchOverrides_onlyCode_iff E M slide (sound_of_reachable h)
  refine ⟨⟨fun libPath prefixes overrides => (hlib libPath prefixes overrides).1,
    fun handle matchLocal => (hover handle matchLocal).1⟩,fun hout => ⟨?_,?_⟩⟩
  · exact fun libPath prefixes overrides => (hlib libPath prefixes overrides).2 hout
  · exact fun handle matchLocal => (hover handle matchLocal).2 hout

end OnlyCode

/-- A function of a library, and a table of it in a section of constants. -/
def codeAndTable : MachO where
  isMachO64 := true
  commands := [
    .segment ⟨"__TEXT".toList,0x100000000,0x4000,0,0x4000,5,
      [⟨0x100001000,0x100,0x80000400⟩,⟨0x100002000,0x100,0⟩]⟩,
    .symtab (some [⟨0x0f,1,0x100001000,some "_SDL_Init".toList,0x9000⟩,
      ⟨0x0f,2,0x100002000,some "_SDL_table".toList,0x9010⟩])]

def nearbyPool : State := setPool 0x500004000 0x100000 (.start fun _ => 0)

theorem reachable_nearbyPool : Reachable nearbyPool := .setPool _ _ (by decide)

theorem poolOutsideText_nearbyPool : PoolOutsideText codeAndTable 0x400000000 nearbyPool := by
  rintro v ⟨seg,hseg,-,hin⟩ ⟨base,hbase,hpool⟩
  have hsegs : codeAndTable.segments = [⟨"__TEXT".toList,0x100000000,0x4000,0,0x4000,5,
      [⟨0x100001000,0x100,0x80000400⟩,⟨0x100002000,0x100,0⟩]⟩] := rfl
  rw [hsegs, List.mem_singleton] at hseg
  subst hseg
  obtain rfl : (0x500004000 : Addr) = base := Option.some.inj hbase
  change (v + 0x400000000 - 0x500004000).toNat < 0x100000 at hpool
  have hv : (v - 0x100000000).toNat < 0x4000 := by
    rcases hin with hin | ⟨sec,hsec,hin⟩
    · exact hin
    · simp only [List.mem_cons, List.not_mem_nil, or_false] at hsec
      rcases hsec with rfl | rfl
      · simp only [Section.contains, decide_eq_true_eq] at hin
        bv_omega
      · simp only [Section.contains, decide_eq_true_eq] at hin
        bv_omega
  bv_omega

theorem patch_onlyCode_iff_nearbyPool :
    OnlyCode codeAndTable 0x400000000 nearbyPool
        (patchLib oneLibrary codeAndTable 0x400000000 "libSDL2.so".toList ["_SDL_Init".toList] [] nearbyPool).2 ∧
      OnlyTextCode codeAndTable 0x400000000 nearbyPool
        (patchLib oneLibrary codeAndTable 0x400000000 "libSDL2.so".toList ["_SDL_Init".toList] [] nearbyPool).2 := by
  have hsites : libSites oneLibrary codeAndTable 0x400000000 "libSDL2.so".toList ["_SDL_Init".toList] [] nearbyPool =
      [⟨0x500001000,.abort 0x9000⟩] := by decide +kernel
  have hcode : ReachedAreCode codeAndTable 0x400000000 (libSites oneLibrary codeAndTable 0x400000000
      "libSDL2.so".toList ["_SDL_Init".toList] [] nearbyPool) nearbyPool := by
    intro before site after heq _
    rw [hsites] at heq
    have hsite : site ∈ [(⟨0x500001000,.abort 0x9000⟩ : Site)] := by
      rw [heq]
      simp
    rw [List.mem_singleton] at hsite
    rw [hsite]
    decide
  have hiff := patch_onlyCode_iff reachable_nearbyPool oneLibrary codeAndTable 0x400000000
  exact ⟨(hiff.1.1 _ _ _).mpr hcode,((hiff.2 poolOutsideText_nearbyPool).1 _ _ _).mpr hcode⟩

/-- The table of constants gets a branch to the report that aborts. -/
theorem patchLib_over_table : ¬∀ (E : Env) (M : MachO) (slide : Addr) (libPath : Name) (prefixes : List Name)
    (overrides : List Override) (st : State), Reachable st →
      OnlyCode M slide st (patchLib E M slide libPath prefixes overrides st).2 := by
  intro hall
  obtain ⟨l,hl,hcode,-⟩ := hall oneLibrary codeAndTable 0x400000000 "libSDL2.so".toList ["_SDL_".toList] []
    nearbyPool reachable_nearbyPool
  have hwritten : (patchLib oneLibrary codeAndTable 0x400000000 "libSDL2.so".toList ["_SDL_".toList] []
      nearbyPool).2.written = [0x500001000,0x500002000] := by decide +kernel
  obtain rfl : l = [0x500001000,0x500002000] := List.append_cancel_left (hl.symm.trans hwritten)
  exact absurd (hcode 0x500002000 (by simp)).2 (by decide)

end Machismo.Trampoline
