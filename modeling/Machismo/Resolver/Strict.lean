import Machismo.Resolver.Deferred
import Machismo.Resolver.Outcome

/-! # Strict binds

In strict mode an image is rejected when a bind was counted as failed. Some binds go wrong without
being counted: a chained bind without a readable import record, a bind in a segment that the image
lacks or whose pointer format is not supported, and a weak lookup (ordinal -3) that finds nothing.
-/
namespace Machismo.Resolver
open A64

section Pure
variable {E : Env} {I : Image} {libOrdinal : ℤ}

theorem Image.stubs_of_isDeferred (h : I.isDeferred libOrdinal) : I.stubs libOrdinal := by
  obtain ⟨h1,h2,h3⟩ := Image.isDeferred_iff.mp h
  simp only [stubs, hasOrdinal, entry, DylibEntry.stubs, h1, h2, h3]
  rfl

theorem ordinalCounts_of_strong (h : I.stubs libOrdinal = false) : ordinalCounts I libOrdinal false = true := by
  unfold ordinalCounts
  unfold Image.stubs at h
  cases hi : I.hasOrdinal libOrdinal <;> simp_all

theorem decodedCounts_of_strong (h : I.stubs libOrdinal = false) (h3 : libOrdinal ≠ -3) (name : Name) :
    decodedCounts E I libOrdinal name false = !decodedFinds E I libOrdinal name := by
  simp only [decodedCounts, if_neg h3, ordinalCounts_of_strong h, Bool.not_false, ite_self, Bool.and_true]

theorem byNameCounts_of_strong (h : I.stubs libOrdinal = false) (h3 : libOrdinal ≠ -3) (name : Name) :
    byNameCounts E I libOrdinal name false = !byNameFinds E I libOrdinal name := by
  simp only [byNameCounts, if_neg h3, ordinalCounts_of_strong h, Bool.not_false, ite_self, Bool.and_true]

end Pure

namespace Bind
variable (E : Env) (I : Image) (b : Bind)

/-- Not weak, and not to a library that is stubbed on purpose. -/
def strong : Bool := !b.weak && !I.stubs b.libOrdinal

def counts : Bool :=
  (I.slot? b.cursor).isSome && !I.isDeferred b.libOrdinal && byNameCounts E I b.libOrdinal b.symName b.weak

/-- The bind goes wrong without being counted. -/
def slips : Bool :=
  (I.slot? b.cursor).isNone || (b.libOrdinal = -3 && !byNameFinds E I b.libOrdinal b.symName)

/-- The bind sets its slot to a definition. -/
def SetsDefinition (st : ResolverState) : Prop :=
  ∃ addr, I.slot? b.cursor = some addr ∧
    let r := resolveBindByName E I b.libOrdinal b.symName b.weak b.addend (touchOrdinal I b.libOrdinal st)
    r.1.isDefinition ∧ doBindOne E I st b = r.2.write addr (r.1.addr E)

end Bind

section ByName
variable {E : Env} {I : Image}

@[simp] theorem write_failed (st : ResolverState) (a : Addr) (v : BitVec 64) :
    (st.write a v).bindsFailed = st.bindsFailed := rfl

theorem touchOrdinal_failed (libOrdinal : ℤ) (st : ResolverState) :
    (touchOrdinal I libOrdinal st).bindsFailed = st.bindsFailed := by
  unfold touchOrdinal
  split <;> rfl

theorem doBindOne_failed (st : ResolverState) (b : Bind) :
    (doBindOne E I st b).bindsFailed = st.bindsFailed + (b.counts E I).toNat := by
  unfold doBindOne Bind.counts
  cases I.slot? b.cursor with
  | none => simp
  | some addr =>
    dsimp only
    cases hd : I.isDeferred b.libOrdinal with
    | true =>
      have hs := fun g => (Outcome.stub E { touchOrdinal I b.libOrdinal st with deferred := g }).failed
      simp only [Bool.not_true, Bool.and_false, Bool.false_and, Bool.toNat_false, Nat.add_zero]
      exact (hs _).trans (touchOrdinal_failed b.libOrdinal st)
    | false =>
      have ho := (Outcome.resolveBindByName E I b.libOrdinal b.symName b.weak b.addend
        (touchOrdinal I b.libOrdinal st)).failed
      rw [touchOrdinal_failed] at ho
      simpa using ho

theorem foldl_doBindOne_failed (l : List Bind) (st : ResolverState) :
    (l.foldl (doBindOne E I) st).bindsFailed = st.bindsFailed + l.countP (Bind.counts E I) := by
  induction l generalizing st with
  | nil => rfl
  | cons b l ih =>
    rw [List.foldl_cons, ih, doBindOne_failed, List.countP_cons]
    cases b.counts E I <;> simp
    omega

theorem foldl_rebaseOne_failed (l : List Cursor) (st : ResolverState) :
    (l.foldl (rebaseOne I) st).bindsFailed = st.bindsFailed := by
  induction l generalizing st with
  | nil => rfl
  | cons c l ih =>
    rw [List.foldl_cons, ih, rebaseOne]
    split <;> rfl

/-- A strong bind that is not counted sets its slot to a definition, unless it slips. -/
theorem Bind.setsDefinition_iff {b : Bind} (hb : b.strong I) (hc : b.counts E I = false) (st : ResolverState) :
    b.SetsDefinition E I st ↔ b.slips E I = false := by
  unfold strong at hb
  obtain ⟨hw,hs⟩ := Bool.and_eq_true_iff.mp hb
  simp only [Bool.not_eq_true'] at hw hs
  have hd : I.isDeferred b.libOrdinal = false := by
    cases hd : I.isDeferred b.libOrdinal with
    | false => rfl
    | true => exact absurd (Image.stubs_of_isDeferred hd) (by simp [hs])
  have ho := (Outcome.resolveBindByName E I b.libOrdinal b.symName b.weak b.addend
    (touchOrdinal I b.libOrdinal st)).definition
  unfold SetsDefinition slips
  unfold counts at hc
  cases hslot : I.slot? b.cursor with
  | none => simp
  | some addr =>
    have hwrite : doBindOne E I st b =
        (resolveBindByName E I b.libOrdinal b.symName b.weak b.addend (touchOrdinal I b.libOrdinal st)).2.write addr
          ((resolveBindByName E I b.libOrdinal b.symName b.weak b.addend
            (touchOrdinal I b.libOrdinal st)).1.addr E) := by
      simp only [doBindOne, hslot, hd, Bool.false_eq_true, ↓reduceIte]
    -- with the slot there, only the lookup decides
    have hiff : byNameFinds E I b.libOrdinal b.symName = true ↔
        (decide (b.libOrdinal = -3) && !byNameFinds E I b.libOrdinal b.symName) = false := by
      by_cases h3 : b.libOrdinal = -3
      · simp [h3]
      · rw [hslot, hd, hw, byNameCounts_of_strong hs h3] at hc
        simpa [h3] using hc
    rw [← hiff.trans (by simp : _ ↔ ((some addr).isNone || _) = false), ← ho]
    constructor
    · rintro ⟨a,ha,hdef,-⟩
      exact hdef
    · intro hdef
      exact ⟨addr,rfl,hdef,hwrite⟩

end ByName

/-- The import record a fixup names, if there is one. -/
def ChainedFixups.importAt (C : ChainedFixups) (ordinal : ℕ) : Option Import :=
  if ordinal < C.importsCount.toNat then C.readImport ordinal else none

namespace Fixup
variable (E : Env) (I : Image) (C : ChainedFixups) (x : Fixup)

/-- A bind that is not known to be weak or to a library that is stubbed on purpose. -/
def strong : Bool :=
  fixupPtrBind x.raw && match C.importAt (fixupBindOrdinal x.raw) with
    | none => true
    | some imp => !imp.weak && !I.stubs imp.libOrdinal

def finds : Bool :=
  fixupPtrBind x.raw && match C.importAt (fixupBindOrdinal x.raw) with
    | none => false
    | some imp => decodedFinds E I imp.libOrdinal (C.symbols imp.nameOffset)

def counts : Bool :=
  fixupPtrBind x.raw && match C.importAt (fixupBindOrdinal x.raw) with
    | none => false
    | some imp => decodedCounts E I imp.libOrdinal (C.symbols imp.nameOffset) imp.weak

def slips : Bool :=
  match C.importAt (fixupBindOrdinal x.raw) with
  | none => true
  | some imp => imp.libOrdinal = -3 && !decodedFinds E I imp.libOrdinal (C.symbols imp.nameOffset)

def SetsDefinition (st : ResolverState) : Prop :=
  fixupPtrBind x.raw ∧
    let r := resolveImport E I C (fixupBindOrdinal x.raw) ((fixupBindAddend x.raw).signExtend 64) st
    r.1.isDefinition ∧ x.apply E I C st = r.2.write x.loc (r.1.addr E)

end Fixup

section OnChains
variable {E : Env} {I : Image} {C : ChainedFixups}

theorem Outcome.resolveImport {x : Fixup} (hx : fixupPtrBind x.raw) (addend : BitVec 64) (st : ResolverState) :
    Outcome (x.finds E I C) (x.counts E I C) st (resolveImport E I C (fixupBindOrdinal x.raw) addend st) := by
  unfold Fixup.finds Fixup.counts Resolver.resolveImport ChainedFixups.importAt
  rw [hx]
  by_cases hn : C.importsCount.toNat ≤ fixupBindOrdinal x.raw
  · rw [if_pos hn, if_neg (Nat.not_lt.mpr hn)]
    exact ⟨rfl,rfl⟩
  · rw [if_neg hn, if_pos (Nat.not_le.mp hn)]
    cases C.readImport (fixupBindOrdinal x.raw) with
    | none => exact ⟨rfl,rfl⟩
    | some imp => exact Outcome.resolveDecoded E I _ _ _ _ st

theorem apply_failed (st : ResolverState) (x : Fixup) :
    (x.apply E I C st).bindsFailed = st.bindsFailed + (x.counts E I C).toNat := by
  unfold Fixup.apply applyFixup
  cases hx : fixupPtrBind x.raw with
  | true => exact (Outcome.resolveImport hx _ st).failed
  | false =>
    have hc : x.counts E I C = false := by simp [Fixup.counts, hx]
    rw [hc]
    rfl

theorem foldl_apply_failed (l : List Fixup) (st : ResolverState) :
    (l.foldl (Fixup.apply E I C) st).bindsFailed = st.bindsFailed + l.countP (Fixup.counts E I C) := by
  induction l generalizing st with
  | nil => rfl
  | cons x l ih =>
    rw [List.foldl_cons, ih, apply_failed, List.countP_cons]
    cases x.counts E I C <;> simp
    omega

theorem Fixup.setsDefinition_iff_finds (x : Fixup) (st : ResolverState) :
    x.SetsDefinition E I C st ↔ x.finds E I C := by
  unfold SetsDefinition
  cases hx : fixupPtrBind x.raw with
  | false => simp [finds, hx]
  | true =>
    rw [← (Outcome.resolveImport (E := E) (I := I) (C := C) hx ((fixupBindAddend x.raw).signExtend 64) st).definition]
    constructor
    · intro h
      exact h.2.1
    · intro h
      refine ⟨rfl,h,?_⟩
      simp only [Fixup.apply, applyFixup, hx, ↓reduceIte]

theorem Fixup.finds_iff {x : Fixup} (hs : x.strong I C) (hc : x.counts E I C = false) :
    x.finds E I C ↔ x.slips E I C = false := by
  unfold strong at hs
  unfold counts at hc
  unfold finds slips
  obtain ⟨hx,hs⟩ := Bool.and_eq_true_iff.mp hs
  rw [hx] at hc ⊢
  cases hi : C.importAt (fixupBindOrdinal x.raw) with
  | none => simp
  | some imp =>
    rw [hi] at hs hc
    dsimp only at hs hc ⊢
    obtain ⟨hw,hst⟩ := Bool.and_eq_true_iff.mp hs
    simp only [Bool.not_eq_true'] at hw hst
    by_cases h3 : imp.libOrdinal = -3
    · simp [h3]
    · rw [hw, decodedCounts_of_strong hst h3] at hc
      simpa [h3] using hc

end OnChains

section Images
variable (E : Env) (mappings : List Mapping) (fuel : ℕ) (X : ImageFile) (st : ResolverState)

/-- The fixups of a chained image, as they are met. -/
def ImageFile.trace (C : ChainedFixups) : List Fixup :=
  chainedTrace E (X.image E mappings) C fuel (st.begin (X.defers E mappings))

variable (other : SegmentStarts → Memory → List Addr)

/-- Every strong bind in the fixup data sets its slot to a definition. Which slots of a segment with
another pointer format hold strong binds is for that format, `other`, to say. -/
def StrongBindsFound : Prop :=
  let I := X.image E mappings
  let s := st.begin (X.defers E mappings)
  match X.parsed.chained, X.parsed.dyldInfo with
  | some (some C), _ =>
    let l := X.trace E mappings fuel st C
    (∀ pre x post, l = pre ++ x :: post → x.strong I C → x.SetsDefinition E I C (pre.foldl (Fixup.apply E I C) s)) ∧
      ∀ S, some S ∈ C.starts → S.supported = false → ∀ a ∈ other S st.mem, ∃ pre x post, l = pre ++ x :: post ∧
        x.loc = a ∧ x.SetsDefinition E I C (pre.foldl (Fixup.apply E I C) s)
  | none, some D =>
    ∀ pre b post, D.binds.2 = pre ++ b :: post → b.strong I →
      b.SetsDefinition E I (pre.foldl (doBindOne E I) (D.rebases.2.foldl (rebaseOne I) s))
  | _, _ => True

/-- The fixup data are not well formed, or some bind is counted, or no strong bind slips. -/
def NothingSlips : Prop :=
  let I := X.image E mappings
  match X.parsed.chained, X.parsed.dyldInfo with
  | some (some C), _ =>
    let l := X.trace E mappings fuel st C
    (∃ x ∈ l, x.counts E I C) ∨ (∀ x ∈ l, x.strong I C → x.slips E I C = false) ∧
      ∀ S, some S ∈ C.starts → S.supported = false → ∀ a ∈ other S st.mem, ∃ x ∈ l, x.loc = a ∧ x.finds E I C
  | none, some D =>
    D.binds.1 = false ∨ (∃ b ∈ D.binds.2, b.counts E I) ∨ ∀ b ∈ D.binds.2, b.strong I → b.slips E I = false
  | _, _ => True

end Images

section Accepted
variable {E : Env} {mappings : List Mapping} {fuel : ℕ} {X : ImageFile} {st st' : ResolverState} {ok : Bool}

theorem begin_failed (st : ResolverState) (defers : Bool) : (st.begin defers).bindsFailed = 0 := rfl

theorem saveDylibs_failed (I : Image) (st : ResolverState) : (saveDylibs I st).bindsFailed = st.bindsFailed := by
  unfold saveDylibs
  split <;> rfl

theorem accepted_eq (n : ℕ) : (!(decide (0 < n) && true)) = decide (n = 0) := by cases n <;> simp

theorem countP_eq_zero_or {α : Type} (p : α → Bool) (l : List α) : l.countP p = 0 ∨ 0 < l.countP p ∧ ∃ x ∈ l, p x := by
  rcases Nat.eq_zero_or_pos (l.countP p) with h | h
  · exact .inl h
  · exact .inr ⟨h,List.countP_pos_iff.mp h⟩

theorem resolveFixups_chained {C : ChainedFixups} (hC : X.parsed.chained = some (some C))
    (h : resolveFixups E mappings true fuel X st = some (ok,st')) :
    ok = decide ((X.trace E mappings fuel st C).countP (Fixup.counts E (X.image E mappings) C) = 0) := by
  unfold resolveFixups processFixups at h
  simp only [hC, Option.isNone_some, Bool.false_eq_true, false_and, ↓reduceIte, Option.map_map] at h
  obtain ⟨st₁,h₁,h₂⟩ := Option.map_eq_some_iff.mp h
  have hf : st₁.bindsFailed = (X.trace E mappings fuel st C).countP (Fixup.counts E (X.image E mappings) C) := by
    rw [processChainedFixups_eq_foldl h₁, foldl_apply_failed]
    exact Nat.zero_add _
  simp only [Function.comp_apply, ↓reduceIte, Prod.mk.injEq, saveDylibs_failed, hf] at h₂
  rw [← h₂.1]
  exact accepted_eq _

theorem resolveFixups_dyldInfo {D : DyldInfo} (hC : X.parsed.chained = none) (hD : X.parsed.dyldInfo = some D)
    (h : resolveFixups E mappings true fuel X st = some (ok,st')) :
    ok = (D.binds.1 && decide (D.binds.2.countP (Bind.counts E (X.image E mappings)) = 0)) := by
  unfold resolveFixups processFixups at h
  simp only [hC, hD, processDyldInfo_eq, Option.isNone_some, Bool.false_eq_true, and_false, ↓reduceIte, Option.map_some,
    Option.some.injEq] at h
  cases hok : D.binds.1 with
  | false =>
    simp only [hok, Bool.false_eq_true, ↓reduceIte, Prod.mk.injEq] at h
    rw [← h.1, Bool.false_and]
  | true =>
    simp only [hok, ↓reduceIte, Prod.mk.injEq, saveDylibs_failed, foldl_doBindOne_failed, foldl_rebaseOne_failed,
      begin_failed, Nat.zero_add] at h
    rw [← h.1, Bool.true_and]
    exact accepted_eq _

theorem forall_split_iff {α : Type} {l : List α} {P : List α → α → Prop} {Q : α → Prop}
    (h : ∀ pre x, x ∈ l → (P pre x ↔ Q x)) :
    (∀ pre x post, l = pre ++ x :: post → P pre x) ↔ ∀ x ∈ l, Q x := by
  constructor
  · intro hall x hx
    obtain ⟨pre,post,he⟩ := List.append_of_mem hx
    exact (h pre x hx).mp (hall pre x post he)
  · intro hall pre x post he
    have hx : x ∈ l := by
      rw [he]
      simp
    exact (h pre x hx).mpr (hall x hx)

/-- In strict mode an accepted image has all its strong binds set to definitions exactly when nothing
slips through. -/
theorem strict_iff (other : SegmentStarts → Memory → List Addr)
    (h : resolveFixups E mappings true fuel X st = some (ok,st')) :
    (ok = true → StrongBindsFound E mappings fuel X st other) ↔ NothingSlips E mappings fuel X st other := by
  unfold StrongBindsFound NothingSlips
  cases hC : X.parsed.chained with
  | some C =>
    cases C with
    | none => simp
    | some C =>
      dsimp only
      rw [resolveFixups_chained hC h]
      rcases countP_eq_zero_or (Fixup.counts E (X.image E mappings) C) (X.trace E mappings fuel st C) with h0 | ⟨h0,hx⟩
      · have hno := List.countP_eq_zero.mp h0
        have hnot : ¬∃ x ∈ X.trace E mappings fuel st C, x.counts E (X.image E mappings) C :=
          fun ⟨x,hx,hc⟩ => hno x hx hc
        simp only [h0, decide_true, forall_const, hnot, false_or]
        refine and_congr ?_ ?_
        · refine (forall_split_iff fun pre x hx => ?_)
          refine imp_congr_right fun hs => ?_
          rw [Fixup.setsDefinition_iff_finds, Fixup.finds_iff hs (by simpa using hno x hx)]
        · refine forall₄_congr fun S _ _ a => forall_congr' fun _ => ?_
          simp only [Fixup.setsDefinition_iff_finds]
          constructor
          · rintro ⟨pre,x,post,he,ha,hf⟩
            exact ⟨x,by rw [he]; simp,ha,hf⟩
          · rintro ⟨x,hx,ha,hf⟩
            obtain ⟨pre,post,he⟩ := List.append_of_mem hx
            exact ⟨pre,x,post,he,ha,hf⟩
      · constructor
        · intro _
          exact .inl hx
        · intro _ hok
          simp only [decide_eq_true_eq] at hok
          omega
  | none =>
    cases hD : X.parsed.dyldInfo with
    | none => simp
    | some D =>
      dsimp only
      rw [resolveFixups_dyldInfo hC hD h]
      cases hok : D.binds.1 with
      | false => simp
      | true =>
        rcases countP_eq_zero_or (Bind.counts E (X.image E mappings)) D.binds.2 with h0 | ⟨h0,hx⟩
        · have hno := List.countP_eq_zero.mp h0
          have hnot : ¬∃ b ∈ D.binds.2, b.counts E (X.image E mappings) := fun ⟨x,hx,hc⟩ => hno x hx hc
          simp only [h0, decide_true, Bool.and_self, forall_const, hnot, Bool.true_eq_false, false_or]
          refine forall_split_iff fun pre b hb => ?_
          exact imp_congr_right fun hs => Bind.setsDefinition_iff hs (by simpa using hno b hb) _
        · constructor
          · intro _
            exact .inr (.inl hx)
          · intro _ hacc
            simp only [Bool.true_and, decide_eq_true_eq] at hacc
            omega

end Accepted

/-- An image of one page with the given stream of binds. -/
def bindImage (stream : List Byte) : ImageFile :=
  ⟨[.segment ⟨0x11000,0x1000⟩,.dyldInfo ⟨some [],some stream,some [],some []⟩],0,0x10000,fun _ => zeroEntry⟩

theorem strict_printf :
    ∃ st', resolveFixups printfLibrary [] true 1
      (bindImage [0x3E,0x40,0x5F,0x70,0x72,0x69,0x6E,0x74,0x66,0,0x70,0,0x90])
        (freshState fun _ => 0) = some (true,st') ∧
      StrongBindsFound printfLibrary [] 1 (bindImage [0x3E,0x40,0x5F,0x70,0x72,0x69,0x6E,0x74,0x66,0,0x70,0,0x90])
        (freshState fun _ => 0) (fun _ _ => []) := by
  obtain ⟨st',h⟩ := exists_of_map_fst (r := resolveFixups printfLibrary [] true 1
    (bindImage [0x3E,0x40,0x5F,0x70,0x72,0x69,0x6E,0x74,0x66,0,0x70,0,0x90]) (freshState fun _ => 0)) (by decide)
  exact ⟨st',h,(strict_iff _ h).mpr (.inr (.inr (by decide))) rfl⟩

/-- A weak lookup of a symbol that is nowhere: its slot gets a stub, and the image is accepted. -/
theorem strict_accepts_weak_lookup :
    ∃ st', resolveFixups printfLibrary [] true 1 (bindImage [0x3D,0x40,0x5F,0x67,0,0x70,0,0x90])
      (freshState fun _ => 0) =
        some (true,st') ∧
      load st'.mem 0x11000 8 = 0x400000 ∧ st'.bindsFailed = 0 ∧
      ¬StrongBindsFound printfLibrary [] 1 (bindImage [0x3D,0x40,0x5F,0x67,0,0x70,0,0x90]) (freshState fun _ => 0)
        (fun _ _ => []) := by
  have hrun : (resolveFixups printfLibrary [] true 1 (bindImage [0x3D,0x40,0x5F,0x67,0,0x70,0,0x90])
      (freshState fun _ => 0)).map (fun r => (r.1,load r.2.mem 0x11000 8,r.2.bindsFailed)) =
        some (true,0x400000,0) := by
    decide
  obtain ⟨⟨ok,st'⟩,h,he⟩ := Option.map_eq_some_iff.mp hrun
  simp only [Prod.mk.injEq] at he
  obtain ⟨rfl,hm,hf⟩ := he
  refine ⟨st',h,hm,hf,fun hall => ?_⟩
  let b : Bind := ⟨⟨0,0⟩,-3,"_g".toList,false,0⟩
  have hset : b.SetsDefinition printfLibrary
      ((bindImage [0x3D,0x40,0x5F,0x67,0,0x70,0,0x90]).image printfLibrary []) _ := hall [] b [] (by decide) (by decide)
  rw [Bind.setsDefinition_iff (by decide) (by decide)] at hset
  exact absurd hset (by decide)

end Machismo.Resolver
