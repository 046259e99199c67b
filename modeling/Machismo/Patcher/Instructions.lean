import Machismo.Patcher.Locations

/-! # Instructions

The scanner takes in the text of an instruction, and of the word that is expected in its place.
-/
namespace Machismo.Patcher
open Munch

theorem isWord_iff (l : Lit) : l.IsWord ↔ ¬l.value > 0xFFFFFFFF := by
  rw [Lit.IsWord, Lit.value, gt_iff_lt, BitVec.lt_def, BitVec.toNat_ofNat, Nat.mod_eq_of_lt (by omega)]
  change _ ↔ ¬4294967295 < _
  omega

theorem not_isPrefix_append {k k' : Text} (h : ¬k <+: k' ∧ ¬k' <+: k) (r : Text) : ¬k <+: k' ++ r :=
  fun hk => (List.prefix_or_prefix_of_prefix hk (List.prefix_append k' r)).elim h.1 h.2

theorem append_ne_append {k k' : Text} (h : ¬k <+: k' ∧ ¬k' <+: k) {r r' : Text} : k ++ r ≠ k' ++ r' :=
  fun heq => not_isPrefix_append h r' (heq ▸ List.prefix_append k r)

theorem mnemonic_inj {link link' : Bool} {r r' : Text} (h : mnemonic link ++ r = mnemonic link' ++ r') :
    link = link' ∧ r = r' := by
  by_cases hlink : link = link'
  · subst hlink
    exact ⟨rfl,List.append_cancel_left h⟩
  · refine absurd h (append_ne_append ?_)
    revert hlink
    cases link <;> cases link' <;> decide

/-- The text that follows does not go on with the instruction. -/
def InsnTree.Stops : InsnTree → Text → Prop
  | .nop, r => r.head?.all fun c => isSpace c ∨ c = ';'
  | .ret, r => r.head?.all fun c => isSpace c ∨ c = ';'
  | .raw insn, r => insn.Stops r ∧ insn.IsWord ∧ ∀ link, ¬mnemonic link <+: insn.before r
  | .branch _ _ target, r => target.Stops r

def InsnTree.Fits : InsnTree → Prop
  | .branch _ _ target => target.Fits
  | _ => True

theorem ends_insn (t : InsnTree) (r : Text) : Ends isWs (t.before r) := by
  cases t with
  | nop => exact ends_keyword (by decide) _
  | ret => exact ends_keyword (by decide) _
  | raw insn => exact ends_before insn r
  | branch link gap target => exact ends_keyword (by cases link <;> decide) _

theorem afterMnemonic_append {m r : Text} (h : r.head?.all fun c => isSpace c ∨ c = ';') :
    afterMnemonic m (m ++ r) = some r := by
  rw [afterMnemonic, after_append, Option.bind_some, if_pos h]

theorem afterMnemonic_eq_some {m p q : Text} (h : afterMnemonic m p = some q) :
    p = m ++ q ∧ q.head?.all fun c => isSpace c ∨ c = ';' := by
  obtain ⟨q',hq,h⟩ := Option.bind_eq_some_iff.mp h
  split at h
  next hend =>
    cases h
    exact ⟨after_eq_some hq,hend⟩
  next => cases h

theorem afterMnemonic_eq_none {m p : Text} (h : ¬m <+: p) : afterMnemonic m p = none := by
  rw [afterMnemonic, after_eq_none.mpr h, Option.bind_none]

theorem parseRaw_complete {l : Lit} {r : Text} (h : l.Stops r) (hword : l.IsWord) :
    parseRaw (l.before r) = some (.raw (l.value.setWidth 32),r) := by
  have hlit := parseHexU64_complete ⟨[],by simp⟩ h
  rw [List.nil_append] at hlit
  rw [parseRaw, hlit, Option.bind_some]
  exact if_neg ((isWord_iff l).mp hword)

theorem parseRaw_sound {p q : Text} {insn : InsnExpr} (hp : Ends isWs p) (h : parseRaw p = some (insn,q)) :
    ∃ l : Lit, p = l.before q ∧ l.Stops q ∧ l.IsWord ∧ insn = .raw (l.value.setWidth 32) := by
  obtain ⟨⟨v,r⟩,hlit,h⟩ := Option.bind_eq_some_iff.mp h
  obtain ⟨g,l,hl,hstops,rfl⟩ := parseHexU64_sound hlit
  obtain ⟨-,hl⟩ := gap_inj (g := ⟨[],by simp⟩) hp (ends_before l _) hl
  split at h
  · cases h
  next hword =>
    cases h
    exact ⟨l,hl,hstops,(isWord_iff l).mpr hword,rfl⟩

theorem parseInsnExpr_congr {p q : Text} (h : skipWs p = skipWs q) : parseInsnExpr p = parseInsnExpr q := by
  rw [parseInsnExpr, parseInsnExpr, h]

theorem parseInsnExpr_complete (g : Gap) {t : InsnTree} {r : Text} (h : t.Stops r) (hfits : t.Fits) :
    ∃ q, parseInsnExpr (g ++ t.before r) = some (t.meaning,q) ∧ skipWs q = skipWs r := by
  unfold parseInsnExpr
  rw [skipWs_gap, skipWs_eq_self (ends_insn t r)]
  dsimp only
  cases t with
  | nop =>
    rw [InsnTree.before, afterMnemonic_append h]
    exact ⟨r,rfl,rfl⟩
  | ret =>
    rw [InsnTree.before, afterMnemonic_eq_none (not_isPrefix_append (by decide) r), afterMnemonic_append h]
    exact ⟨r,rfl,rfl⟩
  | raw insn =>
    have hbl : after "bl ".toList (insn.before r) = none := after_eq_none.mpr (h.2.2 true)
    have hb : after "b ".toList (insn.before r) = none := after_eq_none.mpr (h.2.2 false)
    rw [InsnTree.before, afterMnemonic_eq_none (not_isPrefix_before (by decide) insn r),
      afterMnemonic_eq_none (not_isPrefix_before (by decide) insn r), hbl, hb, parseRaw_complete h.1 h.2.1]
    exact ⟨r,rfl,rfl⟩
  | branch link gap target =>
    obtain ⟨q,hq,hr⟩ := parseLocExpr_complete gap h hfits
    refine ⟨q,?_,hr⟩
    have hnop : ¬"nop".toList <+: mnemonic link ++ (gap.1 ++ target.before r) :=
      not_isPrefix_append (by cases link <;> decide) _
    have hret : ¬"ret".toList <+: mnemonic link ++ (gap.1 ++ target.before r) :=
      not_isPrefix_append (by cases link <;> decide) _
    rw [InsnTree.before, afterMnemonic_eq_none hnop, afterMnemonic_eq_none hret]
    cases link with
    | true =>
      rw [show mnemonic true = "bl ".toList from rfl, after_append]
      dsimp only
      rw [hq]
      rfl
    | false =>
      rw [show mnemonic false = "b ".toList from rfl, after_eq_none.mpr (not_isPrefix_append (by decide) _),
        after_append]
      dsimp only
      rw [hq]
      rfl

theorem parseInsnExpr_sound {p q : Text} {insn : InsnExpr} (h : parseInsnExpr p = some (insn,q)) :
    ∃ (g : Gap) (t : InsnTree) (r : Text), p = g ++ t.before r ∧ t.Stops r ∧ t.Fits ∧ t.meaning = insn ∧
      skipWs q = skipWs r := by
  obtain ⟨g,hg⟩ := exists_gap p
  unfold parseInsnExpr at h
  dsimp only at h
  split at h
  next s hs =>
    cases h
    obtain ⟨hp,hend⟩ := afterMnemonic_eq_some hs
    rw [hp] at hg
    exact ⟨g,.nop,q,hg,hend,trivial,rfl,rfl⟩
  next =>
    split at h
    next s hs =>
      cases h
      obtain ⟨hp,hend⟩ := afterMnemonic_eq_some hs
      rw [hp] at hg
      exact ⟨g,.ret,q,hg,hend,trivial,rfl,rfl⟩
    next =>
      split at h
      next s hs =>
        obtain ⟨⟨loc,q'⟩,hloc,h⟩ := Option.map_eq_some_iff.mp h
        cases h
        obtain ⟨g',t,r,rfl,hstops,hfits,rfl,hr⟩ := parseLocExpr_sound hloc
        rw [after_eq_some hs] at hg
        exact ⟨g,.branch true g' t,r,hg,hstops,hfits,rfl,hr⟩
      next hbl =>
        split at h
        next s hs =>
          obtain ⟨⟨loc,q'⟩,hloc,h⟩ := Option.map_eq_some_iff.mp h
          cases h
          obtain ⟨g',t,r,rfl,hstops,hfits,rfl,hr⟩ := parseLocExpr_sound hloc
          rw [after_eq_some hs] at hg
          exact ⟨g,.branch false g' t,r,hg,hstops,hfits,rfl,hr⟩
        next hb =>
          obtain ⟨l,hl,hstops,hword,rfl⟩ := parseRaw_sound (ends_skipWs p) h
          rw [hl] at hg hbl hb
          refine ⟨g,.raw l,q,hg,⟨hstops,hword,fun link => ?_⟩,trivial,rfl,rfl⟩
          cases link with
          | true => exact after_eq_none.mp hbl
          | false => exact after_eq_none.mp hb

theorem insn_inj {t t' : InsnTree} {r r' : Text} (ht : t.Stops r) (ht' : t'.Stops r')
    (h : t.before r = t'.before r') : t = t' ∧ r = r' := by
  cases t with
  | nop =>
    cases t' with
    | nop => exact ⟨rfl,List.append_cancel_left h⟩
    | ret => exact absurd h (append_ne_append (by decide))
    | raw insn' => exact absurd ⟨_,h⟩ (not_isPrefix_before (by decide) insn' r')
    | branch link' gap' target' => exact absurd h (append_ne_append (by cases link' <;> decide))
  | ret =>
    cases t' with
    | nop => exact absurd h (append_ne_append (by decide))
    | ret => exact ⟨rfl,List.append_cancel_left h⟩
    | raw insn' => exact absurd ⟨_,h⟩ (not_isPrefix_before (by decide) insn' r')
    | branch link' gap' target' => exact absurd h (append_ne_append (by cases link' <;> decide))
  | raw insn =>
    cases t' with
    | nop => exact absurd ⟨_,h.symm⟩ (not_isPrefix_before (by decide) insn r)
    | ret => exact absurd ⟨_,h.symm⟩ (not_isPrefix_before (by decide) insn r)
    | raw insn' =>
      obtain ⟨rfl,hr⟩ := lit_inj ht.1 ht'.1 h
      exact ⟨rfl,hr⟩
    | branch link' gap' target' => exact absurd ⟨_,h.symm⟩ (ht.2.2 link')
  | branch link gap target =>
    cases t' with
    | nop => exact absurd h (append_ne_append (by cases link <;> decide))
    | ret => exact absurd h (append_ne_append (by cases link <;> decide))
    | raw insn' => exact absurd ⟨_,h⟩ (ht'.2.2 link)
    | branch link' gap' target' =>
      obtain ⟨rfl,hgap⟩ := mnemonic_inj h
      obtain ⟨rfl,htarget⟩ := gap_inj (ends_loc target r) (ends_loc target' r') hgap
      obtain ⟨rfl,hr⟩ := loc_inj ht ht' htarget
      exact ⟨rfl,hr⟩

def ExpectStops : Option Expect → Text → Prop
  | none, r => ∀ c ∈ r, isWs c
  | some e, r => e.lit.Stops r ∧ e.lit.IsWord

def expectedWord (expect : Option Expect) : Option (BitVec 32) := expect.map fun e => e.lit.value.setWidth 32

theorem skipWs_eq_nil {r : Text} : skipWs r = [] ↔ ∀ c ∈ r, isWs c := List.dropWhile_eq_nil_iff

theorem skipWs_expectBefore (e : Expect) (r : Text) : skipWs (expectBefore (some e) r) =
    ';' :: (e.gap₁ ++ ("expect ".toList ++ (e.gap₂ ++ e.lit.before r))) := by
  rw [expectBefore, skipWs_gap, skipWs_eq_self (ends_cons.mpr (by decide))]

theorem parseExpect_complete {e : Option Expect} {p r : Text} (h : ExpectStops e r)
    (hp : skipWs p = skipWs (expectBefore e r)) : parseExpect p = some (expectedWord e) := by
  unfold parseExpect
  cases e with
  | none =>
    rw [hp, expectBefore, skipWs_eq_nil.mpr h]
    rfl
  | some e =>
    have hlit := parseHexU64_complete ⟨[],by simp⟩ h.1
    rw [List.nil_append] at hlit
    rw [hp, skipWs_expectBefore]
    change ((after "expect ".toList (skipWs (e.gap₁ ++ ("expect ".toList ++ (e.gap₂ ++ e.lit.before r))))).bind _) = _
    rw [skipWs_keyword (by decide), after_append, Option.bind_some, skipWs_gap, skipWs_eq_self (ends_before _ _), hlit,
      Option.bind_some]
    exact if_neg ((isWord_iff e.lit).mp h.2)

theorem parseExpect_sound {p q : Text} {v : Option (BitVec 32)} (hq : skipWs q = skipWs p)
    (h : parseExpect q = some v) : ∃ e r, p = expectBefore e r ∧ ExpectStops e r ∧ expectedWord e = v := by
  obtain ⟨g,hg⟩ := exists_gap p
  unfold parseExpect at h
  rw [hq] at h
  split at h
  next hnil =>
    cases h
    exact ⟨none,p,rfl,skipWs_eq_nil.mp hnil,rfl⟩
  next s hs =>
    obtain ⟨s₁,hs₁,h⟩ := Option.bind_eq_some_iff.mp h
    obtain ⟨⟨w,r⟩,hlit,h⟩ := Option.bind_eq_some_iff.mp h
    obtain ⟨g₃,l,hl,hstops,rfl⟩ := parseHexU64_sound hlit
    obtain ⟨-,hl⟩ := gap_inj (g := ⟨[],by simp⟩) (ends_skipWs s₁) (ends_before l r) hl
    obtain ⟨g₁,hg₁⟩ := exists_gap s
    obtain ⟨g₂,hg₂⟩ := exists_gap s₁
    split at h
    · cases h
    next hword =>
      cases h
      refine ⟨some ⟨g,g₁,g₂,l⟩,r,?_,⟨hstops,(isWord_iff l).mpr hword⟩,rfl⟩
      rw [expectBefore, ← hl, ← hg₂, ← after_eq_some hs₁, ← hg₁, ← hs]
      exact hg
  next => cases h

theorem expect_inj {e e' : Option Expect} {r r' : Text} (he : ExpectStops e r) (he' : ExpectStops e' r')
    (h : expectBefore e r = expectBefore e' r') : e = e' ∧ r = r' := by
  cases e with
  | none =>
    cases e' with
    | none => exact ⟨rfl,h⟩
    | some e' =>
      have hnil := skipWs_eq_nil.mpr he
      rw [show r = _ from h, skipWs_expectBefore] at hnil
      cases hnil
  | some e =>
    cases e' with
    | none =>
      have hnil := skipWs_eq_nil.mpr he'
      rw [← show _ = r' from h, skipWs_expectBefore] at hnil
      cases hnil
    | some e' =>
      obtain ⟨g,g₁,g₂,l⟩ := e
      obtain ⟨g',g₁',g₂',l'⟩ := e'
      obtain ⟨rfl,h⟩ := gap_inj (g := g) (ends_cons.mpr (by decide)) (ends_cons.mpr (by decide)) h
      obtain ⟨rfl,h⟩ := keyword_inj (g := g₁) (k := "expect ".toList) (by decide) (List.cons.inj h).2
      obtain ⟨rfl,h⟩ := gap_inj (ends_before _ _) (ends_before _ _) h
      obtain ⟨rfl,hr⟩ := lit_inj he.1 he'.1 h
      exact ⟨rfl,hr⟩

end Machismo.Patcher
