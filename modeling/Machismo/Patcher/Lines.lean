import Machismo.Patcher.Instructions

/-! # Lines

The scanner takes in a line if and only if the line is the text of a tree whose parts end where the scanner
ends them and have room in its buffers, and such a tree is the only one.
-/
namespace Machismo.Patcher
open Munch

/-- The parts of the line end where the scanner ends them. -/
def LineTree.Reads : LineTree → Prop
  | .legacy addr gap insn rest => (addr.marks ≠ [] ∨ Separates gap) ∧ addr.Stops (gap ++ insn.before rest) ∧
    insn.Stops rest ∧ insn.IsWord
  | .letLine _ name gap₁ _ loc rest => (name.1 = [] → gap₁.1 = []) ∧ loc.Stops rest
  | .atLine _ loc gap₁ insn expect rest => loc.Stops (gap₁ ++ insn.before (expectBefore expect rest)) ∧
    insn.Stops (expectBefore expect rest) ∧ ExpectStops expect rest

def LineTree.Fits : LineTree → Prop
  | .legacy _ _ _ _ => True
  | .letLine _ name _ _ loc _ => name.1.length < 128 ∧ loc.Fits
  | .atLine _ loc _ insn _ _ => loc.Fits ∧ insn.Fits

theorem looksLegacy_let (r : Text) : looksLegacy ("let ".toList ++ r) = false := rfl
theorem looksLegacy_at (r : Text) : looksLegacy ("at ".toList ++ r) = false := rfl

theorem looksLegacy_of_isWs {p : Text} (hp : Ends isWs p) :
    looksLegacy p = if has0x p then true
      else p.head?.any isHexDigit && (p.dropWhile isHexDigit).head?.all (· ∈ [' ','\t','\n']) := by
  have hblank : Ends (fun c => decide (c ∈ [' ','\t'])) p := by
    intro c hc
    refine decide_eq_false fun hmem => ?_
    have hws := hp c hc
    rcases List.mem_cons.mp hmem with rfl | hmem
    · cases hws
    · cases List.mem_singleton.mp hmem
      cases hws
  rw [looksLegacy, dropWhile_eq_self hblank]

theorem looksLegacy_before {addr insn : Lit} {gap : Gap} {rest : Text} (hgap : addr.marks ≠ [] ∨ Separates gap)
    (haddr : addr.Stops (gap ++ insn.before rest)) : looksLegacy (addr.before (gap ++ insn.before rest)) := by
  rw [looksLegacy_of_isWs (ends_before _ _)]
  by_cases hmarks : addr.marks = []
  · rw [if_neg ((has0x_before haddr).not.mpr (not_not_intro hmarks)), head_before, Bool.true_and, before_nil hmarks,
      dropWhile_append addr.isHexDigit_digits haddr.digits]
    have hsep := hgap.resolve_left (not_not_intro hmarks)
    obtain ⟨g,hg⟩ := gap
    cases g with
    | nil => cases hsep
    | cons c g => exact hsep
  · rw [if_pos ((has0x_before haddr).mpr hmarks)]

theorem parseLegacy_complete {addr insn : Lit} {gap : Gap} {rest : Text}
    (haddr : addr.Stops (gap ++ insn.before rest)) (hinsn : insn.Stops rest) (hword : insn.IsWord) :
    parseLegacy (addr.before (gap ++ insn.before rest)) = some (.lineAbs addr.value (insn.value.setWidth 32)) := by
  have hlit := parseHexU64_complete ⟨[],by simp⟩ haddr
  rw [List.nil_append] at hlit
  rw [parseLegacy, hlit, Option.bind_some, parseHexU64_complete gap hinsn, Option.bind_some]
  exact if_neg ((isWord_iff insn).mp hword)

theorem parseLegacy_sound {p : Text} {out : PatchLine} (hp : Ends isWs p) (hlegacy : looksLegacy p)
    (h : parseLegacy p = some out) : ∃ t : LineTree, t.text = p ∧ t.Reads ∧ t.Fits ∧ t.meaning = out := by
  obtain ⟨⟨a,s⟩,ha,hline⟩ := Option.bind_eq_some_iff.mp h
  obtain ⟨⟨i,r⟩,hi,hout⟩ := Option.bind_eq_some_iff.mp hline
  obtain ⟨g₀,addr,haddr,hstops,rfl⟩ := parseHexU64_sound ha
  obtain ⟨g,insn,rfl,hinsn,rfl⟩ := parseHexU64_sound hi
  obtain ⟨-,rfl⟩ := gap_inj (g := ⟨[],by simp⟩) hp (ends_before addr _) haddr
  split at hout
  · cases hout
  next hword =>
    cases hout
    refine ⟨.legacy addr g insn r,rfl,⟨?_,hstops,hinsn,(isWord_iff insn).mpr hword⟩,trivial,rfl⟩
    refine or_iff_not_imp_left.mpr fun hmarks => ?_
    have hnone := not_not.mp hmarks
    rw [looksLegacy_of_isWs hp, if_neg ((has0x_before hstops).not.mpr hmarks), head_before, Bool.true_and,
      before_nil hnone, dropWhile_append addr.isHexDigit_digits hstops.digits] at hlegacy
    obtain ⟨g,hg⟩ := g
    cases g with
    | nil =>
      -- Without a blank the digits would go on.
      have hhead := head_before insn r
      have hends : Ends isHexDigit (insn.before r) := hstops.digits
      cases hb : insn.before r with
      | nil =>
        rw [hb] at hhead
        cases hhead
      | cons c s =>
        rw [hb] at hhead hends
        exact absurd (show isHexDigit c from hhead) (by simp [ends_cons.mp hends])
    | cons c g => exact hlegacy

theorem ends_isLetChar (g : Gap) (r : Text) : Ends isLetChar (g.1 ++ '=' :: r) := by
  obtain ⟨g,hg⟩ := g
  cases g with
  | nil => exact ends_cons.mpr (by decide)
  | cons c g =>
    have hc := isSpace_of_isWs (hg c List.mem_cons_self)
    exact ends_cons.mpr (decide_eq_false fun hlet => hlet.1 hc)

theorem ends_letName {name : {w : Text // ∀ c ∈ w, isLetChar c}} {g : Gap} (h : name.1 = [] → g.1 = []) (r : Text) :
    Ends isWs (name.1 ++ (g.1 ++ '=' :: r)) := by
  obtain ⟨w,hw⟩ := name
  cases w with
  | nil =>
    rw [h rfl]
    exact ends_cons.mpr (by decide)
  | cons c w =>
    have hc := of_decide_eq_true (hw c List.mem_cons_self)
    exact ends_cons.mpr (Bool.eq_false_of_not_eq_true fun hws => hc.1 (isSpace_of_isWs hws))

theorem parseLet_complete {gap : Gap} {name : {w : Text // ∀ c ∈ w, isLetChar c}} {gap₁ gap₂ : Gap} {loc : LocTree}
    {rest : Text} (hname : name.1 = [] → gap₁.1 = []) (hloc : loc.Stops rest) (hlen : name.1.length < 128)
    (hfits : loc.Fits) :
    parseLet (gap ++ (name ++ (gap₁ ++ ('=' :: (gap₂ ++ loc.before rest))))) = some (.lineLet name loc.meaning) := by
  obtain ⟨q,hq,-⟩ := parseLocExpr_complete ⟨[],by simp⟩ hloc hfits
  rw [List.nil_append] at hq
  unfold parseLet
  rw [skipWs_gap, skipWs_eq_self (ends_letName hname _)]
  dsimp only
  rw [takeWhile_append name.2 (ends_isLetChar _ _), dropWhile_append name.2 (ends_isLetChar _ _), if_pos hlen,
    skipWs_gap, skipWs_eq_self (ends_cons.mpr (by decide))]
  change ((after ['='] (['='] ++ (gap₂.1 ++ loc.before rest))).bind _) = _
  rw [after_append, Option.bind_some, skipWs_gap, skipWs_eq_self (ends_loc loc rest), hq]
  rfl

theorem parseLet_sound {p : Text} {out : PatchLine} (h : parseLet p = some out) :
    ∃ t : LineTree, t.text = "let ".toList ++ p ∧ t.Reads ∧ t.Fits ∧ t.meaning = out := by
  obtain ⟨g,hg⟩ := exists_gap p
  unfold parseLet at h
  dsimp only at h
  split at h
  next hlen =>
    obtain ⟨s,hs,h⟩ := Option.bind_eq_some_iff.mp h
    obtain ⟨⟨loc,q⟩,hloc,h⟩ := Option.map_eq_some_iff.mp h
    cases h
    obtain ⟨g₂,hg₂⟩ := exists_gap s
    obtain ⟨g₃,t,r,ht,hstops,hfits,rfl,-⟩ := parseLocExpr_sound hloc
    obtain ⟨-,ht⟩ := gap_inj (g := ⟨[],by simp⟩) (ends_skipWs s) (ends_loc t r) ht
    obtain ⟨g₁,hg₁⟩ := exists_gap ((skipWs p).dropWhile isLetChar)
    have hname : ∀ c ∈ (skipWs p).takeWhile isLetChar, isLetChar c := fun _ hc => List.mem_takeWhile_imp hc
    refine ⟨.letLine g ⟨_,hname⟩ g₁ g₂ t r,?_,⟨fun hnil => ?_,hstops⟩,⟨hlen,hfits⟩,rfl⟩
    · rw [LineTree.text, ← ht, ← hg₂]
      change _ ++ (_ ++ (_ ++ (_ ++ (['='] ++ s)))) = _
      rw [← after_eq_some hs, ← hg₁, List.takeWhile_append_dropWhile, ← hg]
    · have hdrop : (skipWs p).dropWhile isLetChar = skipWs p := by
        conv_rhs => rw [← List.takeWhile_append_dropWhile (p := isLetChar) (l := skipWs p)]
        rw [show (skipWs p).takeWhile isLetChar = [] from hnil, List.nil_append]
      rw [hdrop] at hg₁
      obtain ⟨hnil,-⟩ := gap_inj (g := ⟨[],by simp⟩) (ends_skipWs p) (ends_skipWs _) hg₁
      rw [← hnil]
  next => cases h

theorem parseAt_complete {gap : Gap} {loc : LocTree} {gap₁ : Gap} {insn : InsnTree} {expect : Option Expect}
    {rest : Text} (hloc : loc.Stops (gap₁ ++ insn.before (expectBefore expect rest)))
    (hinsn : insn.Stops (expectBefore expect rest)) (hexpect : ExpectStops expect rest) (hfits : loc.Fits)
    (hfits' : insn.Fits) : parseAt (gap ++ loc.before (gap₁ ++ insn.before (expectBefore expect rest))) =
      some (.lineAt loc.meaning insn.meaning (expectedWord expect)) := by
  obtain ⟨q,hq,hr⟩ := parseLocExpr_complete ⟨[],by simp⟩ hloc hfits
  obtain ⟨q',hq',hr'⟩ := parseInsnExpr_complete gap₁ hinsn hfits'
  rw [List.nil_append] at hq
  rw [parseAt, skipWs_gap, skipWs_eq_self (ends_loc loc _), hq, Option.bind_some, parseInsnExpr_congr hr, hq',
    Option.bind_some, parseExpect_complete hexpect hr']
  rfl

theorem parseAt_sound {p : Text} {out : PatchLine} (h : parseAt p = some out) :
    ∃ t : LineTree, t.text = "at ".toList ++ p ∧ t.Reads ∧ t.Fits ∧ t.meaning = out := by
  obtain ⟨g,hg⟩ := exists_gap p
  obtain ⟨⟨loc,q⟩,hloc,h⟩ := Option.bind_eq_some_iff.mp h
  obtain ⟨⟨insn,q'⟩,hinsn,h⟩ := Option.bind_eq_some_iff.mp h
  obtain ⟨expected,hexpect,h⟩ := Option.map_eq_some_iff.mp h
  cases h
  obtain ⟨g₀,t,r,ht,hstops,hfits,rfl,hr⟩ := parseLocExpr_sound hloc
  obtain ⟨-,ht⟩ := gap_inj (g := ⟨[],by simp⟩) (ends_skipWs p) (ends_loc t r) ht
  rw [parseInsnExpr_congr hr] at hinsn
  obtain ⟨g₁,t',r',rfl,hstops',hfits',rfl,hr'⟩ := parseInsnExpr_sound hinsn
  obtain ⟨e,r'',rfl,he,rfl⟩ := parseExpect_sound hr' hexpect
  refine ⟨.atLine g t g₁ t' e r'',?_,⟨hstops,hstops',he⟩,⟨hfits,hfits'⟩,rfl⟩
  rw [LineTree.text, ← ht, ← hg]

theorem parseDirective_complete {t : LineTree} (h : t.Reads) (hfits : t.Fits) :
    parseDirective t.text = some t.meaning := by
  unfold parseDirective
  cases t with
  | legacy addr gap insn rest =>
    obtain ⟨hgap,haddr,hinsn,hword⟩ := h
    rw [LineTree.text, if_pos (looksLegacy_before hgap haddr), parseLegacy_complete haddr hinsn hword]
    rfl
  | letLine gap name gap₁ gap₂ loc rest =>
    rw [LineTree.text, looksLegacy_let, after_append]
    exact parseLet_complete h.1 h.2 hfits.1 hfits.2
  | atLine gap loc gap₁ insn expect rest =>
    obtain ⟨hloc,hinsn,hexpect⟩ := h
    rw [LineTree.text, looksLegacy_at, after_eq_none.mpr (not_isPrefix_append (by decide) _), after_append]
    exact parseAt_complete hloc hinsn hexpect hfits.1 hfits.2

theorem parseDirective_sound {p : Text} {out : PatchLine} (hp : Ends isWs p) (h : parseDirective p = some out) :
    ∃ t : LineTree, t.text = p ∧ t.Reads ∧ t.Fits ∧ t.meaning = out := by
  unfold parseDirective at h
  split at h
  next hlegacy => exact parseLegacy_sound hp hlegacy h
  next =>
    split at h
    next s hs =>
      rw [after_eq_some hs]
      exact parseLet_sound h
    next =>
      split at h
      next s hs =>
        rw [after_eq_some hs]
        exact parseAt_sound h
      next => cases h

theorem line_inj {t t' : LineTree} (ht : t.Reads) (ht' : t'.Reads) (h : t.text = t'.text) : t = t' := by
  cases t with
  | legacy addr gap insn rest =>
    have hlegacy := looksLegacy_before ht.1 ht.2.1
    cases t' with
    | legacy addr' gap' insn' rest' =>
      obtain ⟨rfl,hgap⟩ := lit_inj ht.2.1 ht'.2.1 h
      obtain ⟨rfl,hinsn⟩ := gap_inj (ends_before _ _) (ends_before _ _) hgap
      obtain ⟨rfl,rfl⟩ := lit_inj ht.2.2.1 ht'.2.2.1 hinsn
      rfl
    | letLine gap' name' gap₁' gap₂' loc' rest' =>
      rw [show addr.before _ = _ from h, LineTree.text, looksLegacy_let] at hlegacy
      cases hlegacy
    | atLine gap' loc' gap₁' insn' expect' rest' =>
      rw [show addr.before _ = _ from h, LineTree.text, looksLegacy_at] at hlegacy
      cases hlegacy
  | letLine gap name gap₁ gap₂ loc rest =>
    cases t' with
    | legacy addr' gap' insn' rest' =>
      have hlegacy := looksLegacy_before ht'.1 ht'.2.1
      rw [← show _ = addr'.before _ from h, LineTree.text, looksLegacy_let] at hlegacy
      cases hlegacy
    | letLine gap' name' gap₁' gap₂' loc' rest' =>
      obtain ⟨rfl,hname⟩ := gap_inj (ends_letName ht.1 _) (ends_letName ht'.1 _) (List.append_cancel_left h)
      obtain ⟨hname,hgap⟩ := append_inj name.2 (ends_isLetChar _ _) name'.2 (ends_isLetChar _ _) hname
      obtain rfl : name = name' := Subtype.ext hname
      obtain ⟨rfl,heq⟩ := gap_inj (ends_cons.mpr (by decide)) (ends_cons.mpr (by decide)) hgap
      obtain ⟨rfl,hloc⟩ := gap_inj (ends_loc loc rest) (ends_loc loc' rest') (List.cons.inj heq).2
      obtain ⟨rfl,rfl⟩ := loc_inj ht.2 ht'.2 hloc
      rfl
    | atLine gap' loc' gap₁' insn' expect' rest' => exact absurd h (append_ne_append (by decide))
  | atLine gap loc gap₁ insn expect rest =>
    cases t' with
    | legacy addr' gap' insn' rest' =>
      have hlegacy := looksLegacy_before ht'.1 ht'.2.1
      rw [← show _ = addr'.before _ from h, LineTree.text, looksLegacy_at] at hlegacy
      cases hlegacy
    | letLine gap' name' gap₁' gap₂' loc' rest' => exact absurd h (append_ne_append (by decide))
    | atLine gap' loc' gap₁' insn' expect' rest' =>
      obtain ⟨rfl,hloc⟩ := gap_inj (ends_loc loc _) (ends_loc loc' _) (List.append_cancel_left h)
      obtain ⟨rfl,hgap⟩ := loc_inj ht.1 ht'.1 hloc
      obtain ⟨rfl,hinsn⟩ := gap_inj (ends_insn insn _) (ends_insn insn' _) hgap
      obtain ⟨rfl,hexpect⟩ := insn_inj ht.2.1 ht'.2.1 hinsn
      obtain ⟨rfl,rfl⟩ := expect_inj ht.2.2 ht'.2.2 hexpect
      rfl

end Machismo.Patcher
