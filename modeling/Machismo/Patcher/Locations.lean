import Machismo.Patcher.Searches

/-! # Locations

The scanner takes in the text of a location and gives its meaning. The tree is determined by its text and
the text that follows.
-/
namespace Machismo.Patcher
open Munch

section Name
variable {ok : Char → Bool}

theorem parseName_complete {n : ℕ} (w : Token ok) {r : Text} (hr : Ends ok r) (hlen : w.1.length < n) :
    parseName ok n (w ++ r) = some (w.1,r) := by
  unfold parseName
  rw [takeWhile_append w.2.2 hr, dropWhile_append w.2.2 hr]
  exact if_pos ⟨hlen,w.2.1⟩

theorem parseName_sound {n : ℕ} {p r : Text} {name : Name} (h : parseName ok n p = some (name,r)) :
    ∃ w : Token ok, p = w ++ r ∧ Ends ok r ∧ w.1.length < n ∧ w.1 = name := by
  unfold parseName at h
  dsimp only at h
  split at h
  next hname =>
    cases h
    exact ⟨⟨_,hname.2,fun _ hc => List.mem_takeWhile_imp hc⟩,List.takeWhile_append_dropWhile.symm,ends_dropWhile p,
      hname.1,rfl⟩
  next => cases h

theorem word_inj {w w' : Token ok} {r r' : Text} (hr : Ends ok r) (hr' : Ends ok r') (h : w.1 ++ r = w'.1 ++ r') :
    w = w' ∧ r = r' := by
  obtain ⟨hw,hr⟩ := append_inj w.2.2 hr w'.2.2 hr' h
  exact ⟨Subtype.ext hw,hr⟩

end Name

def LocTree.Stops : LocTree → Text → Prop
  | .sym _ offset find, r => Ends isSymChar (offsetBefore offset (findBefore find r)) ∧
    OffsetStops isSign offset (findBefore find r) ∧ FindStops find r
  | .label name offset, r => ¬"sym:".toList <+: name.1 ∧ ¬has0x name ∧ Ends isLabelChar (offsetBefore offset r) ∧
    OffsetStops isPlus offset r
  | .abs addr, r => addr.marks ≠ [] ∧ addr.Stops r

/-- Names and searches have room in their buffers. -/
def LocTree.Fits : LocTree → Prop
  | .sym name _ find => name.1.length < 256 ∧ ∀ f ∈ find, f.patterns.length ≤ locMaxPatterns
  | .label name _ => name.1.length < 256
  | .abs _ => True

theorem parseSym_complete {name : Token isSymChar} {offset : Option Offset} {find : Option Find} {r : Text}
    (h : (LocTree.sym name offset find).Stops r) (hfits : (LocTree.sym name offset find).Fits) :
    ∃ q, parseSym (name ++ offsetBefore offset (findBefore find r)) =
      some ((LocTree.sym name offset find).meaning,q) ∧ skipWs q = skipWs r := by
  obtain ⟨hname,hoffset,hfind⟩ := h
  rw [parseSym, parseName_complete name hname hfits.1, Option.bind_some, parseSymOffset_complete hoffset,
    Option.bind_some]
  dsimp only
  cases find with
  | none =>
    rw [findBefore, after_eq_none.mpr hfind]
    exact ⟨r,rfl,rfl⟩
  | some f =>
    rw [findBefore, skipWs_keyword (by decide), after_append]
    exact parseFind_complete _ _ hfind (hfits.2 f rfl)

theorem parseSym_sound {p q : Text} {loc : LocExpr} (h : parseSym p = some (loc,q)) :
    ∃ name offset find r, p = name.1 ++ offsetBefore offset (findBefore find r) ∧
      (LocTree.sym name offset find).Stops r ∧ (LocTree.sym name offset find).Fits ∧
      (LocTree.sym name offset find).meaning = loc ∧ skipWs q = skipWs r := by
  obtain ⟨⟨name,s⟩,hname,h⟩ := Option.bind_eq_some_iff.mp h
  obtain ⟨⟨v,t⟩,hoffset,h⟩ := Option.bind_eq_some_iff.mp h
  obtain ⟨w,rfl,hends,hlen,rfl⟩ := parseName_sound hname
  obtain ⟨o,rfl,ho,rfl⟩ := parseSymOffset_sound hoffset
  dsimp only at h
  split at h
  next save hsave =>
    obtain ⟨ps,within,r,rfl,hne,hlen',hstop,hw,rfl,hr⟩ := parseFind_sound h
    obtain ⟨g,hg⟩ := exists_gap t
    rw [after_eq_some hsave] at hg
    subst hg
    exact ⟨w,o,some ⟨g,ps,within⟩,r,rfl,⟨hends,ho,hne,hstop,hw⟩,⟨hlen,fun f hf => by cases hf; exact hlen'⟩,rfl,hr⟩
  next hsave =>
    cases h
    exact ⟨w,o,none,q,rfl,⟨hends,ho,after_eq_none.mp hsave⟩,⟨hlen,fun f hf => by cases hf⟩,rfl,rfl⟩

theorem parseLabel_complete {name : Token isLabelChar} {offset : Option Offset} {r : Text}
    (h : (LocTree.label name offset).Stops r) (hfits : name.1.length < 256) :
    parseLabel (name ++ offsetBefore offset r) = some ((LocTree.label name offset).meaning,r) := by
  rw [parseLabel, parseName_complete name h.2.2.1 hfits, Option.bind_some, parseLabelOffset_complete h.2.2.2]
  rfl

theorem has0x_append {name : Token isLabelChar} {r : Text} (hr : Ends isLabelChar r) :
    has0x (name ++ r) ↔ has0x name := by
  obtain ⟨w,hne,hw⟩ := name
  constructor
  · intro h
    obtain ⟨x,q,hq,hx⟩ := has0x_iff.mp h
    rcases w with _ | ⟨a,_ | ⟨b,w⟩⟩
    · exact absurd rfl hne
    · obtain ⟨rfl,rfl⟩ := List.cons.inj hq
      have hend := ends_cons.mp hr
      rcases of_decide_eq_true hx with rfl | rfl <;> cases hend
    · obtain ⟨rfl,htail⟩ := List.cons.inj hq
      obtain ⟨rfl,-⟩ := List.cons.inj htail
      exact has0x_iff.mpr ⟨_,_,rfl,hx⟩
  · intro h
    obtain ⟨x,q,rfl,hx⟩ := has0x_iff.mp h
    exact has0x_iff.mpr ⟨x,q ++ r,rfl,hx⟩

theorem isPrefix_label_iff {name : Token isLabelChar} {r : Text} (hr : Ends isLabelChar r) :
    "sym:".toList <+: name.1 ++ r ↔ "sym:".toList <+: name.1 :=
  isPrefix_append_iff (List.all_eq_true.mp (by decide)) hr

theorem ends_label (name : Token isLabelChar) (r : Text) : Ends isWs (name.1 ++ r) := by
  obtain ⟨c,w,h⟩ := List.exists_cons_of_ne_nil name.2.1
  rw [h]
  have hc := of_decide_eq_true (name.2.2 c (h ▸ List.mem_cons_self))
  exact ends_cons.mpr (Bool.eq_false_of_not_eq_true fun hws => hc.1 (isSpace_of_isWs hws))

theorem ends_loc (t : LocTree) (r : Text) : Ends isWs (t.before r) := by
  cases t with
  | sym name offset find => exact ends_keyword (by decide) _
  | label name offset => exact ends_label name _
  | abs addr => exact ends_before addr r

theorem not_isPrefix_before {k : Text} (hk : k.head?.any fun c => !isHexDigit c) (l : Lit) (r : Text) :
    ¬k <+: l.before r := by
  rintro ⟨t,ht⟩
  have hhead := head_before l r
  cases k with
  | nil => cases hk
  | cons c k =>
    rw [← ht] at hhead
    exact absurd (show isHexDigit c from hhead) (by simpa using hk)

theorem parseLocExpr_complete (g : Gap) {t : LocTree} {r : Text} (h : t.Stops r) (hfits : t.Fits) :
    ∃ q, parseLocExpr (g ++ t.before r) = some (t.meaning,q) ∧ skipWs q = skipWs r := by
  unfold parseLocExpr
  rw [skipWs_gap, skipWs_eq_self (ends_loc t r)]
  dsimp only
  cases t with
  | sym name offset find =>
    rw [LocTree.before, after_append]
    exact parseSym_complete h hfits
  | label name offset =>
    refine ⟨r,?_,rfl⟩
    rw [LocTree.before, after_eq_none.mpr ((isPrefix_label_iff h.2.2.1).not.mpr h.1)]
    dsimp only
    rw [if_neg ((has0x_append h.2.2.1).not.mpr h.2.1)]
    exact parseLabel_complete h hfits
  | abs addr =>
    refine ⟨r,?_,rfl⟩
    rw [LocTree.before, after_eq_none.mpr (not_isPrefix_before (by decide) addr r)]
    dsimp only
    have hlit := parseHexU64_complete ⟨[],by simp⟩ h.2
    rw [List.nil_append] at hlit
    rw [if_pos ((has0x_before h.2).mpr h.1), hlit]
    rfl

theorem parseLocExpr_sound {p q : Text} {loc : LocExpr} (h : parseLocExpr p = some (loc,q)) :
    ∃ (g : Gap) (t : LocTree) (r : Text), p = g ++ t.before r ∧ t.Stops r ∧ t.Fits ∧ t.meaning = loc ∧
      skipWs q = skipWs r := by
  obtain ⟨g,hg⟩ := exists_gap p
  unfold parseLocExpr at h
  dsimp only at h
  split at h
  next s hs =>
    obtain ⟨name,offset,find,r,rfl,hstops,hfits,hloc,hr⟩ := parseSym_sound h
    rw [after_eq_some hs] at hg
    exact ⟨g,.sym name offset find,r,hg,hstops,hfits,hloc,hr⟩
  next hs =>
    split at h
    next h0x =>
      obtain ⟨⟨v,r⟩,hlit,h⟩ := Option.map_eq_some_iff.mp h
      cases h
      obtain ⟨g',l,hl,hstops,rfl⟩ := parseHexU64_sound hlit
      obtain ⟨-,hl⟩ := gap_inj (g := ⟨[],by simp⟩) (ends_skipWs p) (ends_before l _) hl
      rw [hl] at hg h0x
      exact ⟨g,.abs l,_,hg,⟨(has0x_before hstops).mp h0x,hstops⟩,trivial,rfl,rfl⟩
    next h0x =>
      obtain ⟨⟨name,s⟩,hname,h⟩ := Option.bind_eq_some_iff.mp h
      obtain ⟨⟨v,r⟩,hoffset,h⟩ := Option.map_eq_some_iff.mp h
      cases h
      obtain ⟨w,hw,hends,hlen,rfl⟩ := parseName_sound hname
      obtain ⟨o,rfl,ho,rfl⟩ := parseLabelOffset_sound hoffset
      have hsym := after_eq_none.mp hs
      rw [hw] at hg hsym h0x
      exact ⟨g,.label w o,_,hg,⟨(isPrefix_label_iff hends).not.mp hsym,(has0x_append hends).not.mp h0x,hends,ho⟩,
        hlen,rfl,rfl⟩

theorem loc_inj {t t' : LocTree} {r r' : Text} (ht : t.Stops r) (ht' : t'.Stops r') (h : t.before r = t'.before r') :
    t = t' ∧ r = r' := by
  cases t with
  | sym name offset find =>
    have hsym : "sym:".toList <+: t'.before r' := by
      rw [← h]
      exact List.prefix_append _ _
    cases t' with
    | sym name' offset' find' =>
      obtain ⟨rfl,hoffset⟩ := word_inj ht.1 ht'.1 (List.append_cancel_left h)
      obtain ⟨rfl,hfind⟩ := offset_inj ht.2.1 ht'.2.1 hoffset
      obtain ⟨rfl,hr⟩ := find_inj ht.2.2 ht'.2.2 hfind
      exact ⟨rfl,hr⟩
    | label name' offset' => exact absurd ((isPrefix_label_iff ht'.2.2.1).mp hsym) ht'.1
    | abs addr' => exact absurd hsym (not_isPrefix_before (by decide) addr' r')
  | label name offset =>
    cases t' with
    | sym name' offset' find' =>
      have hsym : "sym:".toList <+: name.1 ++ offsetBefore offset r := by
        rw [show name.1 ++ offsetBefore offset r = _ from h]
        exact List.prefix_append _ _
      exact absurd ((isPrefix_label_iff ht.2.2.1).mp hsym) ht.1
    | label name' offset' =>
      obtain ⟨rfl,hoffset⟩ := word_inj ht.2.2.1 ht'.2.2.1 h
      obtain ⟨rfl,hr⟩ := offset_inj ht.2.2.2 ht'.2.2.2 hoffset
      exact ⟨rfl,hr⟩
    | abs addr' =>
      have h0x := (has0x_before ht'.2).mpr ht'.1
      rw [← show name.1 ++ offsetBefore offset r = addr'.before r' from h] at h0x
      exact absurd ((has0x_append ht.2.2.1).mp h0x) ht.2.1
  | abs addr =>
    cases t' with
    | sym name' offset' find' =>
      have hsym : "sym:".toList <+: addr.before r := by
        rw [show addr.before r = _ from h]
        exact List.prefix_append _ _
      exact absurd hsym (not_isPrefix_before (by decide) addr r)
    | label name' offset' =>
      have h0x := (has0x_before ht.2).mpr ht.1
      rw [show addr.before r = name'.1 ++ offsetBefore offset' r' from h] at h0x
      exact absurd ((has0x_append ht'.2.2.1).mp h0x) ht'.2.1
    | abs addr' =>
      obtain ⟨rfl,hr⟩ := lit_inj ht.2 ht'.2 h
      exact ⟨rfl,hr⟩

end Machismo.Patcher
