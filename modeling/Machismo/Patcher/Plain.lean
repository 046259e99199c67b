import Machismo.Patcher.Lines

/-! # Documented trees

A tree that the scanner takes in is documented if it has no part that is not. A documented tree is taken in
if its instruction is not mistaken for something else.
-/
namespace Machismo.Patcher
open Munch

/-- The location has nothing that is not documented. -/
def LocTree.Plain : LocTree → Prop
  | .sym _ offset find => (∀ o ∈ offset, o.lit.Proper) ∧ ∀ f ∈ find, offset = none ∧ ∀ w ∈ f.within, w.lit.Proper
  | .label _ offset => ∀ o ∈ offset, o.lit.Proper
  | .abs addr => addr.Proper

def InsnTree.Plain : InsnTree → Prop
  | .nop => True
  | .ret => True
  | .raw insn => insn.Proper
  | .branch _ _ target => target.Plain

/-- The line has nothing that is not documented. -/
def LineTree.Plain : LineTree → Prop
  | .legacy addr gap insn rest => addr.Proper ∧ insn.Proper ∧ Separates gap ∧ ∀ c ∈ rest, isWs c
  | .letLine _ name _ _ loc rest => name.1 ≠ [] ∧ loc.Plain ∧ ∀ c ∈ rest, isWs c
  | .atLine _ loc gap₁ insn expect rest =>
    loc.Plain ∧ gap₁.1 ≠ [] ∧ insn.Plain ∧ (∀ e ∈ expect, e.lit.Proper) ∧ ∀ c ∈ rest, isWs c

theorem gap_ne_nil {g : Gap} {c : Char} {r : Text} (h : isTerminated (g.1 ++ c :: r))
    (hc : isSpace c = false ∧ c ≠ ';' ∧ c ≠ '#') : g.1 ≠ [] := by
  intro hg
  rw [hg, List.nil_append] at h
  have hend : isSpace c ∨ c = ';' ∨ c = '#' := of_decide_eq_true h
  simp_all

theorem isPatternChar_facts {c : Char} (h : isHexDigit c ∨ c = '?') : isSpace c = false ∧ c ≠ ';' ∧ c ≠ '#' := by
  rcases h with h | rfl
  · refine ⟨isSpace_eq_false_of_isHexDigit h,?_,?_⟩ <;> rintro rfl <;> exact absurd h (by decide)
  · decide

theorem exists_patternWord (w : PatternWord) : ∃ c d, w.1 = c :: d ∧ (isHexDigit c ∨ c = '?') := by
  obtain ⟨c,d,h⟩ := List.exists_cons_of_length_pos (show 0 < w.1.length by rw [w.2.1]; decide)
  exact ⟨c,d,h,w.2.2 c (h ▸ List.mem_cons_self)⟩

theorem apart_of_patternsStop {ps : List (Gap × PatternWord)} {r : Text} (h : PatternsStop ps r) :
    ∀ q ∈ ps.tail, q.1.1 ≠ [] := by
  induction ps with
  | nil => exact fun q hq => by cases hq
  | cons p ps ih =>
    cases ps with
    | nil => exact fun q hq => by cases hq
    | cons q ps =>
      obtain ⟨c,d,hw,hc⟩ := exists_patternWord q.2
      have hterm : isTerminated (q.1.1 ++ c :: (d ++ patternsBefore ps r)) := by
        have hterm := h.1
        rwa [patternsBefore, hw] at hterm
      exact List.forall_mem_cons.mpr ⟨gap_ne_nil hterm (isPatternChar_facts hc),ih h.2⟩

theorem within_apart {ps : List (Gap × PatternWord)} {w : Within} {r : Text} (hne : ps ≠ [])
    (h : PatternsStop ps (withinBefore (some w) r)) : w.gap.1 ≠ [] := by
  induction ps with
  | nil => exact absurd rfl hne
  | cons p ps ih =>
    cases ps with
    | nil => exact gap_ne_nil (c := 'w') h.1 (by decide)
    | cons q ps => exact ih (List.cons_ne_nil _ _) h.2

theorem loc_proper_of_plain {t : LocTree} {r : Text} (h : t.Stops r) (hplain : t.Plain) : t.Proper := by
  cases t with
  | sym name offset find =>
    refine ⟨hplain.1,fun f hf => ?_⟩
    obtain ⟨rfl,hwithin⟩ := hplain.2 f hf
    cases hf
    obtain ⟨hname,-,hne,hstop,-⟩ := h
    refine ⟨rfl,?_,hne,apart_of_patternsStop hstop,fun w hw => ?_⟩
    · intro hgap
      have hf : isSymChar 'f' = false := by
        rw [offsetBefore, findBefore, hgap] at hname
        exact ends_cons.mp hname
      exact absurd hf (by decide)
    · obtain ⟨g,ps,within⟩ := f
      cases hw
      exact ⟨within_apart hne hstop,hwithin w rfl⟩
  | label name offset =>
    refine ⟨h.1,h.2.1,fun o ho => ⟨?_,hplain o ho⟩⟩
    cases ho
    cases hneg : o.neg with
    | false => rfl
    | true =>
      have hsign : isPlus o.sign := h.2.2.2.1
      rw [Offset.sign, hneg] at hsign
      exact absurd hsign (by decide)
  | abs addr => exact hplain

theorem insn_proper_of_plain {t : InsnTree} {r : Text} (h : t.Stops r) (hplain : t.Plain) : t.Proper := by
  cases t with
  | nop => trivial
  | ret => trivial
  | raw insn => exact ⟨hplain,h.2.1⟩
  | branch link gap target => exact loc_proper_of_plain h hplain

theorem proper_of_plain {t : LineTree} (h : t.Reads) (hplain : t.Plain) : t.Proper := by
  cases t with
  | legacy addr gap insn rest => exact ⟨hplain.1,hplain.2.2.1,hplain.2.1,h.2.2.2,hplain.2.2.2⟩
  | letLine gap name gap₁ gap₂ loc rest => exact ⟨hplain.1,loc_proper_of_plain h.2 hplain.2.1,hplain.2.2⟩
  | atLine gap loc gap₁ insn expect rest =>
    obtain ⟨hloc,hgap,hinsn,hexpect,hrest⟩ := hplain
    refine ⟨loc_proper_of_plain h.1 hloc,hgap,insn_proper_of_plain h.2.1 hinsn,fun e he => ⟨hexpect e he,?_⟩,hrest⟩
    cases he
    exact h.2.2.2

theorem loc_plain_of_proper {t : LocTree} (h : t.Proper) : t.Plain := by
  cases t with
  | sym name offset find => exact ⟨h.1,fun f hf => ⟨(h.2 f hf).1,fun w hw => ((h.2 f hf).2.within w hw).2⟩⟩
  | label name offset => exact fun o ho => (h.2.2 o ho).2
  | abs addr => exact h

theorem plain_of_proper {t : LineTree} (h : t.Proper) : t.Plain := by
  cases t with
  | legacy addr gap insn rest => exact ⟨h.1,h.2.2.1,h.2.1,h.2.2.2.2⟩
  | letLine gap name gap₁ gap₂ loc rest => exact ⟨h.1,loc_plain_of_proper h.2.1,h.2.2⟩
  | atLine gap loc gap₁ insn expect rest =>
    refine ⟨loc_plain_of_proper h.1,h.2.1,?_,fun e he => (h.2.2.2.1 e he).1,h.2.2.2.2⟩
    cases insn with
    | nop => trivial
    | ret => trivial
    | raw insn => exact h.2.2.1.1
    | branch link gap target => exact loc_plain_of_proper h.2.2.1

def boundaryChars : Text := [' ','\t','\n','\r',';']

/-- The text starts with a blank or a semicolon, or is empty. -/
def AtBoundary (r : Text) : Prop := ∀ c ∈ r.head?, c ∈ boundaryChars

theorem mem_of_isWs {c : Char} (h : isWs c) : c ∈ boundaryChars :=
  List.mem_append_left [';'] (of_decide_eq_true h)

theorem atBoundary_blank {r : Text} (h : ∀ c ∈ r, isWs c) : AtBoundary r :=
  fun c hc => mem_of_isWs (h c (List.mem_of_mem_head? hc))

theorem atBoundary_gap {g : Gap} (hg : g.1 ≠ []) (r : Text) : AtBoundary (g.1 ++ r) := by
  obtain ⟨c,w,h⟩ := List.exists_cons_of_ne_nil hg
  rw [h]
  intro c' hc
  cases hc
  exact mem_of_isWs (g.2 c (h ▸ List.mem_cons_self))

theorem atBoundary_expect (e : Option Expect) {r : Text} (h : ∀ c ∈ r, isWs c) : AtBoundary (expectBefore e r) := by
  cases e with
  | none => exact atBoundary_blank h
  | some e =>
    by_cases hg : e.gap.1 = []
    · rw [expectBefore, hg]
      intro c hc
      cases hc
      decide
    · exact atBoundary_gap hg _

theorem AtBoundary.ends {r : Text} (h : AtBoundary r) {ok : Char → Bool}
    (hok : boundaryChars.all fun c => !ok c) : Ends ok r := by
  intro c hc
  simpa using List.all_eq_true.mp hok c (h c hc)

theorem AtBoundary.isTerminated {r : Text} (h : AtBoundary r) : isTerminated r := by
  cases r with
  | nil => rfl
  | cons c r =>
    have hchars : boundaryChars.all fun c => isSpace c ∨ c = ';' ∨ c = '#' := by decide
    exact List.all_eq_true.mp hchars c (h c rfl)

theorem AtBoundary.isEnd {r : Text} (h : AtBoundary r) : r.head?.all fun c => isSpace c ∨ c = ';' := by
  cases r with
  | nil => rfl
  | cons c r =>
    have hchars : boundaryChars.all fun c => isSpace c ∨ c = ';' := by decide
    exact List.all_eq_true.mp hchars c (h c rfl)

theorem not_has0x_digits (l : Lit) {r : Text} (hr : Ends isX r) : ¬has0x (l.digits ++ r) := by
  intro h
  obtain ⟨x,q,hq,hx⟩ := has0x_iff.mp h
  have hdigits := l.isHexDigit_digits
  rcases hd : l.digits with _ | ⟨a,_ | ⟨b,ds⟩⟩
  · exact l.digits_ne hd
  · rw [hd] at hq
    obtain ⟨-,rfl⟩ := List.cons.inj hq
    exact absurd hx (by simp [ends_cons.mp hr])
  · rw [hd] at hq hdigits
    obtain ⟨rfl,-⟩ := List.cons.inj (List.cons.inj hq).2
    exact absurd hx (by simp [isX_eq_false_of_isHexDigit (hdigits b (by simp))])

theorem lit_stops {l : Lit} {r : Text} (h : AtBoundary r) : l.Stops r := by
  have hends : Ends isX r := h.ends (by decide)
  have hx := not_has0x_digits l hends
  exact ⟨h.ends (by decide),fun _ => hx,fun _ hmark => hx hmark.1⟩

/-- A literal before a boundary does not look like a keyword whose second letter it cannot have. -/
theorem not_isPrefix_lit {l : Lit} {r : Text} (hr : AtBoundary r) {c d : Char} {k : Text}
    (hd : isHexDigit d = false ∧ isX d = false ∧ d ∉ boundaryChars) : ¬c :: d :: k <+: l.before r := by
  rintro ⟨t,ht⟩
  have hdigits := l.isHexDigit_digits
  obtain hm | ⟨x,hm,hx⟩ | ⟨x,y,hm,hx,-⟩ := marks_cases l
  · rw [before_nil hm] at ht
    rcases hds : l.digits with _ | ⟨a,_ | ⟨b,ds⟩⟩
    · exact l.digits_ne hds
    · rw [hds] at ht
      obtain ⟨-,hrest⟩ := List.cons.inj ht
      refine hd.2.2 (hr d ?_)
      rw [← show _ = r from hrest]
      rfl
    · rw [hds] at ht hdigits
      obtain ⟨rfl,-⟩ := List.cons.inj (List.cons.inj ht).2
      exact absurd (hdigits d (by simp)) (by simp [hd.1])
  · rw [before_one hm] at ht
    obtain ⟨rfl,-⟩ := List.cons.inj (List.cons.inj ht).2
    exact absurd hx (by simp [hd.2.1])
  · rw [before_two hm] at ht
    obtain ⟨rfl,-⟩ := List.cons.inj (List.cons.inj ht).2
    exact absurd hx (by simp [hd.2.1])

/-- A search without a bound. -/
def LocTree.Open : LocTree → Prop
  | .sym _ _ (some f) => f.within = none
  | _ => False

/-- An address has a prefix. -/
def LocTree.Prefixed : LocTree → Prop
  | .abs addr => addr.marks ≠ []
  | _ => True

def InsnTree.Prefixed : InsnTree → Prop
  | .branch _ _ target => target.Prefixed
  | _ => True

def LineTree.Prefixed : LineTree → Prop
  | .legacy _ _ _ _ => True
  | .letLine _ _ _ _ loc _ => loc.Prefixed
  | .atLine _ loc _ insn _ _ => loc.Prefixed ∧ insn.Prefixed

def InsnTree.StartsHex : InsnTree → Prop
  | .nop => False
  | .ret => False
  | .raw _ => True
  | .branch _ _ _ => True

/-- The instruction is not taken for a pattern, nor a word `b` for a branch. -/
def LineTree.Clear : LineTree → Prop
  | .atLine _ loc _ insn expect rest => (loc.Open → ¬insn.StartsHex) ∧
    ∀ l, insn = .raw l → ¬"b ".toList <+: l.before (expectBefore expect rest)
  | _ => True

theorem patternsStop_of_apart {ps : List (Gap × PatternWord)} {r : Text} (h : ∀ q ∈ ps.tail, q.1.1 ≠ [])
    (hr : AtBoundary r) (hlast : ¬startsPattern (skipWs r)) : PatternsStop ps r := by
  induction ps with
  | nil => exact hlast
  | cons p ps ih =>
    have hnext : AtBoundary (patternsBefore ps r) := by
      cases ps with
      | nil => exact hr
      | cons q ps => exact atBoundary_gap (h q List.mem_cons_self) _
    exact ⟨hnext.isTerminated,ih fun q hq => h q (List.mem_of_mem_tail hq)⟩

theorem offset_stops {offset : Option Offset} {isSign : Char → Bool} {r : Text} (hr : AtBoundary r)
    (hchars : boundaryChars.all fun c => !isSign c) (hsign : ∀ o ∈ offset, isSign o.sign) :
    OffsetStops isSign offset r := by
  cases offset with
  | none => exact hr.ends hchars
  | some o => exact ⟨hsign o rfl,lit_stops hr⟩

theorem isSign_sign (o : Offset) : isSign o.sign := by
  unfold Offset.sign
  cases o.neg <;> decide

theorem offset_ends {offset : Option Offset} {ok : Char → Bool} {r : Text} (hr : AtBoundary r)
    (hchars : boundaryChars.all fun c => !ok c) (hsign : ∀ o ∈ offset, ok o.sign = false) :
    Ends ok (offsetBefore offset r) := by
  cases offset with
  | none => exact hr.ends hchars
  | some o => exact ends_cons.mpr (hsign o rfl)

theorem find_stops {f : Find} {r : Text} (h : f.Proper) (hr : AtBoundary r)
    (hopen : f.within = none → ¬startsPattern (skipWs r) ∧ ¬"within ".toList <+: skipWs r) :
    FindStops (some f) r := by
  obtain ⟨g,ps,within⟩ := f
  cases within with
  | none =>
    obtain ⟨hstarts,hwithin⟩ := hopen rfl
    exact ⟨h.patterns,patternsStop_of_apart h.apart hr hstarts,hwithin⟩
  | some w =>
    refine ⟨h.patterns,patternsStop_of_apart h.apart (atBoundary_gap (h.within w rfl).1 _) ?_,lit_stops hr⟩
    rw [withinBefore, skipWs_keyword (by decide)]
    exact Bool.false_ne_true

/-- A documented location is taken in before a boundary, if what follows is not taken for a part of it. -/
theorem loc_stops {t : LocTree} {r : Text} (h : t.Proper) (hpre : t.Prefixed) (hr : AtBoundary r)
    (hfind : ¬"find ".toList <+: skipWs r)
    (hopen : t.Open → ¬startsPattern (skipWs r) ∧ ¬"within ".toList <+: skipWs r) : t.Stops r := by
  cases t with
  | sym name offset find =>
    have hnext : AtBoundary (findBefore find r) := by
      cases find with
      | none => exact hr
      | some f => exact atBoundary_gap (h.2 f rfl).2.gap _
    have hname : ∀ o ∈ offset, isSymChar o.sign = false := by
      intro o _
      unfold Offset.sign
      cases o.neg <;> decide
    refine ⟨offset_ends hnext (by decide) hname,offset_stops hnext (by decide) fun o _ => isSign_sign o,?_⟩
    cases find with
    | none => exact hfind
    | some f => exact find_stops (h.2 f rfl).2 hr hopen
  | label name offset =>
    have hplus : ∀ o ∈ offset, o.sign = '+' := by
      intro o ho
      rw [Offset.sign, (h.2.2 o ho).1]
      rfl
    exact ⟨h.1,h.2.1,offset_ends hr (by decide) fun o ho => by rw [hplus o ho]; decide,
      offset_stops hr (by decide) fun o ho => by rw [hplus o ho]; decide⟩
  | abs addr => exact ⟨hpre,lit_stops hr⟩

/-- The text goes on with something other than an expected word. -/
def Solid (p : Text) : Prop := ∃ c q, skipWs p = c :: q ∧ c ≠ ';'

theorem not_solid_expect {e : Option Expect} {r : Text} (h : ∀ c ∈ r, isWs c) : ¬Solid (expectBefore e r) := by
  rintro ⟨c,q,hskip,hc⟩
  cases e with
  | none =>
    rw [expectBefore, skipWs_eq_nil.mpr h] at hskip
    cases hskip
  | some e =>
    rw [skipWs_expectBefore] at hskip
    exact hc (List.cons.inj hskip).1.symm

theorem not_isPrefix_of_not_solid {p k : Text} {c : Char} (h : ¬Solid p) (hc : c ≠ ';') : ¬c :: k <+: skipWs p := by
  rintro ⟨t,ht⟩
  exact h ⟨c,k ++ t,ht.symm,hc⟩

theorem not_startsPattern_of_not_solid {p : Text} (h : ¬Solid p) : ¬startsPattern (skipWs p) := by
  intro hstarts
  cases hskip : skipWs p with
  | nil =>
    rw [hskip] at hstarts
    cases hstarts
  | cons c q =>
    rw [hskip] at hstarts
    exact h ⟨c,q,hskip,(isPatternChar_facts (of_decide_eq_true hstarts)).2.1⟩

theorem loc_stops_expect {t : LocTree} {e : Option Expect} {r : Text} (h : t.Proper) (hpre : t.Prefixed)
    (hr : ∀ c ∈ r, isWs c) : t.Stops (expectBefore e r) := by
  have hsolid := not_solid_expect (e := e) hr
  exact loc_stops h hpre (atBoundary_expect e hr) (not_isPrefix_of_not_solid hsolid (by decide)) fun _ =>
    ⟨not_startsPattern_of_not_solid hsolid,not_isPrefix_of_not_solid hsolid (by decide)⟩

theorem insn_stops {t : InsnTree} {e : Option Expect} {r : Text} (h : t.Proper) (hpre : t.Prefixed)
    (hb : ∀ l, t = .raw l → ¬"b ".toList <+: l.before (expectBefore e r)) (hr : ∀ c ∈ r, isWs c) :
    t.Stops (expectBefore e r) := by
  have hbound := atBoundary_expect e hr
  cases t with
  | nop => exact hbound.isEnd
  | ret => exact hbound.isEnd
  | raw insn =>
    refine ⟨lit_stops hbound,h.2,fun link => ?_⟩
    cases link with
    | true => exact not_isPrefix_lit hbound (by decide)
    | false => exact hb insn rfl
  | branch link gap target => exact loc_stops_expect h hpre hr

theorem loc_stops_insn {t : LocTree} {gap : Gap} {insn : InsnTree} {e : Option Expect} {r : Text} (h : t.Proper)
    (hpre : t.Prefixed) (hgap : gap.1 ≠ []) (hopen : t.Open → ¬insn.StartsHex) (hr : ∀ c ∈ r, isWs c) :
    t.Stops (gap ++ insn.before (expectBefore e r)) := by
  have hskip : skipWs (gap ++ insn.before (expectBefore e r)) = insn.before (expectBefore e r) := by
    rw [skipWs_gap, skipWs_eq_self (ends_insn insn _)]
  have hbound := atBoundary_expect e hr
  refine loc_stops h hpre (atBoundary_gap hgap _) ?_ fun ht => ?_
  · rw [hskip]
    cases insn with
    | nop => exact not_isPrefix_append (by decide) _
    | ret => exact not_isPrefix_append (by decide) _
    | raw insn => exact not_isPrefix_lit hbound (by decide)
    | branch link gap target => exact not_isPrefix_append (by cases link <;> decide) _
  · rw [hskip]
    cases insn with
    | nop => exact ⟨Bool.false_ne_true,not_isPrefix_append (by decide) _⟩
    | ret => exact ⟨Bool.false_ne_true,not_isPrefix_append (by decide) _⟩
    | raw insn => exact absurd trivial (hopen ht)
    | branch link gap target => exact absurd trivial (hopen ht)

theorem reads_of_proper {t : LineTree} (h : t.Proper) (hpre : t.Prefixed) (hclear : t.Clear) : t.Reads := by
  cases t with
  | legacy addr gap insn rest =>
    have hgap : gap.1 ≠ [] := by
      intro hnil
      have hsep := h.2.1
      rw [Separates, hnil] at hsep
      cases hsep
    exact ⟨.inr h.2.1,lit_stops (atBoundary_gap hgap _),lit_stops (atBoundary_blank h.2.2.2.2),h.2.2.2.1⟩
  | letLine gap name gap₁ gap₂ loc rest =>
    exact ⟨fun hnil => absurd hnil h.1,loc_stops_expect (e := none) h.2.1 hpre h.2.2⟩
  | atLine gap loc gap₁ insn expect rest =>
    obtain ⟨hloc,hgap,hinsn,hexpect,hrest⟩ := h
    refine ⟨loc_stops_insn hloc hpre.1 hgap hclear.1 hrest,insn_stops hinsn hpre.2 hclear.2 hrest,?_⟩
    cases expect with
    | none => exact hrest
    | some e => exact ⟨lit_stops (atBoundary_blank hrest),(hexpect e rfl).2⟩

end Machismo.Patcher
