import Machismo.Patcher.Plain

/-! # Instructions that are mistaken

After a search without a bound, an instruction that starts with a digit is taken for a pattern. A word `b`
with a space after it is taken for a branch. The scanner then finds no instruction, or no target.
-/
namespace Machismo.Patcher
open Munch

theorem solid_cons {c : Char} {q : Text} (hws : isWs c = false) (hc : c ≠ ';') : Solid (c :: q) :=
  ⟨c,q,skipWs_eq_self (ends_cons.mpr hws),hc⟩

theorem solid_gap {g : Gap} {p : Text} (h : Solid p) : Solid (g ++ p) := by rwa [Solid, skipWs_gap]

theorem solid_lit (l : Lit) (r : Text) : Solid (l.before r) := by
  have hhead := head_before l r
  cases hb : l.before r with
  | nil =>
    rw [hb] at hhead
    cases hhead
  | cons c q =>
    rw [hb] at hhead
    have hc : isHexDigit c := hhead
    exact solid_cons (isWs_eq_false_of_isHexDigit hc) (isPatternChar_facts (.inl hc)).2.1

theorem solid_loc (t : LocTree) (r : Text) : Solid (t.before r) := by
  cases t with
  | sym name offset find => exact solid_cons (c := 's') (by decide) (by decide)
  | label name offset =>
    obtain ⟨c,w,h⟩ := List.exists_cons_of_ne_nil name.2.1
    have hc := of_decide_eq_true (name.2.2 c (h ▸ List.mem_cons_self))
    rw [LocTree.before, h]
    exact solid_cons (Bool.eq_false_of_not_eq_true fun hws => hc.1 (isSpace_of_isWs hws)) hc.2.2
  | abs addr => exact solid_lit addr r

theorem solid_insn (t : InsnTree) (r : Text) : Solid (t.before r) := by
  cases t with
  | nop => exact solid_cons (c := 'n') (by decide) (by decide)
  | ret => exact solid_cons (c := 'r') (by decide) (by decide)
  | raw insn => exact solid_lit insn r
  | branch link gap target => cases link <;> exact solid_cons (c := 'b') (by decide) (by decide)

theorem solid_within {w : Option Within} {r : Text} (h : Solid r) : Solid (withinBefore w r) := by
  cases w with
  | none => exact h
  | some w => exact solid_gap (solid_cons (c := 'w') (by decide) (by decide))

theorem solid_patterns {ps : List (Gap × PatternWord)} {r : Text} (h : Solid r) : Solid (patternsBefore ps r) := by
  cases ps with
  | nil => exact h
  | cons p ps =>
    obtain ⟨c,d,hw,hc⟩ := exists_patternWord p.2
    refine solid_gap ?_
    rw [hw]
    have hspace := (isPatternChar_facts hc).1
    exact solid_cons (Bool.eq_false_of_not_eq_true fun hws => by simp [isSpace_of_isWs hws] at hspace)
      (isPatternChar_facts hc).2.1

theorem startsPattern_insn {t : InsnTree} (h : t.StartsHex) (r : Text) : startsPattern (t.before r) := by
  cases t with
  | nop => cases h
  | ret => cases h
  | raw insn =>
    have hhead := head_before insn r
    rw [InsnTree.before]
    cases hb : insn.before r with
    | nil =>
      rw [hb] at hhead
      cases hhead
    | cons c q =>
      rw [hb] at hhead
      exact decide_eq_true (.inl hhead)
  | branch link gap target => cases link <;> rfl

theorem patterns_go_on {ps ps' : List (Gap × PatternWord)} {r r' : Text} (hps' : PatternsStop ps' r')
    (hr : startsPattern (skipWs r)) (h : patternsBefore ps' r' = patternsBefore ps r) :
    ∃ p qs, patternsBefore (p :: qs) r' = r ∧ PatternsStop (p :: qs) r' := by
  induction ps generalizing ps' with
  | nil =>
    cases ps' with
    | nil =>
      refine absurd ?_ hps'
      rwa [show r' = r from h]
    | cons p qs => exact ⟨p,qs,h,hps'⟩
  | cons p ps ih =>
    cases ps' with
    | nil =>
      refine absurd ?_ hps'
      rw [show r' = _ from h, skipWs_patternsBefore]
      exact startsPattern_append p.2 _
    | cons p' ps' =>
      obtain ⟨-,hw⟩ := gap_inj (ends_of_startsPattern (startsPattern_append p'.2 _))
        (ends_of_startsPattern (startsPattern_append p.2 _)) h
      exact ih hps'.2 (List.append_inj hw (p'.2.2.1.trans p.2.2.1.symm)).2

theorem second_patternChar {w : PatternWord} {c d : Char} {q r : Text} (h : w.1 ++ q = c :: d :: r) :
    isHexDigit d ∨ d = '?' := by
  obtain ⟨w,hlen,hw⟩ := w
  rcases w with _ | ⟨a,_ | ⟨b,w⟩⟩
  · cases hlen
  · cases hlen
  · obtain ⟨rfl,-⟩ := List.cons.inj (List.cons.inj h).2
    exact hw b (by simp)

def isPatternChar (c : Char) : Bool := isHexDigit c ∨ c = '?'

theorem ends_patternChar {q : Text} (h : isTerminated q) : Ends isPatternChar q := by
  intro c hc
  cases q with
  | nil => cases hc
  | cons c' q =>
    cases hc
    refine decide_eq_false fun hpat => ?_
    obtain ⟨hspace,hsemi,hhash⟩ := isPatternChar_facts hpat
    rcases (of_decide_eq_true h : isSpace c ∨ c = ';' ∨ c = '#') with hend | hend | hend
    · simp [hspace] at hend
    · exact hsemi hend
    · exact hhash hend

theorem not_pattern_insn {w : PatternWord} {q : Text} {insn : InsnTree} {e : Option Expect} {r : Text}
    (hr : ∀ c ∈ r, isWs c) (hq : isTerminated q) (hsolid : Solid q) (hinsn : insn.StartsHex)
    (h : w.1 ++ q = insn.before (expectBefore e r)) : False := by
  cases insn with
  | nop => exact hinsn
  | ret => exact hinsn
  | raw l =>
    obtain hm | ⟨x,hm,hx⟩ | ⟨x,y,hm,hx,-⟩ := marks_cases l
    · rw [InsnTree.before, before_nil hm] at h
      have hw : ∀ c ∈ w.1, isPatternChar c := fun c hc => decide_eq_true (w.2.2 c hc)
      have hdigits : ∀ c ∈ l.digits, isPatternChar c := fun c hc => decide_eq_true (.inl (l.isHexDigit_digits c hc))
      obtain ⟨-,rfl⟩ := append_inj hw (ends_patternChar hq) hdigits
        (ends_patternChar (atBoundary_expect e hr).isTerminated) h
      exact not_solid_expect hr hsolid
    · rw [InsnTree.before, before_one hm] at h
      rcases of_decide_eq_true hx with rfl | rfl <;> exact absurd (second_patternChar h) (by decide)
    · rw [InsnTree.before, before_two hm] at h
      rcases of_decide_eq_true hx with rfl | rfl <;> exact absurd (second_patternChar h) (by decide)
  | branch link gap target =>
    cases link with
    | true => exact absurd (second_patternChar (c := 'b') (d := 'l') h) (by decide)
    | false => exact absurd (second_patternChar (c := 'b') (d := ' ') h) (by decide)

/-- After a search without a bound, an instruction that starts with a digit is not taken in. -/
theorem not_open_of_reads {loc loc' : LocTree} {gap gap' : Gap} {insn insn' : InsnTree} {e e' : Option Expect}
    {r r' : Text} (hloc : loc.Proper) (hopen : loc.Open) (hr : ∀ c ∈ r, isWs c)
    (hloc' : loc'.Stops (gap' ++ insn'.before (expectBefore e' r')))
    (h : loc'.before (gap' ++ insn'.before (expectBefore e' r')) = loc.before (gap ++ insn.before (expectBefore e r))) :
    ¬insn.StartsHex := by
  intro hinsn
  cases loc with
  | label name offset => exact hopen
  | abs addr => exact hopen
  | sym name offset find =>
    cases find with
    | none => exact hopen
    | some f =>
      obtain ⟨g,ps,within⟩ := f
      obtain rfl : within = none := hopen
      obtain ⟨rfl,hf⟩ := hloc.2 _ rfl
      have hbound : AtBoundary (findBefore (some ⟨g,ps,none⟩) (gap ++ insn.before (expectBefore e r))) :=
        atBoundary_gap hf.gap _
      have hsym : "sym:".toList <+: loc'.before (gap' ++ insn'.before (expectBefore e' r')) := by
        rw [h]
        exact List.prefix_append _ _
      cases loc' with
      | label name' offset' => exact hloc'.1 ((isPrefix_label_iff hloc'.2.2.1).mp hsym)
      | abs addr' => exact not_isPrefix_before (by decide) addr' _ hsym
      | sym name' offset' find' =>
        have hname : name'.1 ++ _ = name.1 ++ _ := List.append_cancel_left h
        obtain ⟨-,hoffset⟩ := word_inj hloc'.1 (hbound.ends (by decide)) hname
        have hnone : OffsetStops isSign none (findBefore (some ⟨g,ps,none⟩) (gap ++ insn.before (expectBefore e r))) :=
          hbound.ends (by decide)
        obtain ⟨rfl,hfind⟩ := offset_inj hloc'.2.1 hnone hoffset
        cases find' with
        | none =>
          refine absurd ?_ hloc'.2.2
          rw [show gap'.1 ++ insn'.before (expectBefore e' r') = _ from hfind, findBefore, skipWs_keyword (by decide)]
          exact List.prefix_append _ _
        | some f' =>
          obtain ⟨-,hpats⟩ := keyword_inj (k := "find ".toList) (by decide) hfind
          have hstarts : startsPattern (skipWs (gap ++ insn.before (expectBefore e r))) := by
            rw [skipWs_gap, skipWs_eq_self (ends_insn insn _)]
            exact startsPattern_insn hinsn _
          obtain ⟨p,qs,hp,hstop⟩ := patterns_go_on hloc'.2.2.2.1 hstarts hpats
          obtain ⟨-,hw⟩ := gap_inj (ends_of_startsPattern (startsPattern_append p.2 _)) (ends_insn insn _) hp
          exact not_pattern_insn hr hstop.1 (solid_patterns (solid_within (solid_gap (solid_insn insn' _)))) hinsn hw

theorem eq_of_isPrefix_b {l : Lit} {p q : Text} (h : "b ".toList ++ q = l.before p) : p = ' ' :: q := by
  have hdigits := l.isHexDigit_digits
  change 'b' :: ' ' :: q = _ at h
  obtain hm | ⟨x,hm,-⟩ | ⟨x,y,hm,-,-⟩ := marks_cases l
  · rw [before_nil hm] at h
    rcases hd : l.digits with _ | ⟨a,_ | ⟨b,ds⟩⟩
    · exact absurd hd l.digits_ne
    · rw [hd] at h
      exact (List.cons.inj h).2.symm
    · rw [hd] at h hdigits
      obtain ⟨rfl,-⟩ := List.cons.inj (List.cons.inj h).2
      exact absurd (hdigits ' ' (by simp)) (by decide)
  · rw [before_one hm] at h
    exact absurd (List.cons.inj h).1 (by decide)
  · rw [before_two hm] at h
    exact absurd (List.cons.inj h).1 (by decide)

/-- A word `b` with a space after it is taken for a branch, which then has no target. -/
theorem not_isPrefix_b_of_reads {l : Lit} {insn' : InsnTree} {e : Option Expect} {r r' : Text}
    (hr : ∀ c ∈ r, isWs c) (hinsn' : insn'.Stops r') (h : insn'.before r' = l.before (expectBefore e r)) :
    ¬"b ".toList <+: l.before (expectBefore e r) := by
  rintro ⟨q,hq⟩
  have hX : skipWs q = skipWs (expectBefore e r) := by
    rw [eq_of_isPrefix_b hq]
    rfl
  rw [← hq] at h
  cases insn' with
  | nop => exact append_ne_append (by decide) h
  | ret => exact append_ne_append (by decide) h
  | raw l' => exact hinsn'.2.2 false ⟨q,h.symm⟩
  | branch link' gap' target' =>
    have hb : mnemonic link' ++ (gap'.1 ++ target'.before r') = mnemonic false ++ q := h
    obtain ⟨-,htarget⟩ := mnemonic_inj hb
    have hsolid : Solid q := htarget ▸ solid_gap (solid_loc target' r')
    exact not_solid_expect hr (by rwa [Solid, ← hX])

/-- A documented line has a clear instruction if it is the text of a tree that is taken in. -/
theorem clear_of_reads {d t : LineTree} (hd : d.Proper) (hpre : d.Prefixed) (ht : t.Reads) (h : t.text = d.text) :
    d.Clear := by
  cases d with
  | legacy addr gap insn rest => trivial
  | letLine gap name gap₁ gap₂ loc rest => trivial
  | atLine gap loc gap₁ insn expect rest =>
    obtain ⟨hloc,hgap,hinsn,hexpect,hrest⟩ := hd
    cases t with
    | legacy addr' gap' insn' rest' =>
      have hlegacy := looksLegacy_before ht.1 ht.2.1
      rw [show addr'.before _ = _ from h, LineTree.text, looksLegacy_at] at hlegacy
      cases hlegacy
    | letLine gap' name' gap₁' gap₂' loc' rest' => exact absurd h (append_ne_append (by decide))
    | atLine gap' loc' gap₁' insn' expect' rest' =>
      obtain ⟨-,heq⟩ := gap_inj (ends_loc loc' _) (ends_loc loc _) (List.append_cancel_left h)
      have hopen : loc.Open → ¬insn.StartsHex := fun hopen => not_open_of_reads hloc hopen hrest ht.1 heq
      refine ⟨hopen,fun l hl => ?_⟩
      subst hl
      obtain ⟨-,hgap'⟩ := loc_inj ht.1 (loc_stops_insn hloc hpre.1 hgap hopen hrest) heq
      obtain ⟨-,hinsn'⟩ := gap_inj (ends_insn insn' _) (ends_insn _ _) hgap'
      exact not_isPrefix_b_of_reads hrest ht.2.1 hinsn'

end Machismo.Patcher
