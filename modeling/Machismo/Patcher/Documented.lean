import Machismo.Patcher.Mistaken
import Mathlib.Data.List.Forall2

/-! # Where the scanner follows the documentation

The scanner takes in more than is documented: text after a legacy line, a `let` line or an expected word, an
offset before a search, literals with two prefixes or too many digits, an empty label, an instruction that
is not apart from its location. And it does not take in all that is: names and searches without room, an
instruction that starts with a digit after a search, a word `b` with a space after it, lines that are longer
than the buffer. Apart from these, it reads a line as documented.
-/
namespace Machismo.Patcher
open Munch

/-! ## Addresses without a prefix

They are labels as well.
-/

theorem isLabelChar_of_isHexDigit {c : Char} (h : isHexDigit c) : isLabelChar c := by
  refine decide_eq_true ⟨by simp [isSpace_eq_false_of_isHexDigit h],?_,?_⟩
  · rintro rfl
    exact absurd h (by decide)
  · rintro rfl
    exact absurd h (by decide)

def LocTree.twin : LocTree → LocTree
  | .abs addr =>
    if addr.marks = [] then
      .label ⟨addr.digits,addr.digits_ne,fun c hc => isLabelChar_of_isHexDigit (addr.isHexDigit_digits c hc)⟩ none
    else .abs addr
  | t => t

def InsnTree.twin : InsnTree → InsnTree
  | .branch link gap target => .branch link gap target.twin
  | t => t

def LineTree.twin : LineTree → LineTree
  | .legacy addr gap insn rest => .legacy addr gap insn rest
  | .letLine gap name gap₁ gap₂ loc rest => .letLine gap name gap₁ gap₂ loc.twin rest
  | .atLine gap loc gap₁ insn expect rest => .atLine gap loc.twin gap₁ insn.twin expect rest

theorem loc_twin {t : LocTree} (h : t.Proper) : t.twin.Proper ∧ t.twin.Prefixed ∧ (t.twin.Fits → t.Fits) ∧
    (t.Open → t.twin.Open) ∧ ∀ r, t.twin.before r = t.before r := by
  cases t with
  | sym name offset find => exact ⟨h,trivial,id,id,fun _ => rfl⟩
  | label name offset => exact ⟨h,trivial,id,id,fun _ => rfl⟩
  | abs addr =>
    rw [LocTree.twin]
    split
    next hm =>
      have hdigits := not_isPrefix_before (k := "sym:".toList) (by decide) addr []
      rw [before_nil hm, List.append_nil] at hdigits
      have h0x := not_has0x_digits addr ends_nil
      rw [List.append_nil] at h0x
      exact ⟨⟨hdigits,h0x,fun o ho => (by cases ho)⟩,trivial,fun _ => trivial,id,fun r => (before_nil hm r).symm⟩
    next hm => exact ⟨h,hm,id,id,fun _ => rfl⟩

theorem insn_twin {t : InsnTree} (h : t.Proper) : t.twin.Proper ∧ t.twin.Prefixed ∧ (t.twin.Fits → t.Fits) ∧
    (t.StartsHex → t.twin.StartsHex) ∧ (∀ l, t = .raw l → t.twin = .raw l) ∧ ∀ r, t.twin.before r = t.before r := by
  cases t with
  | nop => exact ⟨h,trivial,id,id,fun _ hl => hl,fun _ => rfl⟩
  | ret => exact ⟨h,trivial,id,id,fun _ hl => hl,fun _ => rfl⟩
  | raw insn => exact ⟨h,trivial,id,id,fun _ hl => hl,fun _ => rfl⟩
  | branch link gap target =>
    obtain ⟨hproper,hpre,hfits,-,hbefore⟩ := loc_twin h
    refine ⟨hproper,hpre,hfits,fun _ => trivial,fun l hl => (by cases hl),fun r => ?_⟩
    rw [InsnTree.twin, InsnTree.before, InsnTree.before, hbefore]

theorem line_twin {t : LineTree} (h : t.Proper) : t.twin.Proper ∧ t.twin.Prefixed ∧ (t.twin.Fits → t.Fits) ∧
    (t.twin.Clear → t.Clear) ∧ t.twin.text = t.text := by
  cases t with
  | legacy addr gap insn rest => exact ⟨h,trivial,id,id,rfl⟩
  | letLine gap name gap₁ gap₂ loc rest =>
    obtain ⟨hproper,hpre,hfits,-,hbefore⟩ := loc_twin h.2.1
    refine ⟨⟨h.1,hproper,h.2.2⟩,hpre,fun hf => ⟨hf.1,hfits hf.2⟩,id,?_⟩
    rw [LineTree.twin, LineTree.text, LineTree.text, hbefore]
  | atLine gap loc gap₁ insn expect rest =>
    obtain ⟨hproper,hpre,hfits,hopen,hbefore⟩ := loc_twin h.1
    obtain ⟨hproper',hpre',hfits',hstarts,hraw,hbefore'⟩ := insn_twin h.2.2.1
    refine ⟨⟨hproper,h.2.1,hproper',h.2.2.2⟩,⟨hpre,hpre'⟩,fun hf => ⟨hfits hf.1,hfits' hf.2⟩,fun hclear => ?_,?_⟩
    · exact ⟨fun ho hs => hclear.1 (hopen ho) (hstarts hs),fun l hl => hclear.2 l (hraw l hl)⟩
    · rw [LineTree.twin, LineTree.text, LineTree.text, hbefore', hbefore]

/-- The line has no undocumented part, and what it has fits and is clear. -/
def Faithful (line : Text) : Prop :=
  (∀ t : LineTree, t.text = lineText line → t.Reads → t.Fits → t.Plain) ∧
    ∀ t : LineTree, t.text = lineText line → t.Proper → t.Fits ∧ t.Clear

theorem text_ne_nil (t : LineTree) : t.text ≠ [] := by
  intro h
  cases t with
  | legacy addr gap insn rest =>
    obtain ⟨c,q,hskip,-⟩ := solid_lit addr (gap.1 ++ insn.before rest)
    rw [show addr.before _ = [] from h] at hskip
    cases hskip
  | letLine gap name gap₁ gap₂ loc rest => cases h
  | atLine gap loc gap₁ insn expect rest => cases h

theorem parseBuf_eq_some_some {line : Text} {out : PatchLine} :
    parseBuf line = some (some out) ↔ ∃ t : LineTree, t.text = lineText line ∧ t.Reads ∧ t.Fits ∧ t.meaning = out := by
  unfold parseBuf
  constructor
  · intro h
    split at h
    · cases h
    · obtain ⟨out',hout,h⟩ := Option.map_eq_some_iff.mp h
      cases h
      exact parseDirective_sound (ends_skipWs _) hout
  · rintro ⟨t,ht,hreads,hfits,rfl⟩
    rw [if_neg (ht ▸ text_ne_nil t), ← ht, parseDirective_complete hreads hfits]
    rfl

theorem parseBuf_eq_some_none {line : Text} : parseBuf line = some none ↔ lineText line = [] := by
  unfold parseBuf
  split
  next h => exact iff_of_true rfl h
  next h =>
    refine iff_of_false (fun hnone => ?_) h
    obtain ⟨out,-,hout⟩ := Option.map_eq_some_iff.mp hnone
    cases hout

theorem documented_iff {line : Text} : (∃ out, Documented line (some out)) ↔
    ∃ t : LineTree, t.text = lineText line ∧ t.Proper ∧ t.Prefixed := by
  constructor
  · rintro ⟨out,t,ht,hproper,-⟩
    obtain ⟨hproper,hpre,-,-,htext⟩ := line_twin hproper
    exact ⟨t.twin,htext.trans ht,hproper,hpre⟩
  · rintro ⟨t,ht,hproper,-⟩
    exact ⟨t.meaning,t,ht,hproper,rfl⟩

theorem eq_of_proper_of_reads {d t : LineTree} (hd : d.Proper) (hpre : d.Prefixed) (ht : t.Reads)
    (h : t.text = d.text) : t = d :=
  line_inj ht (reads_of_proper hd hpre (clear_of_reads hd hpre ht h)) h

theorem faithful_of_readAsDocumented {line : Text} (h : ReadAsDocumented line) : Faithful line := by
  obtain ⟨haccept,hreject⟩ := h
  refine ⟨fun t ht hreads hfits => ?_,fun d hd hproper => ?_⟩
  · have hdoc := haccept _ (parseBuf_eq_some_some.mpr ⟨t,ht,hreads,hfits,rfl⟩)
    obtain ⟨d,hd,hproper,hpre⟩ := documented_iff.mp ⟨_,hdoc⟩
    rw [eq_of_proper_of_reads hproper hpre hreads (ht.trans hd.symm)]
    exact plain_of_proper hproper
  · obtain ⟨hproper',hpre,hfits,hclear,htext⟩ := line_twin hproper
    have htaken : ∃ t : LineTree, t.text = lineText line ∧ t.Reads ∧ t.Fits := by
      cases hbuf : parseBuf line with
      | none => exact absurd ⟨d,hd,hproper,rfl⟩ (hreject hbuf (some d.meaning))
      | some out =>
        cases out with
        | none => exact absurd (hd.trans (parseBuf_eq_some_none.mp hbuf)) (text_ne_nil d)
        | some out =>
          obtain ⟨t,ht,hreads,hf,-⟩ := parseBuf_eq_some_some.mp hbuf
          exact ⟨t,ht,hreads,hf⟩
    obtain ⟨t,ht,hreads,hf⟩ := htaken
    have htwin : t.text = d.twin.text := ht.trans (hd.symm.trans htext.symm)
    obtain rfl := eq_of_proper_of_reads hproper' hpre hreads htwin
    exact ⟨hfits hf,hclear (clear_of_reads hproper' hpre hreads rfl)⟩

theorem readAsDocumented_of_faithful {line : Text} (h : Faithful line) : ReadAsDocumented line := by
  obtain ⟨hplain,hclear⟩ := h
  refine ⟨fun out hout => ?_,fun hnone out hdoc => ?_⟩
  · cases out with
    | none => exact parseBuf_eq_some_none.mp hout
    | some out =>
      obtain ⟨t,ht,hreads,hfits,hmeaning⟩ := parseBuf_eq_some_some.mp hout
      exact ⟨t,ht,proper_of_plain hreads (hplain t ht hreads hfits),hmeaning⟩
  · cases out with
    | none =>
      rw [parseBuf_eq_some_none.mpr hdoc] at hnone
      cases hnone
    | some out =>
      obtain ⟨d,hd,hproper,hpre⟩ := documented_iff.mp ⟨out,hdoc⟩
      obtain ⟨hfits,hcl⟩ := hclear d hd hproper
      rw [parseBuf_eq_some_some.mpr ⟨d,hd,reads_of_proper hproper hpre hcl,hfits,rfl⟩] at hnone
      cases hnone

theorem textLinesFrom_cons (line : Text) (c : Char) (text : Text) :
    ∃ l ls, textLinesFrom line (c :: text) = l :: ls ∧ line.length < l.length := by
  induction text generalizing line c with
  | nil =>
    refine ⟨(c :: line).reverse,[],?_,by simp⟩
    rw [textLinesFrom]
    split
    · rfl
    · exact if_neg (List.cons_ne_nil c line)
  | cons d text ih =>
    rw [textLinesFrom]
    split
    · exact ⟨_,_,rfl,by simp⟩
    · obtain ⟨l,ls,h,hlen⟩ := ih (c :: line) d
      exact ⟨l,ls,h,by rw [List.length_cons] at hlen; omega⟩

theorem fgetsFrom_eq_iff {size : ℕ} (text line : Text) {room : ℕ} (hroom : 0 < room)
    (hsize : line.length + room = size) :
    fgetsFrom size line room text = textLinesFrom line text ↔ ∀ l ∈ textLinesFrom line text, l.length ≤ size := by
  induction text generalizing line room with
  | nil =>
    refine iff_of_true rfl fun l hl => ?_
    rw [textLinesFrom] at hl
    split at hl
    · cases hl
    · rw [List.mem_singleton.mp hl, List.length_reverse]
      omega
  | cons c text ih =>
    by_cases hc : c = '\n'
    · have hrest := ih [] (show 0 < size by omega) (show 0 + size = size by omega)
      rw [fgetsFrom, textLinesFrom, if_pos (.inl hc), if_pos hc, List.cons_inj_right, hrest, List.forall_mem_cons,
        List.length_reverse, List.length_cons]
      exact ⟨fun h => ⟨by omega,h⟩,fun h => h.2⟩
    · by_cases hfull : room ≤ 1
      · rw [fgetsFrom, textLinesFrom, if_pos (.inr hfull), if_neg hc]
        cases text with
        | nil =>
          rw [fgetsFrom, if_pos rfl, textLinesFrom, if_neg (List.cons_ne_nil c line)]
          exact iff_of_true rfl fun l hl => by
            rw [List.mem_singleton.mp hl, List.length_reverse, List.length_cons]
            omega
        | cons d text =>
          -- The line goes on beyond the buffer.
          obtain ⟨l,ls,h,hlen⟩ := textLinesFrom_cons (c :: line) d text
          rw [List.length_cons] at hlen
          rw [h]
          refine iff_of_false (fun heq => ?_) fun hall => ?_
          · have hl := congrArg List.length (List.cons.inj heq).1
            rw [List.length_reverse, List.length_cons] at hl
            omega
          · have hl := hall l List.mem_cons_self
            omega
      · rw [fgetsFrom, textLinesFrom, if_neg (by simp [hc, hfull]), if_neg hc]
        exact ih (c :: line) (by omega) (by rw [List.length_cons]; omega)

theorem mapM_parseBuf {lines : List Text} (h : ∀ line ∈ lines, ReadAsDocumented line) :
    (∀ outs, lines.mapM parseBuf = some outs → List.Forall₂ Documented lines outs) ∧
    (lines.mapM parseBuf = none → ∀ outs, ¬List.Forall₂ Documented lines outs) := by
  induction lines with
  | nil =>
    refine ⟨fun outs houts => ?_,fun hnone => (by cases hnone)⟩
    cases houts
    exact .nil
  | cons line lines ih =>
    obtain ⟨hline,hlines⟩ := List.forall_mem_cons.mp h
    rw [List.mapM_cons]
    cases hbuf : parseBuf line with
    | none =>
      refine ⟨fun outs houts => (by cases houts),fun _ outs houts => ?_⟩
      cases houts with
      | cons hdoc _ => exact hline.2 hbuf _ hdoc
    | some out =>
      cases hrest : lines.mapM parseBuf with
      | none =>
        refine ⟨fun outs houts => (by cases houts),fun _ outs houts => ?_⟩
        cases houts with
        | cons _ hdocs => exact (ih hlines).2 hrest _ hdocs
      | some outs' =>
        refine ⟨fun outs houts => ?_,fun hnone => (by cases hnone)⟩
        cases houts
        exact .cons (hline.1 out hbuf) ((ih hlines).1 outs' hrest)

/-- A file that is read as documented gives the meanings of its lines, or is given up if a line has none. -/
theorem parsePatchFile_of_documented {text : Text} (h : FileReadAsDocumented text) :
    (∀ lines, parsePatchFile text = some lines →
      ∃ outs, List.Forall₂ Documented (textLines text) outs ∧ lines = outs.filterMap id) ∧
    (parsePatchFile text = none → ∀ outs, ¬List.Forall₂ Documented (textLines text) outs) := by
  have hlines := mapM_parseBuf h.2
  rw [parsePatchFile, h.1]
  refine ⟨fun lines hsome => ?_,fun hnone => hlines.2 (Option.map_eq_none_iff.mp hnone)⟩
  obtain ⟨outs,houts,rfl⟩ := Option.map_eq_some_iff.mp hsome
  exact ⟨outs,hlines.1 outs houts,rfl⟩

/-- A file is read as documented exactly if its lines fit the buffer and are faithful. -/
theorem fileReadAsDocumented_iff (text : Text) :
    FileReadAsDocumented text ↔ ∀ line ∈ textLines text, line.length ≤ fgetsSize ∧ Faithful line := by
  have hlines : fgetsLines text = textLines text ↔ ∀ line ∈ textLines text, line.length ≤ fgetsSize :=
    fgetsFrom_eq_iff text [] (by decide) rfl
  rw [FileReadAsDocumented, hlines]
  constructor
  · exact fun h line hline => ⟨h.1 line hline,faithful_of_readAsDocumented (h.2 line hline)⟩
  · exact fun h => ⟨fun line hline => (h line hline).1,
      fun line hline => readAsDocumented_of_faithful (h line hline).2⟩

/-- A search is followed by an instruction in digits, as documented, but no line is read. -/
theorem not_fileReadAsDocumented_find : ¬FileReadAsDocumented "at sym:F find 12345678 D503201F".toList := by
  intro h
  have hline := h.2 "at sym:F find 12345678 D503201F".toList (by decide)
  let empty : Gap := ⟨[],List.all_eq_true.mp rfl⟩
  let blank : Gap := ⟨[' '],List.all_eq_true.mp rfl⟩
  have hpattern : "12345678".toList.all fun c => decide (isHexDigit c ∨ c = '?') := by decide
  let pattern : PatternWord := ⟨"12345678".toList,rfl,fun c hc => of_decide_eq_true (List.all_eq_true.mp hpattern c hc)⟩
  let f : Find := ⟨blank,[(empty,pattern)],none⟩
  have hdigits : "D503201F".toList.all isHexDigit := by decide
  let insn : Lit := ⟨[],"D503201F".toList,fun x hx => (by cases hx),by decide,by decide,List.all_eq_true.mp hdigits⟩
  let loc : LocTree := .sym ⟨['F'],by decide,List.all_eq_true.mp rfl⟩ none (some f)
  let t : LineTree := .atLine empty loc blank (.raw insn) none []
  have hf : f.Proper := ⟨List.cons_ne_nil _ _,List.cons_ne_nil _ _,fun p hp => (by cases hp),fun w hw => (by cases hw)⟩
  have hword : hexValue "D503201F".toList < 2^32 := by decide
  have hinsn : insn.Proper ∧ insn.IsWord := ⟨⟨Nat.zero_le 1,hword.trans (by decide)⟩,hword⟩
  have hloc : loc.Proper := by
    refine ⟨fun o ho => (by cases ho),fun f' hf' => ?_⟩
    cases hf'
    exact ⟨rfl,hf⟩
  have ht : t.Proper := ⟨hloc,List.cons_ne_nil _ _,hinsn,fun e he => (by cases he),fun c hc => (by cases hc)⟩
  exact hline.2 (by decide) (some t.meaning) ⟨t,rfl,ht,rfl⟩

end Machismo.Patcher
