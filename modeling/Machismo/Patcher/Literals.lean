import Machismo.Patcher.Grammar
import Machismo.Data.Munch

/-! # Literals

The scanner takes in the text of a literal, as far as it goes, and gives its value.
-/
namespace Machismo.Patcher
open Munch

theorem isSpace_eq_false_of_isHexDigit {c : Char} (h : isHexDigit c) : isSpace c = false := by
  by_contra hspace
  simp only [isSpace, List.mem_cons, List.not_mem_nil, or_false, Bool.not_eq_false, decide_eq_true_eq] at hspace
  rcases hspace with rfl | rfl | rfl | rfl | rfl | rfl <;> exact absurd h (by decide)

theorem isSpace_of_isWs {c : Char} (h : isWs c) : isSpace c := by
  simp only [isWs, List.mem_cons, List.not_mem_nil, or_false, decide_eq_true_eq] at h
  rcases h with rfl | rfl | rfl | rfl <;> decide

theorem isWs_eq_false_of_isHexDigit {c : Char} (h : isHexDigit c) : isWs c = false := by
  refine Bool.eq_false_of_not_eq_true fun hws => ?_
  exact absurd (isSpace_eq_false_of_isHexDigit h) (by simp [isSpace_of_isWs hws])

theorem isX_eq_false_of_isHexDigit {c : Char} (h : isHexDigit c) : isX c = false := by
  refine decide_eq_false fun hx => ?_
  rcases hx with rfl | rfl <;> exact absurd h (by decide)

theorem has0x_iff {p : Text} : has0x p ↔ ∃ x q, p = '0' :: x :: q ∧ isX x := by
  constructor
  · intro h
    unfold has0x at h
    split at h
    next x q => exact ⟨x,q,rfl,h⟩
    next => cases h
  · rintro ⟨x,q,rfl,hx⟩
    exact hx

theorem exists_gap (p : Text) : ∃ g : Gap, p = g ++ skipWs p :=
  ⟨⟨p.takeWhile isWs,fun _ hc => List.mem_takeWhile_imp hc⟩,List.takeWhile_append_dropWhile.symm⟩

theorem skipWs_gap (g : Gap) (r : Text) : skipWs (g ++ r) = skipWs r := List.dropWhile_append_of_pos g.2

theorem ends_skipWs (p : Text) : Ends isWs (skipWs p) := ends_dropWhile p

theorem skipWs_eq_self {p : Text} (h : Ends isWs p) : skipWs p = p := dropWhile_eq_self h

@[simp] theorem skipWs_skipWs (p : Text) : skipWs (skipWs p) = skipWs p := skipWs_eq_self (ends_skipWs p)

theorem gap_inj {g g' : Gap} {r r' : Text} (hr : Ends isWs r) (hr' : Ends isWs r') (h : g.1 ++ r = g'.1 ++ r') :
    g = g' ∧ r = r' := by
  obtain ⟨hg,hr⟩ := append_inj g.2 hr g'.2 hr' h
  exact ⟨Subtype.ext hg,hr⟩

theorem after_append (k r : Text) : after k (k ++ r) = some r := by
  rw [after, if_pos (List.prefix_append k r), List.drop_left]

theorem after_eq_some {k p q : Text} (h : after k p = some q) : p = k ++ q := by
  unfold after at h
  split at h
  next hk =>
    cases h
    obtain ⟨t,rfl⟩ := hk
    rw [List.drop_left]
  next => cases h

theorem after_eq_none {k p : Text} : after k p = none ↔ ¬k <+: p := by
  unfold after
  split <;> simp_all

structure Lit.Stops (l : Lit) (r : Text) : Prop where
  digits : Ends isHexDigit r
  first : l.marks = [] → ¬has0x (l.digits ++ r)
  second : l.marks.length = 1 → ¬(has0x (l.digits ++ r) ∧ ((l.digits ++ r).drop 2).head?.any isHexDigit)

theorem head_digits (l : Lit) (r : Text) : (l.digits ++ r).head?.any isHexDigit := by
  obtain ⟨c,d,h⟩ := List.exists_cons_of_ne_nil l.digits_ne
  rw [h]
  exact l.isHexDigit_digits c (h ▸ List.mem_cons_self)

theorem marks_cases (l : Lit) :
    l.marks = [] ∨ (∃ x, l.marks = [x] ∧ isX x) ∨ ∃ x y, l.marks = [x,y] ∧ isX x ∧ isX y := by
  have hx := l.isX_marks
  have hlen := l.length_marks
  rcases h : l.marks with _ | ⟨x,_ | ⟨y,_ | ⟨z,xs⟩⟩⟩
  · exact .inl rfl
  · exact .inr (.inl ⟨x,rfl,hx x (by simp [h])⟩)
  · exact .inr (.inr ⟨x,y,rfl,hx x (by simp [h]),hx y (by simp [h])⟩)
  · rw [h, List.length_cons, List.length_cons, List.length_cons] at hlen
    omega

theorem before_nil {l : Lit} (h : l.marks = []) (r : Text) : l.before r = l.digits ++ r := by
  rw [Lit.before, h, List.foldr_nil]

theorem before_one {l : Lit} {x : Char} (h : l.marks = [x]) (r : Text) :
    l.before r = '0' :: x :: (l.digits ++ r) := by rw [Lit.before, h, List.foldr_cons, List.foldr_nil]

theorem before_two {l : Lit} {x y : Char} (h : l.marks = [x,y]) (r : Text) :
    l.before r = '0' :: x :: '0' :: y :: (l.digits ++ r) := by
  rw [Lit.before, h, List.foldr_cons, List.foldr_cons, List.foldr_nil]

theorem head_before (l : Lit) (r : Text) : (l.before r).head?.any isHexDigit := by
  obtain h | ⟨x,h,-⟩ | ⟨x,y,h,-,-⟩ := marks_cases l
  · rw [before_nil h]
    exact head_digits l r
  · rw [before_one h]
    rfl
  · rw [before_two h]
    rfl

theorem ends_of_head {ok : Char → Bool} {p : Text} (h : p.head?.any isHexDigit)
    (hok : ∀ c, isHexDigit c → ok c = false) : Ends ok p := by
  cases p with
  | nil => exact ends_nil
  | cons c p => exact ends_cons.mpr (hok c h)

theorem ends_before (l : Lit) (r : Text) : Ends isWs (l.before r) :=
  ends_of_head (head_before l r) fun _ => isWs_eq_false_of_isHexDigit

theorem exists_lit {q : Text} (h : q.head?.any isHexDigit) (marks : Text) (hx : ∀ x ∈ marks, isX x)
    (hlen : marks.length ≤ 2) : ∃ l : Lit, l.marks = marks ∧ q = l.digits ++ q.dropWhile isHexDigit := by
  have hne : q.takeWhile isHexDigit ≠ [] := by
    cases q with
    | nil => cases h
    | cons c q =>
      rw [List.takeWhile_cons, if_pos (show isHexDigit c from h)]
      exact List.cons_ne_nil _ _
  exact ⟨⟨marks,_,hx,hlen,hne,fun _ hc => List.mem_takeWhile_imp hc⟩,rfl,List.takeWhile_append_dropWhile.symm⟩

/-- The digits at the head of a text and what follows them. -/
def number (q : Text) : BitVec 64 × Text :=
  (BitVec.ofNat 64 (min (hexValue (q.takeWhile isHexDigit)) (2^64 - 1)),q.dropWhile isHexDigit)

theorem number_digits (l : Lit) {r : Text} (hr : Ends isHexDigit r) : number (l.digits ++ r) = (l.value,r) := by
  rw [number, takeWhile_append l.isHexDigit_digits hr, dropWhile_append l.isHexDigit_digits hr, Lit.value]

theorem strtoull16_unmarked {q : Text} (h : ¬(has0x q ∧ (q.drop 2).head?.any isHexDigit)) :
    strtoull16 q = number q := by
  unfold strtoull16
  rw [if_neg h]
  rfl

theorem strtoull16_marked {x : Char} {q : Text} (hx : isX x) (hq : q.head?.any isHexDigit) :
    strtoull16 ('0' :: x :: q) = number q := by
  unfold strtoull16
  rw [if_pos ⟨hx,hq⟩]
  rfl

theorem skip0x_mark {x : Char} (q : Text) (hx : isX x) : skip0x ('0' :: x :: q) = q := if_pos hx

theorem parseHexU64_complete (g : Gap) {l : Lit} {r : Text} (h : l.Stops r) :
    parseHexU64 (g ++ l.before r) = some (l.value,r) := by
  unfold parseHexU64
  rw [skipWs_gap, skipWs_eq_self (ends_before l r)]
  dsimp only
  obtain hm | ⟨x,hm,hx⟩ | ⟨x,y,hm,hx,hy⟩ := marks_cases l
  · have hfirst := h.first hm
    rw [before_nil hm, skip0x, if_neg hfirst, if_pos (head_digits l r),
      strtoull16_unmarked fun hmark => hfirst hmark.1, number_digits l h.digits]
  · rw [before_one hm, skip0x_mark _ hx, if_pos (head_digits l r), strtoull16_unmarked (h.second (by rw [hm]; rfl)),
      number_digits l h.digits]
  · rw [before_two hm, skip0x_mark _ hx, strtoull16_marked hy (head_digits l r), number_digits l h.digits]
    rfl

theorem number_sound {q r : Text} {v : BitVec 64} {m : Text} (hq : q.head?.any isHexDigit) (hm : ∀ x ∈ m, isX x)
    (hlen : m.length ≤ 2) (h : number q = (v,r)) :
    ∃ l : Lit, l.marks = m ∧ q = l.digits ++ r ∧ m.foldr (fun x p => '0' :: x :: p) q = l.before r ∧
      Ends isHexDigit r ∧ l.value = v := by
  obtain ⟨l,hl,hdigits⟩ := exists_lit hq m hm hlen
  have hr : Ends isHexDigit (q.dropWhile isHexDigit) := ends_dropWhile q
  obtain ⟨hv,rfl⟩ := Prod.mk.inj h
  refine ⟨l,hl,hdigits,?_,hr,?_⟩
  · rw [Lit.before, hl, ← hdigits]
  · rw [hdigits, takeWhile_append l.isHexDigit_digits hr] at hv
    exact hv

theorem strtoull16_sound {q r : Text} {v : BitVec 64} {m : Text} (hq : q.head?.any isHexDigit)
    (hm : ∀ x ∈ m, isX x) (hlen : m.length ≤ 1) (hfirst : m = [] → ¬has0x q) (h : strtoull16 q = (v,r)) :
    ∃ l : Lit, m.foldr (fun x p => '0' :: x :: p) q = l.before r ∧ l.Stops r ∧ l.value = v := by
  by_cases hmark : has0x q ∧ (q.drop 2).head?.any isHexDigit
  · obtain ⟨y,q',rfl,hy⟩ := has0x_iff.mp hmark.1
    have hhead : q'.head?.any isHexDigit := hmark.2
    rw [strtoull16_marked hy hhead] at h
    have hm' : ∀ x ∈ m ++ [y], isX x := by
      intro x hx
      rcases List.mem_append.mp hx with hx | hx
      · exact hm x hx
      · rwa [List.mem_singleton.mp hx]
    obtain ⟨l,hl,-,hbefore,hr,hv⟩ := number_sound hhead hm' (by simpa using hlen) h
    rw [List.foldr_append] at hbefore
    have hlm : l.marks.length = 2 := by
      cases m with
      | nil => exact absurd hmark.1 (hfirst rfl)
      | cons x m =>
        rw [hl, List.length_append, List.length_singleton]
        rw [List.length_cons] at hlen ⊢
        omega
    exact ⟨l,hbefore,⟨hr,fun h0 => by simp [h0] at hlm,fun h1 => by omega⟩,hv⟩
  · rw [strtoull16_unmarked hmark] at h
    obtain ⟨l,hl,hq',hbefore,hr,hv⟩ := number_sound hq hm (by omega) h
    rw [hq'] at hmark hfirst
    exact ⟨l,hbefore,⟨hr,fun h0 => hfirst (hl ▸ h0),fun _ => hmark⟩,hv⟩

theorem parseHexU64_sound {p r : Text} {v : BitVec 64} (h : parseHexU64 p = some (v,r)) :
    ∃ (g : Gap) (l : Lit), p = g ++ l.before r ∧ l.Stops r ∧ l.value = v := by
  obtain ⟨g,hg⟩ := exists_gap p
  unfold parseHexU64 at h
  dsimp only at h
  split at h
  next hhead =>
    have hscan := Option.some.inj h
    by_cases hmark : has0x (skipWs p)
    · obtain ⟨x,q,hq,hx⟩ := has0x_iff.mp hmark
      rw [hq, skip0x_mark q hx] at hhead hscan
      obtain ⟨l,hl,hstops,hv⟩ := strtoull16_sound hhead (m := [x]) (by simpa using hx) (by simp) (by simp) hscan
      refine ⟨g,l,?_,hstops,hv⟩
      rw [hg, hq, ← hl]
      rfl
    · rw [skip0x, if_neg hmark] at hhead hscan
      obtain ⟨l,hl,hstops,hv⟩ := strtoull16_sound hhead (m := []) (by simp) (by simp) (fun _ => hmark) hscan
      refine ⟨g,l,?_,hstops,hv⟩
      rw [← hl]
      exact hg
  next => cases h

theorem has0x_before {l : Lit} {r : Text} (h : l.Stops r) : has0x (l.before r) ↔ l.marks ≠ [] := by
  obtain hm | ⟨x,hm,hx⟩ | ⟨x,y,hm,hx,-⟩ := marks_cases l
  · rw [before_nil hm]
    exact iff_of_false (h.first hm) (not_not_intro hm)
  · rw [before_one hm]
    exact iff_of_true hx (by simp [hm])
  · rw [before_two hm]
    exact iff_of_true hx (by simp [hm])

theorem lit_inj {l l' : Lit} {r r' : Text} (hl : l.Stops r) (hl' : l'.Stops r') (h : l.before r = l'.before r') :
    l = l' ∧ r = r' := by
  have hmark : l.marks ≠ [] ↔ l'.marks ≠ [] := by rw [← has0x_before hl, ← has0x_before hl', h]
  have hmarks : l.marks = l'.marks ∧ l.digits ++ r = l'.digits ++ r' := by
    obtain hm | ⟨x,hm,hx⟩ | ⟨x,y,hm,hx,hy⟩ := marks_cases l <;>
      obtain hm' | ⟨x',hm',hx'⟩ | ⟨x',y',hm',hx',hy'⟩ := marks_cases l' <;>
      simp only [hm, hm', ne_eq, not_true, reduceCtorEq, not_false_eq_true, iff_false, iff_true] at hmark
    · exact ⟨hm.trans hm'.symm,by rwa [before_nil hm, before_nil hm'] at h⟩
    · rw [before_one hm, before_one hm'] at h
      obtain ⟨hxx,hdigits⟩ := List.cons.inj (List.cons.inj h).2
      exact ⟨by rw [hm, hm', hxx],hdigits⟩
    · rw [before_one hm, before_two hm'] at h
      have hdigits := (List.cons.inj (List.cons.inj h).2).2
      refine absurd ?_ (hl.second (by rw [hm]; rfl))
      rw [hdigits]
      exact ⟨hy',head_digits l' r'⟩
    · rw [before_two hm, before_one hm'] at h
      have hdigits := (List.cons.inj (List.cons.inj h).2).2
      refine absurd ?_ (hl'.second (by rw [hm']; rfl))
      rw [← hdigits]
      exact ⟨hy,head_digits l r⟩
    · rw [before_two hm, before_two hm'] at h
      obtain ⟨hxx,h⟩ := List.cons.inj (List.cons.inj h).2
      obtain ⟨hyy,hdigits⟩ := List.cons.inj (List.cons.inj h).2
      exact ⟨by rw [hm, hm', hxx, hyy],hdigits⟩
  obtain ⟨hd,hr⟩ := append_inj l.isHexDigit_digits hl.digits l'.isHexDigit_digits hl'.digits hmarks.2
  exact ⟨Lit.ext hmarks.1 hd,hr⟩

end Machismo.Patcher
