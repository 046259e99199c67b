import Machismo.Sword3.Paths

/-! # Normalising an absolute path

The block holds the path of a place, a slash and then its components with slashes in
between, and the null character behind it.  One round of the loop is one step of the walk
over the components; a double dot scans back to the slash before the last component.
-/
namespace Machismo.Sword3Paths
open Machismo.Data Machismo.Data.TextBuffer
open Machismo.Data.Path

section Render

/-- The path of a place, given its components from the root on. -/
def render (names : List Name) : List Char := '/' :: ['/'].intercalate names

theorem render_nil : render [] = ['/'] := rfl

theorem render_singleton (c : Name) : render [c] = '/' :: c := by
  rw [render,List.intercalate_singleton]

theorem render_cons {c : Name} {names : List Name} (h : names ≠ []) : render (c :: names) = '/' :: c++render names := by
  rw [render,List.intercalate_cons_of_ne_nil h,render]
  simp

theorem render_concat {names : List Name} (h : names ≠ []) (c : Name) :
    render (names++[c]) = render names ++ '/' :: c := by
  induction names with
  | nil => exact absurd rfl h
  | cons d names ih =>
    cases names with
    | nil => rw [List.singleton_append,render_cons (by simp),render_singleton,render_singleton]
    | cons e names =>
      rw [List.cons_append,render_cons (by simp),render_cons (by simp),ih (by simp)]
      simp

theorem length_render_concat (names : List Name) (c : Name) :
    (render (names++[c])).length = (if names = [] then 1 else (render names).length+1)+c.length := by
  by_cases h : names = []
  · subst h
    rw [List.nil_append,render_singleton,if_pos rfl,List.length_cons]
    omega
  · rw [render_concat h,if_neg h,List.length_append,List.length_cons]
    omega

/-- The slash before the last component, and where the path ends without that component. -/
theorem render_last (names : List Name) (c : Name) :
    ∃ base, render (names++[c]) = base ++ '/' :: c ∧ render names <+: render (names++[c]) ∧
      (render names).length = if 1 < base.length+1 then base.length+1-1 else base.length+1 := by
  by_cases h : names = []
  · subst h
    exact ⟨[],render_singleton c,⟨c,by rw [List.nil_append,render_singleton]; rfl⟩,rfl⟩
  · refine ⟨render names,render_concat h c,⟨_,(render_concat h c).symm⟩,?_⟩
    have hpos : 1 < (render names).length+1 := by simp [render]
    rw [if_pos hpos,Nat.add_sub_cancel]

theorem one_lt_length_render {names : List Name} (h : ∀ c ∈ names, c ≠ []) :
    1 < (render names).length ↔ names ≠ [] := by
  cases names with
  | nil => simp [render_nil]
  | cons c names =>
    have hc : 0 < c.length := List.length_pos_iff.mpr (h c (by simp))
    cases names with
    | nil =>
      rw [render_singleton,List.length_cons]
      simp [hc]
    | cons d names =>
      rw [render_cons (by simp),List.length_append,List.length_cons]
      simp only [ne_eq,reduceCtorEq,not_false_eq_true,iff_true]
      omega

end Render

section Parts

theorem components_dropWhile (s : List Char) : components (s.dropWhile (· == '/')) = components s := by
  induction s with
  | nil => rfl
  | cons c s ih =>
    by_cases hc : c = '/'
    · subst hc
      rw [List.dropWhile_cons_of_pos (by simp),ih,components_cons_slash]
    · rw [List.dropWhile_cons_of_neg (by simpa using hc)]

theorem first_slash (s : List Char) :
    '/' ∉ s.takeWhile (· != '/') ∧ (s.dropWhile (· != '/') = [] ∧ s = s.takeWhile (· != '/') ∨
      s = s.takeWhile (· != '/') ++ '/' :: (s.dropWhile (· != '/')).drop 1) := by
  refine ⟨fun h => by simpa using List.mem_takeWhile_imp h,?_⟩
  have hsplit := List.takeWhile_append_dropWhile (p := (· != '/')) (l := s)
  cases hd : s.dropWhile (· != '/') with
  | nil =>
    rw [hd,List.append_nil] at hsplit
    exact Or.inl ⟨rfl,hsplit.symm⟩
  | cons c rest =>
    have hne : s.dropWhile (· != '/') ≠ [] := by simp [hd]
    have hc := List.head_dropWhile_not (· != '/') (l := s) hne
    simp only [hd,List.head_cons,bne_eq_false_iff_eq] at hc
    rw [hd,hc] at hsplit
    exact Or.inr hsplit.symm

theorem components_word {w : List Char} (h : '/' ∉ w) :
    components w = if w = [] ∨ w = dot then [] else [w] := by
  have hsplit : w.splitOn '/' = [w] := by
    have hone : ∀ l ∈ [w], '/' ∉ l := by simpa using h
    simpa [List.intercalate_singleton] using List.splitOn_intercalate '/' hone (by simp)
  rw [components,hsplit]
  by_cases h0 : w = []
  · simp [h0]
  · by_cases h1 : w = dot
    · simp [h1]
    · simp [h0,h1]

theorem components_first (s : List Char) :
    components s = components (s.takeWhile (· != '/'))++components ((s.dropWhile (· != '/')).drop 1) := by
  obtain ⟨-,⟨hnil,hs⟩ | hs⟩ := first_slash s
  · rw [hnil,List.drop_nil,components_nil,List.append_nil,← hs]
  · exact (congrArg components hs).trans (components_slash _ _)

theorem strtok_none {s : List Char} (h : strtok s = none) : components s = [] := by
  unfold strtok at h
  dsimp only at h
  split at h
  · rename_i hnil
    rw [← components_dropWhile,hnil,components_nil]
  · simp at h

theorem strtok_some {s rest : List Char} {part : Name} (h : strtok s = some (part,rest)) :
    part ≠ [] ∧ '/' ∉ part ∧ components s = components part++components rest ∧
      (rest = [] ∧ part.length ≤ s.length ∨ part.length+1+rest.length ≤ s.length) := by
  unfold strtok at h
  dsimp only at h
  split at h
  · simp at h
  rename_i hne
  obtain ⟨rfl,rfl⟩ := Prod.mk.inj (Option.some.inj h)
  have hhead : (s.dropWhile (· == '/')).head hne ≠ '/' := by
    simpa using List.head_dropWhile_not (· == '/') (l := s) hne
  have hcomp := components_dropWhile s
  have hlen := List.length_dropWhile_le (· == '/') s
  generalize s.dropWhile (· == '/') = t at *
  obtain ⟨hslash,hfirst⟩ := first_slash t
  refine ⟨?_,hslash,by rw [← hcomp,components_first],?_⟩
  · intro hnil
    rw [List.takeWhile_eq_nil_iff] at hnil
    exact absurd (hnil (List.length_pos_iff.mpr hne)) (by simpa [List.head_eq_getElem] using hhead)
  · rcases hfirst with ⟨hd,ht⟩ | ht
    · rw [hd,List.drop_nil]
      exact Or.inl ⟨rfl,(congrArg List.length ht).symm.le.trans hlen⟩
    · have hsum := congrArg List.length ht
      rw [List.length_append,List.length_cons] at hsum
      exact Or.inr (by omega)

theorem parts_nil : parts [] = [] := by
  unfold parts
  rfl

theorem parts_slash (s : List Char) : parts ('/' :: s) = parts s := by
  have hskip : strtok ('/' :: s) = strtok s := by
    unfold strtok
    rw [List.dropWhile_cons_of_pos (by simp)]
  rw [parts,hskip,parts]

theorem parts_spec (s : List Char) :
    (parts s).filter (· != dot) = components s ∧ (∀ part ∈ parts s, part ≠ [] ∧ '/' ∉ part) ∧
      ((parts s).map fun part => part.length+1).sum ≤ s.length+1 := by
  fun_induction parts s with
  | case1 s hnone => exact ⟨(strtok_none hnone).symm,by simp,Nat.zero_le _⟩
  | case2 s part rest hsome ih =>
    obtain ⟨hne,hslash,hcomp,hlen⟩ := strtok_some hsome
    obtain ⟨hfilter,hparts,hsum⟩ := ih
    refine ⟨?_,?_,?_⟩
    · rw [hcomp,components_word hslash,List.filter_cons,hfilter]
      by_cases hdot : part = dot
      · simp [hdot]
      · simp [hdot,hne]
    · intro p hp
      rcases List.mem_cons.mp hp with rfl | hp
      · exact ⟨hne,hslash⟩
      · exact hparts p hp
    · rw [List.map_cons,List.sum_cons]
      rcases hlen with ⟨rfl,hle⟩ | hle
      · rw [parts_nil]
        simpa using hle
      · omega

end Parts

section Block

/-- The block holds the path of a place, which is kept innermost component first. -/
structure Holds (size : ℕ) (state : List Char × ℕ) (place : List Name) : Prop where
  size : state.1.length = size
  used : state.2 = (render place.reverse).length
  text : render place.reverse++[nul] <+: state.1

theorem backUp_slash {out text : List Char} {name : Name} (hname : '/' ∉ name) (h : text ++ '/' :: name <+: out) {k : ℕ}
    (hk : k ≤ name.length) : backUp out (text.length+1+k) = some (text.length+1) := by
  induction k with
  | zero =>
    have hcell : out[text.length]? = some '/' := by
      rw [getElem?_front h (by simp)]
      simp
    simp [backUp,hcell]
  | succ k ih =>
    have hlt : k < name.length := hk
    have hcell : out[text.length+1+k]? = some name[k] := by
      rw [getElem?_front h (by simp only [List.length_append,List.length_cons]; omega),
        List.getElem?_append_right (by omega),show text.length+1+k-text.length = k+1 by omega,
        List.getElem?_cons_succ,List.getElem?_eq_getElem hlt]
    have hne : name[k] ≠ '/' := fun e => hname (e ▸ List.getElem_mem _)
    rw [← Nat.add_assoc,backUp,if_pos (by omega),hcell]
    simp only [if_pos hne]
    exact ih (by omega)

def Proper (names : List Name) : Prop := ∀ c ∈ names, (c ≠ [] ∧ '/' ∉ c) ∧ c ≠ dot ∧ c ≠ dotdot

theorem Proper.reverse {names : List Name} (h : Proper names) : Proper names.reverse :=
  fun c hc => h c (List.mem_reverse.mp hc)

theorem one_lt_used {size : ℕ} {state : List Char × ℕ} {place : List Name} (h : Holds size state place)
    (hp : Proper place) : 1 < state.2 ↔ place ≠ [] := by
  rw [h.used,one_lt_length_render fun c hc => (hp.reverse c hc).1.1]
  simp

theorem appendPart_dotdot {size : ℕ} {state : List Char × ℕ} {place : List Name} (h : Holds size state place)
    (hp : Proper place) : ∃ state', appendPart state dotdot = some state' ∧ Holds size state' place.tail := by
  obtain ⟨out,length⟩ := state
  have hnot : ¬(dotdot = dot ∨ dotdot = []) := by decide
  have hone := one_lt_used h hp
  simp only [appendPart,if_neg hnot,if_true]
  cases place with
  | nil =>
    refine ⟨(out,length),?_,h⟩
    rw [if_neg fun hlt => hone.mp hlt rfl]
  | cons top place =>
    obtain ⟨⟨htop,hslash⟩,-⟩ := hp top (by simp)
    have htext := h.text
    have hused := h.used
    have hsize := h.size
    rw [List.reverse_cons] at htext hused
    obtain ⟨base,hbase,hfront,hlength⟩ := render_last place.reverse top
    have hback : backUp out length = some (base.length+1) := by
      have hend : length = base.length+1+top.length := by
        rw [show length = (render (place.reverse++[top])).length from hused,hbase,List.length_append,List.length_cons]
        omega
      rw [hend]
      exact backUp_slash hslash (hbase ▸ (List.prefix_append _ _).trans htext) le_rfl
    have hroom : (render place.reverse).length < out.length := by
      have hle := hfront.length_le
      have hle' := htext.length_le
      rw [List.length_append,List.length_singleton] at hle'
      exact (Nat.lt_succ_of_le hle).trans_le hle'
    obtain ⟨out',hstore,hsize',htext'⟩ := store_extends
      (hfront.trans ((List.prefix_append _ _).trans htext)) hroom nul
    refine ⟨(out',(render place.reverse).length),?_,hsize'.trans hsize,rfl,htext'⟩
    rw [if_pos (hone.mpr (by simp)),hback]
    simp only [Option.bind_eq_bind,Option.bind_some,← hlength,hstore]

theorem separate_spec {size : ℕ} {state : List Char × ℕ} {names : List Name} {part : Name}
    (hsize : state.1.length = size) (hused : state.2 = (render names).length) (htext : render names <+: state.1)
    (hnames : ∀ c ∈ names, c ≠ []) (hroom : (render (names++[part])).length < size) :
    ∃ base out, render (names++[part]) = base ++ '/' :: part ∧ separate state = some (out,base.length+1) ∧
      out.length = size ∧ base++['/'] <+: out := by
  have hone := one_lt_length_render hnames
  rw [← hused] at hone
  unfold separate
  by_cases hempty : names = []
  · subst hempty
    rw [if_neg fun hlt => hone.mp hlt rfl]
    exact ⟨[],state.1,render_singleton part,congrArg some (Prod.ext rfl hused),hsize,htext⟩
  · have hconcat := render_concat hempty part
    rw [hconcat,List.length_append,List.length_cons] at hroom
    obtain ⟨out,hstore,hsize',htext'⟩ := store_extends htext (by omega) '/'
    rw [if_pos (hone.mpr hempty),hused,hstore]
    exact ⟨render names,out,hconcat,rfl,hsize'.trans hsize,htext'⟩

theorem appendPart_name {size : ℕ} {state : List Char × ℕ} {place : List Name} (h : Holds size state place)
    (hp : Proper place) {part : Name} (hdot : part ≠ dot) (hdotdot : part ≠ dotdot) (hnil : part ≠ [])
    (hroom : (render (place.reverse++[part])).length < size) :
    ∃ state', appendPart state part = some state' ∧ Holds size state' (part :: place) := by
  have hnot : ¬(part = dot ∨ part = []) := by simp [hdot,hnil]
  obtain ⟨base,out,hbase,hslash,hsize,htext⟩ := separate_spec h.size h.used
    ((List.prefix_append _ _).trans h.text) (fun c hc => (hp.reverse c hc).1.1) hroom
  rw [hbase,List.length_append,List.length_cons] at hroom
  obtain ⟨out₁,hcopy,hsize₁,htext₁⟩ := storeAll_extends htext (l := part)
    (by rw [List.length_append,List.length_singleton]; omega)
  obtain ⟨out₂,hstore,hsize₂,htext₂⟩ := store_extends htext₁
    (by rw [List.length_append,List.length_append,List.length_singleton]; omega) nul
  rw [List.length_append,List.length_singleton] at hcopy
  rw [List.length_append,List.length_append,List.length_singleton] at hstore
  refine ⟨(out₂,base.length+1+part.length),?_,hsize₂.trans (hsize₁.trans hsize),?_,?_⟩
  · simp only [appendPart,if_neg hnot,if_neg hdotdot,hslash,Option.bind_eq_bind,Option.bind_some,hcopy,hstore]
  · rw [List.reverse_cons,hbase,List.length_append,List.length_cons]
    simp only
    omega
  · rw [List.reverse_cons,hbase]
    simpa using htext₂

theorem step_dotdot {place : List Name} (hp : Proper place) : step true place dotdot = place.tail := by
  cases place with
  | nil => rfl
  | cons top place =>
    have htop := (hp top (by simp)).2.2
    simp [step,htop]

theorem step_name (place : List Name) {part : Name} (h : part ≠ dotdot) : step true place part = part :: place := by
  simp [step,h]

theorem Proper.step {place : List Name} (hp : Proper place) {part : Name} (hpart : part ≠ [] ∧ '/' ∉ part)
    (hdot : part ≠ dot) : Proper (step true place part) := by
  by_cases hdotdot : part = dotdot
  · rw [hdotdot,step_dotdot hp]
    exact fun c hc => hp c (List.mem_of_mem_tail hc)
  · rw [step_name place hdotdot]
    intro c hc
    rcases List.mem_cons.mp hc with rfl | hc
    · exact ⟨hpart,hdot,hdotdot⟩
    · exact hp c hc

theorem appendPart_step {size : ℕ} {state : List Char × ℕ} {place : List Name} (h : Holds size state place)
    (hp : Proper place) {part : Name} (hpart : part ≠ [] ∧ '/' ∉ part)
    (hroom : (render (place.reverse++[part])).length < size) :
    ∃ state', appendPart state part = some state' ∧ Holds size state' (walk true place ([part].filter (· != dot))) := by
  by_cases hdot : part = dot
  · refine ⟨state,?_,by simpa [hdot,walk] using h⟩
    simp [appendPart,hdot]
  have hwalk : walk true place ([part].filter (· != dot)) = step true place part := by
    simp [hdot,walk]
  rw [hwalk]
  by_cases hdotdot : part = dotdot
  · rw [hdotdot,step_dotdot hp]
    exact appendPart_dotdot h hp
  · rw [step_name place hdotdot]
    exact appendPart_name h hp hdot hdotdot hpart.1 hroom

/-- How long the components are, each with a slash. -/
def extent (names : List Name) : ℕ := (names.map fun c => c.length+1).sum

theorem length_render (names : List Name) : (render names).length = max 1 (extent names) := by
  induction names using List.reverseRecOn with
  | nil => rfl
  | append_singleton names c ih =>
    have hextent : extent (names++[c]) = extent names+(c.length+1) := by
      simp [extent]
    rw [length_render_concat,hextent]
    split
    · rename_i h
      subst h
      simp only [extent,List.map_nil,List.sum_nil]
      omega
    · rename_i h
      obtain ⟨d,rest,rfl⟩ := List.exists_cons_of_ne_nil h
      have hpos : 1 ≤ extent (d :: rest) := by
        simp only [extent,List.map_cons,List.sum_cons]
        omega
      omega

theorem extent_reverse (names : List Name) : extent names.reverse = extent names := by
  rw [extent,List.map_reverse,List.sum_reverse,extent]

theorem extent_walk {place : List Name} (hp : Proper place) (part : Name) :
    extent (walk true place ([part].filter (· != dot))) ≤ extent place+(part.length+1) := by
  by_cases hdot : part = dot
  · simp [hdot,walk]
  have hwalk : walk true place ([part].filter (· != dot)) = step true place part := by
    simp [hdot,walk]
  rw [hwalk]
  by_cases hdotdot : part = dotdot
  · rw [hdotdot,step_dotdot hp]
    cases place with
    | nil => simp [extent]
    | cons top place =>
      simp only [extent,List.map_cons,List.sum_cons,List.tail_cons]
      omega
  · rw [step_name place hdotdot]
    simp only [extent,List.map_cons,List.sum_cons]
    omega

theorem foldlM_appendPart {size : ℕ} (ps : List Name) (hps : ∀ part ∈ ps, part ≠ [] ∧ '/' ∉ part)
    {state : List Char × ℕ} {place : List Name} (h : Holds size state place) (hp : Proper place)
    (hroom : extent place+extent ps+1 < size) :
    ∃ state', ps.foldlM appendPart state = some state' ∧
      Holds size state' (walk true place (ps.filter (· != dot))) ∧ Proper (walk true place (ps.filter (· != dot))) := by
  induction ps generalizing state place with
  | nil => exact ⟨state,rfl,h,hp⟩
  | cons part ps ih =>
    have hpart := hps part (by simp)
    have hextent : extent (part :: ps) = part.length+1+extent ps := by
      simp [extent]
    have hlength : (render (place.reverse++[part])).length < size := by
      rw [length_render,← extent_reverse]
      simp only [List.reverse_append,List.reverse_reverse,List.reverse_singleton,List.singleton_append]
      simp only [extent,List.map_cons,List.sum_cons] at hroom ⊢
      omega
    obtain ⟨state₁,hround,hholds⟩ := appendPart_step h hp hpart hlength
    have hp₁ : Proper (walk true place ([part].filter (· != dot))) := by
      by_cases hdot : part = dot
      · simpa [hdot,walk] using hp
      · simpa [hdot,walk] using hp.step hpart hdot
    have hgrow := extent_walk hp part
    obtain ⟨state',hrest,hend⟩ := ih (fun p hmem => hps p (by simp [hmem])) hholds hp₁ (by omega)
    refine ⟨state',by rw [List.foldlM_cons,hround]; exact hrest,?_⟩
    rwa [← walk_append,← List.filter_append,List.singleton_append] at hend

end Block

section Canonical

/-- A slash and then, with slashes in between, what the components leave when each double dot takes
the one before it away. -/
def canonical (path : List Char) : List Char := render (walk true [] (components path)).reverse

theorem mem_walk {absolute : Bool} {place names : List Name} {c : Name} (h : c ∈ walk absolute place names) :
    c ∈ place ∨ c ∈ names ∨ c = dotdot := by
  induction names generalizing place with
  | nil => exact Or.inl h
  | cons d names ih =>
    have hstep : ∀ x ∈ step absolute place d, x ∈ place ∨ x = d ∨ x = dotdot := by
      intro x hx
      unfold step at hx
      split at hx
      · split at hx
        · split at hx <;> simp_all
        · split at hx
          · simp only [List.mem_cons] at hx ⊢
            tauto
          · exact Or.inl (List.mem_cons_of_mem _ hx)
      · rcases List.mem_cons.mp hx with rfl | hx
        · exact Or.inr (Or.inl rfl)
        · exact Or.inl hx
    rcases ih h with hc | hc | hc
    · rcases hstep c hc with hc | rfl | hc
      · exact Or.inl hc
      · exact Or.inr (Or.inl (by simp))
      · exact Or.inr (Or.inr hc)
    · exact Or.inr (Or.inl (List.mem_cons_of_mem _ hc))
    · exact Or.inr (Or.inr hc)

theorem mem_intercalate {sep : List Char} {ls : List (List Char)} {l : List Char} (hl : l ∈ ls) {x : Char}
    (hx : x ∈ l) : x ∈ sep.intercalate ls := by
  induction ls with
  | nil => simp at hl
  | cons m ls ih =>
    by_cases hne : ls = []
    · subst hne
      obtain rfl : l = m := by simpa using hl
      rwa [List.intercalate_singleton]
    · rw [List.intercalate_cons_of_ne_nil hne]
      rcases List.mem_cons.mp hl with rfl | hl
      · simp [hx]
      · simp [ih hl]

theorem mem_of_mem_components {path : List Char} {c : Name} (hc : c ∈ components path) {x : Char} (hx : x ∈ c) :
    x ∈ path := by
  have hsplit : ['/'].intercalate (path.splitOn '/') = path := List.intercalate_splitOn '/'
  rw [← hsplit]
  exact mem_intercalate (List.mem_of_mem_filter hc) hx

theorem mem_render {names : List Name} {x : Char} (h : x ∈ render names) : x = '/' ∨ ∃ c ∈ names, x ∈ c := by
  induction names using List.reverseRecOn with
  | nil => exact Or.inl (by simpa [render_nil] using h)
  | append_singleton names c ih =>
    obtain ⟨base,hbase,-,-⟩ := render_last names c
    by_cases hempty : names = []
    · subst hempty
      rw [List.nil_append,render_singleton,List.mem_cons] at h
      exact h.imp_right fun hx => ⟨c,by simp,hx⟩
    · rw [render_concat hempty,List.mem_append,List.mem_cons] at h
      rcases h with h | rfl | h
      · exact (ih h).imp_right fun ⟨d,hd,hx⟩ => ⟨d,by simp [hd],hx⟩
      · exact Or.inl rfl
      · exact Or.inr ⟨c,by simp,h⟩

theorem nul_notMem_canonical {path : List Char} (h : nul ∉ path) : nul ∉ canonical path := by
  intro hmem
  rcases mem_render hmem with hslash | ⟨c,hc,hx⟩
  · exact absurd hslash (by decide)
  rcases mem_walk (List.mem_reverse.mp hc) with hc | hc | rfl
  · simp at hc
  · exact h (mem_of_mem_components hc hx)
  · exact absurd hx (by decide)

theorem proper_walk {place : List Name} (hp : Proper place) {names : List Name}
    (hnames : ∀ c ∈ names, (c ≠ [] ∧ '/' ∉ c) ∧ c ≠ dot) : Proper (walk true place names) := by
  induction names generalizing place with
  | nil => exact hp
  | cons c names ih =>
    obtain ⟨hc,hdot⟩ := hnames c (by simp)
    exact ih (hp.step hc hdot) fun d hd => hnames d (by simp [hd])

theorem components_spec {path : List Char} {c : Name} (hc : c ∈ components path) : (c ≠ [] ∧ '/' ∉ c) ∧ c ≠ dot := by
  rw [← (parts_spec path).1,List.mem_filter] at hc
  exact ⟨(parts_spec path).2.1 c hc.1,by simpa using hc.2⟩

theorem proper_place (path : List Char) : Proper (walk true [] (components path)) :=
  proper_walk (fun c hc => by simp at hc) fun _ hc => components_spec hc

theorem splitOn_render {names : List Name} (h : Proper names) (hne : names ≠ []) :
    (render names).tail.splitOn '/' = names :=
  List.splitOn_intercalate '/' (fun c hc => (h c hc).1.2) hne

theorem components_render {names : List Name} (h : Proper names) : components (render names) = names := by
  by_cases hne : names = []
  · subst hne
    rfl
  · have hsplit := splitOn_render h hne
    have hall : ∀ c ∈ names, (c != [] && c != dot) = true := fun c hc => by
      simp [(h c hc).1.1,(h c hc).2.1]
    rw [render,components_cons_slash,components]
    rw [render,List.tail_cons] at hsplit
    rw [hsplit,List.filter_eq_self.mpr hall]

theorem walk_proper {names : List Name} (h : Proper names) : walk true [] names = names.reverse := by
  rw [walk_names true [] fun hmem => (h _ hmem).2.2 rfl,List.append_nil]

theorem canonical_render {names : List Name} (h : Proper names) : canonical (render names) = render names := by
  rw [canonical,components_render h,walk_proper h,List.reverse_reverse]

theorem canonical_canonical (path : List Char) : canonical (canonical path) = canonical path :=
  canonical_render (proper_place path).reverse

theorem canonical_ends (path : List Char) (h : canonical path ≠ ['/']) : (canonical path).getLast? ≠ some '/' := by
  obtain ⟨names,c,hlast⟩ := (List.eq_nil_or_concat' (walk true [] (components path)).reverse).resolve_left
    fun hnil => h (by rw [canonical,hnil,render_nil])
  have hproper := (proper_place path).reverse c (by rw [hlast]; simp)
  obtain ⟨base,hbase,-,-⟩ := render_last names c
  rw [canonical,hlast,hbase,List.getLast?_append_of_ne_nil _ (by simp)]
  rw [List.getLast?_cons_of_ne_nil hproper.1.1]
  intro hslash
  exact hproper.1.2 (List.mem_of_getLast? hslash)

end Canonical

section Result

/-- On an absolute path `normalize_absolute` runs out of memory, or the block it returns, of two more bytes
than the path, holds the canonical path; no write is outside of the block. -/
theorem normalizeAbsolute_spec (mem : Memory) {path : CString} (habs : path.chars.head? = some '/') :
    (sizeMax-2 < path.chars.length ∧ normalizeAbsolute mem (some path) true = some (.error .enametoolong)) ∨
    (path.chars.length ≤ sizeMax-2 ∧ (mem.strdup = false ∨ mem.malloc (path.chars.length+2) = none) ∧
      normalizeAbsolute mem (some path) true = some (.error .enomem)) ∨
    (path.chars.length ≤ sizeMax-2 ∧ mem.strdup = true ∧ (mem.malloc (path.chars.length+2)).isSome ∧
      ∃ out, normalizeAbsolute mem (some path) true = some (.ok out) ∧ out.length = path.chars.length+2 ∧
        cstring out = canonical path.chars) := by
  unfold normalizeAbsolute
  have hgo : ¬(path.chars.head? ≠ some '/' ∨ true = false) := by simp [habs]
  simp only [if_neg hgo]
  by_cases hlong : sizeMax-2 < path.chars.length
  · rw [if_pos hlong]
    exact Or.inl ⟨hlong,rfl⟩
  rw [if_neg hlong]
  refine Or.inr ?_
  cases hdup : mem.strdup with
  | false => exact Or.inl ⟨not_lt.mp hlong,Or.inl rfl,rfl⟩
  | true =>
    cases hblock : mem.malloc (path.chars.length+2) with
    | none => exact Or.inl ⟨not_lt.mp hlong,Or.inr rfl,rfl⟩
    | some out =>
      refine Or.inr ⟨not_lt.mp hlong,rfl,rfl,?_⟩
      have hsize := mem.size _ _ hblock
      obtain ⟨hfilter,hparts,-⟩ := parts_spec path.chars
      have hextent : extent (parts path.chars) ≤ path.chars.length := by
        obtain ⟨rest,hrest⟩ := List.head?_eq_some_iff.mp habs
        rw [hrest,parts_slash]
        exact (parts_spec rest).2.2
      have hempty : [] <+: out := List.nil_prefix
      obtain ⟨out₁,hstore₁,hsize₁,htext₁⟩ := store_extends hempty (by simp [hsize]) '/'
      obtain ⟨out₂,hstore₂,hsize₂,htext₂⟩ := store_extends htext₁ (by simp [hsize₁,hsize]) nul
      have hholds : Holds (path.chars.length+2) (out₂,1) [] := ⟨hsize₂.trans (hsize₁.trans hsize),rfl,htext₂⟩
      obtain ⟨state,hloop,hend,-⟩ := foldlM_appendPart (parts path.chars) hparts hholds (fun c hc => by simp at hc)
        (by simp only [extent,List.map_nil,List.sum_nil] at hextent ⊢; omega)
      rw [hfilter] at hend
      simp only [List.nil_append,List.length_nil,List.length_singleton] at hstore₁ hstore₂
      refine ⟨state.1,?_,hend.size,upTo_front hend.text (nul_notMem_canonical path.terminated)⟩
      simp only [Option.bind_eq_bind,hstore₁,hstore₂,Option.bind_some,hloop]

/-- Whatever block the allocator gives, `normalize_absolute` writes nothing outside of it and fails only for
want of memory; its result is the canonical path, which has only proper components and ends in a slash
only if it is the root, and which stays the same when it is normalised again. -/
theorem normalize_absolute_canonical (mem : Memory) {path : CString} (habs : path.chars.head? = some '/') :
    ((sizeMax-2 < path.chars.length ∧ normalizeAbsolute mem (some path) true = some (.error .enametoolong)) ∨
      (path.chars.length ≤ sizeMax-2 ∧ (mem.strdup = false ∨ mem.malloc (path.chars.length+2) = none) ∧
        normalizeAbsolute mem (some path) true = some (.error .enomem)) ∨
      (path.chars.length ≤ sizeMax-2 ∧ mem.strdup = true ∧ (mem.malloc (path.chars.length+2)).isSome ∧
        ∃ out, normalizeAbsolute mem (some path) true = some (.ok out) ∧ out.length = path.chars.length+2 ∧
          cstring out = canonical path.chars)) ∧
    (canonical path.chars = ['/'] ∨
      (∀ c ∈ (canonical path.chars).tail.splitOn '/', c ≠ [] ∧ c ≠ dot ∧ c ≠ dotdot) ∧
        (canonical path.chars).getLast? ≠ some '/') ∧
    ∀ (mem' : Memory) (again : CString), again.chars = canonical path.chars →
      ∀ out, normalizeAbsolute mem' (some again) true = some (.ok out) → cstring out = canonical path.chars := by
  refine ⟨normalizeAbsolute_spec mem habs,?_,?_⟩
  · by_cases hroot : canonical path.chars = ['/']
    · exact Or.inl hroot
    · have hproper := (proper_place path.chars).reverse
      have hne : (walk true [] (components path.chars)).reverse ≠ [] := fun hnil =>
        hroot (by rw [canonical,hnil,render_nil])
      refine Or.inr ⟨fun c hc => ?_,canonical_ends _ hroot⟩
      rw [canonical,splitOn_render hproper hne] at hc
      exact ⟨(hproper c hc).1.1,(hproper c hc).2⟩
  · intro mem' again hagain out hout
    have hslash : again.chars.head? = some '/' := by rw [hagain]; rfl
    rcases normalizeAbsolute_spec mem' hslash with ⟨-,herr⟩ | ⟨-,-,herr⟩ | ⟨-,-,-,out',hok,-,hstring⟩
    · exact absurd (hout.symm.trans herr) (by simp)
    · exact absurd (hout.symm.trans herr) (by simp)
    · obtain rfl : out = out' := Except.ok.inj (Option.some.inj (hout.symm.trans hok))
      rw [hstring,hagain,canonical_canonical]

/-- Memory that never runs out. -/
def plenty : Memory where
  strdup := true
  malloc n := some (List.replicate n 'x')
  size n block h := by
    rw [← Option.some.inj h,List.length_replicate]

/-- Up once too often, then down again. -/
def upAndDown : CString := ⟨['/','a','/','.','.','/','.','.','/','/','.','/','b','/'],by decide⟩

theorem normalize_absolute_canonical_upAndDown :
    ∃ out, normalizeAbsolute plenty (some upAndDown) true = some (.ok out) ∧ cstring out = ['/','b'] := by
  have hcanonical : canonical upAndDown.chars = ['/','b'] := by decide +kernel
  rcases (@normalize_absolute_canonical plenty upAndDown rfl).1 with ⟨hlong,-⟩ | ⟨-,hnone,-⟩ | ⟨-,-,-,out,hok,-,hstring⟩
  · exact absurd hlong (by decide)
  · simp [plenty] at hnone
  · exact ⟨out,hok,hstring.trans hcanonical⟩

end Result

end Machismo.Sword3Paths
