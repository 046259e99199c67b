import Machismo.Data.FileTree

/-! # Paths behind a directory

The place that pieces name behind a directory.  A path is followed exactly when the places on
the way are directories and the names are short enough.
-/
namespace Machismo.Data.FileTree
open Machismo.Data.Path (Name dot dotdot isAbsolute)
variable {D : Type}

def IsName (c : Name) : Prop := c ≠ [] ∧ c ≠ dot ∧ c ≠ dotdot

instance (c : Name) : Decidable (IsName c) := inferInstanceAs (Decidable (_ ∧ _))

def placeFrom (d pieces : List Name) : List Name := pieces.foldl goTo d

/-- A directory and all that it lies in are there. -/
def AllDirs (t : Files D) (d : List Name) : Prop := ∀ p, p <:+ d → t p = some .dir

section Places
variable {t : Files D} {d pieces p : List Name} {c : Name}

theorem goTo_name (h : IsName c) (p : List Name) : goTo p c = c::p := by
  rw [goTo,if_neg (not_or.mpr ⟨h.1,h.2.1⟩),if_neg h.2.2]

theorem goTo_suffix (h : ¬IsName c) (p : List Name) : goTo p c <:+ p := by
  unfold goTo
  split_ifs with hdot hup
  · exact List.suffix_refl p
  · exact List.tail_suffix p
  · obtain ⟨hempty,hsingle⟩ := not_or.mp hdot
    exact absurd ⟨hempty,hsingle,hup⟩ h

@[simp] theorem placeFrom_nil (d : List Name) : placeFrom d [] = d := rfl

theorem placeFrom_concat (d pieces : List Name) (c : Name) :
    placeFrom d (pieces++[c]) = goTo (placeFrom d pieces) c := List.foldl_concat ..

theorem AllDirs.self (h : AllDirs t d) : t d = some .dir := h d (List.suffix_refl d)

theorem AllDirs.keep {t' : Files D} (h : AllDirs t d) (hkeep : KeepsDirs t t') : AllDirs t' d :=
  fun p hp => hkeep p (h p hp)

theorem AllDirs.placeFrom (h : AllDirs t d) (hway : ∀ first, first <+: pieces → t (placeFrom d first) = some .dir) :
    AllDirs t (FileTree.placeFrom d pieces) := by
  induction pieces using List.reverseRecOn with
  | nil => exact h
  | append_singleton pieces c ih =>
    have hfront : AllDirs t (FileTree.placeFrom d pieces) := ih fun first hfirst =>
      hway first (hfirst.trans (List.prefix_append pieces [c]))
    have hlast := hway _ (List.prefix_refl _)
    rw [placeFrom_concat] at hlast ⊢
    by_cases hc : IsName c
    · rw [goTo_name hc] at hlast ⊢
      intro p hp
      rcases List.suffix_cons_iff.mp hp with rfl | hp
      · exact hlast
      · exact hfront p hp
    · exact fun p hp => hfront p (hp.trans (goTo_suffix hc _))

end Places

section Resolve
variable {nameMax : ℕ} {t : Files D} {d pieces p r : List Name} {c : Name}

theorem resolve_append (nameMax : ℕ) (t : Files D) (d first rest : List Name) :
    resolve nameMax t d (first++rest) = (resolve nameMax t d first).bind fun p => resolve nameMax t p rest :=
  List.foldlM_append

theorem resolve_concat (nameMax : ℕ) (t : Files D) (d pieces : List Name) (c : Name) :
    resolve nameMax t d (pieces++[c]) = (resolve nameMax t d pieces).bind fun p =>
      if isDir t p ∧ c.length ≤ nameMax then some (goTo p c) else none := by
  rw [resolve_append]
  simp [resolve]

theorem resolve_concat_iff : resolve nameMax t d (pieces++[c]) = some r ↔ r = placeFrom d (pieces++[c]) ∧
    (∀ first, first <+: pieces → t (placeFrom d first) = some .dir) ∧ ∀ a ∈ pieces++[c], a.length ≤ nameMax := by
  induction pieces using List.reverseRecOn generalizing r c with
  | nil =>
    have hstep : resolve nameMax t d [c] = if isDir t d ∧ c.length ≤ nameMax then some (goTo d c) else none := by
      simp [resolve]
    have hfronts : (∀ first, first <+: ([] : List Name) → t (placeFrom d first) = some .dir) ↔ isDir t d = true := by
      simp only [List.prefix_nil,forall_eq,placeFrom_nil,isDir_iff]
    rw [List.nil_append,hstep,hfronts,List.forall_mem_singleton]
    constructor
    · intro hr
      split_ifs at hr with hdir
      exact ⟨(Option.some.inj hr).symm,hdir⟩
    · rintro ⟨rfl,hdir⟩
      rw [if_pos hdir]
      rfl
  | append_singleton pieces a ih =>
    have hfronts : (∀ first, first <+: pieces++[a] → t (placeFrom d first) = some .dir) ↔
        (∀ first, first <+: pieces → t (placeFrom d first) = some .dir) ∧
          t (placeFrom d (pieces++[a])) = some .dir := by
      simp only [List.prefix_concat_iff,forall_eq_or_imp]
      exact and_comm
    rw [resolve_concat,hfronts,List.forall_mem_append,List.forall_mem_singleton,placeFrom_concat d (pieces++[a])]
    constructor
    · intro hr
      obtain ⟨r',hr',hgo⟩ := Option.bind_eq_some_iff.mp hr
      obtain ⟨rfl,hdirs,hnames⟩ := ih.mp hr'
      split_ifs at hgo with hdir
      exact ⟨(Option.some.inj hgo).symm,⟨hdirs,isDir_iff.mp hdir.1⟩,hnames,hdir.2⟩
    · rintro ⟨rfl,⟨hdirs,hdir⟩,hnames,hc⟩
      rw [ih.mpr ⟨rfl,hdirs,hnames⟩,Option.bind_some,if_pos ⟨isDir_iff.mpr hdir,hc⟩]

theorem KeepsDirs.resolve {t' : Files D} (h : KeepsDirs t t') {start : List Name}
    (hr : FileTree.resolve nameMax t start pieces = some r) : FileTree.resolve nameMax t' start pieces = some r := by
  induction pieces using List.reverseRecOn generalizing r with
  | nil => exact hr
  | append_singleton pieces c ih =>
    rw [resolve_concat] at hr ⊢
    obtain ⟨r',hr',hgo⟩ := Option.bind_eq_some_iff.mp hr
    split_ifs at hgo with hdir
    rw [ih hr',Option.bind_some,if_pos ⟨isDir_iff.mpr (h _ (isDir_iff.mp hdir.1)),hdir.2⟩]
    exact hgo

end Resolve

section Text
variable {nameMax : ℕ} {t : Files D} {cwd d : List Name} {dir : List Char}

theorem resolvePath_iff : resolvePath nameMax t cwd dir = some d ↔ (dir ≠ [] ∧ dir.length < pathMax) ∧
    resolve nameMax t (if isAbsolute dir then [] else cwd) (dir.splitOn '/') = some d := by
  unfold resolvePath
  by_cases hpath : dir = [] ∨ pathMax ≤ dir.length
  · rw [if_pos hpath]
    refine iff_of_false (by simp) fun h => ?_
    exact hpath.elim h.1.1 (not_le.mpr h.1.2)
  · rw [if_neg hpath]
    obtain ⟨hne,hlen⟩ := not_or.mp hpath
    exact (and_iff_right ⟨hne,not_le.mp hlen⟩).symm

theorem KeepsDirs.resolvePath {t' : Files D} (h : KeepsDirs t t')
    (hd : FileTree.resolvePath nameMax t cwd dir = some d) : FileTree.resolvePath nameMax t' cwd dir = some d := by
  obtain ⟨hpath,hd⟩ := resolvePath_iff.mp hd
  exact resolvePath_iff.mpr ⟨hpath,h.resolve hd⟩

theorem resolvePath_behind (h : resolvePath nameMax t cwd dir = some d) {u : List Char}
    (hlen : dir.length+1+u.length < pathMax) :
    resolvePath nameMax t cwd (dir ++ '/' :: u) = resolve nameMax t d (u.splitOn '/') := by
  obtain ⟨⟨hne,-⟩,hresolve⟩ := resolvePath_iff.mp h
  obtain ⟨a,l,hdir⟩ := List.exists_cons_of_ne_nil hne
  have habs : isAbsolute (dir ++ '/' :: u) = isAbsolute dir := by
    rw [hdir]
    rfl
  have hshort : ¬(dir ++ '/' :: u = [] ∨ pathMax ≤ (dir ++ '/' :: u).length) := by
    simp only [List.append_eq_nil_iff,reduceCtorEq,and_false,false_or,List.length_append,List.length_cons]
    omega
  rw [resolvePath,if_neg hshort,habs,List.splitOn_append_cons_self,resolve_append,hresolve]
  rfl

end Text

end Machismo.Data.FileTree
