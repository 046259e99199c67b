import Machismo.Data.MakeWay
import Machismo.Sgr.Places

/-! # One directory on the way, one file

What `mkdirs` does at one path, given what is at its place: nothing, make a directory, or
rename the file in the way and then make the directory.
-/
namespace Machismo.Sgr
open Machismo.A64 (Byte)
open Machismo.Data
open Machismo.Data.FileTree
open Machismo.Data.Path (Name dot dotdot)
variable {D : Type} {nameMax : ℕ} {t : Files D} {cwd d : List Name} {dir : List Char}

theorem keepsDirs_handleFileDirConflict (t : Files D) (path : List Char) :
    KeepsDirs t (handleFileDirConflict nameMax cwd t path) := by
  unfold handleFileDirConflict
  split
  · exact keepsDirs_rename t cwd path _
  · exact .refl t

theorem keepsDirs_makeDir (t : Files D) (path : List Char) : KeepsDirs t (makeDir nameMax cwd t path) :=
  (keepsDirs_handleFileDirConflict t path).trans (keepsDirs_mkdir _ cwd path)

theorem filesFrom_makeDir (new : D → Prop) (t : Files D) (path : List Char) :
    FilesFrom new t (makeDir nameMax cwd t path) := by
  refine FilesFrom.trans ?_ (filesFrom_mkdir new _ cwd path)
  unfold handleFileDirConflict
  split
  · exact filesFrom_rename new t cwd path _
  · exact .refl new t

theorem keepsDirs_makeWay (t : Files D) (pieces : List Name) : KeepsDirs t (makeWay nameMax cwd dir t pieces) :=
  keepsDirs_foldl (fun t _ => keepsDirs_makeDir t _) _ t

theorem filesFrom_makeWay (new : D → Prop) (t : Files D) (pieces : List Name) :
    FilesFrom new t (makeWay nameMax cwd dir t pieces) :=
  filesFrom_foldl (fun t _ _ => filesFrom_makeDir new t _) t

theorem keepsDirs_writeFile (t : Files D) (dir name : List Char) (data : D) :
    KeepsDirs t (writeFile nameMax cwd t dir name data) := by
  have hmade : KeepsDirs t (makeParents nameMax cwd t (openedPath dir name)) := by
    unfold makeParents mkdirs
    split
    · exact keepsDirs_foldl keepsDirs_makeDir _ t
    · exact .refl t
  rw [writeFile]
  cases hcreate : create nameMax (makeParents nameMax cwd t (openedPath dir name)) cwd (openedPath dir name) data with
  | none => exact hmade
  | some t' => exact hmade.trans (keepsDirs_create hcreate)

theorem filesFrom_writeFile (t : Files D) (dir name : List Char) (data : D) :
    FilesFrom (· = data) t (writeFile nameMax cwd t dir name data) := by
  have hmade : FilesFrom (· = data) t (makeParents nameMax cwd t (openedPath dir name)) := by
    unfold makeParents mkdirs
    split
    · exact filesFrom_foldl (fun t path _ => filesFrom_makeDir _ t path) t
    · exact .refl _ t
  rw [writeFile]
  cases hcreate : create nameMax (makeParents nameMax cwd t (openedPath dir name)) cwd (openedPath dir name) data with
  | none => exact hmade
  | some t' => exact hmade.trans (filesFrom_create hcreate)

theorem keepsDirs_writeFiles (t : Files D) (files : List (List Char × D)) :
    KeepsDirs t (files.foldl (fun t f => writeFile nameMax cwd t dir f.1 f.2) t) := by
  have hstep : ∀ (t : Files D) (f : List Char × D), KeepsDirs t (writeFile nameMax cwd t dir f.1 f.2) :=
    fun t f => keepsDirs_writeFile t dir f.1 f.2
  exact keepsDirs_foldl hstep files t

theorem filesFrom_writeFiles (t : Files D) (files : List (List Char × D)) :
    FilesFrom (· ∈ files.map Prod.snd) t (files.foldl (fun t f => writeFile nameMax cwd t dir f.1 f.2) t) := by
  have hstep : ∀ (t : Files D), ∀ f ∈ files,
      FilesFrom (· ∈ files.map Prod.snd) t (writeFile nameMax cwd t dir f.1 f.2) := by
    intro t f hf r data hr
    rcases filesFrom_writeFile t dir f.1 f.2 r data hr with rfl | hthere
    · exact .inl (List.mem_map_of_mem hf)
    · exact .inr hthere
  exact filesFrom_foldl hstep t

section MakeAt
variable {pieces : List Name} {c : Name} {r : List Name}

theorem isName_append {x : List Char} (hc : IsName c) (hx : x <+: movedSuffix) : IsName (c++x) := by
  obtain ⟨hempty,hdot,hdotdot⟩ := hc
  have hfirst : x = [] ∨ ∃ rest, x = '.' :: rest := by
    cases x with
    | nil => exact .inl rfl
    | cons a rest =>
      obtain ⟨more,hmore⟩ := hx
      obtain ⟨rfl,-⟩ := List.cons.inj hmore
      exact .inr ⟨rest,rfl⟩
  rcases hfirst with rfl | ⟨rest,rfl⟩
  · rw [List.append_nil]
    exact ⟨hempty,hdot,hdotdot⟩
  · refine ⟨by simp,fun h => ?_,fun h => ?_⟩
    · obtain ⟨a,l,rfl⟩ := List.exists_cons_of_ne_nil hempty
      simp [dot] at h
    · obtain ⟨a,l,rfl⟩ := List.exists_cons_of_ne_nil hempty
      obtain ⟨rfl,hrest⟩ := List.cons.inj h
      cases l with
      | nil => exact hdot rfl
      | cons b l => simp at hrest

theorem slash_notMem_movedSuffix : '/' ∉ movedSuffix := by decide

theorem behind_append (dir : List Char) (pieces : List Name) (c : Name) (x : List Char) :
    behind dir (pieces++[c])++x = behind dir (pieces++[c++x]) := by
  have htext : text (pieces++[c])++x = text (pieces++[c++x]) := by
    by_cases hpieces : pieces = []
    · subst hpieces
      simp [text]
    · rw [text_concat hpieces,text_concat hpieces,List.append_assoc,List.cons_append]
  rw [behind,behind,List.append_assoc,List.cons_append,htext]

/-- As much of the suffix as the buffer has room for. -/
def suffixBehind (dir : List Char) (pieces : List Name) : List Char :=
  movedSuffix.take (bufferSize-1-(behind dir pieces).length)

/-- Where a file goes that is in the way of a directory; its own place if the file system takes no such name. -/
def asideOf (nameMax : ℕ) (d : List Name) (dir : List Char) (pieces : List Name) (c : Name) : List Name :=
  let moved := c++suffixBehind dir (pieces++[c])
  if IsName c ∧ moved.length ≤ nameMax then moved::placeFrom d pieces else placeFrom d (pieces++[c])

theorem Output.resolvePath_iff (h : Output nameMax t cwd dir d) (hway : Way dir (pieces++[c])) :
    resolvePath nameMax t cwd (behind dir (pieces++[c])) = some r ↔ r = placeFrom d (pieces++[c]) ∧
      (∀ first, first <+: pieces → t (placeFrom d first) = some .dir) ∧ ∀ a ∈ pieces++[c], a.length ≤ nameMax := by
  rw [h.resolvePath_way hway,resolve_concat_iff]

theorem way_moved (hway : Way dir (pieces++[c])) :
    cut (behind dir (pieces++[c])++movedSuffix) = behind dir (pieces++[c++suffixBehind dir (pieces++[c])]) ∧
      Way dir (pieces++[c++suffixBehind dir (pieces++[c])]) := by
  have hcut : cut (behind dir (pieces++[c])++movedSuffix) =
      behind dir (pieces++[c++suffixBehind dir (pieces++[c])]) := by
    have hlen := hway.length
    unfold pathMax at hlen
    rw [cut,List.take_append,List.take_of_length_le (by unfold bufferSize; omega),← behind_append,suffixBehind]
  refine ⟨hcut,by simp,?_,?_⟩
  · intro a ha
    rcases List.mem_append.mp ha with ha | ha
    · exact hway.slash a (List.mem_append_left _ ha)
    · rw [List.mem_singleton.mp ha,List.mem_append,not_or]
      exact ⟨hway.slash c (by simp),fun hmem => slash_notMem_movedSuffix ((List.take_subset _ _) hmem)⟩
  · rw [← hcut,cut,List.length_take]
    unfold bufferSize pathMax
    omega

variable {q : List Name}

theorem makeAt_there (h : resolvePath nameMax t cwd (behind dir pieces) = some q) (hdir : t q = some .dir) :
    makeAt nameMax cwd dir t pieces = t := makeDir_there h hdir

theorem makeAt_new (h : resolvePath nameMax t cwd (behind dir pieces) = some q) (hnew : t q = none) :
    makeAt nameMax cwd dir t pieces = Function.update t q (some .dir) := by
  have hconflict : handleFileDirConflict nameMax cwd t (behind dir pieces) = t := by
    have hstat : stat nameMax t cwd (behind dir pieces) = none := by rw [stat,h,Option.bind_some,hnew]
    rw [handleFileDirConflict,hstat]
  rw [makeAt,makeDir,hconflict,mkdir_new h hnew]

theorem makeAt_lost (h : resolvePath nameMax t cwd (behind dir pieces) = none) :
    makeAt nameMax cwd dir t pieces = t := by
  have hstat : stat nameMax t cwd (behind dir pieces) = none := by rw [stat,h,Option.bind_none]
  rw [makeAt,makeDir,handleFileDirConflict,hstat]
  simp [mkdir,h]

theorem makeAt_moved (h : resolvePath nameMax t cwd (behind dir pieces) = some q) {data : D}
    (hfile : t q = some (.file data))
    (hr : resolvePath nameMax t cwd (cut (behind dir pieces++movedSuffix)) = some r) (hfree : t r ≠ some .dir)
    (hne : r ≠ q) : makeAt nameMax cwd dir t pieces =
      Function.update (Function.update t r (some (.file data))) q (some .dir) := by
  have hconflict : handleFileDirConflict nameMax cwd t (behind dir pieces) =
      Function.update (Function.update t q none) r (some (.file data)) := by
    have hstat : stat nameMax t cwd (behind dir pieces) = some (.file data) := by
      rw [stat,h,Option.bind_some,hfile]
    rw [handleFileDirConflict,hstat]
    exact rename_eq h hfile hr hfree
  have hkeep : KeepsDirs t (handleFileDirConflict nameMax cwd t (behind dir pieces)) :=
    keepsDirs_handleFileDirConflict t _
  rw [hconflict] at hkeep
  have hnew : Function.update (Function.update t q none) r (some (.file data)) q = none := by
    rw [Function.update_of_ne hne.symm,Function.update_self]
  rw [makeAt,makeDir,hconflict,mkdir_new (hkeep.resolvePath h) hnew,Function.update_comm hne.symm,
    Function.update_idem]

theorem makeAt_kept (h : resolvePath nameMax t cwd (behind dir pieces) = some q) {data : D}
    (hfile : t q = some (.file data))
    (hsame : rename nameMax t cwd (behind dir pieces) (cut (behind dir pieces++movedSuffix)) = t) :
    makeAt nameMax cwd dir t pieces = t := by
  have hstat : stat nameMax t cwd (behind dir pieces) = some (.file data) := by
    rw [stat,h,Option.bind_some,hfile]
  rw [makeAt,makeDir,handleFileDirConflict,hstat]
  dsimp only
  rw [hsame,mkdir_there h hfile]

open MakeWay (Does)

section Aside
variable (h : Output nameMax t cwd dir d) (hway : Way dir (pieces++[c])) (hc : IsName c)
  (hr : resolvePath nameMax t cwd (behind dir (pieces++[c])) = some q)
include h hway hc hr

theorem Output.resolvePath_aside :
    resolvePath nameMax t cwd (cut (behind dir (pieces++[c])++movedSuffix)) = some r ↔
      asideOf nameMax d dir pieces c = r ∧ (c++suffixBehind dir (pieces++[c])).length ≤ nameMax := by
  obtain ⟨-,hdirs,hnames⟩ := (h.resolvePath_iff hway).mp hr
  obtain ⟨hcut,hmoved⟩ := way_moved hway
  have hname := isName_append hc (List.take_prefix (bufferSize-1-(behind dir (pieces++[c])).length) movedSuffix)
  rw [hcut,h.resolvePath_iff hmoved,placeFrom_concat,suffixBehind,goTo_name hname,← suffixBehind]
  simp only [asideOf,and_iff_right hc]
  constructor
  · rintro ⟨rfl,-,hlen⟩
    have hlast := hlen (c++suffixBehind dir (pieces++[c])) (by simp)
    rw [if_pos hlast]
    exact ⟨rfl,hlast⟩
  · rintro ⟨rfl,hlast⟩
    rw [if_pos hlast]
    refine ⟨rfl,hdirs,fun a ha => ?_⟩
    rcases List.mem_append.mp ha with ha | ha
    · exact hnames a (List.mem_append_left _ ha)
    · rwa [List.mem_singleton.mp ha]

theorem Output.makeAt_blocked {data : D} (hfile : t q = some (.file data))
    (hblocked : asideOf nameMax d dir pieces c = q ∨ t (asideOf nameMax d dir pieces c) = some .dir) :
    makeAt nameMax cwd dir t (pieces++[c]) = t := by
  refine makeAt_kept hr hfile ?_
  rcases rename_cases t cwd (behind dir (pieces++[c])) (cut (behind dir (pieces++[c])++movedSuffix)) with
    hsame | ⟨p,r,data',hp,hr',hdata,hfree,heq⟩
  · exact hsame
  · obtain rfl : q = p := Option.some.inj (hr.symm.trans hp)
    obtain ⟨rfl,-⟩ := (h.resolvePath_aside hway hc hr).mp hr'
    rcases hblocked with hplace | hdir
    · rw [heq,hplace,Function.update_idem,← hdata,Function.update_eq_self]
    · exact absurd hdir hfree

end Aside

/-- A place on the way that can be reached is made a directory, or a file stays in the way. -/
theorem Output.makeAt_iff (h : Output nameMax t cwd dir d) (hway : Way dir (pieces++[c])) (x : D)
    (hr : resolvePath nameMax t cwd (behind dir (pieces++[c])) = some q) {t' : Files D} :
    Does (.make q (asideOf nameMax d dir pieces c),x) t t' ↔
      makeAt nameMax cwd dir t (pieces++[c]) = t' ∧ t' q = some .dir := by
  cases hq : t q with
  | none =>
    rw [makeAt_new hr hq]
    constructor
    · intro hdoes
      cases hdoes with
      | there hdir => simp [hq] at hdir
      | new _ => exact ⟨rfl,Function.update_self ..⟩
      | aside hfile _ _ => simp [hq] at hfile
    · rintro ⟨rfl,-⟩
      exact .new hq
  | some node =>
    cases node with
    | dir =>
      rw [makeAt_there hr hq]
      constructor
      · intro hdoes
        cases hdoes with
        | there hdir => exact ⟨rfl,hdir⟩
        | new hnone => simp [hq] at hnone
        | aside hfile _ _ => simp [hq] at hfile
      · rintro ⟨rfl,-⟩
        exact .there hq
    | file data =>
      obtain ⟨hplace,hdirs,-⟩ := (h.resolvePath_iff hway).mp hr
      have hc : IsName c := by
        by_contra hc
        rw [placeFrom_concat] at hplace
        rw [h.dirs.placeFrom hdirs q (hplace ▸ goTo_suffix hc _)] at hq
        cases hq
      by_cases hblocked : asideOf nameMax d dir pieces c = q ∨ t (asideOf nameMax d dir pieces c) = some .dir
      · rw [h.makeAt_blocked hway hc hr hq hblocked]
        refine iff_of_false (fun hdoes => ?_) ?_
        · cases hdoes with
          | there hdir => simp [hq] at hdir
          | new hnone => simp [hq] at hnone
          | aside _ hne hfree => exact hblocked.elim hne hfree
        · rintro ⟨rfl,hdir⟩
          simp [hq] at hdir
      · obtain ⟨hne,hfree⟩ := not_or.mp hblocked
        have hlen : (c++suffixBehind dir (pieces++[c])).length ≤ nameMax := by
          by_contra hlen
          refine hne ?_
          rw [asideOf,if_neg (fun hand => hlen hand.2),hplace]
        rw [makeAt_moved hr hq ((h.resolvePath_aside hway hc hr).mpr ⟨rfl,hlen⟩) hfree hne]
        constructor
        · intro hdoes
          cases hdoes with
          | there hdir => simp [hq] at hdir
          | new hnone => simp [hq] at hnone
          | aside hfile _ _ =>
            rw [hq] at hfile
            cases hfile
            exact ⟨rfl,Function.update_self ..⟩
        · rintro ⟨rfl,-⟩
          exact .aside hq hne hfree

end MakeAt

end Machismo.Sgr
