import Machismo.Data.FileWalk
import Machismo.Sgr.Extract

/-! # From paths to places

In an output directory that is there, `mkdirs` leaves the directory's own path alone and makes
the directories on the way to a file one after the other; here each of them is known by its
pieces behind the output directory.
-/
namespace Machismo.Sgr
open Machismo.A64 (Byte)
open Machismo.Data
open Machismo.Data.FileTree
open Machismo.Data.Path (Name dot dotdot)
variable {D : Type}

section Text

def text (pieces : List Name) : List Char := ['/'].intercalate pieces

theorem text_splitOn (u : List Char) : text (u.splitOn '/') = u := List.intercalate_splitOn '/'

theorem splitOn_text {pieces : List Name} (hne : pieces ≠ []) (h : ∀ c ∈ pieces, '/' ∉ c) :
    (text pieces).splitOn '/' = pieces := List.splitOn_intercalate '/' h hne

theorem text_concat {first : List Name} (hne : first ≠ []) (last : Name) :
    text (first++[last]) = text first ++ '/' :: last := by
  induction first with
  | nil => exact absurd rfl hne
  | cons a first ih =>
    by_cases hfirst : first = []
    · subst hfirst
      simp [text]
    · have hcons : ∀ l : List Name, l ≠ [] → text (a::l) = a ++ '/' :: text l := fun l hl => by
        rw [text,List.intercalate_cons_of_ne_nil hl,text]
        simp
      rw [List.cons_append,hcons _ (by simp),hcons first hfirst,ih hfirst,List.append_assoc,List.cons_append]

theorem mem_upTo {v u : List Char} (h : v ∈ upTo u) : v = u ∨ ∃ rest, u = v ++ '/' :: rest := by
  induction u generalizing v with
  | nil => exact .inl (by simpa [upTo] using h)
  | cons a u ih =>
    have hmap : v ∈ (upTo u).map (a :: ·) → v = a :: u ∨ ∃ rest, a :: u = v ++ '/' :: rest := by
      intro h
      obtain ⟨v',hv',rfl⟩ := List.mem_map.mp h
      rcases ih hv' with rfl | ⟨rest,rfl⟩
      · exact .inl rfl
      · exact .inr ⟨rest,rfl⟩
    unfold upTo at h
    split_ifs at h with ha
    · rcases List.mem_cons.mp h with rfl | h
      · exact .inr ⟨u,by rw [ha,List.nil_append]⟩
      · exact hmap h
    · exact hmap h

theorem length_le_of_mem_upTo {v u : List Char} (h : v ∈ upTo u) : v.length ≤ u.length := by
  rcases mem_upTo h with rfl | ⟨rest,rfl⟩
  · exact le_rfl
  · simp

theorem upTo_append (x u : List Char) :
    upTo (x ++ '/' :: u) = upTo x ++ (upTo u).map fun v => x ++ '/' :: v := by
  induction x with
  | nil => simp [upTo]
  | cons a x ih =>
    simp only [List.cons_append,upTo,ih]
    split_ifs <;> simp

theorem slashPrefixes_append {x : List Char} (hx : x ≠ []) (u : List Char) :
    slashPrefixes (x ++ '/' :: u) = slashPrefixes x ++ (upTo u).map fun v => x ++ '/' :: v := by
  obtain ⟨a,x,rfl⟩ := List.exists_cons_of_ne_nil hx
  simp only [List.cons_append,slashPrefixes,upTo_append,List.map_append,List.map_map]
  rfl

theorem map_splitOn_upTo (u : List Char) :
    (upTo u).map (fun v => v.splitOn '/') = (u.splitOn '/').inits.tail := by
  induction u with
  | nil => rfl
  | cons a u ih =>
    obtain ⟨b,l,hsplit⟩ := List.exists_cons_of_ne_nil (List.splitOn_ne_nil '/' u)
    rw [hsplit,List.inits_cons,List.tail_cons] at ih
    by_cases ha : a = '/'
    · have hcons : ∀ v : List Char, ('/' :: v).splitOn '/' = [] :: v.splitOn '/' := fun v => by
        simp [List.splitOn_cons_eq_if_modifyHead]
      rw [upTo,if_pos ha,ha,hcons,hsplit,List.map_cons,List.map_map,List.inits_cons,List.tail_cons,List.inits_cons,
        ← ih]
      simp [Function.comp_def,hcons]
    · have hcons : ∀ v : List Char, (a :: v).splitOn '/' = (v.splitOn '/').modifyHead (a :: ·) := fun v => by
        simp [List.splitOn_cons_eq_if_modifyHead,ha]
      have hmap : (upTo u).map ((fun v => v.splitOn '/')∘(a :: ·)) =
          ((upTo u).map fun v => v.splitOn '/').map (List.modifyHead (a :: ·)) := by
        simp [Function.comp_def,hcons]
      rw [upTo,if_neg ha,List.map_map,hmap,ih,hcons,hsplit,List.modifyHead_cons,List.inits_cons,List.tail_cons]
      simp [Function.comp_def]

theorem upTo_eq (u : List Char) : upTo u = (u.splitOn '/').inits.tail.map text := by
  rw [← map_splitOn_upTo,List.map_map]
  exact (List.map_id _).symm.trans (List.map_congr_left fun v _ => (text_splitOn v).symm)

theorem length_text_le {u : List Char} {pieces : List Name} (hp : pieces <+: u.splitOn '/') (hne : pieces ≠ []) :
    (text pieces).length ≤ u.length := by
  refine length_le_of_mem_upTo ?_
  rw [upTo_eq]
  refine List.mem_map_of_mem ?_
  have hmem : pieces ∈ (u.splitOn '/').inits := (List.mem_inits _ _).mpr hp
  obtain ⟨b,l,hsplit⟩ := List.exists_cons_of_ne_nil (List.splitOn_ne_nil '/' u)
  rw [hsplit,List.inits_cons] at hmem ⊢
  exact (List.mem_cons.mp hmem).resolve_left hne

theorem parentOf_eq (x : List Char) {last : List Char} (h : '/' ∉ last) :
    parentOf (x ++ '/' :: last) = some x := by
  have hfront : (x ++ '/' :: last).rdropWhile (fun c => c != '/') = x++['/'] := by
    induction last using List.reverseRecOn with
    | nil => exact List.rdropWhile_concat_neg _ _ _ (by decide)
    | append_singleton last c ih =>
      rw [List.mem_append,not_or,List.mem_singleton] at h
      have hassoc : x ++ '/' :: (last++[c]) = (x ++ '/' :: last)++[c] := by simp
      rw [hassoc,List.rdropWhile_concat_pos _ _ _ (by simpa using Ne.symm h.2),ih h.1]
  rw [parentOf,hfront]
  simp

end Text

structure Output (nameMax : ℕ) (t : Files D) (cwd : List Name) (dir : List Char) (d : List Name) : Prop where
  path : resolvePath nameMax t cwd dir = some d
  dirs : AllDirs t d

section Output
variable {nameMax : ℕ} {t : Files D} {cwd d : List Name} {dir : List Char}

theorem Output.keep (h : Output nameMax t cwd dir d) {t' : Files D} (hkeep : KeepsDirs t t') :
    Output nameMax t' cwd dir d := ⟨hkeep.resolvePath h.path,h.dirs.keep hkeep⟩

theorem Output.ne_nil (h : Output nameMax t cwd dir d) : dir ≠ [] := (resolvePath_iff.mp h.path).1.1

theorem Output.length_lt (h : Output nameMax t cwd dir d) : dir.length < pathMax := (resolvePath_iff.mp h.path).1.2

theorem cut_of_lt {path : List Char} (h : path.length < pathMax) : cut path = path :=
  List.take_of_length_le (by unfold pathMax at h; unfold bufferSize; omega)

theorem makeDir_there {path : List Char} {p : List Name} (hp : resolvePath nameMax t cwd path = some p)
    (hdir : t p = some .dir) : makeDir nameMax cwd t path = t := by
  have hconflict : handleFileDirConflict nameMax cwd t path = t := by
    have hstat : stat nameMax t cwd path = some .dir := by rw [stat,hp,Option.bind_some,hdir]
    rw [handleFileDirConflict,hstat]
  rw [makeDir,hconflict,mkdir_there hp hdir]

theorem Output.slashPrefixes (h : Output nameMax t cwd dir d) {v : List Char} (hv : v ∈ slashPrefixes dir) :
    ∃ p, resolvePath nameMax t cwd v = some p ∧ t p = some .dir := by
  obtain ⟨a,l,hdir⟩ := List.exists_cons_of_ne_nil h.ne_nil
  obtain ⟨v',hv',rfl⟩ : ∃ v', v' ∈ upTo l ∧ a :: v' = v := by
    rw [hdir] at hv
    exact List.mem_map.mp hv
  rcases mem_upTo hv' with rfl | ⟨rest,rfl⟩
  · exact ⟨d,hdir ▸ h.path,h.dirs.self⟩
  · obtain ⟨⟨-,hlen⟩,hresolve⟩ := resolvePath_iff.mp h.path
    have habs : Path.isAbsolute dir = Path.isAbsolute (a :: v') := by
      rw [hdir]
      rfl
    have hcons : dir = (a :: v') ++ '/' :: rest := hdir
    rw [habs,hcons,List.splitOn_append_cons_self,resolve_append] at hresolve
    obtain ⟨p,hp,hrest⟩ := Option.bind_eq_some_iff.mp hresolve
    refine ⟨p,resolvePath_iff.mpr ⟨⟨List.cons_ne_nil _ _,?_⟩,hp⟩,?_⟩
    · rw [hcons,List.length_append] at hlen
      omega
    · obtain ⟨b,more,hsplit⟩ := List.exists_cons_of_ne_nil (List.splitOn_ne_nil '/' rest)
      rw [hsplit,resolve,List.foldlM_cons] at hrest
      obtain ⟨p',hp',-⟩ := Option.bind_eq_some_iff.mp hrest
      split_ifs at hp' with hisDir
      exact isDir_iff.mp hisDir.1

theorem Output.foldl_slashPrefixes (h : Output nameMax t cwd dir d) :
    (Machismo.Sgr.slashPrefixes dir).foldl (makeDir nameMax cwd) t = t := by
  have hfold : ∀ paths : List (List Char), (∀ v ∈ paths, makeDir nameMax cwd t v = t) →
      paths.foldl (makeDir nameMax cwd) t = t := by
    intro paths hpaths
    induction paths with
    | nil => rfl
    | cons v paths ih =>
      obtain ⟨hv,hrest⟩ := List.forall_mem_cons.mp hpaths
      rw [List.foldl_cons,hv,ih hrest]
  refine hfold _ fun v hv => ?_
  obtain ⟨p,hp,hdir⟩ := h.slashPrefixes hv
  exact makeDir_there hp hdir

theorem Output.mkdirs (h : Output nameMax t cwd dir d) : Machismo.Sgr.mkdirs nameMax cwd t dir = t := by
  rw [Machismo.Sgr.mkdirs,cut_of_lt h.length_lt]
  exact h.foldl_slashPrefixes

end Output

section Below
variable (nameMax : ℕ) (cwd : List Name) (dir : List Char)

/-- The path of pieces behind the output directory. -/
def behind (pieces : List Name) : List Char := dir ++ '/' :: text pieces

def makeAt (t : Files D) (pieces : List Name) : Files D := makeDir nameMax cwd t (behind dir pieces)

/-- The directories on the way to the last of some pieces, which is itself made, too. -/
def makeWay (t : Files D) (pieces : List Name) : Files D :=
  pieces.inits.tail.foldl (makeAt nameMax cwd dir) t

theorem makeWay_concat (t : Files D) (pieces : List Name) (c : Name) :
    makeWay nameMax cwd dir t (pieces++[c]) =
      makeAt nameMax cwd dir (makeWay nameMax cwd dir t pieces) (pieces++[c]) := by
  have hinits : (pieces++[c]).inits.tail = pieces.inits.tail++[pieces++[c]] := by
    rw [List.inits_append,List.tail_append_of_ne_nil]
    · rfl
    · exact List.ne_nil_of_length_pos (by rw [List.length_inits]; omega)
  rw [makeWay,hinits,List.foldl_append,makeWay]
  rfl

end Below

section Write
variable {nameMax : ℕ} {t : Files D} {cwd d : List Name} {dir : List Char}

/-- The pieces of the path an entry is written to. -/
def piecesOf (name : List Char) : List Name := (encodeFsName (stripDotdot name)).splitOn '/'

theorem piecesOf_ne_nil (name : List Char) : piecesOf name ≠ [] := List.splitOn_ne_nil _ _

theorem slash_notMem_piecesOf {n : List Char} {c : Name} (h : c ∈ piecesOf n) : '/' ∉ c :=
  not_mem_of_mem_splitOn h

theorem text_piecesOf (name : List Char) : text (piecesOf name) = encodeFsName (stripDotdot name) := text_splitOn _

/-- A name whose path is not cut. -/
def Fits (dir name : List Char) : Prop := dir.length+1+(encodeFsName (stripDotdot name)).length < pathMax

theorem openedPath_fits {name : List Char} (h : Fits dir name) :
    openedPath dir name = behind dir (piecesOf name) := by
  rw [openedPath,behind,text_piecesOf]
  refine cut_of_lt ?_
  unfold Fits at h
  simp only [List.length_append,List.length_cons]
  omega

/-- Pieces whose path is a path of its own, not cut and with the slashes between the pieces only. -/
structure Way (dir : List Char) (pieces : List Name) : Prop where
  ne_nil : pieces ≠ []
  slash : ∀ c ∈ pieces, '/' ∉ c
  length : (behind dir pieces).length < pathMax

theorem way_of_front {name : List Char} (hfits : Fits dir name) {pieces : List Name}
    (hp : pieces <+: piecesOf name) (hne : pieces ≠ []) : Way dir pieces := by
  refine ⟨hne,fun c hc => slash_notMem_piecesOf (hp.subset hc),?_⟩
  have hle := length_text_le hp hne
  simp only [Fits,behind,List.length_append,List.length_cons] at hfits ⊢
  omega

theorem Output.resolvePath_way (h : Output nameMax t cwd dir d) {pieces : List Name} (hway : Way dir pieces) :
    FileTree.resolvePath nameMax t cwd (behind dir pieces) = resolve nameMax t d pieces := by
  have hlen := hway.length
  simp only [behind,List.length_append,List.length_cons] at hlen
  rw [behind,resolvePath_behind h.path (by omega),splitOn_text hway.ne_nil hway.slash]

theorem writeFile_eq (h : Output nameMax t cwd dir d) {name : List Char} (hfits : Fits dir name) (data : D) :
    writeFile nameMax cwd t dir name data =
      (create nameMax (makeWay nameMax cwd dir t (piecesOf name).dropLast) cwd (behind dir (piecesOf name))
        data).getD (makeWay nameMax cwd dir t (piecesOf name).dropLast) := by
  have hmade : makeParents nameMax cwd t (openedPath dir name) =
      makeWay nameMax cwd dir t (piecesOf name).dropLast := by
    rw [openedPath_fits hfits,behind,text_piecesOf]
    obtain ⟨first,last,hpieces⟩ : ∃ first last, piecesOf name = first++[last] :=
      ⟨_,_,(List.dropLast_append_getLast (piecesOf_ne_nil name)).symm⟩
    have hlast : '/' ∉ last := slash_notMem_piecesOf (n := name) (by rw [hpieces]; simp)
    rw [hpieces,List.dropLast_concat]
    have hname : encodeFsName (stripDotdot name) = text (first++[last]) := by rw [← hpieces,text_piecesOf]
    by_cases hfirst : first = []
    · subst hfirst
      have hbare : encodeFsName (stripDotdot name) = last := hname.trans List.intercalate_singleton
      rw [makeParents,hbare,parentOf_eq dir hlast]
      exact h.mkdirs
    · have hparent : dir ++ '/' :: encodeFsName (stripDotdot name) = behind dir first ++ '/' :: last := by
        rw [hname,text_concat hfirst,behind,List.append_assoc,List.cons_append]
      have hlength : (behind dir first).length < pathMax := by
        have hle := congrArg List.length hparent
        simp only [Fits,List.length_append,List.length_cons] at hle hfits ⊢
        omega
      have hslash : ∀ c ∈ first, '/' ∉ c := fun c hc =>
        slash_notMem_piecesOf (n := name) (by rw [hpieces]; exact List.mem_append_left _ hc)
      rw [makeParents,hparent,parentOf_eq _ hlast]
      dsimp only
      rw [mkdirs,cut_of_lt hlength,behind,slashPrefixes_append h.ne_nil,List.foldl_append,h.foldl_slashPrefixes,
        upTo_eq,splitOn_text hfirst hslash,List.map_map,List.foldl_map]
      rfl
  rw [writeFile,hmade,openedPath_fits hfits]

end Write

end Machismo.Sgr
