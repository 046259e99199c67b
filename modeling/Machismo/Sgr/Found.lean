import Machismo.Sgr.Clear

/-! # The files are found again

What `sgr_repack` opens for an entry and for the manifest, by their places.
-/
namespace Machismo.Sgr
open Machismo.A64 (Byte)
open Machismo.Data
open Machismo.Data.FileTree
open Machismo.Data.MakeWay
open Machismo.Data.Path (Name dot dotdot)
variable {D : Type} {nameMax : ℕ} {t t' : Files D} {cwd d : List Name} {dir : List Char}

section Manifest

theorem way_manifest (hname : IsName (manifestName dir)) : Way dir ([]++[manifestName dir]) := by
  have hpos : bufferSize-2-dir.length ≠ 0 := by
    intro hzero
    exact hname.1 (by rw [manifestName,hzero,List.take_zero])
  refine ⟨List.cons_ne_nil _ _,?_,?_⟩
  · intro a ha
    rw [List.nil_append,List.mem_singleton] at ha
    rw [ha]
    exact fun hmem => absurd ((List.take_subset _ _) hmem) (by decide)
  · have hlen : (manifestName dir).length ≤ bufferSize-2-dir.length := List.length_take_le _ _
    rw [behind,text,List.nil_append,List.intercalate_singleton]
    simp only [List.length_append,List.length_cons]
    unfold bufferSize at hlen hpos
    unfold pathMax
    omega

theorem manifestPath_eq (h : dir.length+1 < pathMax) : manifestPath dir = behind dir ([]++[manifestName dir]) := by
  have hroom : bufferSize-1-dir.length = bufferSize-2-dir.length+1 := by
    unfold pathMax at h
    unfold bufferSize
    omega
  rw [manifestPath,cut,List.take_append,List.take_of_length_le (by unfold pathMax at h; unfold bufferSize; omega),
    hroom,List.take_succ_cons,behind,text,List.nil_append,List.intercalate_singleton,manifestName]

theorem Output.resolvePath_manifest (h : Output nameMax t cwd dir d)
    (hname : IsName (manifestName dir) ∧ (manifestName dir).length ≤ nameMax) :
    resolvePath nameMax t cwd (manifestPath dir) = some (manifestName dir::d) := by
  have hway := way_manifest hname.1
  have hlen := hway.length
  rw [behind,List.length_append,List.length_cons] at hlen
  rw [manifestPath_eq (by omega),h.resolvePath_iff hway,List.nil_append]
  refine ⟨(goTo_name hname.1 d).symm,?_,?_⟩
  · simp only [List.prefix_nil,forall_eq,placeFrom_nil]
    exact h.dirs.self
  · rw [List.forall_mem_singleton]
    exact hname.2

theorem Output.manifest_of_create (h : Output nameMax t cwd dir d) {x : D}
    (hcreate : create nameMax t cwd (manifestPath dir) x = some t') :
    (IsName (manifestName dir) ∧ (manifestName dir).length ≤ nameMax) ∧
      Run [(.put (manifestName dir::d) none,x)] t t' := by
  obtain ⟨r,hr,hfree,rfl⟩ := create_spec hcreate
  by_cases hlen : dir.length+1 < pathMax
  · have hslash : ∀ c ∈ []++[manifestName dir], '/' ∉ c := by
      rw [List.nil_append,List.forall_mem_singleton]
      exact fun hmem => absurd ((List.take_subset _ _) hmem) (by decide)
    have hway : Way dir ([]++[manifestName dir]) := by
      refine ⟨List.cons_ne_nil _ _,hslash,?_⟩
      rw [← manifestPath_eq hlen]
      exact lt_of_not_ge fun hge => by
        rw [resolvePath,if_pos (.inr hge)] at hr
        cases hr
    rw [manifestPath_eq hlen,h.resolvePath_iff hway] at hr
    obtain ⟨rfl,-,hnames⟩ := hr
    have hname : IsName (manifestName dir) := by
      by_contra hname
      rw [placeFrom_concat] at hfree
      exact hfree (h.dirs _ (goTo_suffix hname d))
    refine ⟨⟨hname,hnames _ (by simp)⟩,_,.put ?_,?_⟩
    · rwa [placeFrom_concat,goTo_name hname] at hfree
    · rw [placeFrom_concat,goTo_name hname]
      rfl
  · -- no room for a name: the directory itself would be opened
    have hdir : manifestPath dir = dir := by
      have hshort := h.length_lt
      unfold pathMax at hshort hlen
      rw [manifestPath,cut,List.take_append_of_le_length (by unfold bufferSize; omega)]
      exact List.take_of_length_le (by unfold bufferSize; omega)
    rw [hdir,h.path] at hr
    obtain rfl := Option.some.inj hr
    exact absurd h.dirs.self hfree

end Manifest

section Open
variable {n : List Char} {x : D}

theorem stat_take (t : Files D) (cwd : List Name) (path : List Char) :
    stat nameMax t cwd (path.take (fpathSize-1)) = if path.length < pathMax then stat nameMax t cwd path else none := by
  split_ifs with hlen
  · rw [List.take_of_length_le (by unfold pathMax at hlen; unfold fpathSize; omega)]
  · have hlong : pathMax ≤ (path.take (fpathSize-1)).length := by
      rw [List.length_take]
      unfold pathMax at hlen ⊢
      unfold fpathSize
      omega
    rw [stat,resolvePath,if_pos (.inr hlong),Option.bind_none]

theorem isName_moved (n : List Char) : IsName (encodedName n++movedSuffix) := by
  have hlen : 14 ≤ (encodedName n++movedSuffix).length := by simp [movedSuffix]
  refine ⟨fun h => ?_,fun h => ?_,fun h => ?_⟩ <;> · rw [h] at hlen; exact absurd hlen (by decide)

theorem Output.stat_first (h : Output nameMax t cwd dir d) (n : List Char) :
    (if '/' ∈ encodedName n then none
      else stat nameMax t cwd ((dir ++ '/' :: (encodedName n++movedSuffix)).take (fpathSize-1))) =
        (firstLook nameMax d dir n).bind t := by
  unfold firstLook Bare
  by_cases hbare : '/' ∈ encodedName n
  · rw [if_pos hbare,if_neg (fun hand => hand.1 hbare),Option.bind_none]
  · have hlength : (dir ++ '/' :: (encodedName n++movedSuffix)).length =
        dir.length+1+(encodedName n++movedSuffix).length := by
      simp only [List.length_append,List.length_cons]
      omega
    rw [if_neg hbare,stat_take,hlength]
    by_cases hlen : dir.length+1+(encodedName n++movedSuffix).length < pathMax
    · have hbehind : dir ++ '/' :: (encodedName n++movedSuffix) = behind dir ([]++[encodedName n++movedSuffix]) := by
        rw [behind,text,List.nil_append,List.intercalate_singleton]
      have hway : Way dir ([]++[encodedName n++movedSuffix]) := by
        refine ⟨List.cons_ne_nil _ _,?_,?_⟩
        · rw [List.nil_append,List.forall_mem_singleton,List.mem_append,not_or]
          exact ⟨hbare,slash_notMem_movedSuffix⟩
        · rwa [← hbehind,hlength]
      rw [if_pos hlen,hbehind,stat]
      by_cases hname : (encodedName n++movedSuffix).length ≤ nameMax
      · have hr : resolvePath nameMax t cwd (behind dir ([]++[encodedName n++movedSuffix])) =
            some ((encodedName n++movedSuffix)::d) := by
          rw [h.resolvePath_iff hway,placeFrom_concat,goTo_name (isName_moved n)]
          simp only [List.prefix_nil,forall_eq,placeFrom_nil,List.nil_append,List.forall_mem_singleton]
          exact ⟨trivial,h.dirs.self,hname⟩
        rw [hr,if_pos ⟨hbare,hname,hlen⟩,Option.bind_some]
      · rw [if_neg (fun hand => hname hand.2.1),Option.bind_none]
        cases hr : resolvePath nameMax t cwd (behind dir ([]++[encodedName n++movedSuffix])) with
        | none => rfl
        | some r => exact absurd (((h.resolvePath_iff hway).mp hr).2.2 _ (by simp)) hname
    · rw [if_neg hlen,if_neg (fun hand => hlen hand.2.2),Option.bind_none]

theorem Output.stat_plain (h : Output nameMax t cwd dir d) {node : Node D} :
    stat nameMax t cwd ((dir ++ '/' :: encodedName n).take (fpathSize-1)) = some node ↔
      Fits dir n ∧ (∀ first, first <+: (piecesOf n).dropLast → t (placeFrom d first) = some .dir) ∧
        (∀ c ∈ piecesOf n, c.length ≤ nameMax) ∧ t (target d n) = some node := by
  obtain ⟨pieces,c,hpieces⟩ := exists_piecesOf n
  have hlength : (dir ++ '/' :: encodedName n).length < pathMax ↔ Fits dir n := by
    unfold Fits encodedName
    simp only [List.length_append,List.length_cons]
    omega
  have hbehind : dir ++ '/' :: encodedName n = behind dir (piecesOf n) := by
    rw [behind,text_piecesOf,encodedName]
  rw [stat_take]
  by_cases hfits : Fits dir n
  · have hway : Way dir (pieces++[c]) := way_of_front hfits (hpieces ▸ List.prefix_refl _) (by simp)
    rw [if_pos (hlength.mpr hfits),and_iff_right hfits,hbehind,stat,Option.bind_eq_some_iff,target,hpieces,
      List.dropLast_concat]
    simp only [h.resolvePath_iff hway]
    constructor
    · rintro ⟨r,⟨rfl,hdirs,hnames⟩,hnode⟩
      exact ⟨hdirs,hnames,hnode⟩
    · rintro ⟨hdirs,hnames,hnode⟩
      exact ⟨_,⟨rfl,hdirs,hnames⟩,hnode⟩
  · rw [if_neg (hlength.not.mpr hfits)]
    exact iff_of_false (by simp) fun hand => hfits hand.1

/-- What is opened for an entry is what it is found to be, if its path can be followed where it has to be. -/
theorem Output.openEntry_iff (h : Output nameMax t cwd dir d) : openEntry nameMax cwd t dir n = some x ↔
    (∃ p, firstLook nameMax d dir n = some p ∧ t p = some (.file x)) ∨
      ((∀ p, firstLook nameMax d dir n = some p → t p = none) ∧ Fits dir n ∧
        (∀ first, first <+: (piecesOf n).dropLast → t (placeFrom d first) = some .dir) ∧
          (∀ c ∈ piecesOf n, c.length ≤ nameMax) ∧ t (target d n) = some (.file x)) := by
  have hopen : openEntry nameMax cwd t dir n = fileData (((firstLook nameMax d dir n).bind t).or
      (stat nameMax t cwd ((dir ++ '/' :: encodedName n).take (fpathSize-1)))) := by
    rw [← h.stat_first]
    rfl
  rw [hopen,fileData_eq_some_iff,Option.or_eq_some_iff,h.stat_plain]
  cases firstLook nameMax d dir n with
  | none => simp
  | some p => simp

end Open

end Machismo.Sgr
