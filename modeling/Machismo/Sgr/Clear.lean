import Machismo.Sgr.Steps

/-! # Names that are found again

Extraction as work place by place, the manifest first, and names for which that work is
orderly.  What an entry's path does is that work, as long as every directory on the way
can be made.
-/
namespace Machismo.Sgr
open Machismo.A64 (Byte)
open Machismo.Data
open Machismo.Data.FileTree
open Machismo.Data.MakeWay
open Machismo.Data.Path (Name dot dotdot)
variable {D : Type}

section Names

def encodedName (name : List Char) : List Char := encodeFsName (stripDotdot name)

def Bare (name : List Char) : Prop := '/' ∉ encodedName name

instance (name : List Char) : Decidable (Bare name) := inferInstanceAs (Decidable (_ ∉ _))

/-- Nothing is in the output directory. -/
def EmptyDir (t : Files D) (d : List Name) : Prop := ∀ p, p ≠ [] → t (p++d) = none

variable (nameMax : ℕ) (d : List Name) (dir : List Char)

/-- The directories made on the way, behind those in front. -/
def stopsFrom (front : List Name) : List Name → List (Work (List Name))
  | [] => []
  | c::rest =>
    .make (placeFrom d (front++[c])) (asideOf nameMax d dir front c)::stopsFrom (front++[c]) rest

/-- The place of an entry's file. -/
def target (name : List Char) : List Name := placeFrom d (piecesOf name)

/-- Where `sgr_repack` looks first for a name without a slash, if there can be such a file. -/
def firstLook (name : List Char) : Option (List Name) :=
  if Bare name ∧ (encodedName name++movedSuffix).length ≤ nameMax ∧
      dir.length+1+(encodedName name++movedSuffix).length < pathMax then
    some ((encodedName name++movedSuffix)::d)
  else none

def entryWork (name : List Char) : List (Work (List Name)) :=
  stopsFrom nameMax d dir [] (piecesOf name).dropLast++[.put (target d name) (firstLook nameMax d dir name)]

/-- As much of the manifest's name as the buffer has room for. -/
def manifestName : Name := manifestFile.take (bufferSize-2-dir.length)

def extractWork (names : List (List Char)) : List (Work (List Name)) :=
  .put (manifestName dir::d) none::names.flatMap (entryWork nameMax d dir)

/-- Names whose files are all found again: paths that fit and end in a name, and orderly work. -/
structure Clear (t : Files D) (names : List (List Char)) : Prop where
  manifest : IsName (manifestName dir) ∧ (manifestName dir).length ≤ nameMax
  fits : ∀ n ∈ names, Fits dir n
  components : ∀ n ∈ names, (∀ c ∈ piecesOf n, c.length ≤ nameMax) ∧ ∀ c ∈ (piecesOf n).getLast?, IsName c
  orderly : Orderly (dirsOf t) (filesOf t) (extractWork nameMax d dir names)

end Names

section Work
variable {nameMax : ℕ} {d : List Name} {dir : List Char}

theorem stopsFrom_concat (front rest : List Name) (c : Name) : stopsFrom nameMax d dir front (rest++[c]) =
    stopsFrom nameMax d dir front rest++
      [.make (placeFrom d (front++rest++[c])) (asideOf nameMax d dir (front++rest) c)] := by
  induction rest generalizing front with
  | nil => simp [stopsFrom]
  | cons a rest ih => simp [stopsFrom,ih]

theorem mem_stopsFrom {front rest : List Name} {w : Work (List Name)} (h : w ∈ stopsFrom nameMax d dir front rest) :
    ∃ pieces c, w = .make (placeFrom d (pieces++[c])) (asideOf nameMax d dir pieces c) := by
  induction rest generalizing front with
  | nil => exact absurd h List.not_mem_nil
  | cons c rest ih =>
    rcases List.mem_cons.mp h with rfl | h
    · exact ⟨front,c,rfl⟩
    · exact ih h

theorem border_movedSuffix {e c : List Char} {k : ℕ} (h : c++movedSuffix.take k = e++movedSuffix) :
    c = e++movedSuffix ∨ c = e := by
  have hborder : ∀ k < 15, movedSuffix.take k <:+ movedSuffix → k = 0 ∨ k = 14 := by decide
  have hlen : movedSuffix.length = 14 := rfl
  have hsuffix : movedSuffix.take (min k 14) <:+ movedSuffix := by
    have htake : movedSuffix.take (min k 14) = movedSuffix.take k := by
      rw [← hlen,← List.take_eq_take_min]
    rw [htake]
    exact List.suffix_of_suffix_length_le ⟨c,h⟩ (List.suffix_append e movedSuffix)
      (List.take_prefix k _).length_le
  rcases hborder (min k 14) (by omega) hsuffix with hk | hk
  · obtain rfl : k = 0 := by omega
    rw [List.take_zero,List.append_nil] at h
    exact .inl h
  · rw [List.take_of_length_le (by omega)] at h
    exact .inr (List.append_cancel_right h)

theorem mem_extractWork {names : List (List Char)} {w : Work (List Name)}
    (h : w ∈ extractWork nameMax d dir names) : w = .put (manifestName dir::d) none ∨
      (∃ n ∈ names, w = .put (target d n) (firstLook nameMax d dir n)) ∨
      ∃ pieces c, w = .make (placeFrom d (pieces++[c])) (asideOf nameMax d dir pieces c) := by
  rcases List.mem_cons.mp h with rfl | h
  · exact .inl rfl
  · obtain ⟨n,hn,hw⟩ := List.mem_flatMap.mp h
    rcases List.mem_append.mp hw with hw | hw
    · exact .inr (.inr (mem_stopsFrom hw))
    · exact .inr (.inl ⟨n,hn,List.mem_singleton.mp hw⟩)

theorem firstLook_eq_some {n : List Char} {p : List Name} (h : firstLook nameMax d dir n = some p) :
    Bare n ∧ (encodedName n++movedSuffix).length ≤ nameMax ∧
      dir.length+1+(encodedName n++movedSuffix).length < pathMax ∧ p = (encodedName n++movedSuffix)::d := by
  unfold firstLook at h
  split_ifs at h with hbare
  exact ⟨hbare.1,hbare.2.1,hbare.2.2,(Option.some.inj h).symm⟩

theorem piecesOf_bare {n : List Char} (h : Bare n) : piecesOf n = [encodedName n] := List.splitOn_eq_singleton h

/-- In an empty directory, nothing but an entry's own file goes where `sgr_repack` looks first for it. -/
theorem apart_extractWork {t : Files D} (hempty : EmptyDir t d) (names : List (List Char)) :
    Apart (dirsOf t) (filesOf t) (extractWork nameMax d dir names) := by
  have hput : ∀ {p l}, .put p (some l) ∈ extractWork nameMax d dir names →
      ∃ n, p = goTo d (encodedName n) ∧ l = (encodedName n++movedSuffix)::d := by
    intro p l hmem
    rcases mem_extractWork hmem with heq | ⟨n,-,heq⟩ | ⟨pieces,c,heq⟩
    · cases heq
    · obtain ⟨rfl,hl⟩ := Work.put.inj heq
      obtain ⟨hbare,-,-,rfl⟩ := firstLook_eq_some hl.symm
      exact ⟨n,by rw [target,piecesOf_bare hbare]; rfl,rfl⟩
    · cases heq
  refine ⟨fun p l hmem => ?_,fun p l hmem => ?_,fun p l hmem q hmake => ?_⟩
  · obtain ⟨n,rfl,rfl⟩ := hput hmem
    intro heq
    by_cases hname : IsName (encodedName n)
    · rw [goTo_name hname] at heq
      have hlen := congrArg List.length (List.cons.inj heq).1
      simp [movedSuffix] at hlen
    · have hlen := (goTo_suffix hname d).length_le
      rw [← heq,List.length_cons] at hlen
      omega
  · obtain ⟨n,-,rfl⟩ := hput hmem
    have hnone : t ((encodedName n++movedSuffix)::d) = none := hempty [_] (List.cons_ne_nil _ _)
    refine ⟨fun hdir => ?_,fun ⟨x,hx⟩ => ?_⟩
    · cases hnone.symm.trans hdir
    · cases hnone.symm.trans hx
  · obtain ⟨n,rfl,rfl⟩ := hput hmem
    rcases mem_extractWork hmake with heq | ⟨m,-,heq⟩ | ⟨pieces,c,heq⟩
    · cases heq
    · cases heq
    · obtain ⟨rfl,haside⟩ := Work.make.inj heq
      rw [asideOf] at haside
      split_ifs at haside with hname
      · obtain ⟨hc,hplace⟩ := List.cons.inj haside
        rw [placeFrom_concat,← hplace,goTo_name hname.1]
        rcases border_movedSuffix hc.symm with rfl | rfl
        · exact .inl rfl
        · exact .inr (goTo_name hname.1 d).symm
      · exact .inl haside.symm

end Work

section Write
variable {nameMax : ℕ} {t t' : Files D} {cwd d : List Name} {dir : List Char} {n : List Char}

theorem Output.makeWay_iff (h : Output nameMax t cwd dir d) (hfits : Fits dir n) (x : D) {pieces : List Name}
    (hp : pieces <+: piecesOf n) (hnames : ∀ c ∈ pieces, c.length ≤ nameMax) :
    Run ((stopsFrom nameMax d dir [] pieces).map fun w => (w,x)) t t' ↔
      makeWay nameMax cwd dir t pieces = t' ∧ ∀ first, first <+: pieces → t' (placeFrom d first) = some .dir := by
  induction pieces using List.reverseRecOn generalizing t' with
  | nil =>
    simp only [List.prefix_nil,forall_eq,placeFrom_nil]
    refine ⟨?_,fun heq => heq.1⟩
    rintro rfl
    exact ⟨rfl,h.dirs.self⟩
  | append_singleton pieces c ih =>
    have hfront : pieces <+: piecesOf n := (List.prefix_append _ _).trans hp
    have hway : Way dir (pieces++[c]) := way_of_front hfits hp (by simp)
    have hout : Output nameMax (makeWay nameMax cwd dir t pieces) cwd dir d := h.keep (keepsDirs_makeWay t pieces)
    have hnames' : ∀ a ∈ pieces, a.length ≤ nameMax := fun a ha => hnames a (List.mem_append_left _ ha)
    rw [stopsFrom_concat,List.map_append,List.map_singleton,run_concat,List.nil_append,makeWay_concat]
    simp only [ih hfront hnames',and_assoc,exists_eq_left',List.prefix_concat_iff,forall_eq_or_imp]
    constructor
    · rintro ⟨hdirs,hdoes⟩
      have hr := (hout.resolvePath_iff hway).mpr ⟨rfl,hdirs,hnames⟩
      obtain ⟨rfl,hlast⟩ := (hout.makeAt_iff hway x hr).mp hdoes
      exact ⟨rfl,hlast,fun first hfirst => keepsDirs_makeDir _ _ _ (hdirs first hfirst)⟩
    · rintro ⟨rfl,hlast,hdirs⟩
      cases hr : resolvePath nameMax (makeWay nameMax cwd dir t pieces) cwd (behind dir (pieces++[c])) with
      | none =>
        -- nothing can be made below, so the way was there
        rw [makeAt_lost hr] at hdirs
        rw [(hout.resolvePath_iff hway).mpr ⟨rfl,hdirs,hnames⟩] at hr
        cases hr
      | some q =>
        obtain ⟨rfl,hdirs',-⟩ := (hout.resolvePath_iff hway).mp hr
        exact ⟨hdirs',(hout.makeAt_iff hway x hr).mpr ⟨rfl,hlast⟩⟩

theorem exists_piecesOf (n : List Char) : ∃ pieces c, piecesOf n = pieces++[c] :=
  ⟨_,_,(List.dropLast_append_getLast (piecesOf_ne_nil n)).symm⟩

theorem Output.writeFile_of_run (h : Output nameMax t cwd dir d) (hfits : Fits dir n)
    (hnames : ∀ c ∈ piecesOf n, c.length ≤ nameMax) {x : D}
    (hrun : Run ((entryWork nameMax d dir n).map fun w => (w,x)) t t') : writeFile nameMax cwd t dir n x = t' := by
  obtain ⟨pieces,c,hpieces⟩ := exists_piecesOf n
  have hfront : pieces <+: piecesOf n := hpieces ▸ List.prefix_append _ _
  rw [entryWork,hpieces,List.dropLast_concat,List.map_append,List.map_singleton,run_concat] at hrun
  obtain ⟨m,hway,hput⟩ := hrun
  obtain ⟨rfl,hdirs⟩ := (h.makeWay_iff hfits x hfront fun c hc => hnames c (hfront.subset hc)).mp hway
  have hout : Output nameMax (makeWay nameMax cwd dir t pieces) cwd dir d := h.keep (keepsDirs_makeWay t pieces)
  have hr : resolvePath nameMax (makeWay nameMax cwd dir t pieces) cwd (behind dir (piecesOf n)) =
      some (target d n) := by
    rw [target]
    rw [hpieces] at hnames ⊢
    have hway : Way dir (pieces++[c]) := way_of_front hfits (hpieces ▸ List.prefix_refl _) (by simp)
    exact (hout.resolvePath_iff hway).mpr ⟨rfl,hdirs,hnames⟩
  cases hput with
  | put hfree => rw [writeFile_eq h hfits,hpieces,List.dropLast_concat,← hpieces,create_eq hr hfree,Option.getD_some]

theorem Output.run_of_writeFile (h : Output nameMax t cwd dir d) (hfits : Fits dir n) {x : D} (hfresh : ¬Holds t x)
    (hx : Holds (writeFile nameMax cwd t dir n x) x) :
    Run ((entryWork nameMax d dir n).map fun w => (w,x)) t (writeFile nameMax cwd t dir n x) ∧
      (∀ c ∈ piecesOf n, c.length ≤ nameMax) ∧ ∀ c ∈ (piecesOf n).getLast?, IsName c := by
  obtain ⟨pieces,c,hpieces⟩ := exists_piecesOf n
  have hfront : pieces <+: piecesOf n := hpieces ▸ List.prefix_append _ _
  have hout : Output nameMax (makeWay nameMax cwd dir t pieces) cwd dir d := h.keep (keepsDirs_makeWay t pieces)
  rw [writeFile_eq h hfits] at hx ⊢
  rw [hpieces,List.dropLast_concat] at hx ⊢
  cases hcreate : create nameMax (makeWay nameMax cwd dir t pieces) cwd (behind dir (pieces++[c])) x with
  | none =>
    rw [hcreate,Option.getD_none] at hx
    obtain ⟨r,hr⟩ := hx
    rcases filesFrom_makeWay (fun _ => False) t pieces r x hr with hfalse | hthere
    · exact hfalse.elim
    · exact absurd hthere hfresh
  | some t' =>
    obtain ⟨q,hq,hfree,rfl⟩ := create_spec hcreate
    have hway : Way dir (pieces++[c]) := way_of_front hfits (hpieces ▸ List.prefix_refl _) (by simp)
    obtain ⟨rfl,hdirs,hnames⟩ := (hout.resolvePath_iff hway).mp hq
    refine ⟨?_,hnames,?_⟩
    · rw [entryWork,hpieces,List.dropLast_concat,List.map_append,List.map_singleton,run_concat]
      refine ⟨_,(h.makeWay_iff hfits x hfront fun c hc => hnames c (by simp [hc])).mpr ⟨rfl,hdirs⟩,?_⟩
      rw [target,hpieces]
      exact .put hfree
    · intro a ha
      rw [List.getLast?_concat] at ha
      obtain rfl := Option.some.inj ha
      by_contra hc
      rw [placeFrom_concat] at hfree
      exact hfree (hout.dirs.placeFrom hdirs _ (goTo_suffix hc _))

end Write

end Machismo.Sgr
