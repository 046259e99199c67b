import Machismo.Sword3.NormalizeAbsolute

/-! # Joining a root and a relative path

Both scans of `join_relative` see the same pieces, the components and what counts for
nothing.  The block starts with the root and every round puts one more component behind
it, so the result is the root's own path with the components of the relative one below.
-/
namespace Machismo.Sword3Paths
open Machismo.Data Machismo.Data.TextBuffer
open Machismo.Data.Path

section Pieces

/-- What is a component of a path. -/
def counts (c : Name) : Bool := c != [] && c != dot

/-- The pieces between slashes; what is neither empty nor a single dot is a component. -/
theorem pieces_spec (s : List Char) :
    (pieces s).filter counts = components s ∧ (∀ piece ∈ pieces s, '/' ∉ piece) ∧
      extent (pieces s) ≤ s.length+1 := by
  fun_induction pieces s with
  | case1 => exact ⟨rfl,by simp,by simp [extent]⟩
  | case2 s hne ih =>
    obtain ⟨hfilter,hpieces,hextent⟩ := ih
    obtain ⟨hslash,hfirst⟩ := first_slash s
    refine ⟨?_,?_,?_⟩
    · rw [components_first s,components_word hslash,List.filter_cons,hfilter]
      by_cases h0 : s.takeWhile (· != '/') = []
      · simp [counts,h0]
      · by_cases h1 : s.takeWhile (· != '/') = dot
        · simp [counts,h1]
        · simp [counts,h0,h1]
    · intro piece hpiece
      rcases List.mem_cons.mp hpiece with rfl | hpiece
      · exact hslash
      · exact hpieces piece hpiece
    · have hcons : extent (s.takeWhile (· != '/') :: pieces ((s.dropWhile (· != '/')).drop 1)) =
          (s.takeWhile (· != '/')).length+1+extent (pieces ((s.dropWhile (· != '/')).drop 1)) := by
        simp [extent]
      rw [hcons]
      rcases hfirst with ⟨hd,hs⟩ | hs
      · have hlen := congrArg List.length hs
        rw [hd,List.drop_nil]
        have hnone : extent (pieces []) = 0 := by simp [pieces,extent]
        omega
      · have hlen := congrArg List.length hs
        rw [List.length_append,List.length_cons] at hlen
        omega

theorem dotdot_mem_pieces (s : List Char) : dotdot ∈ pieces s ↔ dotdot ∈ components s := by
  rw [← (pieces_spec s).1,List.mem_filter]
  exact ⟨fun h => ⟨h,by decide⟩,fun h => h.1⟩

end Pieces

section Loop

/-- The block holds the path of these names, with no null character yet. -/
structure Joined (size : ℕ) (state : List Char × ℕ) (names : List Name) : Prop where
  size : state.1.length = size
  used : state.2 = (render names).length
  text : render names <+: state.1

theorem joinPiece_step {size : ℕ} {state : List Char × ℕ} {names : List Name} (h : Joined size state names)
    (hnames : ∀ c ∈ names, c ≠ []) (piece : Name) (hroom : (render (names++[piece])).length < size) :
    ∃ state', joinPiece state piece = some state' ∧
      Joined size state' (names++[piece].filter counts) := by
  by_cases hskip : piece ≠ [] ∧ piece ≠ dot
  · obtain ⟨base,out,hbase,hslash,hsize,htext⟩ := separate_spec h.size h.used h.text hnames hroom
    have hkeep : ([piece].filter counts) = [piece] := by simp [counts,hskip]
    rw [hkeep]
    rw [hbase,List.length_append,List.length_cons] at hroom
    obtain ⟨out',hcopy,hsize',htext'⟩ := storeAll_extends htext (l := piece)
      (by rw [List.length_append,List.length_singleton]; omega)
    rw [List.length_append,List.length_singleton] at hcopy
    refine ⟨(out',base.length+1+piece.length),?_,hsize'.trans hsize,?_,?_⟩
    · simp only [joinPiece,if_pos hskip,hslash,Option.bind_eq_bind,Option.bind_some,hcopy]
    · rw [hbase,List.length_append,List.length_cons]
      simp only
      omega
    · rw [hbase]
      simpa using htext'
  · have hdrop : ([piece].filter counts) = [] := by
      simpa [counts] using fun h0 => not_and.mp hskip h0
    rw [hdrop,List.append_nil]
    refine ⟨state,?_,h⟩
    simp only [joinPiece,if_neg hskip]

theorem extent_append (a b : List Name) : extent (a++b) = extent a+extent b := by
  simp [extent]

theorem extent_filter_le (p : Name → Bool) (names : List Name) : extent (names.filter p) ≤ extent names :=
  (List.filter_sublist.map _).sum_le_sum fun _ _ => Nat.zero_le _

theorem foldlM_joinPiece {size : ℕ} (ps : List Name) {state : List Char × ℕ} {names : List Name}
    (h : Joined size state names) (hnames : ∀ c ∈ names, c ≠ []) (hroom : extent names+extent ps < size)
    (hone : 1 < size) :
    ∃ state', ps.foldlM joinPiece state = some state' ∧
      Joined size state' (names++ps.filter counts) := by
  induction ps generalizing state names with
  | nil => exact ⟨state,rfl,by simpa using h⟩
  | cons piece ps ih =>
    have hcons : extent (piece :: ps) = piece.length+1+extent ps := by
      simp [extent]
    have hlength : (render (names++[piece])).length < size := by
      rw [length_render,extent_append]
      simp only [extent,List.map_cons,List.map_nil,List.sum_cons,List.sum_nil] at hroom ⊢
      omega
    obtain ⟨state₁,hround,hjoined⟩ := joinPiece_step h hnames piece hlength
    have hkept : extent ([piece].filter counts) ≤ piece.length+1 := by
      by_cases hskip : counts piece = true
      · simp [hskip,extent]
      · simp [hskip,extent]
    have hnames₁ : ∀ c ∈ names++[piece].filter counts, c ≠ [] := by
      intro c hc
      rcases List.mem_append.mp hc with hc | hc
      · exact hnames c hc
      · have hkeep := (List.mem_filter.mp hc).2
        simp only [counts,Bool.and_eq_true,bne_iff_ne] at hkeep
        exact hkeep.1
    obtain ⟨state',hrest,hend⟩ := ih hjoined hnames₁ (by rw [extent_append]; omega)
    refine ⟨state',by rw [List.foldlM_cons,hround]; exact hrest,?_⟩
    rwa [List.append_assoc,← List.filter_append,List.singleton_append] at hend

end Loop

section Result

theorem exists_names {root : List Char} (hroot : canonical root = root) : ∃ names, Proper names ∧ root = render names :=
  ⟨_,(proper_place root).reverse,hroot.symm⟩

theorem canonical_below {root : List Char} {names : List Name} (hp : Proper names) (hroot : root = render names)
    {relative : List Char} (hup : dotdot ∉ components relative) :
    canonical (root ++ '/' :: relative) = render (names++components relative) := by
  rw [canonical,components_slash,hroot,components_render hp,walk_append,walk_proper hp,walk_names true _ hup]
  simp

theorem place_render {names : List Name} (hp : Proper names) : place (render names) = (true,names.reverse) := by
  rw [place,components_render hp]
  have habs : isAbsolute (render names) = true := rfl
  rw [habs,walk_proper hp]

theorem proper_append {names : List Name} (hp : Proper names) {relative : List Char}
    (hup : dotdot ∉ components relative) : Proper (names++components relative) := by
  intro c hc
  rcases List.mem_append.mp hc with hc | hc
  · exact hp c hc
  · have hspec := components_spec hc
    exact ⟨hspec.1,hspec.2,fun e => hup (e ▸ hc)⟩

/-- Memory permits a join: the sizes do not wrap and there is a block. -/
def Permits (mem : Memory) (root relative : CString) : Prop :=
  relative.chars.length ≤ sizeMax-2 ∧ root.chars.length ≤ sizeMax-relative.chars.length-2 ∧
    (mem.malloc (root.chars.length+relative.chars.length+2)).isSome

theorem joined_block {root relative : CString} (hroot : canonical root.chars = root.chars)
    (hup : dotdot ∉ components relative.chars) {joined : List Char}
    (hsize : joined.length = root.chars.length+relative.chars.length+2) :
    ∃ out₁ state out₂, storeAll joined 0 root.chars = some out₁ ∧
      (pieces relative.chars).foldlM joinPiece (out₁,root.chars.length) = some state ∧
      store state.1 state.2 nul = some out₂ ∧ out₂.length = root.chars.length+relative.chars.length+2 ∧
      cstring out₂ = canonical (root.chars ++ '/' :: relative.chars) := by
  obtain ⟨hfilter,-,hextent⟩ := pieces_spec relative.chars
  obtain ⟨names,hp,hrender⟩ := exists_names hroot
  have hroom : extent names ≤ root.chars.length ∧ 1 ≤ root.chars.length := by
    rw [hrender,length_render]
    omega
  have hempty : [] <+: joined := List.nil_prefix
  obtain ⟨out₁,hcopy,hsize₁,htext₁⟩ := storeAll_extends hempty (l := root.chars)
    (by simp [hsize]; omega)
  have hstart : Joined (root.chars.length+relative.chars.length+2) (out₁,root.chars.length) names :=
    ⟨hsize₁.trans hsize,congrArg List.length hrender,hrender ▸ htext₁⟩
  obtain ⟨state,hloop,hend⟩ := foldlM_joinPiece (pieces relative.chars) hstart (fun c hc => (hp c hc).1.1)
    (by omega) (by omega)
  rw [hfilter] at hend
  have hlast : (render (names++components relative.chars)).length < state.1.length := by
    have hcomponents : extent (components relative.chars) ≤ extent (pieces relative.chars) := by
      rw [← hfilter]
      exact extent_filter_le counts _
    rw [hend.size,length_render,extent_append]
    omega
  obtain ⟨out₂,hstore,hsize₂,htext₂⟩ := store_extends hend.text hlast nul
  have hnul : nul ∉ root.chars ++ '/' :: relative.chars := by
    rw [List.mem_append,List.mem_cons]
    rintro (h | h | h)
    · exact root.terminated h
    · exact absurd h (by decide)
    · exact relative.terminated h
  rw [← canonical_below hp hrender hup] at htext₂
  rw [← hend.used] at hstore
  exact ⟨out₁,state,out₂,hcopy,hloop,hstore,hsize₂.trans hend.size,upTo_front htext₂ (nul_notMem_canonical hnul)⟩

/-- Below a normal root: an error where the relative path starts at the root or climbs, or where memory does not
permit the join, and otherwise the block with the joined path. -/
theorem joinRelative_spec (mem : Memory) {root : CString} (hroot : canonical root.chars = root.chars)
    (relative : CString) :
    (∃ e, joinRelative mem (some root) (some relative) true = some (.error e) ∧
      (relative.chars.head? = some '/' ∨ dotdot ∈ components relative.chars ∨ ¬Permits mem root relative)) ∨
    (relative.chars.head? ≠ some '/' ∧ dotdot ∉ components relative.chars ∧ Permits mem root relative ∧
      ∃ out, joinRelative mem (some root) (some relative) true = some (.ok out) ∧
        out.length = root.chars.length+relative.chars.length+2 ∧
        cstring out = canonical (root.chars ++ '/' :: relative.chars)) := by
  unfold joinRelative
  dsimp only
  by_cases hslash : relative.chars.head? = some '/'
  · exact Or.inl ⟨_,by rw [if_pos (Or.inr hslash)],Or.inl hslash⟩
  rw [if_neg (by simp [hslash])]
  by_cases hup : dotdot ∈ components relative.chars
  · exact Or.inl ⟨_,by rw [if_pos (List.contains_iff_mem.mpr ((dotdot_mem_pieces _).mpr hup))],Or.inr (Or.inl hup)⟩
  rw [if_neg fun h => hup ((dotdot_mem_pieces _).mp (List.contains_iff_mem.mp h))]
  by_cases hlong : sizeMax-2 < relative.chars.length ∨ sizeMax-relative.chars.length-2 < root.chars.length
  · refine Or.inl ⟨_,by rw [if_pos hlong],Or.inr (Or.inr fun hpermits => ?_)⟩
    rcases hlong with h | h
    · exact absurd hpermits.1 h.not_ge
    · exact absurd hpermits.2.1 h.not_ge
  rw [if_neg hlong]
  cases hblock : mem.malloc (root.chars.length+relative.chars.length+2) with
  | none =>
    refine Or.inl ⟨_,rfl,Or.inr (Or.inr fun hpermits => ?_)⟩
    exact absurd hpermits.2.2 (by simp [hblock])
  | some joined =>
    refine Or.inr ⟨by simpa using hslash,hup,⟨by omega,by omega,by simp [hblock]⟩,?_⟩
    obtain ⟨out₁,state,out₂,hcopy,hloop,hstore,hsize,hstring⟩ := joined_block hroot hup (mem.size _ _ hblock)
    refine ⟨out₂,?_,hsize,hstring⟩
    simp only [Option.bind_eq_bind,hcopy,Option.bind_some,hloop,hstore]

theorem inside_canonical_below {root relative : List Char} (hroot : canonical root = root)
    (hup : dotdot ∉ components relative) : Inside (place root) (place (canonical (root ++ '/' :: relative))) := by
  obtain ⟨names,hp,hrender⟩ := exists_names hroot
  rw [canonical_below hp hrender hup,place_render (proper_append hp hup),hrender,place_render hp]
  refine ⟨rfl,(components relative).reverse,?_,?_⟩
  · simp
  · simpa using hup

theorem joinRelative_ok {mem : Memory} {root : CString} (hroot : canonical root.chars = root.chars)
    {relative : CString} {out : List Char}
    (h : joinRelative mem (some root) (some relative) true = some (.ok out)) :
    out.length = root.chars.length+relative.chars.length+2 ∧
      cstring out = canonical (root.chars ++ '/' :: relative.chars) ∧
      Inside (place root.chars) (place (cstring out)) := by
  rcases joinRelative_spec mem hroot relative with ⟨e,he,-⟩ | ⟨-,hup,-,out',hok,hsize,hstring⟩
  · exact absurd (h.symm.trans he) (by simp)
  obtain rfl : out = out' := Except.ok.inj (Option.some.inj (h.symm.trans hok))
  refine ⟨hsize,hstring,?_⟩
  rw [hstring]
  exact inside_canonical_below hroot hup

theorem directories_inside {mem : Memory} {paths : Directories} {relative : CString} {out : List Char} :
    (∀ directory, paths.dataDir = some directory → canonical directory.chars = directory.chars →
      data mem (some paths) (some relative) true = some (.ok out) →
        Inside (place directory.chars) (place (cstring out))) ∧
    ∀ bundle, paths.bundleDir = some bundle → canonical bundle.chars = bundle.chars →
      resource mem (some paths) (some relative) true = some (.ok out) →
        Inside (place bundle.chars) (place (cstring out)) := by
  obtain ⟨bundleDir,dataDir⟩ := paths
  constructor
  · rintro directory rfl hroot h
    exact (joinRelative_ok hroot h).2.2
  · rintro bundle rfl hroot h
    exact (joinRelative_ok hroot h).2.2

/-- Below a normal root `join_relative` succeeds, memory permitting, exactly where the relative path neither
starts with a slash nor has a double dot.  It writes nothing outside of its block, what it returns is
what normalising the two with a slash in between returns, and that is the root or lies beneath it. -/
theorem join_relative_inside (mem : Memory) {root : CString} (hroot : canonical root.chars = root.chars)
    (relative : CString) :
    joinRelative mem (some root) (some relative) true ≠ none ∧
    ((∃ out, joinRelative mem (some root) (some relative) true = some (.ok out)) ↔
      Permits mem root relative ∧ relative.chars.head? ≠ some '/' ∧ dotdot ∉ components relative.chars) ∧
    ∀ out, joinRelative mem (some root) (some relative) true = some (.ok out) →
      out.length = root.chars.length+relative.chars.length+2 ∧
      cstring out = canonical (root.chars ++ '/' :: relative.chars) ∧
      (∀ (mem' : Memory) (path : CString), path.chars = root.chars ++ '/' :: relative.chars →
        ∀ out', normalizeAbsolute mem' (some path) true = some (.ok out') → cstring out' = cstring out) ∧
      Inside (place root.chars) (place (cstring out)) := by
  have hspec := joinRelative_spec mem hroot relative
  refine ⟨?_,⟨?_,?_⟩,?_⟩
  · rcases hspec with ⟨e,he,-⟩ | ⟨-,-,-,out,hok,-⟩
    · simp [he]
    · simp [hok]
  · rintro ⟨out,hout⟩
    rcases hspec with ⟨e,he,-⟩ | ⟨hslash,hup,hpermits,-⟩
    · exact absurd (hout.symm.trans he) (by simp)
    · exact ⟨hpermits,hslash,hup⟩
  · rintro ⟨hpermits,hslash,hup⟩
    rcases hspec with ⟨e,-,h | h | h⟩ | ⟨-,-,-,out,hok,-⟩
    · exact absurd h hslash
    · exact absurd h hup
    · exact absurd hpermits h
    · exact ⟨out,hok⟩
  · intro out hout
    obtain ⟨hsize,hstring,hinside⟩ := joinRelative_ok hroot hout
    refine ⟨hsize,hstring,?_,hinside⟩
    intro mem' path hpath out' hout'
    have habs : path.chars.head? = some '/' := by
      rw [hpath,← hroot]
      rfl
    rcases normalizeAbsolute_spec mem' habs with ⟨-,he⟩ | ⟨-,-,he⟩ | ⟨-,-,-,out₂,hok',-,hstring'⟩
    · exact absurd (hout'.symm.trans he) (by simp)
    · exact absurd (hout'.symm.trans he) (by simp)
    · obtain rfl : out' = out₂ := Except.ok.inj (Option.some.inj (hout'.symm.trans hok'))
      rw [hstring',hstring,hpath]

def rootDirectory : CString := ⟨['/'],by decide⟩

def saveFile : CString := ⟨['.','/','s','/','/','1'],by decide⟩

theorem join_relative_inside_root :
    (∃ out, joinRelative plenty (some rootDirectory) (some saveFile) true = some (.ok out)) ∧
      ∀ out, joinRelative plenty (some rootDirectory) (some saveFile) true = some (.ok out) →
        cstring out = ['/','s','/','1'] := by
  have h := @join_relative_inside plenty rootDirectory (by decide +kernel) saveFile
  refine ⟨h.2.1.mpr ⟨⟨by decide,by decide,rfl⟩,by decide,by decide +kernel⟩,fun out hout => ?_⟩
  rw [(h.2.2 out hout).2.1]
  decide +kernel

end Result

end Machismo.Sword3Paths
