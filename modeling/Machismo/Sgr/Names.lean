import Machismo.Data.Path

/-! # Where an entry is written

`sgr_extract` makes a path of the output directory and an entry's name: leading `../`
is taken off, characters some file systems reject are spelled out, and both the spelled
name and the path are cut to their buffers.  Strings are lists of characters, one for each
byte.
-/
namespace Machismo.Sgr
open Machismo.Data.Path

/-- The loop that strips leading `../`; `disk_name` in the other tool. -/
def stripDotdot : List Char → List Char
  | '.' :: '.' :: '/' :: rest => stripDotdot rest
  | name => name

/-- The words of `encode_fs_name`. -/
def spelled : Char → List Char
  | '*' => ['_','_','S','G','R','_','S','T','A','R','_','_']
  | '?' => ['_','_','S','G','R','_','Q','M','A','R','K','_','_']
  | ':' => ['_','_','S','G','R','_','C','O','L','O','N','_','_']
  | '<' => ['_','_','S','G','R','_','L','T','_','_']
  | '>' => ['_','_','S','G','R','_','G','T','_','_']
  | '|' => ['_','_','S','G','R','_','P','I','P','E','_','_']
  | '"' => ['_','_','S','G','R','_','Q','U','O','T','_','_']
  | c => [c]

/-- The loop of `encode_fs_name`, with `j` characters written already. -/
def encodeFrom (outsz j : ℕ) : List Char → List Char
  | [] => []
  | c :: rest => if j+12 < outsz then spelled c++encodeFrom outsz (j+(spelled c).length) rest else []

def bufferSize : ℕ := 4096

/-- `encode_fs_name` into a buffer of 4096 bytes. -/
def encodeFsName (name : List Char) : List Char := encodeFrom bufferSize 0 name

/-- `snprintf` into a buffer of 4096 bytes. -/
def cut (text : List Char) : List Char := text.take (bufferSize-1)

/-- The path `write_file` opens. -/
def openedPath (dir name : List Char) : List Char := cut (dir ++ '/' :: encodeFsName (stripDotdot name))

def movedSuffix : List Char := ['.','_','_','s','g','r','_','e','n','t','r','y','_','_']

/-- What of the name there is room for behind the directory. -/
def writtenName (dir name : List Char) : List Char :=
  (encodeFsName (stripDotdot name)).take (bufferSize-2-dir.length)

theorem openedPath_eq {dir : List Char} (h : dir.length ≤ bufferSize-2) (name : List Char) :
    openedPath dir name = dir ++ '/' :: writtenName dir name := by
  have hroom : bufferSize-1-dir.length = bufferSize-2-dir.length+1 := by
    unfold bufferSize at h ⊢
    omega
  rw [openedPath,cut,List.take_append,List.take_of_length_le (by omega),hroom,List.take_succ_cons,writtenName]

theorem openedPath_of_long {dir : List Char} (h : bufferSize-2 < dir.length) (name : List Char) :
    openedPath dir name = dir.take (bufferSize-1) := by
  rw [openedPath,cut,List.take_append_of_le_length (by omega)]

theorem place_append {dir : List Char} (hdir : dir ≠ []) (rest : List Char) :
    place (dir ++ '/' :: rest) = ((place dir).1,walk (place dir).1 (place dir).2 (components rest)) := by
  have habs : isAbsolute (dir ++ '/' :: rest) = isAbsolute dir := by
    obtain ⟨c,l,rfl⟩ := List.exists_cons_of_ne_nil hdir
    rfl
  simp only [place,habs,components_slash,walk_append]

/-- The name, resolved on its own, climbs over no more than the directory's own names, and names those it
climbed over again.  A directory that leaves no room for a name must have its first bytes inside it. -/
def Contained (dir name : List Char) : Prop :=
  if dir.length ≤ bufferSize-2 then
    dir ≠ [] ∧
      (isAbsolute dir = true ∨ (relative (components (writtenName dir name))).1 ≤
        (place dir).2.countP fun c => c != dotdot) ∧
      (place dir).2.take (relative (components (writtenName dir name))).1 <:+
        (relative (components (writtenName dir name))).2
  else Inside (place dir) (place (dir.take (bufferSize-1)))

/-- Read component by component, the name never has more double dots than names before them. -/
def NeverClimbs (names : List Name) : Prop := ∀ first, first <+: names → (relative first).1 = 0

theorem inside_of_climb_zero {absolute : Bool} {p : List Name} {names : List Name} (h : (relative names).1 = 0) :
    Inside (absolute,p) (absolute,walk absolute p names) := by
  rw [walk_eq,h]
  exact ⟨rfl,(relative names).2,rfl,dotdot_notMem_relative names⟩

/-- A path behind the directory resolves to a place in it. -/
def Behind (dir u : List Char) : Prop :=
  (isAbsolute dir = true ∨ (relative (components u)).1 ≤ (place dir).2.countP fun c => c != dotdot) ∧
    (place dir).2.take (relative (components u)).1 <:+ (relative (components u)).2

theorem inside_behind_iff {dir : List Char} (hdir : dir ≠ []) (u : List Char) :
    Inside (place dir) (place (dir ++ '/' :: u)) ↔ Behind dir u := by
  rw [place_append hdir]
  exact inside_walk_iff (walk_nil_normal _ _) _

/-- Behind the directory `write_file` touches the path it opens, the directories made on the way, and the places to
which files go that stand there. -/
inductive Touches (dir name : List Char) : List Char → Prop where
  | opened : Touches dir name (openedPath dir name)
  | made {u rest : List Char} (h : writtenName dir name = u ++ '/' :: rest) : Touches dir name (dir ++ '/' :: u)
  | moved {front c rest : List Char} (h : writtenName dir name = front ++ c ++ '/' :: rest)
      (hfront : front = [] ∨ ∃ q, front = q++['/']) (hc : '/' ∉ c ∧ c ≠ [] ∧ c ≠ dot ∧ c ≠ dotdot) :
      Touches dir name (cut (dir ++ '/' :: (front ++ c) ++ movedSuffix))

theorem components_name {c : List Char} (hslash : '/' ∉ c) (hempty : c ≠ []) (hdot : c ≠ dot) : components c = [c] := by
  rw [components,List.splitOn_eq_singleton hslash]
  simp [hempty,hdot]

theorem inside_cons {d : Place} {p : List Name} {absolute : Bool} (h : Inside d (absolute,p)) {c : Name}
    (hc : c ≠ dotdot) : Inside d (absolute,c :: p) := by
  obtain ⟨habs,inner,hinner,hfree⟩ := h
  refine ⟨habs,c :: inner,?_,?_⟩
  · dsimp only at hinner ⊢
    rw [hinner,List.cons_append]
  · rw [List.mem_cons,not_or]
    exact ⟨Ne.symm hc,hfree⟩

theorem name_moved {c : List Char} (hc : '/' ∉ c ∧ c ≠ [] ∧ c ≠ dot ∧ c ≠ dotdot) (k : ℕ) :
    '/' ∉ c ++ movedSuffix.take k ∧ c ++ movedSuffix.take k ≠ [] ∧ c ++ movedSuffix.take k ≠ dot ∧
      c ++ movedSuffix.take k ≠ dotdot := by
  obtain ⟨hslash,hempty,hdot,hup⟩ := hc
  have hsuffix : '/' ∉ movedSuffix.take k := fun h => absurd (List.mem_of_mem_take h) (by decide)
  obtain ⟨a,l,rfl⟩ := List.exists_cons_of_ne_nil hempty
  refine ⟨fun h => (List.mem_append.mp h).elim hslash hsuffix,by simp,?_,?_⟩
  · intro h
    rw [List.cons_append,dot,List.cons.injEq,List.append_eq_nil_iff] at h
    obtain ⟨rfl,rfl,-⟩ := h
    exact hdot rfl
  · intro h
    rw [List.cons_append,dotdot,List.cons.injEq] at h
    obtain ⟨rfl,hrest⟩ := h
    cases l with
    | nil => exact hdot rfl
    | cons b l =>
      rw [List.cons_append,List.cons.injEq,List.append_eq_nil_iff] at hrest
      obtain ⟨rfl,rfl,-⟩ := hrest
      exact hup rfl

theorem inside_moved {dir name front c rest : List Char} (hdir : dir ≠ [])
    (h : writtenName dir name = front ++ c ++ '/' :: rest) (hfront : front = [] ∨ ∃ q, front = q++['/'])
    (hc : '/' ∉ c ∧ c ≠ [] ∧ c ≠ dot ∧ c ≠ dotdot)
    (hmade : ∀ u rest, writtenName dir name = u ++ '/' :: rest → Behind dir u) :
    Inside (place dir) (place (cut (dir ++ '/' :: (front ++ c) ++ movedSuffix))) := by
  have hroom : (dir ++ '/' :: (front ++ c)).length ≤ bufferSize-1 := by
    have hlen : (writtenName dir name).length ≤ bufferSize-2-dir.length := List.length_take_le _ _
    rw [h,List.length_append,List.length_cons] at hlen
    rw [List.length_append,List.length_cons]
    omega
  -- only the suffix is cut, if anything
  obtain ⟨k,hcut⟩ : ∃ k, cut (dir ++ '/' :: (front ++ c) ++ movedSuffix) =
      dir ++ '/' :: (front ++ (c ++ movedSuffix.take k)) := by
    refine ⟨bufferSize-1-(dir ++ '/' :: (front ++ c)).length,?_⟩
    rw [cut,List.take_append,List.take_of_length_le hroom]
    simp only [List.append_assoc,List.cons_append]
  obtain ⟨hslash,hempty,hdot,hup⟩ := name_moved hc k
  obtain ⟨parent,hparent,hinside,hpath⟩ : ∃ parent, parent ≠ [] ∧ Inside (place dir) (place parent) ∧
      dir ++ '/' :: (front ++ (c ++ movedSuffix.take k)) = parent ++ '/' :: (c ++ movedSuffix.take k) := by
    rcases hfront with rfl | ⟨q,rfl⟩
    · exact ⟨dir,hdir,inside_refl _,by simp⟩
    · refine ⟨dir ++ '/' :: q,by simp,(inside_behind_iff hdir q).mpr (hmade q (c ++ '/' :: rest) ?_),by simp⟩
      rw [h]
      simp
  rw [hcut,hpath,place_append hparent,components_name hslash hempty hdot]
  have hstep : walk (place parent).1 (place parent).2 [c ++ movedSuffix.take k] =
      (c ++ movedSuffix.take k) :: (place parent).2 := if_neg hup
  rw [hstep]
  exact inside_cons hinside hup

/-- The path that is opened lies inside the output directory exactly when the name is `Contained`, and all that is
touched on the way when the directories on the way lie behind it as well. They do when the name never climbs. -/
theorem written_inside_iff (dir name : List Char) :
    (Inside (place dir) (place (openedPath dir name)) ↔ Contained dir name) ∧
      (dir ≠ [] → dir.length ≤ bufferSize-2 →
        ((∀ p, Touches dir name p → Inside (place dir) (place p)) ↔
          Contained dir name ∧ ∀ u rest, writtenName dir name = u ++ '/' :: rest → Behind dir u)) ∧
      (dir ≠ [] → dir.length ≤ bufferSize-2 → NeverClimbs (components (writtenName dir name)) →
        ∀ parent rest, openedPath dir name = parent ++ '/' :: rest → dir.length ≤ parent.length →
          Inside (place dir) (place parent)) := by
  have hopened : Inside (place dir) (place (openedPath dir name)) ↔ Contained dir name := by
    by_cases hlong : dir.length ≤ bufferSize-2
    · rw [Contained,if_pos hlong,openedPath_eq hlong]
      by_cases hdir : dir = []
      · subst hdir
        refine iff_of_false ?_ fun h => h.1 rfl
        rintro ⟨habs,-⟩
        exact absurd habs (by simp [place,isAbsolute])
      · exact (inside_behind_iff hdir _).trans (and_iff_right hdir).symm
    · rw [Contained,if_neg hlong,openedPath_of_long (by omega)]
  refine ⟨hopened,fun hdir hlong => ⟨fun h => ?_,?_⟩,?_⟩
  · exact ⟨hopened.mp (h _ .opened),fun u rest hu => (inside_behind_iff hdir u).mp (h _ (.made hu))⟩
  · rintro ⟨hcontained,hmade⟩ p (_ | hu | ⟨h,hfront,hc⟩)
    · exact hopened.mpr hcontained
    · exact (inside_behind_iff hdir _).mpr (hmade _ _ hu)
    · exact inside_moved hdir h hfront hc hmade
  · intro hdir hlong hclimb parent rest hpath hparent
    rw [openedPath_eq hlong] at hpath
    obtain ⟨more,rfl⟩ : ∃ more, parent = dir++more :=
      (List.prefix_of_prefix_length_le (List.prefix_append dir _) (hpath ▸ List.prefix_append parent _)
        hparent).imp fun _ h => h.symm
    rw [List.append_assoc,List.append_right_inj] at hpath
    cases more with
    | nil =>
      rw [List.append_nil]
      exact inside_refl _
    | cons c more =>
      rw [List.cons_append] at hpath
      obtain ⟨rfl,hrest⟩ := List.cons.inj hpath
      rw [place_append hdir]
      refine inside_of_climb_zero (hclimb (components more) ?_)
      rw [hrest,components_slash]
      exact List.prefix_append _ _

/-- A name with a double dot inside is written next to the output directory. -/
theorem written_outside :
    ¬Inside (place ['o','u','t']) (place (openedPath ['o','u','t'] ['a','/','.','.','/','.','.','/','x'])) := by
  have hpath : openedPath ['o','u','t'] ['a','/','.','.','/','.','.','/','x'] =
      ['o','u','t','/','a','/','.','.','/','.','.','/','x'] := by decide
  have hplace : place ['o','u','t','/','a','/','.','.','/','.','.','/','x'] = (false,[['x']]) := by decide
  have hdir : place ['o','u','t'] = (false,[['o','u','t']]) := by decide
  rw [hpath,hplace,hdir]
  rintro ⟨-,inner,hinner,-⟩
  have hlast : ['o','u','t'] ∈ inner++[['o','u','t']] := by simp
  rw [← hinner] at hlast
  exact absurd hlast (by decide)

end Machismo.Sgr
