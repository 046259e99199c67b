import Machismo.Data.Path

/-! # Which paths the file manager may remove

The stand-in for the file manager removes what lies below one of four roots.  It decides
that on the text of the path: no double-dot component, and a root, less its trailing
slashes, followed by a slash and something more.  A C string is the list of its characters
before the terminator.
-/
namespace Machismo.Sword3FileManager
open Machismo.Data.Path

/-- At a cursor: two dots and the end of the component. -/
def dotdotHere : List Char → Bool
  | ['.','.'] => true
  | '.' :: '.' :: '/' :: _ => true
  | _ => false

/-- The scan of `path_has_dotdot`; `start` says that the cursor is at the start of a component. -/
def pathHasDotdotFrom (start : Bool) : List Char → Bool
  | [] => false
  | c :: rest => (start && dotdotHere (c :: rest)) || pathHasDotdotFrom (c == '/') rest

def pathHasDotdot (path : List Char) : Bool := pathHasDotdotFrom true path

/-- The loop of `path_under_root` over the trailing slashes of a root. -/
def rootLen (root : List Char) : ℕ → ℕ
  | 0 => 0
  | n+1 => if 0 < n ∧ root[n]? = some '/' then rootLen root n else n+1

/-- A root as far as `path_under_root` compares it. -/
def trim (root : List Char) : List Char := root.take (rootLen root root.length)

def pathUnderRoot (path : List Char) (root : Option (List Char)) : Bool :=
  match root with
  | none => false
  | some root =>
    if !isAbsolute root || !isAbsolute path then false
    else if path.take (trim root).length ≠ trim root then false
    else
      match path.drop (trim root).length with
      | '/' :: _ :: _ => true
      | _ => false

/-- The three environment variables, unset or set. -/
structure Environment where
  dataDir : Option (List Char)
  bundleDir : Option (List Char)
  tmpDir : Option (List Char)

/-- `/tmp/sword3` -/
def defaultRoot : List Char := ['/','t','m','p','/','s','w','o','r','d','3']

def fileManagerPathAllowed (env : Environment) (path : List Char) : Bool :=
  if !isAbsolute path || pathHasDotdot path then false
  else pathUnderRoot path env.dataDir || pathUnderRoot path env.bundleDir ||
    pathUnderRoot path (some defaultRoot) || pathUnderRoot path env.tmpDir

def allowedRoots (env : Environment) : List (List Char) :=
  ([env.dataDir,env.bundleDir,some defaultRoot,env.tmpDir].filterMap id).filter isAbsolute

/-- A path names something strictly below a root, its dots and empty components ignored: it goes on from the
root and never goes up. -/
def StrictlyBelow (root path : List Char) : Prop :=
  dotdot ∉ components path ∧ ∃ inner, inner ≠ [] ∧ components path = components root++inner

section Dots

theorem dotdotHere_iff (l : List Char) : dotdotHere l = true ↔ (l.splitOn '/').head? = some dotdot := by
  unfold dotdotHere dotdot
  split
  · simp [List.splitOn_cons_eq_if_modifyHead]
  · simp [List.splitOn_cons_eq_if_modifyHead]
  · rename_i hend hslash
    simp only [Bool.false_eq_true,false_iff]
    intro hhead
    -- the first component is the whole text or is followed by a slash
    obtain ⟨first,rest,hsplit⟩ := List.exists_cons_of_ne_nil (List.splitOn_ne_nil '/' l)
    have hl : ['/'].intercalate (l.splitOn '/') = l := List.intercalate_splitOn '/'
    obtain rfl : first = ['.','.'] := by simpa [hsplit] using hhead
    rw [hsplit] at hl
    cases rest with
    | nil => exact hend (by simpa using hl.symm)
    | cons second rest =>
      rw [List.intercalate_cons_of_ne_nil (List.cons_ne_nil _ _)] at hl
      exact hslash _ hl.symm

/-- The scan finds the components that are two dots; one begun before the cursor does not count. -/
theorem pathHasDotdotFrom_iff (start : Bool) (l : List Char) :
    pathHasDotdotFrom start l = true ↔
      (start = true ∧ (l.splitOn '/').head? = some dotdot) ∨ dotdot ∈ (l.splitOn '/').tail := by
  induction l generalizing start with
  | nil => simp [pathHasDotdotFrom,dotdot]
  | cons c l ih =>
    obtain ⟨first,rest,hsplit⟩ := List.exists_cons_of_ne_nil (List.splitOn_ne_nil '/' l)
    simp only [pathHasDotdotFrom,Bool.or_eq_true,Bool.and_eq_true,dotdotHere_iff,ih]
    refine or_congr_right ?_
    rw [List.splitOn_cons_eq_if_modifyHead,hsplit]
    by_cases hc : c = '/'
    · simp [hc,eq_comm]
    · simp [hc]

theorem mem_components {c : Name} {path : List Char} :
    c ∈ components path ↔ c ∈ path.splitOn '/' ∧ c ≠ [] ∧ c ≠ dot := by
  simp [components,List.mem_filter]

theorem pathHasDotdot_iff (path : List Char) : pathHasDotdot path = true ↔ dotdot ∈ components path := by
  obtain ⟨first,rest,hsplit⟩ := List.exists_cons_of_ne_nil (List.splitOn_ne_nil '/' path)
  have hne : dotdot ≠ [] ∧ dotdot ≠ dot := by decide
  rw [pathHasDotdot,pathHasDotdotFrom_iff,mem_components,hsplit,and_iff_left hne,List.mem_cons]
  simp only [true_and,List.head?_cons,Option.some.injEq,List.tail_cons,eq_comm]

end Dots

section Trim

theorem rootLen_spec (root : List Char) (n : ℕ) (hn : n ≤ root.length) :
    rootLen root n ≤ n ∧ root.take n = root.take (rootLen root n)++List.replicate (n-rootLen root n) '/' := by
  induction n with
  | zero => simp [rootLen]
  | succ n ih =>
    obtain ⟨hle,htake⟩ := ih (by omega)
    unfold rootLen
    split
    · rename_i hslash
      refine ⟨by omega,?_⟩
      rw [List.take_add_one,htake,hslash.2,Nat.succ_sub hle,List.replicate_succ',List.append_assoc]
      rfl
    · simp

theorem eq_trim_append (root : List Char) : ∃ n, root = trim root++List.replicate n '/' := by
  obtain ⟨-,h⟩ := rootLen_spec root root.length le_rfl
  rw [List.take_length] at h
  exact ⟨_,h⟩

theorem components_append_slashes (path : List Char) (n : ℕ) :
    components (path++List.replicate n '/') = components path := by
  induction n with
  | zero => simp
  | succ n ih => rw [List.replicate_succ',← List.append_assoc,components_concat_slash,ih]

theorem components_trim (root : List Char) : components (trim root) = components root := by
  obtain ⟨n,hn⟩ := eq_trim_append root
  conv_rhs => rw [hn,components_append_slashes]

end Trim

theorem pathUnderRoot_iff (path root : List Char) (hroot : isAbsolute root = true) (hpath : isAbsolute path = true) :
    pathUnderRoot path (some root) = true ↔ ∃ tail, tail ≠ [] ∧ path = trim root ++ '/' :: tail := by
  simp only [pathUnderRoot,hroot,hpath,Bool.not_true,Bool.or_self,Bool.false_eq_true,if_false]
  constructor
  · intro h
    split at h
    · exact absurd h Bool.false_ne_true
    rename_i htake
    split at h
    · rename_i c tail hdrop
      refine ⟨c :: tail,List.cons_ne_nil _ _,?_⟩
      calc
        path = path.take (trim root).length++path.drop (trim root).length := (List.take_append_drop _ _).symm
        _ = trim root ++ '/' :: c :: tail := by rw [not_ne_iff.mp htake,hdrop]
    · exact absurd h Bool.false_ne_true
  · rintro ⟨tail,hne,rfl⟩
    obtain ⟨c,tail,rfl⟩ := List.exists_cons_of_ne_nil hne
    simp

theorem mem_allowedRoots {env : Environment} {root : List Char} :
    root ∈ allowedRoots env ↔
      some root ∈ [env.dataDir,env.bundleDir,some defaultRoot,env.tmpDir] ∧ isAbsolute root = true := by
  rw [allowedRoots,List.mem_filter,List.mem_filterMap]
  simp

theorem fileManagerPathAllowed_iff (env : Environment) (path : List Char) :
    fileManagerPathAllowed env path = true ↔ isAbsolute path = true ∧ pathHasDotdot path = false ∧
      ∃ root ∈ allowedRoots env, ∃ tail, tail ≠ [] ∧ path = trim root ++ '/' :: tail := by
  cases hpath : isAbsolute path with
  | false => simp [fileManagerPathAllowed,hpath]
  | true =>
    cases hdots : pathHasDotdot path with
    | true => simp [fileManagerPathAllowed,hdots]
    | false =>
      have hunder : fileManagerPathAllowed env path = true ↔
          ∃ root, some root ∈ [env.dataDir,env.bundleDir,some defaultRoot,env.tmpDir] ∧
            pathUnderRoot path (some root) = true := by
        have hnone : pathUnderRoot path none = false := rfl
        have hsome : ∀ r, pathUnderRoot path r = true ↔
          ∃ root, some root = r ∧ pathUnderRoot path (some root) = true := by
          intro r
          cases r <;> simp [hnone]
        simp only [fileManagerPathAllowed,hpath,hdots,Bool.not_true,Bool.or_self,Bool.false_eq_true,if_false,
          Bool.or_eq_true]
        rw [hsome env.dataDir,hsome env.bundleDir,hsome (some defaultRoot),hsome env.tmpDir,← exists_or,← exists_or,
          ← exists_or]
        refine exists_congr fun root => ?_
        simp only [List.mem_cons,List.not_mem_nil,or_false,or_and_right,or_assoc]
      rw [hunder]
      simp only [true_and]
      refine exists_congr fun root => ?_
      rw [mem_allowedRoots,and_assoc]
      refine and_congr_right fun _ => ?_
      cases hroot : isAbsolute root with
      | true => rw [pathUnderRoot_iff path root hroot hpath,eq_self,true_and]
      | false => simp [pathUnderRoot,hroot]

theorem components_below (root tail : List Char) :
    components (trim root ++ '/' :: tail) = components root++components tail := by
  rw [components_slash,components_trim]

theorem isAbsolute_below {root : List Char} (hroot : isAbsolute root = true) (tail : List Char) :
    isAbsolute (trim root ++ '/' :: tail) = true := by
  obtain ⟨n,hn⟩ := eq_trim_append root
  cases htrim : trim root with
  | nil => simp [isAbsolute]
  | cons c l =>
    rw [hn,htrim] at hroot
    simpa [isAbsolute] using hroot

/-- What is accepted lies strictly below an allowed root exactly when no allowed root is followed only by
slashes and single dots, unless that path is turned away for a double dot or there is another allowed root
above. -/
theorem allowed_strictly_below_iff (env : Environment) (path : List Char) :
    (fileManagerPathAllowed env path = true → ∃ root ∈ allowedRoots env, StrictlyBelow root path) ↔
      ∀ root ∈ allowedRoots env, ∀ tail, tail ≠ [] → components tail = [] → path = trim root ++ '/' :: tail →
        pathHasDotdot path = true ∨ ∃ above ∈ allowedRoots env, StrictlyBelow above root := by
  rw [fileManagerPathAllowed_iff]
  constructor
  · intro h root hroot tail hne hempty hpath
    have hsame : components path = components root := by
      rw [hpath,components_below,hempty,List.append_nil]
    cases hdots : pathHasDotdot path with
    | true => exact Or.inl rfl
    | false =>
      have habs : isAbsolute path = true := by
        rw [hpath]
        exact isAbsolute_below (mem_allowedRoots.mp hroot).2 tail
      obtain ⟨above,habove,hbelow⟩ := h ⟨habs,hdots,root,hroot,tail,hne,hpath⟩
      unfold StrictlyBelow at hbelow
      rw [hsame] at hbelow
      exact Or.inr ⟨above,habove,hbelow⟩
  · rintro h ⟨-,hdots,root,hroot,tail,hne,hpath⟩
    have hfree : dotdot ∉ components path := by
      rw [← pathHasDotdot_iff,hdots]
      exact Bool.false_ne_true
    by_cases hempty : components tail = []
    · have hsame : components path = components root := by
        rw [hpath,components_below,hempty,List.append_nil]
      rcases h root hroot tail hne hempty hpath with hbad | ⟨above,habove,hbelow⟩
      · exact absurd hbad (by simp [hdots])
      · refine ⟨above,habove,?_⟩
        unfold StrictlyBelow
        rw [hsame]
        exact hbelow
    · exact ⟨root,hroot,hfree,components tail,hempty,by rw [hpath,components_below]⟩

/-- A root with two slashes behind it is accepted. -/
theorem allowed_root_itself :
    ¬(fileManagerPathAllowed ⟨none,none,none⟩ (defaultRoot++['/','/']) = true →
      ∃ root ∈ allowedRoots ⟨none,none,none⟩, StrictlyBelow root (defaultRoot++['/','/'])) := by
  intro h
  obtain ⟨root,hroot,-,inner,hinner,hcomp⟩ := h (by decide)
  have hr : root = defaultRoot := by simpa [allowedRoots,isAbsolute,defaultRoot] using hroot
  have hsame : components (defaultRoot++['/','/']) = components defaultRoot := components_append_slashes defaultRoot 2
  rw [hsame,hr] at hcomp
  exact hinner (List.self_eq_append_right.mp hcomp)

end Machismo.Sword3FileManager
