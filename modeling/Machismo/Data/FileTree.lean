import Machismo.Data.Path

/-! # A tree of files

What is at each place: a directory, a file with its data, or nothing.  A place is its names,
innermost first; there are no links.  A path is followed piece by piece, each from a directory
on and with a name the file system takes; a path of `PATH_MAX` bytes or more is refused.
-/
namespace Machismo.Data.FileTree
open Machismo.Data.Path (Name dot dotdot isAbsolute)
variable {D E : Type}

inductive Node (D : Type) where
  | dir
  | file (data : D)
deriving DecidableEq, Repr

abbrev Files (D : Type) := List Name → Option (Node D)

def isDir (t : Files D) (p : List Name) : Bool :=
  match t p with
  | some .dir => true
  | _ => false

theorem isDir_iff {t : Files D} {p : List Name} : isDir t p = true ↔ t p = some .dir := by
  unfold isDir
  split
  · rename_i h
    simp [h]
  · rename_i h
    simpa using h

def fileData : Option (Node D) → Option D
  | some (.file data) => some data
  | _ => none

theorem fileData_eq_some_iff {node : Option (Node D)} {data : D} :
    fileData node = some data ↔ node = some (.file data) := by
  cases node with
  | none => simp [fileData]
  | some node => cases node <;> simp [fileData]

section Operations
variable (nameMax : ℕ)

def pathMax : ℕ := 4096

/-- One piece on; the pieces between two slashes may be empty. -/
def goTo (p : List Name) (c : Name) : List Name :=
  if c = [] ∨ c = dot then p else if c = dotdot then p.tail else c::p

def resolve (t : Files D) (start pieces : List Name) : Option (List Name) :=
  pieces.foldlM (fun p c => if isDir t p ∧ c.length ≤ nameMax then some (goTo p c) else none) start

def resolvePath (t : Files D) (cwd : List Name) (path : List Char) : Option (List Name) :=
  if path = [] ∨ pathMax ≤ path.length then none
  else resolve nameMax t (if isAbsolute path then [] else cwd) (path.splitOn '/')

def stat (t : Files D) (cwd : List Name) (path : List Char) : Option (Node D) :=
  (resolvePath nameMax t cwd path).bind t

def mkdir (t : Files D) (cwd : List Name) (path : List Char) : Files D :=
  match resolvePath nameMax t cwd path with
  | some p => if (t p).isNone then Function.update t p (some .dir) else t
  | none => t

/-- `fopen` for writing, `fwrite` and `fclose`.  A directory is not opened. -/
def create (t : Files D) (cwd : List Name) (path : List Char) (data : D) : Option (Files D) :=
  match resolvePath nameMax t cwd path with
  | some p => if isDir t p then none else some (Function.update t p (some (.file data)))
  | none => none

/-- `rename` of a file; a file in its way goes, a directory stays. -/
def rename (t : Files D) (cwd : List Name) (path target : List Char) : Files D :=
  match resolvePath nameMax t cwd path,resolvePath nameMax t cwd target with
  | some p,some q =>
    match t p with
    | some (.file data) =>
      if isDir t q then t else Function.update (Function.update t p none) q (some (.file data))
    | _ => t
  | _,_ => t

end Operations

section Equations
variable {nameMax : ℕ} {t : Files D} {cwd p : List Name} {path : List Char}

theorem mkdir_new (hp : resolvePath nameMax t cwd path = some p) (hnew : t p = none) :
    mkdir nameMax t cwd path = Function.update t p (some .dir) := by
  simp [mkdir,hp,hnew]

theorem mkdir_there (hp : resolvePath nameMax t cwd path = some p) {node : Node D} (hthere : t p = some node) :
    mkdir nameMax t cwd path = t := by
  simp [mkdir,hp,hthere]

theorem create_eq (hp : resolvePath nameMax t cwd path = some p) (hdir : t p ≠ some .dir) (data : D) :
    create nameMax t cwd path data = some (Function.update t p (some (.file data))) := by
  have hnot : ¬isDir t p = true := fun h => hdir (isDir_iff.mp h)
  simp [create,hp,hnot]

theorem create_spec {t' : Files D} {data : D} (h : create nameMax t cwd path data = some t') :
    ∃ p, resolvePath nameMax t cwd path = some p ∧ t p ≠ some .dir ∧
      t' = Function.update t p (some (.file data)) := by
  unfold create at h
  split at h
  · rename_i p hp
    split_ifs at h with hdir
    exact ⟨p,hp,fun hd => hdir (isDir_iff.mpr hd),(Option.some.inj h).symm⟩
  · cases h

theorem rename_eq {target : List Char} {q : List Name} (hp : resolvePath nameMax t cwd path = some p) {data : D}
    (hfile : t p = some (.file data)) (hq : resolvePath nameMax t cwd target = some q)
    (hfree : t q ≠ some .dir) : rename nameMax t cwd path target =
      Function.update (Function.update t p none) q (some (.file data)) := by
  have hnot : ¬isDir t q = true := fun h => hfree (isDir_iff.mp h)
  simp [rename,hp,hq,hfile,hnot]

theorem rename_cases (t : Files D) (cwd : List Name) (path target : List Char) :
    rename nameMax t cwd path target = t ∨
      ∃ p q data, resolvePath nameMax t cwd path = some p ∧ resolvePath nameMax t cwd target = some q ∧
        t p = some (.file data) ∧ t q ≠ some .dir ∧
        rename nameMax t cwd path target = Function.update (Function.update t p none) q (some (.file data)) := by
  unfold rename
  split
  · rename_i p q hp hq
    split
    · rename_i data hfile
      split_ifs with hdir
      · exact .inl rfl
      · exact .inr ⟨p,q,data,hp,hq,hfile,fun hd => hdir (isDir_iff.mpr hd),rfl⟩
    · exact .inl rfl
  · exact .inl rfl

end Equations

/-- All directories of one tree are directories of another. -/
def KeepsDirs (t t' : Files D) : Prop := ∀ p, t p = some .dir → t' p = some .dir

theorem KeepsDirs.refl (t : Files D) : KeepsDirs t t := fun _ h => h

theorem KeepsDirs.trans {t t' t'' : Files D} (h : KeepsDirs t t') (h' : KeepsDirs t' t'') : KeepsDirs t t'' :=
  fun p hp => h' p (h p hp)

/-- What the files of one tree hold stood in a file of another, except for some data. -/
def FilesFrom (new : D → Prop) (t t' : Files D) : Prop :=
  ∀ p data, t' p = some (.file data) → new data ∨ ∃ q, t q = some (.file data)

theorem FilesFrom.refl (new : D → Prop) (t : Files D) : FilesFrom new t t := fun p _ h => .inr ⟨p,h⟩

theorem FilesFrom.trans {new : D → Prop} {t t' t'' : Files D} (h : FilesFrom new t t')
    (h' : FilesFrom new t' t'') : FilesFrom new t t'' := by
  intro p data hp
  rcases h' p data hp with hnew | ⟨q,hq⟩
  · exact .inl hnew
  · exact h q data hq

section Frames
variable {nameMax : ℕ} {α : Type}

theorem keepsDirs_foldl {step : Files D → α → Files D} (h : ∀ t x, KeepsDirs t (step t x)) (xs : List α)
    (t : Files D) : KeepsDirs t (xs.foldl step t) := by
  induction xs generalizing t with
  | nil => exact .refl t
  | cons x xs ih => exact (h t x).trans (ih _)

theorem filesFrom_foldl {new : D → Prop} {step : Files D → α → Files D} {xs : List α}
    (h : ∀ t, ∀ x ∈ xs, FilesFrom new t (step t x)) (t : Files D) : FilesFrom new t (xs.foldl step t) := by
  induction xs generalizing t with
  | nil => exact .refl new t
  | cons x xs ih =>
    exact (h t x (List.mem_cons_self ..)).trans (ih (fun t y hy => h t y (List.mem_cons_of_mem _ hy)) _)

theorem keepsDirs_update {t : Files D} {p : List Name} (hp : t p ≠ some .dir) (node : Option (Node D)) :
    KeepsDirs t (Function.update t p node) := by
  intro q hq
  have hne : q ≠ p := by
    rintro rfl
    exact hp hq
  rwa [Function.update_of_ne hne]

theorem keepsDirs_mkdir (t : Files D) (cwd : List Name) (path : List Char) :
    KeepsDirs t (mkdir nameMax t cwd path) := by
  unfold mkdir
  split
  · split_ifs with hnone
    · exact keepsDirs_update (by simp [Option.isNone_iff_eq_none.mp hnone]) _
    · exact .refl t
  · exact .refl t

theorem keepsDirs_rename (t : Files D) (cwd : List Name) (path target : List Char) :
    KeepsDirs t (rename nameMax t cwd path target) := by
  rcases rename_cases t cwd path target with h | ⟨p,q,data,-,-,hfile,hdir,h⟩
  · rw [h]
    exact .refl t
  · rw [h]
    refine (keepsDirs_update (by simp [hfile]) none).trans (keepsDirs_update (fun hq => hdir ?_) _)
    by_cases heq : q = p
    · rw [heq,Function.update_self] at hq
      cases hq
    · rwa [Function.update_of_ne heq] at hq

theorem keepsDirs_create {t t' : Files D} {cwd : List Name} {path : List Char} {data : D}
    (h : create nameMax t cwd path data = some t') : KeepsDirs t t' := by
  obtain ⟨p,-,hdir,rfl⟩ := create_spec h
  exact keepsDirs_update hdir _

theorem filesFrom_create {t t' : Files D} {cwd : List Name} {path : List Char} {data : D}
    (h : create nameMax t cwd path data = some t') : FilesFrom (· = data) t t' := by
  obtain ⟨p,-,-,rfl⟩ := create_spec h
  intro q data' hq
  by_cases heq : q = p
  · rw [heq,Function.update_self] at hq
    cases hq
    exact .inl rfl
  · rw [Function.update_of_ne heq] at hq
    exact .inr ⟨q,hq⟩

theorem filesFrom_mkdir (new : D → Prop) (t : Files D) (cwd : List Name) (path : List Char) :
    FilesFrom new t (mkdir nameMax t cwd path) := by
  unfold mkdir
  split
  · rename_i p _
    split_ifs
    · intro q data hq
      by_cases heq : q = p
      · rw [heq,Function.update_self] at hq
        cases hq
      · rw [Function.update_of_ne heq] at hq
        exact .inr ⟨q,hq⟩
    · exact .refl new t
  · exact .refl new t

theorem filesFrom_rename (new : D → Prop) (t : Files D) (cwd : List Name) (path target : List Char) :
    FilesFrom new t (rename nameMax t cwd path target) := by
  rcases rename_cases t cwd path target with h | ⟨p,q,data,-,-,hfile,-,h⟩
  · rw [h]
    exact .refl new t
  · rw [h]
    intro r data' hr
    by_cases hrq : r = q
    · rw [hrq,Function.update_self] at hr
      cases hr
      exact .inr ⟨p,hfile⟩
    · rw [Function.update_of_ne hrq] at hr
      by_cases hrp : r = p
      · rw [hrp,Function.update_self] at hr
        cases hr
      · rw [Function.update_of_ne hrp] at hr
        exact .inr ⟨r,hr⟩

end Frames

section Map

def Node.map (f : D → E) : Node D → Node E
  | .dir => .dir
  | .file data => .file (f data)

def mapData (f : D → E) (t : Files D) : Files E := fun p => (t p).map (Node.map f)

variable {nameMax : ℕ} (f : D → E) (t : Files D) (cwd : List Name) (path : List Char)

theorem fileData_map (node : Option (Node D)) : fileData (node.map (Node.map f)) = (fileData node).map f := by
  cases node with
  | none => rfl
  | some node => cases node <;> rfl

@[simp] theorem isDir_mapData (p : List Name) : isDir (mapData f t) p = isDir t p := by
  unfold isDir mapData
  cases t p with
  | none => rfl
  | some node => cases node <;> rfl

@[simp] theorem resolvePath_mapData :
    resolvePath nameMax (mapData f t) cwd path = resolvePath nameMax t cwd path := by
  simp only [resolvePath,resolve,isDir_mapData]

theorem mapData_update (p : List Name) (node : Option (Node D)) :
    mapData f (Function.update t p node) = Function.update (mapData f t) p (node.map (Node.map f)) := by
  funext q
  by_cases h : q = p
  · subst h
    simp [mapData]
  · simp [mapData,h]

theorem stat_mapData : stat nameMax (mapData f t) cwd path = (stat nameMax t cwd path).map (Node.map f) := by
  unfold stat
  rw [resolvePath_mapData]
  cases resolvePath nameMax t cwd path <;> rfl

theorem mkdir_mapData : mkdir nameMax (mapData f t) cwd path = mapData f (mkdir nameMax t cwd path) := by
  unfold mkdir
  rw [resolvePath_mapData]
  cases resolvePath nameMax t cwd path with
  | none => rfl
  | some p =>
    have hnone : (mapData f t p).isNone = (t p).isNone := Option.isNone_map
    dsimp only
    rw [hnone]
    split_ifs
    · rw [mapData_update]
      rfl
    · rfl

theorem create_mapData (data : D) : create nameMax (mapData f t) cwd path (f data) =
    (create nameMax t cwd path data).map (mapData f) := by
  unfold create
  rw [resolvePath_mapData]
  cases resolvePath nameMax t cwd path with
  | none => rfl
  | some p =>
    dsimp only
    rw [isDir_mapData]
    split_ifs
    · rfl
    · rw [Option.map_some,mapData_update]
      rfl

theorem rename_mapData (target : List Char) : rename nameMax (mapData f t) cwd path target =
    mapData f (rename nameMax t cwd path target) := by
  unfold rename
  rw [resolvePath_mapData,resolvePath_mapData]
  cases resolvePath nameMax t cwd path with
  | none => rfl
  | some p =>
    cases resolvePath nameMax t cwd target with
    | none => rfl
    | some q =>
      dsimp only
      have hp : mapData f t p = (t p).map (Node.map f) := rfl
      rw [hp,isDir_mapData]
      cases t p with
      | none => rfl
      | some node =>
        cases node with
        | dir => rfl
        | file data =>
          dsimp only [Option.map_some,Node.map]
          split_ifs
          · rfl
          · rw [mapData_update,mapData_update]
            rfl

end Map

end Machismo.Data.FileTree
