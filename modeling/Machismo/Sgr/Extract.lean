import Machismo.Data.FileTree
import Machismo.Sgr.Manifest
import Machismo.Sgr.Names

/-! # Files on disk

`sgr_extract` writes a manifest and a file for each entry; a file in the way of a directory
is renamed.  `sgr_repack` finds the files again by the names in the manifest: it tries the
renamed file first, but for names without a slash only.  What is in a file is a parameter, as
neither looks at it.
-/
namespace Machismo.Sgr
open Machismo.A64 (Byte)
open Machismo.Data.FileTree
open Machismo.Data.Path (Name)
variable {D E : Type}

def asChars (bytes : List Byte) : List Char := bytes.map fun b => Char.ofNat b.toNat

section Extract
variable (nameMax : ℕ) (cwd : List Name)

def handleFileDirConflict (t : Files D) (path : List Char) : Files D :=
  match stat nameMax t cwd path with
  | some (.file _) => rename nameMax t cwd path (cut (path++movedSuffix))
  | _ => t

/-- What `mkdirs` does where the path ends or a slash is replaced. -/
def makeDir (t : Files D) (path : List Char) : Files D :=
  mkdir nameMax (handleFileDirConflict nameMax cwd t path) cwd path

/-- What stands in front of each slash, and the whole. -/
def upTo : List Char → List (List Char)
  | [] => [[]]
  | c :: rest => if c = '/' then [] :: (upTo rest).map (c :: ·) else (upTo rest).map (c :: ·)

/-- The paths of the loop in `mkdirs`, which starts behind the first character. -/
def slashPrefixes : List Char → List (List Char)
  | [] => [[]]
  | c :: rest => (upTo rest).map (c :: ·)

def mkdirs (t : Files D) (path : List Char) : Files D := (slashPrefixes (cut path)).foldl (makeDir nameMax cwd) t

/-- What stands in front of the slash that `strrchr` finds. -/
def parentOf (path : List Char) : Option (List Char) :=
  let front := path.rdropWhile fun c => c != '/'
  if front = [] then none else some front.dropLast

def makeParents (t : Files D) (path : List Char) : Files D :=
  match parentOf path with
  | some parent => mkdirs nameMax cwd t parent
  | none => t

/-- A file that cannot be written is reported and left out. -/
def writeFile (t : Files D) (dir name : List Char) (data : D) : Files D :=
  let made := makeParents nameMax cwd t (openedPath dir name)
  (create nameMax made cwd (openedPath dir name) data).getD made

def manifestFile : List Char := ['.','s','g','r','_','m','a','n','i','f','e','s','t']

def manifestPath (dir : List Char) : List Char := cut (dir ++ '/' :: manifestFile)

/-- `main` of `sgr_extract` behind the header; without a manifest there are no files. -/
def extractFiles (t : Files D) (dir : List Char) (text : D) (files : List (List Char × D)) : Option (Files D) :=
  (create nameMax (mkdirs nameMax cwd t dir) cwd (manifestPath dir) text).map fun t =>
    files.foldl (fun t file => writeFile nameMax cwd t dir file.1 file.2) t

def extract (t : Files (List Byte)) (dir : List Char) (a : Archive) : Option (Files (List Byte)) :=
  extractFiles nameMax cwd t dir (manifest a) (a.entries.map fun e => (asChars e.name,e.data))

end Extract

section Repack
variable (nameMax : ℕ) (cwd : List Name)

def fpathSize : ℕ := 8192

/-- The file `sgr_repack` takes for an entry.  A directory is opened like a file but not read. -/
def openEntry (t : Files D) (dir name : List Char) : Option D :=
  let encoded := encodeFsName (stripDotdot name)
  let moved := if '/' ∈ encoded then none
    else stat nameMax t cwd ((dir ++ '/' :: (encoded++movedSuffix)).take (fpathSize-1))
  fileData (moved.or (stat nameMax t cwd ((dir ++ '/' :: encoded).take (fpathSize-1))))

/-- The manifest; a directory in its place has no lines. -/
def readListing (t : Files (List Byte)) (dir : List Char) : Option Listing :=
  (stat nameMax t cwd (manifestPath dir)).map fun node =>
    match node with
    | .file text => readManifest text
    | .dir => readManifest []

/-- What `sgr_repack` makes an archive of. -/
def repackSource (t : Files (List Byte)) (dir : List Char) : Option Archive :=
  (readListing nameMax cwd t dir).bind fun l =>
    (l.entries.mapM fun e => (openEntry nameMax cwd t dir (asChars e.1)).map fun data => ⟨e.1,e.2,data⟩).map
      fun entries => ⟨l.title,l.dev,l.root,entries⟩

/-- `sgr_repack`; `seeds` are the seeds the entries get. -/
def repackDir (zlib : Zlib) (t : Files (List Byte)) (dir : List Char) (seeds : ℕ → BitVec 32)
    (seed : BitVec 32) : Option (List Byte) :=
  (repackSource nameMax cwd t dir).map fun a =>
    repackFile zlib a.title a.dev a.root (a.entries.zipIdx.map fun e => (e.1,seeds e.2)) seed

end Repack

section Map
variable {nameMax : ℕ} {cwd : List Name} (f : D → E) (t : Files D)

theorem handleFileDirConflict_mapData (path : List Char) :
    handleFileDirConflict nameMax cwd (mapData f t) path =
      mapData f (handleFileDirConflict nameMax cwd t path) := by
  unfold handleFileDirConflict
  rw [stat_mapData]
  cases stat nameMax t cwd path with
  | none => rfl
  | some node =>
    cases node with
    | dir => rfl
    | file data => exact rename_mapData f t cwd path _

theorem makeDir_mapData (path : List Char) :
    makeDir nameMax cwd (mapData f t) path = mapData f (makeDir nameMax cwd t path) := by
  rw [makeDir,handleFileDirConflict_mapData,mkdir_mapData,makeDir]

theorem mkdirs_mapData (path : List Char) :
    mkdirs nameMax cwd (mapData f t) path = mapData f (mkdirs nameMax cwd t path) := by
  unfold mkdirs
  generalize slashPrefixes (cut path) = paths
  induction paths generalizing t with
  | nil => rfl
  | cons path paths ih => rw [List.foldl_cons,makeDir_mapData,ih,List.foldl_cons]

theorem makeParents_mapData (path : List Char) :
    makeParents nameMax cwd (mapData f t) path = mapData f (makeParents nameMax cwd t path) := by
  unfold makeParents
  cases parentOf path with
  | none => rfl
  | some parent => exact mkdirs_mapData f t parent

theorem writeFile_mapData (dir name : List Char) (data : D) :
    writeFile nameMax cwd (mapData f t) dir name (f data) = mapData f (writeFile nameMax cwd t dir name data) := by
  unfold writeFile
  dsimp only
  rw [makeParents_mapData,create_mapData]
  cases create nameMax (makeParents nameMax cwd t (openedPath dir name)) cwd (openedPath dir name) data <;> rfl

theorem extractFiles_mapData (dir : List Char) (text : D) (files : List (List Char × D)) :
    extractFiles nameMax cwd (mapData f t) dir (f text) (files.map fun file => (file.1,f file.2)) =
      (extractFiles nameMax cwd t dir text files).map (mapData f) := by
  have hfold : ∀ (files : List (List Char × D)) (t : Files D),
      (files.map fun file => (file.1,f file.2)).foldl
          (fun t file => writeFile nameMax cwd t dir file.1 file.2) (mapData f t) =
        mapData f (files.foldl (fun t file => writeFile nameMax cwd t dir file.1 file.2) t) := by
    intro files
    induction files with
    | nil => exact fun t => rfl
    | cons file files ih =>
      intro t
      rw [List.map_cons,List.foldl_cons,writeFile_mapData,ih,List.foldl_cons]
  unfold extractFiles
  rw [mkdirs_mapData,create_mapData]
  cases create nameMax (mkdirs nameMax cwd t dir) cwd (manifestPath dir) text with
  | none => rfl
  | some t => exact congrArg some (hfold files t)

theorem openEntry_mapData (dir name : List Char) :
    openEntry nameMax cwd (mapData f t) dir name = (openEntry nameMax cwd t dir name).map f := by
  unfold openEntry
  dsimp only
  rw [stat_mapData,stat_mapData,← fileData_map,Option.map_or]
  split_ifs <;> rfl

end Map

end Machismo.Sgr
