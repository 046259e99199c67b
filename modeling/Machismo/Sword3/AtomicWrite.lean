import Machismo.Data.FileTree
import Machismo.Sword3.NormalizeAbsolute

/-! # Writing a save file in one step

`sword3_paths_atomic_write` opens the directory the file is in, making what is missing on
the way, writes a temporary file there and renames it.  Which system calls fail, and how
many bytes each write takes, is up to `Failures`; a call that is not made to fail does what
the tree of files has it do.  A write that is interrupted is made again, so a run that
ends sees finitely many outcomes.
-/
namespace Machismo.Sword3Paths
open Machismo.Data
open Machismo.Data.Path (Name dot dotdot components)
open Machismo.Data.FileTree (Files Node)

inductive SysErrno where
  | einval | enomem | eperm | eexist | eloop | enotdir | enoent | eisdir | eio | enametoolong
  | other (number : ℕ)
deriving DecidableEq, Repr

/-- A regular file with its permissions, or a link, a socket and the like. -/
inductive File where
  | regular (bytes : List UInt8) (mode : ℕ)
  | special
deriving DecidableEq, Repr

/-- A place in the tree, innermost name first; an open directory is known by its place. -/
abbrev Place := List Name

/-- What `write` answers. -/
inductive Write where
  | wrote (size : ℕ)
  | interrupted
  | failed (errno : SysErrno)
deriving DecidableEq, Repr

/-- The calls that fail, by where they are made: each directory of the way by its number, each
temporary name by the attempt.  Once the outcomes of `write` are used up it takes everything.
Of the permissions asked for `fchmod` grants some, and writing keeps some: the kernel may take
the set-id bits away. -/
structure Failures where
  copy : Bool
  dup : Option SysErrno
  mkdir : ℕ → Option SysErrno
  openDirectory : ℕ → Option SysErrno
  leaf : Bool
  openTemporary : ℕ → Option SysErrno
  chmod : Option SysErrno
  granted : ℕ → ℕ
  writes : List Write
  written : ℕ → ℕ
  sync : Option SysErrno
  close : Option SysErrno
  rename : Option SysErrno
  syncParent : Option SysErrno
  unlink : Option SysErrno
  pid : ℕ
  pid_lt : pid < 2^31
  kept : ∀ mode < 2^10, granted mode = mode ∧ written mode = mode

section Calls

def mkdirAt (failure : Option SysErrno) (p : Place) (t : Files File) : Except SysErrno Unit × Files File :=
  match failure with
  | some e => (.error e,t)
  | none => if (t p).isSome then (.error .eexist,t) else (.ok (),Function.update t p (some .dir))

/-- `openat` of a directory, links not followed. -/
def openDirectoryAt (failure : Option SysErrno) (p : Place) (t : Files File) : Except SysErrno Unit :=
  match failure with
  | some e => .error e
  | none =>
    match t p with
    | some .dir => .ok ()
    | some (.file .special) => .error .eloop
    | some (.file _) => .error .enotdir
    | none => .error .enoent

/-- `openat` of a new file. -/
def createAt (failure : Option SysErrno) (p : Place) (t : Files File) : Except SysErrno Unit × Files File :=
  match failure with
  | some e => (.error e,t)
  | none =>
    if (t p).isSome then (.error .eexist,t) else (.ok (),Function.update t p (some (.file (.regular [] 0o600))))

/-- `renameat` within a directory. -/
def renameAt (failure : Option SysErrno) (p q : Place) (t : Files File) : Except SysErrno Unit × Files File :=
  match failure with
  | some e => (.error e,t)
  | none =>
    match t p with
    | none => (.error .enoent,t)
    | some node =>
      if p = q then (.ok (),t)
      else if FileTree.isDir t q then (.error .eisdir,t)
      else (.ok (),Function.update (Function.update t p none) q (some node))

/-- `unlinkat`; a directory stays. -/
def unlinkAt (failure : Option SysErrno) (p : Place) (t : Files File) : Files File :=
  match failure with
  | some _ => t
  | none => if FileTree.isDir t p then t else Function.update t p none

/-- A change of the file an open descriptor refers to. -/
def modifyAt (p : Place) (bytes : List UInt8 → List UInt8) (mode : ℕ → ℕ) (t : Files File) : Files File :=
  match t p with
  | some (.file (.regular content m)) => Function.update t p (some (.file (.regular (bytes content) (mode m))))
  | _ => t

end Calls

section Parent

/-- A directory that is there already is as good as a new one. -/
def fatal : Except SysErrno Unit → Option SysErrno
  | .error e => if e = .eexist then none else some e
  | .ok _ => none

/-- The loop of `open_data_parent` over the tokens: the number of the next directory, the name kept
back and the directory that is open. -/
def openParentLoop (env : Failures) : List Name → ℕ → Option Name → Place → Files File →
    Except SysErrno (Option Name × Place) × Files File
  | [],_,pending,fd,t => (.ok (pending,fd),t)
  | part :: ps,i,pending,fd,t =>
    if part = dotdot then (.error .eperm,t)
    else if part = dot then openParentLoop env ps i pending fd t
    else
      match pending with
      | none => openParentLoop env ps i (some part) fd t
      | some name =>
        let (made,t) := mkdirAt (env.mkdir i) (name :: fd) t
        match fatal made,openDirectoryAt (env.openDirectory i) (name :: fd) t with
        | some e,_ => (.error e,t)
        | none,.error e => (.error (if e = .eloop then .eperm else e),t)
        | none,.ok _ => openParentLoop env ps (i+1) (some part) (name :: fd) t

/-- `open_data_parent`: the directory and the name of the file in it.  There is no data directory
where `paths` is null or has no descriptor. -/
def openDataParent (env : Failures) (dataDir : Option Place) (relative : Option CString) (t : Files File) :
    Except SysErrno (Place × Name) × Files File :=
  match dataDir,relative with
  | some root,some relative =>
    if relative.chars.head? = some '/' then (.error .einval,t)
    else if env.copy then (.error .enomem,t)
    else
      match env.dup with
      | some e => (.error e,t)
      | none =>
        match openParentLoop env (parts relative.chars) 0 none root t with
        | (.error e,t) => (.error e,t)
        | (.ok (none,_),t) => (.error .einval,t)
        | (.ok (some leaf,fd),t) => if env.leaf then (.error .enomem,t) else (.ok (fd,leaf),t)
  | _,_ => (.error .einval,t)

end Parent

section Write

/-- `write_all`: what it returns and the bytes that were taken. -/
def writeAll : List Write → List UInt8 → Except SysErrno Unit × List UInt8
  | _,[] => (.ok (),[])
  | [],data => (.ok (),data)
  | .interrupted :: writes,data => writeAll writes data
  | .failed e :: _,_ => (.error e,[])
  | .wrote size :: writes,data =>
    if size = 0 then (.error .eio,[])
    else
      let (rc,taken) := writeAll writes (data.drop size)
      (rc,data.take size++taken)

def temporaryName (pid attempt : ℕ) : Name :=
  ['.','s','w','o','r','d','3','-','t','m','p','-']++Nat.toDigits 10 pid ++ '-' :: Nat.toDigits 10 attempt

/-- The loop over the attempts: the temporary file that was made, or the error and the name tried last. -/
def openTemporary (env : Failures) (parent : Place) (t : Files File) :
    ℕ → ℕ → Name → Except (SysErrno × Name) Name × Files File
  | 0,_,last => (.error (.eexist,last),t)
  | remaining+1,attempt,_ =>
    let temporary := temporaryName env.pid attempt
    if 96 ≤ temporary.length then (.error (.enametoolong,temporary.take 95),t)
    else
      match createAt (env.openTemporary attempt) (temporary :: parent) t with
      | (.ok _,t) => (.ok temporary,t)
      | (.error e,_) =>
        if e ≠ .eexist then (.error (e,temporary),t)
        else openTemporary env parent t remaining (attempt+1) temporary

/-- From `fchmod` to `close`. -/
def fillTemporary (env : Failures) (p : Place) (data : List UInt8) (mode : ℕ) (t : Files File) :
    Except SysErrno Unit × Files File :=
  match env.chmod with
  | some e => (.error e,t)
  | none =>
    let t := modifyAt p id (fun _ => env.granted (mode%2^12)) t
    let (rc,taken) := writeAll env.writes data
    let t := modifyAt p (·++taken) (if taken = [] then id else env.written) t
    match rc,env.sync,env.close with
    | .error e,_,_ => (.error e,t)
    | .ok _,some e,_ => (.error e,t)
    | .ok _,none,some e => (.error e,t)
    | .ok _,none,none => (.ok (),t)

/-- From `fchmod` on, with the clean-up. -/
def putInPlace (env : Failures) (parent : Place) (temporary leaf : Name) (data : List UInt8) (mode : ℕ)
    (t : Files File) : Except SysErrno Unit × Files File :=
  match fillTemporary env (temporary :: parent) data mode t with
  | (.error e,t) => (.error e,unlinkAt env.unlink (temporary :: parent) t)
  | (.ok _,t) =>
    match renameAt env.rename (temporary :: parent) (leaf :: parent) t with
    | (.error e,t) => (.error e,unlinkAt env.unlink (temporary :: parent) t)
    | (.ok _,t) =>
      match env.syncParent with
      | some e => (.error e,t)
      | none => (.ok (),t)

/-- What is written: bytes, or a null pointer with a size. -/
inductive Source where
  | null (size : ℕ)
  | bytes (data : List UInt8)

def Source.data : Source → List UInt8
  | .null _ => []
  | .bytes data => data

/-- `!data && size` -/
def Source.missing : Source → Bool
  | .null size => size != 0
  | .bytes _ => false

def atomicWrite (env : Failures) (dataDir : Option Place) (relative : Option CString) (source : Source) (mode : ℕ)
    (t : Files File) : Except SysErrno Unit × Files File :=
  if source.missing then (.error (.other 0),t)
  else
    match openDataParent env dataDir relative t with
    | (.error e,t) => (.error e,t)
    | (.ok (parent,leaf),t) =>
      match openTemporary env parent t 128 0 [] with
      | (.error (e,[]),t) => (.error e,t)
      | (.error (e,last),t) => (.error e,unlinkAt env.unlink (last :: parent) t)
      | (.ok temporary,t) => putInPlace env parent temporary leaf source.data mode t

end Write

end Machismo.Sword3Paths
