import Machismo.Sword3.AtomicWrite

/-! # When a save file is written in one step

The way to the file only adds directories.  From there on one place is written, that of
the temporary file, until it is renamed.  What `sword3_paths_atomic_write` promises is
lost in three ways: the clean-up removes a file that was never made here, it fails to
remove the one that was, or the last call fails when the file is already in place.
-/
namespace Machismo.Sword3Paths
open Machismo.Data
open Machismo.Data.Path (Name dot dotdot components)
open Machismo.Data.FileTree (Files Node)

section Grown

/-- Directories on the way to one place were added, and nothing else changed. -/
def Grown (parent : Place) (t t' : Files File) : Prop :=
  ∀ p, t' p = t p ∨ t p = none ∧ t' p = some .dir ∧ p <:+ parent

theorem Grown.refl (parent : Place) (t : Files File) : Grown parent t t := fun _ => Or.inl rfl

theorem Grown.trans {parent : Place} {t t' t'' : Files File} (h : Grown parent t t') (h' : Grown parent t' t'') :
    Grown parent t t'' := by
  intro p
  rcases h p with he | ⟨hnone,hdir,hp⟩
  · rcases h' p with he' | ⟨hnone',hdir',hp'⟩
    · exact Or.inl (he'.trans he)
    · exact Or.inr ⟨he ▸ hnone',hdir',hp'⟩
  · rcases h' p with he' | ⟨hnone',-,-⟩
    · exact Or.inr ⟨hnone,he'.trans hdir,hp⟩
    · exact absurd (hnone'.symm.trans hdir) (by simp)

theorem Grown.child {parent : Place} {t t' : Files File} (h : Grown parent t t') (name : Name) :
    t' (name :: parent) = t (name :: parent) := by
  rcases h (name :: parent) with he | ⟨-,-,hp⟩
  · exact he
  · have hle := hp.length_le
    rw [List.length_cons] at hle
    omega

theorem mkdirAt_grown (failure : Option SysErrno) {p parent : Place} (hp : p <:+ parent) (t : Files File) :
    Grown parent t (mkdirAt failure p t).2 := by
  unfold mkdirAt
  split
  · exact Grown.refl parent t
  split
  · exact Grown.refl parent t
  · rename_i hfree
    intro q
    rcases eq_or_ne q p with rfl | hne
    · exact Or.inr ⟨by simpa using hfree,Function.update_self _ _ _,hp⟩
    · exact Or.inl (Function.update_of_ne hne _ _)

end Grown

section Parent
variable (env : Failures)

theorem openParentLoop_spec (ps : List Name) (i : ℕ) (pending : Option Name) (fd : Place) (t : Files File) :
    Grown ((ps.filter (· != dot)).reverse++(pending.toList++fd)).tail t (openParentLoop env ps i pending fd t).2 ∧
    ∀ pending' fd', (openParentLoop env ps i pending fd t).1 = .ok (pending',fd') →
      pending'.toList++fd' = (ps.filter (· != dot)).reverse++(pending.toList++fd) := by
  induction ps generalizing i pending fd t with
  | nil =>
    refine ⟨Grown.refl _ t,fun pending' fd' h => ?_⟩
    obtain ⟨rfl,rfl⟩ := Prod.mk.inj (Except.ok.inj h)
    simp
  | cons part ps ih =>
    unfold openParentLoop
    split
    · exact ⟨Grown.refl _ t,fun _ _ h => absurd h (by simp)⟩
    split
    · rename_i hdot
      simpa [hdot] using ih i pending fd t
    rename_i hdot
    have hkeep : ((part :: ps).filter (· != dot)).reverse = (ps.filter (· != dot)).reverse++[part] := by
      simp [hdot]
    rw [hkeep]
    cases pending with
    | none => simpa using ih i (some part) fd t
    | some name =>
      have hway : name :: fd <:+ ((ps.filter (· != dot)).reverse++[part]++((some name).toList++fd)).tail := by
        rw [List.tail_append_of_ne_nil (by simp)]
        exact List.suffix_append _ _
      have hmade := mkdirAt_grown (env.mkdir i) hway t
      dsimp only
      split
      · exact ⟨hmade,fun _ _ h => absurd h (by simp)⟩
      · exact ⟨hmade,fun _ _ h => absurd h (by simp)⟩
      · obtain ⟨hgrown,hend⟩ := ih (i+1) (some part) (name :: fd) (mkdirAt (env.mkdir i) (name :: fd) t).2
        rw [List.append_assoc]
        exact ⟨(by simpa using hmade : Grown _ t _).trans hgrown,hend⟩

def target (dataDir : Option Place) (relative : Option CString) : Place :=
  match dataDir,relative with
  | some root,some relative => (components relative.chars).reverse++root
  | _,_ => []

theorem openDataParent_spec (dataDir : Option Place) (relative : Option CString) (t : Files File) :
    Grown (target dataDir relative).tail t (openDataParent env dataDir relative t).2 ∧
    ∀ parent leaf, (openDataParent env dataDir relative t).1 = .ok (parent,leaf) →
      target dataDir relative = leaf :: parent := by
  unfold openDataParent target
  cases dataDir with
  | none => exact ⟨Grown.refl _ t,fun _ _ h => absurd h (by simp)⟩
  | some root =>
    cases relative with
    | none => exact ⟨Grown.refl _ t,fun _ _ h => absurd h (by simp)⟩
    | some relative =>
      obtain ⟨hgrown,hend⟩ := openParentLoop_spec env (parts relative.chars) 0 none root t
      rw [(parts_spec relative.chars).1] at hgrown hend
      simp only [Option.toList_none,List.nil_append] at hgrown hend
      dsimp only
      split
      · exact ⟨Grown.refl _ t,fun _ _ h => absurd h (by simp)⟩
      split
      · exact ⟨Grown.refl _ t,fun _ _ h => absurd h (by simp)⟩
      split
      · exact ⟨Grown.refl _ t,fun _ _ h => absurd h (by simp)⟩
      split
      · rename_i e t₁ heq
        rw [heq] at hgrown
        exact ⟨hgrown,fun _ _ h => absurd h (by simp)⟩
      · rename_i fd t₁ heq
        rw [heq] at hgrown
        exact ⟨hgrown,fun _ _ h => absurd h (by simp)⟩
      · rename_i leaf fd t₁ heq
        rw [heq] at hgrown hend
        split
        · exact ⟨hgrown,fun _ _ h => absurd h (by simp)⟩
        · refine ⟨hgrown,fun parent leaf' h => ?_⟩
          obtain ⟨rfl,rfl⟩ := Prod.mk.inj (Except.ok.inj h)
          exact (hend _ _ rfl).symm

end Parent

section Temporary
variable (env : Failures) (parent : Place) (t : Files File)

/-- The attempt finds the name taken, or is made to fail as if it were. -/
def Busy (k : ℕ) : Prop :=
  env.openTemporary k = some .eexist ∨
    env.openTemporary k = none ∧ (t (temporaryName env.pid k :: parent)).isSome = true

/-- The first attempt that does not find its name taken makes the file. -/
def Created (k : ℕ) : Prop :=
  k < 128 ∧ (∀ i < k, Busy env parent t i) ∧ env.openTemporary k = none ∧ t (temporaryName env.pid k :: parent) = none

/-- The attempts end with this one and no file was made. -/
def LastTried (k : ℕ) : Prop :=
  k < 128 ∧ (∀ i < k, Busy env parent t i) ∧
    ((∃ e, env.openTemporary k = some e ∧ e ≠ .eexist) ∨ k = 127 ∧ Busy env parent t k)

theorem temporaryName_short {pid attempt : ℕ} (hpid : pid < 2^31) (hattempt : attempt < 128) :
    (temporaryName pid attempt).length < 96 := by
  have h1 : (Nat.toDigits 10 pid).length ≤ 10 :=
    (Nat.length_toDigits_le_iff (by omega) (by omega)).mpr (by omega)
  have h2 : (Nat.toDigits 10 attempt).length ≤ 3 :=
    (Nat.length_toDigits_le_iff (by omega) (by omega)).mpr (by omega)
  simp only [temporaryName,List.length_append,List.length_cons,List.length_nil]
  omega

theorem openTemporary_spec (remaining attempt : ℕ) (last : Name) (hsum : remaining+attempt = 128)
    (hbusy : ∀ i < attempt, Busy env parent t i) (hlast : ∀ i, attempt = i+1 → last = temporaryName env.pid i) :
    (∃ k, Created env parent t k ∧ openTemporary env parent t remaining attempt last =
      (.ok (temporaryName env.pid k),
        Function.update t (temporaryName env.pid k :: parent) (some (.file (.regular [] 0o600))))) ∨
    ∃ k e, LastTried env parent t k ∧ openTemporary env parent t remaining attempt last =
      (.error (e,temporaryName env.pid k),t) := by
  induction remaining generalizing attempt last with
  | zero =>
    obtain rfl : attempt = 128 := by omega
    refine Or.inr ⟨127,.eexist,⟨by omega,fun i hi => hbusy i (by omega),Or.inr ⟨rfl,hbusy 127 (by omega)⟩⟩,?_⟩
    rw [openTemporary,hlast 127 rfl]
  | succ remaining ih =>
    have hshort := temporaryName_short env.pid_lt (show attempt < 128 by omega)
    unfold openTemporary
    dsimp only
    rw [if_neg hshort.not_ge]
    have hnext : Busy env parent t attempt →
        (∃ k, Created env parent t k ∧
          openTemporary env parent t remaining (attempt+1) (temporaryName env.pid attempt) =
            (.ok (temporaryName env.pid k),
              Function.update t (temporaryName env.pid k :: parent) (some (.file (.regular [] 0o600))))) ∨
        ∃ k e, LastTried env parent t k ∧
          openTemporary env parent t remaining (attempt+1) (temporaryName env.pid attempt) =
            (.error (e,temporaryName env.pid k),t) := by
      intro hnow
      refine ih (attempt+1) _ (by omega) (fun i hi => ?_) fun i hi => by rw [show attempt = i by omega]
      rcases Nat.lt_succ_iff_lt_or_eq.mp hi with hlt | rfl
      · exact hbusy i hlt
      · exact hnow
    cases hfail : env.openTemporary attempt with
    | some e =>
      simp only [createAt]
      by_cases hexist : e = .eexist
      · subst hexist
        simpa using hnext (Or.inl hfail)
      · rw [if_pos hexist]
        exact Or.inr ⟨attempt,e,⟨by omega,hbusy,Or.inl ⟨e,hfail,hexist⟩⟩,rfl⟩
    | none =>
      simp only [createAt]
      by_cases hthere : (t (temporaryName env.pid attempt :: parent)).isSome = true
      · rw [if_pos hthere]
        simpa using hnext (Or.inr ⟨hfail,hthere⟩)
      · rw [if_neg hthere]
        exact Or.inl ⟨attempt,⟨by omega,hbusy,hfail,by simpa using hthere⟩,rfl⟩

end Temporary

section Fill
variable (env : Failures)

theorem writeAll_ok {writes : List Write} {data : List UInt8} (h : (writeAll writes data).1 = .ok ()) :
    (writeAll writes data).2 = data := by
  fun_induction writeAll writes data with
  | case1 => rfl
  | case2 => rfl
  | case3 data hne writes ih => exact ih h
  | case4 => simp at h
  | case5 => simp at h
  | case6 size writes data hne hsize rc taken heq ih =>
    rw [heq] at ih
    rw [show taken = data.drop size from ih h,List.take_append_drop]

/-- The file is filled and closed without an error. -/
def Filled (data : List UInt8) : Prop :=
  env.chmod = none ∧ (writeAll env.writes data).1 = .ok () ∧ env.sync = none ∧ env.close = none

/-- The permissions of a file that is filled. -/
def finalMode (data : List UInt8) (mode : ℕ) : ℕ :=
  if data = [] then env.granted (mode%2^12) else env.written (env.granted (mode%2^12))

theorem finalMode_eq (data : List UInt8) {mode : ℕ} (h : mode%2^12 < 2^10) : finalMode env data mode = mode%2^12 := by
  obtain ⟨hgranted,hwritten⟩ := env.kept _ h
  rw [finalMode,hgranted,hwritten,ite_self]

instance (data : List UInt8) : Decidable (Filled env data) := inferInstanceAs (Decidable (_ ∧ _ ∧ _ ∧ _))

theorem modifyAt_update (t : Files File) (p : Place) (content : List UInt8) (m : ℕ)
    (bytes : List UInt8 → List UInt8) (mode : ℕ → ℕ) :
    modifyAt p bytes mode (Function.update t p (some (.file (.regular content m)))) =
      Function.update t p (some (.file (.regular (bytes content) (mode m)))) := by
  simp [modifyAt]

theorem fillTemporary_spec (t : Files File) (p : Place) (data : List UInt8) (mode m : ℕ) :
    ((fillTemporary env p data mode (Function.update t p (some (.file (.regular [] m))))).1 = .ok () ↔
      Filled env data) ∧
    ∃ f, (fillTemporary env p data mode (Function.update t p (some (.file (.regular [] m))))).2 =
        Function.update t p (some (.file f)) ∧
      (Filled env data → f = .regular data (finalMode env data mode)) := by
  unfold fillTemporary Filled
  cases hchmod : env.chmod with
  | some e => exact ⟨by simp,_,rfl,fun h => absurd h.1 (by simp)⟩
  | none =>
    have hdata := @writeAll_ok env.writes data
    simp only [modifyAt_update,id,List.nil_append,true_and]
    cases hrc : (writeAll env.writes data).1 with
    | error e => exact ⟨by simp,_,rfl,fun h => absurd h.1 (by simp)⟩
    | ok u =>
      have hmode : (if data = [] then id else env.written) (env.granted (mode%2^12)) = finalMode env data mode := by
        rw [finalMode]
        split <;> rfl
      rw [hdata hrc,hmode]
      cases hsync : env.sync with
      | some e => exact ⟨by simp,_,rfl,fun _ => rfl⟩
      | none =>
        cases hclose : env.close with
        | some e => exact ⟨by simp,_,rfl,fun _ => rfl⟩
        | none => exact ⟨by simp,_,rfl,fun _ => rfl⟩

end Fill

section Outcome
variable (env : Failures)

/-- Either the file is in place with the bytes and the permissions, or nothing is there that was not
before; on the way directories may have been added, and no other place has changed. -/
def Promise (place : Place) (content : File) (t : Files File) (r : Except SysErrno Unit × Files File) : Prop :=
  match r.1 with
  | .ok _ => ∃ t₁, Grown place.tail t t₁ ∧ r.2 = Function.update t₁ place (some (.file content))
  | .error _ => Grown place.tail t r.2

/-- The directory of the file can be opened, and made where it is missing. -/
def Opens (dataDir : Option Place) (relative : Option CString) (t : Files File) : Prop :=
  ∃ parent leaf, (openDataParent env dataDir relative t).1 = .ok (parent,leaf)

/-- How the promise is lost: no temporary file is made and the clean-up removes the file of the name tried
last; or one is made, the file does not get into place, and the clean-up fails; or the file gets into
place, but without permissions that were asked for; or it gets there, where it was not already, and the
directory is not synchronised. -/
def Loses (dataDir : Option Place) (relative : Option CString) (source : Source) (mode : ℕ) (t : Files File) : Prop :=
  source.missing = false ∧ Opens env dataDir relative t ∧
    ((∃ k f, LastTried env (target dataDir relative).tail t k ∧
        t (temporaryName env.pid k :: (target dataDir relative).tail) = some (.file f) ∧ env.unlink = none) ∨
      ∃ k, Created env (target dataDir relative).tail t k ∧
        if Filled env source.data ∧ env.rename = none ∧ t (target dataDir relative) ≠ some .dir then
          if env.syncParent = none then finalMode env source.data mode ≠ mode%2^12
          else t (target dataDir relative) ≠ some (.file (.regular source.data (finalMode env source.data mode)))
        else env.unlink ≠ none)

theorem unlinkAt_update {t : Files File} {p : Place} (hfree : t p = none) (f : File) :
    unlinkAt env.unlink p (Function.update t p (some (.file f))) =
      if env.unlink = none then t else Function.update t p (some (.file f)) := by
  unfold unlinkAt
  cases env.unlink with
  | some e => rfl
  | none =>
    have hfile : FileTree.isDir (Function.update t p (some (Node.file f))) p = false := by simp [FileTree.isDir]
    rw [if_neg (by simp [hfile]),Function.update_idem,← hfree,Function.update_eq_self]
    rfl

/-- The temporary file gets the name, unless that is a directory's or the call fails. -/
theorem renameAt_update {t : Files File} {p q : Place} (hfree : t p = none) (f : File) :
    (env.rename = none ∧ t q ≠ some .dir ∧ renameAt env.rename p q (Function.update t p (some (.file f))) =
      (.ok (),Function.update t q (some (.file f)))) ∨
    (¬(env.rename = none ∧ t q ≠ some .dir) ∧ ∃ e, renameAt env.rename p q (Function.update t p (some (.file f))) =
      (.error e,Function.update t p (some (.file f)))) := by
  unfold renameAt
  cases hrename : env.rename with
  | some e => exact Or.inr ⟨by simp,e,rfl⟩
  | none =>
    simp only [Function.update_self,true_and]
    by_cases hsame : p = q
    · subst hsame
      rw [if_pos rfl]
      exact Or.inl ⟨by simp [hfree],rfl⟩
    · have hdir : FileTree.isDir (Function.update t p (some (Node.file f))) q = FileTree.isDir t q := by
        simp only [FileTree.isDir,Function.update_of_ne (Ne.symm hsame)]
      rw [if_neg hsame,hdir]
      by_cases hq : t q = some .dir
      · rw [if_pos (FileTree.isDir_iff.mpr hq)]
        exact Or.inr ⟨by simp [hq],_,rfl⟩
      · rw [if_neg fun h => hq (FileTree.isDir_iff.mp h),Function.update_idem,← hfree,Function.update_eq_self]
        exact Or.inl ⟨hq,rfl⟩

theorem created_not_busy {parent : Place} {t : Files File} {k : ℕ} (h : Created env parent t k) :
    ¬Busy env parent t k := by
  obtain ⟨-,-,hopen,hfree⟩ := h
  rintro (he | ⟨-,hthere⟩)
  · exact absurd (hopen.symm.trans he) (by simp)
  · simp [hfree] at hthere

theorem lastTried_busy {parent : Place} {t : Files File} {k : ℕ} (h : LastTried env parent t k)
    (hbusy : Busy env parent t k) : k = 127 := by
  rcases h.2.2 with ⟨e,he,hne⟩ | ⟨h127,-⟩
  · rcases hbusy with he' | ⟨hnone,-⟩
    · exact absurd (Option.some.inj (he.symm.trans he')) hne
    · exact absurd (he.symm.trans hnone) (by simp)
  · exact h127

theorem created_unique {parent : Place} {t : Files File} {k k' : ℕ} (h : Created env parent t k)
    (h' : Created env parent t k') : k = k' := by
  rcases lt_trichotomy k k' with hlt | rfl | hlt
  · exact absurd (h'.2.1 k hlt) (created_not_busy env h)
  · rfl
  · exact absurd (h.2.1 k' hlt) (created_not_busy env h')

theorem lastTried_unique {parent : Place} {t : Files File} {k k' : ℕ} (h : LastTried env parent t k)
    (h' : LastTried env parent t k') : k = k' := by
  have hk := h.1
  have hk' := h'.1
  rcases lt_trichotomy k k' with hlt | rfl | hlt
  · have := lastTried_busy env h (h'.2.1 k hlt)
    omega
  · rfl
  · have := lastTried_busy env h' (h.2.1 k' hlt)
    omega

theorem created_not_lastTried {parent : Place} {t : Files File} {k k' : ℕ} (h : Created env parent t k) :
    ¬LastTried env parent t k' := by
  intro h'
  have hk := h.1
  rcases lt_trichotomy k k' with hlt | rfl | hlt
  · exact created_not_busy env h (h'.2.1 k hlt)
  · rcases h'.2.2 with ⟨e,he,-⟩ | ⟨-,hbusy⟩
    · exact absurd (h.2.2.1.symm.trans he) (by simp)
    · exact created_not_busy env h hbusy
  · have := lastTried_busy env h' (h.2.1 k' hlt)
    omega

theorem not_grown_file {parent : Place} {t t' : Files File} {p : Place} {f : File} (h : t' p = some (.file f))
    (hold : t p ≠ some (.file f)) : ¬Grown parent t t' := by
  intro hgrown
  rcases hgrown p with he | ⟨-,hdir,-⟩
  · exact hold (he.symm.trans h)
  · exact absurd (h.symm.trans hdir) (by simp)

theorem unlinkAt_grown_iff {parent : Place} {t t₁ : Files File} (hgrown : Grown parent t t₁) (name : Name) :
    Grown parent t (unlinkAt env.unlink (name :: parent) t₁) ↔
      ¬∃ f, t (name :: parent) = some (.file f) ∧ env.unlink = none := by
  have hchild := hgrown.child name
  unfold unlinkAt
  cases hunlink : env.unlink with
  | some e => exact iff_of_true hgrown (by simp)
  | none =>
    simp only [and_true]
    by_cases hdir : t₁ (name :: parent) = some .dir
    · rw [if_pos (FileTree.isDir_iff.mpr hdir)]
      refine iff_of_true hgrown ?_
      rintro ⟨f,hf⟩
      exact absurd (hdir.symm.trans (hchild.trans hf)) (by simp)
    rw [if_neg fun h => hdir (FileTree.isDir_iff.mp h)]
    cases hnode : t (name :: parent) with
    | none =>
      have hsame : Function.update t₁ (name :: parent) none = t₁ := by
        rw [← hchild.trans hnode,Function.update_eq_self]
      rw [hsame]
      exact iff_of_true hgrown (by simp)
    | some node =>
      cases node with
      | dir => exact absurd (hchild.trans hnode) hdir
      | file f =>
        refine iff_of_false (fun h => ?_) (not_not.mpr ⟨f,rfl⟩)
        rcases h (name :: parent) with he | ⟨hnone,-⟩
        · rw [Function.update_self,hnode] at he
          exact absurd he (by simp)
        · exact absurd (hnode.symm.trans hnone) (by simp)

/-- With a temporary file the promise is kept where the clean-up works, and where the file gets into place
if then the directory is synchronised and the permissions are those asked for, or nothing had to change. -/
theorem putInPlace_iff {parent : Place} {t t₁ : Files File} (hgrown : Grown parent t t₁) {temporary : Name}
    (hfree : t (temporary :: parent) = none) (leaf : Name) (data : List UInt8) (mode : ℕ) :
    Promise (leaf :: parent) (.regular data (mode%2^12)) t (putInPlace env parent temporary leaf data mode
        (Function.update t₁ (temporary :: parent) (some (.file (.regular [] 0o600))))) ↔
      if Filled env data ∧ env.rename = none ∧ t (leaf :: parent) ≠ some .dir then
        if env.syncParent = none then finalMode env data mode = mode%2^12
        else t (leaf :: parent) = some (.file (.regular data (finalMode env data mode)))
      else env.unlink = none := by
  have hfree₁ : t₁ (temporary :: parent) = none := (hgrown.child temporary).trans hfree
  -- what the clean-up leaves of a file that did not get into place
  have hclean : ∀ f, Grown parent t (unlinkAt env.unlink (temporary :: parent)
      (Function.update t₁ (temporary :: parent) (some (.file f)))) ↔ env.unlink = none := by
    intro f
    rw [unlinkAt_update env hfree₁]
    by_cases hunlink : env.unlink = none
    · rw [if_pos hunlink]
      exact iff_of_true hgrown hunlink
    · rw [if_neg hunlink]
      exact iff_of_false (not_grown_file (Function.update_self _ _ _) (by simp [hfree])) hunlink
  obtain ⟨hfilled,f,hstate,hcontent⟩ := fillTemporary_spec env t₁ (temporary :: parent) data mode 0o600
  unfold putInPlace
  cases hfill : fillTemporary env (temporary :: parent) data mode
      (Function.update t₁ (temporary :: parent) (some (.file (.regular [] 0o600)))) with
  | mk rc t₂ =>
    rw [hfill] at hfilled hstate
    simp only at hfilled hstate
    subst hstate
    cases rc with
    | error e =>
      have hnot : ¬Filled env data := fun h => absurd (hfilled.mpr h) (by simp)
      rw [if_neg fun h => hnot h.1]
      exact hclean f
    | ok u =>
      have hyes : Filled env data := hfilled.mp rfl
      obtain rfl := hcontent hyes
      rw [← hgrown.child leaf]
      rcases renameAt_update env (q := leaf :: parent) hfree₁ (.regular data (finalMode env data mode)) with
        ⟨hrename,hdir,hren⟩ | ⟨hnot,e,hren⟩
      · rw [if_pos ⟨hyes,hrename,hdir⟩]
        dsimp only
        rw [hren]
        cases hsync : env.syncParent with
        | none =>
          rw [if_pos rfl]
          constructor
          · rintro ⟨t₂,-,heq⟩
            have hplace := congrFun heq (leaf :: parent)
            simp only [Function.update_self,Option.some.injEq,Node.file.injEq,File.regular.injEq,true_and] at hplace
            exact hplace
          · exact fun h => ⟨t₁,hgrown,by rw [h]⟩
        | some e =>
          rw [if_neg (by simp)]
          refine ⟨fun h => ?_,fun h => ?_⟩
          · by_contra hold
            rw [hgrown.child leaf] at hold
            exact not_grown_file (Function.update_self _ _ _) hold h
          · show Grown parent t _
            dsimp only
            rw [← h,Function.update_eq_self]
            exact hgrown
      · rw [if_neg fun h => hnot h.2]
        dsimp only
        rw [hren]
        exact hclean _

/-- The promise is kept exactly where it is not lost. -/
theorem atomic_write_iff (dataDir : Option Place) (relative : Option CString) (source : Source) (mode : ℕ)
    (t : Files File) :
    Promise (target dataDir relative) (.regular source.data (mode%2^12)) t
        (atomicWrite env dataDir relative source mode t) ↔ ¬Loses env dataDir relative source mode t := by
  unfold atomicWrite
  cases hsource : source.missing with
  | true => exact iff_of_true (Grown.refl _ t) fun h => absurd h.1 (by simp [hsource])
  | false =>
    obtain ⟨hgrown,hplace⟩ := openDataParent_spec env dataDir relative t
    rw [if_neg Bool.false_ne_true]
    cases hopen : openDataParent env dataDir relative t with
    | mk rc t₁ =>
      rw [hopen] at hgrown hplace
      cases rc with
      | error e =>
        refine iff_of_true hgrown ?_
        rintro ⟨-,⟨parent,leaf,hok⟩,-⟩
        rw [hopen] at hok
        exact absurd hok (by simp)
      | ok place =>
        obtain ⟨parent,leaf⟩ := place
        have htarget := hplace parent leaf rfl
        have hopens : Opens env dataDir relative t := ⟨parent,leaf,by rw [hopen]⟩
        simp only [Loses,hsource,hopens,htarget,List.tail_cons,true_and] at hgrown ⊢
        rcases openTemporary_spec env parent t₁ 128 0 [] rfl (by simp) (by simp) with
          ⟨k,hk,heq⟩ | ⟨k,e,hk,heq⟩
        · have hk' : Created env parent t k := by simpa only [Created,Busy,hgrown.child] using hk
          rw [heq]
          refine (putInPlace_iff env hgrown hk'.2.2.2 leaf source.data mode).trans ?_
          have honly : ∀ k₁, Created env parent t k₁ ↔ k₁ = k := fun k₁ =>
            ⟨fun h => created_unique env h hk',fun h => h ▸ hk'⟩
          have hnone : ∀ k₁, ¬LastTried env parent t k₁ := fun k₁ => created_not_lastTried env hk'
          simp only [honly,hnone,false_and,exists_false,exists_eq_left,false_or]
          split_ifs
          · exact not_not.symm
          · exact not_not.symm
          · exact not_not.symm
        · have hk' : LastTried env parent t k := by simpa only [LastTried,Busy,hgrown.child] using hk
          obtain ⟨c,rest,hname⟩ : ∃ c rest, temporaryName env.pid k = c :: rest := ⟨_,_,rfl⟩
          have hrun := unlinkAt_grown_iff env hgrown (temporaryName env.pid k)
          rw [heq]
          rw [hname] at hrun ⊢
          refine Iff.trans hrun (not_congr ?_)
          rw [← hname]
          constructor
          · rintro ⟨f,hf,hunlink⟩
            exact Or.inl ⟨k,f,hk',hf,hunlink⟩
          · rintro (⟨k₁,f,hk₁,hf,hunlink⟩ | ⟨k₁,hk₁,-⟩)
            · rw [lastTried_unique env hk' hk₁]
              exact ⟨f,hf,hunlink⟩
            · exact absurd hk' (created_not_lastTried env hk₁)

/-- No descriptor is left for the temporary file. -/
def outOfDescriptors : Failures :=
  { copy := false, dup := none, mkdir := fun _ => none, openDirectory := fun _ => none, leaf := false,
    openTemporary := fun _ => some (.other 24), chmod := none, granted := id, writes := [], written := id,
    sync := none, close := none, rename := none, syncParent := none, unlink := none, pid := 7, pid_lt := by decide,
    kept := fun _ _ => ⟨rfl,rfl⟩ }

/-- A data directory with a file that has the name the first attempt takes. -/
def withLeftover : Files File
  | [] => some .dir
  | p => if p = [".sword3-tmp-7-0".toList] then some (.file (.regular [1] 0o644)) else none

/-- The call fails and the file is gone. -/
theorem leftover_removed :
    ¬Promise (target (some []) (some ⟨['s'],by decide⟩)) (.regular [2] (0o600%2^12)) withLeftover
        (atomicWrite outOfDescriptors (some []) (some ⟨['s'],by decide⟩) (.bytes [2]) 0o600 withLeftover) := by
  have hrun : (atomicWrite outOfDescriptors (some []) (some ⟨['s'],by decide⟩) (.bytes [2]) 0o600 withLeftover).1 =
      .error (.other 24) := by decide +kernel
  have hgone : (atomicWrite outOfDescriptors (some []) (some ⟨['s'],by decide⟩) (.bytes [2]) 0o600 withLeftover).2
      [".sword3-tmp-7-0".toList] = none := by decide +kernel
  intro h
  unfold Promise at h
  rw [hrun] at h
  rcases h [".sword3-tmp-7-0".toList] with he | ⟨hnone,-⟩
  · rw [hgone] at he
    exact absurd he (by decide)
  · exact absurd hnone (by decide)

end Outcome

end Machismo.Sword3Paths
