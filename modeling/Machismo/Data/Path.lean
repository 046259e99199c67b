import Mathlib

/-! # Paths read as text

A path is a list of characters.  Its components are what stands between slashes, the
empty ones and the single dots left out.  Resolved textually, a double dot goes up one
component; above the start of a relative path the double dots are kept, above the root of
an absolute one they are dropped.  Places are kept innermost component first, so that what
lies inside a directory has it as a suffix.
-/
namespace Machismo.Data.Path

abbrev Name := List Char

def dot : Name := ['.']

def dotdot : Name := ['.','.']

def components (path : List Char) : List Name :=
  (path.splitOn '/').filter fun c => c != [] && c != dot

@[simp] theorem components_nil : components [] = [] := rfl

theorem components_slash (a b : List Char) : components (a ++ '/' :: b) = components a++components b := by
  simp only [components,List.splitOn_append_cons_self,List.filter_append]

theorem components_cons_slash (b : List Char) : components ('/' :: b) = components b :=
  components_slash [] b

theorem components_concat_slash (a : List Char) : components (a++['/']) = components a := by
  rw [components_slash,components_nil,List.append_nil]

section Resolve

/-- One component on, from a place given innermost first. -/
def step (absolute : Bool) (place : List Name) (c : Name) : List Name :=
  if c = dotdot then
    match place with
    | [] => if absolute then [] else [dotdot]
    | top :: rest => if top = dotdot then dotdot :: top :: rest else rest
  else c :: place

def walk (absolute : Bool) (place : List Name) (names : List Name) : List Name :=
  names.foldl (step absolute) place

/-- A place: whether it is counted from the root, and its components, the innermost first. -/
abbrev Place := Bool × List Name

def isAbsolute (path : List Char) : Bool := path.head? == some '/'

/-- The place a path names, dots resolved textually. -/
def place (path : List Char) : Place :=
  (isAbsolute path,walk (isAbsolute path) [] (components path))

/-- A place at or below a directory, reached without leaving it. -/
def Inside (directory p : Place) : Prop :=
  p.1 = directory.1 ∧ ∃ inner, p.2 = inner++directory.2 ∧ dotdot ∉ inner

theorem inside_refl (p : Place) : Inside p p := ⟨rfl,[],rfl,by simp⟩

theorem walk_append (absolute : Bool) (p : List Name) (a b : List Name) :
    walk absolute p (a++b) = walk absolute (walk absolute p a) b :=
  List.foldl_append

theorem walk_names (absolute : Bool) (p : List Name) {names : List Name} (h : dotdot ∉ names) :
    walk absolute p names = names.reverse++p := by
  induction names generalizing p with
  | nil => rfl
  | cons c names ih =>
    obtain ⟨hc,hnames⟩ := not_or.mp (List.mem_cons.not.mp h)
    have hstep : step absolute p c = c :: p := by
      unfold step
      rw [if_neg (Ne.symm hc)]
    rw [walk,List.foldl_cons,hstep]
    exact (ih (c :: p) hnames).trans (by simp)

def up (absolute : Bool) (k : ℕ) (p : List Name) : List Name := walk absolute p (List.replicate k dotdot)

theorem up_succ (absolute : Bool) (k : ℕ) (p : List Name) :
    up absolute (k+1) p = step absolute (up absolute k p) dotdot := by
  rw [up,List.replicate_succ',walk_append]
  rfl

theorem up_succ' (absolute : Bool) (k : ℕ) (p : List Name) :
    up absolute (k+1) p = up absolute k (step absolute p dotdot) := rfl

def relativeStep (r : ℕ × List Name) (c : Name) : ℕ × List Name :=
  if c = dotdot then
    match r.2 with
    | [] => (r.1+1,[])
    | _ :: rest => (r.1,rest)
  else (r.1,c :: r.2)

/-- What components do on their own: how far they climb above the start, and what they name from there. -/
def relative (names : List Name) : ℕ × List Name := names.foldl relativeStep (0,[])

theorem relative_concat (names : List Name) (c : Name) :
    relative (names++[c]) = relativeStep (relative names) c := by
  simp only [relative,List.foldl_append,List.foldl_cons,List.foldl_nil]

theorem dotdot_notMem_relative (names : List Name) : dotdot ∉ (relative names).2 := by
  induction names using List.reverseRecOn with
  | nil => simp [relative]
  | append_singleton names c ih =>
    rw [relative_concat]
    unfold relativeStep
    split
    · split
      · simp
      · rename_i heq
        rw [heq] at ih
        exact fun h => ih (List.mem_cons_of_mem _ h)
    · rename_i hc
      simp [Ne.symm hc,ih]

theorem walk_eq (absolute : Bool) (p : List Name) (names : List Name) :
    walk absolute p names = (relative names).2++up absolute (relative names).1 p := by
  induction names using List.reverseRecOn with
  | nil => rfl
  | append_singleton names c ih =>
    have hfree := dotdot_notMem_relative names
    rw [walk_append,ih,relative_concat]
    simp only [walk,List.foldl_cons,List.foldl_nil,relativeStep]
    split
    · rename_i hc
      subst hc
      split
      · rename_i heq
        rw [heq,List.nil_append,List.nil_append,up_succ]
      · rename_i top rest heq
        have htop : top ≠ dotdot := by
          rw [heq] at hfree
          exact fun e => hfree (by simp [e])
        simp [step,heq,htop]
    · rename_i hc
      simp [step,hc]

end Resolve

section Inside

/-- A resolved place: names inside, then the double dots a relative path keeps. -/
def Normal (absolute : Bool) (p : List Name) : Prop :=
  ∃ names j, p = names++List.replicate j dotdot ∧ dotdot ∉ names ∧ (absolute = true → j = 0)

theorem up_nil (absolute : Bool) (k : ℕ) : up absolute k [] = if absolute then [] else List.replicate k dotdot := by
  induction k with
  | zero => cases absolute <;> rfl
  | succ k ih =>
    rw [up_succ,ih]
    cases absolute with
    | true => rfl
    | false =>
      cases k with
      | zero => rfl
      | succ k => simp [step,List.replicate_succ]

theorem up_replicate (k j : ℕ) : up false k (List.replicate j dotdot) = List.replicate (j+k) dotdot := by
  have h := up_nil false (j+k)
  rw [if_neg Bool.false_ne_true] at h
  rw [← h,up,up,List.replicate_add,walk_append]
  congr 1
  exact (by simpa [up] using (up_nil false j).symm)

theorem walk_nil_normal (absolute : Bool) (names : List Name) : Normal absolute (walk absolute [] names) := by
  rw [walk_eq,up_nil]
  refine ⟨(relative names).2,if absolute then 0 else (relative names).1,?_,dotdot_notMem_relative names,?_⟩
  · cases absolute <;> simp
  · intro h
    rw [if_pos h]

theorem up_append {names : List Name} (h : dotdot ∉ names) (absolute : Bool) (k : ℕ) (p : List Name) :
    up absolute k (names++p) =
      if k ≤ names.length then names.drop k++p else up absolute (k-names.length) p := by
  induction k generalizing names with
  | zero => simp [up,walk]
  | succ k ih =>
    cases names with
    | nil => simp
    | cons c names =>
      obtain ⟨hc,hnames⟩ := not_or.mp (List.mem_cons.not.mp h)
      have hstep : step absolute (c :: names++p) dotdot = names++p := by
        simp [step,Ne.symm hc]
      rw [up_succ',hstep,ih hnames]
      simp

theorem countP_normal {names : List Name} (h : dotdot ∉ names) (j : ℕ) :
    (names++List.replicate j dotdot).countP (fun c => c != dotdot) = names.length := by
  have hnames : names.countP (fun c => c != dotdot) = names.length :=
    List.countP_eq_length.mpr fun c hc => by
      simpa using fun e : c = dotdot => h (e ▸ hc)
  simp [List.countP_append,hnames,List.countP_replicate]

/-- Where a walk from a directory ends inside it: it climbs no further than the directory has names,
and what it names next are the names it climbed over. -/
theorem inside_walk_iff {absolute : Bool} {p : List Name} (hp : Normal absolute p) (names : List Name) :
    Inside (absolute,p) (absolute,walk absolute p names) ↔
      (absolute = true ∨ (relative names).1 ≤ p.countP fun c => c != dotdot) ∧
        p.take (relative names).1 <:+ (relative names).2 := by
  obtain ⟨ds,j,rfl,hds,hj⟩ := hp
  have hfree := dotdot_notMem_relative names
  rw [walk_eq,countP_normal hds]
  generalize (relative names).1 = k at *
  generalize (relative names).2 = ns at *
  rw [up_append hds]
  by_cases hk : k ≤ ds.length
  · rw [if_pos hk,List.take_append_of_le_length hk]
    have hcut : ∀ inner, ns++(ds.drop k++List.replicate j dotdot) = inner++(ds++List.replicate j dotdot) ↔
        ns = inner++ds.take k := by
      intro inner
      have hds' : inner++(ds++List.replicate j dotdot) =
          (inner++ds.take k)++(ds.drop k++List.replicate j dotdot) := by
        rw [List.append_assoc,← List.append_assoc (ds.take k),List.take_append_drop]
      rw [hds']
      exact List.append_left_inj _
    constructor
    · rintro ⟨-,inner,hinner,-⟩
      exact ⟨Or.inr hk,inner,((hcut inner).mp hinner).symm⟩
    · rintro ⟨-,inner,hinner⟩
      exact ⟨rfl,inner,(hcut inner).mpr hinner.symm,fun hmem => hfree (by rw [← hinner]; simp [hmem])⟩
  · rw [if_neg hk]
    cases absolute with
    | true =>
      obtain rfl := hj rfl
      have hds' : ds.take k = ds := List.take_of_length_le (by omega)
      simp only [List.replicate_zero,List.append_nil,up_nil,if_true,hds',true_or,true_and]
      constructor
      · rintro ⟨-,inner,hinner,-⟩
        exact ⟨inner,hinner.symm⟩
      · rintro ⟨inner,hinner⟩
        exact ⟨rfl,inner,hinner.symm,fun hmem => hfree (by rw [← hinner]; simp [hmem])⟩
    | false =>
      constructor
      · -- the double dots that are left over would have to be names of the directory
        rintro ⟨-,inner,hinner,hfree'⟩
        rw [up_replicate,Nat.add_comm,List.replicate_add,← List.append_assoc,← List.append_assoc,
          List.append_left_inj] at hinner
        have hmem : dotdot ∈ ns++List.replicate (k-ds.length) dotdot := by
          have hpos : k-ds.length ≠ 0 := by omega
          simp [hpos]
        rw [hinner] at hmem
        rcases List.mem_append.mp hmem with h | h
        · exact absurd h hfree'
        · exact absurd h hds
      · rintro ⟨h | h,-⟩
        · exact absurd h Bool.false_ne_true
        · exact absurd h hk

end Inside

end Machismo.Data.Path
