import Machismo.Data.FileTree

/-! # Files that make way

Work on a tree, place by place: a directory is made, a file in its way going aside, or a file
is put somewhere.  A file that was put is looked for at its place, perhaps at another one
first.  After a whole run each of them is found exactly when the work is orderly, which
speaks of places only and of what was there before.
-/
namespace Machismo.Data.MakeWay
open Machismo.Data.FileTree
variable {P D : Type}

abbrev Tree (P D : Type) := P → Option (Node D)

inductive Work (P : Type) where
  /-- A directory, and where a file in its way goes. -/
  | make (place aside : P)
  /-- A file, and where it is looked for first. -/
  | put (place : P) (first : Option P)
deriving DecidableEq

def Makes (ws : List (Work P)) (q : P) : Prop := ∃ s, .make q s ∈ ws

def Puts (ws : List (Work P)) (p : P) : Prop := ∃ l, .put p l ∈ ws

section Orderly
variable (dirs files : Set P)

/-- After some of the work, a place is made a directory that was none. -/
structure First (ws before : List (Work P)) (q s : P) : Prop where
  next : before++[.make q s] <+: ws
  there : q ∉ dirs
  made : ¬Makes before q

/-- A file that was there before the work goes aside, perhaps not for the first time. -/
inductive Displaced (ws : List (Work P)) : List (Work P) → P → P → Prop where
  | here {before : List (Work P)} {q s : P} : First dirs ws before q s → q ∈ files → Displaced ws before q s
  | again {earlier before : List (Work P)} {q r s : P} : Displaced ws earlier q r →
      earlier++[.make q r] <+: before → First dirs ws before r s → Displaced ws before r s

structure Orderly (ws : List (Work P)) : Prop where
  /-- No file is put where there is a directory, or on another one. -/
  put : ∀ before p l, before++[.put p l] <+: ws → p ∉ dirs ∧ ¬Makes before p ∧ ¬Puts before p
  /-- A file that was put goes aside only to where it is looked for first. -/
  kept : ∀ p l, .put p l ∈ ws → ∀ before s, First dirs ws before p s → l = some s
  /-- A file from before can go aside, and not over one that was put. -/
  aside : ∀ before q s, Displaced dirs files ws before q s →
    s ≠ q ∧ s ∉ dirs ∧ ¬Makes before s ∧ ¬Puts before s
  /-- Nothing else is put or made where a file is looked for first. -/
  free : ∀ p l, .put p (some l) ∈ ws → ¬Makes ws l ∧ ¬Puts ws l

/-- Where a file is looked for first nothing was before, and no other file goes there. -/
structure Apart (ws : List (Work P)) : Prop where
  ne : ∀ p l, .put p (some l) ∈ ws → l ≠ p
  empty : ∀ p l, .put p (some l) ∈ ws → l ∉ dirs ∧ l ∉ files
  source : ∀ p l, .put p (some l) ∈ ws → ∀ q, .make q l ∈ ws → q = l ∨ q = p

end Orderly

section Work
variable {dirs files : Set P} {ws before : List (Work P)} {q s : P}

theorem not_displaced (h : ∀ q, q ∉ files) : ¬Displaced dirs files ws before q s := by
  intro hmoved
  induction hmoved with
  | here _ hq => exact h _ hq
  | again _ _ _ ih => exact ih

theorem not_makes_nil (q : P) : ¬Makes [] q := by
  rintro ⟨s,hs⟩
  exact absurd hs List.not_mem_nil

theorem makes_concat {w : Work P} : Makes (ws++[w]) q ↔ Makes ws q ∨ ∃ s, w = .make q s := by
  simp only [Makes,List.mem_append,List.mem_singleton,exists_or,eq_comm]

theorem puts_concat {w : Work P} : Puts (ws++[w]) q ↔ Puts ws q ∨ ∃ l, w = .put q l := by
  simp only [Puts,List.mem_append,List.mem_singleton,exists_or,eq_comm]

theorem Makes.mono {more : List (Work P)} (h : Makes ws q) (hle : ws <+: more) : Makes more q :=
  h.imp fun _ hs => hle.subset hs

theorem First.mem (h : First dirs ws before q s) : .make q s ∈ ws := h.next.subset (by simp)

theorem First.makes (h : First dirs ws before q s) : Makes ws q := ⟨s,h.mem⟩

theorem First.mono {more : List (Work P)} (h : First dirs ws before q s) (hle : ws <+: more) :
    First dirs more before q s := ⟨h.next.trans hle,h.there,h.made⟩

theorem Makes.first (h : Makes ws q) (hq : q ∉ dirs) : ∃ before s, First dirs ws before q s := by
  induction ws using List.reverseRecOn with
  | nil => exact absurd h (not_makes_nil q)
  | append_singleton ws w ih =>
    by_cases hmade : Makes ws q
    · obtain ⟨before,s,hfirst⟩ := ih hmade
      exact ⟨before,s,hfirst.mono (List.prefix_append ws [w])⟩
    · obtain ⟨s,rfl⟩ := (makes_concat.mp h).resolve_left hmade
      exact ⟨ws,s,List.prefix_refl _,hq,hmade⟩

theorem First.unique {before' : List (Work P)} {s' : P} (h : First dirs ws before q s)
    (h' : First dirs ws before' q s') : s = s' := by
  have hlt : ∀ {b b' : List (Work P)} {s s' : P}, b++[.make q s] <+: ws → b'++[.make q s'] <+: ws →
      ¬Makes b' q → ¬b.length < b'.length := by
    intro b b' s s' hb hb' hmade hlen
    have hle : b++[.make q s] <+: b' :=
      List.prefix_of_prefix_length_le hb ((List.prefix_append b' _).trans hb') (by simpa using hlen)
    exact hmade ⟨s,hle.subset (by simp)⟩
  have hlen : before.length = before'.length :=
    le_antisymm (not_lt.mp (hlt h'.next h.next h.made)) (not_lt.mp (hlt h.next h'.next h'.made))
  have heq : before++[.make q s] = before'++[.make q s'] :=
    (List.prefix_of_prefix_length_le h.next h'.next (by simp [hlen])).eq_of_length (by simp [hlen])
  simpa using (List.append_inj' heq rfl).2

theorem Displaced.first (h : Displaced dirs files ws before q s) : First dirs ws before q s := by
  cases h with
  | here hfirst _ => exact hfirst
  | again _ _ hfirst => exact hfirst

theorem map_fst_concat (js : List (Work P×D)) (j : Work P×D) :
    (js++[j]).map Prod.fst = js.map Prod.fst++[j.1] := by simp

theorem makes_make {js : List (Work P×D)} {p : P} {x : D} :
    Makes ((js++[((.make q s : Work P),x)]).map Prod.fst) p ↔ Makes (js.map Prod.fst) p ∨ p = q := by
  rw [map_fst_concat,makes_concat]
  simp [eq_comm]

theorem put_mem_of_make {js : List (Work P×D)} {p : P} {l : Option P} {x y : D}
    (h : (.put p l,y) ∈ js++[(.make q s,x)]) : (.put p l,y) ∈ js := by simpa using h

theorem prefix_map_fst {js : List (Work P×D)} {w : Work P} (h : before++[w] <+: js.map Prod.fst) :
    ∃ jb x ja, js = jb++(w,x)::ja ∧ jb.map Prod.fst = before := by
  obtain ⟨rest,hrest⟩ := h
  rw [List.append_assoc,List.singleton_append,eq_comm,List.map_eq_append_iff] at hrest
  obtain ⟨jb,more,rfl,hjb,hmore⟩ := hrest
  obtain ⟨⟨w',x⟩,ja,rfl,rfl,-⟩ := List.map_eq_cons_iff.mp hmore
  exact ⟨jb,x,ja,rfl,hjb⟩

end Work

variable [DecidableEq P]

section Decide

def Work.makes (q : P) : Work P → Bool
  | .make p _ => p = q
  | .put _ _ => false

def Work.puts (q : P) : Work P → Bool
  | .make _ _ => false
  | .put p _ => p = q

theorem any_makes_iff {ws : List (Work P)} {q : P} : ws.any (Work.makes q) = true ↔ Makes ws q := by
  rw [List.any_eq_true]
  constructor
  · rintro ⟨w,hw,hq⟩
    cases w with
    | make p s => exact ⟨s,of_decide_eq_true hq ▸ hw⟩
    | put p l => cases hq
  · rintro ⟨s,hs⟩
    exact ⟨_,hs,decide_eq_true rfl⟩

theorem any_puts_iff {ws : List (Work P)} {q : P} : ws.any (Work.puts q) = true ↔ Puts ws q := by
  rw [List.any_eq_true]
  constructor
  · rintro ⟨w,hw,hq⟩
    cases w with
    | make p s => cases hq
    | put p l => exact ⟨l,of_decide_eq_true hq ▸ hw⟩
  · rintro ⟨l,hl⟩
    exact ⟨_,hl,decide_eq_true rfl⟩

instance (ws : List (Work P)) (q : P) : Decidable (Makes ws q) := decidable_of_iff _ any_makes_iff

instance (ws : List (Work P)) (q : P) : Decidable (Puts ws q) := decidable_of_iff _ any_puts_iff

/-- What is asked of one piece of work after some others, if there were no files before. -/
def Checked (dirs : Set P) (ws before : List (Work P)) : Work P → Prop
  | .put p l => (p ∉ dirs ∧ ¬Makes before p ∧ ¬Puts before p) ∧ ∀ p' ∈ l, ¬Makes ws p' ∧ ¬Puts ws p'
  | .make q s => q ∉ dirs → ¬Makes before q → ∀ w ∈ ws, w.puts q → w = .put q (some s)

instance (dirs : Set P) [DecidablePred (· ∈ dirs)] (ws before : List (Work P)) :
    DecidablePred (Checked dirs ws before)
  | .put _ _ => inferInstanceAs (Decidable (_ ∧ ∀ _ ∈ _, _))
  | .make _ _ => inferInstanceAs (Decidable (_ → _ → _))

theorem orderly_of_checked {dirs files : Set P} {ws : List (Work P)} (hfiles : ∀ q, q ∉ files)
    (h : ∀ i : Fin ws.length, Checked dirs ws (ws.take i) ws[i]) : Orderly dirs files ws := by
  have hall : ∀ before w, before++[w] <+: ws → Checked dirs ws before w := by
    rintro before w ⟨rest,rfl⟩
    simpa using h ⟨before.length,by simp⟩
  refine ⟨fun before p l hput => (hall before _ hput).1,fun p l hput before s hfirst => ?_,
    fun before q s hmoved => absurd hmoved (not_displaced hfiles),fun p l hput => ?_⟩
  · have hw := hall before _ hfirst.next hfirst.there hfirst.made _ hput (decide_eq_true rfl)
    exact (Work.put.inj hw).2
  · obtain ⟨before,rest,hws⟩ := List.append_of_mem hput
    have hw := hall before (.put p (some l)) ⟨rest,by simp [hws]⟩
    exact hw.2 l rfl

end Decide

/-- A work is done, with the data if it puts a file. -/
inductive Does : Work P×D → Tree P D → Tree P D → Prop where
  | there {t : Tree P D} {q s : P} {x : D} : t q = some .dir → Does (.make q s,x) t t
  | new {t : Tree P D} {q s : P} {x : D} : t q = none → Does (.make q s,x) t (Function.update t q (some .dir))
  | aside {t : Tree P D} {q s : P} {x y : D} : t q = some (.file y) → s ≠ q → t s ≠ some .dir →
      Does (.make q s,x) t (Function.update (Function.update t s (some (.file y))) q (some .dir))
  | put {t : Tree P D} {p : P} {l : Option P} {x : D} : t p ≠ some .dir →
      Does (.put p l,x) t (Function.update t p (some (.file x)))

def Run : List (Work P×D) → Tree P D → Tree P D → Prop
  | [],t,t' => t = t'
  | j::js,t,t' => ∃ m, Does j t m ∧ Run js m t'

def Found (t : Tree P D) (p : P) (l : Option P) (x : D) : Prop :=
  (∃ p', l = some p' ∧ t p' = some (.file x)) ∨ ((∀ p', l = some p' → t p' = none) ∧ t p = some (.file x))

def Holds (t : Tree P D) (x : D) : Prop := ∃ r, t r = some (.file x)

section Does
variable {j : Work P×D} {t t' : Tree P D} {r : P} {x : D}

theorem Does.dir_iff (h : Does j t t') (r : P) :
    t' r = some .dir ↔ t r = some .dir ∨ ∃ s, j.1 = .make r s := by
  cases h with
  | there hdir =>
    refine ⟨.inl,fun h => h.elim id fun ⟨s',hs'⟩ => ?_⟩
    cases hs'
    exact hdir
  | @new _ q s x hnone =>
    by_cases hr : r = q
    · subst hr
      simp
    · simp [Function.update_of_ne hr,Ne.symm hr]
  | @aside _ q s x y hfile hne hfree =>
    by_cases hr : r = q
    · subst hr
      simp
    · by_cases hrs : r = s
      · subst hrs
        simp [Function.update_of_ne hr,Ne.symm hr,hfree]
      · simp [Function.update_of_ne hr,Function.update_of_ne hrs,Ne.symm hr]
  | @put _ p l x hfree =>
    by_cases hr : r = p
    · subst hr
      simp [hfree]
    · simp [Function.update_of_ne hr]

theorem Does.occupied (h : Does j t t') (hr : t r ≠ none) : t' r ≠ none := by
  cases h with
  | there _ => exact hr
  | @new _ q s x _ =>
    by_cases hrq : r = q
    · simp [hrq]
    · rwa [Function.update_of_ne hrq]
  | @aside _ q s x y _ _ _ =>
    by_cases hrq : r = q
    · simp [hrq]
    · rw [Function.update_of_ne hrq]
      by_cases hrs : r = s
      · simp [hrs]
      · rwa [Function.update_of_ne hrs]
  | @put _ p l x _ =>
    by_cases hrp : r = p
    · simp [hrp]
    · rwa [Function.update_of_ne hrp]

theorem Does.file_cases (h : Does j t t') (hr : t' r = some (.file x)) : t r = some (.file x) ∨
    (∃ q, j.1 = .make q r ∧ q ≠ r ∧ t q = some (.file x)) ∨ ∃ l, j = (.put r l,x) := by
  cases h with
  | there _ => exact .inl hr
  | @new _ q s _ _ =>
    by_cases hrq : r = q
    · rw [hrq,Function.update_self] at hr
      cases hr
    · exact .inl (by rwa [Function.update_of_ne hrq] at hr)
  | @aside _ q s _ y hfile hne _ =>
    by_cases hrq : r = q
    · rw [hrq,Function.update_self] at hr
      cases hr
    · rw [Function.update_of_ne hrq] at hr
      by_cases hrs : r = s
      · rw [hrs,Function.update_self] at hr
        cases hr
        exact .inr (.inl ⟨q,by rw [hrs],hrs ▸ hne.symm,hfile⟩)
      · exact .inl (by rwa [Function.update_of_ne hrs] at hr)
  | @put _ p l _ _ =>
    by_cases hrp : r = p
    · rw [hrp,Function.update_self] at hr
      cases hr
      exact .inr (.inr ⟨l,by rw [hrp]⟩)
    · exact .inl (by rwa [Function.update_of_ne hrp] at hr)

end Does

section Run
variable {js ks : List (Work P×D)} {t t' m : Tree P D} {r p : P} {x : D} {dirs files : Set P}

theorem run_append : Run (js++ks) t t' ↔ ∃ m, Run js t m ∧ Run ks m t' := by
  induction js generalizing t with
  | nil => simp [Run]
  | cons j js ih =>
    simp only [List.cons_append,Run,ih]
    exact ⟨fun ⟨m,hj,m',hjs,hks⟩ => ⟨m',⟨m,hj,hjs⟩,hks⟩,fun ⟨m',⟨m,hj,hjs⟩,hks⟩ => ⟨m,hj,m',hjs,hks⟩⟩

theorem run_concat {j : Work P×D} : Run (js++[j]) t t' ↔ ∃ m, Run js t m ∧ Does j m t' := by
  rw [run_append]
  simp [Run]

theorem Run.dir_iff (h : Run js t t') (r : P) :
    t' r = some .dir ↔ t r = some .dir ∨ Makes (js.map Prod.fst) r := by
  induction js using List.reverseRecOn generalizing t' with
  | nil =>
    obtain rfl : t = t' := h
    exact (or_iff_left (not_makes_nil r)).symm
  | append_singleton js j ih =>
    obtain ⟨m,hjs,hj⟩ := run_concat.mp h
    rw [hj.dir_iff r,ih hjs,map_fst_concat,makes_concat,or_assoc]

theorem Run.occupied (h : Run js t t') (hr : t r ≠ none) : t' r ≠ none := by
  induction js generalizing t with
  | nil =>
    obtain rfl : t = t' := h
    exact hr
  | cons j js ih =>
    obtain ⟨m,hj,hjs⟩ := h
    exact ih hjs (hj.occupied hr)

theorem Run.holds (h : Run js t t') (hx : Holds t' x) : Holds t x ∨ ∃ p l, (.put p l,x) ∈ js := by
  induction js using List.reverseRecOn generalizing t' with
  | nil =>
    obtain rfl : t = t' := h
    exact .inl hx
  | append_singleton js j ih =>
    obtain ⟨m,hjs,hj⟩ := run_concat.mp h
    have hbefore : Holds m x → Holds t x ∨ ∃ p l, (.put p l,x) ∈ js++[j] := fun hm =>
      (ih hjs hm).imp_right fun ⟨p,l,hp⟩ => ⟨p,l,List.mem_append_left _ hp⟩
    obtain ⟨r,hr⟩ := hx
    rcases hj.file_cases hr with hsame | ⟨q,-,-,hq⟩ | ⟨l,rfl⟩
    · exact hbefore ⟨r,hsame⟩
    · exact hbefore ⟨q,hq⟩
    · exact .inr ⟨r,l,by simp⟩

/-- Where the file is that was put: at its place or, if that was made a directory, at a place a file went to. -/
theorem Run.located (h : Run js t t') (hfresh : ¬Holds t x) (honly : ∀ p' l, (.put p' l,x) ∈ js → p' = p)
    (hdirs : ∀ q ∈ dirs, t q = some .dir) (hr : t' r = some (.file x)) : r = p ∨ Makes (js.map Prod.fst) p ∧
      ∃ before q, q ≠ r ∧ First dirs (js.map Prod.fst) before q r := by
  induction js using List.reverseRecOn generalizing t' r with
  | nil =>
    obtain rfl : t = t' := h
    exact absurd ⟨r,hr⟩ hfresh
  | append_singleton js j ih =>
    obtain ⟨m,hjs,hj⟩ := run_concat.mp h
    have honly' : ∀ p' l, (.put p' l,x) ∈ js → p' = p := fun p' l hp' => honly p' l (List.mem_append_left _ hp')
    rw [map_fst_concat]
    have hle : js.map Prod.fst <+: js.map Prod.fst++[j.1] := List.prefix_append _ _
    rcases hj.file_cases hr with hsame | ⟨q,hmake,hne,hq⟩ | ⟨l,rfl⟩
    · exact (ih hjs honly' hsame).imp_right fun ⟨hmade,before,q,hne,hfirst⟩ =>
        ⟨hmade.mono hle,before,q,hne,hfirst.mono hle⟩
    · have hdir := hjs.dir_iff q
      rw [hq] at hdir
      obtain ⟨hnot,hmade⟩ := not_or.mp (hdir.not.mp (by simp))
      refine .inr ⟨?_,js.map Prod.fst,q,hne,by rw [hmake],fun hmem => hnot (hdirs q hmem),hmade⟩
      rcases ih hjs honly' hq with rfl | ⟨hmade',-⟩
      · exact makes_concat.mpr (.inr ⟨r,hmake⟩)
      · exact hmade'.mono hle
    · exact .inl (honly r l (by simp))

end Run

def dirsOf (t : Tree P D) : Set P := {q | t q = some .dir}

def filesOf (t : Tree P D) : Set P := {q | ∃ x, t q = some (.file x)}

theorem dirsOf_mapData {E : Type} (f : D → E) (t : Files D) : dirsOf (mapData f t) = dirsOf t := by
  ext p
  simp only [dirsOf,mapData,Set.mem_ofPred_eq]
  cases t p with
  | none => simp
  | some node => cases node <;> simp [Node.map]

theorem filesOf_mapData {E : Type} (f : D → E) (t : Files D) : filesOf (mapData f t) = filesOf t := by
  ext p
  simp only [filesOf,mapData,Set.mem_ofPred_eq]
  cases t p with
  | none => simp
  | some node => cases node <;> simp [Node.map]

/-- The data that are put differ from each other and from all that was there. -/
structure Marked (js : List (Work P×D)) (t : Tree P D) : Prop where
  fresh : ∀ p l x, (.put p l,x) ∈ js → ¬Holds t x
  once : js.Pairwise fun j j' => ∀ p l p' l', j.1 = .put p l → j'.1 = .put p' l' → j.2 ≠ j'.2

/-- A run after which each file is found. -/
structure Finished (js : List (Work P×D)) (t t' : Tree P D) : Prop where
  run : Run js t t'
  marked : Marked js t
  found : ∀ p l x, (.put p l,x) ∈ js → Found t' p l x

section Marked
variable {js ja jb : List (Work P×D)} {t : Tree P D} {p p' : P} {l l' : Option P} {x : D}

theorem Marked.eq (h : Marked js t) (hp : (.put p l,x) ∈ js) (hp' : (.put p' l',x) ∈ js) : p' = p := by
  by_contra hne
  have hsymm : Std.Symm fun j j' : Work P×D => ∀ p l p' l', j.1 = .put p l → j'.1 = .put p' l' → j.2 ≠ j'.2 :=
    ⟨fun _ _ h p l p' l' hj hj' => (h p' l' p l hj' hj).symm⟩
  have hjobs : ((.put p l,x) : Work P×D) ≠ (.put p' l',x) := fun heq => by
    simp only [Prod.mk.injEq,Work.put.injEq] at heq
    exact hne heq.1.1.symm
  exact h.once.forall hp hp' hjobs p l p' l' rfl rfl rfl

omit [DecidableEq P] in
theorem Marked.notMem (h : Marked (jb++ja) t) (hp : (.put p l,x) ∈ jb) (hp' : (.put p' l',x) ∈ ja) : False :=
  (List.pairwise_append.mp h.once).2.2 _ hp _ hp' p l p' l' rfl rfl rfl

end Marked

section Finished
variable {js ja jb : List (Work P×D)} {t t' m : Tree P D} {p q s : P} {l : Option P} {x : D}
  {before : List (Work P)}

theorem Displaced.file (h : Displaced (dirsOf t) (filesOf t) (js.map Prod.fst) before q s) :
    ∀ {jb : List (Work P×D)} {m : Tree P D}, jb.map Prod.fst = before → Run jb t m → ∃ y, m q = some (.file y) := by
  have hfile : ∀ {jb : List (Work P×D)} {m : Tree P D} {q s : P}, Run jb t m →
      First (dirsOf t) (js.map Prod.fst) (jb.map Prod.fst) q s → m q ≠ none → ∃ y, m q = some (.file y) := by
    intro jb m q s hjb hfirst hq
    obtain ⟨node,hnode⟩ := Option.ne_none_iff_exists'.mp hq
    cases node with
    | dir => exact absurd ((hjb.dir_iff q).mp hnode) (not_or.mpr ⟨hfirst.there,hfirst.made⟩)
    | file y => exact ⟨y,hnode⟩
  induction h with
  | here hfirst hq =>
    rintro jb m rfl hjb
    obtain ⟨y,hy⟩ := hq
    exact hfile hjb hfirst (hjb.occupied (by simp [hy]))
  | again _ hle hfirst ih =>
    rintro jb m rfl hjb
    obtain ⟨je,x,jr,rfl,rfl⟩ := prefix_map_fst hle
    obtain ⟨m₀,hje,m₁,hj,hjr⟩ := run_append.mp hjb
    obtain ⟨y,hy⟩ := ih rfl hje
    refine hfile hjb hfirst (hjr.occupied ?_)
    cases hj with
    | there hdir => simp [hy] at hdir
    | new hnone => simp [hy] at hnone
    | aside _ hne _ => simp [Function.update_of_ne hne]

theorem Finished.placed (h : Finished (jb++ja) t t') (hjb : Run jb t m) (hja : Run ja m t')
    (hp : (.put p l,x) ∈ jb) (hdir : m p ≠ some .dir) : m p = some (.file x) := by
  have hmem : (.put p l,x) ∈ jb++ja := List.mem_append_left _ hp
  have hheld : Holds t' x := by
    rcases h.found p l x hmem with ⟨p',-,hp'⟩ | ⟨-,hp'⟩
    · exact ⟨p',hp'⟩
    · exact ⟨p,hp'⟩
  obtain ⟨r,hr⟩ : Holds m x := (hja.holds hheld).resolve_right fun ⟨p',l',hp'⟩ => h.marked.notMem hp hp'
  have honly : ∀ p' l', (.put p' l',x) ∈ jb → p' = p := fun p' l' hp' =>
    h.marked.eq hmem (List.mem_append_left _ hp')
  rcases hjb.located (h.marked.fresh p l x hmem) honly (fun q (hq : q ∈ dirsOf t) => hq) hr with rfl | ⟨hmade,-⟩
  · exact hr
  · exact absurd ((hjb.dir_iff p).mpr (.inr hmade)) hdir

theorem Finished.put (h : Finished js t t') (hput : before++[.put p l] <+: js.map Prod.fst) :
    p ∉ dirsOf t ∧ ¬Makes before p ∧ ¬Puts before p := by
  obtain ⟨jb,x,ja,rfl,rfl⟩ := prefix_map_fst hput
  obtain ⟨m,hjb,m',hj,hja⟩ := run_append.mp h.run
  cases hj with
  | put hfree =>
    obtain ⟨hnot,hmade⟩ := not_or.mp ((hjb.dir_iff p).not.mp hfree)
    refine ⟨hnot,hmade,?_⟩
    rintro ⟨l',hl'⟩
    obtain ⟨⟨w,x'⟩,hx',rfl⟩ := List.mem_map.mp hl'
    -- the file put before would be gone
    have hjobs : jb++(.put p l,x)::ja = (jb++[(.put p l,x)])++ja := by simp
    have hdone : Run (jb++[(.put p l,x)]) t (Function.update m p (some (.file x))) :=
      run_concat.mpr ⟨m,hjb,.put hfree⟩
    rw [hjobs] at h
    have hplace := h.placed hdone hja (List.mem_append_left _ hx') (by simp)
    rw [Function.update_self] at hplace
    cases hplace
    exact (hjobs ▸ h.marked).notMem hx' (List.mem_cons_self ..)

theorem Finished.aside (h : Finished js t t')
    (hmoved : Displaced (dirsOf t) (filesOf t) (js.map Prod.fst) before q s) :
    s ≠ q ∧ s ∉ dirsOf t ∧ ¬Makes before s ∧ ¬Puts before s := by
  obtain ⟨jb,x,ja,rfl,rfl⟩ := prefix_map_fst hmoved.first.next
  obtain ⟨m,hjb,m',hj,hja⟩ := run_append.mp h.run
  obtain ⟨y,hy⟩ := hmoved.file rfl hjb
  have hrest : Run ((.make q s,x)::ja) m t' := ⟨m',hj,hja⟩
  have hjobs : jb++(.make q s,x)::ja = (jb++[(.make q s,x)])++ja := by simp
  have hdone : Run (jb++[(.make q s,x)]) t m' := run_concat.mpr ⟨m,hjb,hj⟩
  cases hj with
  | there hdir => simp [hy] at hdir
  | new hnone => simp [hy] at hnone
  | @aside _ _ _ _ y' hfile hne hfree =>
    obtain ⟨hnot,hmade⟩ := not_or.mp ((hjb.dir_iff s).not.mp hfree)
    refine ⟨hne,hnot,hmade,?_⟩
    rintro ⟨l,hl⟩
    obtain ⟨⟨w,x'⟩,hx',rfl⟩ := List.mem_map.mp hl
    -- the file put there is gone, or it is the one that goes aside and was never there
    have hplace := (hjobs ▸ h).placed hdone hja (List.mem_append_left _ hx') (by simp [Function.update_of_ne hne])
    rw [Function.update_of_ne hne,Function.update_self] at hplace
    cases hplace
    have honly : ∀ p' l', (.put p' l',y') ∈ jb → p' = s := fun p' l' hp' =>
      h.marked.eq (List.mem_append_left _ hx') (List.mem_append_left _ hp')
    have hfresh := h.marked.fresh s l y' (List.mem_append_left _ hx')
    rcases hjb.located hfresh honly (fun q (hq : q ∈ dirsOf t) => hq) hfile with heq | ⟨hmade',-⟩
    · exact hne heq.symm
    · exact hmade hmade'

theorem Finished.kept (h : Finished js t t') (hapart : Apart (dirsOf t) (filesOf t) (js.map Prod.fst))
    (hput : .put p l ∈ js.map Prod.fst) (hfirst : First (dirsOf t) (js.map Prod.fst) before p s) : l = some s := by
  obtain ⟨⟨w,x⟩,hx,rfl⟩ := List.mem_map.mp hput
  have hdir : t' p = some .dir := (h.run.dir_iff p).mpr (.inr hfirst.makes)
  rcases h.found p l x hx with ⟨p',rfl,hp'⟩ | ⟨-,hp'⟩
  · have honly : ∀ q l', (.put q l',x) ∈ js → q = p := fun q l' hq => h.marked.eq hx hq
    rcases h.run.located (h.marked.fresh p _ x hx) honly (fun q (hq : q ∈ dirsOf t) => hq) hp' with
      heq | ⟨-,earlier,q,hne,hlast⟩
    · exact absurd heq (hapart.ne p p' hput)
    · obtain rfl := (hapart.source p p' hput q hlast.mem).resolve_left hne
      rw [hlast.unique hfirst]
  · rw [hdir] at hp'
    cases hp'

theorem Finished.free (h : Finished js t t') (hapart : Apart (dirsOf t) (filesOf t) (js.map Prod.fst)) {p' : P}
    (hput : .put p (some p') ∈ js.map Prod.fst) :
    ¬Makes (js.map Prod.fst) p' ∧ ¬Puts (js.map Prod.fst) p' := by
  obtain ⟨⟨w,x⟩,hx,rfl⟩ := List.mem_map.mp hput
  have hthere : t' p' = some (.file x) ∨ t' p' = none := by
    rcases h.found p (some p') x hx with ⟨q,hq,hfile⟩ | ⟨hnone,-⟩
    · cases hq
      exact .inl hfile
    · exact .inr (hnone p' rfl)
  have hdir : t' p' ≠ some .dir := by
    rcases hthere with hfile | hnone
    · simp [hfile]
    · simp [hnone]
  refine ⟨fun hmade => hdir ((h.run.dir_iff p').mpr (.inr hmade)),?_⟩
  rintro ⟨l',hl'⟩
  obtain ⟨⟨w,x'⟩,hx',rfl⟩ := List.mem_map.mp hl'
  have hfinished : Finished (js++[]) t t' := by rwa [List.append_nil]
  have hplace := hfinished.placed h.run rfl hx' hdir
  rw [hplace] at hthere
  rcases hthere with hfile | hnone
  · cases hfile
    exact hapart.ne p p' hput (h.marked.eq hx hx')
  · cases hnone

theorem Finished.orderly (h : Finished js t t') (hapart : Apart (dirsOf t) (filesOf t) (js.map Prod.fst)) :
    Orderly (dirsOf t) (filesOf t) (js.map Prod.fst) where
  put _ _ _ hput := h.put hput
  kept _ _ hput _ _ hfirst := h.kept hapart hput hfirst
  aside _ _ _ hmoved := h.aside hmoved
  free _ _ hput := h.free hapart hput

end Finished

/-- A tree when some orderly work is done. -/
structure Underway (ws : List (Work P)) (js : List (Work P×D)) (t m : Tree P D) : Prop where
  run : Run js t m
  /-- Files that were put are at their places, or where they are looked for first. -/
  kept : ∀ p l x, (.put p l,x) ∈ js → (¬Makes (js.map Prod.fst) p → m p = some (.file x)) ∧
    (Makes (js.map Prod.fst) p → ∃ p', l = some p' ∧ m p' = some (.file x))
  /-- A file was there before, was put there or went aside to there. -/
  known : ∀ q y, m q = some (.file y) → q ∈ filesOf t ∨ Puts (js.map Prod.fst) q ∨ ∃ before r, r ≠ q ∧
    First (dirsOf t) (js.map Prod.fst) before r q ∧
      (Displaced (dirsOf t) (filesOf t) ws before r q ∨ Puts before r)

section Underway
variable {ws : List (Work P)} {js : List (Work P×D)} {t m : Tree P D} {p q s : P} {l : Option P} {x : D}

theorem underway_nil (ws : List (Work P)) (t : Tree P D) : Underway ws [] t t where
  run := rfl
  kept _ _ _ hp := absurd hp List.not_mem_nil
  known _ y hy := .inl ⟨y,hy⟩

theorem Underway.first (h : Underway ws js t m) (hle : js.map Prod.fst++[.make q s] <+: ws)
    (hq : m q ≠ some .dir) : First (dirsOf t) ws (js.map Prod.fst) q s := by
  obtain ⟨hnot,hmade⟩ := not_or.mp ((h.run.dir_iff q).not.mp hq)
  exact ⟨hle,hnot,hmade⟩

theorem Underway.known_concat (h : Underway ws js t m) (j : Work P×D) {y : D} (hy : m q = some (.file y)) :
    q ∈ filesOf t ∨ Puts ((js++[j]).map Prod.fst) q ∨ ∃ before r, r ≠ q ∧
      First (dirsOf t) ((js++[j]).map Prod.fst) before r q ∧
        (Displaced (dirsOf t) (filesOf t) ws before r q ∨ Puts before r) := by
  rw [map_fst_concat]
  rcases h.known q y hy with hold | hput | ⟨before,r,hne,hlast,horigin⟩
  · exact .inl hold
  · exact .inr (.inl (puts_concat.mpr (.inl hput)))
  · exact .inr (.inr ⟨before,r,hne,hlast.mono (List.prefix_append _ _),horigin⟩)

variable (horderly : Orderly (dirsOf t) (filesOf t) ws)
include horderly

theorem Underway.aside (h : Underway ws js t m) (hapart : Apart (dirsOf t) (filesOf t) ws)
    (hle : js.map Prod.fst++[.make q s] <+: ws) {y : D} (hy : m q = some (.file y)) :
    s ≠ q ∧ m s ≠ some .dir ∧ ¬Puts (js.map Prod.fst) s ∧
      (Displaced (dirsOf t) (filesOf t) ws (js.map Prod.fst) q s ∨ Puts (js.map Prod.fst) q) := by
  have hfirst := h.first hle (by simp [hy])
  have hjs : js.map Prod.fst <+: ws := (List.prefix_append _ _).trans hfirst.next
  have hmoved : Displaced (dirsOf t) (filesOf t) ws (js.map Prod.fst) q s → s ≠ q ∧ m s ≠ some .dir ∧
      ¬Puts (js.map Prod.fst) s ∧ (Displaced (dirsOf t) (filesOf t) ws (js.map Prod.fst) q s ∨
        Puts (js.map Prod.fst) q) := by
    intro hmoved
    obtain ⟨hne,hnot,hmade,hput⟩ := horderly.aside _ q s hmoved
    exact ⟨hne,fun hdir => ((h.run.dir_iff s).mp hdir).elim hnot hmade,hput,.inl hmoved⟩
  rcases h.known q y hy with hold | hput | ⟨before,r,hne,hlast,horigin⟩
  · exact hmoved (.here hfirst hold)
  · obtain ⟨l,hl⟩ := hput
    have hl' := hjs.subset hl
    obtain rfl := horderly.kept q l hl' _ s hfirst
    obtain ⟨hmade,hputs⟩ := horderly.free q s hl'
    refine ⟨hapart.ne q s hl',fun hdir => ?_,fun ⟨l,hl⟩ => hputs ⟨l,hjs.subset hl⟩,.inr ⟨_,hl⟩⟩
    exact ((h.run.dir_iff s).mp hdir).elim (hapart.empty q s hl').1 fun hmem => hmade (hmem.mono hjs)
  · rcases horigin with hearlier | ⟨l,hl⟩
    · exact hmoved (.again hearlier hlast.next hfirst)
    · have hl' := hjs.subset (((List.prefix_append _ _).trans hlast.next).subset hl)
      obtain rfl := horderly.kept r l hl' _ q (hlast.mono hjs)
      exact absurd hfirst.makes (horderly.free r q hl').1

omit horderly in
theorem Underway.make_new (h : Underway ws js t m) (hq : m q = none) (s : P) (x : D) :
    Underway ws (js++[(.make q s,x)]) t (Function.update m q (some .dir)) := by
  refine ⟨run_concat.mpr ⟨m,h.run,.new hq⟩,fun p l x' hp => ?_,fun r y hr => ?_⟩
  · obtain ⟨hplace,hmoved⟩ := h.kept p l x' (put_mem_of_make hp)
    constructor
    · intro hnot
      obtain ⟨hnot,hne⟩ := not_or.mp (makes_make.not.mp hnot)
      rw [Function.update_of_ne hne,hplace hnot]
    · intro hmade
      by_cases hbefore : Makes (js.map Prod.fst) p
      · obtain ⟨p',hp',hfile⟩ := hmoved hbefore
        have hne : p' ≠ q := by
          rintro rfl
          simp [hq] at hfile
        exact ⟨p',hp',by rw [Function.update_of_ne hne,hfile]⟩
      · obtain rfl := (makes_make.mp hmade).resolve_left hbefore
        rw [hplace hbefore] at hq
        cases hq
  · by_cases hrq : r = q
    · rw [hrq,Function.update_self] at hr
      cases hr
    · rw [Function.update_of_ne hrq] at hr
      exact h.known_concat _ hr

omit horderly in
theorem Underway.make_there (h : Underway ws js t m) (hq : m q = some .dir) (s : P) (x : D) :
    Underway ws (js++[(.make q s,x)]) t m := by
  refine ⟨run_concat.mpr ⟨m,h.run,.there hq⟩,fun p l x' hp => ?_,fun r y hr => h.known_concat _ hr⟩
  obtain ⟨hplace,hmoved⟩ := h.kept p l x' (put_mem_of_make hp)
  refine ⟨fun hnot => hplace (not_or.mp (makes_make.not.mp hnot)).1,fun hmade => hmoved ?_⟩
  by_contra hbefore
  obtain rfl := (makes_make.mp hmade).resolve_left hbefore
  rw [hplace hbefore] at hq
  cases hq

theorem Underway.make_aside (h : Underway ws js t m) (hapart : Apart (dirsOf t) (filesOf t) ws)
    (hle : js.map Prod.fst++[.make q s] <+: ws) {y : D} (hq : m q = some (.file y)) (x : D) :
    Underway ws (js++[(.make q s,x)]) t
      (Function.update (Function.update m s (some (.file y))) q (some .dir)) := by
  have hjs : js.map Prod.fst <+: ws := (List.prefix_append _ _).trans hle
  obtain ⟨hne,hfree,hputs,horigin⟩ := h.aside horderly hapart hle hq
  have hfirst := h.first hle (by simp [hq])
  refine ⟨run_concat.mpr ⟨m,h.run,.aside hq hne hfree⟩,fun p l x' hp => ?_,fun r z hr => ?_⟩
  · have hp' : .put p l ∈ js.map Prod.fst := List.mem_map_of_mem (put_mem_of_make hp)
    obtain ⟨hplace,hmoved⟩ := h.kept p l x' (put_mem_of_make hp)
    constructor
    · intro hnot
      obtain ⟨hnot,hpq⟩ := not_or.mp (makes_make.not.mp hnot)
      have hps : p ≠ s := by
        rintro rfl
        exact hputs ⟨l,hp'⟩
      rw [Function.update_of_ne hpq,Function.update_of_ne hps,hplace hnot]
    · intro hmade
      by_cases hbefore : Makes (js.map Prod.fst) p
      · obtain ⟨p',rfl,hfile⟩ := hmoved hbefore
        have hpq : p' ≠ q := by
          rintro rfl
          exact (horderly.free p p' (hjs.subset hp')).1 hfirst.makes
        have hps : p' ≠ s := by
          rintro rfl
          rcases hapart.source p p' (hjs.subset hp') q hfirst.mem with heq | rfl
          · exact hpq heq.symm
          · exact hfirst.made hbefore
        exact ⟨p',rfl,by rw [Function.update_of_ne hpq,Function.update_of_ne hps,hfile]⟩
      · -- the file goes aside now
        obtain rfl := (makes_make.mp hmade).resolve_left hbefore
        rw [hplace hbefore] at hq
        cases hq
        exact ⟨s,horderly.kept p l (hjs.subset hp') _ s hfirst,by
          rw [Function.update_of_ne hne,Function.update_self]⟩
  · by_cases hrq : r = q
    · rw [hrq,Function.update_self] at hr
      cases hr
    · rw [Function.update_of_ne hrq] at hr
      by_cases hrs : r = s
      · subst hrs
        refine .inr (.inr ⟨js.map Prod.fst,q,hne.symm,⟨?_,hfirst.there,hfirst.made⟩,horigin⟩)
        rw [map_fst_concat]
      · rw [Function.update_of_ne hrs] at hr
        exact h.known_concat _ hr

theorem Underway.make (h : Underway ws js t m) (hapart : Apart (dirsOf t) (filesOf t) ws)
    (hle : js.map Prod.fst++[.make q s] <+: ws) (x : D) : ∃ m', Underway ws (js++[(.make q s,x)]) t m' := by
  cases hq : m q with
  | none => exact ⟨_,h.make_new hq s x⟩
  | some node =>
    cases node with
    | dir => exact ⟨_,h.make_there hq s x⟩
    | file y => exact ⟨_,h.make_aside horderly hapart hle hq x⟩

theorem Underway.put (h : Underway ws js t m) (hle : js.map Prod.fst++[.put p l] <+: ws) (x : D) :
    ∃ m', Underway ws (js++[(.put p l,x)]) t m' := by
  obtain ⟨hnot,hmade,hputs⟩ := horderly.put _ p l hle
  have hjs : js.map Prod.fst <+: ws := (List.prefix_append _ _).trans hle
  have hdir : m p ≠ some .dir := fun hdir => ((h.run.dir_iff p).mp hdir).elim hnot hmade
  have hmakes : ∀ q, Makes ((js++[((.put p l : Work P),x)]).map Prod.fst) q ↔ Makes (js.map Prod.fst) q := by
    intro q
    rw [map_fst_concat,makes_concat]
    simp
  refine ⟨Function.update m p (some (.file x)),run_concat.mpr ⟨m,h.run,.put hdir⟩,fun q l' x' hq => ?_,
    fun r y hr => ?_⟩
  · rw [hmakes]
    rcases List.mem_append.mp hq with hq | hq
    · have hq' : .put q l' ∈ js.map Prod.fst := List.mem_map_of_mem hq
      obtain ⟨hplace,hmoved⟩ := h.kept q l' x' hq
      constructor
      · intro hnot
        have hne : q ≠ p := by
          rintro rfl
          exact hputs ⟨l',hq'⟩
        rw [Function.update_of_ne hne,hplace hnot]
      · intro hmade'
        obtain ⟨p',rfl,hfile⟩ := hmoved hmade'
        have hne : p' ≠ p := by
          rintro rfl
          exact (horderly.free q p' (hjs.subset hq')).2 ⟨l,hle.subset (by simp)⟩
        exact ⟨p',rfl,by rw [Function.update_of_ne hne,hfile]⟩
    · simp only [List.mem_singleton,Prod.mk.injEq,Work.put.injEq] at hq
      obtain ⟨⟨rfl,rfl⟩,rfl⟩ := hq
      exact ⟨fun _ => Function.update_self ..,fun hmem => absurd hmem hmade⟩
  · by_cases hrp : r = p
    · rw [map_fst_concat]
      exact .inr (.inl (puts_concat.mpr (.inr ⟨l,by rw [hrp]⟩)))
    · rw [Function.update_of_ne hrp] at hr
      exact h.known_concat _ hr

/-- Orderly work is done, however much of it. -/
theorem Orderly.underway (hapart : Apart (dirsOf t) (filesOf t) ws) (js : List (Work P×D))
    (hle : js.map Prod.fst <+: ws) : ∃ m, Underway ws js t m := by
  induction js using List.reverseRecOn with
  | nil => exact ⟨t,underway_nil ws t⟩
  | append_singleton js j ih =>
    rw [map_fst_concat] at hle
    obtain ⟨m,hm⟩ := ih ((List.prefix_append _ _).trans hle)
    obtain ⟨w,x⟩ := j
    cases w with
    | make q s => exact hm.make horderly hapart hle x
    | put p l => exact hm.put horderly hle x

end Underway

theorem finished_iff {js : List (Work P×D)} {t : Tree P D} (hmarked : Marked js t)
    (hapart : Apart (dirsOf t) (filesOf t) (js.map Prod.fst)) :
    (∃ t', Finished js t t') ↔ Orderly (dirsOf t) (filesOf t) (js.map Prod.fst) := by
  refine ⟨fun ⟨t',h⟩ => h.orderly hapart,fun horderly => ?_⟩
  obtain ⟨t',h⟩ := horderly.underway hapart js (List.prefix_refl _)
  refine ⟨t',h.run,hmarked,fun p l x hp => ?_⟩
  obtain ⟨hplace,hmoved⟩ := h.kept p l x hp
  have hp' : .put p l ∈ js.map Prod.fst := List.mem_map_of_mem hp
  by_cases hmade : Makes (js.map Prod.fst) p
  · exact .inl (hmoved hmade)
  · refine .inr ⟨?_,hplace hmade⟩
    rintro p' rfl
    obtain ⟨hmakes,hputs⟩ := horderly.free p p' hp'
    obtain ⟨hdirs,hfiles⟩ := hapart.empty p p' hp'
    cases hnode : t' p' with
    | none => rfl
    | some node =>
      cases node with
      | dir => exact absurd ((h.run.dir_iff p').mp hnode) (not_or.mpr ⟨hdirs,hmakes⟩)
      | file y =>
        rcases h.known p' y hnode with hold | hput | ⟨before,r,hne,hlast,-⟩
        · exact absurd hold hfiles
        · exact absurd hput hputs
        · rcases hapart.source p p' hp' r hlast.mem with rfl | rfl
          · exact absurd rfl hne
          · exact absurd hlast.makes hmade

end Machismo.Data.MakeWay
