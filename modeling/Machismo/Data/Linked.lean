import Mathlib.Data.List.Nodup
import Mathlib.Logic.Function.Basic

/-! # Linked lists in memory

Each cell that is there holds the address of the next one, and the last cell of a list that of no
cell, `null`. Taking a cell out of its list redirects the one before it; nothing else is written.
-/
namespace Machismo.Data

variable {A : Type} {next next' : A → Option A} {null a b c h : A} {l l₁ l₂ : List A}

/-- From `a` the links run through the cells of `l`, in their order, to `b`. -/
inductive Seg (next : A → Option A) : A → List A → A → Prop where
  | nil (a : A) : Seg next a [] a
  | cons {a b c : A} {l : List A} : next a = some b → Seg next b l c → Seg next a (a :: l) c

namespace Seg

theorem append (h₁ : Seg next a l₁ b) (h₂ : Seg next b l₂ c) : Seg next a (l₁ ++ l₂) c := by
  induction h₁ with
  | nil => exact h₂
  | cons hn _ ih => exact .cons hn (ih h₂)

theorem split (hs : Seg next a (l₁ ++ l₂) c) : ∃ b, Seg next a l₁ b ∧ Seg next b l₂ c := by
  induction l₁ generalizing a with
  | nil => exact ⟨a,.nil a,hs⟩
  | cons d l₁ ih =>
    cases hs with
    | cons hn ht =>
      obtain ⟨b,hb,hc⟩ := ih ht
      exact ⟨b,.cons hn hb,hc⟩

theorem head_eq (hs : Seg next a (b :: l) c) : a = b := by
  cases hs
  rfl

theorem congr (hs : Seg next a l b) (hsame : ∀ d ∈ l, next' d = next d) : Seg next' a l b := by
  induction hs with
  | nil => exact .nil _
  | cons hn _ ih =>
    rw [List.forall_mem_cons] at hsame
    exact .cons (hsame.1.trans hn) (ih hsame.2)

theorem redirect [DecidableEq A] {p : A} (hs : Seg next a (l ++ [p]) b) (hp : p ∉ l) :
    Seg (Function.update next p (some c)) a (l ++ [p]) c := by
  obtain ⟨d,hd,hrest⟩ := hs.split
  obtain rfl := hrest.head_eq
  have hother : ∀ e ∈ l, Function.update next d (some c) e = next e :=
    fun e he => Function.update_of_ne (fun heq : e = d => hp (heq ▸ he)) _ _
  exact (hd.congr hother).append (.cons (Function.update_self _ _ _) (.nil c))

theorem unique (hnull : null ∉ l₁) (hnull' : null ∉ l₂) (h₁ : Seg next a l₁ null) (h₂ : Seg next a l₂ null) :
    l₁ = l₂ := by
  induction l₁ generalizing a l₂ with
  | nil =>
    cases h₁
    cases h₂ with
    | nil => rfl
    | cons _ _ => exact absurd List.mem_cons_self hnull'
  | cons d l₁ ih =>
    cases h₁ with
    | cons hn ht =>
      cases h₂ with
      | nil => exact absurd List.mem_cons_self hnull
      | cons hn' ht' =>
        obtain rfl := Option.some.inj (hn.symm.trans hn')
        rw [ih (List.not_mem_of_not_mem_cons hnull) (List.not_mem_of_not_mem_cons hnull') ht ht']

theorem nodup (hnull : null ∉ l) (hs : Seg next a l null) : l.Nodup := by
  induction l generalizing a with
  | nil => exact List.nodup_nil
  | cons d l ih =>
    have htail := List.not_mem_of_not_mem_cons hnull
    obtain rfl := hs.head_eq
    have hwhole := hs
    cases hs with
    | cons _ ht =>
      refine List.nodup_cons.mpr ⟨fun hmem => ?_,ih htail ht⟩
      obtain ⟨before,after,rfl⟩ := List.append_of_mem hmem
      obtain ⟨b,-,hrest⟩ := ht.split
      obtain rfl := hrest.head_eq
      have hlen := congrArg List.length (unique hnull (fun hin => htail (List.mem_append_right _ hin)) hwhole hrest)
      simp only [List.length_cons,List.length_append] at hlen
      omega

end Seg

/-- The list that begins at `h` holds the cells of `l`. -/
structure Linked (next : A → Option A) (null h : A) (l : List A) : Prop where
  seg : Seg next h l null
  null_notMem : null ∉ l

namespace Linked

theorem nodup (hl : Linked next null h l) : l.Nodup := hl.seg.nodup hl.null_notMem

theorem congr (hl : Linked next null h l) (hsame : ∀ d ∈ l, next' d = next d) : Linked next' null h l :=
  ⟨hl.seg.congr hsame,hl.null_notMem⟩

theorem head_ne (hl : Linked next null h (a :: l)) : h = a ∧ a ≠ null := by
  obtain rfl := hl.seg.head_eq
  exact ⟨rfl,fun heq => hl.null_notMem (heq ▸ List.mem_cons_self)⟩

theorem head_eq_null (hl : Linked next null h []) : h = null := by
  cases hl.seg
  rfl

theorem tail (hl : Linked next null h (a :: l)) : ∃ b, next a = some b ∧ Linked next null b l := by
  have hnull := List.not_mem_of_not_mem_cons hl.null_notMem
  cases hl.seg with
  | cons hn ht => exact ⟨_,hn,ht,hnull⟩

theorem drop (hl : Linked next null h (l₁ ++ l₂)) : ∃ b, Seg next h l₁ b ∧ Linked next null b l₂ := by
  obtain ⟨b,hb,hrest⟩ := hl.seg.split
  exact ⟨b,hb,hrest,fun hin => hl.null_notMem (List.mem_append_right _ hin)⟩

/-- The cell `c` is taken out from behind `p`, which then links to what `c` linked to. -/
theorem unlink [DecidableEq A] {p : A} (hl : Linked next null h (l₁ ++ p :: c :: l₂)) (hc : next c = some b) :
    Linked (Function.update next p (some b)) null h (l₁ ++ p :: l₂) := by
  have hnodup := hl.nodup
  rw [List.nodup_append,List.nodup_cons,List.nodup_cons] at hnodup
  obtain ⟨-,⟨hp,-,-⟩,hdisjoint⟩ := hnodup
  have hfront : p ∉ l₁ := fun hin => hdisjoint p hin p List.mem_cons_self rfl
  have hback : p ∉ l₂ := fun hin => hp (List.mem_cons_of_mem _ hin)
  have hjoined : Linked next null h ((l₁ ++ [p]) ++ c :: l₂) := by simpa using hl
  obtain ⟨d,hd,hfrom⟩ := hjoined.drop
  obtain rfl := hfrom.head_ne.1
  obtain ⟨b',hb',hafter⟩ := hfrom.tail
  obtain rfl := Option.some.inj (hc.symm.trans hb')
  have hother : ∀ a ∈ l₂, Function.update next p (some b) a = next a :=
    fun a ha => Function.update_of_ne (fun heq : a = p => hback (heq ▸ ha)) _ _
  have hseg := (hd.redirect hfront).append (hafter.seg.congr hother)
  refine ⟨by simpa using hseg,fun hin => hl.null_notMem ?_⟩
  rw [List.mem_append,List.mem_cons] at hin ⊢
  exact hin.imp_right (Or.imp_right (List.mem_cons_of_mem _))

theorem push [DecidableEq A] (hl : Linked next null h l) (ha : a ≠ null) (hnew : a ∉ l) :
    Linked (Function.update next a (some h)) null a (a :: l) := by
  have hother : ∀ b ∈ l, Function.update next a (some h) b = next b :=
    fun b hb => Function.update_of_ne (fun heq : b = a => hnew (heq ▸ hb)) _ _
  exact ⟨.cons (Function.update_self _ _ _) (hl.seg.congr hother),
    List.not_mem_cons_of_ne_of_not_mem ha.symm hl.null_notMem⟩

/-- A cell behind the others, to which the last of them links. -/
theorem concat [DecidableEq A] {p : A} (hl : Linked next null h (l ++ [p])) (ha : a ≠ null) (hnew : a ∉ l ++ [p]) :
    Linked (Function.update (Function.update next p (some a)) a (some null)) null h (l ++ [p] ++ [a]) := by
  have hp : p ∉ l := by
    have hnodup := hl.nodup
    rw [List.nodup_append] at hnodup
    exact fun hin => hnodup.2.2 p hin p (List.mem_singleton_self p) rfl
  have hother : ∀ b ∈ l ++ [p], Function.update (Function.update next p (some a)) a (some null) b =
      Function.update next p (some a) b :=
    fun b hb => Function.update_of_ne (fun heq : b = a => hnew (heq ▸ hb)) _ _
  refine ⟨((hl.seg.redirect hp).congr hother).append (.cons (Function.update_self _ _ _) (.nil null)),fun hin => ?_⟩
  rw [List.mem_append,List.mem_singleton] at hin
  exact hin.elim hl.null_notMem fun heq => ha heq.symm

end Linked

end Machismo.Data
