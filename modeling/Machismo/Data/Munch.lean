import Mathlib.Data.List.TakeWhile

/-! # Maximal munch

A word of one kind of elements is followed by something else, or by nothing. Such a word can be cut off
again in one way only.
-/
namespace Machismo.Munch

variable {α : Type*} {ok : α → Bool} {w w' r r' : List α}

/-- The list does not go on with an element of a kind. -/
def Ends (ok : α → Bool) (r : List α) : Prop := ∀ c ∈ r.head?, ok c = false

@[simp] theorem ends_nil : Ends ok [] := fun _ h => by cases h
@[simp] theorem ends_cons {c : α} : Ends ok (c :: r) ↔ ok c = false := by simp [Ends]

theorem ends_dropWhile (l : List α) : Ends ok (l.dropWhile ok) := by
  intro c hc
  have hhead := List.head?_dropWhile_not ok l
  rwa [Option.mem_def.mp hc] at hhead

theorem dropWhile_eq_self (hr : Ends ok r) : r.dropWhile ok = r := by
  cases r with
  | nil => rfl
  | cons c r => rw [List.dropWhile_cons, if_neg (by simp [ends_cons.mp hr])]

theorem dropWhile_append (hw : ∀ c ∈ w, ok c) (hr : Ends ok r) : (w ++ r).dropWhile ok = r := by
  rw [List.dropWhile_append_of_pos hw, dropWhile_eq_self hr]

theorem takeWhile_append (hw : ∀ c ∈ w, ok c) (hr : Ends ok r) : (w ++ r).takeWhile ok = w := by
  rw [List.takeWhile_append_of_pos hw]
  cases r with
  | nil => exact List.append_nil w
  | cons c r => rw [List.takeWhile_cons, if_neg (by simp [ends_cons.mp hr]), List.append_nil]

theorem append_inj (hw : ∀ c ∈ w, ok c) (hr : Ends ok r) (hw' : ∀ c ∈ w', ok c) (hr' : Ends ok r')
    (h : w ++ r = w' ++ r') : w = w' ∧ r = r' := by
  have htake := congrArg (List.takeWhile ok) h
  have hdrop := congrArg (List.dropWhile ok) h
  rw [takeWhile_append hw hr, takeWhile_append hw' hr'] at htake
  rw [dropWhile_append hw hr, dropWhile_append hw' hr'] at hdrop
  exact ⟨htake,hdrop⟩

theorem isPrefix_append_iff {k : List α} (hk : ∀ c ∈ k, ok c) (hr : Ends ok r) : k <+: w ++ r ↔ k <+: w := by
  constructor
  · rintro ⟨t,ht⟩
    induction k generalizing w with
    | nil => exact List.nil_prefix
    | cons c k ih =>
      cases w with
      | nil =>
        obtain rfl : c :: (k ++ t) = r := ht
        exact absurd (hk c List.mem_cons_self) (by simp [ends_cons.mp hr])
      | cons a w =>
        obtain ⟨rfl,hrest⟩ := List.cons.inj ht
        exact List.cons_prefix_cons.mpr ⟨rfl,ih (fun c hc => hk c (List.mem_cons_of_mem _ hc)) hrest⟩
  · exact fun h => h.trans (List.prefix_append w r)

end Machismo.Munch
