import Mathlib

/-! # Occurrences of a word

Where a word first occurs in a text, and how many times it does from left to right when no two of
the occurrences overlap.
-/
namespace Machismo.Data.Occurrence
variable {α : Type*} [DecidableEq α] {word : List α}

def find (word : List α) : List α → Option ℕ
  | [] => if word = [] then some 0 else none
  | a :: text => if word <+: a :: text then some 0 else (find word text).map (· + 1)

/-- Past the first characters; an occurrence that is counted is passed over as a whole. -/
def occurrencesFrom (word : List α) : ℕ → List α → ℕ
  | _, [] => 0
  | skip + 1, _ :: text => occurrencesFrom word skip text
  | 0, a :: text =>
    if word <+: a :: text then occurrencesFrom word (word.length-1) text + 1 else occurrencesFrom word 0 text

def occurrences (word text : List α) : ℕ := occurrencesFrom word 0 text

theorem find_none (hword : word ≠ []) {text : List α} (h : find word text = none) :
    ¬word <:+: text ∧ occurrences word text = 0 := by
  induction text with
  | nil => exact ⟨fun hin => hword (List.eq_nil_of_infix_nil hin),rfl⟩
  | cons a text ih =>
    unfold find at h
    by_cases hhere : word <+: a :: text
    · rw [if_pos hhere] at h
      cases h
    · rw [if_neg hhere,Option.map_eq_none_iff] at h
      obtain ⟨hno,hzero⟩ := ih h
      refine ⟨?_,?_⟩
      · rw [List.infix_cons_iff,not_or]
        exact ⟨hhere,hno⟩
      · rw [occurrences,occurrencesFrom,if_neg hhere]
        exact hzero

theorem occurrencesFrom_skip (skip : ℕ) (text : List α) :
    occurrencesFrom word skip text = occurrences word (text.drop skip) := by
  induction text generalizing skip with
  | nil =>
    rw [List.drop_nil]
    rfl
  | cons a text ih =>
    cases skip with
    | zero => rfl
    | succ skip => exact ih skip

/-- Up to the first occurrence the word does not occur, and the others are behind it. -/
theorem find_some (hword : word ≠ []) {text : List α} {i : ℕ} (h : find word text = some i) :
    text = text.take i ++ word ++ text.drop (i+word.length) ∧ ¬word <:+: text.take i ∧
      occurrences word text = occurrences word (text.drop (i+word.length)) + 1 := by
  induction text generalizing i with
  | nil =>
    rw [find,if_neg hword] at h
    cases h
  | cons a text ih =>
    unfold find at h
    by_cases hhere : word <+: a :: text
    · rw [if_pos hhere] at h
      obtain rfl : 0 = i := Option.some.inj h
      obtain ⟨n,hn⟩ : ∃ n, word.length = n+1 :=
        Nat.exists_eq_add_one.mpr (List.length_pos_iff.mpr hword)
      refine ⟨?_,?_,?_⟩
      · rw [List.take_zero,List.nil_append,Nat.zero_add]
        exact (List.prefix_iff_eq_append.mp hhere).symm
      · intro hin
        exact hword (List.eq_nil_of_infix_nil hin)
      · rw [occurrences,occurrencesFrom,if_pos hhere,occurrencesFrom_skip,hn,Nat.zero_add,Nat.add_sub_cancel,
          List.drop_succ_cons]
    · rw [if_neg hhere,Option.map_eq_some_iff] at h
      obtain ⟨j,hj,rfl⟩ := h
      obtain ⟨hsplit,hno,hcount⟩ := ih hj
      rw [Nat.add_right_comm j 1 word.length,List.take_succ_cons,List.drop_succ_cons]
      refine ⟨?_,?_,?_⟩
      · rw [List.cons_append,List.cons_append]
        exact congrArg (a :: ·) hsplit
      · rw [List.infix_cons_iff,not_or]
        refine ⟨fun hpre => hhere (hpre.trans ?_),hno⟩
        exact (List.prefix_cons_inj a).mpr (List.take_prefix j text)
      · rw [occurrences,occurrencesFrom,if_neg hhere]
        exact hcount

theorem find_some_lt (hword : word ≠ []) {text : List α} {i : ℕ} (h : find word text = some i) :
    (text.drop (i+word.length)).length < text.length := by
  have hlen := congrArg List.length (find_some hword h).1
  have hpos := List.length_pos_iff.mpr hword
  simp only [List.length_append] at hlen
  omega

end Machismo.Data.Occurrence
