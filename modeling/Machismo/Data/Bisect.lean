import Mathlib

/-! # Binary search for the last place

The loop over a range of integers that keeps the last place at which a predicate held, for predicates that hold
up to some place and not behind it.
-/
namespace Machismo.Data.Bisect

/-- `while (lo <= hi)`, with the place found so far. -/
def lastFrom (p : ℤ → Bool) (lo hi idx : ℤ) : ℤ :=
  if lo ≤ hi then
    let mid := lo+(hi-lo)/2
    if p mid then lastFrom p (mid+1) hi mid else lastFrom p lo (mid-1) idx
  else idx
termination_by (hi+1-lo).toNat

variable {p : ℤ → Bool} {lo hi : ℤ}

theorem lastFrom_spec (hrange : lo ≤ hi+1) (hdown : ∀ i j, lo ≤ i → i ≤ j → j ≤ hi → p j → p i) :
    lo-1 ≤ lastFrom p lo hi (lo-1) ∧ lastFrom p lo hi (lo-1) ≤ hi ∧
      ∀ i, lo ≤ i → i ≤ hi → (p i ↔ i ≤ lastFrom p lo hi (lo-1)) := by
  induction hlength : (hi+1-lo).toNat using Nat.strong_induction_on generalizing lo hi with
  | h n ih =>
    rw [lastFrom]
    by_cases hempty : lo ≤ hi
    · rw [if_pos hempty]
      dsimp only
      obtain ⟨mid,hmid⟩ : ∃ mid, mid = lo+(hi-lo)/2 := ⟨_,rfl⟩
      rw [← hmid]
      by_cases hp : p mid
      · rw [if_pos hp]
        have hrest := ih (hi+1-(mid+1)).toNat (by omega) (by omega)
          (fun i j hi' => hdown i j (by omega)) rfl
        rw [add_sub_cancel_right] at hrest
        obtain ⟨hlow,hhigh,hplaces⟩ := hrest
        refine ⟨by omega,hhigh,fun i hi' hle => ?_⟩
        by_cases hbehind : mid+1 ≤ i
        · exact hplaces i hbehind hle
        · exact iff_of_true (hdown i mid hi' (by omega) (by omega) hp) (by omega)
      · rw [if_neg hp]
        obtain ⟨hlow,hhigh,hplaces⟩ := ih (mid-1+1-lo).toNat (by omega) (by omega)
          (fun i j hi' hij hle => hdown i j hi' hij (by omega)) rfl
        refine ⟨hlow,by omega,fun i hi' hle => ?_⟩
        by_cases hbefore : i ≤ mid-1
        · exact hplaces i hi' hbefore
        · exact iff_of_false (fun h => hp (hdown mid i (by omega) (by omega) hle h)) (by omega)
    · rw [if_neg hempty]
      exact ⟨le_rfl,by omega,fun i hi' hle => by omega⟩

end Machismo.Data.Bisect
