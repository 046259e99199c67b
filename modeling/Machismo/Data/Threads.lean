import Mathlib

/-! # Threads that take turns

Each thread has its steps on a state they share.  A finite run takes them in any order; a
run without end may rest, but a thread that has something to do is not passed over for ever.
-/
namespace Machismo.Data.Threads
variable {T S : Type}

section Runs
variable (step : T → S → S → Prop)

def Any (s s' : S) : Prop := ∃ t, step t s s'

abbrev Reaches : S → S → Prop := Relation.ReflTransGen (Any step)

variable {step}

theorem Reaches.invariant {P : S → Prop} (hstep : ∀ t s s', P s → step t s s' → P s') {s s' : S}
    (h : Reaches step s s') (hs : P s) : P s' := by
  induction h with
  | refl => exact hs
  | tail _ hlast ih =>
    obtain ⟨t,ht⟩ := hlast
    exact hstep t _ _ ih ht

theorem Reaches.tail {s s' s'' : S} {t : T} (h : Reaches step s s') (ht : step t s' s'') : Reaches step s s'' :=
  Relation.ReflTransGen.tail h ⟨t,ht⟩

theorem Reaches.mono {step' : T → S → S → Prop} (h : ∀ t s s', step t s s' → step' t s s') {s s' : S}
    (hs : Reaches step s s') : Reaches step' s s' := by
  induction hs with
  | refl => exact .refl
  | tail _ hlast ih =>
    obtain ⟨t,ht⟩ := hlast
    exact ih.tail (h t _ _ ht)

end Runs

/-- A run without end.  Whose turn it is may be nobody's; a thread that is active from some time on gets
its turn after it. -/
structure FairRun (step : T → S → S → Prop) (active : S → T → Prop) where
  state : ℕ → S
  turn : ℕ → Option T
  moves : ∀ n t, turn n = some t → step t (state n) (state (n+1))
  rests : ∀ n, turn n = none → state (n+1) = state n
  fair : ∀ n t, (∀ m, n ≤ m → active (state m) t) → ∃ m, n ≤ m ∧ turn m = some t

namespace FairRun
variable {step : T → S → S → Prop} {active : S → T → Prop} (run : FairRun step active)

theorem keeps {P : S → Prop} (hstep : ∀ t s s', P s → step t s s' → P s') {n m : ℕ} (hle : n ≤ m)
    (h : P (run.state n)) : P (run.state m) := by
  induction m,hle using Nat.le_induction with
  | base => exact h
  | succ m _ ih =>
    cases hturn : run.turn m with
    | none => rwa [run.rests m hturn]
    | some t => exact hstep t _ _ ih (run.moves m t hturn)

def LeadsTo (P Q : S → Prop) : Prop := ∀ n, P (run.state n) → ∃ m, n ≤ m ∧ Q (run.state m)

variable {run}

theorem LeadsTo.trans {P Q R : S → Prop} (h : run.LeadsTo P Q) (h' : run.LeadsTo Q R) : run.LeadsTo P R := by
  intro n hn
  obtain ⟨m,hm,hq⟩ := h n hn
  obtain ⟨k,hk,hr⟩ := h' m hq
  exact ⟨k,hm.trans hk,hr⟩

theorem LeadsTo.of_imp {P Q : S → Prop} (h : ∀ s, P s → Q s) : run.LeadsTo P Q := fun n hn => ⟨n,le_rfl,h _ hn⟩

theorem LeadsTo.or {P P' Q : S → Prop} (h : run.LeadsTo P Q) (h' : run.LeadsTo P' Q) :
    run.LeadsTo (fun s => P s ∨ P' s) Q := by
  rintro n (hn | hn)
  · exact h n hn
  · exact h' n hn

variable (run)

theorem leadsTo_of_step {P Q : S → Prop} (t : T) (hactive : ∀ s, P s → active s t)
    (hself : ∀ s s', P s → step t s s' → Q s') (hother : ∀ u s s', u ≠ t → P s → step u s s' → P s' ∨ Q s') :
    run.LeadsTo P Q := by
  intro n hn
  by_contra hnever
  have hstays : ∀ m, n ≤ m → P (run.state m) := by
    intro m hm
    induction m,hm using Nat.le_induction with
    | base => exact hn
    | succ m hm ih =>
      cases hturn : run.turn m with
      | none => rwa [run.rests m hturn]
      | some u =>
        have hmove := run.moves m u hturn
        by_cases hu : u = t
        · subst hu
          exact absurd ⟨m+1,by omega,hself _ _ ih hmove⟩ hnever
        · rcases hother u _ _ hu ih hmove with hp | hq
          · exact hp
          · exact absurd ⟨m+1,by omega,hq⟩ hnever
  obtain ⟨m,hm,hturn⟩ := run.fair n t fun m hm => hactive _ (hstays m hm)
  exact hnever ⟨m+1,by omega,hself _ _ (hstays m hm) (run.moves m t hturn)⟩

end FairRun

end Machismo.Data.Threads
