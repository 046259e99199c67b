import Mathlib

/-! # Codecs that are asked and fed

A codec is asked for its next frame, and where it has none it is fed the next packet or told to drain. How
many frames it keeps back, and when it gives them, is its own business.
-/
namespace Machismo.Data

/-- A frame, or the code of why there is none. -/
inductive Codec.Answer (F : Type) where
  | frame (f : F)
  | code (rc : ℤ)

/-- To send `none` is to ask for the drain; a code of 0 accepts. -/
structure Codec (σ P F : Type) where
  start : σ
  receive : σ → Codec.Answer F × σ
  send : Option P → σ → ℤ × σ

namespace Codec
variable {σ P F : Type} (C : Codec σ P F)

/-- Asked again and again, the codec gives these frames and then that code. -/
inductive Gives : σ → List F → ℤ → σ → Prop where
  | code {d d' : σ} {rc : ℤ} (h : C.receive d = (.code rc,d')) : Gives d [] rc d'
  | frame {d d' d'' : σ} {f : F} {frames : List F} {rc : ℤ} (h : C.receive d = (.frame f,d'))
      (rest : Gives d' frames rc d'') : Gives d (f :: frames) rc d''

def Wants (again : ℤ) (ready : σ → Prop) (d : σ) : Prop := ∃ frames d', C.Gives d frames again d' ∧ ready d'

/-- There are frames for a while, and then the end. -/
def Drained (eof : ℤ) (d : σ) : Prop := ∃ frames d', C.Gives d frames eof d'

/-- The contract: a codec that wants input accepts a packet or the drain, and after the drain it only gives
frames and then its end. `ready` is where it has just asked for input; it may be asked once more there. -/
structure Obeys (again eof : ℤ) (ready : σ → Prop) : Prop where
  starts : C.Wants again ready C.start
  stays : ∀ d, ready d → C.Wants again ready d
  accepts : ∀ d p, ready d → (C.send (some p) d).1 = 0 ∧ C.Wants again ready (C.send (some p) d).2
  drains : ∀ d, ready d → (C.send none d).1 = 0 ∧ C.Drained eof (C.send none d).2

variable {C} {d d' : σ} {frames : List F} {rc : ℤ}

theorem Gives.cases (h : C.Gives d frames rc d') : (frames = [] ∧ C.receive d = (.code rc,d')) ∨
    ∃ f rest d1, frames = f :: rest ∧ C.receive d = (.frame f,d1) ∧ C.Gives d1 rest rc d' := by
  cases h with
  | code h => exact .inl ⟨rfl,h⟩
  | frame h rest => exact .inr ⟨_,_,_,rfl,h,rest⟩

end Codec

end Machismo.Data
