import Mathlib
import Machismo.A64.Memory

/-! # Run-length pictures

The rows of a picture are strings of commands: leave out so many pixels, or take so many from what
follows, as indices into a palette or as colours of 15 bits. The colour of the key is transparent. A row
says how many bytes it has; what a row or the picture lacks stays transparent, and what is too much is
not looked at. Every read is from the bytes there are and every write to the surface, or the result is
`none`.
-/
namespace Machismo.Sword3
open A64 (Byte)

abbrev Color := BitVec 16

structure Surface where
  w : ℕ
  h : ℕ
  /-- The pixel of a row and a column. -/
  pixel : ℕ → ℕ → BitVec 32

namespace Surface

def blank (w h : ℕ) : Surface := ⟨w,h,fun _ _ => 0⟩

/-- `none` outside the surface. -/
def put (S : Surface) (y x : ℕ) (c : BitVec 32) : Option Surface :=
  if y < S.h ∧ x < S.w then some { S with pixel := fun r k => if r = y ∧ k = x then c else S.pixel r k } else none

end Surface

/-- `none` behind the last byte. -/
def u16le (bytes : List Byte) (p : ℕ) : Option Color :=
  match bytes[p]?, bytes[p + 1]? with
  | some lo, some hi => some (hi ++ lo)
  | _, _ => none

def alpha (pixel : BitVec 32) : BitVec 32 := pixel >>> 24

/-- Five bits of a colour from `i` on, as a byte. -/
def channel (c : Color) (i : ℕ) : Byte := BitVec.ofNat 8 (((c >>> i) &&& 31#16).toNat * 255 / 31)

/-- A colour in the format with alpha, red, green and blue from the top. -/
def map555 (c key : Color) : BitVec 32 :=
  (if c = key then 0#8 else 255#8) ++ channel c 10 ++ channel c 5 ++ channel c 0

/-- What `host_menu_rle_rows` gets. -/
structure Rle where
  bytes : List Byte
  w : ℕ
  h : ℕ
  bpp : ℕ
  pal : Option (Byte → Color)
  key : Color

/-- How far the loops are: the place in the bytes, the column, the number of pixels painted. -/
structure Brush where
  p : ℕ
  x : ℕ
  painted : ℕ
  surface : Surface

namespace Rle
variable (R : Rle)

/-- One pixel of row `y`, after which the bytes go on at `p`. -/
def dot (y : ℕ) (c : Color) (p : ℕ) (s : Brush) : Option Brush :=
  match s.surface.put y s.x (map555 c R.key) with
  | none => none
  | some surface => some ⟨p,s.x + 1,if alpha (map555 c R.key) ≠ 0 then s.painted + 1 else s.painted,surface⟩

/-- The pixels of one command. -/
def rlePixels (y rowEnd : ℕ) : ℕ → Brush → Option Brush
  | 0, s => some s
  | n + 1, s =>
    if s.x < R.w then
      if R.bpp = 8 then
        match R.pal with
        | none => some s
        | some pal =>
          if s.p < rowEnd then
            match R.bytes[s.p]? with
            | none => none
            | some b => (R.dot y (pal b) (s.p + 1) s).bind (rlePixels y rowEnd n)
          else some s
      else if s.p + 2 ≤ rowEnd then
        match u16le R.bytes s.p with
        | none => none
        | some c => (R.dot y c (s.p + 2) s).bind (rlePixels y rowEnd n)
      else some s
    else some s

variable {R}

theorem dot_p {y p : ℕ} {c : Color} {s s' : Brush} (h : R.dot y c p s = some s') : s'.p = p := by
  unfold dot at h
  split at h
  next => cases h
  next => rw [← Option.some.inj h]

theorem rlePixels_p {y rowEnd n : ℕ} {s s' : Brush} (h : R.rlePixels y rowEnd n s = some s') : s.p ≤ s'.p := by
  induction n generalizing s with
  | zero => rw [Option.some.inj h]
  | succ n ih =>
    unfold rlePixels at h
    split at h
    next =>
      split at h
      next =>
        split at h
        next => rw [Option.some.inj h]
        next =>
          split at h
          next =>
            split at h
            next => cases h
            next =>
              obtain ⟨s₁,h₁,hrest⟩ := Option.bind_eq_some_iff.mp h
              have := ih hrest
              rw [dot_p h₁] at this
              omega
          next => rw [Option.some.inj h]
      next =>
        split at h
        next =>
          split at h
          next => cases h
          next =>
            obtain ⟨s₁,h₁,hrest⟩ := Option.bind_eq_some_iff.mp h
            have := ih hrest
            rw [dot_p h₁] at this
            omega
        next => rw [Option.some.inj h]
    next => rw [Option.some.inj h]

variable (R)

/-- The commands of row `y`. -/
def rleRow (y rowEnd : ℕ) (s : Brush) : Option Brush :=
  if _hp : s.p + 2 ≤ rowEnd ∧ s.x < R.w then
    match u16le R.bytes s.p with
    | none => none
    | some cmd =>
      let n := (cmd &&& 0x3fff).toNat
      if cmd = 0 ∨ n = 0 then some { s with p := s.p + 2 }
      else if cmd &&& 0xc000 ≠ 0 then rleRow y rowEnd { s with p := s.p + 2, x := s.x + n }
      else
        match _h : R.rlePixels y rowEnd n { s with p := s.p + 2 } with
        | none => none
        | some s' => rleRow y rowEnd s'
  else some s
termination_by rowEnd - s.p
decreasing_by
  · omega
  · have := rlePixels_p _h
    dsimp only at this
    omega

/-- The rows from `y` on, of which there can be `n`. -/
def rleRows : ℕ → ℕ → Brush → Option Brush
  | 0, _, s => some s
  | n + 1, y, s =>
    if s.p + 2 ≤ R.bytes.length then
      match u16le R.bytes s.p with
      | none => none
      | some row =>
        let rowBytes := (row &&& 0x7fff).toNat
        if rowBytes < 4 ∨ R.bytes.length < s.p + rowBytes then some s
        else (R.rleRow y (s.p + rowBytes) { s with p := s.p + 2, x := 0 }).bind fun s' =>
          rleRows n (y + 1) { s' with p := s.p + rowBytes }
    else some s

/-- `host_menu_rle_rows` on a cleared surface, from place `p` on. -/
def paintRows (p : ℕ) : Option Brush := R.rleRows R.h 0 ⟨p,0,0,.blank R.w R.h⟩

end Rle

/-- The width, height and depth in a header, if there is one; the magic number decides nothing. -/
def tswHeader (bytes : List Byte) (magic : Color) : Option (ℕ × ℕ × ℕ) :=
  if bytes.length < 8 then none
  else
    match u16le bytes 0, u16le bytes 2, u16le bytes 4, u16le bytes 6 with
    | some first, some hw, some hh, some hb =>
      let depth := (hb &&& 0x7fff).toNat
      let fits := (depth = 8 ∨ depth = 16) ∧ 1 ≤ hw.toNat ∧ 1 ≤ hh.toNat ∧ hw.toNat ≤ 4096 ∧ hh.toNat ≤ 4096
      if (fits ∨ magic ≠ 0 ∧ first = magic) ∧ fits then some (hw.toNat,hh.toNat,depth) else none
    | _, _, _, _ => none

/-- The surface of a picture; inside, `none` stands for NULL. -/
def expandTswRle (bytes : List Byte) (hintW hintH : ℤ) (pal : Option (Byte → Color)) (key magic : Color) :
    Option (Option Surface) :=
  if bytes.length < 4 then some none
  else
    match tswHeader bytes magic with
    | some (w,h,bpp) =>
      if bpp = 8 ∧ pal = none then some none
      else
        let R : Rle := ⟨bytes,w,h,bpp,pal,key⟩
        (R.paintRows 8).bind fun s =>
          if 0 < s.painted then some (some s.surface)
          -- the header may have been a row after all
          else (R.paintRows 0).map fun s' => if 0 < s'.painted then some s'.surface else none
    | none =>
      if hintW < 1 ∨ hintH < 1 ∨ 4096 < hintW ∨ 4096 < hintH then some none
      else
        let R : Rle := ⟨bytes,hintW.toNat,hintH.toNat,if pal = none then 16 else 8,pal,key⟩
        (R.paintRows 0).map fun s => if 0 < s.painted then some s.surface else none

namespace Surface

def opaqueCount (S : Surface) : ℕ :=
  ((Finset.range S.h ×ˢ Finset.range S.w).filter fun a => alpha (S.pixel a.1 a.2) ≠ 0).card

theorem opaqueCount_blank (w h : ℕ) : (blank w h).opaqueCount = 0 := by
  simp [opaqueCount,blank,alpha]

theorem put_eq {S : Surface} {y x : ℕ} (hy : y < S.h) (hx : x < S.w) (c : BitVec 32) :
    S.put y x c = some { S with pixel := fun r k => if r = y ∧ k = x then c else S.pixel r k } := if_pos ⟨hy,hx⟩

theorem opaqueCount_put {S S' : Surface} {y x : ℕ} {c : BitVec 32} (h : S.put y x c = some S')
    (hblank : S.pixel y x = 0) : S'.opaqueCount = if alpha c ≠ 0 then S.opaqueCount + 1 else S.opaqueCount := by
  unfold put at h
  split at h
  next hin =>
    obtain rfl := Option.some.inj h
    let area := Finset.range S.h ×ˢ Finset.range S.w
    have hmem : (y,x) ∈ area := Finset.mem_product.mpr ⟨Finset.mem_range.mpr hin.1,Finset.mem_range.mpr hin.2⟩
    have hold : (y,x) ∉ area.filter fun a => alpha (S.pixel a.1 a.2) ≠ 0 := by
      intro hin
      refine (Finset.mem_filter.mp hin).2 ?_
      rw [hblank]
      decide
    unfold opaqueCount
    split
    next hc =>
      rw [← Finset.card_insert_of_notMem hold]
      congr 1
      ext a
      simp only [Finset.mem_filter,Finset.mem_insert]
      by_cases ha : a = (y,x)
      · simp only [ha,and_self,if_true,true_or,iff_true]
        exact ⟨hmem,hc⟩
      · have hne : ¬(a.1 = y ∧ a.2 = x) := fun hyx => ha (Prod.ext hyx.1 hyx.2)
        simp only [hne,if_false,ha,false_or]
        exact Iff.rfl
    next hc =>
      congr 1
      ext a
      simp only [Finset.mem_filter]
      by_cases ha : a = (y,x)
      · simp only [ha,and_self,if_true]
        exact ⟨fun h => absurd h.2 hc,fun h => absurd (Finset.mem_filter.mpr h) hold⟩
      · have hne : ¬(a.1 = y ∧ a.2 = x) := fun hyx => ha (Prod.ext hyx.1 hyx.2)
        simp only [hne,if_false]
  next => cases h

end Surface

theorem u16le_isSome {bytes : List Byte} {p : ℕ} (h : p + 2 ≤ bytes.length) : ∃ c, u16le bytes p = some c := by
  unfold u16le
  rw [List.getElem?_eq_getElem (by omega : p < bytes.length),List.getElem?_eq_getElem (by omega : p + 1 < bytes.length)]
  exact ⟨_,rfl⟩

namespace Rle
variable {R : Rle} {y rowEnd : ℕ} {s s' : Brush}

/-- The brush is in row `y`: the surface is empty from there on, and what was painted has been counted. -/
structure Drawn (R : Rle) (y : ℕ) (s : Brush) : Prop where
  size : s.surface.w = R.w ∧ s.surface.h = R.h
  row : ∀ k, s.x ≤ k → s.surface.pixel y k = 0
  below : ∀ r, y < r → ∀ k, s.surface.pixel r k = 0
  count : s.painted = s.surface.opaqueCount

theorem Drawn.dot (h : R.Drawn y s) (hy : y < R.h) (hx : s.x < R.w) (c : Color) (p : ℕ) :
    ∃ s', R.dot y c p s = some s' ∧ R.Drawn y s' := by
  have hput := Surface.put_eq (S := s.surface) (h.size.2 ▸ hy) (h.size.1 ▸ hx) (map555 c R.key)
  have hcount := Surface.opaqueCount_put hput (h.row s.x le_rfl)
  unfold Rle.dot
  rw [hput]
  refine ⟨_,rfl,⟨h.size,fun k hk => ?_,fun r hr k => ?_,?_⟩⟩
  · have hne : ¬(y = y ∧ k = s.x) := fun he => by
      have : s.x + 1 ≤ k := hk
      omega
    show (if y = y ∧ k = s.x then _ else s.surface.pixel y k) = 0
    rw [if_neg hne]
    exact h.row k (by have : s.x + 1 ≤ k := hk; omega)
  · have hne : ¬(r = y ∧ k = s.x) := fun he => by omega
    show (if r = y ∧ k = s.x then _ else s.surface.pixel r k) = 0
    rw [if_neg hne]
    exact h.below r hr k
  · rw [hcount,h.count]

theorem Drawn.move (h : R.Drawn y s) {p x : ℕ} (hx : s.x ≤ x) : R.Drawn y { s with p := p, x := x } :=
  ⟨h.size,fun k hk => h.row k (hx.trans hk),h.below,h.count⟩

theorem Drawn.rlePixels (h : R.Drawn y s) (hy : y < R.h) (hend : rowEnd ≤ R.bytes.length) (n : ℕ) :
    ∃ s', R.rlePixels y rowEnd n s = some s' ∧ R.Drawn y s' := by
  induction n generalizing s with
  | zero => exact ⟨s,rfl,h⟩
  | succ n ih =>
    unfold Rle.rlePixels
    split
    next hx =>
      split
      next =>
        split
        next => exact ⟨s,rfl,h⟩
        next pal _ =>
          split
          next hp =>
            rw [List.getElem?_eq_getElem (hp.trans_le hend)]
            obtain ⟨s₁,h₁,hdrawn⟩ := h.dot hy hx (pal R.bytes[s.p]) (s.p + 1)
            obtain ⟨s₂,h₂,hdrawn₂⟩ := ih hdrawn
            exact ⟨s₂,by show (R.dot y (pal R.bytes[s.p]) (s.p + 1) s).bind _ = _; rw [h₁]; exact h₂,hdrawn₂⟩
          next => exact ⟨s,rfl,h⟩
      next =>
        split
        next hp =>
          obtain ⟨c,hc⟩ := u16le_isSome (hp.trans hend)
          rw [hc]
          obtain ⟨s₁,h₁,hdrawn⟩ := h.dot hy hx c (s.p + 2)
          obtain ⟨s₂,h₂,hdrawn₂⟩ := ih hdrawn
          exact ⟨s₂,by show (R.dot y c (s.p + 2) s).bind _ = _; rw [h₁]; exact h₂,hdrawn₂⟩
        next => exact ⟨s,rfl,h⟩
    next => exact ⟨s,rfl,h⟩

theorem Drawn.rleRow (h : R.Drawn y s) (hy : y < R.h) (hend : rowEnd ≤ R.bytes.length) :
    ∃ s', R.rleRow y rowEnd s = some s' ∧ R.Drawn y s' := by
  -- each command takes two bytes at least
  induction hleft : rowEnd - s.p using Nat.strong_induction_on generalizing s with
  | _ left ih =>
    rw [Rle.rleRow]
    split
    next hp =>
      obtain ⟨cmd,hcmd⟩ := u16le_isSome (hp.1.trans hend)
      rw [hcmd]
      dsimp only
      split
      next => exact ⟨_,rfl,h.move le_rfl⟩
      next =>
        split
        next =>
          refine ih _ ?_ (h.move (p := s.p + 2) (Nat.le_add_right s.x _)) rfl
          show rowEnd - (s.p + 2) < left
          omega
        next =>
          obtain ⟨s₁,h₁,hdrawn⟩ := (h.move (p := s.p + 2) le_rfl).rlePixels hy hend (cmd &&& 0x3fff).toNat
          split
          next hnone => rw [h₁] at hnone; cases hnone
          next s₂ hsome =>
            obtain rfl := Option.some.inj (h₁.symm.trans hsome)
            have hmoved := rlePixels_p h₁
            dsimp only at hmoved
            exact ih _ (by omega) hdrawn rfl
    next => exact ⟨s,rfl,h⟩

theorem Drawn.rleRows {n : ℕ} (hn : y + n = R.h) (h : R.Drawn y { s with x := 0 }) :
    ∃ s', R.rleRows n y s = some s' ∧ s'.surface.w = R.w ∧ s'.surface.h = R.h ∧
      s'.painted = s'.surface.opaqueCount := by
  induction n generalizing s y with
  | zero => exact ⟨s,rfl,h.size.1,h.size.2,h.count⟩
  | succ n ih =>
    unfold Rle.rleRows
    split
    next hp =>
      obtain ⟨row,hrow⟩ := u16le_isSome hp
      rw [hrow]
      dsimp only
      split
      next => exact ⟨s,rfl,h.size.1,h.size.2,h.count⟩
      next hfits =>
        have hend : s.p + (row &&& 0x7fff).toNat ≤ R.bytes.length := by omega
        obtain ⟨s₁,h₁,hdrawn⟩ := (h.move (p := s.p + 2) (x := 0) le_rfl).rleRow (by omega) hend
        have hnext : R.Drawn (y + 1) { s₁ with p := s.p + (row &&& 0x7fff).toNat, x := 0 } :=
          ⟨hdrawn.size,fun k _ => hdrawn.below (y + 1) (by omega) k,
            fun r hr k => hdrawn.below r (by omega) k,hdrawn.count⟩
        obtain ⟨s₂,h₂,hrest⟩ := ih (s := { s₁ with p := s.p + (row &&& 0x7fff).toNat }) (by omega) hnext
        exact ⟨s₂,by rw [h₁]; exact h₂,hrest⟩
    next => exact ⟨s,rfl,h.size.1,h.size.2,h.count⟩

theorem paintRows_counts (R : Rle) (p : ℕ) : ∃ s, R.paintRows p = some s ∧ s.surface.w = R.w ∧ s.surface.h = R.h ∧
    s.painted = s.surface.opaqueCount :=
  Drawn.rleRows (by omega) ⟨⟨rfl,rfl⟩,fun _ _ => rfl,fun _ _ _ => rfl,(Surface.opaqueCount_blank _ _).symm⟩

end Rle

theorem tswHeader_bounds {bytes : List Byte} {magic : Color} {w h bpp : ℕ}
    (hh : tswHeader bytes magic = some (w,h,bpp)) :
    (1 ≤ w ∧ w ≤ 4096) ∧ 1 ≤ h ∧ h ≤ 4096 := by
  unfold tswHeader at hh
  split at hh
  next => cases hh
  next =>
    split at hh
    next =>
      dsimp only at hh
      split at hh
      next hfits =>
        obtain ⟨-,-,hw,hh1,hw4,hh4⟩ := hfits
        simp only [Option.some.injEq,Prod.mk.injEq] at hh
        obtain ⟨rfl,rfl,-⟩ := hh
        exact ⟨⟨hw,hw4⟩,hh1,hh4⟩
      next => cases hh
    next => cases hh

/-- Whatever the bytes are, no read is behind them and no write off the surface; and what comes out is a
surface of sound size with something to see on it, or nothing. -/
theorem expandTswRle_safe (bytes : List Byte) (hintW hintH : ℤ) (pal : Option (Byte → Color)) (key magic : Color) :
    ∃ r, expandTswRle bytes hintW hintH pal key magic = some r ∧
      ∀ S, r = some S → (1 ≤ S.w ∧ S.w ≤ 4096) ∧ (1 ≤ S.h ∧ S.h ≤ 4096) ∧
        ∃ y < S.h, ∃ x < S.w, alpha (S.pixel y x) ≠ 0 := by
  have hresult : ∀ (R : Rle) (p : ℕ), (1 ≤ R.w ∧ R.w ≤ 4096) ∧ 1 ≤ R.h ∧ R.h ≤ 4096 → ∃ s, R.paintRows p = some s ∧
      (0 < s.painted → (1 ≤ s.surface.w ∧ s.surface.w ≤ 4096) ∧ (1 ≤ s.surface.h ∧ s.surface.h ≤ 4096) ∧
        ∃ y < s.surface.h, ∃ x < s.surface.w, alpha (s.surface.pixel y x) ≠ 0) := by
    intro R p hsize
    obtain ⟨s,hs,hw,hh,hcount⟩ := R.paintRows_counts p
    refine ⟨s,hs,fun hpainted => ⟨hw ▸ hsize.1,hh ▸ hsize.2,?_⟩⟩
    rw [hcount] at hpainted
    obtain ⟨a,ha⟩ := Finset.card_pos.mp hpainted
    obtain ⟨hin,hshown⟩ := Finset.mem_filter.mp ha
    obtain ⟨hy,hx⟩ := Finset.mem_product.mp hin
    exact ⟨a.1,Finset.mem_range.mp hy,a.2,Finset.mem_range.mp hx,hshown⟩
  unfold expandTswRle
  split
  next => exact ⟨none,rfl,fun _ hS => by cases hS⟩
  next =>
    split
    next w h bpp hheader =>
      have hsize := tswHeader_bounds hheader
      split
      next => exact ⟨none,rfl,fun _ hS => by cases hS⟩
      next =>
        obtain ⟨s,hs,hvisible⟩ := hresult ⟨bytes,w,h,bpp,pal,key⟩ 8 hsize
        obtain ⟨s₀,hs₀,hvisible₀⟩ := hresult ⟨bytes,w,h,bpp,pal,key⟩ 0 hsize
        simp only [hs,hs₀,Option.bind_some,Option.map_some]
        split
        next hpainted => exact ⟨_,rfl,fun S hS => Option.some.inj hS ▸ hvisible hpainted⟩
        next =>
          refine ⟨_,rfl,fun S hS => ?_⟩
          split at hS
          next hpainted => exact Option.some.inj hS ▸ hvisible₀ hpainted
          next => cases hS
    next =>
      split
      next => exact ⟨none,rfl,fun _ hS => by cases hS⟩
      next hhint =>
        obtain ⟨s,hs,hvisible⟩ := hresult ⟨bytes,hintW.toNat,hintH.toNat,if pal = none then 16 else 8,pal,key⟩ 0
          (by simp only; omega)
        simp only [hs,Option.map_some]
        refine ⟨_,rfl,fun S hS => ?_⟩
        split at hS
        next hpainted => exact Option.some.inj hS ▸ hvisible hpainted
        next => cases hS

end Machismo.Sword3
