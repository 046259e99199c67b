import Machismo.Sword3.TswRle

/-! # Pictures from their rows

A picture given as rows of commands is stored and painted again: each pixel a row has comes out at its
place, as far as the surface goes, and every other one is transparent.
-/
namespace Machismo.Sword3
open A64 (Byte)

/-- How the pixels of a run are stored. -/
inductive Depth where
  | indexed (pal : Byte → Color)
  | direct

namespace Depth

def bpp : Depth → ℕ
  | indexed _ => 8
  | direct => 16

def le16 (v : Color) : List Byte := [v.setWidth 8,(v >>> 8).setWidth 8]

def bytes : Depth → Color → List Byte
  | indexed _, c => [c.setWidth 8]
  | direct, c => le16 c

/-- The colour these bytes stand for. -/
def color : Depth → Color → Color
  | indexed pal, c => pal (c.setWidth 8)
  | direct, c => c

end Depth

open Depth (le16)

inductive RowCmd where
  | skip (flag : BitVec 2) (n : ℕ)
  | run (cs : List Color)

namespace RowCmd

def word : RowCmd → Color
  | skip flag n => flag ++ BitVec.ofNat 14 n
  | run cs => 0#2 ++ BitVec.ofNat 14 cs.length

def Ok : RowCmd → Prop
  | skip flag n => flag ≠ 0 ∧ 0 < n ∧ n < 2^14
  | run cs => 0 < cs.length ∧ cs.length < 2^14

variable (D : Depth)

def pixels : RowCmd → List Byte
  | skip _ _ => []
  | run cs => cs.flatMap D.bytes

def bytes (cmd : RowCmd) : List Byte := le16 cmd.word ++ cmd.pixels D

/-- The pixels that a command covers; those it leaves out are missing. -/
def cells : RowCmd → List (Option Color)
  | skip _ n => List.replicate n none
  | run cs => cs.map fun c => some (D.color c)

end RowCmd

/-- A row of commands with what may stand behind the last one: a byte too few for another, or a zero
command and anything after it. -/
structure PictureRow (D : Depth) where
  cmds : List RowCmd
  tail : List Byte
  mark : BitVec 1
  ok : ∀ cmd ∈ cmds, cmd.Ok
  ends : tail.length < 2 ∨ ∃ rest, tail = 0 :: 0 :: rest
  size : 4 ≤ 2 + (cmds.flatMap (RowCmd.bytes D) ++ tail).length ∧
    2 + (cmds.flatMap (RowCmd.bytes D) ++ tail).length < 2^15

namespace PictureRow
variable {D : Depth} (row : PictureRow D)

def body : List Byte := row.cmds.flatMap (RowCmd.bytes D) ++ row.tail

def bytes : List Byte := le16 (row.mark ++ BitVec.ofNat 15 (2 + row.body.length)) ++ row.body

def cells : List (Option Color) := row.cmds.flatMap (RowCmd.cells D)

end PictureRow

/-- The colour of a pixel of the picture. -/
def pictureColor {D : Depth} (rows : List (PictureRow D)) (y x : ℕ) : Option Color :=
  rows[y]?.bind fun row => (row.cells[x]?).join

/-- Nothing that could be a row. -/
def EndsPicture (rest : List Byte) : Prop := rest.length < 2 ∨ ∃ v tail, rest = le16 v ++ tail ∧ v &&& 0x7fff = 0

theorem u16le_le16 {bytes rest : List Byte} {p : ℕ} {v : Color} (h : bytes.drop p = le16 v ++ rest) :
    u16le bytes p = some v := by
  have h0 : bytes[p]? = some (v.setWidth 8) := by
    rw [← Nat.add_zero p,← List.getElem?_drop,h]
    rfl
  have h1 : bytes[p + 1]? = some ((v >>> 8).setWidth 8) := by
    rw [← List.getElem?_drop,h]
    rfl
  have hv : (v >>> 8).setWidth 8 ++ v.setWidth 8 = v := by
    apply BitVec.eq_of_getLsbD_eq
    intro i hi
    rw [BitVec.getLsbD_append]
    by_cases h8 : i < 8
    · simp [h8]
    · simp [h8,show i - 8 < 8 by omega,show 8 + (i - 8) = i by omega]
  unfold u16le
  rw [h0,h1]
  exact congrArg some hv

theorem word_length {flag : BitVec 2} {n : ℕ} (h : n < 2^14) :
    ((flag ++ BitVec.ofNat 14 n) &&& 0x3fff#16).toNat = n := by
  have hmask : (0x3fff#16) = 0#2 ++ BitVec.allOnes 14 := by decide
  have hn : (BitVec.ofNat 14 n).toNat = n := by rw [BitVec.toNat_ofNat,Nat.mod_eq_of_lt h]
  rw [hmask,BitVec.and_append,BitVec.and_zero,BitVec.and_allOnes,BitVec.toNat_append,hn]
  simp

theorem word_flag {flag : BitVec 2} {n : ℕ} : (flag ++ BitVec.ofNat 14 n) &&& 0xc000#16 = 0 ↔ flag = 0 := by
  have hmask : (0xc000#16) = BitVec.allOnes 2 ++ 0#14 := by decide
  rw [hmask,BitVec.and_append,BitVec.and_allOnes,BitVec.and_zero]
  constructor
  · intro h
    have hn := congrArg BitVec.toNat h
    rw [BitVec.toNat_append] at hn
    apply BitVec.eq_of_toNat_eq
    have : flag.toNat <<< 14 = 0 := by simpa using hn
    rw [Nat.shiftLeft_eq] at this
    simpa using this
  · rintro rfl
    rfl

theorem header_length {mark : BitVec 1} {n : ℕ} (h : n < 2^15) :
    ((mark ++ BitVec.ofNat 15 n) &&& 0x7fff#16).toNat = n := by
  have hmask : (0x7fff#16) = 0#1 ++ BitVec.allOnes 15 := by decide
  have hn : (BitVec.ofNat 15 n).toNat = n := by rw [BitVec.toNat_ofNat,Nat.mod_eq_of_lt h]
  rw [hmask,BitVec.and_append,BitVec.and_zero,BitVec.and_allOnes,BitVec.toNat_append,hn]
  simp

/-- `S'` is `S` with these cells painted over row `y` from column `x` on. -/
structure Over (R : Rle) (y x : ℕ) (cells : List (Option Color)) (S S' : Surface) : Prop where
  size : S'.w = S.w ∧ S'.h = S.h
  pixel : ∀ r k, k < R.w → S'.pixel r k =
    ((if r = y ∧ x ≤ k then (cells[k - x]?).join else none).map fun c => map555 c R.key).getD (S.pixel r k)

namespace Over
variable {R : Rle} {y x : ℕ} {as bs : List (Option Color)} {S S₁ S₂ : Surface}

theorem nil : Over R y x [] S S := ⟨⟨rfl,rfl⟩,fun r k _ => by simp⟩

theorem clipped (hx : R.w ≤ x) : Over R y x as S S :=
  ⟨⟨rfl,rfl⟩,fun r k hk => by rw [if_neg (by omega)]; rfl⟩

theorem append (h₁ : Over R y x as S S₁) (h₂ : Over R y (x + as.length) bs S₁ S₂) : Over R y x (as ++ bs) S S₂ := by
  refine ⟨⟨h₂.size.1.trans h₁.size.1,h₂.size.2.trans h₁.size.2⟩,fun r k hk => ?_⟩
  rw [h₂.pixel r k hk,h₁.pixel r k hk]
  by_cases hr : r = y
  · by_cases hlow : x ≤ k
    · by_cases hhigh : x + as.length ≤ k
      · have hsub : k - x - as.length = k - (x + as.length) := by omega
        have hout : as[k - x]? = none := List.getElem?_eq_none (by omega)
        rw [if_pos ⟨hr,hhigh⟩,if_pos ⟨hr,hlow⟩,if_pos ⟨hr,hlow⟩,List.getElem?_append_right (by omega),hsub,hout]
        rfl
      · rw [if_neg (by omega),if_pos ⟨hr,hlow⟩,if_pos ⟨hr,hlow⟩,List.getElem?_append_left (by omega)]
        rfl
    · rw [if_neg (by omega),if_neg (by omega),if_neg (by omega)]
      rfl
  · rw [if_neg (by tauto),if_neg (by tauto),if_neg (by tauto)]
    rfl

theorem append_clipped (h : Over R y x as S S₁) (hx : R.w ≤ x + as.length) : Over R y x (as ++ bs) S S₁ :=
  h.append (clipped hx)

end Over

theorem drop_add {bytes xs rest : List Byte} {p : ℕ} (h : bytes.drop p = xs ++ rest) :
    bytes.drop (p + xs.length) = rest := by
  rw [← List.drop_drop,h,List.drop_left]

namespace Rle
variable {R : Rle} {D : Depth} {y rowEnd : ℕ} {s : Brush}

/-- The pixels are stored as `D` says. -/
structure HasDepth (R : Rle) (D : Depth) : Prop where
  bpp : R.bpp = D.bpp
  pal : ∀ pal, D = .indexed pal → R.pal = some pal

theorem dot_over (hy : y < s.surface.h) (hx : s.x < s.surface.w) (c : Color) (p : ℕ) :
    ∃ s', R.dot y c p s = some s' ∧ s'.p = p ∧ s'.x = s.x + 1 ∧ Over R y s.x [some c] s.surface s'.surface := by
  unfold dot
  rw [Surface.put_eq hy hx]
  refine ⟨_,rfl,rfl,rfl,⟨rfl,rfl⟩,fun r k _ => ?_⟩
  show (if r = y ∧ k = s.x then map555 c R.key else s.surface.pixel r k) = _
  by_cases hk : r = y ∧ k = s.x
  · obtain ⟨rfl,rfl⟩ := hk
    simp
  · rw [if_neg hk]
    split
    next hin =>
      rw [List.getElem?_eq_none (by simp only [List.length_singleton]; omega)]
      rfl
    next => rfl

theorem rlePixels_step (hD : R.HasDepth D) {c : Color} {rest : List Byte} (hx : s.x < R.w)
    (hbytes : R.bytes.drop s.p = D.bytes c ++ rest) (hend : s.p + (D.bytes c).length ≤ rowEnd) (n : ℕ) :
    R.rlePixels y rowEnd (n + 1) s =
      (R.dot y (D.color c) (s.p + (D.bytes c).length) s).bind (R.rlePixels y rowEnd n) := by
  rw [rlePixels,if_pos hx]
  cases D with
  | indexed pal =>
    have hbpp : R.bpp = 8 := hD.bpp
    have hget : R.bytes[s.p]? = some (c.setWidth 8) := by
      rw [← Nat.add_zero s.p,← List.getElem?_drop,hbytes]
      rfl
    have hlt : s.p < rowEnd := hend
    rw [if_pos hbpp,hD.pal pal rfl]
    simp only [if_pos hlt,hget]
    rfl
  | direct =>
    have hbpp : ¬R.bpp = 8 := by rw [hD.bpp]; decide
    have hle : s.p + 2 ≤ rowEnd := hend
    rw [if_neg hbpp,if_pos hle,u16le_le16 hbytes]
    rfl

theorem rlePixels_over (hD : R.HasDepth D) (hw : s.surface.w = R.w) (hy : y < s.surface.h) {cs : List Color}
    {rest : List Byte} (hbytes : R.bytes.drop s.p = cs.flatMap D.bytes ++ rest)
    (hend : s.p + (cs.flatMap D.bytes).length ≤ rowEnd) :
    ∃ s', R.rlePixels y rowEnd cs.length s = some s' ∧
      Over R y s.x (cs.map fun c => some (D.color c)) s.surface s'.surface ∧
      (s'.x = s.x + cs.length ∧ s'.p = s.p + (cs.flatMap D.bytes).length ∨ R.w ≤ s'.x ∧ R.w ≤ s.x + cs.length) := by
  induction cs generalizing s with
  | nil => exact ⟨s,rfl,.nil,Or.inl ⟨rfl,rfl⟩⟩
  | cons c cs ih =>
    rw [List.flatMap_cons,List.length_append] at hend
    rw [List.flatMap_cons,List.append_assoc] at hbytes
    by_cases hx : s.x < R.w
    · obtain ⟨s₁,h₁,hp₁,hx₁,hover⟩ := dot_over (R := R) hy (hw ▸ hx) (D.color c) (s.p + (D.bytes c).length)
      have hbytes₁ : R.bytes.drop s₁.p = cs.flatMap D.bytes ++ rest := hp₁ ▸ drop_add hbytes
      obtain ⟨s₂,h₂,hover₂,hplace⟩ := ih (s := s₁) (hover.size.1.trans hw) (hover.size.2 ▸ hy) hbytes₁ (by omega)
      refine ⟨s₂,?_,?_,?_⟩
      · rw [List.length_cons,rlePixels_step hD hx hbytes (by omega),h₁]
        exact h₂
      · rw [hx₁] at hover₂
        exact hover.append hover₂
      · rw [List.flatMap_cons,List.length_append,List.length_cons]
        omega
    · refine ⟨s,?_,.clipped (by omega),Or.inr ⟨by omega,by omega⟩⟩
      rw [List.length_cons,rlePixels,if_neg hx]

theorem rleRow_clipped (hx : R.w ≤ s.x) : R.rleRow y rowEnd s = some s := by
  rw [rleRow,dif_neg (by omega)]

theorem rleRow_tail {tail rest : List Byte} (hends : tail.length < 2 ∨ ∃ r, tail = 0 :: 0 :: r)
    (hbytes : R.bytes.drop s.p = tail ++ rest) (hend : s.p + tail.length = rowEnd) :
    ∃ s', R.rleRow y rowEnd s = some s' ∧ s'.surface = s.surface := by
  rw [rleRow]
  split
  next hp =>
    obtain hshort | ⟨r,rfl⟩ := hends
    · omega
    · have hsplit : R.bytes.drop s.p = le16 0 ++ (r ++ rest) := hbytes
      have hzero : u16le R.bytes s.p = some 0 := u16le_le16 hsplit
      rw [hzero]
      exact ⟨_,rfl,rfl⟩
  next => exact ⟨s,rfl,rfl⟩

theorem rleRow_over (hD : R.HasDepth D) {cmds : List RowCmd} (hok : ∀ cmd ∈ cmds, cmd.Ok) {tail rest : List Byte}
    (hends : tail.length < 2 ∨ ∃ r, tail = 0 :: 0 :: r) (hw : s.surface.w = R.w) (hy : y < s.surface.h)
    (hbytes : R.bytes.drop s.p = cmds.flatMap (RowCmd.bytes D) ++ (tail ++ rest))
    (hend : s.p + (cmds.flatMap (RowCmd.bytes D)).length + tail.length = rowEnd) :
    ∃ s', R.rleRow y rowEnd s = some s' ∧ Over R y s.x (cmds.flatMap (RowCmd.cells D)) s.surface s'.surface := by
  induction cmds generalizing s with
  | nil =>
    obtain ⟨s',hs',hsurface⟩ := rleRow_tail hends hbytes (by simpa using hend)
    exact ⟨s',hs',hsurface ▸ .nil⟩
  | cons cmd cmds ih =>
    have hcmd := hok cmd List.mem_cons_self
    have hrest := fun c hc => hok c (List.mem_cons_of_mem _ hc)
    by_cases hx : s.x < R.w
    · rw [List.flatMap_cons,RowCmd.bytes,List.append_assoc,List.append_assoc] at hbytes
      rw [List.flatMap_cons,RowCmd.bytes,List.length_append,List.length_append] at hend
      have hle : (le16 cmd.word).length = 2 := rfl
      have hbytes₁ := drop_add hbytes
      rw [hle] at hbytes₁ hend
      rw [rleRow,dif_pos ⟨by omega,hx⟩,u16le_le16 hbytes]
      dsimp only
      cases cmd with
      | skip flag n =>
        obtain ⟨hflag,hpos,hlt⟩ := hcmd
        have hn : (RowCmd.word (.skip flag n) &&& 0x3fff).toNat = n := word_length hlt
        have hzero : ¬(RowCmd.word (.skip flag n) = 0 ∨ n = 0) := by
          rintro (h0 | h0)
          · rw [h0] at hn
            simp at hn
            omega
          · omega
        have hmark : RowCmd.word (.skip flag n) &&& 0xc000 ≠ 0 := fun h0 => hflag (word_flag.mp h0)
        rw [hn,if_neg hzero,if_pos hmark]
        obtain ⟨s',hs',hover⟩ := ih hrest (s := { s with p := s.p + 2, x := s.x + n }) hw hy hbytes₁
          (by simp only [RowCmd.pixels,List.length_nil] at hend; simpa [Nat.add_assoc] using hend)
        refine ⟨s',hs',?_⟩
        rw [List.flatMap_cons]
        have hskip : Over R y s.x (RowCmd.cells D (.skip flag n)) s.surface s.surface := by
          refine ⟨⟨rfl,rfl⟩,fun r k _ => ?_⟩
          split
          next => cases hget : (RowCmd.cells D (.skip flag n))[k - s.x]? with
            | none => rfl
            | some c =>
              rw [RowCmd.cells] at hget
              rw [List.eq_of_mem_replicate (List.mem_of_getElem? hget)]
              rfl
          next => rfl
        refine hskip.append ?_
        rw [RowCmd.cells,List.length_replicate]
        exact hover
      | run cs =>
        obtain ⟨hpos,hlt⟩ := hcmd
        have hn : (RowCmd.word (.run cs) &&& 0x3fff).toNat = cs.length := word_length hlt
        have hzero : ¬(RowCmd.word (.run cs) = 0 ∨ cs.length = 0) := by
          rintro (h0 | h0)
          · rw [h0] at hn
            simp at hn
            omega
          · omega
        have hmark : ¬RowCmd.word (.run cs) &&& 0xc000 ≠ 0 := fun h0 => h0 (word_flag.mpr rfl)
        rw [hn,if_neg hzero,if_neg hmark]
        obtain ⟨s₁,h₁,hover,hplace⟩ := @rlePixels_over R D y rowEnd { s with p := s.p + 2 } hD hw hy cs _
          hbytes₁ (by simp only [RowCmd.pixels] at hend; dsimp only; omega)
        split
        next hnone => rw [h₁] at hnone; cases hnone
        next s₂ hsome =>
          obtain rfl := Option.some.inj (h₁.symm.trans hsome)
          rw [List.flatMap_cons]
          obtain ⟨hx₁,hp₁⟩ | ⟨hx₁,hclip⟩ := hplace
          · have hbytes₂ : R.bytes.drop s₁.p = cmds.flatMap (RowCmd.bytes D) ++ (tail ++ rest) := by
              rw [hp₁]
              exact drop_add hbytes₁
            obtain ⟨s',hs',hover'⟩ := ih hrest (s := s₁) (hover.size.1.trans hw) (hover.size.2 ▸ hy) hbytes₂
              (by simp only [RowCmd.pixels] at hend; dsimp only at hp₁; omega)
            refine ⟨s',hs',Over.append hover ?_⟩
            rw [RowCmd.cells,List.length_map,← hx₁]
            exact hover'
          · refine ⟨s₁,rleRow_clipped hx₁,Over.append_clipped hover ?_⟩
            rw [RowCmd.cells,List.length_map]
            exact hclip
    · exact ⟨s,rleRow_clipped (by omega),.clipped (by omega)⟩

/-- `S'` is `S` with the rows painted from row `y` on, up to row `h`. -/
structure OverRows (R : Rle) (D : Depth) (y : ℕ) (rows : List (PictureRow D)) (S S' : Surface) : Prop where
  size : S'.w = S.w ∧ S'.h = S.h
  pixel : ∀ r < R.h, ∀ k < R.w, S'.pixel r k =
    ((if y ≤ r then pictureColor rows (r - y) k else none).map fun c => map555 c R.key).getD (S.pixel r k)

theorem OverRows.cons {row : PictureRow D} {rows : List (PictureRow D)} {S S₁ S₂ : Surface}
    (h₁ : Over R y 0 row.cells S S₁) (h₂ : OverRows R D (y + 1) rows S₁ S₂) : OverRows R D y (row :: rows) S S₂ := by
  refine ⟨⟨h₂.size.1.trans h₁.size.1,h₂.size.2.trans h₁.size.2⟩,fun r hr k hk => ?_⟩
  rw [h₂.pixel r hr k hk,h₁.pixel r k hk]
  obtain hlt | rfl | hgt := Nat.lt_trichotomy r y
  · rw [if_neg (by omega),if_neg (by omega),if_neg (by omega)]
    rfl
  · rw [if_neg (by omega),if_pos ⟨rfl,Nat.zero_le k⟩,if_pos le_rfl,Nat.sub_self]
    rfl
  · have hsub : r - y = r - (y + 1) + 1 := by omega
    rw [if_pos (by omega),if_neg (by omega),if_pos (by omega),hsub]
    rfl

theorem rleRows_over (hD : R.HasDepth D) {rows : List (PictureRow D)} {rest : List Byte} {n : ℕ} (hn : y + n = R.h)
    (hrest : EndsPicture rest) (hw : s.surface.w = R.w) (hh : s.surface.h = R.h)
    (hbytes : R.bytes.drop s.p = rows.flatMap PictureRow.bytes ++ rest) :
    ∃ s', R.rleRows n y s = some s' ∧ OverRows R D y rows s.surface s'.surface := by
  induction n generalizing s y rows with
  | zero => exact ⟨s,rfl,⟨rfl,rfl⟩,fun r hr k _ => by rw [if_neg (by omega)]; rfl⟩
  | succ n ih =>
    have hlen : R.bytes.length - s.p = (rows.flatMap PictureRow.bytes ++ rest).length := by
      rw [← hbytes,List.length_drop]
    cases rows with
    | nil =>
      refine ⟨s,?_,⟨rfl,rfl⟩,fun r _ k _ => by split <;> rfl⟩
      rw [rleRows]
      split
      next hp =>
        obtain hshort | ⟨v,tail,rfl,hv⟩ := hrest
        · simp only [List.flatMap_nil,List.nil_append] at hlen
          omega
        · rw [u16le_le16 hbytes]
          exact if_pos (Or.inl (by rw [hv]; decide))
      next => rfl
    | cons row rows =>
      rw [List.flatMap_cons,PictureRow.bytes,List.append_assoc,List.append_assoc] at hbytes
      rw [List.flatMap_cons,PictureRow.bytes,List.append_assoc,List.append_assoc,List.length_append,
        List.length_append] at hlen
      have hle : (le16 (row.mark ++ BitVec.ofNat 15 (2 + row.body.length))).length = 2 := rfl
      have hsize : 4 ≤ 2 + row.body.length ∧ 2 + row.body.length < 2^15 := row.size
      have hbody := drop_add hbytes
      rw [hle] at hlen hbody
      have hcount : ((row.mark ++ BitVec.ofNat 15 (2 + row.body.length) : Color) &&& 0x7fff).toNat =
          2 + row.body.length := header_length hsize.2
      rw [rleRows,if_pos (by omega),u16le_le16 hbytes]
      dsimp only
      rw [hcount,if_neg (by omega)]
      have hcmds : R.bytes.drop (s.p + 2) = row.cmds.flatMap (RowCmd.bytes D) ++
          (row.tail ++ (rows.flatMap PictureRow.bytes ++ rest)) := by
        rw [hbody,PictureRow.body,List.append_assoc]
      have hy : y < s.surface.h := by omega
      have hend : s.p + 2 + (row.cmds.flatMap (RowCmd.bytes D)).length + row.tail.length =
          s.p + (2 + row.body.length) := by
        rw [PictureRow.body,List.length_append]
        omega
      obtain ⟨s₁,h₁,hover⟩ := rleRow_over (s := { s with p := s.p + 2, x := 0 }) hD row.ok row.ends hw hy hcmds hend
      have hnext : R.bytes.drop (s.p + (2 + row.body.length)) = rows.flatMap PictureRow.bytes ++ rest := by
        rw [← Nat.add_assoc]
        exact drop_add hbody
      obtain ⟨s₂,h₂,hrows⟩ := ih (y := y + 1) (s := { s₁ with p := s.p + (2 + row.body.length) }) (by omega)
        (hover.size.1.trans hw) (hover.size.2.trans hh) hnext
      exact ⟨s₂,by rw [h₁]; exact h₂,OverRows.cons hover hrows⟩

end Rle

theorem alpha_map555 {c key : Color} : alpha (map555 c key) = 0 ↔ c = key := by
  have htop : alpha (map555 c key) = (if c = key then 0#8 else 255#8).setWidth 32 := by
    apply BitVec.eq_of_getLsbD_eq
    intro i hi
    simp only [alpha,map555,BitVec.getLsbD_ushiftRight,BitVec.getLsbD_append,BitVec.getLsbD_setWidth]
    simp [hi,show ¬24 + i < 8 by omega,show ¬24 + i - 8 < 8 by omega,show ¬24 + i - 8 - 8 < 8 by omega,
      show 24 + i - 8 - 8 - 8 = i by omega]
  rw [htop]
  by_cases h : c = key
  · simp [h]
  · simp [h]

def headerBytes (first w h depth : Color) : List Byte := le16 first ++ le16 w ++ le16 h ++ le16 depth

theorem tswHeader_headerBytes {first w h depth : Color} {D : Depth} (hw : 1 ≤ w.toNat ∧ w.toNat ≤ 4096)
    (hh : 1 ≤ h.toNat ∧ h.toNat ≤ 4096) (hdepth : (depth &&& 0x7fff).toNat = D.bpp) (rest : List Byte) (magic : Color) :
    tswHeader (headerBytes first w h depth ++ rest) magic = some (w.toNat,h.toNat,D.bpp) := by
  have hlong : ¬(headerBytes first w h depth ++ rest).length < 8 := by
    rw [List.length_append]
    have : (headerBytes first w h depth).length = 8 := rfl
    omega
  have h0 : u16le (headerBytes first w h depth ++ rest) 0 = some first := u16le_le16 rfl
  have h2 : u16le (headerBytes first w h depth ++ rest) 2 = some w := u16le_le16 rfl
  have h4 : u16le (headerBytes first w h depth ++ rest) 4 = some h := u16le_le16 rfl
  have h6 : u16le (headerBytes first w h depth ++ rest) 6 = some depth := u16le_le16 rfl
  have hbpp : D.bpp = 8 ∨ D.bpp = 16 := by cases D <;> simp [Depth.bpp]
  unfold tswHeader
  rw [if_neg hlong,h0,h2,h4,h6]
  simp only [hdepth]
  exact if_pos ⟨Or.inl ⟨hbpp,hw.1,hh.1,hw.2,hh.2⟩,hbpp,hw.1,hh.1,hw.2,hh.2⟩

/-- A stored picture with something to see comes out as it is: every pixel that a row has, as far as the
surface goes, in its colour, and every other one transparent. -/
theorem expandTswRle_rows {D : Depth} {rows : List (PictureRow D)} {rest : List Byte} {first w h depth : Color}
    {pal : Option (Byte → Color)} (key magic : Color) (hintW hintH : ℤ) (hw : 1 ≤ w.toNat ∧ w.toNat ≤ 4096)
    (hh : 1 ≤ h.toNat ∧ h.toNat ≤ 4096) (hdepth : (depth &&& 0x7fff).toNat = D.bpp)
    (hpal : ∀ p, D = .indexed p → pal = some p) (hrest : EndsPicture rest)
    (hvisible : ∃ y < h.toNat, ∃ x < w.toNat, ∃ c, pictureColor rows y x = some c ∧ c ≠ key) :
    ∃ S, expandTswRle (headerBytes first w h depth ++ (rows.flatMap PictureRow.bytes ++ rest)) hintW hintH pal key
        magic = some (some S) ∧ S.w = w.toNat ∧ S.h = h.toNat ∧
      ∀ y < h.toNat, ∀ x < w.toNat,
        S.pixel y x = ((pictureColor rows y x).map fun c => map555 c key).getD 0 := by
  let bytes := headerBytes first w h depth ++ (rows.flatMap PictureRow.bytes ++ rest)
  let R : Rle := ⟨bytes,w.toNat,h.toNat,D.bpp,pal,key⟩
  have hD : R.HasDepth D := ⟨rfl,hpal⟩
  have hbytes : R.bytes.drop 8 = rows.flatMap PictureRow.bytes ++ rest := rfl
  obtain ⟨s,hs,hrows⟩ := Rle.rleRows_over (s := ⟨8,0,0,.blank R.w R.h⟩) (n := R.h) hD (Nat.zero_add _) hrest rfl rfl
    hbytes
  have hpaint : R.paintRows 8 = some s := hs
  obtain ⟨s',hs',-,-,hcount⟩ := R.paintRows_counts 8
  obtain rfl := Option.some.inj (hpaint.symm.trans hs')
  have hpixel : ∀ y < h.toNat, ∀ x < w.toNat,
      s.surface.pixel y x = ((pictureColor rows y x).map fun c => map555 c key).getD 0 := by
    intro y hy x hx
    rw [hrows.pixel y hy x hx,if_pos (Nat.zero_le y)]
    rfl
  have hpainted : 0 < s.painted := by
    obtain ⟨y,hy,x,hx,c,hc,hkey⟩ := hvisible
    rw [hcount]
    refine Finset.card_pos.mpr ⟨(y,x),Finset.mem_filter.mpr ⟨Finset.mem_product.mpr ⟨?_,?_⟩,?_⟩⟩
    · rw [hrows.size.2]
      exact Finset.mem_range.mpr hy
    · rw [hrows.size.1]
      exact Finset.mem_range.mpr hx
    · rw [hpixel y hy x hx,hc]
      exact fun h0 => hkey (alpha_map555.mp h0)
  have hlong : ¬bytes.length < 4 := by
    simp only [bytes,List.length_append]
    have : (headerBytes first w h depth).length = 8 := rfl
    omega
  have hneed : ¬(D.bpp = 8 ∧ pal = none) := by
    rintro ⟨h8,hnone⟩
    cases D with
    | indexed p => rw [hpal p rfl] at hnone; cases hnone
    | direct => cases h8
  refine ⟨s.surface,?_,hrows.size.1,hrows.size.2,hpixel⟩
  unfold expandTswRle
  rw [if_neg hlong,tswHeader_headerBytes hw hh hdepth]
  simp only [if_neg hneed]
  rw [show Rle.paintRows ⟨headerBytes first w h depth ++ (rows.flatMap PictureRow.bytes ++ rest),w.toNat,h.toNat,D.bpp,
    pal,key⟩ 8 = some s from hpaint,Option.bind_some,if_pos hpainted]

/-- A row that leaves one pixel out and has one white pixel. -/
def whiteDot : PictureRow .direct where
  cmds := [.skip 1 1,.run [0x7fff]]
  tail := []
  mark := 0
  ok cmd hcmd := by
    simp only [List.mem_cons,List.not_mem_nil,or_false] at hcmd
    obtain rfl | rfl := hcmd
    · exact ⟨by decide,by decide,by decide⟩
    · exact ⟨by decide,by decide⟩
  ends := Or.inl (by decide)
  size := ⟨by decide,by decide⟩

/-- The picture of this row, three pixels wide. -/
theorem expandTswRle_rows_whiteDot :
    ∃ S, expandTswRle [0,0,3,0,1,0,16,0,8,0,1,0x40,1,0,0xff,0x7f] 0 0 none 0 0 = some (some S) ∧ S.w = 3 ∧ S.h = 1 ∧
      S.pixel 0 0 = 0 ∧ S.pixel 0 1 = 0xffffffff ∧ S.pixel 0 2 = 0 := by
  have hvisible : ∃ y < (1 : Color).toNat, ∃ x < (3 : Color).toNat, ∃ c, pictureColor [whiteDot] y x = some c ∧ c ≠ 0 :=
    ⟨0,by decide,1,by decide,0x7fff,by decide,by decide⟩
  have hends : EndsPicture [] := Or.inl (by decide)
  have hpal : ∀ p, Depth.direct = .indexed p → (none : Option (Byte → Color)) = some p := fun _ h => by cases h
  obtain ⟨S,hS,hw,hh,hpixel⟩ := @expandTswRle_rows .direct [whiteDot] [] 0 3 1 16 none 0 0 0 0 (by decide) (by decide)
    (by decide) hpal hends hvisible
  refine ⟨S,hS,hw,hh,?_,?_,?_⟩
  · rw [hpixel 0 (by decide) 0 (by decide)]
    rfl
  · rw [hpixel 0 (by decide) 1 (by decide)]
    decide
  · rw [hpixel 0 (by decide) 2 (by decide)]
    rfl

end Machismo.Sword3
