import Machismo.EhFrame.Native
import Machismo.Dwarf.Pointers
import Machismo.Data.Leb

/-! # Reading a CIE

A CIE whose length stays in the array is read inside the array.  One whose length passes the end of the
array is read inside it exactly if its fields, as far as they are needed, are complete before the array
ends.
-/
namespace Machismo.EhFrame
open A64 (Byte)
open Data Dwarf

/-- The bits of the groups of a number, above those so far. -/
def groups (shift : ℕ) (result : BitVec 64) : List Byte → BitVec 64
  | [] => result
  | byte :: l => groups (shift+7) (result ||| (byte &&& 0x7F).setWidth 64 <<< (shift % 64)) l

section Numbers
variable {l rest p : List Byte} {room shift : ℕ} {result : BitVec 64}

theorem ulebFrom_append (h : IsLeb l) (hroom : l.length ≤ room) :
    ulebFrom shift result (l ++ p) room = some (groups shift result l,⟨p,room - l.length⟩) := by
  induction l generalizing room shift result with
  | nil => cases h
  | cons byte l ih =>
    obtain ⟨room,rfl⟩ := Nat.exists_eq_add_of_le' (Nat.le_trans (Nat.le_add_left 1 l.length) hroom)
    rw [List.cons_append,ulebFrom]
    cases l with
    | nil =>
      have hlast : byte &&& 0x80 = 0 := (high_bit_clear byte).mpr h
      rw [if_pos hlast]
      rfl
    | cons byte' l =>
      have hmore : ¬byte &&& 0x80 = 0 := by
        rw [high_bit_clear]
        exact not_lt.mpr h.1
      rw [if_neg hmore,ih h.2 (by simpa using hroom)]
      simp [groups]

theorem slebFrom_eq (shift : ℕ) (result : BitVec 64) (rest : List Byte) (room : ℕ) :
    slebFrom rest room = (ulebFrom shift result rest room).map Prod.snd := by
  induction rest generalizing room shift result with
  | nil => cases room <;> rfl
  | cons byte rest ih =>
    cases room with
    | zero => rfl
    | succ room =>
      rw [slebFrom,ulebFrom]
      split_ifs
      · rfl
      · exact ih _ _ room

theorem slebFrom_append (h : IsLeb l) (hroom : l.length ≤ room) :
    slebFrom (l ++ p) room = some ⟨p,room - l.length⟩ := by
  rw [slebFrom_eq 0 0,ulebFrom_append h hroom]
  rfl

theorem ulebFrom_fits (shift : ℕ) (result : BitVec 64) (h : room ≤ rest.length) :
    ∃ v c, ulebFrom shift result rest room = some (v,c) ∧ c.room ≤ c.rest.length := by
  induction rest generalizing room shift result with
  | nil =>
    obtain rfl := Nat.le_zero.mp h
    exact ⟨_,_,rfl,le_rfl⟩
  | cons byte rest ih =>
    cases room with
    | zero => exact ⟨_,_,rfl,Nat.zero_le _⟩
    | succ room =>
      rw [ulebFrom]
      have hrest : room ≤ rest.length := Nat.le_of_succ_le_succ h
      split_ifs
      · exact ⟨_,_,rfl,hrest⟩
      · exact ih _ _ hrest

theorem exists_of_ulebFrom {v : BitVec 64} {c : Cursor} (hroom : rest.length < room)
    (h : ulebFrom shift result rest room = some (v,c)) : ∃ l, IsLeb l ∧ rest = l ++ c.rest := by
  induction rest generalizing room shift result with
  | nil =>
    obtain ⟨room,rfl⟩ := Nat.exists_eq_succ_of_ne_zero (Nat.ne_of_gt hroom)
    cases h
  | cons byte rest ih =>
    obtain ⟨room,rfl⟩ := Nat.exists_eq_succ_of_ne_zero (Nat.ne_of_gt (Nat.zero_lt_of_lt hroom))
    rw [ulebFrom] at h
    split_ifs at h with hlast
    · obtain ⟨-,rfl⟩ := Prod.mk.inj (Option.some.inj h)
      exact ⟨[byte],(high_bit_clear byte).mp hlast,rfl⟩
    · obtain ⟨l,hl,rfl⟩ := ih (Nat.lt_of_succ_lt_succ hroom) h
      refine ⟨byte :: l,?_,rfl⟩
      cases l with
      | nil => cases hl
      | cons byte' l => exact ⟨not_lt.mp (mt (high_bit_clear byte).mpr hlast),hl⟩

theorem IsLeb.ne_nil (h : IsLeb l) : l ≠ [] := by
  rintro rfl
  cases h

theorem toNat_groups {n : ℕ} (h : IsLeb l) (hread : readUleb l = some (n,[])) (hlen : shift + 7*l.length ≤ 63)
    (hresult : result.toNat < 2^shift) : (groups shift result l).toNat = result.toNat + 2^shift*n := by
  induction l generalizing shift result n with
  | nil => cases h
  | cons byte l ih =>
    have hlen' : shift + 7 ≤ 63 := by
      rw [List.length_cons] at hlen
      omega
    have hbits : byte.toNat % 128 * 2^shift < 2^(shift+7) := by
      rw [pow_add,Nat.mul_comm (2^shift)]
      exact Nat.mul_lt_mul_of_pos_right (Nat.mod_lt _ (by decide)) (Nat.two_pow_pos shift)
    have hpow : 2^(shift+7) ≤ 2^63 := Nat.pow_le_pow_right (by decide) hlen'
    have hgroup := toNat_or_group hresult (Nat.lt_of_lt_of_le hbits (hpow.trans (by decide)))
    rw [groups,Nat.mod_eq_of_lt (by omega)]
    cases l with
    | nil =>
      have hlast : byte.toNat < 128 := h
      rw [readUleb,if_pos hlast] at hread
      obtain ⟨rfl,-⟩ := Prod.mk.inj (Option.some.inj hread)
      rw [groups,hgroup,Nat.mod_eq_of_lt hlast,Nat.mul_comm]
    | cons byte' l =>
      rw [readUleb,if_neg (not_lt.mpr h.1)] at hread
      obtain ⟨⟨n',rest⟩,hrest,heq⟩ := Option.map_eq_some_iff.mp hread
      obtain ⟨rfl,rfl⟩ := Prod.mk.inj heq
      have hbyte := byte.isLt
      have hlow : byte.toNat % 128 = byte.toNat - 128 := by
        have := h.1
        omega
      have hnext : (result ||| (byte &&& 0x7F).setWidth 64 <<< shift).toNat < 2^(shift+7) := by
        rw [hgroup]
        have hsucc : (byte.toNat % 128 + 1) * 2^shift ≤ 128 * 2^shift :=
          Nat.mul_le_mul_right _ (Nat.mod_lt _ (by decide))
        rw [pow_add]
        rw [Nat.add_mul,Nat.one_mul] at hsucc
        omega
      rw [ih h.2 hrest (by simp only [List.length_cons] at hlen ⊢; omega) hnext,hgroup,hlow,pow_add]
      ring

end Numbers

/-- The bytes that a pointer takes; none if it is omitted or the format is not known. -/
def pointerWidth (encoding : Byte) : ℕ :=
  if encoding = dwEhPeOmit then 0 else ((pointerFormat encoding).map Prod.fst).getD 0

theorem ehReadEncodedPtr_cursor (deref : BitVec 64 → BitVec 64) (address : ℕ) (rest : List Byte) (room : ℕ)
    (encoding : Byte) : (ehReadEncodedPtr deref address ⟨rest,room⟩ encoding).map Prod.snd =
      if room < pointerWidth encoding then some ⟨rest,room⟩
      else if rest.length < pointerWidth encoding then none
      else some ⟨rest.drop (pointerWidth encoding),room - pointerWidth encoding⟩ := by
  unfold ehReadEncodedPtr pointerWidth
  by_cases homit : encoding = dwEhPeOmit
  · simp [homit]
  · rw [if_neg homit,if_neg homit]
    cases pointerFormat encoding with
    | none => simp
    | some f =>
      obtain ⟨n,signed⟩ := f
      dsimp only [Option.map_some,Option.getD_some]
      split_ifs <;> rfl

/-- The augmentation data lie in the array as far as the letters ask for them. -/
def AugInside : List Byte → List Byte → ℕ → Prop
  | [], _, _ => True
  | letter :: letters, data, room => room ≠ 0 →
    (letter = 0x4c → AugInside letters (data.drop 1) (room-1)) ∧
    (letter = 0x50 → ∃ enc rest, data = enc :: rest ∧
      if room - 1 < pointerWidth enc then AugInside letters rest (room-1)
      else
        pointerWidth enc ≤ rest.length ∧ AugInside letters (rest.drop (pointerWidth enc)) (room-1-pointerWidth enc)) ∧
    (letter = 0x52 → data ≠ [])

section Letters
variable {E : NativeSection}

theorem augLoop_personality (letters rest : List Byte) (enc : Byte) {room : ℕ} (hroom : room ≠ 0) :
    augLoop E (0x50 :: letters) ⟨enc :: rest,room⟩ =
      if room - 1 < pointerWidth enc then augLoop E letters ⟨rest,room-1⟩
      else if rest.length < pointerWidth enc then none
      else augLoop E letters ⟨rest.drop (pointerWidth enc),room-1-pointerWidth enc⟩ := by
  have hcursor := ehReadEncodedPtr_cursor E.deref (E.base + E.size - rest.length) rest (room-1) enc
  have hL : (0x50 : Byte) ≠ 0x4c := by decide
  have hloop : augLoop E (0x50 :: letters) ⟨enc :: rest,room⟩ =
      ((ehReadEncodedPtr E.deref (E.base + E.size - rest.length) ⟨rest,room-1⟩ enc).map Prod.snd).bind
        (augLoop E letters) := by
    rw [augLoop,if_neg hroom,if_neg hL,if_pos rfl,Option.bind_map]
    rfl
  rw [hloop,hcursor]
  split_ifs <;> rfl

theorem augLoop_isSome_iff {letters data : List Byte} {room : ℕ} :
    (augLoop E letters ⟨data,room⟩).isSome ↔ AugInside letters data room := by
  induction letters generalizing data room with
  | nil => exact iff_of_true rfl trivial
  | cons letter letters ih =>
    rw [AugInside]
    by_cases hroom : room = 0
    · rw [augLoop,if_pos hroom]
      exact iff_of_true rfl fun h => absurd hroom h
    · by_cases hL : letter = 0x4c
      · subst hL
        have hP : (0x4c : Byte) ≠ 0x50 := by decide
        have hR : (0x4c : Byte) ≠ 0x52 := by decide
        rw [augLoop,if_neg hroom,if_pos rfl]
        refine ih.trans ⟨fun h _ => ?_,fun h => (h hroom).1 rfl⟩
        exact ⟨fun _ => h,fun h' => absurd h' hP,fun h' => absurd h' hR⟩
      · by_cases hP : letter = 0x50
        · subst hP
          have hR : (0x50 : Byte) ≠ 0x52 := by decide
          cases data with
          | nil =>
            rw [augLoop,if_neg hroom,if_neg hL,if_pos rfl]
            refine iff_of_false Bool.false_ne_true fun h => ?_
            obtain ⟨enc,rest,heq,-⟩ := (h hroom).2.1 rfl
            cases heq
          | cons enc rest =>
            rw [augLoop_personality letters rest enc hroom]
            constructor
            · intro h _
              refine ⟨fun h' => absurd h' hL,fun _ => ⟨enc,rest,rfl,?_⟩,fun h' => absurd h' hR⟩
              split_ifs at h ⊢ with hshort hdata
              · exact ih.mp h
              · cases h
              · exact ⟨not_lt.mp hdata,ih.mp h⟩
            · intro h
              obtain ⟨enc',rest',heq,hinside⟩ := (h hroom).2.1 rfl
              obtain ⟨rfl,rfl⟩ := List.cons.inj heq
              split_ifs at hinside ⊢ with hshort hdata
              · exact ih.mpr hinside
              · exact absurd hdata (not_lt.mpr hinside.1)
              · exact ih.mpr hinside.2
        · by_cases hR : letter = 0x52
          · subst hR
            rw [augLoop,if_neg hroom,if_neg hL,if_neg hP,if_pos rfl]
            cases data with
            | nil => exact iff_of_false Bool.false_ne_true fun h => (h hroom).2.2 rfl rfl
            | cons enc data =>
              exact iff_of_true rfl fun _ => ⟨fun h => absurd h hL,fun h => absurd h hP,fun _ => List.cons_ne_nil _ _⟩
          · rw [augLoop,if_neg hroom,if_neg hL,if_neg hP,if_neg hR]
            exact iff_of_true rfl fun _ => ⟨fun h => absurd h hL,fun h => absurd h hP,fun h => absurd h hR⟩

theorem augInside_of_fits {letters data : List Byte} {room : ℕ} (h : room ≤ data.length) :
    AugInside letters data room := by
  induction letters generalizing data room with
  | nil => trivial
  | cons letter letters ih =>
    intro hroom
    have hne : data ≠ [] := by
      rintro rfl
      exact hroom (Nat.le_zero.mp h)
    refine ⟨fun _ => ih (by rw [List.length_drop]; omega),fun _ => ?_,fun _ => hne⟩
    obtain ⟨enc,rest,rfl⟩ := List.exists_cons_of_ne_nil hne
    rw [List.length_cons] at h
    refine ⟨enc,rest,rfl,?_⟩
    split_ifs with hshort
    · exact ih (by omega)
    · exact ⟨by omega,ih (by rw [List.length_drop]; omega)⟩

end Letters

section String
variable {string rest p : List Byte} {room : ℕ}

theorem augScan_append (h : ∀ b ∈ string, b ≠ 0) (hroom : string.length < room) :
    augScan (string ++ 0 :: p) room = some (string,⟨0 :: p,room - string.length⟩) := by
  induction string generalizing room with
  | nil =>
    obtain ⟨room,rfl⟩ := Nat.exists_eq_succ_of_ne_zero (Nat.ne_of_gt hroom)
    rw [List.nil_append,augScan,if_pos rfl]
    rfl
  | cons b string ih =>
    obtain ⟨room,rfl⟩ := Nat.exists_eq_succ_of_ne_zero (Nat.ne_of_gt (Nat.zero_lt_of_lt hroom))
    rw [List.cons_append,augScan,if_neg (h b List.mem_cons_self),
      ih (fun b hb => h b (List.mem_cons_of_mem _ hb)) (Nat.lt_of_succ_lt_succ hroom),Option.map_some]
    simp

theorem augScan_fits (h : room ≤ rest.length) : ∃ string c, augScan rest room = some (string,c) ∧
    c.room ≤ c.rest.length := by
  induction rest generalizing room with
  | nil =>
    obtain rfl := Nat.le_zero.mp h
    exact ⟨_,_,rfl,le_rfl⟩
  | cons b rest ih =>
    cases room with
    | zero => exact ⟨_,_,rfl,Nat.zero_le _⟩
    | succ room =>
      rw [augScan]
      split_ifs
      · exact ⟨_,_,rfl,h⟩
      · obtain ⟨string,c,hscan,hc⟩ := ih (Nat.le_of_succ_le_succ h)
        exact ⟨b :: string,c,by rw [hscan]; rfl,hc⟩

theorem exists_of_augScan {c : Cursor} (hroom : rest.length < room) (h : augScan rest room = some (string,c)) :
    (∀ b ∈ string, b ≠ 0) ∧ ∃ p, rest = string ++ 0 :: p := by
  induction rest generalizing room string with
  | nil =>
    obtain ⟨room,rfl⟩ := Nat.exists_eq_succ_of_ne_zero (Nat.ne_of_gt hroom)
    cases h
  | cons b rest ih =>
    obtain ⟨room,rfl⟩ := Nat.exists_eq_succ_of_ne_zero (Nat.ne_of_gt (Nat.zero_lt_of_lt hroom))
    rw [augScan] at h
    split_ifs at h with hzero
    · obtain ⟨rfl,-⟩ := Prod.mk.inj (Option.some.inj h)
      subst hzero
      exact ⟨fun _ hb => absurd hb List.not_mem_nil,rest,rfl⟩
    · obtain ⟨⟨string',c'⟩,hscan,heq⟩ := Option.map_eq_some_iff.mp h
      obtain ⟨rfl,rfl⟩ := Prod.mk.inj heq
      obtain ⟨hstring,p,rfl⟩ := ih (Nat.lt_of_succ_lt_succ hroom) hscan
      exact ⟨List.forall_mem_cons.mpr ⟨hzero,hstring⟩,p,rfl⟩

end String

/-- What `parse_cie_fde_encoding` does behind the alignment factors. -/
def parseAugmentation (E : NativeSection) (version : Byte) (string : List Byte) (c : Cursor) : Option Byte :=
  (if version = 1 then some (if c.room = 0 then c else c.skip 1) else (ehReadUleb128 c).map Prod.snd).bind fun c =>
  if string.head? ≠ some 0x7a then some dwEhPeAbs
  else (ehReadUleb128 c).bind fun augLen => augLoop E string.tail ⟨augLen.2.rest,augRoom E augLen.2 augLen.1⟩

section Fields
variable {E : NativeSection} {id string code data rest cieData : List Byte} {version : Byte} {cieLength : ℕ}

theorem parseCieFdeEncoding_cons (hid : id.length = 4) (hlen : 4 < cieLength) :
    parseCieFdeEncoding E (id ++ version :: rest) cieLength = (augScan rest (cieLength-5)).bind fun augStr =>
      if augStr.2.room = 0 then some dwEhPeAbs
      else (ehReadUleb128 (augStr.2.skip 1)).bind fun codeAlign => (ehReadSleb128 codeAlign.2).bind fun c =>
        parseAugmentation E version augStr.1 c := by
  have hdrop : (id ++ version :: rest).drop 4 = version :: rest := List.drop_left' hid
  rw [parseCieFdeEncoding,if_neg (by omega)]
  simp only [Cursor.skip,hdrop]
  rw [if_neg (by omega)]
  rfl

theorem parseCieFdeEncoding_fields (hid : id.length = 4) (hstring : ∀ b ∈ string, b ≠ 0) (hcode : IsLeb code)
    (hdata : IsLeb data) (hroom : string.length + code.length + data.length + 6 ≤ cieLength) :
    parseCieFdeEncoding E (id ++ version :: (string ++ 0 :: (code ++ (data ++ rest)))) cieLength =
      parseAugmentation E version string ⟨rest,cieLength - (string.length + code.length + data.length + 6)⟩ := by
  rw [parseCieFdeEncoding_cons hid (by omega),augScan_append hstring (by omega),Option.bind_some]
  dsimp only
  rw [if_neg (by omega)]
  simp only [ehReadUleb128,ehReadSleb128,Cursor.skip,List.drop_succ_cons,List.drop_zero]
  rw [ulebFrom_append hcode (by omega),Option.bind_some]
  dsimp only
  rw [slebFrom_append hdata (by omega),Option.bind_some]
  have hrest : cieLength - 5 - string.length - 1 - code.length - data.length =
      cieLength - (string.length + code.length + data.length + 6) := by omega
  rw [hrest]

end Fields

/-! ## CIEs that are read inside the array -/

/-- The length of the augmentation data stands in the array, and so do the data. -/
def DataInside (E : NativeSection) (letters rest : List Byte) (room : ℕ) : Prop :=
  room = 0 ∨ ∃ length data, rest = length ++ data ∧ IsLeb length ∧
    AugInside letters data (augRoom E ⟨data,room - length.length⟩ (groups 0 0 length))

/-- What follows the alignment factors stands in the array. -/
def RegisterInside (E : NativeSection) (version : Byte) (string rest : List Byte) (room : ℕ) : Prop :=
  if version = 1 then string.head? = some 0x7a → DataInside E string.tail (rest.drop 1) (room-1)
  else ∃ returnReg rest', rest = returnReg ++ rest' ∧ IsLeb returnReg ∧
    (string.head? = some 0x7a → DataInside E string.tail rest' (room - returnReg.length))

/-- The fields of a CIE stand in the array, as far as they are read. -/
def FieldsInside (E : NativeSection) (cieData : List Byte) (cieLength : ℕ) : Prop :=
  ∃ id version string code data rest, cieData = id ++ version :: (string ++ 0 :: (code ++ (data ++ rest))) ∧
    id.length = 4 ∧ (∀ b ∈ string, b ≠ 0) ∧ IsLeb code ∧ IsLeb data ∧
    RegisterInside E version string rest (cieLength - (string.length + code.length + data.length + 6))

/-- The CIE has no fields, or it ends in the array, or its fields do. -/
def CieInside (E : NativeSection) (cieData : List Byte) (cieLength : ℕ) : Prop :=
  cieLength ≤ 4 ∨ cieLength ≤ cieData.length ∨ FieldsInside E cieData cieLength

section Inside
variable {E : NativeSection} {letters rest string cieData : List Byte} {version : Byte} {room cieLength : ℕ}

theorem augRoom_le (c : Cursor) (augLen : BitVec 64) : augRoom E c augLen ≤ c.room := by
  rw [augRoom]
  split_ifs
  · exact le_rfl
  · omega

theorem eq_of_ulebFrom {shift : ℕ} {result : BitVec 64} {r : BitVec 64×Cursor} (h : rest.length < room)
    (hread : ulebFrom shift result rest room = some r) :
    ∃ l p, rest = l ++ p ∧ IsLeb l ∧ l.length ≤ room ∧ r = (groups shift result l,⟨p,room - l.length⟩) := by
  obtain ⟨l,hl,heq⟩ := exists_of_ulebFrom h hread
  have hle : l.length ≤ room := by
    rw [heq,List.length_append] at h
    omega
  rw [heq,ulebFrom_append hl hle] at hread
  exact ⟨l,r.2.rest,heq,hl,hle,(Option.some.inj hread).symm⟩

theorem readData_isSome_iff (h : rest.length < room ∨ room = 0) :
    ((ehReadUleb128 ⟨rest,room⟩).bind fun augLen =>
      augLoop E letters ⟨augLen.2.rest,augRoom E augLen.2 augLen.1⟩).isSome ↔ DataInside E letters rest room := by
  by_cases hzero : room = 0
  · subst hzero
    refine iff_of_true ?_ (.inl rfl)
    have hlimit := augRoom_le (E := E) ⟨rest,0⟩ 0
    rw [ehReadUleb128,ulebFrom.eq_def]
    exact augLoop_isSome_iff.mpr (augInside_of_fits (hlimit.trans (Nat.zero_le _)))
  · have hlt : rest.length < room := h.resolve_right hzero
    constructor
    · intro hsome
      obtain ⟨enc,henc⟩ := Option.isSome_iff_exists.mp hsome
      obtain ⟨r,hread,hloop⟩ := Option.bind_eq_some_iff.mp henc
      obtain ⟨l,p,heq,hl,-,rfl⟩ := eq_of_ulebFrom hlt hread
      exact .inr ⟨l,p,heq,hl,augLoop_isSome_iff.mp (Option.isSome_of_eq_some hloop)⟩
    · intro hinside
      obtain ⟨l,p,rfl,hl,hletters⟩ := hinside.resolve_left hzero
      have hle : l.length ≤ room := by
        rw [List.length_append] at hlt
        omega
      rw [ehReadUleb128,ulebFrom_append hl hle]
      exact augLoop_isSome_iff.mpr hletters

theorem readData_of_fits (h : room ≤ rest.length) :
    ((ehReadUleb128 ⟨rest,room⟩).bind fun augLen =>
      augLoop E letters ⟨augLen.2.rest,augRoom E augLen.2 augLen.1⟩).isSome := by
  obtain ⟨v,c,hread,hc⟩ := ulebFrom_fits 0 0 h
  rw [ehReadUleb128,hread]
  exact augLoop_isSome_iff.mpr (augInside_of_fits ((augRoom_le c v).trans hc))

theorem parseAugmentation_isSome_iff (h : rest.length < room) :
    (parseAugmentation E version string ⟨rest,room⟩).isSome ↔ RegisterInside E version string rest room := by
  rw [parseAugmentation,RegisterInside]
  by_cases hversion : version = 1
  · have hroom : room ≠ 0 := Nat.ne_of_gt (Nat.zero_lt_of_lt h)
    have hdrop : (rest.drop 1).length < room - 1 ∨ room - 1 = 0 := by
      rw [List.length_drop]
      omega
    simp only [if_pos hversion,if_neg hroom,Option.bind_some,Cursor.skip]
    by_cases hz : string.head? = some 0x7a
    · rw [if_neg (not_not.mpr hz),readData_isSome_iff hdrop]
      exact ⟨fun h _ => h,fun h => h hz⟩
    · rw [if_pos hz]
      exact iff_of_true rfl fun h => absurd h hz
  · rw [if_neg hversion,if_neg hversion]
    constructor
    · intro hsome
      obtain ⟨enc,henc⟩ := Option.isSome_iff_exists.mp hsome
      obtain ⟨c,hc,hrest⟩ := Option.bind_eq_some_iff.mp henc
      obtain ⟨r,hread,rfl⟩ := Option.map_eq_some_iff.mp hc
      obtain ⟨l,p,rfl,hl,hle,rfl⟩ := eq_of_ulebFrom h hread
      refine ⟨l,p,rfl,hl,fun hz => ?_⟩
      rw [if_neg (not_not.mpr hz)] at hrest
      have hlt : p.length < room - l.length := by
        rw [List.length_append] at h
        omega
      exact (readData_isSome_iff (.inl hlt)).mp (Option.isSome_of_eq_some hrest)
    · rintro ⟨l,p,rfl,hl,hinside⟩
      rw [List.length_append] at h
      have hle : l.length ≤ room := by omega
      have hlt : p.length < room - l.length := by omega
      rw [ehReadUleb128,ulebFrom_append hl hle,Option.map_some,Option.bind_some]
      by_cases hz : string.head? = some 0x7a
      · rw [if_neg (not_not.mpr hz)]
        exact (readData_isSome_iff (.inl hlt)).mpr (hinside hz)
      · rw [if_pos hz]
        rfl

theorem parseAugmentation_of_fits (h : room ≤ rest.length) :
    (parseAugmentation E version string ⟨rest,room⟩).isSome := by
  have hregister : ∃ c, (if version = 1 then some (if room = 0 then ⟨rest,room⟩ else Cursor.skip 1 ⟨rest,room⟩)
      else (ehReadUleb128 ⟨rest,room⟩).map Prod.snd) = some c ∧ c.room ≤ c.rest.length := by
    by_cases hversion : version = 1
    · rw [if_pos hversion]
      refine ⟨_,rfl,?_⟩
      split_ifs
      · exact h
      · simp only [Cursor.skip,List.length_drop]
        omega
    · rw [if_neg hversion]
      obtain ⟨v,c,hread,hc⟩ := ulebFrom_fits 0 0 h
      exact ⟨c,by rw [ehReadUleb128,hread]; rfl,hc⟩
  obtain ⟨c,hc,hfits⟩ := hregister
  rw [parseAugmentation,hc,Option.bind_some]
  split_ifs
  · rfl
  · exact readData_of_fits hfits

theorem exists_version (h : 4 < cieData.length) :
    ∃ id version rest, cieData = id ++ version :: rest ∧ id.length = 4 := by
  have hdrop : cieData.drop 4 ≠ [] := by
    intro heq
    have hlen := congrArg List.length heq
    rw [List.length_drop] at hlen
    exact Nat.sub_ne_zero_of_lt h hlen
  obtain ⟨version,rest,hrest⟩ := List.exists_cons_of_ne_nil hdrop
  refine ⟨cieData.take 4,version,rest,?_,List.length_take_of_le h.le⟩
  rw [← hrest,List.take_append_drop]

theorem parseCieFdeEncoding_of_fits (h : cieLength ≤ cieData.length) :
    (parseCieFdeEncoding E cieData cieLength).isSome := by
  by_cases hlen : cieLength ≤ 4
  · rw [parseCieFdeEncoding]
    split_ifs with hshort
    · rfl
    · have hroom : cieLength - 4 = 0 := Nat.sub_eq_zero_of_le hlen
      rw [Cursor.skip,if_pos hroom]
      rfl
  · obtain ⟨id,version,rest,rfl,hid⟩ := exists_version (Nat.lt_of_lt_of_le (not_le.mp hlen) h)
    rw [List.length_append,List.length_cons,hid] at h
    obtain ⟨string,c,hscan,hc⟩ := @augScan_fits rest (cieLength-5) (by omega)
    rw [parseCieFdeEncoding_cons hid (not_le.mp hlen),hscan,Option.bind_some]
    dsimp only
    split_ifs with hroom
    · rfl
    · have hskip : c.room - 1 ≤ (c.rest.drop 1).length := by
        rw [List.length_drop]
        exact Nat.sub_le_sub_right hc 1
      obtain ⟨v,c',hcode,hc'⟩ := ulebFrom_fits 0 0 hskip
      obtain ⟨v',c'',hdata,hc''⟩ := ulebFrom_fits 0 0 hc'
      rw [Cursor.skip,ehReadUleb128,hcode,Option.bind_some,ehReadSleb128,slebFrom_eq 0 0,hdata]
      exact parseAugmentation_of_fits hc''

theorem fieldsInside_of_isSome (hlen : 4 < cieLength) (hlong : cieData.length < cieLength)
    (h : (parseCieFdeEncoding E cieData cieLength).isSome) : FieldsInside E cieData cieLength := by
  obtain ⟨enc,henc⟩ := Option.isSome_iff_exists.mp h
  have hversion : 4 < cieData.length := by
    by_contra hshort
    have hdrop : cieData.drop 4 = [] := List.drop_eq_nil_of_le (not_lt.mp hshort)
    rw [parseCieFdeEncoding,if_neg (by omega)] at henc
    simp only [Cursor.skip,hdrop] at henc
    rw [if_neg (by omega)] at henc
    cases henc
  obtain ⟨id,version,rest,rfl,hid⟩ := exists_version hversion
  have hsize : rest.length + 5 < cieLength := by
    simp only [List.length_append,List.length_cons,hid] at hlong
    omega
  rw [parseCieFdeEncoding_cons hid hlen] at henc
  obtain ⟨⟨string,c⟩,hscan,henc⟩ := Option.bind_eq_some_iff.mp henc
  obtain ⟨hstring,p,rfl⟩ := exists_of_augScan (by omega) hscan
  rw [List.length_append,List.length_cons] at hsize
  rw [augScan_append hstring (by omega)] at hscan
  obtain ⟨-,rfl⟩ := Prod.mk.inj (Option.some.inj hscan)
  dsimp only at henc
  rw [if_neg (by omega)] at henc
  obtain ⟨rcode,hcode,henc⟩ := Option.bind_eq_some_iff.mp henc
  simp only [ehReadUleb128,Cursor.skip,List.drop_succ_cons,List.drop_zero] at hcode
  obtain ⟨code,p1,rfl,hisCode,hleCode,rfl⟩ := eq_of_ulebFrom (by omega) hcode
  rw [List.length_append] at hsize
  obtain ⟨cdata,hdata,henc⟩ := Option.bind_eq_some_iff.mp henc
  rw [ehReadSleb128,slebFrom_eq 0 0] at hdata
  obtain ⟨rdata,hread,rfl⟩ := Option.map_eq_some_iff.mp hdata
  obtain ⟨data,p2,rfl,hisData,hleData,rfl⟩ := eq_of_ulebFrom (by dsimp only; omega) hread
  rw [List.length_append] at hsize
  refine ⟨id,version,string,code,data,p2,rfl,hid,hstring,hisCode,hisData,?_⟩
  have hroom : cieLength - 5 - string.length - 1 - code.length - data.length =
      cieLength - (string.length + code.length + data.length + 6) := by omega
  rw [← hroom]
  exact (parseAugmentation_isSome_iff (by omega)).mp (Option.isSome_of_eq_some henc)

/-- A CIE is read inside the array exactly if it has no fields, or it ends in the array, or its fields do. -/
theorem parseCieFdeEncoding_isSome_iff :
    (parseCieFdeEncoding E cieData cieLength).isSome ↔ CieInside E cieData cieLength := by
  by_cases hfits : cieLength ≤ cieData.length
  · exact iff_of_true (parseCieFdeEncoding_of_fits hfits) (.inr (.inl hfits))
  · by_cases hlen : cieLength ≤ 4
    · refine iff_of_true ?_ (.inl hlen)
      rw [parseCieFdeEncoding]
      split_ifs with hshort
      · rfl
      · have hroom : cieLength - 4 = 0 := Nat.sub_eq_zero_of_le hlen
        rw [Cursor.skip,if_pos hroom]
        rfl
    · constructor
      · intro hsome
        exact .inr (.inr (fieldsInside_of_isSome (not_le.mp hlen) (not_le.mp hfits) hsome))
      · intro hinside
        obtain ⟨id,version,string,code,data,rest,rfl,hid,hstring,hcode,hdata,hregister⟩ :=
          (hinside.resolve_left hlen).resolve_left hfits
        simp only [List.length_append,List.length_cons,hid] at hfits
        rw [parseCieFdeEncoding_fields hid hstring hcode hdata (by omega)]
        exact (parseAugmentation_isSome_iff (by omega)).mpr hregister

end Inside

end Machismo.EhFrame
