import Mathlib

/-! # Text from bytes

UTF-8 as a text is read from it when errors are replaced: the longest part that some well-formed
sequence begins with becomes one replacement character.  What is well formed is read without loss.
-/
namespace Machismo.Data

def utf8 (text : List Char) : List UInt8 := text.flatMap String.utf8EncodeChar

/-- Some text is written so. -/
def WellFormed (raw : List UInt8) : Prop := ∃ text, utf8 text = raw

/-- What may follow a first byte in a well-formed sequence. -/
def continuations (byte : UInt8) : List (UInt8 × UInt8) :=
  if byte < 0xc2 then []
  else if byte < 0xe0 then [(0x80,0xbf)]
  else if byte = 0xe0 then [(0xa0,0xbf),(0x80,0xbf)]
  else if byte = 0xed then [(0x80,0x9f),(0x80,0xbf)]
  else if byte < 0xf0 then [(0x80,0xbf),(0x80,0xbf)]
  else if byte = 0xf0 then [(0x90,0xbf),(0x80,0xbf),(0x80,0xbf)]
  else if byte < 0xf4 then [(0x80,0xbf),(0x80,0xbf),(0x80,0xbf)]
  else if byte = 0xf4 then [(0x80,0x8f),(0x80,0xbf),(0x80,0xbf)]
  else []

/-- The bytes that follow as they may. -/
def continued : List (UInt8 × UInt8) → List UInt8 → ℕ
  | (low,high)::ranges, byte::raw => if low ≤ byte ∧ byte ≤ high then continued ranges raw+1 else 0
  | _, _ => 0

def decodeReplaceFrom : ℕ → List UInt8 → List Char
  | 0, _ => []
  | _+1, [] => []
  | n+1, byte::raw =>
    match (byte::raw).toByteArray.utf8DecodeChar? 0 with
    | some c => c::decodeReplaceFrom n ((byte::raw).drop c.utf8Size)
    | none => '\uFFFD'::decodeReplaceFrom n (raw.drop (continued (continuations byte) raw))

def decodeReplace (raw : List UInt8) : List Char := decodeReplaceFrom raw.length raw

/-- `raw.decode("utf-8", "replace")` -/
def decodeText (raw : List (BitVec 8)) : List Char := decodeReplace (raw.map UInt8.ofBitVec)

theorem utf8_cons (c : Char) (text : List Char) : utf8 (c::text) = String.utf8EncodeChar c++utf8 text :=
  List.flatMap_cons

theorem decodeReplaceFrom_utf8 {n : ℕ} {text : List Char} (hn : (utf8 text).length ≤ n) :
    decodeReplaceFrom n (utf8 text) = text := by
  induction n generalizing text with
  | zero =>
    cases text with
    | nil => rfl
    | cons c text =>
      have hpos := c.utf8Size_pos
      rw [utf8_cons,List.length_append,String.length_utf8EncodeChar] at hn
      omega
  | succ n ih =>
    cases text with
    | nil => rfl
    | cons c text =>
      have hsize := String.length_utf8EncodeChar c
      have hpos := c.utf8Size_pos
      rw [utf8_cons,List.length_append,hsize] at hn
      have hread : (utf8 (c::text)).toByteArray.utf8DecodeChar? 0 = some c := by
        rw [utf8_cons,List.toByteArray_append]
        exact ByteArray.utf8DecodeChar?_utf8EncodeChar_append
      have hrest : (utf8 (c::text)).drop c.utf8Size = utf8 text := by
        rw [utf8_cons,← hsize,List.drop_left]
      obtain ⟨byte,raw,hraw⟩ : ∃ byte raw, utf8 (c::text) = byte::raw :=
        List.exists_cons_of_ne_nil (List.ne_nil_of_length_pos (by rw [utf8_cons,List.length_append]; omega))
      rw [hraw] at hread hrest ⊢
      rw [decodeReplaceFrom,hread]
      dsimp only
      rw [hrest,ih (by omega)]

theorem decodeReplace_utf8 (text : List Char) : decodeReplace (utf8 text) = text := decodeReplaceFrom_utf8 le_rfl

theorem utf8_decodeReplace_iff (raw : List UInt8) : utf8 (decodeReplace raw) = raw ↔ WellFormed raw := by
  constructor
  · exact fun h => ⟨_,h⟩
  · rintro ⟨text,rfl⟩
    rw [decodeReplace_utf8]

/-- A truncated sequence is one error, and a stray byte another. -/
example : decodeReplace [0x41,0xe2,0x82,0x42,0xc0,0x80] = ['A','\uFFFD','B','\uFFFD','\uFFFD'] := by
  decide +kernel

end Machismo.Data
