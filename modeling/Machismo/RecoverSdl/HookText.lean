import Machismo.RecoverSdl.AddressHooks
import Machismo.Resolver.DyldInfo

/-! # The hook file as it is read back

The trampoline reads bytes: fields between blanks, up to a hash sign.  A line of the tool has the
four fields it was written with exactly when the names have none of these characters in them, the
address fits in 64 bits and at least four bytes are expected.
-/
namespace Machismo.RecoverSdl
open Machismo.A64 (Byte)
open Machismo.Data Machismo.Trampoline

section Fields
variable {sep : Char → Bool}

theorem fieldsFrom_append (w : List Char) (hw : ∀ c ∈ w, sep c = false) (field s : List Char) :
    fieldsFrom sep field (w++s) = fieldsFrom sep (w.reverse++field) s := by
  induction w generalizing field with
  | nil => rfl
  | cons c w ih =>
    have hc : sep c = false := hw c List.mem_cons_self
    rw [List.cons_append,fieldsFrom,if_neg (by simp [hc]),ih (fun d hd => hw d (List.mem_cons_of_mem _ hd)),
      List.reverse_cons,List.append_assoc]
    rfl

theorem fieldsFrom_field {w : List Char} {c : Char} (hw : ∀ d ∈ w, sep d = false) (hne : w ≠ []) (hc : sep c = true)
    (s : List Char) : fieldsFrom sep [] (w++c::s) = w::fieldsFrom sep [] s := by
  rw [fieldsFrom_append w hw,List.append_nil,fieldsFrom,if_pos hc,if_neg (by simpa using hne),List.reverse_reverse]

theorem mem_fieldsFrom {s field l : List Char} (hfield : ∀ c ∈ field, sep c = false) (h : l ∈ fieldsFrom sep field s) :
    l ≠ [] ∧ ∀ c ∈ l, sep c = false ∧ (c ∈ field ∨ c ∈ s) := by
  induction s generalizing field with
  | nil =>
    rw [fieldsFrom] at h
    split_ifs at h with hnil
    · cases h
    · obtain rfl := List.mem_singleton.mp h
      exact ⟨by simpa using hnil,fun c hc => ⟨hfield c (List.mem_reverse.mp hc),.inl (List.mem_reverse.mp hc)⟩⟩
  | cons d s ih =>
    rw [fieldsFrom] at h
    have hrest (h : l ∈ fieldsFrom sep [] s) : l ≠ [] ∧ ∀ c ∈ l, sep c = false ∧ (c ∈ field ∨ c ∈ d::s) := by
      obtain ⟨hne,hmem⟩ := ih (fun _ hc => absurd hc List.not_mem_nil) h
      exact ⟨hne,fun c hc => ⟨(hmem c hc).1,
        .inr (List.mem_cons_of_mem _ ((hmem c hc).2.resolve_left List.not_mem_nil))⟩⟩
    split_ifs at h with hd hnil
    · exact hrest h
    · rcases List.mem_cons.mp h with rfl | h
      · exact ⟨by simpa using hnil,fun c hc => ⟨hfield c (List.mem_reverse.mp hc),.inl (List.mem_reverse.mp hc)⟩⟩
      · exact hrest h
    · have hd : sep d = false := by simpa using hd
      obtain ⟨hne,hmem⟩ := ih (List.forall_mem_cons.mpr ⟨hd,hfield⟩) h
      refine ⟨hne,fun c hc => ⟨(hmem c hc).1,?_⟩⟩
      rcases (hmem c hc).2 with hc | hc
      · rcases List.mem_cons.mp hc with rfl | hc
        · exact .inr List.mem_cons_self
        · exact .inl hc
      · exact .inr (List.mem_cons_of_mem _ hc)

theorem fieldsFrom_unlines {ls : List (List Char)} (h : ∀ l ∈ ls, l ≠ [] ∧ '\n' ∉ l) :
    fieldsFrom (· = '\n') [] (unlines '\n' ls) = ls := by
  induction ls with
  | nil => rfl
  | cons l ls ih =>
    obtain ⟨⟨hne,hnl⟩,hls⟩ := List.forall_mem_cons.mp h
    have hcons : unlines '\n' (l::ls) = l++ '\n' :: unlines '\n' ls := by simp [unlines]
    rw [hcons,fieldsFrom_field _ hne (by decide),ih hls]
    intro c hc
    simp [ne_of_mem_of_not_mem hc hnl]

end Fields

section Numbers

theorem hexNibble_eq : ∀ c ∈ hexDigits, hexNibble c = hexDigits.idxOf? c := by
  simp only [hexDigits,List.forall_mem_cons]
  exact ⟨rfl,rfl,rfl,rfl,rfl,rfl,rfl,rfl,rfl,rfl,rfl,rfl,rfl,rfl,rfl,rfl,fun _ h => absurd h List.not_mem_nil⟩

theorem digitChar_mem : ∀ n < 16, n.digitChar ∈ hexDigits := by decide

theorem hexNibble_digitChar {n : ℕ} (h : n < 16) : hexNibble n.digitChar = some n := by
  rw [hexNibble_eq _ (digitChar_mem n h),idxOf?_digitChar n h]

theorem isSome_hexNibble {c : Char} (h : c ∈ hexDigits) : (hexNibble c).isSome = true := by
  rw [hexNibble_eq c h]
  exact List.isSome_idxOf?.mpr h

theorem mapM_of_foldlM {l : List Char} {a n : ℕ} (hl : ∀ c ∈ l, c ∈ hexDigits)
    (h : l.foldlM (fun v c => (hexDigits.idxOf? c).map (16*v+·)) a = some n) :
    ∃ ds, l.mapM hexNibble = some ds ∧ ds.foldl (fun v d => 16*v+d) a = n := by
  induction l generalizing a with
  | nil => exact ⟨[],rfl,Option.some.inj h⟩
  | cons c l ih =>
    obtain ⟨v,hv,h⟩ := Option.bind_eq_some_iff.mp h
    obtain ⟨d,hd,rfl⟩ := Option.map_eq_some_iff.mp hv
    obtain ⟨ds,hds,hfold⟩ := ih (fun c hc => hl c (List.mem_cons_of_mem _ hc)) h
    refine ⟨d::ds,?_,hfold⟩
    rw [List.mapM_cons,hexNibble_eq c (hl c List.mem_cons_self),hd,hds]
    rfl

theorem hex_ne_nil (n : ℕ) : hex n ≠ [] := by
  by_cases h : n < 16
  · simp [hex_of_lt h]
  · simp [hex_of_le (Nat.le_of_not_lt h)]

theorem strtoull16_hx {n : ℕ} (h : n < 2^64) : strtoull16 (hx n) = some (BitVec.ofNat 64 n) := by
  obtain ⟨c,t,hct⟩ := List.exists_cons_of_ne_nil (hex_ne_nil n)
  have hmem : c ∈ hexDigits := mem_hexDigits_of_mem_hex (hct ▸ List.mem_cons_self)
  have hnibble : (hexNibble c).isSome = true := isSome_hexNibble hmem
  obtain ⟨ds,hds,hfold⟩ := mapM_of_foldlM (fun c hc => mem_hexDigits_of_mem_hex hc) (readHex_hex n)
  rw [hct] at hds
  obtain ⟨d,ds',rfl⟩ : ∃ d ds', ds = d::ds' := by
    have hcons := hds
    rw [List.mapM_cons] at hcons
    obtain ⟨d,-,hrest⟩ := Option.bind_eq_some_iff.mp hcons
    obtain ⟨ds',-,heq⟩ := Option.bind_eq_some_iff.mp hrest
    exact ⟨d,ds',(Option.some.inj heq).symm⟩
  have hspace : ('0' :: 'x' :: c::t).dropWhile isSpace = '0' :: 'x' :: c::t := rfl
  have hread : hx n = '0' :: 'x' :: c::t := by rw [hx,hct]
  rw [strtoull16,hread,hspace]
  simpa [hnibble,hds,hfold] using h

theorem hexBytes_hexText (raw : List Byte) : hexBytes (hexText raw) = some raw := by
  induction raw with
  | nil => rfl
  | cons byte raw ih =>
    have hlt := byte.isLt
    have hcons : hexText (byte::raw) = (byte.toNat/16).digitChar::(byte.toNat%16).digitChar::hexText raw := rfl
    rw [hcons,hexBytes,hexNibble_digitChar (by omega),hexNibble_digitChar (by omega),ih]
    refine congrArg (fun b => some (b::raw)) (BitVec.eq_of_toNat_eq ?_)
    rw [BitVec.toNat_ofNat]
    omega

end Numbers

section Bytes

/-- The bytes of a text, as the trampoline has them in a line. -/
def encode (text : Text) : Resolver.Name := Resolver.nameOf ((utf8 text).map UInt8.toBitVec)

theorem encode_append (a b : Text) : encode (a++b) = encode a++encode b := by
  simp [encode,utf8,Resolver.nameOf]

theorem encode_unlines (nl : Char) (hnl : encode [nl] = [nl]) (ls : List Text) :
    encode (unlines nl ls) = unlines nl (ls.map encode) := by
  induction ls with
  | nil => rfl
  | cons l ls ih =>
    have hcons (l : Text) (ls : List Text) : unlines nl (l::ls) = l++[nl]++unlines nl ls := rfl
    rw [hcons,List.map_cons,hcons,encode_append,encode_append,hnl,ih]

theorem toNat_of_mem_utf8EncodeChar {c : Char} {b : UInt8} (h : b ∈ String.utf8EncodeChar c) :
    (c.toNat < 128 ∧ b.toNat = c.toNat) ∨ (128 ≤ c.toNat ∧ 128 ≤ b.toNat) := by
  unfold String.utf8EncodeChar at h
  have hc : c.val.toNat = c.toNat := rfl
  dsimp only at h
  rw [hc] at h
  split_ifs at h with h1 h2 h3
  · obtain rfl := List.mem_singleton.mp h
    refine .inl ⟨by omega,?_⟩
    rw [UInt8.toNat_ofNat']
    omega
  all_goals
    refine .inr ⟨by omega,?_⟩
    simp only [List.mem_cons,List.not_mem_nil,or_false] at h
    rcases h with rfl | rfl | rfl | rfl <;> (rw [UInt8.toNat_ofNat']; omega)

theorem mem_encode {c : Char} (hc : c.toNat < 128) {text : Text} : c ∈ encode text ↔ c ∈ text := by
  have hbyte (b : UInt8) : (Char.ofNat b.toBitVec.toNat).toNat = b.toNat := by
    have hlt := b.toNat_lt
    rw [Char.toNat_ofNat,if_pos (Or.inl (by simp; omega))]
    rfl
  unfold encode Resolver.nameOf utf8
  rw [List.map_map,List.mem_map]
  constructor
  · rintro ⟨b,hb,rfl⟩
    obtain ⟨d,hd,hbd⟩ := List.mem_flatMap.mp hb
    dsimp only [Function.comp_apply] at hc ⊢
    rw [hbyte] at hc
    obtain ⟨hlt,heq⟩ | ⟨-,hge⟩ := toNat_of_mem_utf8EncodeChar hbd
    · have hchar : Char.ofNat b.toBitVec.toNat = d := Char.toNat_inj.mp ((hbyte b).trans heq)
      rwa [hchar]
    · omega
  · intro hmem
    obtain ⟨b,hb⟩ := List.exists_mem_of_length_pos (String.length_utf8EncodeChar c ▸ c.utf8Size_pos)
    refine ⟨b,List.mem_flatMap.mpr ⟨c,hmem,hb⟩,?_⟩
    obtain ⟨-,heq⟩ | ⟨hge,-⟩ := toNat_of_mem_utf8EncodeChar hb
    · exact Char.toNat_inj.mp ((hbyte b).trans heq)
    · omega

end Bytes

section Lines

/-- No blank, no hash sign and no zero. -/
def Clean (name : Text) : Prop := ∀ c ∈ [' ','\t','\r','\n','#','\x00'], c ∉ name

/-- A hook that a line of four fields can hold. -/
structure Emitted.Readable (e : Emitted) : Prop where
  library : Clean e.library
  hostSymbol : Clean e.hostSymbol
  address : e.address < 2^64
  fourBytes : 4 ≤ e.expected.length

abbrev HookFields := ℕ × Resolver.Name × Resolver.Name × List Byte

def Emitted.fields (e : Emitted) : HookFields := (e.address,encode e.library,encode e.hostSymbol,e.expected)

def fieldsOf (hook : AddressHook) : HookFields := (hook.vmaddr.toNat,hook.libPath,hook.symbol,hook.expected)

theorem utf8EncodeChar_ascii {c : Char} (h : c.toNat < 128) : String.utf8EncodeChar c = [UInt8.ofNat c.toNat] := by
  have hle : c.val.toNat ≤ 127 := Nat.le_of_lt_succ h
  unfold String.utf8EncodeChar
  dsimp only
  rw [if_pos hle]
  rfl

theorem encode_ascii {text : Text} (h : ∀ c ∈ text, c.toNat < 128) : encode text = text := by
  induction text with
  | nil => rfl
  | cons c text ih =>
    obtain ⟨hc,htext⟩ := List.forall_mem_cons.mp h
    have hone : encode [c] = [c] := by
      unfold encode utf8 Resolver.nameOf
      rw [List.flatMap_singleton,utf8EncodeChar_ascii hc,List.map_singleton,List.map_singleton]
      refine congrArg (fun c => [c]) ((congrArg Char.ofNat ?_).trans (Char.ofNat_toNat c))
      change (UInt8.ofNat c.toNat).toNat = c.toNat
      rw [UInt8.toNat_ofNat']
      omega
    have hcons : encode (c::text) = encode [c]++encode text := encode_append [c] text
    rw [hcons,hone,ih htext]
    rfl

theorem Clean.encode {name : Text} (h : Clean name) : Clean (encode name) := by
  have hascii : ∀ c ∈ [' ','\t','\r','\n','#','\x00'], c.toNat < 128 := by simp
  exact fun c hc hmem => h c hc ((mem_encode (hascii c hc)).mp hmem)

theorem Clean.of_encode {name : Text} (h : Clean (RecoverSdl.encode name)) : Clean name := by
  have hascii : ∀ c ∈ [' ','\t','\r','\n','#','\x00'], c.toNat < 128 := by simp
  exact fun c hc hmem => h c hc ((mem_encode (hascii c hc)).mpr hmem)

theorem mem_hexDigits_of_mem_hexText {raw : List Byte} {c : Char} (h : c ∈ hexText raw) : c ∈ hexDigits := by
  obtain ⟨byte,-,hc⟩ := List.mem_flatMap.mp h
  have hlt := byte.isLt
  rcases List.mem_cons.mp hc with rfl | hc
  · exact digitChar_mem _ (by omega)
  · rw [List.mem_singleton.mp hc]
    exact digitChar_mem _ (by omega)

theorem mem_of_mem_hx {n : ℕ} {c : Char} (h : c ∈ hx n) : c ∈ 'x'::hexDigits := by
  rcases List.mem_cons.mp h with rfl | h
  · decide
  · rcases List.mem_cons.mp h with rfl | h
    · decide
    · exact List.mem_cons_of_mem _ (mem_hexDigits_of_mem_hex h)

theorem clean_of_hex {text : Text} (h : ∀ c ∈ text, c ∈ 'x'::hexDigits) : Clean text := by
  have hdigits : ∀ c ∈ [' ','\t','\r','\n','#','\x00'], c ∉ 'x'::hexDigits := by simp [hexDigits]
  exact fun c hc hmem => hdigits c hc (h c hmem)

theorem Clean.sep {name : Text} (h : Clean name) :
    ∀ c ∈ name, decide (c ∈ [' ','\t','\r','\n']) = false := by
  intro c hc
  rw [decide_eq_false_iff_not]
  intro hsep
  refine h c ?_ hc
  revert hsep
  simp only [List.mem_cons,List.not_mem_nil,or_false]
  tauto

theorem takeWhile_comment {w s : List Char} (h0 : '\x00' ∉ w) (hhash : '#' ∉ w) :
    ((w++ '#' :: s).takeWhile (· ≠ '\x00')).takeWhile (· ≠ '#') = w := by
  rw [List.takeWhile_append_of_pos (by simpa using fun c hc => ne_of_mem_of_not_mem hc h0),
    List.takeWhile_cons_of_pos (by decide),
    List.takeWhile_append_of_pos (by simpa using fun c hc => ne_of_mem_of_not_mem hc hhash),
    List.takeWhile_cons_of_neg (by decide),List.append_nil]

/-- The four fields of a line, with the blank after each. -/
def Emitted.head (e : Emitted) : List Char :=
  hx e.address++ ' ' :: (encode e.library++ ' ' :: (encode e.hostSymbol++ ' ' :: (hexText e.expected++[' '])))

theorem encode_line (e : Emitted) : encode e.line = e.head++ '#' :: ' ' :: encode e.comment := by
  have hblank : encode [' '] = [' '] := rfl
  have hhash : encode [' ','#',' '] = [' ','#',' '] := rfl
  have hascii : ∀ c ∈ 'x'::hexDigits, c.toNat < 128 := by simp [hexDigits]
  have hhx : encode (hx e.address) = hx e.address := encode_ascii fun c hc => hascii c (mem_of_mem_hx hc)
  have htext : encode (hexText e.expected) = hexText e.expected :=
    encode_ascii fun c hc => hascii c (List.mem_cons_of_mem _ (mem_hexDigits_of_mem_hexText hc))
  unfold Emitted.line Emitted.head
  simp only [encode_append,hblank,hhash,hhx,htext]
  simp only [List.append_assoc,List.cons_append,List.nil_append]

theorem Emitted.Readable.not_mem_head {e : Emitted} (h : e.Readable) {c : Char} (hc : c ∈ ['\n','#','\x00']) :
    c ∉ e.head := by
  have hbad : c ∈ [' ','\t','\r','\n','#','\x00'] := by
    simp only [List.mem_cons,List.not_mem_nil,or_false] at hc ⊢
    tauto
  have hblank : c ≠ ' ' := by
    rintro rfl
    exact absurd hc (by decide)
  have hhx : c ∉ hx e.address := clean_of_hex (fun c hc => mem_of_mem_hx hc) c hbad
  have htext : c ∉ hexText e.expected :=
    clean_of_hex (fun c hc => List.mem_cons_of_mem _ (mem_hexDigits_of_mem_hexText hc)) c hbad
  have hlibrary := h.library.encode c hbad
  have hhost := h.hostSymbol.encode c hbad
  unfold Emitted.head
  simp only [List.mem_append,List.mem_cons,List.not_mem_nil]
  tauto

theorem encode_ne_nil {name : Text} (h : name ≠ []) : encode name ≠ [] := by
  cases name with
  | nil => exact absurd rfl h
  | cons c name =>
    intro hnil
    have hlen := congrArg List.length hnil
    have hpos := c.utf8Size_pos
    simp [encode,utf8,Resolver.nameOf] at hlen
    omega

theorem hexText_ne_nil {raw : List Byte} (h : raw ≠ []) : hexText raw ≠ [] := by
  cases raw with
  | nil => exact absurd rfl h
  | cons byte raw => exact List.cons_ne_nil _ _

theorem fields_head {e : Emitted} (h : e.Readable) (hlibrary : e.library ≠ []) (hhost : e.hostSymbol ≠ []) :
    fieldsFrom (· ∈ [' ','\t','\r','\n']) [] e.head =
      [hx e.address,encode e.library,encode e.hostSymbol,hexText e.expected] := by
  have hne : e.expected ≠ [] := List.ne_nil_of_length_pos (Nat.lt_of_lt_of_le (by decide) h.fourBytes)
  have hhx := (clean_of_hex (fun c hc => mem_of_mem_hx hc) : Clean (hx e.address))
  have htext : Clean (hexText e.expected) :=
    clean_of_hex fun c hc => List.mem_cons_of_mem _ (mem_hexDigits_of_mem_hexText hc)
  rw [Emitted.head,fieldsFrom_field hhx.sep (List.cons_ne_nil _ _) (by decide),
    fieldsFrom_field h.library.encode.sep (encode_ne_nil hlibrary) (by decide),
    fieldsFrom_field h.hostSymbol.encode.sep (encode_ne_nil hhost) (by decide),
    fieldsFrom_field htext.sep (hexText_ne_nil hne) (by decide)]
  rfl

theorem parseExpectedBytes_hexText {raw : List Byte} (h : 4 ≤ raw.length) :
    parseExpectedBytes (hexText raw) = some ⟨raw,h⟩ := by
  have hlen := length_hexBytes (hexBytes_hexText raw)
  unfold parseExpectedBytes
  rw [dif_pos (by omega)]
  split
  next l hl => exact congrArg some (Subtype.ext (Option.some.inj (hl.symm.trans (hexBytes_hexText raw))))
  next hl =>
    rw [hexBytes_hexText] at hl
    cases hl

theorem parse_line {e : Emitted} (h : e.Readable) (hlibrary : e.library ≠ []) (hhost : e.hostSymbol ≠ []) :
    ∃ hook, parseAddressHookLine (encode e.line) = some (some hook) ∧ fieldsOf hook = e.fields := by
  refine ⟨⟨.ofNat 64 e.address,encode e.library,encode e.hostSymbol,e.expected,h.fourBytes⟩,?_,?_⟩
  · unfold parseAddressHookLine
    rw [encode_line,takeWhile_comment (h.not_mem_head (by decide)) (h.not_mem_head (by decide))]
    dsimp only
    rw [fields_head h hlibrary hhost]
    dsimp only
    rw [strtoull16_hx h.address,parseExpectedBytes_hexText h.fourBytes]
  · unfold fieldsOf Emitted.fields
    rw [BitVec.toNat_ofNat,Nat.mod_eq_of_lt h.address]

theorem clean_of_mem_fields {line field : List Char}
    (h : field ∈ fieldsFrom (· ∈ [' ','\t','\r','\n']) [] ((line.takeWhile (· ≠ '\x00')).takeWhile (· ≠ '#'))) :
    Clean field := by
  obtain ⟨-,hmem⟩ := mem_fieldsFrom (fun _ hc => absurd hc List.not_mem_nil) h
  intro c hc hfield
  obtain ⟨hsep,hline⟩ := hmem c hfield
  have hline := hline.resolve_left List.not_mem_nil
  have hhash := List.mem_takeWhile_imp hline
  have hzero := List.mem_takeWhile_imp ((List.takeWhile_prefix _).subset hline)
  simp only [List.mem_cons,List.not_mem_nil,or_false,decide_eq_true_eq,decide_eq_false_iff_not] at hc hsep hhash hzero
  tauto

theorem clean_of_parse {line : List Char} {hook : AddressHook} (h : parseAddressHookLine line = some (some hook)) :
    Clean hook.libPath ∧ Clean hook.symbol := by
  unfold parseAddressHookLine at h
  dsimp only at h
  split at h
  · cases h
  next address libPath symbol expected hfields =>
    split at h
    next vmaddr bytes hbytes _ _ =>
      cases h
      have hmem (field : List Char) (hf : field ∈ [address,libPath,symbol,expected]) : Clean field :=
        clean_of_mem_fields (hfields ▸ hf)
      exact ⟨hmem _ (by simp),hmem _ (by simp)⟩
    next => cases h
  next => cases h

theorem parse_comment {line : List Char} (h : line.head? = some '#') : parseAddressHookLine line = some none := by
  obtain ⟨t,rfl⟩ : ∃ t, line = '#'::t := by
    cases line with
    | nil => cases h
    | cons c t => exact ⟨t,congrArg (·::t) (Option.some.inj h)⟩
  unfold parseAddressHookLine
  rw [List.takeWhile_cons_of_pos (by decide),List.takeWhile_cons_of_neg (by decide)]
  rfl

/-- A hook whose names are there and whose comment stays on its line. -/
structure Emitted.Written (e : Emitted) : Prop where
  library : e.library ≠ []
  hostSymbol : e.hostSymbol ≠ []
  comment : '\n' ∉ e.comment

theorem parse_lines {emitted : List Emitted} (hr : ∀ e ∈ emitted, e.Readable) (hw : ∀ e ∈ emitted, e.Written) :
    ∃ hooks : List AddressHook, (emitted.map fun e => encode e.line).mapM parseAddressHookLine = some (hooks.map some) ∧
      hooks.map fieldsOf = emitted.map Emitted.fields := by
  induction emitted with
  | nil => exact ⟨[],rfl,rfl⟩
  | cons e emitted ih =>
    obtain ⟨hre,hr⟩ := List.forall_mem_cons.mp hr
    obtain ⟨hwe,hw⟩ := List.forall_mem_cons.mp hw
    obtain ⟨hook,hparse,hfields⟩ := parse_line hre hwe.library hwe.hostSymbol
    obtain ⟨hooks,hmap,hall⟩ := ih hr hw
    refine ⟨hook::hooks,?_,by rw [List.map_cons,List.map_cons,hfields,hall]⟩
    rw [List.map_cons,List.mapM_cons,hparse,hmap]
    rfl

section File
variable {X : MachO} {sha256 : List Byte → List Byte} {emitted : List Emitted}

def header (X : MachO) (sha256 : List Byte → List Byte) : List Text := hookLines X sha256 []

theorem hookLines_eq (emitted : List Emitted) :
    hookLines X sha256 emitted = header X sha256++emitted.map Emitted.line :=
  rfl

theorem encode_head {c : Char} (hc : c.toNat < 128) (text : Text) : (encode (c::text)).head? = some c := by
  have hcons : encode (c::text) = encode [c]++encode text := encode_append [c] text
  have hone : encode [c] = [c] := encode_ascii (List.forall_mem_singleton.mpr hc)
  rw [hcons,hone]
  rfl

theorem header_spec : ∀ l ∈ header X sha256, (encode l).head? = some '#' ∧ '\n' ∉ l := by
  have hdigest : '\n' ∉ hexText (sha256 X.data) := fun h =>
    absurd (mem_hexDigits_of_mem_hexText h) (by simp [hexDigits])
  refine List.forall_mem_cons.mpr ⟨⟨encode_head (by decide) _,by decide +kernel⟩,
    List.forall_mem_cons.mpr ⟨⟨encode_head (by decide) _,?_⟩,
      List.forall_mem_singleton.mpr ⟨encode_head (by decide) _,by decide +kernel⟩⟩⟩
  rw [List.mem_append,not_or]
  exact ⟨by decide +kernel,hdigest⟩

theorem Emitted.Readable.newline {e : Emitted} (h : e.Readable) (hw : e.Written) : '\n' ∉ encode e.line := by
  rw [encode_line,List.mem_append,List.mem_cons,List.mem_cons,mem_encode (by decide)]
  have hhead := h.not_mem_head (c := '\n') (by decide)
  have hcomment := hw.comment
  simp [hhead,hcomment]

theorem mapM_header : ((header X sha256).map encode).mapM parseAddressHookLine = some [none,none,none] := by
  have hparse := fun l (hl : l ∈ header X sha256) => parse_comment (header_spec l hl).1
  unfold header hookLines at hparse ⊢
  simp only [List.forall_mem_cons] at hparse
  obtain ⟨h1,h2,h3,-⟩ := hparse
  rw [List.map_cons,List.map_cons,List.map_cons,List.mapM_cons,List.mapM_cons,List.mapM_cons,h1,h2,h3]
  rfl

theorem load_hookLines (X : MachO) (sha256 : List Byte → List Byte) (hr : ∀ e ∈ emitted, e.Readable)
    (hw : ∀ e ∈ emitted, e.Written) (hne : emitted ≠ []) :
    ∃ hooks, loadAddressHooks (some (encode (unlines '\n' (hookLines X sha256 emitted)))) = some hooks ∧
      hooks.map fieldsOf = emitted.map Emitted.fields := by
  obtain ⟨hooks,hparse,hfields⟩ := parse_lines hr hw
  refine ⟨hooks,?_,hfields⟩
  have hlines : ∀ l ∈ (hookLines X sha256 emitted).map encode, l ≠ [] ∧ '\n' ∉ l := by
    rw [hookLines_eq,List.map_append]
    intro l hl
    rcases List.mem_append.mp hl with hl | hl
    · obtain ⟨text,htext,rfl⟩ := List.mem_map.mp hl
      obtain ⟨hhead,hnl⟩ := header_spec text htext
      refine ⟨fun hnil => ?_,mt (mem_encode (by decide)).mp hnl⟩
      rw [hnil] at hhead
      cases hhead
    · obtain ⟨text,htext,rfl⟩ := List.mem_map.mp hl
      obtain ⟨e,he,rfl⟩ := List.mem_map.mp htext
      refine ⟨?_,(hr e he).newline (hw e he)⟩
      rw [encode_line]
      exact List.append_ne_nil_of_right_ne_nil _ (List.cons_ne_nil _ _)
  have hsome : (hooks.map some).filterMap id = hooks := by
    rw [List.filterMap_map]
    exact List.filterMap_some
  have hhooks : hooks ≠ [] := by
    rintro rfl
    exact hne (List.map_eq_nil_iff.mp hfields.symm)
  obtain ⟨hook,hooks,rfl⟩ := List.exists_cons_of_ne_nil hhooks
  unfold loadAddressHooks
  rw [encode_unlines _ rfl]
  dsimp only [Option.bind_eq_bind,Option.bind_some]
  rw [fieldsFrom_unlines hlines,hookLines_eq,List.map_append,List.mapM_append,mapM_header,List.map_map]
  have hparse' : (emitted.map (encode ∘ Emitted.line)).mapM parseAddressHookLine =
      some ((hook::hooks).map some) := hparse
  rw [hparse']
  have hall : ([none,none,none]++(hook::hooks).map some).filterMap id = hook::hooks := by
    rw [List.filterMap_append,hsome]
    rfl
  dsimp only [Option.bind_eq_bind,Option.bind_some,Option.pure_def]
  rw [hall]

theorem mem_of_mapM {α β : Type} {f : α → Option β} {l : List α} {l' : List β} (h : l.mapM f = some l') {y : β}
    (hy : y ∈ l') : ∃ x ∈ l, f x = some y := by
  induction l generalizing l' with
  | nil =>
    obtain rfl := Option.some.inj h
    cases hy
  | cons x l ih =>
    rw [List.mapM_cons] at h
    obtain ⟨y',hy',h⟩ := Option.bind_eq_some_iff.mp h
    obtain ⟨l'',hl,heq⟩ := Option.bind_eq_some_iff.mp h
    obtain rfl := Option.some.inj heq
    rcases List.mem_cons.mp hy with rfl | hy
    · exact ⟨x,List.mem_cons_self,hy'⟩
    · obtain ⟨z,hz,hfz⟩ := ih hl hy
      exact ⟨z,List.mem_cons_of_mem _ hz,hfz⟩

theorem readable_of_load {file : Option (List Char)} {hooks : List AddressHook} (h : loadAddressHooks file = some hooks)
    (hfields : hooks.map fieldsOf = emitted.map Emitted.fields) : ∀ e ∈ emitted, e.Readable := by
  obtain ⟨text,-,h⟩ := Option.bind_eq_some_iff.mp h
  obtain ⟨lines,hlines,h⟩ := Option.bind_eq_some_iff.mp h
  have hhooks : lines.filterMap id = hooks := by
    split at h
    · cases h
    next hook l heq => exact heq.trans (Option.some.inj h)
  intro e he
  have hmem : e.fields ∈ hooks.map fieldsOf := hfields ▸ List.mem_map_of_mem he
  obtain ⟨hook,hhook,heq⟩ := List.mem_map.mp hmem
  obtain ⟨hclean₁,hclean₂⟩ : Clean hook.libPath ∧ Clean hook.symbol := by
    rw [← hhooks] at hhook
    obtain ⟨parsed,hparsed,rfl⟩ := List.mem_filterMap.mp hhook
    obtain ⟨line,-,hline⟩ := mem_of_mapM hlines hparsed
    exact clean_of_parse hline
  unfold fieldsOf Emitted.fields at heq
  simp only [Prod.mk.injEq] at heq
  obtain ⟨haddress,hlibrary,hsymbol,hexpected⟩ := heq
  exact ⟨.of_encode (hlibrary ▸ hclean₁),.of_encode (hsymbol ▸ hclean₂),haddress ▸ hook.vmaddr.isLt,
    hexpected ▸ hook.fourBytes⟩

end File

end Lines

end Machismo.RecoverSdl
