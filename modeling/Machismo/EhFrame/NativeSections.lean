import Machismo.EhFrame.NativeRuns

/-! # Well-formed native sections

On a well-formed section the parser visits the records in order and reads every location, though not
always in the encoding its CIE names: a CIE with a length of 64 bits is read at the wrong place, and the
letters of an augmentation are read up to the first one the parser does not know.
-/
namespace Machismo.EhFrame
open A64 (Byte)
open Data Dwarf

/-- The letters up to one that is not known. -/
def readItems : List AugItem → Byte
  | [] => 0
  | .fdePointer encoding :: _ => encoding
  | .flag _ :: _ => 0
  | _ :: items => readItems items

/-- The encoding the parser finds in a CIE. -/
def readEncoding (extended : Bool) (c : CieRecord) : Byte :=
  if extended then 0
  else
    match c.augmentation with
    | .sized items _ => readItems items
    | .other _ => 0

theorem pointerFormat_eq (encoding : Byte) : pointerFormat encoding =
    match format encoding with
    | some (.fixed width signed) => some (width,signed)
    | _ => none := by
  revert encoding
  decide

theorem pointerWidth_personality {encoding : Byte} {pointer : List Byte}
    (h : (AugItem.personality encoding pointer).WellFormed) : pointerWidth encoding = pointer.length := by
  unfold pointerWidth
  rcases h with ⟨rfl,rfl⟩ | ⟨-,width,signed,hformat,rfl⟩
  · rfl
  · have homit : encoding ≠ dwEhPeOmit := by
      rintro rfl
      cases hformat
    rw [if_neg homit,pointerFormat_eq,hformat]
    rfl

section Cie
variable {E : NativeSection} {p : List Byte}

theorem augLoop_items {items : List AugItem} (hitems : ∀ item ∈ items, item.WellFormed) :
    augLoop E (items.map AugItem.letter) ⟨items.flatMap AugItem.data ++ p,(items.flatMap AugItem.data).length⟩ =
      some (readItems items) := by
  induction items with
  | nil => rfl
  | cons item items ih =>
    obtain ⟨hitem,hitems⟩ := List.forall_mem_cons.mp hitems
    specialize ih hitems
    cases item with
    | lsda encoding =>
      have hL : (0x4c : Byte) = 0x4c := rfl
      rw [List.map_cons,AugItem.letter,augLoop,if_neg (by simp [AugItem.data]),if_pos hL]
      exact ih
    | personality encoding pointer =>
      have hwidth := pointerWidth_personality hitem
      have hroom : (List.flatMap AugItem.data (.personality encoding pointer :: items)).length - 1 =
          pointer.length + (items.flatMap AugItem.data).length := by
        simp [AugItem.data]
      have hdata : List.flatMap AugItem.data (.personality encoding pointer :: items) ++ p =
          encoding :: (pointer ++ (items.flatMap AugItem.data ++ p)) := by
        simp [AugItem.data]
      rw [List.map_cons,AugItem.letter,hdata,augLoop_personality _ _ _ (by simp [AugItem.data]),hroom,hwidth,
        if_neg (by omega),if_neg (by rw [List.length_append]; omega),List.drop_left,Nat.add_sub_cancel_left]
      exact ih
    | fdePointer encoding =>
      have hL : (0x52 : Byte) ≠ 0x4c := by decide
      have hP : (0x52 : Byte) ≠ 0x50 := by decide
      rw [List.map_cons,AugItem.letter,augLoop,if_neg (by simp [AugItem.data]),if_neg hL,if_neg hP,if_pos rfl]
      rfl
    | flag letter =>
      have hL : letter ≠ 0x4c := by rcases hitem with rfl | rfl <;> decide
      have hP : letter ≠ 0x50 := by rcases hitem with rfl | rfl <;> decide
      have hR : letter ≠ 0x52 := by rcases hitem with rfl | rfl <;> decide
      rw [List.map_cons,AugItem.letter,augLoop]
      split_ifs <;> rfl

theorem returnReg_read {c : CieRecord} (hc : c.WellFormed) {rest : List Byte} {room : ℕ}
    (hroom : c.returnReg.length ≤ room) :
    (if c.version = 1 then
        some (if (⟨c.returnReg ++ rest,room⟩ : Cursor).room = 0 then ⟨c.returnReg ++ rest,room⟩
          else Cursor.skip 1 ⟨c.returnReg ++ rest,room⟩)
      else (ehReadUleb128 ⟨c.returnReg ++ rest,room⟩).map Prod.snd) = some ⟨rest,room - c.returnReg.length⟩ := by
  have hreg := hc.returnReg
  by_cases hversion : c.version = 1
  · rw [if_pos hversion] at hreg ⊢
    rw [if_neg (by dsimp only; omega),Cursor.skip,← hreg,List.drop_left]
  · rw [if_neg hversion] at hreg ⊢
    rw [ehReadUleb128,ulebFrom_append hreg hroom,Option.map_some]

theorem augRoom_eq {rest : List Byte} {room : ℕ} {augLen : BitVec 64} (hlen : augLen.toNat ≤ room)
    (hshort : room < 2^32) : augRoom E ⟨rest,room⟩ augLen = augLen.toNat := by
  have hfits := E.fits
  have hE : E.size = E.bytes.length := rfl
  have hp : E.base + E.size - rest.length + augLen.toNat < 2^64 := by omega
  unfold augRoom
  dsimp only
  rw [Nat.mod_eq_of_lt hp,if_neg (by omega)]
  omega

theorem parseAugmentation_record {c : CieRecord} (hc : c.WellFormed) {room : ℕ}
    (hroom : (c.returnReg ++ (c.augmentation.data ++ c.insns)).length ≤ room) (hshort : room < 2^32) :
    parseAugmentation E c.version c.augmentation.string ⟨c.returnReg ++ (c.augmentation.data ++ c.insns ++ p),room⟩ =
      some (readEncoding false c) := by
  rw [List.length_append,List.length_append] at hroom
  rw [parseAugmentation,returnReg_read hc (by omega),Option.bind_some]
  unfold readEncoding
  have haug := hc.augmentation
  cases hcase : c.augmentation with
  | other string =>
    rw [hcase] at haug
    exact if_pos haug.2
  | sized items length =>
    rw [hcase] at haug hroom
    obtain ⟨hitems,hleb,hnine,hread⟩ := haug
    have hgroups : (groups 0 0 length).toNat = (items.flatMap AugItem.data).length := by
      rw [toNat_groups hleb hread (by omega) (by decide)]
      simp
    simp only [Augmentation.data,List.length_append] at hroom
    have hz : ¬(Augmentation.sized items length).string.head? ≠ some 0x7a := not_not.mpr rfl
    rw [if_neg hz,ehReadUleb128,Augmentation.data,List.append_assoc,List.append_assoc]
    dsimp only
    rw [ulebFrom_append hleb (by omega),Option.bind_some]
    dsimp only
    rw [augRoom_eq (by omega) (by omega),hgroups]
    exact augLoop_items hitems

theorem string_ne_zero {a : Augmentation} (h : a.WellFormed) : ∀ b ∈ a.string, b ≠ 0 := by
  cases a with
  | other string => exact h.1
  | sized items length =>
    refine List.forall_mem_cons.mpr ⟨by decide,fun b hb => ?_⟩
    obtain ⟨item,hitem,rfl⟩ := List.mem_map.mp hb
    cases item with
    | lsda => exact (by decide : (0x4c : Byte) ≠ 0)
    | personality => exact (by decide : (0x50 : Byte) ≠ 0)
    | fdePointer => exact (by decide : (0x52 : Byte) ≠ 0)
    | flag letter => rcases h.1 _ hitem with rfl | rfl <;> decide

theorem parseCieFdeEncoding_record {c : CieRecord} (hc : c.WellFormed) :
    parseCieFdeEncoding E (c.body ++ p) c.body.length = some (readEncoding false c) := by
  have hbytes : c.body ++ p = [0,0,0,0] ++ c.version :: (c.augmentation.string ++ 0 :: (c.codeAlign ++ (c.dataAlign ++
      (c.returnReg ++ (c.augmentation.data ++ c.insns ++ p))))) := by
    simp [CieRecord.body]
  have hlen : c.body.length = c.augmentation.string.length + c.codeAlign.length + c.dataAlign.length + 6 +
      (c.returnReg ++ (c.augmentation.data ++ c.insns)).length := by
    simp [CieRecord.body]
    omega
  have hshort := hc.short
  rw [hbytes,parseCieFdeEncoding_fields rfl (string_ne_zero hc.augmentation) hc.codeAlign hc.dataAlign (by omega)]
  exact parseAugmentation_record hc (by omega) (by omega)

theorem leBytes_eight {n : ℕ} (h : n < 2^32) : leBytes 8 n = leBytes 4 n ++ [0,0,0,0] := by
  have h0 : n / 256 / 256 / 256 / 256 = 0 := by omega
  simp [leBytes,h0]

/-- The length of 64 bits is read for the fields, and the augmentation for an empty string. -/
theorem parseCieFdeEncoding_extended {c : CieRecord} {n : ℕ} (h : n < 2^32) :
    parseCieFdeEncoding E (leBytes 8 n ++ (c.body ++ p)) 0xFFFFFFFF = some 0 := by
  have hbytes : leBytes 8 n ++ (c.body ++ p) =
      leBytes 4 n ++ 0 :: ([] ++ 0 :: ([0] ++ ([0] ++ ([0] ++ (c.body.drop 1 ++ p))))) := by
    rw [leBytes_eight h]
    simp [CieRecord.body]
  have hleb : IsLeb [0] := (by decide : (0 : ℕ) < 128)
  rw [hbytes,parseCieFdeEncoding_fields (length_leBytes 4 n) (by simp) hleb hleb (by decide),parseAugmentation,
    if_neg (by decide),ehReadUleb128]
  dsimp only
  rw [ulebFrom_append hleb (by decide)]
  rfl

end Cie

def encodingRead (S : EhSection) (off : ℕ) : Byte :=
  match S.placed.find? fun r => r.1 = off with
  | some (_,.cie extended c) => readEncoding extended c
  | _ => 0

/-- The location the parser reads from the bytes of an FDE. -/
def pointerRead (deref : BitVec 64 → BitVec 64) (address : ℕ) (encoding : Byte) (bytes : List Byte) : BitVec 64 :=
  ((ehReadEncodedPtr deref address ⟨bytes,bytes.length⟩ encoding).map Prod.fst).getD 0

/-- The location the parser reads from a record; zero for a CIE. -/
def locationRead (E : NativeSection) (S : EhSection) : ℕ×Record → BitVec 64
  | (_,.cie _ _) => 0
  | (off,.fde extended ofCie location rest) =>
    pointerRead E.deref (E.base + (off + headerSize extended) + 4) (encodingRead S ofCie) (location ++ rest)

/-- The entry of a location, if it is not zero. -/
def entryOf (base : ℕ) (location : ℕ×Record → BitVec 64) (r : ℕ×Record) : Option HdrEntry :=
  if location r ≠ 0 then some ⟨location r,BitVec.ofNat 64 (base + r.1)⟩ else none

theorem encodingRead_eq {S : EhSection} {off : ℕ} {extended : Bool} {c : CieRecord}
    (h : (off,Record.cie extended c) ∈ S.placed) : encodingRead S off = readEncoding extended c := by
  unfold encodingRead
  cases hfind : S.placed.find? fun r => r.1 = off with
  | none =>
    have hne := List.find?_eq_none.mp hfind _ h
    simp at hne
  | some r =>
    have hoff : r.1 = off := by simpa using List.find?_some hfind
    obtain rfl := S.eq_of_offset (List.mem_of_find?_eq_some hfind) h hoff
    rfl

section Records
variable {E : NativeSection} {off n v : ℕ} {q : List Byte}

theorem word_of_drop (h : E.bytes.drop off = leBytes n v ++ q) (hv : v < 256^n) : E.word n off = v := by
  rw [NativeSection.word,h,List.take_left' (length_leBytes n v),leNat_leBytes,Nat.mod_eq_of_lt hv]

theorem drop_more {bs : List Byte} (h : E.bytes.drop off = bs ++ q) : E.bytes.drop (off + bs.length) = q := by
  rw [← List.drop_drop,h,List.drop_left]

theorem le_size {bs : List Byte} (h : E.bytes.drop off = bs ++ q) (hbs : 0 < bs.length) :
    off + bs.length + q.length = E.size := by
  have hlen := congrArg List.length h
  rw [List.length_drop,List.length_append] at hlen
  have : E.size = E.bytes.length := rfl
  omega

theorem lengthFits_of_ok {S : EhSection} {r : ℕ×Record} (h : S.RecordOk r) :
    lengthFits r.2.extended (r.2.body r.1).length := by
  obtain ⟨off,⟨extended,c⟩ | ⟨extended,ofCie,location,rest⟩⟩ := r
  · have hshort : c.body.length < 2^32 - 1 := CieRecord.WellFormed.short h
    cases extended with
    | false => exact hshort
    | true => exact hshort.trans (by decide)
  · exact h.1

theorem four_le_body (off : ℕ) (r : Record) : 4 ≤ (r.body off).length := by
  cases r with
  | cie => simp [Record.body,CieRecord.body]
  | fde => simp [Record.body]

theorem record_eq {r : Record} (h : E.bytes.drop off = r.bytes off ++ q)
    (hfits : lengthFits r.extended (r.body off).length) :
    E.record off = some (off + headerSize r.extended,off + (r.bytes off).length) := by
  have hlen := length_bytes off r
  have hbody := four_le_body off r
  have hsize := le_size h (by have := headerSize_pos r.extended; omega)
  have hE := E.fits
  have hEsize : E.size = E.bytes.length := rfl
  unfold NativeSection.record
  cases hext : r.extended with
  | false =>
    rw [hext] at hlen hfits
    have hfits : (r.body off).length < 2^32 - 1 := hfits
    have hhead : E.bytes.drop off = leBytes 4 (r.body off).length ++ (r.body off ++ q) := by
      rw [h,Record.bytes,hext,List.append_assoc]
      rfl
    have hw := word_of_drop hhead (by omega)
    simp only [headerSize,Bool.false_eq_true,if_false] at hlen ⊢
    rw [hw,if_neg (by omega),if_neg (by omega),if_neg (by omega),if_neg (by omega),hlen,Nat.add_assoc]
  | true =>
    rw [hext] at hlen hfits
    have hfits : (r.body off).length < 2^64 := hfits
    have hhead : E.bytes.drop off = leBytes 4 0xFFFFFFFF ++ (leBytes 8 (r.body off).length ++ (r.body off ++ q)) := by
      rw [h,Record.bytes,hext,List.append_assoc,header,if_pos rfl,List.append_assoc]
    have hw := word_of_drop hhead (by decide)
    have hdrop := drop_more hhead
    rw [length_leBytes] at hdrop
    have hw8 := word_of_drop hdrop (by omega)
    simp only [headerSize,if_true] at hlen ⊢
    rw [hw,hw8,if_neg (by omega),if_neg (by decide),if_pos rfl,if_neg (by omega),Nat.mod_eq_of_lt (by omega),
      if_neg (by omega),hlen,Nat.add_assoc]

theorem fdeEntry_cie {extended : Bool} {c : CieRecord} (h : E.bytes.drop off = (Record.cie extended c).bytes off ++ q) :
    E.fdeEntry off (off + headerSize extended) (off + ((Record.cie extended c).bytes off).length) = some none := by
  have hlen := length_bytes off (.cie extended c)
  have hbody := four_le_body off (.cie extended c)
  have hsize := le_size h (by omega)
  have hdata : E.bytes.drop (off + headerSize extended) = c.body ++ q := by
    rw [Record.bytes,List.append_assoc] at h
    have hdrop := drop_more h
    rwa [length_header] at hdrop
  have hzero : E.word 4 (off + headerSize extended) = 0 := word_of_drop (v := 0) hdata (by decide)
  dsimp only [Record.extended] at hlen
  rw [NativeSection.fdeEntry,if_neg (by omega)]
  exact if_pos hzero

theorem ehReadEncodedPtr_append (deref : BitVec 64 → BitVec 64) (address : ℕ) (bs q : List Byte) (encoding : Byte) :
    (ehReadEncodedPtr deref address ⟨bs ++ q,bs.length⟩ encoding).map Prod.fst =
      some (pointerRead deref address encoding bs) := by
  unfold pointerRead ehReadEncodedPtr
  by_cases homit : encoding = dwEhPeOmit
  · simp [homit]
  rw [if_neg homit,if_neg homit]
  cases pointerFormat encoding with
  | none => rfl
  | some f =>
    obtain ⟨n,signed⟩ := f
    dsimp only
    by_cases hroom : bs.length < n
    · rw [if_pos hroom,if_pos hroom]
      rfl
    · rw [if_neg hroom,if_neg hroom,if_neg hroom,if_neg (by rw [List.length_append]; omega),
        List.take_append_of_le_length (not_lt.mp hroom)]
      rfl

theorem parseCieFdeEncoding_at {extended : Bool} {c : CieRecord} (hc : c.WellFormed)
    (h : E.bytes.drop off = (Record.cie extended c).bytes off ++ q) :
    parseCieFdeEncoding E (E.bytes.drop (off+4)) (E.word 4 off) = some (readEncoding extended c) := by
  have hshort := hc.short
  rw [Record.bytes,List.append_assoc] at h
  cases extended with
  | false =>
    have hhead : E.bytes.drop off = leBytes 4 c.body.length ++ (c.body ++ q) := h
    have hdrop := drop_more hhead
    rw [length_leBytes] at hdrop
    rw [word_of_drop hhead (by omega),hdrop]
    exact parseCieFdeEncoding_record hc
  | true =>
    have hhead : E.bytes.drop off = leBytes 4 0xFFFFFFFF ++ (leBytes 8 c.body.length ++ (c.body ++ q)) := by
      rw [h,← List.append_assoc (leBytes 4 0xFFFFFFFF)]
      rfl
    have hdrop := drop_more hhead
    rw [length_leBytes] at hdrop
    rw [word_of_drop hhead (by decide),hdrop]
    exact parseCieFdeEncoding_extended (by omega)

theorem fdeEntry_fde {S : EhSection} (hE : E.bytes = S.bytes) (hS : S.WellFormed) {extended : Bool} {ofCie : ℕ}
    {location rest : List Byte} (hr : (off,Record.fde extended ofCie location rest) ∈ S.placed)
    (h : E.bytes.drop off = (Record.fde extended ofCie location rest).bytes off ++ q) :
    E.fdeEntry off (off + headerSize extended) (off + ((Record.fde extended ofCie location rest).bytes off).length) =
      some (entryOf E.base (locationRead E S) (off,.fde extended ofCie location rest)) := by
  obtain ⟨-,hbefore,hnear,form,c,hcie,-,-⟩ := hS _ hr
  have hlen := length_bytes off (.fde extended ofCie location rest)
  have hsize := le_size h (by have := four_le_body off (.fde extended ofCie location rest); omega)
  have hE' := E.fits
  have hEsize : E.size = E.bytes.length := rfl
  simp only [Record.extended,Record.body,List.length_append,length_leBytes] at hlen
  -- the pointer to the CIE and the bytes behind it
  rw [Record.bytes,List.append_assoc] at h
  have hdata := drop_more h
  rw [length_header,Record.body,List.append_assoc] at hdata
  simp only [Record.extended] at hdata
  have hptr := word_of_drop hdata (by omega)
  have hrest := drop_more hdata
  rw [length_leBytes] at hrest
  have hciePos : (off + headerSize extended + 2^64 - (off + headerSize extended - ofCie)) % 2^64 = ofCie := by omega
  -- the CIE
  obtain ⟨q',hq'⟩ := S.drop_bytes hcie
  rw [← hE] at hq'
  dsimp only at hq'
  have hcieLen := length_bytes ofCie (.cie form c)
  have hcieBody := four_le_body ofCie (.cie form c)
  have hcieSize := le_size hq' (by omega)
  have henc := parseCieFdeEncoding_at (hS _ hcie) hq'
  have hroom : off + ((Record.fde extended ofCie location rest).bytes off).length - (off + headerSize extended + 4) =
      (location ++ rest).length := by
    rw [List.length_append]
    omega
  unfold NativeSection.fdeEntry
  dsimp only
  rw [if_neg (by omega),hptr,if_neg (by omega),hciePos,if_neg (by omega),if_neg (by omega),henc,Option.bind_some,hrest,
    hroom]
  have hread := ehReadEncodedPtr_append E.deref (E.base + (off + headerSize extended) + 4) (location ++ rest) q
    (readEncoding form c)
  obtain ⟨r,hr',hfst⟩ := Option.map_eq_some_iff.mp hread
  rw [hr',Option.map_some,hfst]
  simp only [entryOf,locationRead,encodingRead_eq hcie]

theorem record_end {tail : List Byte} (h : E.bytes.drop off = tail) (htail : tail = [] ∨ ∃ t, tail = leBytes 4 0 ++ t) :
    E.record off = none := by
  unfold NativeSection.record
  rcases htail with rfl | ⟨t,rfl⟩
  · have hsize : E.size ≤ off := List.drop_eq_nil_iff.mp h
    exact if_pos (by omega)
  · have hzero := word_of_drop h (by decide)
    dsimp only
    split_ifs
    · rfl
    · rfl

theorem parse_records {S : EhSection} (hE : E.bytes = S.bytes) (hS : S.WellFormed) {l : List Record} {tail : List Byte}
    (hl : ∀ r ∈ Dwarf.placed off l, r ∈ S.placed) (h : E.bytes.drop off = recordBytes off l ++ tail)
    (htail : tail = [] ∨ ∃ t, tail = leBytes 4 0 ++ t) (entries : List HdrEntry) :
    parseNativeEhFrameFdes E (l.length+1) off entries =
      .done (entries ++ (Dwarf.placed off l).filterMap (entryOf E.base (locationRead E S))) := by
  induction l generalizing off entries with
  | nil =>
    rw [parseNativeEhFrameFdes,record_end h htail]
    simp [Dwarf.placed]
  | cons r l ih =>
    obtain ⟨hr,hl⟩ := List.forall_mem_cons.mp hl
    rw [recordBytes,List.append_assoc] at h
    have hrec := record_eq h (lengthFits_of_ok (hS _ hr))
    have hentry : E.fdeEntry off (off + headerSize r.extended) (off + (r.bytes off).length) =
        some (entryOf E.base (locationRead E S) (off,r)) := by
      cases r with
      | cie extended c => exact fdeEntry_cie h
      | fde extended ofCie location rest => exact fdeEntry_fde hE hS hr h
    rw [List.length_cons,parse_succ hrec hentry,ih hl (drop_more h),Dwarf.placed,List.filterMap_cons]
    cases entryOf E.base (locationRead E S) (off,r) with
    | none => simp
    | some e => simp

end Records

/-! ## The parser on every section -/

section Parser
variable {E : NativeSection}

theorem parse_unique {n n' pos : ℕ} {entries es es' : List HdrEntry}
    (h : parseNativeEhFrameFdes E n pos entries = .done es)
    (h' : parseNativeEhFrameFdes E n' pos entries = .done es') : es = es' := by
  induction n generalizing n' pos entries with
  | zero => cases h
  | succ n ih =>
    cases n' with
    | zero => cases h'
    | succ n' =>
      unfold parseNativeEhFrameFdes at h h'
      cases hr : E.record pos with
      | none =>
        rw [hr] at h h'
        exact Parsed.done.inj (h.symm.trans h')
      | some r =>
        rw [hr] at h h'
        dsimp only at h h'
        cases he : E.fdeEntry pos r.1 r.2 with
        | none =>
          rw [he] at h
          cases h
        | some entry =>
          rw [he] at h h'
          exact ih h h'

theorem parse_section {S : EhSection} (hE : E.bytes = S.bytes) (hS : S.WellFormed) :
    parseNativeEhFrameFdes E (S.records.length+1) 0 [] =
      .done (S.placed.filterMap (entryOf E.base (locationRead E S))) := by
  have hbytes : E.bytes.drop 0 = recordBytes 0 S.records ++ (S.tail.map fun t => leBytes 4 0 ++ t).getD [] := by
    rw [hE]
    rfl
  refine parse_records hE hS (fun r hr => hr) hbytes ?_ []
  cases S.tail with
  | none => exact .inl rfl
  | some t => exact .inr ⟨t,rfl⟩

theorem location_of_entry {base : ℕ} {f : ℕ×Record → BitVec 64} {r : ℕ×Record} :
    ((entryOf base f r).map HdrEntry.initialLocation).getD 0 = f r := by
  unfold entryOf
  by_cases hf : f r = 0
  · rw [if_neg (not_not.mpr hf),hf]
    rfl
  · rw [if_pos hf]
    rfl

theorem entry_eq_iff {base : ℕ} {f g : ℕ×Record → BitVec 64} {r : ℕ×Record} :
    entryOf base f r = entryOf base g r ↔ f r = g r := by
  constructor
  · intro h
    rw [← @location_of_entry base f r,h,location_of_entry]
  · intro h
    rw [entryOf,entryOf,h]

theorem offset_lt {S : EhSection} (hE : E.bytes = S.bytes) {r : ℕ×Record} (hr : r ∈ S.placed) : r.1 < E.size := by
  obtain ⟨q,hq⟩ := S.drop_bytes hr
  rw [← hE] at hq
  have hlen := length_bytes r.1 r.2
  have hbody := four_le_body r.1 r.2
  have hsize := le_size hq (by omega)
  omega

theorem entryOf_of_mem {S : EhSection} (hE : E.bytes = S.bytes) {f : ℕ×Record → BitVec 64} {r : ℕ×Record}
    (hr : r ∈ S.placed) {e : HdrEntry} (he : e ∈ S.placed.filterMap (entryOf E.base f))
    (hptr : e.fdePtr = BitVec.ofNat 64 (E.base + r.1)) : entryOf E.base f r = some e := by
  obtain ⟨r',hr',hentry⟩ := List.mem_filterMap.mp he
  have hlt := offset_lt hE hr
  have hlt' := offset_lt hE hr'
  have hfits := E.fits
  have hsize : E.size = E.bytes.length := rfl
  have hptr' : e.fdePtr = BitVec.ofNat 64 (E.base + r'.1) := by
    unfold entryOf at hentry
    split_ifs at hentry
    rw [← Option.some.inj hentry]
  have hoff := congrArg BitVec.toNat (hptr'.symm.trans hptr)
  rw [BitVec.toNat_ofNat,BitVec.toNat_ofNat,Nat.mod_eq_of_lt (by omega),Nat.mod_eq_of_lt (by omega)] at hoff
  obtain rfl := S.eq_of_offset hr' hr (Nat.add_left_cancel hoff)
  exact hentry

theorem fdePtr_of_entryOf {base : ℕ} {f : ℕ×Record → BitVec 64} {r : ℕ×Record} {e : HdrEntry}
    (h : entryOf base f r = some e) : e.fdePtr = BitVec.ofNat 64 (base + r.1) := by
  unfold entryOf at h
  split_ifs at h
  rw [← Option.some.inj h]

theorem entries_eq_iff {S : EhSection} (hE : E.bytes = S.bytes) {f g : ℕ×Record → BitVec 64} :
    S.placed.filterMap (entryOf E.base f) = S.placed.filterMap (entryOf E.base g) ↔ ∀ r ∈ S.placed, f r = g r := by
  constructor
  · intro h r hr
    refine (@entry_eq_iff E.base f g r).mp (Option.ext fun e => ⟨fun he => ?_,fun he => ?_⟩)
    · have hmem := List.mem_filterMap.mpr ⟨r,hr,he⟩
      rw [h] at hmem
      exact entryOf_of_mem hE hr hmem (fdePtr_of_entryOf he)
    · have hmem := List.mem_filterMap.mpr ⟨r,hr,he⟩
      rw [← h] at hmem
      exact entryOf_of_mem hE hr hmem (fdePtr_of_entryOf he)
  · intro h
    exact List.filterMap_congr fun r hr => entry_eq_iff.mpr (h r hr)

/-- What the parser should do with an array. -/
structure ParsesWell (E : NativeSection) : Prop where
  inside : ∃ n es, parseNativeEhFrameFdes E n 0 [] = .done es
  entries : ∀ S : EhSection, S.WellFormed → E.bytes = S.bytes → ∀ n es, parseNativeEhFrameFdes E n 0 [] = .done es →
    es = (S.locations E.base).map fun l => ⟨l.1,BitVec.ofNat 64 (E.base + l.2)⟩

theorem locations_eq (S : EhSection) (base : ℕ) :
    (S.locations base).map (fun l => (⟨l.1,BitVec.ofNat 64 (base + l.2)⟩ : HdrEntry)) =
      S.placed.filterMap (entryOf base (S.location base)) := by
  unfold EhSection.locations
  rw [List.map_filterMap]
  refine List.filterMap_congr fun r _ => ?_
  unfold entryOf
  split_ifs <;> rfl

/-- The parser finds the encoding of the CIE and knows its format: the CIE has a length of 32 bits, the letters
before `R` are known, and the width is fixed. -/
def Legible (S : EhSection) (ofCie : ℕ) : Prop :=
  ∃ c, (ofCie,Record.cie false c) ∈ S.placed ∧ readEncoding false c = c.augmentation.encoding ∧
    (c.augmentation.encoding = omitted ∨ ∃ width signed, format c.augmentation.encoding = some (.fixed width signed))

theorem locationRead_eq_location {S : EhSection} (hS : S.WellFormed) {off ofCie : ℕ} {extended : Bool}
    {location rest : List Byte} (hr : (off,Record.fde extended ofCie location rest) ∈ S.placed)
    (hlegible : Legible S ofCie) :
    locationRead E S (off,.fde extended ofCie location rest) =
      S.location E.base (off,.fde extended ofCie location rest) := by
  obtain ⟨c,hcie,hletters,hformat⟩ := hlegible
  obtain ⟨-,-,-,form,c',hcie',hbytes,hdirect⟩ := hS _ hr
  obtain ⟨rfl,rfl⟩ : form = false ∧ c' = c := by
    have heq := S.eq_of_offset hcie' hcie rfl
    cases heq
    exact ⟨rfl,rfl⟩
  rw [locationRead,EhSection.location,encodingRead_eq hcie,hletters,S.encodingAt_eq hcie]
  generalize c'.augmentation.encoding = encoding at *
  unfold pointerRead ehReadEncodedPtr pointerValue
  by_cases homit : encoding = omitted
  · rw [if_pos homit]
    have : encoding = dwEhPeOmit := homit
    rw [if_pos this]
    rfl
  have hlow := hdirect.resolve_left homit
  obtain ⟨width,signed,hfixed⟩ := hformat.resolve_left homit
  have homit' : encoding ≠ dwEhPeOmit := homit
  rw [PointerBytes,if_neg homit,hfixed] at hbytes
  have hlen : location.length = width := hbytes
  have hrel : ∀ e : Byte, Direct e → ((e &&& 0x70 = dwEhPePcrel ↔ e.toNat / 16 = 1) ∧ ¬e &&& dwEhPeIndirect ≠ 0) := by
    decide
  obtain ⟨hpcrel,hindirect⟩ := hrel encoding hlow
  rw [if_neg homit,if_neg homit',pointerFormat_eq,hfixed]
  dsimp only
  rw [if_neg (by rw [List.length_append]; omega),if_neg (by rw [List.length_append]; omega),if_neg hindirect,
    List.take_left' hlen]
  have hraw : extend width signed (leNat location) = rawPointer encoding location := by
    unfold extend rawPointer
    rw [hfixed]
    cases signed <;> rfl
  rw [hraw]
  by_cases hone : encoding.toNat / 16 = 1
  · rw [if_pos hone,if_pos (hpcrel.mpr hone),← Nat.add_assoc]
    rfl
  · rw [if_neg hone,if_neg (mt hpcrel.mp hone)]
    rfl

/-- The parser does well exactly if the walk over the lengths has no cycle, every record on it and the
CIE it names can be read in the array, and, where the array is a well-formed section, every FDE has a CIE whose
encoding the parser finds, or bytes that give the same location in the one it takes. -/
theorem parsesWell_iff (E : NativeSection) :
    ParsesWell E ↔ E.Acyclic ∧
      (∀ k p r, E.place 0 k = some p → E.record p = some r → E.Readable r.1) ∧
      ∀ S : EhSection, S.WellFormed → E.bytes = S.bytes → ∀ off extended ofCie location rest,
        (off,Record.fde extended ofCie location rest) ∈ S.placed → Legible S ofCie ∨
          pointerRead E.deref (E.base + (off + headerSize extended) + 4) (encodingRead S ofCie) (location ++ rest) =
            pointerValue (S.encodingAt ofCie) (BitVec.ofNat 64 (E.base + off + headerSize extended + 4)) location := by
  constructor
  · rintro ⟨hinside,hentries⟩
    obtain ⟨hacyclic,hread⟩ := parse_done_iff.mp hinside
    refine ⟨hacyclic,hread,fun S hS hE off extended ofCie location rest hr => .inr ?_⟩
    have hlocation := (entries_eq_iff (f := locationRead E S) (g := S.location E.base) hE).mp
      (by rw [← locations_eq,← hentries S hS hE _ _ (parse_section hE hS)])
    exact hlocation _ hr
  · rintro ⟨hacyclic,hread,hlocation⟩
    refine ⟨parse_done_iff.mpr ⟨hacyclic,hread⟩,fun S hS hE n es h => ?_⟩
    rw [parse_unique h (parse_section hE hS),locations_eq]
    refine (entries_eq_iff hE).mpr fun r hr => ?_
    obtain ⟨off,⟨extended,c⟩ | ⟨extended,ofCie,location,rest⟩⟩ := r
    · rfl
    · rcases hlocation S hS hE off extended ofCie location rest hr with hlegible | hsame
      · exact locationRead_eq_location hS hr hlegible
      · exact hsame

end Parser

/-- A record whose length of 64 bits leads back to it. -/
def loopSection : NativeSection :=
  ⟨0x10000,[0xff,0xff,0xff,0xff,0xf4,0xff,0xff,0xff,0xff,0xff,0xff,0xff,0,0,0,0],fun _ => 0,by decide⟩

/-- The parser does not end on it. -/
theorem not_parsesWell_loop : ¬ParsesWell loopSection := by
  intro h
  obtain ⟨n,es,hdone⟩ := h.inside
  have hacyclic := acyclic_of_ends (ends_of_parse hdone).1
  have hback : loopSection.place 0 1 = some 0 := by decide
  exact hacyclic 0 1 (by decide) (by simp [NativeSection.place]) hback.symm

end Machismo.EhFrame
