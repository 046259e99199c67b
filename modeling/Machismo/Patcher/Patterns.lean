import Machismo.Patcher.Literals

/-! # Offsets and patterns

The scanner takes in the text of an offset, and that of a pattern, and gives its value.
-/
namespace Machismo.Patcher
open Munch

def isSign (c : Char) : Bool := c = '+' ∨ c = '-'
def isPlus (c : Char) : Bool := c = '+'

def OffsetStops (isSign : Char → Bool) : Option Offset → Text → Prop
  | none, r => Ends isSign r
  | some o, r => isSign o.sign ∧ o.lit.Stops r

theorem parseSymOffset_complete {o : Option Offset} {r : Text} (h : OffsetStops isSign o r) :
    parseSymOffset (offsetBefore o r) = some (offsetValue o,r) := by
  cases o with
  | none =>
    change parseSymOffset r = some (0,r)
    unfold parseSymOffset
    split
    · cases ends_cons.mp h
    · cases ends_cons.mp h
    · rfl
  | some o =>
    obtain ⟨neg,g,l⟩ := o
    have hlit := parseHexU64_complete g h.2
    cases neg with
    | false => exact hlit
    | true => exact congrArg (Option.map fun r : BitVec 64 × Text => (-r.1,r.2)) hlit

theorem parseSymOffset_sound {p r : Text} {v : BitVec 64} (h : parseSymOffset p = some (v,r)) :
    ∃ o, p = offsetBefore o r ∧ OffsetStops isSign o r ∧ offsetValue o = v := by
  unfold parseSymOffset at h
  split at h
  next p =>
    obtain ⟨g,l,rfl,hl,hv⟩ := parseHexU64_sound h
    exact ⟨some ⟨false,g,l⟩,rfl,⟨rfl,hl⟩,hv⟩
  next p =>
    obtain ⟨⟨v',r'⟩,hlit,hv⟩ := Option.map_eq_some_iff.mp h
    cases hv
    obtain ⟨g,l,rfl,hl,rfl⟩ := parseHexU64_sound hlit
    exact ⟨some ⟨true,g,l⟩,rfl,⟨rfl,hl⟩,rfl⟩
  next hplus hminus =>
    cases h
    refine ⟨none,rfl,fun c hc => ?_,rfl⟩
    cases p with
    | nil => cases hc
    | cons c' p =>
      cases hc
      refine decide_eq_false fun hsign => ?_
      rcases hsign with rfl | rfl
      · exact hplus p rfl
      · exact hminus p rfl

theorem parseLabelOffset_complete {o : Option Offset} {r : Text} (h : OffsetStops isPlus o r) :
    parseLabelOffset (offsetBefore o r) = some (offsetValue o,r) := by
  cases o with
  | none =>
    change parseLabelOffset r = some (0,r)
    unfold parseLabelOffset
    split
    · cases ends_cons.mp h
    · rfl
  | some o =>
    obtain ⟨neg,g,l⟩ := o
    cases neg with
    | false => exact parseHexU64_complete g h.2
    | true => exact absurd (show isPlus '-' from h.1) (by decide)

theorem parseLabelOffset_sound {p r : Text} {v : BitVec 64} (h : parseLabelOffset p = some (v,r)) :
    ∃ o, p = offsetBefore o r ∧ OffsetStops isPlus o r ∧ offsetValue o = v := by
  unfold parseLabelOffset at h
  split at h
  next p =>
    obtain ⟨g,l,rfl,hl,hv⟩ := parseHexU64_sound h
    exact ⟨some ⟨false,g,l⟩,rfl,⟨rfl,hl⟩,hv⟩
  next hplus =>
    cases h
    refine ⟨none,rfl,fun c hc => ?_,rfl⟩
    cases p with
    | nil => cases hc
    | cons c' p =>
      cases hc
      exact decide_eq_false fun hsign => hplus p (by rw [hsign])

theorem sign_inj {o o' : Offset} (h : o.sign = o'.sign) : o.neg = o'.neg := by
  unfold Offset.sign at h
  cases hn : o.neg <;> cases hn' : o'.neg <;> simp_all

theorem offset_inj {isSign : Char → Bool} {o o' : Option Offset} {r r' : Text} (ho : OffsetStops isSign o r)
    (ho' : OffsetStops isSign o' r') (h : offsetBefore o r = offsetBefore o' r') : o = o' ∧ r = r' := by
  cases o with
  | none =>
    cases o' with
    | none => exact ⟨rfl,h⟩
    | some o' =>
      change r = _ at h
      rw [h] at ho
      exact absurd ho'.1 (by simp [ends_cons.mp ho])
  | some o =>
    cases o' with
    | none =>
      change _ = r' at h
      rw [← h] at ho'
      exact absurd ho.1 (by simp [ends_cons.mp ho'])
    | some o' =>
      obtain ⟨hsign,h⟩ := List.cons.inj h
      obtain ⟨hgap,h⟩ := gap_inj (ends_before _ _) (ends_before _ _) h
      obtain ⟨hlit,hr⟩ := lit_inj ho.2 ho'.2 h
      obtain ⟨neg,g,l⟩ := o
      obtain ⟨neg',g',l'⟩ := o'
      obtain rfl : neg = neg' := sign_inj hsign
      obtain rfl : g = g' := hgap
      obtain rfl : l = l' := hlit
      exact ⟨rfl,hr⟩

theorem toNat_le_of_le {a c : Char} (h : a ≤ c) : a.toNat ≤ c.toNat := UInt32.le_iff_toNat_le.mp h

theorem hexDigit_lt {c : Char} {d : ℕ} (h : hexDigit c = some d) : d < 16 := by
  unfold hexDigit at h
  split_ifs at h with hc hc hc
  · cases h
    have hhi : c.toNat ≤ 57 := toNat_le_of_le hc.2
    change c.toNat - 48 < 16
    omega
  · cases h
    have hhi : c.toNat ≤ 102 := toNat_le_of_le hc.2
    change c.toNat - 97 + 10 < 16
    omega
  · cases h
    have hhi : c.toNat ≤ 70 := toNat_le_of_le hc.2
    change c.toNat - 65 + 10 < 16
    omega

def nibble (c : Char) : ℕ × ℕ := if c = '?' then (0,0) else (15,(hexDigit c).getD 0)

theorem ofNat_nibble (m : ℕ) {d : ℕ} (hd : d < 16) :
    BitVec.ofNat 32 m <<< 4 ||| BitVec.ofNat 32 d = BitVec.ofNat 32 (16*m + d) := by
  have hor : 16*m + d = m <<< 4 ||| d := by
    rw [← Nat.shiftLeft_add_eq_or_of_lt (by omega), Nat.shiftLeft_eq]
    omega
  have hshift : BitVec.ofNat 32 (m <<< 4) = BitVec.ofNat 32 m <<< 4 := by
    apply BitVec.eq_of_toNat_eq
    rw [BitVec.toNat_shiftLeft, BitVec.toNat_ofNat, BitVec.toNat_ofNat, Nat.shiftLeft_eq, Nat.shiftLeft_eq,
      Nat.mod_mul_mod]
  rw [hor, BitVec.ofNat_or, hshift]

theorem nibble_fst (c : Char) : (nibble c).1 = (hexDigit (if c = '?' then '0' else 'F')).getD 0 := by
  unfold nibble
  split <;> rfl

theorem nibble_snd (c : Char) : (nibble c).2 = (hexDigit (if c = '?' then '0' else c)).getD 0 := by
  unfold nibble
  split <;> rfl

theorem getD_hexDigit_lt (c : Char) : (hexDigit c).getD 0 < 16 := by
  cases h : hexDigit c with
  | none => decide
  | some d => exact hexDigit_lt h

def pushNibble (pat : Pattern) (n : ℕ × ℕ) : Pattern :=
  ⟨pat.mask <<< 4 ||| BitVec.ofNat 32 n.1,pat.value <<< 4 ||| BitVec.ofNat 32 n.2⟩

def hexFrom (v : ℕ) (digits : Text) : ℕ := digits.foldl (fun v c => 16*v + (hexDigit c).getD 0) v

theorem foldl_pushNibble (w : Text) (m v : ℕ) :
    (w.map nibble).foldl pushNibble ⟨BitVec.ofNat 32 m,BitVec.ofNat 32 v⟩ =
      ⟨BitVec.ofNat 32 (hexFrom m (w.map fun c => if c = '?' then '0' else 'F')),
        BitVec.ofNat 32 (hexFrom v (w.map fun c => if c = '?' then '0' else c))⟩ := by
  induction w generalizing m v with
  | nil => rfl
  | cons c w ih =>
    rw [List.map_cons, List.foldl_cons, pushNibble, nibble_fst, nibble_snd, ofNat_nibble m (getD_hexDigit_lt _),
      ofNat_nibble v (getD_hexDigit_lt _)]
    exact ih _ _

theorem patternOf_nibbles (w : PatternWord) : patternOf (w.1.map nibble) = w.pattern := foldl_pushNibble w.1 0 0

theorem patternNibble_eq_some {c : Char} {n : ℕ × ℕ} (h : patternNibble c = some n) :
    n = nibble c ∧ (isHexDigit c ∨ c = '?') := by
  unfold patternNibble at h
  unfold nibble
  split at h
  next hc =>
    cases h
    exact ⟨by rw [if_pos hc],.inr hc⟩
  next hc =>
    obtain ⟨d,hd,rfl⟩ := Option.map_eq_some_iff.mp h
    rw [if_neg hc, hd]
    exact ⟨rfl,.inl (by rw [isHexDigit, hd]; rfl)⟩

theorem patternNibble_eq (c : Char) (h : isHexDigit c ∨ c = '?') : patternNibble c = some (nibble c) := by
  unfold patternNibble nibble
  split
  · rfl
  next hc =>
    obtain ⟨d,hd⟩ := Option.isSome_iff_exists.mp (h.resolve_right hc)
    rw [hd]
    rfl

theorem mapM_patternNibble {w : Text} (h : ∀ c ∈ w, isHexDigit c ∨ c = '?') :
    w.mapM patternNibble = some (w.map nibble) := by
  induction w with
  | nil => rfl
  | cons c w ih =>
    rw [List.mapM_cons, patternNibble_eq c (h c List.mem_cons_self), ih fun c hc => h c (List.mem_cons_of_mem _ hc)]
    rfl

theorem mapM_patternNibble_eq_some {w : Text} {ns : List (ℕ × ℕ)} (h : w.mapM patternNibble = some ns) :
    ∀ c ∈ w, isHexDigit c ∨ c = '?' := by
  induction w generalizing ns with
  | nil => exact fun c hc => by cases hc
  | cons c w ih =>
    rw [List.mapM_cons] at h
    obtain ⟨n,hn,h⟩ := Option.bind_eq_some_iff.mp h
    obtain ⟨ns',hns,-⟩ := Option.bind_eq_some_iff.mp h
    exact List.forall_mem_cons.mpr ⟨(patternNibble_eq_some hn).2,ih hns⟩

theorem parsePattern_complete (w : PatternWord) {r : Text} (hr : isTerminated r) :
    parsePattern (w ++ r) = some w.pattern := by
  unfold parsePattern
  rw [List.take_left' w.2.1, List.drop_left' w.2.1, if_pos ⟨w.2.1,hr⟩, mapM_patternNibble w.2.2]
  exact congrArg some (patternOf_nibbles w)

theorem parsePattern_sound {s : Text} {pat : Pattern} (h : parsePattern s = some pat) :
    ∃ w : PatternWord, s = w ++ s.drop 8 ∧ isTerminated (s.drop 8) ∧ w.pattern = pat := by
  unfold parsePattern at h
  split at h
  next hs =>
    obtain ⟨ns,hns,rfl⟩ := Option.map_eq_some_iff.mp h
    have hw := mapM_patternNibble_eq_some hns
    refine ⟨⟨s.take 8,hs.1,hw⟩,(List.take_append_drop 8 s).symm,hs.2,?_⟩
    rw [mapM_patternNibble hw] at hns
    rw [← Option.some.inj hns]
    exact (patternOf_nibbles _).symm
  next => cases h

end Machismo.Patcher
