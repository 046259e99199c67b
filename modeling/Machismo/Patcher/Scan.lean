import Machismo.Patcher.Apply
import Machismo.Patcher.Patterns

/-! # Searching the extent of a symbol

The search stops at a second hit, and otherwise where the patterns would reach past its end.  Addresses wrap,
and so does the sum of the start and the length of the window, which is not checked.
-/
namespace Machismo.Patcher
open A64
open Trampoline (MachO Nlist)

theorem land_sixteen_mul_add (x m : ℕ) {d : ℕ} (hd : d < 16) : x &&& (16*m + d) = 16*(x/16 &&& m) + (x%16 &&& d) := by
  have hdiv : (x &&& (16*m + d))/2^4 = x/16 &&& m := by
    rw [Nat.and_div_two_pow]
    congr 1
    omega
  have hmod : (x &&& (16*m + d))%2^4 = x%16 &&& d := by
    rw [Nat.and_mod_two_pow]
    congr 1
    omega
  omega

theorem hexFrom_concat (v : ℕ) (digits : Text) (c : Char) :
    hexFrom v (digits ++ [c]) = 16*hexFrom v digits + (hexDigit c).getD 0 := by
  rw [hexFrom,List.foldl_append]
  rfl

theorem land_hexDigit {c : Char} (hc : isHexDigit c ∨ c = '?') (x : ℕ) :
    x%16 &&& (hexDigit (if c = '?' then '0' else 'F')).getD 0 = (hexDigit (if c = '?' then '0' else c)).getD 0 ↔
      c = '?' ∨ hexDigit c = some (x%16) := by
  by_cases h : c = '?'
  · rw [if_pos h,if_pos h]
    exact iff_of_true (Nat.and_zero _) (.inl h)
  · obtain ⟨d,hd⟩ := Option.isSome_iff_exists.mp (hc.resolve_right h)
    have hand : x%16 &&& 15 = x%16 :=
      (Nat.and_two_pow_sub_one_eq_mod (x%16) 4).trans (Nat.mod_mod x 16)
    have hF : (hexDigit 'F').getD 0 = 15 := rfl
    rw [if_neg h,if_neg h,or_iff_right h,hF,hand,hd,Option.getD_some,Option.some.injEq,eq_comm]

theorem land_hexFrom_iff {w : Text} (hw : ∀ c ∈ w, isHexDigit c ∨ c = '?') (x : ℕ) :
    x &&& hexFrom 0 (w.map fun c => if c = '?' then '0' else 'F') =
        hexFrom 0 (w.map fun c => if c = '?' then '0' else c) ↔
      ∀ i c, w.reverse[i]? = some c → c = '?' ∨ hexDigit c = some (x/16^i%16) := by
  induction w using List.reverseRecOn generalizing x with
  | nil => simp [hexFrom]
  | append_singleton w c ih =>
    have hc : isHexDigit c ∨ c = '?' := hw c (List.mem_append_right w List.mem_cons_self)
    have hlast := land_hexDigit hc x
    have hinit := ih (fun c hc => hw c (List.mem_append_left _ hc)) (x/16)
    have hmask : (hexDigit (if c = '?' then '0' else 'F')).getD 0 < 16 := getD_hexDigit_lt _
    have hvalue : (hexDigit (if c = '?' then '0' else c)).getD 0 < 16 := getD_hexDigit_lt _
    have hand : x%16 &&& (hexDigit (if c = '?' then '0' else 'F')).getD 0 < 16 := Nat.and_lt_two_pow _ (n := 4) hmask
    rw [List.map_append,List.map_append,List.map_singleton,List.map_singleton,hexFrom_concat,hexFrom_concat,
      land_sixteen_mul_add x _ hmask,List.reverse_append,List.reverse_singleton,List.singleton_append]
    have hsplit : ∀ {a b u v : ℕ}, u < 16 → v < 16 → (16*a + u = 16*b + v ↔ a = b ∧ u = v) := by omega
    rw [hsplit hand hvalue,hlast,hinit]
    constructor
    · rintro ⟨hlow,hhigh⟩ i c' hi
      cases i with
      | zero =>
        obtain rfl := Option.some.inj hi
        rwa [pow_zero,Nat.div_one]
      | succ i =>
        rw [pow_succ',← Nat.div_div_eq_div_mul]
        exact hlow i c' hi
    · intro hall
      refine ⟨fun i c' hi => ?_,?_⟩
      · have hnext := hall (i+1) c' hi
        rwa [pow_succ',← Nat.div_div_eq_div_mul] at hnext
      · have hzero := hall 0 c rfl
        rwa [pow_zero,Nat.div_one] at hzero

/-- A word has the nibbles of a text, from its high end on, up to wildcards. -/
def NibblesMatch (s : Text) (w : BitVec 32) : Prop :=
  ∀ i < 8, ∀ c, s[i]? = some c → c = '?' ∨ hexDigit c = some (w.toNat/16^(7 - i)%16)

theorem hexFrom_lt (digits : Text) : hexFrom 0 digits < 16^digits.length := by
  induction digits using List.reverseRecOn with
  | nil => decide
  | append_singleton digits c ih =>
    have hc := getD_hexDigit_lt c
    rw [hexFrom_concat,List.length_append,List.length_singleton,pow_succ]
    omega

theorem parsePattern_nibbles {s : Text} {pat : Pattern} (h : parsePattern s = some pat) (w : BitVec 32) :
    w &&& pat.mask = pat.value ↔ NibblesMatch s w := by
  obtain ⟨⟨word,hlen,hword⟩,hs,-,rfl⟩ := parsePattern_sound h
  have hmask := hexFrom_lt (word.map fun c => if c = '?' then '0' else 'F')
  have hvalue := hexFrom_lt (word.map fun c => if c = '?' then '0' else c)
  rw [List.length_map,hlen] at hmask hvalue
  have hnat : w &&& (PatternWord.pattern ⟨word,hlen,hword⟩).mask = (PatternWord.pattern ⟨word,hlen,hword⟩).value ↔
      w.toNat &&& hexFrom 0 (word.map fun c => if c = '?' then '0' else 'F') =
        hexFrom 0 (word.map fun c => if c = '?' then '0' else c) := by
    rw [← BitVec.toNat_inj,BitVec.toNat_and]
    simp only [PatternWord.pattern,BitVec.toNat_ofNat]
    rw [Nat.mod_eq_of_lt,Nat.mod_eq_of_lt]
    · rfl
    · exact hvalue
    · exact hmask
  rw [hnat,land_hexFrom_iff hword]
  have hget : ∀ i < 8, word.reverse[i]? = s[7 - i]? := by
    intro i hi
    have happ : (word ++ s.drop 8)[7 - i]? = word[7 - i]? := List.getElem?_append_left (by omega)
    rw [List.getElem?_reverse (by omega),hlen]
    exact happ.symm.trans (congrArg (·[7 - i]?) hs.symm)
  constructor
  · intro hall i hi c hc
    refine hall (7 - i) c ?_
    rw [hget _ (by omega),show 7 - (7 - i) = i by omega,hc]
  · intro hall i c hc
    have hi : i < 8 := by
      have hlt := (List.getElem?_eq_some_iff.mp hc).1
      rwa [List.length_reverse,hlen] at hlt
    rw [hget i hi] at hc
    have hnibble := hall (7 - i) (by omega) c hc
    rwa [show 7 - (7 - i) = i by omega] at hnibble

section Loop
variable (mem : Memory) (pats : List Pattern)

/-- The loop of `pattern_find_unique` from an address on, with the hits so far.  It need not end. -/
def findLoop (stop : Addr) : ℕ → Addr → List Addr → Option (List Addr)
  | 0, _, _ => none
  | n + 1, a, hits =>
    if a + BitVec.ofNat 64 (4*pats.length) ≤ stop then
      let hits := if matchesAt mem pats a then hits ++ [a] else hits
      if 1 < hits.length then some hits else findLoop stop n (a + 4) hits
    else some hits

def findHits (start stop : Addr) (rounds : ℕ) : Option (List Addr) :=
  let need := BitVec.ofNat 64 (4*pats.length)
  if need = 0 ∨ stop < start ∨ stop - start < need then some [] else findLoop mem pats stop rounds start []

end Loop

def uniqueHit : List Addr → Except Failure Addr
  | [] => .error .patternNotFound
  | [hit] => .ok hit
  | _ :: _ :: _ => .error .patternAmbiguous

/-- The end of the search, with the sum that may wrap. -/
def searchEnd (start stop : Addr) (within : BitVec 64) : Addr :=
  if within ≠ 0 ∧ start + within < stop then start + within else stop

/-- `resolve_loc` for a symbol that is searched. -/
def resolveSymFind (E : Env) (mem : Memory) (name : Name) (pats : List Pattern) (within : BitVec 64) (rounds : ℕ) :
    Option (Except Failure Addr) :=
  match E.image with
  | none => some (.error .noImage)
  | some M =>
    if resolverLookupSymbol E M name = 0 then some (.error .symbolNotFound)
    else
      match resolverSymbolExtent E M name with
      | none => some (.error .noExtent)
      | some (start,stop) => (findHits mem pats start (searchEnd start stop within) rounds).map uniqueHit

/-- The location resolves, after some number of rounds. -/
def Resolves (E : Env) (mem : Memory) (name : Name) (pats : List Pattern) (within : BitVec 64) (p : Addr) : Prop :=
  ∃ rounds, resolveSymFind E mem name pats within rounds = some (.ok p)

section Rounds
variable {mem : Memory} {pats : List Pattern} {start stop a p : Addr} {hits l : List Addr} {n k : ℕ}

/-- Places at steps of four bytes. -/
def places (a : Addr) (k : ℕ) : List Addr := (List.range k).map fun i => a + BitVec.ofNat 64 (4*i)

theorem places_succ (a : Addr) (k : ℕ) : places a (k+1) = a :: places (a+4) k := by
  have hstep : ∀ i, a + BitVec.ofNat 64 (4*(i+1)) = a + 4 + BitVec.ofNat 64 (4*i) := by
    intro i
    rw [Nat.mul_add,Nat.add_comm,BitVec.ofNat_add,← BitVec.add_assoc]
    rfl
  rw [places,List.range_succ_eq_map,List.map_cons,List.map_map]
  refine congrArg₂ List.cons (BitVec.add_zero a) (List.map_congr_left fun i _ => hstep i)

theorem findLoop_mono (h : findLoop mem pats stop n a hits = some l) (hn : n ≤ k) :
    findLoop mem pats stop k a hits = some l := by
  induction n generalizing a hits k with
  | zero => cases h
  | succ n ih =>
    cases k with
    | zero => cases hn
    | succ k =>
      rw [findLoop] at h ⊢
      by_cases hle : a + BitVec.ofNat 64 (4*pats.length) ≤ stop
      · rw [if_pos hle] at h ⊢
        dsimp only at h ⊢
        split_ifs at h ⊢
        · exact h
        · exact ih h (Nat.le_of_succ_le_succ hn)
        · exact h
        · exact ih h (Nat.le_of_succ_le_succ hn)
      · rw [if_neg hle] at h ⊢
        exact h

theorem add_le_iff {need : ℕ} (hneed : a.toNat + need < 2^64) :
    a + BitVec.ofNat 64 need ≤ stop ↔ a.toNat + need ≤ stop.toNat := by
  rw [BitVec.le_def,BitVec.toNat_add,BitVec.toNat_ofNat,Nat.mod_eq_of_lt (by omega : need < 2^64),
    Nat.mod_eq_of_lt hneed]

/-- Where the places end below the end of memory, the loop finds the hits among them, up to the second. -/
theorem findLoop_places (hwrap : a.toNat + 4*k + 4*pats.length < 2^64)
    (hin : a.toNat + 4*k + 4*pats.length ≤ stop.toNat + 4) (hout : stop.toNat < a.toNat + 4*k + 4*pats.length)
    (hhits : hits.length ≤ 1) :
    findLoop mem pats stop (k+1) a hits = some ((hits ++ (places a k).filter (matchesAt mem pats)).take 2) := by
  induction k generalizing a hits with
  | zero =>
    rw [findLoop,if_neg]
    · have hnil : (places a 0).filter (matchesAt mem pats) = [] := rfl
      rw [hnil,List.append_nil,List.take_of_length_le (by omega)]
    · rw [add_le_iff (by omega)]
      omega
  | succ k ih =>
    have hnext : (a + 4).toNat = a.toNat + 4 := by
      rw [BitVec.toNat_add]
      exact Nat.mod_eq_of_lt (by simp; omega)
    have hrec : ∀ {hits : List Addr}, hits.length ≤ 1 → findLoop mem pats stop (k+1) (a+4) hits =
        some ((hits ++ (places (a+4) k).filter (matchesAt mem pats)).take 2) :=
      fun hhits => ih (by omega) (by omega) (by omega) hhits
    rw [findLoop,if_pos ((add_le_iff (by omega)).mpr (by omega)),places_succ]
    cases hmatch : matchesAt mem pats a with
    | false =>
      rw [List.filter_cons_of_neg (by simp [hmatch])]
      simp only [Bool.false_eq_true,↓reduceIte]
      rw [if_neg (by omega)]
      exact hrec hhits
    | true =>
      rw [List.filter_cons_of_pos hmatch]
      simp only [↓reduceIte,List.length_append,List.length_singleton]
      cases hits with
      | nil =>
        rw [if_neg (by simp)]
        exact @hrec [a] le_rfl
      | cons b hits =>
        obtain rfl : hits = [] := List.eq_nil_of_length_eq_zero (by rw [List.length_cons] at hhits; omega)
        rw [if_pos (by simp)]
        rfl

theorem two_hits_of_wraps (hlast : 2^64 ≤ a.toNat + 4*k + 4*pats.length + 4)
    (hin : a.toNat + 4*k + 4*pats.length ≤ stop.toNat) {b : Addr} (hb : b.toNat % 4 = a.toNat % 4)
    (hhits : hits.length ≤ 1) (h : findLoop mem pats stop n b hits = some l) : 1 < l.length := by
  induction n generalizing b hits with
  | zero => cases h
  | succ n ih =>
    have hnext : (b + 4).toNat % 4 = a.toNat % 4 := by
      have hfour : (4 : Addr).toNat = 4 := rfl
      rw [BitVec.toNat_add,hfour]
      omega
    have hle : b + BitVec.ofNat 64 (4*pats.length) ≤ stop := by
      rw [BitVec.le_def,BitVec.toNat_add,BitVec.toNat_ofNat]
      have hstop := stop.isLt
      omega
    rw [findLoop,if_pos hle] at h
    dsimp only at h
    by_cases htwo : 1 < (if matchesAt mem pats b = true then hits ++ [b] else hits).length
    · rw [if_pos htwo] at h
      rwa [← Option.some.inj h]
    · rw [if_neg htwo] at h
      exact ih hnext (not_lt.mp htwo) h

end Rounds

/-- A place whose patterns lie between two bounds and match. -/
structure Hit (mem : Memory) (pats : List Pattern) (start stop : ℕ) (p : Addr) : Prop where
  start_le : start ≤ p.toNat
  lt_stop : p.toNat < stop
  inside : p.toNat + 4*pats.length ≤ stop
  isMatch : matchesAt mem pats p

/-- The only hit among the places of a residue. -/
def UniqueHit (mem : Memory) (pats : List Pattern) (r start stop : ℕ) (p : Addr) : Prop :=
  (p.toNat % 4 = r ∧ Hit mem pats start stop p) ∧ ∀ q : Addr, q.toNat % 4 = r → Hit mem pats start stop q → q = p

def windowEnd (start stop : Addr) (within : BitVec 64) : ℕ :=
  if within = 0 then stop.toNat else min stop.toNat (start.toNat + within.toNat)

section Found
variable {mem : Memory} {pats : List Pattern} {start stop p : Addr}

theorem mem_places {a : Addr} {k : ℕ} (hwrap : a.toNat + 4*k < 2^64 + 4) :
    p ∈ places a k ↔ p.toNat % 4 = a.toNat % 4 ∧ a.toNat ≤ p.toNat ∧ p.toNat < a.toNat + 4*k := by
  have hat : ∀ i < k, (a + BitVec.ofNat 64 (4*i)).toNat = a.toNat + 4*i := by
    intro i hi
    rw [BitVec.toNat_add,BitVec.toNat_ofNat]
    omega
  rw [places,List.mem_map]
  constructor
  · rintro ⟨i,hi,rfl⟩
    rw [List.mem_range] at hi
    rw [hat i hi]
    omega
  · rintro ⟨hmod,hlo,hhi⟩
    refine ⟨(p.toNat - a.toNat)/4,List.mem_range.mpr (by omega),BitVec.eq_of_toNat_eq ?_⟩
    rw [hat _ (by omega)]
    omega

theorem nodup_places {a : Addr} {k : ℕ} (hk : 4*k < 2^64 + 4) : (places a k).Nodup := by
  refine List.Nodup.map_on (fun i hi j hj hij => ?_) List.nodup_range
  rw [List.mem_range] at hi hj
  have hnat := congrArg BitVec.toNat (add_left_cancel hij)
  rw [BitVec.toNat_ofNat,BitVec.toNat_ofNat] at hnat
  omega

theorem uniqueHit_take_two (l : List Addr) : uniqueHit (l.take 2) = uniqueHit l := by
  match l with
  | [] => rfl
  | [_] => rfl
  | _ :: _ :: _ => rfl

theorem uniqueHit_eq_ok {l : List Addr} : uniqueHit l = .ok p ↔ l = [p] := by
  match l with
  | [] => simp [uniqueHit]
  | [q] => simp [uniqueHit]
  | _ :: _ :: _ => simp [uniqueHit]

theorem eq_singleton_iff {l : List Addr} (hl : l.Nodup) : l = [p] ↔ p ∈ l ∧ ∀ q ∈ l, q = p := by
  constructor
  · rintro rfl
    exact ⟨List.mem_singleton_self p,fun q hq => List.mem_singleton.mp hq⟩
  · rintro ⟨hp,hall⟩
    refine List.perm_singleton.mp ((List.perm_ext_iff_of_nodup hl (List.nodup_singleton p)).mpr fun q => ?_)
    rw [List.mem_singleton]
    exact ⟨hall q,fun hq => hq ▸ hp⟩

/-- The first place scanned behind the end, with the patterns, lies below the end of memory. -/
def LoopEnds (start stop : ℕ) : Prop := stop - (stop - start) % 4 + 4 < 2^64

theorem uniqueHit_places (hin : start.toNat + 4*pats.length ≤ stop.toNat) (hne : pats ≠ []) :
    uniqueHit ((places start ((stop.toNat - start.toNat - 4*pats.length)/4 + 1)).filter (matchesAt mem pats)) = .ok p ↔
      UniqueHit mem pats (start.toNat % 4) start.toNat stop.toNat p := by
  have hpos : 0 < pats.length := List.length_pos_of_ne_nil hne
  have hstop := stop.isLt
  rw [uniqueHit_eq_ok,eq_singleton_iff ((nodup_places (by omega)).filter _)]
  have hmem : ∀ q, q ∈ (places start ((stop.toNat - start.toNat - 4*pats.length)/4 + 1)).filter (matchesAt mem pats) ↔
      q.toNat % 4 = start.toNat % 4 ∧ Hit mem pats start.toNat stop.toNat q := by
    intro q
    rw [List.mem_filter,mem_places (by omega)]
    constructor
    · rintro ⟨⟨hmod,hlo,hhi⟩,hmatch⟩
      exact ⟨hmod,hlo,by omega,by omega,hmatch⟩
    · rintro ⟨hmod,hq⟩
      have hlo := hq.start_le
      have hhi := hq.inside
      exact ⟨⟨hmod,hlo,by omega⟩,hq.isMatch⟩
  unfold UniqueHit
  simp only [hmem,and_imp]

theorem findHits_guard_iff (hlen : pats.length ≤ locMaxPatterns) :
    (BitVec.ofNat 64 (4*pats.length) = 0 ∨ stop < start ∨ stop - start < BitVec.ofNat 64 (4*pats.length)) ↔
      ¬(start.toNat + 4*pats.length ≤ stop.toNat ∧ pats ≠ []) := by
  have hneed : (BitVec.ofNat 64 (4*pats.length)).toNat = 4*pats.length := by
    unfold locMaxPatterns at hlen
    rw [BitVec.toNat_ofNat]
    omega
  have hzero : BitVec.ofNat 64 (4*pats.length) = 0 ↔ pats = [] := by
    rw [← BitVec.toNat_inj,hneed,← List.length_eq_zero_iff]
    have hz : (0 : Addr).toNat = 0 := rfl
    omega
  have hstart := start.isLt
  have hstop := stop.isLt
  rw [hzero,BitVec.lt_def,BitVec.lt_def,hneed,BitVec.toNat_sub]
  by_cases hne : pats = []
  · exact iff_of_true (.inl hne) fun h => h.2 hne
  · rw [or_iff_right hne,and_iff_left hne]
    omega

theorem findHits_iff (hlen : pats.length ≤ locMaxPatterns) :
    (∃ rounds, (findHits mem pats start stop rounds).map uniqueHit = some (.ok p)) ↔
      pats ≠ [] ∧ LoopEnds start.toNat stop.toNat ∧
        UniqueHit mem pats (start.toNat % 4) start.toNat stop.toNat p := by
  have hstart := start.isLt
  have hstop := stop.isLt
  by_cases hentry : start.toNat + 4*pats.length ≤ stop.toNat ∧ pats ≠ []
  · obtain ⟨hin,hne⟩ := hentry
    have hguard := (findHits_guard_iff hlen).not_left.mpr ⟨hin,hne⟩
    have hloop : ∀ rounds, findHits mem pats start stop rounds = findLoop mem pats stop rounds start [] :=
      fun rounds => if_neg hguard
    simp only [hloop]
    rw [and_iff_right hne]
    set k := (stop.toNat - start.toNat - 4*pats.length)/4 with hk
    by_cases hends : LoopEnds start.toNat stop.toNat
    · rw [and_iff_right hends,← uniqueHit_places hin hne,← hk]
      unfold LoopEnds at hends
      have hrun : findLoop mem pats stop (k+1+1) start [] =
          some (([] ++ (places start (k+1)).filter (matchesAt mem pats)).take 2) :=
        findLoop_places (by omega) (by omega) (by omega) (Nat.zero_le 1)
      rw [List.nil_append] at hrun
      constructor
      · rintro ⟨rounds,h⟩
        obtain ⟨l,hl,hok⟩ := Option.map_eq_some_iff.mp h
        have h₁ := findLoop_mono hl (Nat.le_max_left rounds (k+1+1))
        have h₂ := findLoop_mono hrun (Nat.le_max_right rounds (k+1+1))
        rw [h₁] at h₂
        rwa [Option.some.inj h₂,uniqueHit_take_two] at hok
      · intro hok
        refine ⟨k+1+1,?_⟩
        rw [hrun,Option.map_some,uniqueHit_take_two,hok]
    · refine iff_of_false ?_ fun h => hends h.1
      unfold LoopEnds at hends
      rintro ⟨rounds,h⟩
      obtain ⟨l,hl,hok⟩ := Option.map_eq_some_iff.mp h
      have htwo : 1 < l.length := two_hits_of_wraps (a := start) (k := k) (by omega) (by omega) rfl (by simp) hl
      rw [uniqueHit_eq_ok.mp hok] at htwo
      exact absurd htwo (lt_irrefl 1)
  · refine iff_of_false ?_ fun ⟨hne,_,⟨_,hp⟩,_⟩ => hentry ⟨le_trans (Nat.add_le_add_right hp.start_le _) hp.inside,hne⟩
    rintro ⟨rounds,h⟩
    have hnil : findHits mem pats start stop rounds = some [] := if_pos ((findHits_guard_iff hlen).mpr hentry)
    rw [hnil] at h
    cases h

/-- On searches that end below the end of memory the list of hits says what the loop does. -/
theorem patternFindUnique_iff (hlen : pats.length ≤ locMaxPatterns) (hends : LoopEnds start.toNat stop.toNat) :
    patternFindUnique mem start stop pats = .ok p ↔
      ∃ rounds, (findHits mem pats start stop rounds).map uniqueHit = some (.ok p) := by
  have hunique : patternFindUnique mem start stop pats = uniqueHit (patternHits mem start stop pats) := by
    unfold patternFindUnique uniqueHit
    rfl
  have hstart := start.isLt
  have hstop := stop.isLt
  rw [findHits_iff hlen,and_iff_right hends,hunique]
  by_cases hentry : start.toNat + 4*pats.length ≤ stop.toNat ∧ pats ≠ []
  · obtain ⟨hin,hne⟩ := hentry
    have hsub : (stop - start).toNat = stop.toNat - start.toNat := by
      rw [BitVec.toNat_sub]
      omega
    have hpos := List.length_pos_of_ne_nil hne
    have hhits : patternHits mem start stop pats =
        (places start ((stop.toNat - start.toNat - 4*pats.length)/4 + 1)).filter (matchesAt mem pats) := by
      unfold patternHits
      rw [if_neg (by rw [BitVec.lt_def,hsub]; omega),hsub]
      rfl
    rw [hhits,uniqueHit_places hin hne,and_iff_right hne]
  · have hnil : patternHits mem start stop pats = [] := by
      refine if_pos ?_
      by_cases hne : pats = []
      · exact .inl (by rw [hne]; rfl)
      · have hout : ¬start.toNat + 4*pats.length ≤ stop.toNat := fun hle => hentry ⟨hle,hne⟩
        rw [BitVec.lt_def,BitVec.toNat_sub]
        omega
    rw [hnil]
    refine iff_of_false (fun h => by cases h) fun ⟨hne,⟨_,hp⟩,_⟩ => hentry ⟨?_,hne⟩
    exact le_trans (Nat.add_le_add_right hp.start_le _) hp.inside

end Found

section Location
variable {E : Env} {mem : Memory} {M : MachO} {name : Name} {pats : List Pattern} {within : BitVec 64}
  {start stop p : Addr}

/-- The sum of the start and the window does not exceed the address space. -/
def WindowFits (start : Addr) (within : BitVec 64) : Prop := within = 0 ∨ start.toNat + within.toNat < 2^64

theorem searchEnd_of_fits (h : WindowFits start within) :
    (searchEnd start stop within).toNat = windowEnd start stop within := by
  unfold searchEnd windowEnd
  by_cases hwithin : within = 0
  · rw [if_pos hwithin,if_neg fun hn => hn.1 hwithin]
  · have hlt := h.resolve_left hwithin
    have hsum : (start + within).toNat = start.toNat + within.toNat := by
      rw [BitVec.toNat_add,Nat.mod_eq_of_lt hlt]
    rw [if_neg hwithin]
    by_cases hcap : start + within < stop
    · rw [if_pos ⟨hwithin,hcap⟩,hsum]
      rw [BitVec.lt_def,hsum] at hcap
      omega
    · rw [if_neg fun hn => hcap hn.2]
      rw [BitVec.lt_def,hsum] at hcap
      omega

theorem searchEnd_lt_of_wraps (h : ¬WindowFits start within) (hle : start ≤ stop) :
    searchEnd start stop within < start := by
  obtain ⟨hwithin,hwrap⟩ := not_or.mp h
  have hsum : (start + within).toNat = start.toNat + within.toNat - 2^64 := by
    have hs := start.isLt
    have hw := within.isLt
    rw [BitVec.toNat_add]
    omega
  have hw := within.isLt
  rw [BitVec.le_def] at hle
  unfold searchEnd
  rw [if_pos ⟨hwithin,by rw [BitVec.lt_def,hsum]; omega⟩,BitVec.lt_def,hsum]
  omega

/-- What the search needs apart from a unique hit. -/
structure Searchable (E : Env) (M : MachO) (name : Name) (pats : List Pattern) (start stop : Addr)
    (within : BitVec 64) : Prop where
  /-- The lookup finds the symbol, at an address that is not zero. -/
  found : resolverLookupSymbol E M name ≠ 0
  nonempty : pats ≠ []
  fits : WindowFits start within
  ends : LoopEnds start.toNat (windowEnd start stop within)

theorem resolves_iff (hM : E.image = some M) (hext : resolverSymbolExtent E M name = some (start,stop))
    (hlen : pats.length ≤ locMaxPatterns) :
    Resolves E mem name pats within p ↔ Searchable E M name pats start stop within ∧
      UniqueHit mem pats (start.toNat % 4) start.toNat (windowEnd start stop within) p := by
  unfold Resolves resolveSymFind
  rw [hM]
  dsimp only
  rw [hext]
  by_cases hfound : resolverLookupSymbol E M name = 0
  · simp only [if_pos hfound]
    refine iff_of_false ?_ fun h => h.1.found hfound
    rintro ⟨rounds,h⟩
    cases h
  · simp only [if_neg hfound]
    rw [findHits_iff hlen]
    by_cases hfits : WindowFits start within
    · rw [searchEnd_of_fits hfits]
      exact ⟨fun ⟨hne,hends,hhit⟩ => ⟨⟨hfound,hne,hfits,hends⟩,hhit⟩,fun ⟨h,hhit⟩ => ⟨h.nonempty,h.ends,hhit⟩⟩
    · refine iff_of_false ?_ fun h => hfits h.1.fits
      rintro ⟨-,-,⟨-,hhit⟩,-⟩
      have hlo := hhit.start_le
      have hhi := hhit.lt_stop
      by_cases hle : start ≤ stop
      · have hlt := searchEnd_lt_of_wraps hfits hle
        rw [BitVec.lt_def] at hlt
        omega
      · have hend : (searchEnd start stop within).toNat ≤ stop.toNat := by
          unfold searchEnd
          split_ifs with hcap
          · have hlt := hcap.2
            rw [BitVec.lt_def] at hlt
            exact hlt.le
          · exact le_rfl
        rw [BitVec.le_def] at hle
        omega

theorem UniqueHit.residue {r r' a b : ℕ} (h : UniqueHit mem pats r a b p) (h' : UniqueHit mem pats r' a b p) : r = r' :=
  h.1.1.symm.trans h'.1.1

/-- A search finds the only aligned hit in its window, and a pattern stands for the words with its nibbles; the
former if and only if an aligned start has no such hit or can be searched, and another start has none and either
cannot be searched or has no only hit at steps of four bytes. -/
theorem resolves_unique_iff (hM : E.image = some M) (hext : resolverSymbolExtent E M name = some (start,stop))
    (hlen : pats.length ≤ locMaxPatterns) :
    ((∀ p, Resolves E mem name pats within p ↔
        UniqueHit mem pats 0 start.toNat (windowEnd start stop within) p) ∧
      ∀ s pat, parsePattern s = some pat → ∀ w : BitVec 32, w &&& pat.mask = pat.value ↔ NibblesMatch s w) ↔
    if start.toNat % 4 = 0 then
      Searchable E M name pats start stop within ∨
        ¬∃ p, UniqueHit mem pats 0 start.toNat (windowEnd start stop within) p
    else
      (¬∃ p, UniqueHit mem pats 0 start.toNat (windowEnd start stop within) p) ∧
        ¬(Searchable E M name pats start stop within ∧
          ∃ p, UniqueHit mem pats (start.toNat % 4) start.toNat (windowEnd start stop within) p) := by
  have hnibbles : ∀ s pat, parsePattern s = some pat → ∀ w : BitVec 32, w &&& pat.mask = pat.value ↔ NibblesMatch s w :=
    fun s pat h w => parsePattern_nibbles h w
  rw [and_iff_left hnibbles]
  simp only [resolves_iff hM hext hlen]
  by_cases haligned : start.toNat % 4 = 0
  · rw [if_pos haligned,haligned]
    constructor
    · intro hall
      by_cases hs : Searchable E M name pats start stop within
      · exact .inl hs
      · exact .inr fun ⟨p,hp⟩ => hs ((hall p).mpr hp).1
    · rintro (hs | hnone) p
      · exact and_iff_right hs
      · exact iff_of_false (fun h => hnone ⟨p,h.2⟩) fun h => hnone ⟨p,h⟩
  · rw [if_neg haligned]
    constructor
    · intro hall
      refine ⟨fun ⟨p,hp⟩ => haligned ?_,fun ⟨hs,p,hp⟩ => haligned ?_⟩
      · exact ((hall p).mpr hp).2.residue hp
      · exact hp.residue ((hall p).mp ⟨hs,hp⟩)
    · rintro ⟨hnone,hnot⟩ p
      exact iff_of_false (fun h => hnot ⟨h.1,p,h.2⟩) fun h => hnone ⟨p,h⟩

theorem resolveLoc_symFind_iff {labels : List Label} {offset : BitVec 64} (hM : E.image = some M)
    (hext : resolverSymbolExtent E M name = some (start,stop)) (hlen : pats.length ≤ locMaxPatterns)
    (hends : LoopEnds start.toNat (searchEnd start stop within).toNat) :
    resolveLoc E mem labels (.symFind name offset pats within) = .ok p ↔ Resolves E mem name pats within p := by
  unfold Resolves resolveSymFind
  rw [resolveLoc,resolveSym,hM]
  dsimp only
  unfold resolveFind
  rw [hext]
  by_cases hfound : resolverLookupSymbol E M name = 0
  · rw [if_pos hfound]
    simp only [if_pos hfound]
    exact iff_of_false (fun h => by cases h) fun ⟨_,h⟩ => by cases h
  · rw [if_neg hfound]
    simp only [if_neg hfound]
    exact patternFindUnique_iff hlen hends

end Location

/-- A function of one word. -/
def oneFunction : MachO where
  isMachO64 := true
  commands := [.segment ⟨"__TEXT".toList,0x1000,0x1000,0,0x1000,5,[⟨0x1000,4,0⟩]⟩,
    .symtab (some [⟨0x0e,1,0x1000,some "f".toList,0⟩])]

def oneFunctionEnv : Env := ⟨some oneFunction,0,id,4096,fun _ => true⟩

theorem oneFunction_extent : resolverSymbolExtent oneFunctionEnv oneFunction "f".toList = some (0x1000,0x1004) := by
  decide +kernel

theorem resolves_unique_iff_oneFunction :
    ((∀ p, Resolves oneFunctionEnv (fun _ => 0) "f".toList [⟨0xffffffff,0⟩] 0 p ↔
        UniqueHit (fun _ => 0) [⟨0xffffffff,0⟩] 0 0x1000 (windowEnd 0x1000 0x1004 0) p) ∧
      ∀ s pat, parsePattern s = some pat → ∀ w : BitVec 32, w &&& pat.mask = pat.value ↔ NibblesMatch s w) ↔
    if (0x1000 : Addr).toNat % 4 = 0 then
      Searchable oneFunctionEnv oneFunction "f".toList [⟨0xffffffff,0⟩] 0x1000 0x1004 0 ∨
        ¬∃ p, UniqueHit (fun _ => 0) [⟨0xffffffff,0⟩] 0 0x1000 (windowEnd 0x1000 0x1004 0) p
    else
      (¬∃ p, UniqueHit (fun _ => 0) [⟨0xffffffff,0⟩] 0 0x1000 (windowEnd 0x1000 0x1004 0) p) ∧
        ¬(Searchable oneFunctionEnv oneFunction "f".toList [⟨0xffffffff,0⟩] 0x1000 0x1004 0 ∧
          ∃ p, UniqueHit (fun _ => 0) [⟨0xffffffff,0⟩] ((0x1000 : Addr).toNat % 4) 0x1000
            (windowEnd 0x1000 0x1004 0) p) :=
  resolves_unique_iff rfl oneFunction_extent (by decide)

/-- A window that reaches past the end of memory. -/
theorem not_resolves_wrapping_window :
    resolverSymbolExtent oneFunctionEnv oneFunction "f".toList = some (0x1000,0x1004) ∧
      UniqueHit (fun _ => 0) [⟨0xffffffff,0⟩] 0 0x1000 (windowEnd 0x1000 0x1004 (-1)) 0x1000 ∧
      ¬∃ p, Resolves oneFunctionEnv (fun _ => 0) "f".toList [⟨0xffffffff,0⟩] (-1) p := by
  have hend : windowEnd 0x1000 0x1004 (-1) = 0x1004 := by decide
  refine ⟨oneFunction_extent,⟨⟨rfl,?_,?_,?_,?_⟩,fun q _ hq => BitVec.eq_of_toNat_eq ?_⟩,?_⟩
  · decide
  · rw [hend]
    decide
  · rw [hend]
    decide
  · rfl
  · have hlo := hq.start_le
    have hhi := hq.inside
    rw [hend,List.length_singleton] at hhi
    have hp : (0x1000 : Addr).toNat = 0x1000 := rfl
    omega
  · rintro ⟨p,hp⟩
    have hfits := ((resolves_iff rfl oneFunction_extent (by decide)).mp hp).1.fits
    exact absurd hfits (by unfold WindowFits; decide)

end Machismo.Patcher
