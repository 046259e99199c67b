import Machismo.Patcher.Patterns

/-! # Searches

The scanner takes in the text of a search and gives its meaning. A search without a bound takes in the
blanks after it, so that what is left is known up to blanks only.
-/
namespace Machismo.Patcher
open Munch

/-- Each pattern is followed by the end of a word, and the last one by something else. -/
def PatternsStop : List (Gap × PatternWord) → Text → Prop
  | [], r => ¬startsPattern (skipWs r)
  | _ :: ps, r => isTerminated (patternsBefore ps r) ∧ PatternsStop ps r

theorem startsPattern_append (w : PatternWord) (r : Text) : startsPattern (w ++ r) := by
  obtain ⟨c,d,h⟩ := List.exists_cons_of_length_pos (show 0 < w.1.length by rw [w.2.1]; decide)
  rw [h]
  exact decide_eq_true (w.2.2 c (h ▸ List.mem_cons_self))

theorem ends_of_startsPattern {p : Text} (h : startsPattern p) : Ends isWs p := by
  cases p with
  | nil => exact ends_nil
  | cons c p =>
    rcases of_decide_eq_true h with hc | rfl
    · exact ends_cons.mpr (isWs_eq_false_of_isHexDigit hc)
    · exact ends_cons.mpr (by decide)

theorem skipWs_patternsBefore (p : Gap × PatternWord) (ps : List (Gap × PatternWord)) (r : Text) :
    skipWs (patternsBefore (p :: ps) r) = p.2 ++ patternsBefore ps r := by
  rw [patternsBefore, skipWs_gap, skipWs_eq_self (ends_of_startsPattern (startsPattern_append p.2 _))]

theorem parsePatterns_complete {n : ℕ} {ps : List (Gap × PatternWord)} {r : Text} (hne : ps ≠ [])
    (hlen : ps.length ≤ n) (h : PatternsStop ps r) :
    parsePatterns n (skipWs (patternsBefore ps r)) = some (ps.map fun p => PatternWord.pattern p.2,skipWs r) := by
  induction ps generalizing n with
  | nil => exact absurd rfl hne
  | cons p ps ih =>
    obtain ⟨hterm,h⟩ := h
    cases n with
    | zero => cases hlen
    | succ n =>
      rw [skipWs_patternsBefore, parsePatterns, parsePattern_complete p.2 hterm, Option.bind_some,
        List.drop_left' p.2.2.1]
      cases ps with
      | nil => exact if_neg h
      | cons q ps =>
        have hstarts : startsPattern (skipWs (patternsBefore (q :: ps) r)) := by
          rw [skipWs_patternsBefore]
          exact startsPattern_append q.2 _
        dsimp only
        rw [if_pos hstarts, ih (List.cons_ne_nil _ _) (Nat.le_of_succ_le_succ hlen) h]
        rfl

theorem parsePatterns_sound {n : ℕ} {p q : Text} {pats : List Pattern}
    (h : parsePatterns n (skipWs p) = some (pats,q)) :
    ∃ ps r, p = patternsBefore ps r ∧ ps ≠ [] ∧ ps.length ≤ n ∧ PatternsStop ps r ∧
      (ps.map fun p => PatternWord.pattern p.2) = pats ∧ q = skipWs r := by
  induction n generalizing p pats with
  | zero => cases h
  | succ n ih =>
    obtain ⟨g,hg⟩ := exists_gap p
    rw [parsePatterns] at h
    obtain ⟨pat,hpat,h⟩ := Option.bind_eq_some_iff.mp h
    obtain ⟨w,hw,hterm,rfl⟩ := parsePattern_sound hpat
    dsimp only at h
    split at h
    · obtain ⟨⟨pats',q'⟩,hrest,h⟩ := Option.map_eq_some_iff.mp h
      cases h
      obtain ⟨ps,r,hps,hne,hlen,hstop,rfl,rfl⟩ := ih hrest
      refine ⟨(g,w) :: ps,r,?_,List.cons_ne_nil _ _,Nat.succ_le_succ hlen,⟨hps ▸ hterm,hstop⟩,rfl,rfl⟩
      rw [patternsBefore, ← hps, ← hw]
      exact hg
    next hlast =>
      cases h
      refine ⟨[(g,w)],_,?_,List.cons_ne_nil _ _,Nat.succ_le_succ (Nat.zero_le n),⟨hterm,hlast⟩,rfl,rfl⟩
      rw [patternsBefore, patternsBefore, ← hw]
      exact hg

theorem patterns_inj {ps ps' : List (Gap × PatternWord)} {r r' : Text} (hps : PatternsStop ps r)
    (hps' : PatternsStop ps' r') (h : patternsBefore ps r = patternsBefore ps' r') : ps = ps' ∧ r = r' := by
  induction ps generalizing ps' with
  | nil =>
    cases ps' with
    | nil => exact ⟨rfl,h⟩
    | cons p' ps' =>
      refine absurd ?_ hps
      rw [show r = _ from h, skipWs_patternsBefore]
      exact startsPattern_append p'.2 _
  | cons p ps ih =>
    cases ps' with
    | nil =>
      refine absurd ?_ hps'
      rw [← show _ = r' from h, skipWs_patternsBefore]
      exact startsPattern_append p.2 _
    | cons p' ps' =>
      obtain ⟨g,w⟩ := p
      obtain ⟨g',w'⟩ := p'
      obtain ⟨hgap,h⟩ := gap_inj (ends_of_startsPattern (startsPattern_append w _))
        (ends_of_startsPattern (startsPattern_append w' _)) h
      obtain ⟨hw,h⟩ := List.append_inj h (w.2.1.trans w'.2.1.symm)
      obtain ⟨rfl,hr⟩ := ih hps.2 hps'.2 h
      obtain rfl : g = g' := hgap
      obtain rfl : w = w' := Subtype.ext hw
      exact ⟨rfl,hr⟩

def WithinStops : Option Within → Text → Prop
  | none, r => ¬"within ".toList <+: skipWs r
  | some w, r => w.lit.Stops r

section Keyword
variable {k : Text} (hk : k.head?.any fun c => !isWs c)
include hk

theorem ends_keyword (r : Text) : Ends isWs (k ++ r) := by
  cases k with
  | nil => cases hk
  | cons c k => exact ends_cons.mpr (by simpa using hk)

theorem skipWs_keyword (g : Gap) (r : Text) : skipWs (g ++ (k ++ r)) = k ++ r := by
  rw [skipWs_gap, skipWs_eq_self (ends_keyword hk r)]

theorem keyword_inj {g g' : Gap} {r r' : Text} (h : g.1 ++ (k ++ r) = g'.1 ++ (k ++ r')) : g = g' ∧ r = r' := by
  obtain ⟨hg,h⟩ := gap_inj (ends_keyword hk r) (ends_keyword hk r') h
  exact ⟨hg,List.append_cancel_left h⟩

end Keyword

theorem parseWithin_complete {w : Option Within} {r : Text} (h : WithinStops w r) :
    ∃ q, parseWithin (skipWs (withinBefore w r)) = some (withinValue w,q) ∧ skipWs q = skipWs r := by
  cases w with
  | none =>
    refine ⟨skipWs r,?_,skipWs_skipWs r⟩
    rw [withinBefore, parseWithin, after_eq_none.mpr h]
    rfl
  | some w =>
    refine ⟨r,?_,rfl⟩
    rw [withinBefore, skipWs_keyword (by decide), parseWithin, after_append]
    dsimp only
    rw [skipWs_gap, skipWs_eq_self (ends_before _ _)]
    exact parseHexU64_complete ⟨[],by simp⟩ h

theorem parseWithin_sound {p q : Text} {v : BitVec 64} (h : parseWithin (skipWs p) = some (v,q)) :
    ∃ w r, p = withinBefore w r ∧ WithinStops w r ∧ withinValue w = v ∧ skipWs q = skipWs r := by
  obtain ⟨g,hg⟩ := exists_gap p
  unfold parseWithin at h
  split at h
  next s hs =>
    obtain ⟨g₁,hg₁⟩ := exists_gap s
    obtain ⟨g₂,l,hlit,hl,hv⟩ := parseHexU64_sound h
    obtain ⟨-,hlit'⟩ := gap_inj (g := ⟨[],by simp⟩) (ends_skipWs s) (ends_before l q) hlit
    refine ⟨some ⟨g,g₁,l⟩,q,?_,hl,hv,rfl⟩
    rw [withinBefore, ← hlit', ← hg₁, ← after_eq_some hs]
    exact hg
  next hs =>
    cases h
    exact ⟨none,p,rfl,after_eq_none.mp hs,rfl,skipWs_skipWs p⟩

theorem within_inj {w w' : Option Within} {r r' : Text} (hw : WithinStops w r) (hw' : WithinStops w' r')
    (h : withinBefore w r = withinBefore w' r') : w = w' ∧ r = r' := by
  cases w with
  | none =>
    cases w' with
    | none => exact ⟨rfl,h⟩
    | some w' =>
      refine absurd ?_ hw
      rw [show r = _ from h, withinBefore, skipWs_keyword (by decide)]
      exact List.prefix_append _ _
  | some w =>
    cases w' with
    | none =>
      refine absurd ?_ hw'
      rw [← show _ = r' from h, withinBefore, skipWs_keyword (by decide)]
      exact List.prefix_append _ _
    | some w' =>
      obtain ⟨g,g₁,l⟩ := w
      obtain ⟨g',g₁',l'⟩ := w'
      obtain ⟨rfl,h⟩ := keyword_inj (g := g) (k := "within ".toList) (by decide) h
      obtain ⟨rfl,h⟩ := gap_inj (ends_before _ _) (ends_before _ _) h
      obtain ⟨rfl,hr⟩ := lit_inj hw hw' h
      exact ⟨rfl,hr⟩

def FindStops : Option Find → Text → Prop
  | none, r => ¬"find ".toList <+: skipWs r
  | some f, r => f.patterns ≠ [] ∧ PatternsStop f.patterns (withinBefore f.within r) ∧ WithinStops f.within r

theorem parseFind_complete (name : Name) (offset : BitVec 64) {f : Find} {r : Text} (h : FindStops (some f) r)
    (hfits : f.patterns.length ≤ locMaxPatterns) :
    ∃ q, parseFind name offset (patternsBefore f.patterns (withinBefore f.within r)) =
      some (.symFind name offset (f.patterns.map fun p => PatternWord.pattern p.2) (withinValue f.within),q) ∧
      skipWs q = skipWs r := by
  obtain ⟨q,hq,hr⟩ := parseWithin_complete h.2.2
  refine ⟨q,?_,hr⟩
  rw [parseFind, parsePatterns_complete h.1 hfits h.2.1, Option.bind_some, hq]
  rfl

theorem parseFind_sound {name : Name} {offset : BitVec 64} {p q : Text} {loc : LocExpr}
    (h : parseFind name offset p = some (loc,q)) :
    ∃ patterns within r, p = patternsBefore patterns (withinBefore within r) ∧ patterns ≠ [] ∧
      patterns.length ≤ locMaxPatterns ∧ PatternsStop patterns (withinBefore within r) ∧ WithinStops within r ∧
      loc = .symFind name offset (patterns.map fun p => PatternWord.pattern p.2) (withinValue within) ∧
      skipWs q = skipWs r := by
  obtain ⟨⟨pats,s⟩,hpats,h⟩ := Option.bind_eq_some_iff.mp h
  obtain ⟨⟨v,q'⟩,hwithin,h⟩ := Option.map_eq_some_iff.mp h
  cases h
  obtain ⟨ps,t,hps,hne,hlen,hstop,hmap,hs⟩ := parsePatterns_sound hpats
  dsimp only at hwithin
  rw [hs] at hwithin
  obtain ⟨w,r,rfl,hw,rfl,hr⟩ := parseWithin_sound hwithin
  exact ⟨ps,w,r,hps,hne,hlen,hstop,hw,by rw [← hmap],hr⟩

theorem find_inj {f f' : Option Find} {r r' : Text} (hf : FindStops f r) (hf' : FindStops f' r')
    (h : findBefore f r = findBefore f' r') : f = f' ∧ r = r' := by
  cases f with
  | none =>
    cases f' with
    | none => exact ⟨rfl,h⟩
    | some f' =>
      refine absurd ?_ hf
      rw [show r = _ from h, findBefore, skipWs_keyword (by decide)]
      exact List.prefix_append _ _
  | some f =>
    cases f' with
    | none =>
      refine absurd ?_ hf'
      rw [← show _ = r' from h, findBefore, skipWs_keyword (by decide)]
      exact List.prefix_append _ _
    | some f' =>
      obtain ⟨g,ps,w⟩ := f
      obtain ⟨g',ps',w'⟩ := f'
      obtain ⟨rfl,h⟩ := keyword_inj (g := g) (k := "find ".toList) (by decide) h
      obtain ⟨rfl,h⟩ := patterns_inj hf.2.1 hf'.2.1 h
      obtain ⟨rfl,hr⟩ := within_inj hf.2.2 hf'.2.2 h
      exact ⟨rfl,hr⟩

end Machismo.Patcher
