import Machismo.Data.TextBuffer
import Machismo.Sgr.Names

/-! # The room for an encoded name

`encode_fs_name` goes on as long as twelve characters and the terminator find room, whatever the next
word is. Two of the words have thirteen letters, most characters stay one letter.
-/
namespace Machismo.Sgr
open Machismo.Data.TextBuffer

def nul : Char := Char.ofNat 0

/-- The loop of `encode_fs_name`, with `j` characters in the output; a write outside of it has no result. -/
def encodeLoop (j : ℕ) (out : List Char) : List Char → Option (ℕ × List Char)
  | [] => some (j,out)
  | c :: rest =>
    if j+12 < out.length then
      (storeAll out j (spelled c)).bind fun out => encodeLoop (j+(spelled c).length) out rest
    else some (j,out)

/-- `encode_fs_name`, the same in both tools; `outsz` is the length of the output. -/
def encodeFsNameInto (out name : List Char) : Option (List Char) :=
  (encodeLoop 0 out name).bind fun (j,out) => store out j nul

def encoded (name : List Char) : List Char := name.flatMap spelled

theorem length_spelled (c : Char) : 0 < (spelled c).length ∧ (spelled c).length ≤ 13 := by
  unfold spelled
  split <;> exact ⟨by simp,by simp⟩

theorem thirteen_letters_iff (c : Char) : (spelled c).length = 13 ↔ c = '?' ∨ c = ':' := by
  unfold spelled
  split
  any_goals simp
  next hquestion hcolon _ _ _ _ => exact ⟨hquestion,hcolon⟩

@[simp] theorem encoded_nil : encoded [] = [] := rfl

@[simp] theorem encoded_cons (c : Char) (name : List Char) : encoded (c :: name) = spelled c ++ encoded name := rfl

theorem encoded_append (as bs : List Char) : encoded (as ++ bs) = encoded as ++ encoded bs := List.flatMap_append

theorem encodeLoop_extends {text out : List Char} (h : text <+: out) (name : List Char) :
    ∃ out', encodeLoop text.length out name = some (text.length+(encodeFrom out.length text.length name).length,out') ∧
      out'.length = out.length ∧ text ++ encodeFrom out.length text.length name <+: out' := by
  induction name generalizing text out with
  | nil =>
    refine ⟨out,rfl,rfl,?_⟩
    rwa [encodeFrom,List.append_nil]
  | cons c rest ih =>
    unfold encodeLoop encodeFrom
    by_cases hroom : text.length+12 < out.length
    · have hword := (length_spelled c).2
      obtain ⟨out1,hstore,hlen1,hpre1⟩ := storeAll_extends h (l := spelled c) (by omega)
      obtain ⟨out',hloop,hlen,hpre⟩ := ih hpre1
      rw [List.length_append,hlen1] at hloop hpre
      rw [if_pos hroom,if_pos hroom,hstore,Option.bind_some,hloop]
      refine ⟨out',?_,hlen.trans hlen1,?_⟩
      · rw [List.length_append,Nat.add_assoc]
      · rwa [List.append_assoc] at hpre
    · rw [if_neg hroom,if_neg hroom]
      refine ⟨out,rfl,rfl,?_⟩
      rwa [List.append_nil]

theorem encodeFsNameInto_of_room {out name : List Char} (h : (encodeFrom out.length 0 name).length < out.length) :
    ∃ out', encodeFsNameInto out name = some out' ∧ out'.length = out.length ∧
      encodeFrom out.length 0 name ++ [nul] <+: out' := by
  obtain ⟨out1,hloop,hlen1,hpre1⟩ := encodeLoop_extends (List.nil_prefix (l := out)) name
  rw [List.length_nil,Nat.zero_add] at hloop
  rw [List.length_nil,List.nil_append] at hpre1
  obtain ⟨out',hstore,hlen,hpre⟩ := store_extends hpre1 (by rwa [hlen1]) nul
  refine ⟨out',?_,hlen.trans hlen1,hpre⟩
  rw [encodeFsNameInto,hloop,Option.bind_some]
  exact hstore

theorem encodeFsNameInto_eq_none {out name : List Char} (h : out.length ≤ (encodeFrom out.length 0 name).length) :
    encodeFsNameInto out name = none := by
  obtain ⟨out1,hloop,hlen1,-⟩ := encodeLoop_extends (List.nil_prefix (l := out)) name
  rw [List.length_nil,Nat.zero_add] at hloop
  rw [encodeFsNameInto,hloop,Option.bind_some]
  refine if_neg ?_
  rwa [hlen1,Nat.not_lt]

theorem encodeFrom_split (outsz j : ℕ) (name : List Char) :
    ∃ taken left, name = taken ++ left ∧ encodeFrom outsz j name = encoded taken ∧
      (∀ before c after, taken = before ++ c :: after → j+(encoded before).length+12 < outsz) ∧
      (left ≠ [] → outsz ≤ j+(encoded taken).length+12) := by
  induction name generalizing j with
  | nil => exact ⟨[],[],rfl,rfl,by simp,fun h => absurd rfl h⟩
  | cons c rest ih =>
    unfold encodeFrom
    by_cases hroom : j+12 < outsz
    · obtain ⟨taken,left,hname,htext,hbefore,hleft⟩ := ih (j+(spelled c).length)
      rw [if_pos hroom,htext]
      refine ⟨c :: taken,left,by rw [hname,List.cons_append],rfl,?_,?_⟩
      · intro before d after hsplit
        cases before with
        | nil => simpa using hroom
        | cons b before =>
          obtain ⟨rfl,hrest⟩ := List.cons_eq_cons.mp hsplit
          have h := hbefore before d after hrest
          rw [encoded_cons,List.length_append]
          omega
      · intro hne
        have h := hleft hne
        rw [encoded_cons,List.length_append]
        omega
    · rw [if_neg hroom]
      refine ⟨[],c :: rest,rfl,rfl,by simp,?_⟩
      intro _
      rw [encoded_nil,List.length_nil]
      omega

/-- The writes stay inside the output, which holds a terminated text afterwards: all of the encoded name if
that fits. -/
def Encodes (outsz : ℕ) (name : List Char) : Prop :=
  ∀ out : List Char, out.length = outsz → ∃ out' text, encodeFsNameInto out name = some out' ∧
    out'.length = outsz ∧ text ++ [nul] <+: out' ∧ ((encoded name).length < outsz → text = encoded name)

/-- No word of thirteen letters starts thirteen before the end of the output, and a name that fits fits even
if its last character had a word of thirteen letters. -/
def HasRoom (outsz : ℕ) (name : List Char) : Prop :=
  (∀ before c after, name = before ++ c :: after → (encoded before).length+13 = outsz → c ≠ '?' ∧ c ≠ ':') ∧
  ((encoded name).length < outsz → (encoded name.dropLast).length+13 ≤ outsz)

theorem nul_not_mem_encoded {name : List Char} (h : nul ∉ name) : nul ∉ encoded name := by
  have hword : ∀ c, nul ∈ spelled c → c = nul := by
    intro c hc
    unfold spelled at hc
    split at hc
    all_goals first | exact (List.mem_singleton.mp hc).symm | exact absurd hc (by decide)
  intro hmem
  obtain ⟨c,hc,hin⟩ := List.mem_flatMap.mp hmem
  exact h (hword c hin ▸ hc)

section Bounds
variable {outsz : ℕ} {name : List Char}

/-- The terminator has no room just when the last word taken has thirteen letters and starts thirteen before
the end. -/
theorem room_iff (houtsz : 13 ≤ outsz) : (encodeFrom outsz 0 name).length < outsz ↔
    ∀ before c after, name = before ++ c :: after → (encoded before).length+13 = outsz → c ≠ '?' ∧ c ≠ ':' := by
  obtain ⟨taken,left,hname,htext,hbefore,hleft⟩ := encodeFrom_split outsz 0 name
  rw [htext]
  constructor
  · intro hroom before c after hsplit hstart
    rw [← not_or,← thirteen_letters_iff]
    intro hword
    obtain ⟨more,hmore,htail⟩ | ⟨more,hmore,htail⟩ := List.append_eq_append_iff.mp (hname.symm.trans hsplit)
    · -- the loop has stopped before this character
      have hstop := hleft (by rw [htail]; simp)
      have hlen := congrArg (fun l => (encoded l).length) hmore
      simp only [encoded_append,List.length_append] at hlen
      omega
    · cases more with
      | nil =>
        rw [List.append_nil] at hmore
        rw [List.nil_append] at htail
        have hstop := hleft (by rw [← htail]; exact List.cons_ne_nil c after)
        rw [hmore] at hstop
        omega
      | cons d more =>
        obtain ⟨rfl,-⟩ := List.cons_eq_cons.mp htail
        have hlen := congrArg (fun l => (encoded l).length) hmore
        simp only [encoded_append,encoded_cons,List.length_append] at hlen
        omega
  · intro hcond
    by_contra hfull
    have hne : taken ≠ [] := by
      rintro rfl
      exact hfull (by rw [encoded_nil,List.length_nil]; omega)
    have hlast := List.dropLast_append_getLast hne
    have hstart := hbefore taken.dropLast (taken.getLast hne) [] hlast.symm
    have hword := (length_spelled (taken.getLast hne)).2
    have hlen := congrArg (fun l => (encoded l).length) hlast
    simp only [encoded_append,encoded_cons,encoded_nil,List.append_nil,List.length_append] at hlen
    have hsplit : name = taken.dropLast ++ taken.getLast hne :: left := by
      rw [hname]
      nth_rewrite 1 [← hlast]
      exact List.append_assoc _ _ left
    have hplain := hcond _ _ _ hsplit (by omega)
    rw [← not_or,← thirteen_letters_iff] at hplain
    omega

theorem taken_iff (houtsz : 13 ≤ outsz) :
    encodeFrom outsz 0 name = encoded name ↔ (encoded name.dropLast).length+13 ≤ outsz := by
  obtain ⟨taken,left,hname,htext,hbefore,hleft⟩ := encodeFrom_split outsz 0 name
  rw [htext]
  constructor
  · intro heq
    have hleftnil : left = [] := by
      cases left with
      | nil => rfl
      | cons c left =>
        have hlen := congrArg List.length heq
        rw [hname,encoded_append,encoded_cons,List.length_append,List.length_append] at hlen
        have hpos := (length_spelled c).1
        omega
    rw [hleftnil,List.append_nil] at hname
    rw [hname]
    by_cases hne : taken = []
    · rw [hne]
      exact houtsz
    · have hstart := hbefore taken.dropLast (taken.getLast hne) [] (List.dropLast_append_getLast hne).symm
      omega
  · intro hlast
    cases left with
    | nil => rw [hname,List.append_nil]
    | cons c left =>
      have hstop := hleft (List.cons_ne_nil c left)
      have hdrop : name.dropLast = taken ++ (c :: left).dropLast := by
        rw [hname,List.dropLast_append_of_ne_nil (List.cons_ne_nil c left)]
      rw [hdrop,encoded_append,List.length_append] at hlast
      omega

/-- For a name, which is a string of C, and an output of at least thirteen bytes. -/
theorem encodes_iff_hasRoom (houtsz : 13 ≤ outsz) (hname : nul ∉ name) : Encodes outsz name ↔ HasRoom outsz name := by
  have hroom : (encodeFrom outsz 0 name).length < outsz ↔ _ := room_iff houtsz
  have htaken : encodeFrom outsz 0 name = encoded name ↔ _ := taken_iff houtsz
  constructor
  · intro h
    have hlen : (List.replicate outsz nul).length = outsz := List.length_replicate
    obtain ⟨out',text,hsome,-,hpre,hfits⟩ := h (List.replicate outsz nul) hlen
    have hlt : (encodeFrom outsz 0 name).length < outsz := by
      by_contra hfull
      rw [encodeFsNameInto_eq_none (by rw [hlen]; omega)] at hsome
      cases hsome
    refine ⟨hroom.mp hlt,fun hfit => htaken.mp ?_⟩
    have hroom1 : (encodeFrom (List.replicate outsz nul).length 0 name).length < (List.replicate outsz nul).length := by
      rwa [hlen]
    obtain ⟨out1,hsome1,-,hpre1⟩ := encodeFsNameInto_of_room hroom1
    obtain rfl : out1 = out' := Option.some.inj (hsome1.symm.trans hsome)
    rw [hlen] at hpre1
    -- both texts end at the first terminator
    obtain ⟨taken,left,hsplit,htext,-,-⟩ := encodeFrom_split outsz 0 name
    have hnul : nul ∉ encodeFrom outsz 0 name := by
      rw [htext]
      apply nul_not_mem_encoded
      intro hmem
      exact hname (hsplit ▸ List.mem_append_left left hmem)
    rw [← upTo_front hpre1 hnul]
    rw [hfits hfit] at hpre
    exact upTo_front hpre (nul_not_mem_encoded hname)
  · rintro ⟨hwords,hlast⟩ out rfl
    obtain ⟨out',hsome,hlen,hpre⟩ := encodeFsNameInto_of_room (hroom.mpr hwords)
    exact ⟨out',_,hsome,hlen,hpre,fun hfit => htaken.mpr (hlast hfit)⟩

theorem encodes_iff_hasRoom_star : Encodes 40 ['a','*'] ↔ HasRoom 40 ['a','*'] :=
  encodes_iff_hasRoom (by decide) (by decide)

end Bounds

/-- Seven letters and a question mark in twenty bytes: the terminator is written behind them. -/
theorem not_encodes_qmark : ¬Encodes 20 ['a','b','c','d','e','f','g','?'] := by
  intro h
  obtain ⟨out',text,hsome,-⟩ := h (List.replicate 20 'x') rfl
  have hnone : encodeFsNameInto (List.replicate 20 'x') ['a','b','c','d','e','f','g','?'] = none := by decide
  rw [hnone] at hsome
  cases hsome

end Machismo.Sgr
