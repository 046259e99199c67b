import Machismo.A64.Memory
import Machismo.Data.Bisect

/-! # Symbols by address

`gdb_jit_lookup_addr` over the symbol tables that are kept for it. A table is sorted when it is saved; `NULL`
for its symbols is a table without any.
-/
namespace Machismo.GdbJit
open A64 Data.Bisect

/-- `struct macho_sym`, without the mark of functions that nothing reads. -/
structure MachoSym where
  addr : Addr
  strtabOffset : BitVec 32
  deriving DecidableEq

structure SymtabEntry where
  syms : List MachoSym
  sorted : syms.Pairwise fun a b => a.addr ≤ b.addr

/-- A name is where it starts: in the strings of which table, and at what offset. -/
structure NamePtr where
  table : ℕ
  offset : BitVec 32
  deriving DecidableEq

namespace SymtabEntry
variable (st : SymtabEntry)

/-- `syms[i].addr`; the search stays inside of the table. -/
def addrAt (i : ℤ) : Addr := (st.syms[i.toNat]?.map MachoSym.addr).getD 0

/-- The binary search, -1 where every symbol starts above the address. -/
def search (addr : Addr) : ℤ := lastFrom (fun mid => st.addrAt mid ≤ addr) 0 (st.syms.length-1) (-1)

/-- Where the last symbol of the table is taken to end, in the 64 bits of the address. -/
def upper (idx : ℕ) (sym : MachoSym) : Addr :=
  match st.syms[idx+1]? with
  | some next => next.addr
  | none => sym.addr + 0x100000

def closest (addr : Addr) : Option MachoSym :=
  if st.syms.isEmpty then none
  else
    let idx := st.search addr
    if idx < 0 then none
    else
      match st.syms[idx.toNat]? with
      | none => none
      | some sym => if st.upper idx.toNat sym ≤ addr then none else some sym

end SymtabEntry

/-- `best_name` and `best_addr` -/
structure Best where
  name : Option NamePtr
  addr : Addr

def visit (addr : Addr) (best : Best) (entry : SymtabEntry × ℕ) : Best :=
  match entry.1.closest addr with
  | none => best
  | some sym => if best.addr < sym.addr then ⟨some ⟨entry.2,sym.strtabOffset⟩,sym.addr⟩ else best

def gdbJitLookupAddr (saved : List SymtabEntry) (addr : Addr) : Option NamePtr :=
  (saved.zipIdx.foldl (visit addr) ⟨none,0⟩).name

namespace SymtabEntry
variable (st : SymtabEntry) (addr : Addr)

/-- The address lies before the next symbol, or within 1 MB of the last one. -/
def Reaches : Prop :=
  (∃ next ∈ st.syms, addr < next.addr) ∨
    ∃ last, st.syms.getLast? = some last ∧ addr.toNat < last.addr.toNat + 0x100000

/-- One of the symbols that a scan chooses from. -/
structure Qualifies (s : MachoSym) : Prop where
  mem : s ∈ st.syms
  le : s.addr ≤ addr
  reaches : st.Reaches addr

end SymtabEntry

/-- A symbol with the greatest start of all that qualify. -/
structure Greatest (saved : List SymtabEntry) (addr : Addr) (st : SymtabEntry) (s : MachoSym) : Prop where
  qualifies : st.Qualifies addr s
  greatest : ∀ st' ∈ saved, ∀ s', st'.Qualifies addr s' → s'.addr ≤ s.addr

/-- The name of a symbol with the greatest start, and `NULL` where there is none. -/
def RightAnswer (saved : List SymtabEntry) (addr : Addr) : Option NamePtr → Prop
  | none => ∀ st ∈ saved, ∀ s, ¬st.Qualifies addr s
  | some name => ∃ st s, saved[name.table]? = some st ∧ Greatest saved addr st s ∧ name.offset = s.strtabOffset

/-- If a symbol qualifies, one with the greatest start is not at address 0 and, where it is the last one that a
table has, the megabyte behind its start ends within the 64 bits. -/
def Visible (saved : List SymtabEntry) (addr : Addr) : Prop :=
  (∀ st ∈ saved, ∀ s, ¬st.Qualifies addr s) ∨
    ∃ st ∈ saved, ∃ s, Greatest saved addr st s ∧ s.addr ≠ 0 ∧
      ((∃ next ∈ st.syms, addr < next.addr) ∨ s.addr.toNat + 0x100000 < 2^64)

namespace SymtabEntry
variable {st : SymtabEntry} {addr : Addr} {i j : ℕ} {s s' : MachoSym}

theorem addr_mono (hi : st.syms[i]? = some s) (hj : st.syms[j]? = some s') (hij : i ≤ j) : s.addr ≤ s'.addr := by
  obtain hlt | rfl := Nat.lt_or_eq_of_le hij
  · obtain ⟨hi',rfl⟩ := List.getElem?_eq_some_iff.mp hi
    obtain ⟨hj',rfl⟩ := List.getElem?_eq_some_iff.mp hj
    exact List.pairwise_iff_getElem.mp st.sorted i j hi' hj' hlt
  · rw [Option.some.inj (hi.symm.trans hj)]
    exact BitVec.le_refl _

/-- Exactly the symbols up to the place that the search finds start not above the address. -/
theorem search_spec (st : SymtabEntry) (addr : Addr) : -1 ≤ st.search addr ∧ st.search addr < st.syms.length ∧
    ∀ (i : ℕ) s, st.syms[i]? = some s → (s.addr ≤ addr ↔ (i : ℤ) ≤ st.search addr) := by
  have hplace : ∀ (i : ℕ) s, st.syms[i]? = some s → st.addrAt i = s.addr := by
    intro i s hi
    rw [addrAt,Int.toNat_natCast,hi]
    rfl
  have hdown : ∀ i j : ℤ, 0 ≤ i → i ≤ j → j ≤ (st.syms.length : ℤ)-1 →
      decide (st.addrAt j ≤ addr) = true → decide (st.addrAt i ≤ addr) = true := by
    intro i j hi hij hj hle
    obtain ⟨i,rfl⟩ := Int.eq_ofNat_of_zero_le hi
    obtain ⟨j,rfl⟩ := Int.eq_ofNat_of_zero_le (hi.trans hij)
    have hsi := List.getElem?_eq_getElem (show i < st.syms.length by omega)
    have hsj := List.getElem?_eq_getElem (show j < st.syms.length by omega)
    rw [decide_eq_true_iff,hplace j _ hsj] at hle
    rw [decide_eq_true_iff,hplace i _ hsi]
    exact BitVec.le_trans (addr_mono hsi hsj (by omega)) hle
  obtain ⟨hlow,hhigh,hsplit⟩ := lastFrom_spec (by omega) hdown
  rw [zero_sub] at hlow hhigh hsplit
  refine ⟨hlow,by rw [search]; omega,fun i s hi => ?_⟩
  have hlt := (List.getElem?_eq_some_iff.mp hi).1
  rw [search,← hsplit i (by omega) (by omega),decide_eq_true_iff,hplace i s hi]

/-- What the table has for the address, with the megabyte in the 64 bits of the address. -/
structure Sees (st : SymtabEntry) (addr : Addr) (s : MachoSym) : Prop where
  mem : s ∈ st.syms
  le : s.addr ≤ addr
  last : ∀ s' ∈ st.syms, s'.addr ≤ addr → s'.addr ≤ s.addr
  reaches : (∃ next ∈ st.syms, addr < next.addr) ∨
    addr.toNat < s.addr.toNat + 0x100000 ∧ s.addr.toNat + 0x100000 < 2^64

/-- The end of a table's symbol is above the address where the next one starts there, or the megabyte ends there
without leaving the 64 bits. -/
theorem upper_le_iff (hi : st.syms[i]? = some s) (hle : s.addr ≤ addr)
    (hnext : ∀ next, st.syms[i+1]? = some next → addr < next.addr) :
    st.upper i s ≤ addr ↔ ¬((∃ next ∈ st.syms, addr < next.addr) ∨
      addr.toNat < s.addr.toNat + 0x100000 ∧ s.addr.toNat + 0x100000 < 2^64) := by
  unfold upper
  cases hsucc : st.syms[i+1]? with
  | some next =>
    have habove := hnext next hsucc
    refine iff_of_false (BitVec.not_le.mpr habove) (not_not_intro (.inl ⟨next,?_,habove⟩))
    exact List.mem_of_getElem? hsucc
  | none =>
    -- the symbol is the last one, and no other starts above the address
    have hlast : ∀ next ∈ st.syms, ¬addr < next.addr := by
      intro next hmem habove
      obtain ⟨j,hj⟩ := List.mem_iff_getElem?.mp hmem
      have hji : j ≤ i := by
        have hlen := List.getElem?_eq_none_iff.mp hsucc
        have hlt := (List.getElem?_eq_some_iff.mp hj).1
        omega
      exact absurd (BitVec.le_trans (addr_mono hj hi hji) hle) (BitVec.not_le.mpr habove)
    have hnone : ¬∃ next ∈ st.syms, addr < next.addr := fun ⟨next,hmem,habove⟩ => hlast next hmem habove
    rw [or_iff_right hnone]
    dsimp only
    have hs := s.addr.isLt
    have ha := addr.isLt
    rw [BitVec.le_def] at hle ⊢
    rw [BitVec.toNat_add,show (0x100000 : Addr).toNat = 0x100000 from rfl]
    omega

theorem search_none (h : st.search addr < 0) (hmem : s ∈ st.syms) : ¬s.addr ≤ addr := by
  obtain ⟨-,-,hplaces⟩ := st.search_spec addr
  obtain ⟨j,hj⟩ := List.mem_iff_getElem?.mp hmem
  rw [hplaces j s hj]
  omega

theorem search_some (h : ¬st.search addr < 0) : ∃ (i : ℕ) (s : MachoSym), st.search addr = i ∧ st.syms[i]? = some s ∧
    s.addr ≤ addr ∧ (∀ s' ∈ st.syms, s'.addr ≤ addr → s'.addr ≤ s.addr) ∧
      ∀ next, st.syms[i+1]? = some next → addr < next.addr := by
  obtain ⟨-,hhigh,hplaces⟩ := st.search_spec addr
  obtain ⟨i,hi⟩ := Int.eq_ofNat_of_zero_le (Int.not_lt.mp h)
  rw [hi] at hhigh hplaces
  have hsym := List.getElem?_eq_getElem (show i < st.syms.length by omega)
  refine ⟨i,_,hi,hsym,(hplaces i _ hsym).mpr le_rfl,fun s' hmem hle => ?_,fun next hnext => ?_⟩
  · obtain ⟨j,hj⟩ := List.mem_iff_getElem?.mp hmem
    have hji := (hplaces j s' hj).mp hle
    exact addr_mono hj hsym (by omega)
  · rw [← BitVec.not_le,hplaces (i+1) next hnext]
    omega

theorem closest_spec (st : SymtabEntry) (addr : Addr) :
    (∃ s, st.closest addr = some s ∧ st.Sees addr s) ∨ st.closest addr = none ∧ ∀ s, ¬st.Sees addr s := by
  unfold closest
  by_cases hempty : st.syms.isEmpty
  · rw [if_pos hempty]
    refine .inr ⟨rfl,fun s hsees => ?_⟩
    exact absurd (List.isEmpty_iff.mp hempty ▸ hsees.mem) List.not_mem_nil
  rw [if_neg hempty]
  dsimp only
  by_cases hneg : st.search addr < 0
  · rw [if_pos hneg]
    exact .inr ⟨rfl,fun s hsees => search_none hneg hsees.mem hsees.le⟩
  · rw [if_neg hneg]
    obtain ⟨i,s,hi,hsym,hle,hlast,hnext⟩ := search_some hneg
    have hmem := List.mem_of_getElem? hsym
    rw [hi,Int.toNat_natCast,hsym]
    dsimp only
    by_cases hupper : st.upper i s ≤ addr
    · rw [if_pos hupper]
      refine .inr ⟨rfl,fun s' hsees => (upper_le_iff hsym hle hnext).mp hupper ?_⟩
      have hsame : s'.addr = s.addr := BitVec.le_antisymm (hlast s' hsees.mem hsees.le) (hsees.last s hmem hle)
      exact hsame ▸ hsees.reaches
    · rw [if_neg hupper]
      have hreaches := not_not.mp ((upper_le_iff hsym hle hnext).not.mp hupper)
      exact .inl ⟨s,rfl,hmem,hle,hlast,hreaches⟩

theorem sees_of_closest (h : st.closest addr = some s) : st.Sees addr s := by
  obtain ⟨s',hs',hsees⟩ | ⟨hnone,-⟩ := st.closest_spec addr
  · exact Option.some.inj (hs'.symm.trans h) ▸ hsees
  · exact nomatch hnone.symm.trans h

theorem le_last {last : MachoSym} (hmem : s ∈ st.syms) (hlast : st.syms.getLast? = some last) : s.addr ≤ last.addr := by
  obtain ⟨j,hj⟩ := List.mem_iff_getElem?.mp hmem
  rw [List.getLast?_eq_getElem?] at hlast
  have hlt := (List.getElem?_eq_some_iff.mp hj).1
  exact addr_mono hj hlast (by omega)

theorem Sees.qualifies (h : st.Sees addr s) : st.Qualifies addr s := by
  refine ⟨h.mem,h.le,?_⟩
  obtain hnext | ⟨hlt,-⟩ := h.reaches
  · exact .inl hnext
  · right
    cases hlast : st.syms.getLast? with
    | none => exact absurd (List.getLast?_eq_none_iff.mp hlast ▸ h.mem) List.not_mem_nil
    | some last =>
      have hle := BitVec.le_def.mp (le_last h.mem hlast)
      exact ⟨last,rfl,by omega⟩

end SymtabEntry

/-- The search sees a symbol with the greatest start if the end of its megabyte is an address. -/
theorem Greatest.sees {saved : List SymtabEntry} {addr : Addr} {st : SymtabEntry} {s : MachoSym}
    (h : Greatest saved addr st s) (hst : st ∈ saved)
    (hend : (∃ next ∈ st.syms, addr < next.addr) ∨ s.addr.toNat + 0x100000 < 2^64) : st.Sees addr s := by
  have hlast : ∀ s' ∈ st.syms, s'.addr ≤ addr → s'.addr ≤ s.addr := fun s' hmem hle =>
    h.greatest st hst s' ⟨hmem,hle,h.qualifies.reaches⟩
  refine ⟨h.qualifies.mem,h.qualifies.le,hlast,?_⟩
  by_cases hnext : ∃ next ∈ st.syms, addr < next.addr
  · exact .inl hnext
  · obtain ⟨last,hgetLast,hlt⟩ := h.qualifies.reaches.resolve_left hnext
    have hmem := List.mem_of_getLast? hgetLast
    have hle := BitVec.le_def.mp (hlast last hmem (BitVec.not_lt.mp fun habove => hnext ⟨last,hmem,habove⟩))
    exact .inr ⟨by omega,hend.resolve_left hnext⟩

/-- What is kept of the tables that have been visited. -/
structure Kept (addr : Addr) (visited : List (SymtabEntry × ℕ)) (best : Best) : Prop where
  bound : ∀ entry ∈ visited, ∀ s, entry.1.closest addr = some s → s.addr ≤ best.addr
  missing : best.name = none → best.addr = 0
  named : ∀ name, best.name = some name → best.addr ≠ 0 ∧ ∃ entry ∈ visited, ∃ s, entry.1.closest addr = some s ∧
    name = ⟨entry.2,s.strtabOffset⟩ ∧ best.addr = s.addr

theorem visit_kept {addr : Addr} {visited : List (SymtabEntry × ℕ)} {best : Best} (h : Kept addr visited best)
    (entry : SymtabEntry × ℕ) : Kept addr (visited ++ [entry]) (visit addr best entry) := by
  have hold : ∀ entry' ∈ visited, entry' ∈ visited ++ [entry] := fun _ => List.mem_append_left _
  have hlast : entry ∈ visited ++ [entry] := List.mem_append_right _ (List.mem_singleton_self _)
  unfold visit
  cases hclosest : entry.1.closest addr with
  | none =>
    refine ⟨fun entry' hmem s hs => ?_,h.missing,fun name hname => ?_⟩
    · rcases List.mem_append.mp hmem with hmem | hmem
      · exact h.bound entry' hmem s hs
      · rw [List.mem_singleton.mp hmem,hclosest] at hs
        exact nomatch hs
    · obtain ⟨hne,entry',hmem,hrest⟩ := h.named name hname
      exact ⟨hne,entry',hold entry' hmem,hrest⟩
  | some sym =>
    have hbound : ∀ x : Addr, best.addr ≤ x → sym.addr ≤ x → ∀ entry' ∈ visited ++ [entry], ∀ s,
        entry'.1.closest addr = some s → s.addr ≤ x := by
      intro x hbest hsym entry' hmem s hs
      rcases List.mem_append.mp hmem with hmem | hmem
      · exact BitVec.le_trans (h.bound entry' hmem s hs) hbest
      · rw [List.mem_singleton.mp hmem,hclosest] at hs
        exact Option.some.inj hs ▸ hsym
    dsimp only
    by_cases hcloser : best.addr < sym.addr
    · rw [if_pos hcloser]
      refine ⟨hbound _ (BitVec.le_of_lt hcloser) (BitVec.le_refl _),nofun,fun name hname => ?_⟩
      have hpos : sym.addr ≠ 0 := fun h0 => absurd (h0 ▸ hcloser) BitVec.not_lt_zero
      exact ⟨hpos,entry,hlast,sym,hclosest,(Option.some.inj hname).symm,rfl⟩
    · rw [if_neg hcloser]
      refine ⟨hbound _ (BitVec.le_refl _) (BitVec.not_lt.mp hcloser),h.missing,fun name hname => ?_⟩
      obtain ⟨hne,entry',hmem,hrest⟩ := h.named name hname
      exact ⟨hne,entry',hold entry' hmem,hrest⟩

theorem foldl_visit_kept (addr : Addr) (entries : List (SymtabEntry × ℕ)) :
    Kept addr entries (entries.foldl (visit addr) ⟨none,0⟩) := by
  induction entries using List.reverseRecOn with
  | nil => exact ⟨nofun,fun _ => rfl,nofun⟩
  | append_singleton entries entry ih =>
    rw [List.foldl_append]
    exact visit_kept ih entry

theorem Kept.named_sees {saved : List SymtabEntry} {addr : Addr} {best : Best} (h : Kept addr saved.zipIdx best)
    {name : NamePtr} (hname : best.name = some name) : best.addr ≠ 0 ∧ ∃ st s, saved[name.table]? = some st ∧
      st.Sees addr s ∧ name.offset = s.strtabOffset ∧ best.addr = s.addr := by
  obtain ⟨hne,⟨st,t⟩,hmem,s,hclosest,rfl,hbest⟩ := h.named name hname
  exact ⟨hne,st,s,List.mem_zipIdx_iff_getElem?.mp hmem,SymtabEntry.sees_of_closest hclosest,rfl,hbest⟩

/-- The lookup is right exactly where the greatest start can be told from no start at all, and the end of its
megabyte is an address. -/
theorem gdbJitLookupAddr_right_iff (saved : List SymtabEntry) (addr : Addr) :
    RightAnswer saved addr (gdbJitLookupAddr saved addr) ↔ Visible saved addr := by
  have hkept := foldl_visit_kept addr saved.zipIdx
  unfold gdbJitLookupAddr
  generalize saved.zipIdx.foldl (visit addr) ⟨none,0⟩ = best at hkept ⊢
  constructor
  · intro hright
    cases hname : best.name with
    | none =>
      rw [hname] at hright
      exact .inl hright
    | some name =>
      rw [hname] at hright
      obtain ⟨st,s,hst,hgreatest,-⟩ := hright
      obtain ⟨hne,st',s',hst',hsees,-,hbest⟩ := hkept.named_sees hname
      obtain rfl : st = st' := Option.some.inj (hst.symm.trans hst')
      have hle := hsees.last s hgreatest.qualifies.mem hgreatest.qualifies.le
      refine .inr ⟨st,List.mem_of_getElem? hst,s',⟨hsees.qualifies,fun st₂ hst₂ s₂ hs₂ => ?_⟩,hbest ▸ hne,
        hsees.reaches.imp_right And.right⟩
      exact BitVec.le_trans (hgreatest.greatest st₂ hst₂ s₂ hs₂) hle
  · rintro (hnothing | ⟨st,hst,s,hgreatest,hne,hend⟩)
    · cases hname : best.name with
      | none => exact hnothing
      | some name =>
        obtain ⟨-,st,s,hst,hsees,-⟩ := hkept.named_sees hname
        exact absurd hsees.qualifies (hnothing st (List.mem_of_getElem? hst) s)
    · have hsees := hgreatest.sees hst hend
      obtain ⟨t,ht⟩ := List.mem_iff_getElem?.mp hst
      -- what the table has starts where the greatest one does
      obtain ⟨s₁,hclosest,hsees₁⟩ | ⟨-,hnot⟩ := st.closest_spec addr
      · have hle : s.addr ≤ best.addr := BitVec.le_trans (hsees₁.last s hsees.mem hsees.le)
          (hkept.bound (st,t) (List.mem_zipIdx_iff_getElem?.mpr ht) s₁ hclosest)
        cases hname : best.name with
        | none =>
          rw [hkept.missing hname] at hle
          exact absurd (BitVec.le_zero_iff.mp hle) hne
        | some name =>
          obtain ⟨-,st',s',hst',hsees',hoffset,hbest⟩ := hkept.named_sees hname
          refine ⟨st',s',hst',⟨hsees'.qualifies,fun st₂ hst₂ s₂ hs₂ => ?_⟩,hoffset⟩
          exact hbest ▸ BitVec.le_trans (hgreatest.greatest st₂ hst₂ s₂ hs₂) hle
      · exact absurd hsees (hnot s)

/-- One symbol, at address 0. -/
def symbolAtZero : SymtabEntry := ⟨[⟨0,1⟩],List.pairwise_singleton _ _⟩

/-- It is the symbol of the address, and the answer is `NULL`. -/
theorem not_rightAnswer_zero : ¬∀ saved addr, RightAnswer saved addr (gdbJitLookupAddr saved addr) := by
  intro hright
  have hanswer := hright [symbolAtZero] 0x10
  have hsearch : symbolAtZero.search 0x10 = 0 := by
    unfold SymtabEntry.search lastFrom lastFrom
    decide
  have hclosest : symbolAtZero.closest 0x10 = some ⟨0,1⟩ := by
    rw [SymtabEntry.closest,hsearch]
    rfl
  have hnull : gdbJitLookupAddr [symbolAtZero] 0x10 = none := by
    rw [gdbJitLookupAddr,List.zipIdx_singleton,List.foldl_cons,visit,hclosest]
    rfl
  rw [hnull] at hanswer
  exact hanswer symbolAtZero (List.mem_singleton_self _) ⟨0,1⟩ ⟨by decide,by decide,.inr ⟨⟨0,1⟩,rfl,by decide⟩⟩

end Machismo.GdbJit
