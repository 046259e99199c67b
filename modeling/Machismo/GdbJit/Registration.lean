import Machismo.GdbJit.SymFileReads
import Machismo.Data.Linked

/-! # What the debugger gets

The debugger walks the list of entries that `__jit_debug_descriptor` begins, and reads the symbol file
of each. Over any sequence of registrations it finds there every image that has been registered, the
last one first, with exactly the function symbols that its table has.
-/
namespace Machismo.GdbJit
open A64 Data Loader Elf

namespace Tables
variable {T : Tables} {m : Memory}

/-- The function symbols of a table of `n` entries from `a` on, in their order. -/
def textSymbols (T : Tables) (m : Memory) (n : ℕ) (a : Addr) : Option (List (Addr × List Byte)) :=
  ((List.range n).mapM fun i => T.keep m (nlistAt m (a + BitVec.ofNat 64 (16*i)))).map List.reduceOption

theorem textSymbols_succ (n : ℕ) (a : Addr) : T.textSymbols m (n + 1) a =
    (T.keep m (nlistAt m a)).bind fun s => (T.textSymbols m n (a + 16)).map (s.toList ++ ·) := by
  have hplace : ∀ i, a + BitVec.ofNat 64 (16*(i + 1)) = a + 16 + BitVec.ofNat 64 (16*i) := by
    intro i
    rw [Nat.mul_succ,Nat.add_comm,BitVec.ofNat_add,BitVec.add_assoc]
    rfl
  have hzero : a + BitVec.ofNat 64 (16*0) = a := BitVec.add_zero a
  rw [textSymbols,mapM_range_succ,hzero]
  cases T.keep m (nlistAt m a) with
  | none => rfl
  | some s =>
    simp only [hplace,Option.bind_some,textSymbols,Option.map_map]
    have hcons : (List.reduceOption ∘ (s :: ·)) = (s.toList ++ ·) ∘ List.reduceOption := by
      funext l
      cases s with
      | none => rfl
      | some p => rfl
    rw [hcons]

theorem zero_notMem_cString {n : ℕ} {a : Addr} {s : List Byte} (h : cString m n a = some s) : 0 ∉ s := by
  induction n generalizing a s with
  | zero => cases h
  | succ n ih =>
    rw [cString] at h
    split at h
    next =>
      obtain rfl := Option.some.inj h
      exact List.not_mem_nil
    next hne =>
      obtain ⟨rest,hrest,rfl⟩ := Option.map_eq_some_iff.mp h
      exact List.not_mem_cons_of_ne_of_not_mem (fun heq => hne heq.symm) (ih hrest)

theorem zero_notMem_keep {nl : Nlist} {s : Addr × List Byte} (h : T.keep m nl = some (some s)) : 0 ∉ s.2 := by
  unfold keep at h
  split_ifs at h
  any_goals cases h
  obtain ⟨name,hname,heq⟩ := Option.map_eq_some_iff.mp h
  obtain rfl := Option.some.inj heq
  exact zero_notMem_cString hname

/-- A symbol has the address of an entry, and its name in the strings. -/
def Named (strtab : List Byte) (sym : MachoSym) (s : Addr × List Byte) : Prop :=
  sym.addr = s.1 ∧ symbolName strtab sym = some s.2

theorem named_new {strtab : List Byte} {addr : Addr} {name : List Byte} (hname : 0 ∉ name) {final : List Byte}
    (hpre : strtab ++ (name ++ [0]) <+: final) (hlen : final.length < 2^32) :
    Named final ⟨addr,BitVec.ofNat 32 strtab.length⟩ (addr,name) := by
  obtain ⟨rest,rfl⟩ := hpre
  simp only [List.length_append,List.length_singleton] at hlen
  have hoff : (BitVec.ofNat 32 strtab.length).toNat = strtab.length := Nat.mod_eq_of_lt (by omega)
  refine ⟨rfl,?_⟩
  rw [symbolName,hoff,List.append_assoc,List.append_assoc]
  exact readString_at hname (by simp)

theorem collectSymbols_named {n size : ℕ} {a : Addr} {strtab strtab' : ElfWriter} {syms syms' : List MachoSym}
    (h : T.collectSymbols m n a size strtab syms = some (strtab',syms')) (hlen : strtab'.length < 2^32) :
    strtab <+: strtab' ∧ ∃ new named, syms' = syms ++ new ∧ T.textSymbols m n a = some named ∧
      List.Forall₂ (Named strtab') new named := by
  induction n generalizing a size strtab syms with
  | zero =>
    obtain ⟨rfl,rfl⟩ := Prod.mk.inj (Option.some.inj h)
    exact ⟨List.prefix_rfl,[],[],by simp,rfl,.nil⟩
  | succ n ih =>
    rw [collectSymbols] at h
    rw [textSymbols_succ]
    split at h
    next => cases h
    next hskip =>
      obtain ⟨hpre,new,named,hnew,hnamed,hall⟩ := ih h
      exact ⟨hpre,new,named,hnew,by rw [hskip,Option.bind_some,hnamed]; rfl,hall⟩
    next addr name hkeep =>
      split at h
      next => cases h
      next =>
      obtain ⟨hpre,new,named,hnew,hnamed,hall⟩ := ih h
      refine ⟨(List.prefix_append _ _).trans hpre,⟨addr,BitVec.ofNat 32 strtab.length⟩ :: new,(addr,name) :: named,
        ?_,by rw [hkeep,Option.bind_some,hnamed]; rfl,.cons (named_new (zero_notMem_keep hkeep) hpre hlen) hall⟩
      rw [hnew,List.append_assoc]
      rfl

/-- What the names of symbols take in the strings. -/
def nameBytes (symbols : List (Addr × List Byte)) : List Byte := symbols.flatMap fun s => s.2 ++ [0]

theorem ewGrow_pow {k j needed : ℕ} (hj : j ≤ 30) (hk : 31 ≤ k + j) (h : needed ≤ 2^30) :
    ∃ i ≤ 30, ewGrow k (2^j) needed = some (2^i) := by
  induction k generalizing j with
  | zero => omega
  | succ k ih =>
    rw [ewGrow]
    split_ifs with hroom hint
    · exact ⟨j,hj,rfl⟩
    · have hmore : 2^30 ≤ 2^j := by omega
      omega
    · have hsmall : j < 30 := by
        by_contra hbig
        have hj : j = 30 := by omega
        exact hroom (hj ▸ h)
      rw [← Nat.pow_succ']
      exact ih (by omega) (by omega)

theorem collectSymbols_isSome {n j : ℕ} {a : Addr} {strtab : ElfWriter} {syms : List MachoSym}
    {symbols : List (Addr × List Byte)} (hj : j ≤ 30) (hsymbols : T.textSymbols m n a = some symbols)
    (hfit : (strtab ++ nameBytes symbols).length ≤ 2^30) :
    ∃ syms', T.collectSymbols m n a (2^j) strtab syms = some (strtab ++ nameBytes symbols,syms') ∧
      syms'.length = syms.length + symbols.length := by
  induction n generalizing a j strtab syms symbols with
  | zero =>
    obtain rfl := Option.some.inj hsymbols
    exact ⟨syms,by rw [collectSymbols,nameBytes]; simp,rfl⟩
  | succ n ih =>
    rw [textSymbols_succ] at hsymbols
    obtain ⟨s,hkeep,hmap⟩ := Option.bind_eq_some_iff.mp hsymbols
    obtain ⟨rest,hrest,rfl⟩ := Option.map_eq_some_iff.mp hmap
    rw [collectSymbols,hkeep]
    cases s with
    | none => exact ih hj hrest hfit
    | some s =>
      obtain ⟨addr,name⟩ := s
      have hbytes : strtab ++ nameBytes ((addr,name) :: rest) = strtab ++ (name ++ [0]) ++ nameBytes rest := by
        simp [nameBytes]
      rw [Option.toList_some,List.singleton_append,hbytes] at hfit ⊢
      have hneeded : strtab.length + (name.length + 1) ≤ 2^30 := by
        simp only [List.length_append,List.length_singleton] at hfit
        omega
      obtain ⟨i,hi,hgrow⟩ := ewGrow_pow (k := 31) hj (by omega) hneeded
      obtain ⟨syms',hcollect,hlen⟩ := @ih i _ _ (syms ++ [⟨addr,BitVec.ofNat 32 strtab.length⟩]) _ hi hrest hfit
      have hcount : syms'.length = syms.length + (rest.length + 1) := by
        rw [hlen,List.length_append,List.length_singleton,Nat.add_right_comm,Nat.add_assoc]
      simp only [hgrow]
      exact ⟨syms',hcollect,hcount⟩

end Tables

/-- `qsort` by address, which may order symbols of one address as it likes. -/
def SortsByAddress (qsort : List MachoSym → List MachoSym) : Prop :=
  ∀ l, (qsort l).Perm l ∧ (qsort l).Pairwise fun a b => a.addr ≤ b.addr

/-- What is registered of an image shows its function symbols in the order of their addresses, to the
debugger and to the lookups of this process. -/
structure Shows (m : Memory) (cmds : List Command) (slide : Addr) (r : Registration) (T : Tables)
    (sorted : List (Addr × List Byte)) : Prop where
  found : findTables cmds slide = .ok T
  symbols : ∃ symbols, T.textSymbols m T.nsyms.toNat T.nlist = some symbols ∧ sorted.Perm symbols
  ascending : sorted.Pairwise fun a b => a.1 ≤ b.1
  view : Elf.read r.symfile = some ⟨sectionNames,T.functions sorted⟩
  named : List.Forall₂ (Tables.Named r.strtab) r.syms sorted
  size : r.symfile.length + 64 < 2^31

theorem addresses_of_named {strtab : List Byte} {syms : List MachoSym} {named : List (Addr × List Byte)}
    (h : List.Forall₂ (Tables.Named strtab) syms named) : syms.map MachoSym.addr = named.map Prod.fst := by
  induction h with
  | nil => rfl
  | cons hsym _ ih => rw [List.map_cons,List.map_cons,hsym.1,ih]

theorem pairwise_of_named {strtab : List Byte} {syms : List MachoSym} {named : List (Addr × List Byte)}
    (h : List.Forall₂ (Tables.Named strtab) syms named) (hsorted : syms.Pairwise fun a b => a.addr ≤ b.addr) :
    named.Pairwise fun a b => a.1 ≤ b.1 := by
  have haddr : (syms.map MachoSym.addr).Pairwise (· ≤ ·) := List.pairwise_map.mpr hsorted
  rw [addresses_of_named h] at haddr
  exact List.pairwise_map.mp haddr

theorem registration_shows {qsort : List MachoSym → List MachoSym} (hqsort : SortsByAddress qsort) {m : Memory}
    {cmds : List Command} {slide : Addr} {r : Registration}
    (h : gdbJitRegisterMacho qsort m cmds slide = some (.ok r)) : ∃ T sorted, Shows m cmds slide r T sorted := by
  rw [gdbJitRegisterMacho] at h
  split at h
  next => cases h
  next T hfound =>
    split at h
    next => cases h
    next strtab syms hcollect =>
      split_ifs at h with hnone hsize
      · cases h
      · obtain rfl := Except.ok.inj (Option.some.inj h)
        obtain ⟨hperm,hsorted⟩ := hqsort syms
        rw [← hperm.length_eq] at hsize
        have hoff := shdrOffset_bounds (qsort syms).length strtab.length
        have hlen : (T.symFile strtab (qsort syms)).length = shdrOffset (qsort syms).length strtab.length + 5*64 :=
          length_symFile (by omega)
        obtain ⟨-,new,symbols,hnew,hsymbols,hall⟩ := Tables.collectSymbols_named hcollect (by omega)
        rw [List.nil_append] at hnew
        subst hnew
        obtain ⟨sorted,hnamed,hsame⟩ := List.perm_comp_forall₂ hperm hall
        exact ⟨T,sorted,hfound,⟨symbols,hsymbols,hsame⟩,pairwise_of_named hnamed hsorted,
          read_symFile (by omega) hnamed,hnamed,by dsimp only; omega⟩

/-- `struct jit_code_entry`, with the bytes of its symbol file. -/
structure JitCodeEntry where
  next : Addr
  prev : Addr
  symfile : List Byte

/-- `__jit_debug_descriptor` with the entries that are there, and the tables that are kept for lookups. -/
structure Jit where
  entries : Addr → Option JitCodeEntry
  firstEntry : Addr
  relevantEntry : Addr
  actionFlag : ℕ
  savedSymtabs : List (List MachoSym × List Byte)

def maxSymtabs : ℕ := 9

/-- An image to be registered, and where `malloc` puts its entry, which is 0 if it fails. -/
structure LoadedImage where
  mem : Memory
  cmds : List Command
  slide : Addr
  entry : Addr

namespace Jit
variable (s : Jit) (qsort : List MachoSym → List MachoSym)

def start : Jit := ⟨fun _ => none,0,0,0,[]⟩

def next (a : Addr) : Option Addr := (s.entries a).map JitCodeEntry.next
def prev (a : Addr) : Option Addr := (s.entries a).map JitCodeEntry.prev

/-- The notification is about the entry at `a`, with `JIT_REGISTER_FN`. -/
def notify (a : Addr) (entries : Addr → Option JitCodeEntry) : Jit :=
  { s with entries := entries, firstEntry := a, relevantEntry := a, actionFlag := 1 }

def link (a : Addr) (symfile : List Byte) : Option Jit :=
  let entries := Function.update s.entries a (some ⟨s.firstEntry,0,symfile⟩)
  if s.firstEntry = 0 then some (s.notify a entries)
  else
    match entries s.firstEntry with
    | none => none
    | some first => some (s.notify a (Function.update entries s.firstEntry (some { first with prev := a })))

def save (syms : List MachoSym) (strtab : List Byte) : Jit :=
  if s.savedSymtabs.length < maxSymtabs then { s with savedSymtabs := s.savedSymtabs ++ [(syms,strtab)] } else s

def register (x : LoadedImage) : Option (ℤ × Jit) :=
  match gdbJitRegisterMacho qsort x.mem x.cmds x.slide with
  | none => none
  | some (.error _) => some (-1,s)
  | some (.ok r) =>
    if x.entry = 0 then some (-1,s)
    else (s.link x.entry r.symfile).map fun s' => (r.syms.length,s'.save r.syms r.strtab)

def run (s : Jit) : List LoadedImage → Option Jit
  | [] => some s
  | x :: xs =>
    match s.register qsort x with
    | none => none
    | some (_,s') => s'.run xs

end Jit

/-- The entry of an image and what is registered of it, if anything is. -/
def LoadedImage.registered (qsort : List MachoSym → List MachoSym) (x : LoadedImage) : Option (Addr × Registration) :=
  match gdbJitRegisterMacho qsort x.mem x.cmds x.slide with
  | some (.ok r) => if x.entry = 0 then none else some (x.entry,r)
  | _ => none

/-- The entries of `l`, the last one first, are what the debugger walks in both directions; the tables of
the first nine are kept. -/
structure Jit.Holds (s : Jit) (l : List (Addr × Registration)) : Prop where
  forwards : Linked s.next 0 s.firstEntry (l.map Prod.fst)
  backwards : ∃ last, Linked s.prev 0 last (l.map Prod.fst).reverse
  files : ∀ e ∈ l, (s.entries e.1).map JitCodeEntry.symfile = some e.2.symfile
  relevant : s.relevantEntry = s.firstEntry
  saved : s.savedSymtabs = (l.reverse.map fun e => (e.2.syms,e.2.strtab)).take maxSymtabs

namespace Jit
variable {s : Jit} {l : List (Addr × Registration)} {a : Addr} {r : Registration}

theorem Holds.saves (h : s.savedSymtabs = (l.reverse.map fun e => (e.2.syms,e.2.strtab)).take maxSymtabs) :
    (s.save r.syms r.strtab).savedSymtabs =
      (((a,r) :: l).reverse.map fun e => (e.2.syms,e.2.strtab)).take maxSymtabs := by
  rw [List.reverse_cons,List.map_append,List.map_singleton,save]
  have hlen := congrArg List.length h
  rw [List.length_take] at hlen
  split
  next hroom =>
    have hall : (l.reverse.map fun e => (e.2.syms,e.2.strtab)).length ≤ maxSymtabs := by omega
    have hmore : ((l.reverse.map fun e => (e.2.syms,e.2.strtab)) ++ [(r.syms,r.strtab)]).length ≤ maxSymtabs := by
      rw [List.length_append,List.length_singleton]
      omega
    rw [List.take_of_length_le hall] at h
    rw [List.take_of_length_le hmore,h]
  next hfull => rw [List.take_append_of_le_length (by omega),h]

theorem entries_save (syms : List MachoSym) (strtab : List Byte) : (s.save syms strtab).entries = s.entries ∧
    (s.save syms strtab).firstEntry = s.firstEntry ∧ (s.save syms strtab).relevantEntry = s.relevantEntry := by
  rw [save]
  split <;> exact ⟨rfl,rfl,rfl⟩

theorem Holds.notify (h : s.Holds l) (ha : a ≠ 0) (hnew : a ∉ l.map Prod.fst) {entries : Addr → Option JitCodeEntry}
    (hnext : (s.notify a entries).next = Function.update s.next a (some s.firstEntry))
    (hprev : ∃ last, Linked (s.notify a entries).prev 0 last (((a,r) :: l).map Prod.fst).reverse)
    (hfiles : ∀ e ∈ (a,r) :: l, (entries e.1).map JitCodeEntry.symfile = some e.2.symfile) :
    ((s.notify a entries).save r.syms r.strtab).Holds ((a,r) :: l) := by
  obtain ⟨hentries,hfirst,hrelevant⟩ := entries_save (s := s.notify a entries) r.syms r.strtab
  have hnext' : ((s.notify a entries).save r.syms r.strtab).next = (s.notify a entries).next := by
    unfold Jit.next
    rw [hentries]
  have hprev' : ((s.notify a entries).save r.syms r.strtab).prev = (s.notify a entries).prev := by
    unfold Jit.prev
    rw [hentries]
  refine ⟨?_,?_,?_,hrelevant.trans hfirst.symm,Holds.saves h.saved⟩
  · rw [hnext',hfirst,hnext]
    exact h.forwards.push ha hnew
  · rw [hprev']
    exact hprev
  · rw [hentries]
    exact hfiles

theorem Holds.link_first (h : s.Holds []) (ha : a ≠ 0) :
    ∃ s', s.link a r.symfile = some s' ∧ (s'.save r.syms r.strtab).Holds [(a,r)] := by
  have hzero : s.firstEntry = 0 := h.forwards.head_eq_null
  have hlink : s.link a r.symfile =
      some (s.notify a (Function.update s.entries a (some ⟨s.firstEntry,0,r.symfile⟩))) := by
    rw [Jit.link,if_pos hzero]
  refine ⟨_,hlink,h.notify ha List.not_mem_nil ?_ ⟨a,.cons ?_ (.nil 0),?_⟩ ?_⟩
  · funext b
    by_cases hb : b = a
    · subst hb
      simp [Jit.next,Jit.notify]
    · simp [Jit.next,Jit.notify,hb]
  · simp [Jit.prev,Jit.notify]
  · simpa using ha.symm
  · simp

theorem Holds.link_more {e : Addr × Registration} (h : s.Holds (e :: l)) (ha : a ≠ 0)
    (hnew : a ∉ (e :: l).map Prod.fst) :
    ∃ s', s.link a r.symfile = some s' ∧ (s'.save r.syms r.strtab).Holds ((a,r) :: e :: l) := by
  obtain ⟨hhead,hne⟩ := h.forwards.head_ne
  have hfirst : s.firstEntry ≠ 0 := fun heq => hne (hhead ▸ heq)
  have hea : e.1 ≠ a := fun heq => hnew (heq ▸ List.mem_cons_self)
  obtain ⟨n,hn⟩ : ∃ n, s.entries e.1 = some n :=
    (Option.map_eq_some_iff.mp (h.files e List.mem_cons_self)).imp fun _ hn => hn.1
  have hentry : Function.update s.entries a (some ⟨s.firstEntry,0,r.symfile⟩) s.firstEntry = some n := by
    rw [hhead,Function.update_of_ne hea,hn]
  have hlink : s.link a r.symfile = some (s.notify a (Function.update
      (Function.update s.entries a (some ⟨s.firstEntry,0,r.symfile⟩)) s.firstEntry (some { n with prev := a }))) := by
    simp only [Jit.link,if_neg hfirst,hentry]
  refine ⟨_,hlink,h.notify ha hnew ?_ ?_ ?_⟩
  · funext b
    by_cases hb : b = s.firstEntry
    · subst hb
      rw [Function.update_of_ne (hhead ▸ hea)]
      simp [Jit.next,Jit.notify,hhead,hn]
    · by_cases hba : b = a
      · subst hba
        simp [Jit.next,Jit.notify,hb]
      · simp [Jit.next,Jit.notify,hb,hba]
  · obtain ⟨last,hlast⟩ := h.backwards
    rw [List.map_cons,List.reverse_cons] at hlast
    have hnew' : a ∉ (l.map Prod.fst).reverse ++ [e.1] := by
      rw [← List.reverse_cons,List.mem_reverse,← List.map_cons]
      exact hnew
    rw [List.map_cons,List.map_cons,List.reverse_cons,List.reverse_cons]
    refine ⟨last,(hlast.concat ha hnew').congr fun b _ => ?_⟩
    by_cases hb : b = e.1
    · subst hb
      rw [Function.update_of_ne hea,Function.update_self]
      simp [Jit.prev,Jit.notify,hhead]
    · by_cases hba : b = a
      · subst hba
        simp [Jit.prev,Jit.notify,hhead,hb]
      · simp [Jit.prev,Jit.notify,hhead,hb,hba]
  · intro d hd
    obtain rfl | hd := List.mem_cons.mp hd
    · simp [hhead,hea.symm]
    · have hda : d.1 ≠ a := fun heq => hnew (heq ▸ List.mem_map_of_mem hd)
      by_cases hde : d.1 = e.1
      · have hfile := h.files d hd
        rw [hde,hn] at hfile
        simpa [hhead,hde] using hfile
      · simpa [hhead,hde,hda] using h.files d hd

theorem Holds.link (h : s.Holds l) (ha : a ≠ 0) (hnew : a ∉ l.map Prod.fst) :
    ∃ s', s.link a r.symfile = some s' ∧ (s'.save r.syms r.strtab).Holds ((a,r) :: l) := by
  cases l with
  | nil => exact h.link_first ha
  | cons e l => exact h.link_more ha hnew

end Jit

theorem Jit.Holds.run {s : Jit} {l : List (Addr × Registration)} (h : s.Holds l)
    {qsort : List MachoSym → List MachoSym} {xs : List LoadedImage}
    (hends : ∀ x ∈ xs, (gdbJitRegisterMacho qsort x.mem x.cmds x.slide).isSome)
    (hfresh : ((xs.filterMap (LoadedImage.registered qsort)).map Prod.fst ++ l.map Prod.fst).Nodup) :
    ∃ s', s.run qsort xs = some s' ∧ s'.Holds ((xs.filterMap (LoadedImage.registered qsort)).reverse ++ l) := by
  induction xs generalizing s l with
  | nil => exact ⟨s,rfl,h⟩
  | cons x xs ih =>
    rw [List.forall_mem_cons] at hends
    have hstays : x.registered qsort = none → s.register qsort x = some (-1,s) →
        ∃ s', s.run qsort (x :: xs) = some s' ∧
          s'.Holds (((x :: xs).filterMap (LoadedImage.registered qsort)).reverse ++ l) := by
      intro hnone hregister
      rw [List.filterMap_cons_none hnone] at hfresh ⊢
      obtain ⟨s',hrun,hs'⟩ := ih h hends.2 hfresh
      exact ⟨s',by rw [Jit.run,hregister]; exact hrun,hs'⟩
    obtain ⟨result,hresult⟩ := Option.isSome_iff_exists.mp hends.1
    cases result with
    | error e =>
      exact hstays (by rw [LoadedImage.registered,hresult]) (by rw [Jit.register,hresult])
    | ok r =>
      by_cases hzero : x.entry = 0
      · exact hstays (by rw [LoadedImage.registered,hresult]; exact if_pos hzero)
          (by rw [Jit.register,hresult]; exact if_pos hzero)
      · have hsome : x.registered qsort = some (x.entry,r) := by
          rw [LoadedImage.registered,hresult]
          exact if_neg hzero
        rw [List.filterMap_cons_some hsome,List.map_cons,List.cons_append,List.nodup_cons] at hfresh
        obtain ⟨hout,hrest⟩ := hfresh
        obtain ⟨s₁,hlink,hs₁⟩ := h.link (r := r) hzero fun hin => hout (List.mem_append_right _ hin)
        have hregister : s.register qsort x = some ((r.syms.length : ℤ),s₁.save r.syms r.strtab) := by
          rw [Jit.register,hresult]
          simp only [if_neg hzero,hlink,Option.map_some]
        have hnext : ((xs.filterMap (LoadedImage.registered qsort)).map Prod.fst ++
            ((x.entry,r) :: l).map Prod.fst).Nodup := by
          rw [List.map_cons,List.nodup_middle,List.nodup_cons]
          exact ⟨hout,hrest⟩
        obtain ⟨s',hrun,hs'⟩ := ih hs₁ hends.2 hnext
        refine ⟨s',by rw [Jit.run,hregister]; exact hrun,?_⟩
        rw [List.filterMap_cons_some hsome,List.reverse_cons,List.append_assoc]
        exact hs'

theorem Jit.holds_start : Jit.start.Holds [] where
  forwards := ⟨.nil 0,List.not_mem_nil⟩
  backwards := ⟨0,.nil 0,List.not_mem_nil⟩
  files _ he := absurd he List.not_mem_nil
  relevant := rfl
  saved := rfl

/-- The names of the function symbols end, the strings take at most 1 GB, and the size that the file's
writer begins with is an `int`. -/
def LoadedImage.Fits (x : LoadedImage) : Prop :=
  ∀ T, findTables x.cmds x.slide = .ok T → ∃ symbols, T.textSymbols x.mem T.nsyms.toNat T.nlist = some symbols ∧
    (0 :: Tables.nameBytes symbols).length ≤ 2^30 ∧
    shdrOffset symbols.length (0 :: Tables.nameBytes symbols).length + 5*64 + 64 < 2^31

theorem LoadedImage.Fits.isSome {x : LoadedImage} (h : x.Fits) (qsort : List MachoSym → List MachoSym) :
    (gdbJitRegisterMacho qsort x.mem x.cmds x.slide).isSome := by
  rw [gdbJitRegisterMacho]
  cases hfound : findTables x.cmds x.slide with
  | error e => rfl
  | ok T =>
    obtain ⟨symbols,hsymbols,hnames,hsize⟩ := h T hfound
    have hfirst : ([] |> ewU8 0) = [0] := rfl
    have hcollects : ∃ syms, T.collectSymbols x.mem T.nsyms.toNat T.nlist (2^18) [0] [] =
        some ([0] ++ Tables.nameBytes symbols,syms) ∧ syms.length = 0 + symbols.length :=
      Tables.collectSymbols_isSome (by decide) hsymbols hnames
    obtain ⟨syms,hcollect,hlen⟩ := hcollects
    have hcollect : T.collectSymbols x.mem T.nsyms.toNat T.nlist 0x40000 [0] [] =
      some (0 :: Tables.nameBytes symbols,syms) := hcollect
    rw [Nat.zero_add] at hlen
    simp only [hfirst,hcollect,hlen,if_neg (Nat.not_le.mpr hsize)]
    split <;> rfl

/-- Whatever images are loaded, the debugger walks the entries of those that could be registered, the
last one first, and reads in the symbol file of each the function symbols of its image. -/
theorem debugger_sees_images {qsort : List MachoSym → List MachoSym} (hqsort : SortsByAddress qsort)
    {xs : List LoadedImage} (hfits : ∀ x ∈ xs, x.Fits)
    (hfresh : ((xs.filterMap (LoadedImage.registered qsort)).map Prod.fst).Nodup) :
    ∃ s, Jit.start.run qsort xs = some s ∧ s.Holds (xs.filterMap (LoadedImage.registered qsort)).reverse ∧
      ∀ x ∈ xs, ∀ a r, x.registered qsort = some (a,r) → ∃ T sorted, Shows x.mem x.cmds x.slide r T sorted := by
  obtain ⟨s,hrun,hs⟩ := Jit.holds_start.run (fun x hx => (hfits x hx).isSome qsort) (by simpa using hfresh)
  refine ⟨s,hrun,by simpa using hs,fun x _ a r hregistered => ?_⟩
  rw [LoadedImage.registered] at hregistered
  split at hregistered
  next r' hr' =>
    split at hregistered
    next => cases hregistered
    next =>
      obtain ⟨rfl,rfl⟩ := Prod.mk.inj (Option.some.inj hregistered)
      exact registration_shows hqsort hr'
  next => cases hregistered

/-- An image of 256 bytes with the function `g` at its 32nd byte and `f` at its 16th, loaded behind `slide`. -/
def twoFunctions (slide entry : Addr) : LoadedImage where
  mem a :=
    let a := a - slide
    if a = 0x1040 then 1 else if a = 0x1050 then 4 else if a = 0x1044 ∨ a = 0x1054 then 0x0f
    else if a = 0x1048 then 0x20 else if a = 0x1049 ∨ a = 0x1058 ∨ a = 0x1059 then 0x10
    else if a = 0x1081 ∨ a = 0x1084 then 0x5f else if a = 0x1082 then 0x67 else if a = 0x1085 then 0x66 else 0
  cmds := [.segment ⟨"__TEXT".toList,0x1000,0x100,0,0x100,5,5,[]⟩,.symtab ⟨0x40,2,0x80,8⟩]
  slide := slide
  entry := entry

def sortByAddress : List MachoSym → List MachoSym := List.insertionSort fun a b => a.addr ≤ b.addr

theorem sortByAddress_sorts : SortsByAddress sortByAddress := by
  intro l
  have : Std.Total fun a b : MachoSym => a.addr ≤ b.addr := ⟨fun a b => BitVec.le_total a.addr b.addr⟩
  have : IsTrans MachoSym fun a b => a.addr ≤ b.addr := ⟨fun _ _ _ => BitVec.le_trans⟩
  exact ⟨List.perm_insertionSort _ l,List.pairwise_insertionSort _ l⟩

theorem twoFunctions_fits : (twoFunctions 0 0x5000).Fits ∧ (twoFunctions 0x100000 0x6000).Fits := by
  have hfits : ∀ (x : LoadedImage) (T symbols), findTables x.cmds x.slide = .ok T →
      T.textSymbols x.mem T.nsyms.toNat T.nlist = some symbols →
      ((0 :: Tables.nameBytes symbols).length ≤ 2^30 ∧
        shdrOffset symbols.length (0 :: Tables.nameBytes symbols).length + 5*64 + 64 < 2^31) → x.Fits := by
    intro x T symbols hfound hsymbols hsize T' hfound'
    obtain rfl := Except.ok.inj (hfound.symm.trans hfound')
    exact ⟨symbols,hsymbols,hsize⟩
  exact ⟨hfits _ ⟨0,0x1040,2,0x1080,8,0x1000,0x100⟩ [(0x1020,[0x67]),(0x1010,[0x66])] rfl
    (by decide +kernel) (by decide),
    hfits _ ⟨0x100000,0x101040,2,0x101080,8,0x101000,0x100⟩ [(0x101020,[0x67]),(0x101010,[0x66])] rfl
      (by decide +kernel) (by decide)⟩

/-- The debugger sees two images of two functions each. -/
theorem debugger_sees_images_twoFunctions : ∃ s r r',
    Jit.start.run sortByAddress [twoFunctions 0 0x5000,twoFunctions 0x100000 0x6000] = some s ∧
    s.Holds [(0x6000,r'),(0x5000,r)] ∧
    Elf.read r.symfile = some ⟨sectionNames,[⟨[0x66],0x1010,0x10⟩,⟨[0x67],0x1020,0xe0⟩]⟩ ∧
    Elf.read r'.symfile = some ⟨sectionNames,[⟨[0x66],0x101010,0x10⟩,⟨[0x67],0x101020,0xe0⟩]⟩ := by
  have hone : ((twoFunctions 0 0x5000).registered sortByAddress).map (fun e => (e.1,Elf.read e.2.symfile)) =
      some (0x5000,some ⟨sectionNames,[⟨[0x66],0x1010,0x10⟩,⟨[0x67],0x1020,0xe0⟩]⟩) := by decide +kernel
  have htwo : ((twoFunctions 0x100000 0x6000).registered sortByAddress).map (fun e => (e.1,Elf.read e.2.symfile)) =
      some (0x6000,some ⟨sectionNames,[⟨[0x66],0x101010,0x10⟩,⟨[0x67],0x101020,0xe0⟩]⟩) := by decide +kernel
  obtain ⟨⟨a,r⟩,hr,heq⟩ := Option.map_eq_some_iff.mp hone
  obtain ⟨⟨a',r'⟩,hr',heq'⟩ := Option.map_eq_some_iff.mp htwo
  simp only [Prod.mk.injEq] at heq heq'
  obtain ⟨rfl,hview⟩ := heq
  obtain ⟨rfl,hview'⟩ := heq'
  have hlist : [twoFunctions 0 0x5000,twoFunctions 0x100000 0x6000].filterMap (LoadedImage.registered sortByAddress) =
      [(0x5000,r),(0x6000,r')] := by
    rw [List.filterMap_cons_some hr,List.filterMap_cons_some hr',List.filterMap_nil]
  have hfits : ∀ x ∈ [twoFunctions 0 0x5000,twoFunctions 0x100000 0x6000], x.Fits := by
    intro x hx
    obtain rfl | hx := List.mem_cons.mp hx
    · exact twoFunctions_fits.1
    · exact List.mem_singleton.mp hx ▸ twoFunctions_fits.2
  obtain ⟨s,hrun,hs,-⟩ := debugger_sees_images sortByAddress_sorts hfits (by rw [hlist]; simp)
  rw [hlist] at hs
  exact ⟨s,r,r',hrun,hs,hview,hview'⟩

end Machismo.GdbJit
