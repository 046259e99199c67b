import Machismo.Data.Threads

/-! # A linked list behind a lock

Threads look a key up in a linked list and may put a new node in front of it when it has none. The
list is walked and changed only under a lock, one node at a step. No node is changed or taken out once
it is linked. Whoever gets an answer gets it as if all calls were served one after the other, each at
one moment between its beginning and its end.
-/
namespace Machismo.Data.LockedList
open Threads

structure Node (A K V : Type) where
  next : Option A
  key : K
  val : V

/-- Where a thread is with the key it asks for and the value it brings, if any. -/
inductive Pc (A K V : Type) where
  | idle
  | waiting (key : K) (val : Option V)
  | walking (key : K) (val : Option V) (node : Option A)
  | leaving (key : K) (val : Option V) (found : Option A)

structure Call (A K V : Type) where
  key : K
  val : Option V
  found : Option A

structure State (T A K V : Type) where
  head : Option A
  node : A → Option (Node A K V)
  holder : Option T
  pc : T → Pc A K V
  /-- The calls that have been answered, the last one first. -/
  log : List (Call A K V)

def State.start {T A K V : Type} : State T A K V := ⟨none,fun _ => none,none,fun _ => .idle,[]⟩

variable {T A K V : Type} [DecidableEq T] [DecidableEq A]

namespace State
variable (s : State T A K V)

def goto (t : T) (pc : Pc A K V) : State T A K V := { s with pc := Function.update s.pc t pc }

def answer (t : T) (key : K) (val : Option V) (found : Option A) : State T A K V :=
  { s with pc := Function.update s.pc t (.leaving key val found), log := ⟨key,val,found⟩ :: s.log }

def link (a : A) (key : K) (val : V) : State T A K V :=
  { s with head := some a, node := Function.update s.node a (some ⟨s.head,key,val⟩) }

end State

/-- One step of thread `t`. Where `fails` holds there may be no memory for a new node. -/
inductive Step (fails : Prop) (t : T) : State T A K V → State T A K V → Prop where
  | call (s) (key) (val) : s.pc t = .idle → Step fails t s (s.goto t (.waiting key val))
  | lock (s) (key) (val) : s.pc t = .waiting key val → s.holder = none →
      Step fails t s { s.goto t (.walking key val s.head) with holder := some t }
  | found (s) (key) (val) (a) (n) : s.pc t = .walking key val (some a) → s.node a = some n → n.key = key →
      Step fails t s (s.answer t key val (some a))
  | next (s) (key) (val) (a) (n) : s.pc t = .walking key val (some a) → s.node a = some n → n.key ≠ key →
      Step fails t s (s.goto t (.walking key val n.next))
  | insert (s) (key) (val) (a) : s.pc t = .walking key (some val) none → s.node a = none →
      Step fails t s ((s.link a key val).answer t key (some val) (some a))
  | absent (s) (key) : s.pc t = .walking key none none → Step fails t s (s.answer t key none none)
  | exhausted (s) (key) (val) : fails → s.pc t = .walking key (some val) none →
      Step fails t s (s.answer t key (some val) none)
  | unlock (s) (key) (val) (found) : s.pc t = .leaving key val found →
      Step fails t s { s.goto t .idle with holder := none }

/-- What the list holds, the last node first. -/
abbrev Contents (A K V : Type) := List (A × K × V)

/-- One call takes the list from `c` to `c'`. -/
inductive Serves (fails : Prop) : Contents A K V → Call A K V → Contents A K V → Prop where
  | found {c : Contents A K V} {a : A} {key : K} {v : V} (val : Option V) : (a,key,v) ∈ c →
      Serves fails c ⟨key,val,some a⟩ c
  | insert {c : Contents A K V} {a : A} {key : K} {val : V} : (∀ e ∈ c, e.2.1 ≠ key) → (∀ e ∈ c, e.1 ≠ a) →
      Serves fails c ⟨key,some val,some a⟩ ((a,key,val) :: c)
  | absent {c : Contents A K V} {key : K} : (∀ e ∈ c, e.2.1 ≠ key) → Serves fails c ⟨key,none,none⟩ c
  | exhausted {c : Contents A K V} {key : K} {val : V} : fails → (∀ e ∈ c, e.2.1 ≠ key) →
      Serves fails c ⟨key,some val,none⟩ c

/-- The calls of a log, whose last one comes first, in their order. -/
inductive Replays (fails : Prop) : List (Call A K V) → Contents A K V → Prop where
  | nil : Replays fails [] []
  | cons {log : List (Call A K V)} {c c' : Contents A K V} {call : Call A K V} : Replays fails log c →
      Serves fails c call c' → Replays fails (call :: log) c'

inductive Chain (node : A → Option (Node A K V)) : Option A → Contents A K V → Prop where
  | nil : Chain node none []
  | cons {a : A} {n : Node A K V} {c : Contents A K V} : node a = some n → Chain node n.next c →
      Chain node (some a) ((a,n.key,n.val) :: c)

/-- What holds of a thread at its place: whether it has the lock, what it has passed, what it was told. -/
def Fits (s : State T A K V) (c : Contents A K V) (t : T) : Pc A K V → Prop
  | .idle | .waiting _ _ => s.holder ≠ some t
  | .walking key _ node => s.holder = some t ∧ ∃ before rest, c = before ++ rest ∧ Chain s.node node rest ∧
      ∀ e ∈ before, e.2.1 ≠ key
  | .leaving key val found => s.holder = some t ∧ ⟨key,val,found⟩ ∈ s.log

/-- The nodes from the head on are what the calls so far have left. -/
structure Inv (fails : Prop) (s : State T A K V) (c : Contents A K V) : Prop where
  chain : Chain s.node s.head c
  replays : Replays fails s.log c
  fits : ∀ t, Fits s c t (s.pc t)

section Chains
variable {node : A → Option (Node A K V)} {o : Option A} {c : Contents A K V} {a : A} {n : Node A K V}

omit [DecidableEq A] in
theorem Chain.mem (h : Chain node o c) {e : A × K × V} (he : e ∈ c) :
    ∃ n, node e.1 = some n ∧ n.key = e.2.1 ∧ n.val = e.2.2 := by
  induction h with
  | nil => cases he
  | @cons a n c hn _ ih =>
    obtain rfl | he := List.mem_cons.mp he
    · exact ⟨n,hn,rfl,rfl⟩
    · exact ih he

theorem Chain.update (h : Chain node o c) (ha : node a = none) : Chain (Function.update node a (some n)) o c := by
  induction h with
  | nil => exact .nil
  | @cons b m c hb _ ih =>
    have hne : b ≠ a := by
      rintro rfl
      rw [ha] at hb
      cases hb
    exact .cons (by rw [Function.update_of_ne hne,hb]) ih

omit [DecidableEq A] in
theorem Chain.cons_eq (h : Chain node (some a) c) (hn : node a = some n) :
    ∃ rest, c = (a,n.key,n.val) :: rest ∧ Chain node n.next rest := by
  cases h with
  | cons hb hrest =>
    rw [hn] at hb
    obtain rfl := Option.some.inj hb
    exact ⟨_,rfl,hrest⟩

omit [DecidableEq A] in
theorem Chain.none_eq (h : Chain node none c) : c = [] := by
  cases h
  rfl

end Chains

section Safety
variable {fails : Prop} {s s' : State T A K V} {c : Contents A K V} {t u : T}

omit [DecidableEq T] [DecidableEq A] in
theorem Fits.other {pc : Pc A K V} (h : Fits s c u pc) (hholder : s.holder ≠ some u) {c' : Contents A K V}
    (hholder' : s'.holder ≠ some u) : Fits s' c' u pc := by
  cases pc with
  | idle => exact hholder'
  | waiting _ _ => exact hholder'
  | walking _ _ _ => exact absurd h.1 hholder
  | leaving _ _ _ => exact absurd h.1 hholder

omit [DecidableEq T] [DecidableEq A] in
theorem Fits.congr {pc : Pc A K V} (h : Fits s c u pc) (hholder : s'.holder = s.holder) (hnode : s'.node = s.node)
    (hlog : s'.log = s.log) : Fits s' c u pc := by
  cases pc with
  | idle => exact (hholder ▸ h : s'.holder ≠ some u)
  | waiting _ _ => exact (hholder ▸ h : s'.holder ≠ some u)
  | walking _ _ _ =>
    obtain ⟨hu,before,rest,hc,hchain,hbefore⟩ := h
    exact ⟨hholder.trans hu,before,rest,hc,hnode ▸ hchain,hbefore⟩
  | leaving _ _ _ => exact ⟨hholder.trans h.1,hlog ▸ h.2⟩

omit [DecidableEq T] [DecidableEq A] in
theorem Inv.start : Inv fails (State.start : State T A K V) [] :=
  ⟨.nil,.nil,fun _ => by rintro ⟨⟩⟩

omit [DecidableEq A] in
theorem Inv.goto (h : Inv fails s c) {pc : Pc A K V} (hpc : Fits (s.goto t pc) c t pc) : Inv fails (s.goto t pc) c where
  chain := h.chain
  replays := h.replays
  fits u := by
    by_cases hu : u = t
    · subst hu
      simpa [State.goto] using hpc
    · show Fits _ c u (Function.update s.pc t pc u)
      rw [Function.update_of_ne hu]
      exact (h.fits u).congr rfl rfl rfl

omit [DecidableEq A] in
theorem Inv.answer (h : Inv fails s c) (hholder : s.holder = some t) {key : K} {val : Option V} {found : Option A}
    {c' : Contents A K V} (hs : State T A K V) (hchain : Chain hs.node hs.head c') (hpcs : hs.pc = s.pc)
    (hlock : hs.holder = s.holder) (hlog : hs.log = s.log) (hserves : Serves fails c ⟨key,val,found⟩ c') :
    Inv fails (hs.answer t key val found) c' where
  chain := hchain
  replays := by
    show Replays fails (_ :: hs.log) c'
    rw [hlog]
    exact .cons h.replays hserves
  fits u := by
    by_cases hu : u = t
    · subst hu
      show Fits _ c' u (Function.update hs.pc u _ u)
      rw [Function.update_self]
      exact ⟨hlock.trans hholder,List.mem_cons_self⟩
    · have hnot : s.holder ≠ some u := by
        rw [hholder]
        exact fun he => hu (Option.some.inj he).symm
      show Fits _ c' u (Function.update hs.pc t _ u)
      rw [Function.update_of_ne hu,hpcs]
      exact (h.fits u).other hnot (hlock ▸ hnot)

theorem Inv.step (h : Inv fails s c) (hs : Step fails t s s') : ∃ c', Inv fails s' c' := by
  cases hs with
  | call key val hpc =>
    have ht := h.fits t
    rw [hpc] at ht
    exact ⟨c,h.goto ht⟩
  | lock key val hpc hfree =>
    refine ⟨c,h.chain,h.replays,fun u => ?_⟩
    by_cases hu : u = t
    · subst hu
      show Fits _ c u (Function.update s.pc u _ u)
      rw [Function.update_self]
      exact ⟨rfl,[],c,rfl,h.chain,fun _ he => absurd he List.not_mem_nil⟩
    · show Fits _ c u (Function.update s.pc t _ u)
      rw [Function.update_of_ne hu]
      exact (h.fits u).other (by rw [hfree]; rintro ⟨⟩) fun he => hu (Option.some.inj he).symm
  | found key val a n hpc hn hkey =>
    have ht := h.fits t
    rw [hpc] at ht
    obtain ⟨hholder,before,rest,hc,hchain,-⟩ := ht
    obtain ⟨rest',rfl,-⟩ := hchain.cons_eq hn
    refine ⟨c,h.answer hholder s h.chain rfl rfl rfl (.found val (v := n.val) ?_)⟩
    rw [hc,← hkey]
    exact List.mem_append_right _ List.mem_cons_self
  | next key val a n hpc hn hkey =>
    have ht := h.fits t
    rw [hpc] at ht
    obtain ⟨hholder,before,rest,hc,hchain,hbefore⟩ := ht
    obtain ⟨rest',rfl,hrest⟩ := hchain.cons_eq hn
    refine ⟨c,h.goto ⟨hholder,before ++ [(a,n.key,n.val)],rest',by rw [hc,List.append_assoc]; rfl,hrest,?_⟩⟩
    intro e he
    rcases List.mem_append.mp he with he | he
    · exact hbefore e he
    · rw [List.mem_singleton.mp he]
      exact hkey
  | insert key val a hpc hfresh =>
    have ht := h.fits t
    rw [hpc] at ht
    obtain ⟨hholder,before,rest,hc,hchain,hbefore⟩ := ht
    obtain rfl := hchain.none_eq
    rw [List.append_nil] at hc
    subst hc
    have hnew : Chain (s.link a key val).node (s.link a key val).head ((a,key,val) :: c) :=
      .cons (n := ⟨s.head,key,val⟩) (Function.update_self _ _ _) (h.chain.update hfresh)
    refine ⟨_,h.answer hholder _ hnew rfl rfl rfl (.insert hbefore fun e he => ?_)⟩
    rintro rfl
    obtain ⟨n,hn,-⟩ := h.chain.mem he
    rw [hfresh] at hn
    cases hn
  | absent key hpc =>
    have ht := h.fits t
    rw [hpc] at ht
    obtain ⟨hholder,before,rest,hc,hchain,hbefore⟩ := ht
    obtain rfl := hchain.none_eq
    rw [List.append_nil] at hc
    subst hc
    exact ⟨_,h.answer hholder s h.chain rfl rfl rfl (.absent hbefore)⟩
  | exhausted key val hfails hpc =>
    have ht := h.fits t
    rw [hpc] at ht
    obtain ⟨hholder,before,rest,hc,hchain,hbefore⟩ := ht
    obtain rfl := hchain.none_eq
    rw [List.append_nil] at hc
    subst hc
    exact ⟨_,h.answer hholder s h.chain rfl rfl rfl (.exhausted hfails hbefore)⟩
  | unlock key val found hpc =>
    have ht := h.fits t
    rw [hpc] at ht
    refine ⟨c,h.chain,h.replays,fun u => ?_⟩
    by_cases hu : u = t
    · subst hu
      show Fits _ c u (Function.update s.pc u _ u)
      rw [Function.update_self]
      rintro ⟨⟩
    · show Fits _ c u (Function.update s.pc t _ u)
      rw [Function.update_of_ne hu]
      exact (h.fits u).other (by rw [ht.1]; exact fun he => hu (Option.some.inj he).symm) (by rintro ⟨⟩)

/-- In every state the calls answered so far could have been served one after the other. -/
theorem Reaches.inv (h : Reaches (Step fails) (State.start : State T A K V) s) : ∃ c, Inv fails s c :=
  Reaches.invariant (P := fun s => ∃ c, Inv fails s c) (fun _ _ _ ⟨_,hinv⟩ hstep => hinv.step hstep) h ⟨[],.start⟩

theorem Step.log_subset (h : Step fails t s s') : s.log ⊆ s'.log := by
  cases h with
  | found => exact List.subset_cons_self _ _
  | insert => exact List.subset_cons_self _ _
  | absent => exact List.subset_cons_self _ _
  | exhausted => exact List.subset_cons_self _ _
  | call => exact List.Subset.refl _
  | lock => exact List.Subset.refl _
  | next => exact List.Subset.refl _
  | unlock => exact List.Subset.refl _

theorem Reaches.log_subset (h : Reaches (Step fails) s s') : s.log ⊆ s'.log :=
  Reaches.invariant (P := fun r => s.log ⊆ r.log) (fun _ _ _ hsub hstep => List.Subset.trans hsub hstep.log_subset) h
    (List.Subset.refl _)

end Safety

/-! ## What the answers have in common -/

section Answers
variable {fails : Prop} {log : List (Call A K V)} {c c' : Contents A K V} {call : Call A K V}

omit [DecidableEq A] in
theorem Serves.subset (h : Serves fails c call c') : c ⊆ c' := by
  cases h with
  | insert _ _ => exact List.subset_cons_self _ _
  | found _ _ => exact List.Subset.refl _
  | absent _ => exact List.Subset.refl _
  | exhausted _ _ => exact List.Subset.refl _

omit [DecidableEq A] in
theorem Serves.pairwise (h : Serves fails c call c')
    (hc : c.Pairwise fun d e => d.1 ≠ e.1 ∧ d.2.1 ≠ e.2.1) : c'.Pairwise fun d e => d.1 ≠ e.1 ∧ d.2.1 ≠ e.2.1 := by
  cases h with
  | insert hkey haddr => exact List.pairwise_cons.mpr ⟨fun e he => ⟨(haddr e he).symm,(hkey e he).symm⟩,hc⟩
  | found _ _ => exact hc
  | absent _ => exact hc
  | exhausted _ _ => exact hc

omit [DecidableEq A] in
theorem Replays.pairwise (h : Replays fails log c) : c.Pairwise fun d e => d.1 ≠ e.1 ∧ d.2.1 ≠ e.2.1 := by
  induction h with
  | nil => exact .nil
  | cons _ hserves ih => exact hserves.pairwise ih

omit [DecidableEq A] in
theorem Replays.mem (h : Replays fails log c) {key : K} {val : Option V} {a : A} (hcall : ⟨key,val,some a⟩ ∈ log) :
    ∃ v, (a,key,v) ∈ c := by
  induction h with
  | nil => cases hcall
  | cons _ hserves ih =>
    obtain heq | hold := List.mem_cons.mp hcall
    · rw [← heq] at hserves
      cases hserves with
      | found _ hin => exact ⟨_,hin⟩
      | insert _ _ => exact ⟨_,List.mem_cons_self⟩
    · obtain ⟨v,hv⟩ := ih hold
      exact ⟨v,hserves.subset hv⟩

omit [DecidableEq A] in
theorem Replays.answered (h : Replays fails log c) (hfails : ¬fails) {key : K} {v : V} :
    ⟨key,some v,none⟩ ∉ log := by
  induction h with
  | nil => exact List.not_mem_nil
  | cons _ hserves ih =>
    intro hcall
    obtain heq | hold := List.mem_cons.mp hcall
    · rw [← heq] at hserves
      cases hserves with
      | exhausted hf _ => exact hfails hf
    · exact ih hold

omit [DecidableEq A] in
theorem eq_of_pairwise (hc : c.Pairwise fun d e => d.1 ≠ e.1 ∧ d.2.1 ≠ e.2.1) {d e : A × K × V} (hd : d ∈ c)
    (he : e ∈ c) (h : d.1 = e.1 ∨ d.2.1 = e.2.1) : d = e := by
  by_contra hne
  have hsym : Std.Symm fun d e : A × K × V => d.1 ≠ e.1 ∧ d.2.1 ≠ e.2.1 := ⟨fun _ _ h => ⟨h.1.symm,h.2.symm⟩⟩
  obtain ⟨haddr,hkey⟩ := hc.forall hd he hne
  rcases h with h | h
  · exact haddr h
  · exact hkey h

omit [DecidableEq A] in
/-- Two calls are answered with the same node where they ask for the same key, and nowhere else. -/
theorem Replays.found_iff (h : Replays fails log c) {k l : K} {v w : Option V} {a b : A}
    (ha : ⟨k,v,some a⟩ ∈ log) (hb : ⟨l,w,some b⟩ ∈ log) : a = b ↔ k = l := by
  obtain ⟨x,hx⟩ := h.mem ha
  obtain ⟨y,hy⟩ := h.mem hb
  constructor
  · intro hab
    exact congrArg (fun e => e.2.1) (eq_of_pairwise h.pairwise hx hy (Or.inl hab))
  · intro hkl
    exact congrArg Prod.fst (eq_of_pairwise h.pairwise hx hy (Or.inr hkl))

omit [DecidableEq T] [DecidableEq A] in
theorem Inv.node_of_found {s : State T A K V} (h : Inv fails s c) {key : K} {val : Option V} {a : A}
    (hcall : ⟨key,val,some a⟩ ∈ s.log) :
    ∃ n, s.node a = some n ∧ n.key = key := by
  obtain ⟨v,hv⟩ := h.replays.mem hcall
  obtain ⟨n,hn,hkey,-⟩ := h.chain.mem hv
  exact ⟨n,hn,hkey⟩

end Answers

/-- One question to a map that takes a value only where it has none. -/
inductive PutIfAbsent [DecidableEq K] (fails : Prop) (m : K → Option V) (key : K) :
    Option V → Option V → (K → Option V) → Prop where
  | found {v : V} (val : Option V) : m key = some v → PutIfAbsent fails m key val (some v) m
  | insert {val : V} : m key = none → PutIfAbsent fails m key (some val) (some val) (Function.update m key (some val))
  | absent : m key = none → PutIfAbsent fails m key none none m
  | exhausted {val : V} : fails → m key = none → PutIfAbsent fails m key (some val) none m

/-- Questions with their answers, the last one first, and the map they leave. -/
inductive Answers [DecidableEq K] (fails : Prop) : List (K × Option V × Option V) → (K → Option V) → Prop where
  | nil : Answers fails [] fun _ => none
  | cons {log : List (K × Option V × Option V)} {m m' : K → Option V} {key : K} {val answer : Option V} :
      Answers fails log m → PutIfAbsent fails m key val answer m' → Answers fails ((key,val,answer) :: log) m'

/-- A call with the value in the node it was answered with. -/
def Call.values (node : A → Option (Node A K V)) (call : Call A K V) : K × Option V × Option V :=
  (call.key,call.val,call.found.bind fun a => (node a).map Node.val)

section Maps
variable [DecidableEq K] {fails : Prop} {log : List (Call A K V)} {c : Contents A K V}

def Contents.value (c : Contents A K V) (key : K) : Option V := (c.find? fun e => e.2.1 = key).map fun e => e.2.2

omit [DecidableEq A] in
theorem Contents.value_of_mem (hc : c.Pairwise fun d e => d.1 ≠ e.1 ∧ d.2.1 ≠ e.2.1) {a : A} {key : K} {v : V}
    (h : (a,key,v) ∈ c) : Contents.value c key = some v := by
  unfold Contents.value
  cases hfind : c.find? fun e => e.2.1 = key with
  | none => exact absurd (decide_eq_true rfl) (List.find?_eq_none.mp hfind _ h)
  | some e =>
    have hkey : e.2.1 = key := by simpa using List.find?_some hfind
    rw [eq_of_pairwise hc (List.mem_of_find?_eq_some hfind) h (Or.inr hkey)]
    rfl

omit [DecidableEq A] in
theorem Contents.value_of_absent {key : K} (h : ∀ e ∈ c, e.2.1 ≠ key) : Contents.value c key = none := by
  have hfind : c.find? (fun e => e.2.1 = key) = none :=
    List.find?_eq_none.mpr fun e he hkey => h e he (of_decide_eq_true hkey)
  rw [Contents.value,hfind]
  rfl

omit [DecidableEq A] in
theorem Contents.value_cons {a : A} {key : K} {val : V} :
    Contents.value ((a,key,val) :: c) = Function.update (Contents.value c) key (some val) := by
  funext k
  by_cases h : k = key
  · subst h
    simp [Contents.value]
  · have h' : ¬key = k := fun he => h he.symm
    simp [Contents.value,h,h']

omit [DecidableEq A] in
theorem Replays.answers (h : Replays fails log c) {node : A → Option (Node A K V)}
    (hnode : ∀ e ∈ c, ∃ n, node e.1 = some n ∧ n.key = e.2.1 ∧ n.val = e.2.2) :
    Answers fails (log.map (Call.values node)) (Contents.value c) := by
  induction h with
  | nil => exact .nil
  | cons hlog hserves ih =>
    refine .cons (ih fun e he => hnode e (hserves.subset he)) ?_
    cases hserves with
    | found val hin =>
      obtain ⟨n,hn,-,hval⟩ := hnode _ hin
      have hanswer : (some n).map Node.val = some _ := congrArg some hval
      simp only [Option.bind_some,hn,hanswer]
      exact .found val (Contents.value_of_mem hlog.pairwise hin)
    | insert hkey _ =>
      obtain ⟨n,hn,-,hval⟩ := hnode _ List.mem_cons_self
      have hanswer : (some n).map Node.val = some _ := congrArg some hval
      simp only [Option.bind_some,hn,hanswer]
      rw [Contents.value_cons]
      exact .insert (Contents.value_of_absent hkey)
    | absent hkey => exact .absent (Contents.value_of_absent hkey)
    | exhausted hf hkey => exact .exhausted hf (Contents.value_of_absent hkey)

end Maps

section AnswerLemmas
variable [DecidableEq K] {fails : Prop} {log : List (K × Option V × Option V)} {m m' : K → Option V} {key k : K}
  {val answer : Option V} {v w : V}

theorem PutIfAbsent.keeps (h : PutIfAbsent fails m key val answer m') (hk : m k = some v) : m' k = some v := by
  cases h with
  | insert hnone =>
    have hne : k ≠ key := by
      rintro rfl
      rw [hnone] at hk
      cases hk
    rw [Function.update_of_ne hne,hk]
  | found _ _ => exact hk
  | absent _ => exact hk
  | exhausted _ _ => exact hk

theorem Answers.value_eq (h : Answers fails log m) (hin : (key,val,some v) ∈ log) : m key = some v := by
  induction h with
  | nil => cases hin
  | cons _ hput ih =>
    obtain heq | hold := List.mem_cons.mp hin
    · simp only [Prod.mk.injEq] at heq
      obtain ⟨rfl,rfl,rfl⟩ := heq
      cases hput with
      | found _ hv => exact hv
      | insert _ => exact Function.update_self _ _ _
    · exact hput.keeps (ih hold)

theorem Answers.brought (h : Answers fails log m) (hk : m key = some v) : (key,some v,some v) ∈ log := by
  induction h with
  | nil => cases hk
  | @cons _ _ _ k' _ _ _ hput ih =>
    cases hput with
    | @insert w hnone =>
      by_cases hkey : key = k'
      · subst hkey
        rw [Function.update_self] at hk
        obtain rfl := Option.some.inj hk
        exact List.mem_cons_self
      · rw [Function.update_of_ne hkey] at hk
        exact List.mem_cons_of_mem _ (ih hk)
    | found _ _ => exact List.mem_cons_of_mem _ (ih hk)
    | absent _ => exact List.mem_cons_of_mem _ (ih hk)
    | exhausted _ _ => exact List.mem_cons_of_mem _ (ih hk)

end AnswerLemmas

end Machismo.Data.LockedList
