import Machismo.Resolver.DyldInfo

/-! # The opcode streams in memory

The streams lie in the image, which is writable while its fixups are carried out: an opcode is read when its
turn comes, the name of a symbol when it is bound. Where no slot lies on a stream this is the run over the
streams as they were.
-/
namespace Machismo.Resolver
open A64

def fetch (m : Memory) (p : Addr) : ℕ → List Byte
  | 0 => []
  | n + 1 => m p :: fetch m (p+1) n

structure Span where
  start : Addr
  size : ℕ

def Span.bytes (s : Span) (m : Memory) : List Byte := fetch m s.start s.size

def Span.Covers (s : Span) (b : Addr) : Prop := (b - s.start).toNat < s.size

/-- The loop over the rebase opcodes. The operand of `DO_REBASE_ADD_ADDR_ULEB` is read after its rebase. -/
def runRebaseAt (I : Image) : ℕ → Addr → ℕ → Cursor → ResolverState → Bool × ResolverState
  | 0, _, _, _, st => (true,st)
  | _ + 1, _, 0, _, st => (true,st)
  | fuel + 1, p, n + 1, c, st =>
    let byte := st.mem p
    let st := if byte.extractLsb' 4 4 = 7#4 then rebaseOne I st c else st
    let (op,rest) := decodeRebase byte (fetch st.mem (p+1) n)
    let p := p + 1 + BitVec.ofNat 64 (n - rest.length)
    match op with
    | .done => (true,st)
    | .unknown _ => (false,st)
    | .doRebaseAddAddrUleb k => runRebaseAt I fuel p rest.length (c.advance (k + 8)) st
    | op => runRebaseAt I fuel p rest.length (op.exec c).1 ((op.exec c).2.foldl (rebaseOne I) st)

/-- A bind by the name that is then in memory. -/
def bindAt (E : Env) (I : Image) (name : Span) (st : ResolverState) (b : Bind) : ResolverState :=
  doBindOne E I st { b with symName := nameOf (readCString (name.bytes st.mem)).1 }

def runBindAt (E : Env) (I : Image) (isLazy : Bool) :
    ℕ → Addr → ℕ → BindRegs → Span → ResolverState → Bool × ResolverState
  | 0, _, _, _, _, st => (true,st)
  | _ + 1, _, 0, _, _, st => (true,st)
  | fuel + 1, p, n + 1, r, name, st =>
    let byte := st.mem p
    let st := if byte.extractLsb' 4 4 = 10#4 then bindAt E I name st r.bind else st
    let (op,rest) := decodeBind byte (fetch st.mem (p+1) n)
    let p' := p + 1 + BitVec.ofNat 64 (n - rest.length)
    match op with
    | .done => if isLazy then runBindAt E I isLazy fuel p' rest.length r name st else (true,st)
    | .unknown _ => (false,st)
    | .setSymbolTrailingFlagsImm flags s =>
      runBindAt E I isLazy fuel p' rest.length { r with symFlags := flags, symName := s } ⟨p+1,n⟩ st
    | .doBindAddAddrUleb k => runBindAt E I isLazy fuel p' rest.length (r.advance (k + 8)) name st
    | op => runBindAt E I isLazy fuel p' rest.length (op.exec r).1 name ((op.exec r).2.foldl (bindAt E I name) st)

structure Streams where
  rebase : Option Span
  bind : Option Span
  weakBind : Option Span
  lazyBind : Option Span

def Streams.read (P : Streams) (m : Memory) : DyldInfo :=
  ⟨P.rebase.map (·.bytes m),P.bind.map (·.bytes m),P.weakBind.map (·.bytes m),P.lazyBind.map (·.bytes m)⟩

def rebasePassAt (I : Image) (stream : Option Span) (st : ResolverState) : Bool × ResolverState :=
  match stream with
  | none => (false,st)
  | some s => runRebaseAt I s.size s.start s.size ⟨0,0⟩ st

def bindPassAt (E : Env) (I : Image) (isLazy : Bool) (stream : Option Span) (st : ResolverState) :
    Bool × ResolverState :=
  match stream with
  | none => (false,st)
  | some s => runBindAt E I isLazy s.size s.start s.size .initial ⟨0,0⟩ st

def processDyldInfoAt (E : Env) (I : Image) (P : Streams) (st : ResolverState) : Bool × ResolverState :=
  andThen (andThen (andThen (rebasePassAt I P.rebase st) (bindPassAt E I false P.bind))
    (bindPassAt E I false P.weakBind)) (bindPassAt E I true P.lazyBind)

section Fetch
variable {m m' : Memory} {p : Addr} {n : ℕ}

@[simp] theorem length_fetch (m : Memory) (p : Addr) (n : ℕ) : (fetch m p n).length = n := by
  induction n generalizing p with
  | zero => rfl
  | succ n ih => rw [fetch,List.length_cons,ih]

theorem offset_succ (p : Addr) (i : ℕ) : p + 1 + BitVec.ofNat 64 i = p + BitVec.ofNat 64 (i+1) := by
  have hone : BitVec.ofNat 64 1 = 1 := rfl
  rw [Nat.add_comm i,BitVec.ofNat_add,hone,BitVec.add_assoc]

theorem fetch_add (m : Memory) (p : Addr) (k n : ℕ) :
    fetch m p (k+n) = fetch m p k ++ fetch m (p + BitVec.ofNat 64 k) n := by
  induction k generalizing p with
  | zero => rw [Nat.zero_add,BitVec.add_zero]; rfl
  | succ k ih => rw [Nat.add_right_comm,fetch,fetch,ih,List.cons_append,offset_succ]

theorem fetch_congr (h : ∀ i < n, m (p + BitVec.ofNat 64 i) = m' (p + BitVec.ofNat 64 i)) :
    fetch m p n = fetch m' p n := by
  induction n generalizing p with
  | zero => rfl
  | succ n ih =>
    have hhead := h 0 (Nat.succ_pos n)
    rw [BitVec.add_zero] at hhead
    rw [fetch,fetch,hhead,ih]
    intro i hi
    rw [offset_succ]
    exact h (i+1) (Nat.succ_lt_succ hi)

theorem fetch_of_suffix {rest : List Byte} (h : rest <:+ fetch m p n) :
    fetch m (p + BitVec.ofNat 64 (n - rest.length)) rest.length = rest := by
  obtain ⟨read,hread⟩ := h
  have hn : n = read.length + rest.length := by
    have hlen := congrArg List.length hread
    rw [List.length_append,length_fetch] at hlen
    exact hlen.symm
  rw [hn,fetch_add] at hread
  rw [hn,Nat.add_sub_cancel]
  exact (List.append_inj_right hread (length_fetch m p _).symm).symm

end Fetch

theorem readUlebFrom_suffix (shift : ℕ) (result : BitVec 64) (p : List Byte) :
    (readUlebFrom shift result p).2 <:+ p := by
  induction p generalizing shift result with
  | nil => exact List.suffix_rfl
  | cons byte p ih =>
    rw [readUlebFrom]
    split
    next => exact List.suffix_cons byte p
    next => exact (ih _ _).trans (List.suffix_cons byte p)

theorem readSlebFrom_suffix (shift : ℕ) (result : BitVec 64) (last : Byte) (p : List Byte) :
    (readSlebFrom shift result last p).2.2.2 <:+ p := by
  induction p generalizing shift result last with
  | nil => exact List.suffix_rfl
  | cons byte p ih =>
    rw [readSlebFrom]
    split
    next => exact List.suffix_cons byte p
    next => exact (ih _ _ _).trans (List.suffix_cons byte p)

theorem readUleb128_suffix (p : List Byte) : (readUleb128 p).2 <:+ p := readUlebFrom_suffix 0 0#64 p

theorem readCString_suffix (p : List Byte) : (readCString p).2 <:+ p :=
  (List.drop_suffix 1 _).trans (List.dropWhile_suffix _)

theorem decodeRebase_suffix (byte : Byte) (p : List Byte) : (decodeRebase byte p).2 <:+ p := by
  unfold decodeRebase
  dsimp only
  split
  case h_9 => exact (readUleb128_suffix _).trans (readUleb128_suffix p)
  all_goals first
    | exact List.suffix_rfl
    | exact readUleb128_suffix p

theorem decodeBind_suffix (byte : Byte) (p : List Byte) : (decodeBind byte p).2 <:+ p := by
  unfold decodeBind
  dsimp only
  split
  case h_13 => exact (readUleb128_suffix _).trans (readUleb128_suffix p)
  all_goals first
    | exact List.suffix_rfl
    | exact readUleb128_suffix p
    | exact readCString_suffix p
    | exact readSlebFrom_suffix 0 0#64 0 p

/-- A loop over opcodes that leave a rest of what they are read from gets to the end of a stream in as many rounds
as the stream has bytes. -/
theorem opsFrom_eq {α : Type*} {decode : Byte → List Byte → α × List Byte} {opsFrom : ℕ → List Byte → List α}
    (hsuffix : ∀ byte p, (decode byte p).2 <:+ p) (hzero : ∀ p, opsFrom 0 p = []) (hnil : ∀ n, opsFrom (n+1) [] = [])
    (hcons : ∀ n byte p, opsFrom (n+1) (byte :: p) = (decode byte p).1 :: opsFrom n (decode byte p).2)
    {n k : ℕ} {p : List Byte} (hn : p.length ≤ n) (hk : p.length ≤ k) : opsFrom n p = opsFrom k p := by
  have hempty : ∀ j, opsFrom j [] = [] := by
    intro j
    cases j with
    | zero => exact hzero []
    | succ j => exact hnil j
  induction n generalizing k p with
  | zero =>
    obtain rfl := List.length_eq_zero_iff.mp (Nat.le_zero.mp hn)
    rw [hempty,hempty]
  | succ n ih =>
    cases p with
    | nil => rw [hempty,hempty]
    | cons byte p =>
      obtain ⟨k,rfl⟩ : ∃ j, k = j+1 := ⟨k-1,by rw [List.length_cons] at hk; omega⟩
      have hrest := (hsuffix byte p).length_le
      rw [hcons,hcons]
      exact congrArg _ (ih (hrest.trans (Nat.succ_le_succ_iff.mp hn)) (hrest.trans (Nat.succ_le_succ_iff.mp hk)))

theorem bindOps_cons (byte : Byte) (p : List Byte) :
    bindOps (byte :: p) = (decodeBind byte p).1 :: bindOps (decodeBind byte p).2 :=
  congrArg _ (opsFrom_eq decodeBind_suffix (fun _ => rfl) (fun _ => rfl) (fun _ _ _ => rfl)
    (decodeBind_suffix byte p).length_le le_rfl)

theorem rebaseOps_cons (byte : Byte) (p : List Byte) :
    rebaseOps (byte :: p) = (decodeRebase byte p).1 :: rebaseOps (decodeRebase byte p).2 :=
  congrArg _ (opsFrom_eq decodeRebase_suffix (fun _ => rfl) (fun _ => rfl) (fun _ _ _ => rfl)
    (decodeRebase_suffix byte p).length_le le_rfl)

/-- Two memories agree on what is kept of the streams. -/
def KeptOn (R : Addr → Prop) (m m' : Memory) : Prop := ∀ b, R b → m' b = m b

section Rebase
variable {I : Image} {R : Addr → Prop}

theorem keptOn_foldl_rebaseOne {l : List Cursor} (h : ∀ b, R b → Outside I b l) (st : ResolverState) :
    KeptOn R st.mem (l.foldl (rebaseOne I) st).mem := fun b hb => foldl_rebaseOne_outside l st (h b hb)

theorem KeptOn.fetch_eq {m m' : Memory} {p : Addr} {n : ℕ} (h : KeptOn R m m')
    (hp : ∀ i < n, R (p + BitVec.ofNat 64 i)) : fetch m' p n = fetch m p n := fetch_congr fun i hi => h _ (hp i hi)

theorem KeptOn.rest {m m' : Memory} {p : Addr} {n : ℕ} {rest : List Byte} (h : KeptOn R m m')
    (hp : ∀ i < n, R (p + BitVec.ofNat 64 i)) (hrest : rest <:+ fetch m p n) :
    (∀ i < rest.length, R (p + BitVec.ofNat 64 (n - rest.length) + BitVec.ofNat 64 i)) ∧
      fetch m' (p + BitVec.ofNat 64 (n - rest.length)) rest.length = rest := by
  have hle : rest.length ≤ n := hrest.length_le.trans_eq (length_fetch _ _ _)
  have hspan : ∀ i < rest.length, R (p + BitVec.ofNat 64 (n - rest.length) + BitVec.ofNat 64 i) := by
    intro i hi
    rw [BitVec.add_assoc,← BitVec.ofNat_add]
    exact hp _ (by omega)
  exact ⟨hspan,(h.fetch_eq hspan).trans (fetch_of_suffix hrest)⟩

theorem decodeRebase_of_seven {byte : Byte} (h : byte.extractLsb' 4 4 = 7#4) (p : List Byte) :
    decodeRebase byte p = (.doRebaseAddAddrUleb (readUleb128 p).1,(readUleb128 p).2) := by
  unfold decodeRebase
  rw [h]
  rfl

theorem decodeRebase_ne_seven {byte : Byte} (h : byte.extractLsb' 4 4 ≠ 7#4) (p : List Byte) (k : BitVec 64) :
    (decodeRebase byte p).1 ≠ .doRebaseAddAddrUleb k := by
  unfold decodeRebase
  dsimp only
  split
  case h_8 heq => exact absurd heq h
  all_goals exact RebaseOp.noConfusion

theorem runRebaseAt_eq {fuel n : ℕ} {p : Addr} {c : Cursor} {st : ResolverState} (hn : n ≤ fuel)
    (hp : ∀ i < n, R (p + BitVec.ofNat 64 i))
    (hout : ∀ b, R b → Outside I b (rebaseRun (rebaseOps (fetch st.mem p n)) c).2) :
    runRebaseAt I fuel p n c st = runRebase I (rebaseOps (fetch st.mem p n)) c st := by
  induction fuel generalizing n p c st with
  | zero =>
    obtain rfl := Nat.le_zero.mp hn
    rfl
  | succ fuel ih =>
    cases n with
    | zero => rfl
    | succ n =>
      have htail : ∀ i < n, R (p + 1 + BitVec.ofNat 64 i) := by
        intro i hi
        rw [offset_succ]
        exact hp (i+1) (Nat.succ_lt_succ hi)
      -- The rest of the loop, from any state in which the stream is as it was.
      have hgo : ∀ rest c' st', rest <:+ fetch st.mem (p+1) n → KeptOn R st.mem st'.mem →
          (∀ b, R b → Outside I b (rebaseRun (rebaseOps rest) c').2) →
          runRebaseAt I fuel (p + 1 + BitVec.ofNat 64 (n - rest.length)) rest.length c' st' =
            runRebase I (rebaseOps rest) c' st' := by
        intro rest c' st' hsuffix hkept hout'
        obtain ⟨hspan,hfetch⟩ := hkept.rest htail hsuffix
        have hle : rest.length ≤ fuel :=
          (hsuffix.length_le.trans_eq (length_fetch _ _ _)).trans (Nat.succ_le_succ_iff.mp hn)
        refine (ih hle hspan ?_).trans (by rw [hfetch])
        rwa [hfetch]
      have hsuffix := decodeRebase_suffix (st.mem p) (fetch st.mem (p+1) n)
      rw [fetch,rebaseOps_cons] at hout ⊢
      rw [runRebaseAt]
      by_cases hseven : (st.mem p).extractLsb' 4 4 = 7#4
      · have hkept : KeptOn R st.mem (rebaseOne I st c).mem := by
          refine keptOn_foldl_rebaseOne (l := [c]) (fun b hb d hd => hout b hb d ?_) st
          rw [decodeRebase_of_seven hseven,List.mem_singleton.mp hd]
          exact List.mem_cons_self
        rw [decodeRebase_of_seven hseven] at hsuffix hout ⊢
        rw [if_pos hseven,hkept.fetch_eq htail,decodeRebase_of_seven hseven]
        exact hgo _ _ _ hsuffix hkept fun b hb d hd => hout b hb d (List.mem_cons_of_mem c hd)
      · have hne := decodeRebase_ne_seven hseven (fetch st.mem (p+1) n)
        rw [if_neg hseven]
        generalize decodeRebase (st.mem p) (fetch st.mem (p+1) n) = decoded at hsuffix hout hne ⊢
        obtain ⟨op,rest⟩ := decoded
        have hstep : (∀ b, R b → Outside I b ((op.exec c).2 ++ (rebaseRun (rebaseOps rest) (op.exec c).1).2)) →
            runRebaseAt I fuel (p + 1 + BitVec.ofNat 64 (n - rest.length)) rest.length (op.exec c).1
              ((op.exec c).2.foldl (rebaseOne I) st) =
            runRebase I (rebaseOps rest) (op.exec c).1 ((op.exec c).2.foldl (rebaseOne I) st) := by
          intro hplaces
          refine hgo rest _ _ hsuffix (keptOn_foldl_rebaseOne (fun b hb d hd => ?_) st) fun b hb d hd => ?_
          · exact hplaces b hb d (List.mem_append_left _ hd)
          · exact hplaces b hb d (List.mem_append_right _ hd)
        cases op with
        | done => rfl
        | unknown byte => rfl
        | doRebaseAddAddrUleb k => exact absurd rfl (hne k)
        | _ => exact hstep hout

end Rebase

section Binds
variable {E : Env} {I : Image} {R : Addr → Prop}

theorem keptOn_foldl_doBindOne {l : List Bind} (h : ∀ b, R b → Outside I b (l.map Bind.cursor)) (st : ResolverState) :
    KeptOn R st.mem (l.foldl (doBindOne E I) st).mem := fun b hb => foldl_doBindOne_outside l st (h b hb)

theorem bindTimes_symName (step : BitVec 64) (n : ℕ) (r : BindRegs) :
    (bindTimes step n r).1.symName = r.symName ∧ ∀ b ∈ (bindTimes step n r).2, b.symName = nameOf r.symName := by
  induction n generalizing r with
  | zero => exact ⟨rfl,fun b hb => absurd hb List.not_mem_nil⟩
  | succ n ih =>
    obtain ⟨hregs,hbinds⟩ := ih (r.advance step)
    refine ⟨hregs,?_⟩
    intro b hb
    rcases List.mem_cons.mp hb with rfl | hb
    · rfl
    · exact hbinds b hb

theorem BindOp.exec_binds (op : BindOp) (r : BindRegs) : ∀ b ∈ (op.exec r).2, b.symName = nameOf r.symName := by
  cases op with
  | doBindUlebTimesSkippingUleb count skip => exact (bindTimes_symName _ _ r).2
  | doBind | doBindAddAddrUleb | doBindAddAddrImmScaled =>
    intro b hb
    rw [List.mem_singleton.mp hb]
    rfl
  | _ => exact fun b hb => absurd hb List.not_mem_nil

theorem BindOp.exec_symName {op : BindOp} (h : ∀ flags s, op ≠ .setSymbolTrailingFlagsImm flags s) (r : BindRegs) :
    (op.exec r).1.symName = r.symName := by
  cases op with
  | setSymbolTrailingFlagsImm flags s => exact absurd rfl (h flags s)
  | doBindUlebTimesSkippingUleb count skip => exact (bindTimes_symName _ _ r).1
  | _ => rfl

theorem foldl_bindAt_eq {name : Span} {l : List Bind} {st : ResolverState}
    (hname : ∀ i < name.size, R (name.start + BitVec.ofNat 64 i))
    (hl : ∀ b ∈ l, b.symName = nameOf (readCString (name.bytes st.mem)).1)
    (hout : ∀ b, R b → Outside I b (l.map Bind.cursor)) :
    l.foldl (bindAt E I name) st = l.foldl (doBindOne E I) st := by
  induction l generalizing st with
  | nil => rfl
  | cons x l ih =>
    have hx : bindAt E I name st x = doBindOne E I st x := by
      unfold bindAt
      rw [← hl x List.mem_cons_self]
    have hkept : KeptOn R st.mem (doBindOne E I st x).mem := by
      refine keptOn_foldl_doBindOne (l := [x]) (fun b hb d hd => hout b hb d ?_) st
      rw [List.mem_singleton.mp hd]
      exact List.mem_cons_self
    rw [List.foldl_cons,List.foldl_cons,hx]
    refine ih (fun b hb => ?_) fun b hb d hd => hout b hb d (List.mem_cons_of_mem _ hd)
    rw [hl b (List.mem_cons_of_mem x hb),Span.bytes,Span.bytes,hkept.fetch_eq hname]

theorem decodeBind_of_ten {byte : Byte} (h : byte.extractLsb' 4 4 = 10#4) (p : List Byte) :
    decodeBind byte p = (.doBindAddAddrUleb (readUleb128 p).1,(readUleb128 p).2) := by
  unfold decodeBind
  rw [h]
  rfl

theorem decodeBind_ne_ten {byte : Byte} (h : byte.extractLsb' 4 4 ≠ 10#4) (p : List Byte) (k : BitVec 64) :
    (decodeBind byte p).1 ≠ .doBindAddAddrUleb k := by
  unfold decodeBind
  dsimp only
  split
  case h_11 heq => exact absurd heq h
  all_goals exact BindOp.noConfusion

theorem decodeBind_symName {byte : Byte} {p : List Byte} {flags : BitVec 4} {s : List Byte}
    (h : (decodeBind byte p).1 = .setSymbolTrailingFlagsImm flags s) : s = (readCString p).1 := by
  unfold decodeBind at h
  dsimp only at h
  split at h
  all_goals cases h
  rfl

/-- From any state in which the stream is as it was, the loop goes on as the run over the rest of the opcodes. -/
def BindsOn (E : Env) (I : Image) (isLazy : Bool) (R : Addr → Prop) (m : Memory) (fuel : ℕ) (p : Addr) (n : ℕ) : Prop :=
  ∀ rest r name st, rest <:+ fetch m p n → KeptOn R m st.mem → (∀ i < name.size, R (name.start + BitVec.ofNat 64 i)) →
    r.symName = (readCString (name.bytes m)).1 →
    (∀ b, R b → Outside I b ((bindRun isLazy (bindOps rest) r).2.map Bind.cursor)) →
    runBindAt E I isLazy fuel (p + BitVec.ofNat 64 (n - rest.length)) rest.length r name st =
      runBind E I isLazy (bindOps rest) r st

section BindsOn
variable {isLazy : Bool} {fuel n : ℕ} {p : Addr} {r : BindRegs} {name : Span} {st : ResolverState} {rest : List Byte}

/-- `DO_BIND_ADD_ADDR_ULEB`: the operand is read after the bind. -/
theorem BindsOn.addAddr (h : BindsOn E I isLazy R st.mem fuel p n) (hp : ∀ i < n, R (p + BitVec.ofNat 64 i))
    (hname : ∀ i < name.size, R (name.start + BitVec.ofNat 64 i)) (hr : r.symName = (readCString (name.bytes st.mem)).1)
    (hout : ∀ b, R b → Outside I b ((bindRun isLazy (.doBindAddAddrUleb (readUleb128 (fetch st.mem p n)).1 ::
      bindOps (readUleb128 (fetch st.mem p n)).2) r).2.map Bind.cursor)) :
    bindAt E I name st r.bind = doBindOne E I st r.bind ∧
      fetch (doBindOne E I st r.bind).mem p n = fetch st.mem p n ∧
      runBindAt E I isLazy fuel (p + BitVec.ofNat 64 (n - (readUleb128 (fetch st.mem p n)).2.length))
        (readUleb128 (fetch st.mem p n)).2.length (r.advance ((readUleb128 (fetch st.mem p n)).1 + 8)) name
          (doBindOne E I st r.bind) =
      runBind E I isLazy (bindOps (readUleb128 (fetch st.mem p n)).2)
        (r.advance ((readUleb128 (fetch st.mem p n)).1 + 8)) (doBindOne E I st r.bind) := by
  have hplace : ∀ b, R b → Outside I b ([r.bind].map Bind.cursor) := by
    intro b hb d hd
    refine hout b hb d ?_
    rw [List.mem_singleton.mp hd]
    exact List.mem_cons_self
  have hbind : bindAt E I name st r.bind = doBindOne E I st r.bind :=
    foldl_bindAt_eq (l := [r.bind]) hname (fun b hb => by rw [List.mem_singleton.mp hb,← hr]; rfl) hplace
  have hkept : KeptOn R st.mem (doBindOne E I st r.bind).mem := keptOn_foldl_doBindOne (l := [r.bind]) hplace st
  refine ⟨hbind,hkept.fetch_eq hp,h _ _ _ _ (readUleb128_suffix _) hkept hname hr ?_⟩
  exact fun b hb d hd => hout b hb d (List.mem_cons_of_mem _ hd)

/-- An opcode that has been read whole and leaves the name as it is. -/
theorem BindsOn.step (h : BindsOn E I isLazy R st.mem fuel p n) {op : BindOp} (hsuffix : rest <:+ fetch st.mem p n)
    (hop : ∀ flags s, op ≠ .setSymbolTrailingFlagsImm flags s)
    (hname : ∀ i < name.size, R (name.start + BitVec.ofNat 64 i)) (hr : r.symName = (readCString (name.bytes st.mem)).1)
    (hout : ∀ b, R b →
      Outside I b (((op.exec r).2 ++ (bindRun isLazy (bindOps rest) (op.exec r).1).2).map Bind.cursor)) :
    runBindAt E I isLazy fuel (p + BitVec.ofNat 64 (n - rest.length)) rest.length (op.exec r).1 name
        ((op.exec r).2.foldl (bindAt E I name) st) =
      runBind E I isLazy (bindOps rest) (op.exec r).1 ((op.exec r).2.foldl (doBindOne E I) st) := by
  have hfirst : ∀ b, R b → Outside I b ((op.exec r).2.map Bind.cursor) := by
    intro b hb d hd
    refine hout b hb d ?_
    rw [List.map_append]
    exact List.mem_append_left _ hd
  have hread := (BindOp.exec_symName hop r).trans hr
  rw [foldl_bindAt_eq hname (fun b hb => (op.exec_binds r b hb).trans (congrArg nameOf hr)) hfirst]
  refine h rest _ _ _ hsuffix (keptOn_foldl_doBindOne hfirst st) hname hread ?_
  intro b hb d hd
  refine hout b hb d ?_
  rw [List.map_append]
  exact List.mem_append_right _ hd

end BindsOn

theorem runBindAt_eq {isLazy : Bool} {fuel n : ℕ} {p : Addr} {r : BindRegs} {name : Span} {st : ResolverState}
    (hn : n ≤ fuel) (hp : ∀ i < n, R (p + BitVec.ofNat 64 i))
    (hname : ∀ i < name.size, R (name.start + BitVec.ofNat 64 i))
    (hr : r.symName = (readCString (name.bytes st.mem)).1)
    (hout : ∀ b, R b → Outside I b ((bindRun isLazy (bindOps (fetch st.mem p n)) r).2.map Bind.cursor)) :
    runBindAt E I isLazy fuel p n r name st = runBind E I isLazy (bindOps (fetch st.mem p n)) r st := by
  induction fuel generalizing n p r name st with
  | zero =>
    obtain rfl := Nat.le_zero.mp hn
    rfl
  | succ fuel ih =>
    cases n with
    | zero => rfl
    | succ n =>
      have htail : ∀ i < n, R (p + 1 + BitVec.ofNat 64 i) := by
        intro i hi
        rw [offset_succ]
        exact hp (i+1) (Nat.succ_lt_succ hi)
      have hon : BindsOn E I isLazy R st.mem fuel (p+1) n := by
        intro rest r' name' st' hsuffix hkept hname' hr' hout'
        obtain ⟨hspan,hfetch⟩ := hkept.rest htail hsuffix
        have hle : rest.length ≤ fuel :=
          (hsuffix.length_le.trans_eq (length_fetch _ _ _)).trans (Nat.succ_le_succ_iff.mp hn)
        have hread : r'.symName = (readCString (name'.bytes st'.mem)).1 := by
          rw [hr',Span.bytes,Span.bytes,hkept.fetch_eq hname']
        refine (ih hle hspan hname' hread ?_).trans (by rw [hfetch])
        rwa [hfetch]
      have hsuffix := decodeBind_suffix (st.mem p) (fetch st.mem (p+1) n)
      rw [fetch,bindOps_cons] at hout ⊢
      rw [runBindAt]
      by_cases hten : (st.mem p).extractLsb' 4 4 = 10#4
      · rw [decodeBind_of_ten hten] at hout ⊢
        obtain ⟨hbind,hfetch,hrest⟩ := hon.addAddr htail hname hr hout
        rw [if_pos hten,hbind,hfetch,decodeBind_of_ten hten]
        exact hrest
      · have hne := decodeBind_ne_ten hten (fetch st.mem (p+1) n)
        have hsym := @decodeBind_symName (st.mem p) (fetch st.mem (p+1) n)
        rw [if_neg hten]
        generalize decodeBind (st.mem p) (fetch st.mem (p+1) n) = decoded at hsuffix hout hne hsym ⊢
        obtain ⟨op,rest⟩ := decoded
        cases op with
        | done =>
          cases isLazy with
          | false => rfl
          | true => exact hon rest r name st hsuffix (fun b _ => rfl) hname hr hout
        | unknown byte => rfl
        | doBindAddAddrUleb k => exact absurd rfl (hne k)
        | setSymbolTrailingFlagsImm flags s =>
          exact hon rest _ ⟨p+1,n⟩ st hsuffix (fun b _ => rfl) htail (hsym rfl) hout
        | _ => exact hon.step hsuffix (fun _ _ => BindOp.noConfusion) hname hr hout

end Binds

end Machismo.Resolver
