import Machismo.A64.Stores
import Machismo.Loader.Segments
import Machismo.Trampoline.HookFile

/-! # Hooks at addresses

All hooks of a file are checked first: against the functions of the image, the bytes there, the library,
the room in the pool and the range of a branch. Only then the branches are written.
-/
namespace Machismo.Trampoline
open A64 IsaEmul

/-- What the checks of a hook find out. -/
structure Hook where
  runtimeAddr : Addr
  originalInsn : Word
  target : Addr

section Model
variable (E : Env) (M : MachO) (slide : Addr)

def AddressHook.resolved (m : Memory) (hook : AddressHook) : Hook where
  runtimeAddr := hook.vmaddr + slide
  originalInsn := load m (hook.vmaddr + slide) 4
  target := E.dlsym (E.dlopen hook.libPath) hook.symbol

/-- The checks of one hook, after the addresses of the hooks before it. -/
def validateHook (m : Memory) (starts seen : List Addr) (hook : AddressHook) : Option Hook :=
  if hook.vmaddr ∈ seen then none
  else match executableFunctionEnd M hook.vmaddr starts with
    | none => none
    | some functionEnd =>
      if (functionEnd - hook.vmaddr).toNat < hook.expected.length then none
      else if BitVec.allOnes 64 - slide < hook.vmaddr then none
      else if bytesAt m (hook.vmaddr + slide) hook.expected.length ≠ hook.expected then none
      else if E.dlopen hook.libPath = 0 then none
      else if E.dlsym (E.dlopen hook.libPath) hook.symbol = 0 then none
      else some (hook.resolved E slide m)

def validate (m : Memory) (starts : List Addr) : List Addr → List AddressHook → Option (List Hook)
  | _, [] => some []
  | seen, hook :: hooks =>
    match validateHook E M slide m starts seen hook with
    | none => none
    | some h => (validate m starts (seen ++ [hook.vmaddr]) hooks).map fun l => h :: l

def inReach (base : Addr) : ℕ → List Hook → Bool
  | _, [] => true
  | used, hook :: hooks =>
    inBranchRange (branchOffset hook.runtimeAddr (base + BitVec.ofNat 64 used)) &&
      inReach base (used + islandSize) hooks

/-- The branches up to the first that fails, and their number. -/
def writeHooks : List Hook → State → ℕ × State
  | [], st => (0,st)
  | hook :: hooks, st =>
    match writeTrampoline hook.runtimeAddr hook.target st with
    | (false,st) => (0,st)
    | (true,st) =>
      let r := writeHooks hooks st
      (r.1 + 1,r.2)

def rollback (hooks : List Hook) (poolStart : ℕ) (st : State) : State :=
  { st with
    mem := hooks.foldl (fun m hook => store m hook.runtimeAddr 4 hook.originalInsn) st.mem
    poolUsed := poolStart }

/-- The capacity of the pool and the range of the branches. -/
def placeable (st : State) (hooks : List Hook) : Bool :=
  match st.pool with
  | none => false
  | some base => st.poolUsed ≤ st.poolSize ∧ hooks.length ≤ (st.poolSize - st.poolUsed) / islandSize ∧
      inReach base st.poolUsed hooks

def patchAddresses (file : Option (List Char)) (st : State) : ℤ × State :=
  if ¬M.isMachO64 then (-1,st)
  else match loadAddressHooks file with
    | none => (-1,st)
    | some fileHooks =>
      match decodeFunctionStarts M slide st.mem with
      | none => (-1,st)
      | some starts =>
        match validate E M slide st.mem starts [] fileHooks with
        | none => (-1,st)
        | some hooks =>
          if ¬placeable st hooks then (-1,st)
          else match makeTextWritable E M slide st with
            | (false,st) => (-1,st)
            | (true,st) =>
              let r := writeHooks hooks st
              if r.1 ≠ hooks.length then (-1,rollback (hooks.take r.1) st.poolUsed r.2)
              else ((BitVec.ofNat 32 hooks.length).toInt,r.2)

end Model

/-- The stores of an island: two instructions, and the target behind them. -/
def islandStores (a target : Addr) : List Store := [⟨a,4,ldrX16⟩,⟨a + 4,4,brX16⟩,⟨a + 8,8,target⟩]

/-- The branch of a hook to its island. -/
def Hook.branchStore (hook : Hook) (island : Addr) : Store :=
  ⟨hook.runtimeAddr,4,encB (branchOffset hook.runtimeAddr island / 4)⟩

/-- What is stored for hooks, the islands taken from a place in the pool on. -/
def hookStores (base : Addr) : ℕ → List Hook → List Store
  | _, [] => []
  | used, hook :: hooks =>
    let island := base + BitVec.ofNat 64 used
    islandStores island hook.target ++ hook.branchStore island :: hookStores base (used + islandSize) hooks

section Write
variable {base : Addr} {hooks : List Hook} {used : ℕ} {s : Store} {m : Memory}

theorem mem_hookStores : s ∈ hookStores base used hooks ↔ ∃ i hook, hooks[i]? = some hook ∧
    (s ∈ islandStores (base + BitVec.ofNat 64 (used + islandSize*i)) hook.target ∨
      s = hook.branchStore (base + BitVec.ofNat 64 (used + islandSize*i))) := by
  induction hooks generalizing used with
  | nil => simp [hookStores]
  | cons first hooks ih =>
    have hplace : ∀ i, used + islandSize*(i + 1) = used + islandSize + islandSize*i := by
      intro i
      rw [Nat.mul_succ]
      omega
    rw [hookStores,List.mem_append,List.mem_cons,ih]
    constructor
    · rintro (h | h | ⟨i,hook,hi,h⟩)
      · exact ⟨0,first,rfl,.inl h⟩
      · exact ⟨0,first,rfl,.inr h⟩
      · exact ⟨i + 1,hook,hi,by rwa [hplace]⟩
    · rintro ⟨_ | i,hook,hi,h⟩
      · obtain rfl := Option.some.inj hi
        exact h.imp_right .inl
      · rw [hplace] at h
        exact .inr (.inr ⟨i,hook,hi,h⟩)

theorem size_hookStores (hs : s ∈ hookStores base used hooks) : s.size ≤ 2^64 := by
  obtain ⟨i,hook,-,hs | rfl⟩ := mem_hookStores.mp hs
  · simp only [islandStores,List.mem_cons,List.not_mem_nil,or_false] at hs
    obtain rfl | rfl | rfl := hs <;> simp
  · simp [Hook.branchStore]

theorem islandAt_iff {a target : Addr} : (∀ s ∈ islandStores a target, s.Done m) ↔ IslandAt m a target := by
  simp only [islandStores,List.forall_mem_cons,List.not_mem_nil,false_implies,implies_true,and_true]
  constructor
  · rintro ⟨hldr,hbr,htarget⟩
    exact ⟨hldr,hbr,htarget⟩
  · intro h
    exact ⟨h.ldr,h.br,h.target⟩

theorem islandStores_outside {a target b : Addr} (hb : 16 ≤ (b - a).toNat) (hs : s ∈ islandStores a target) :
    s.size ≤ (b - s.addr).toNat := by
  simp only [islandStores, List.mem_cons, List.not_mem_nil, or_false] at hs
  obtain rfl | rfl | rfl := hs
  · exact le_trans (by simp) hb
  · exact toNat_sub_of_add (k := 4) rfl (by simp) (le_trans (by simp) hb)
  · exact toNat_sub_of_add (k := 8) rfl (by simp) (le_trans (by simp) hb)

theorem place_of_island {b : Addr} {k size : ℕ} (hk : k + 16 ≤ size) (hsize : size < 2^64)
    (hb : (b - (base + BitVec.ofNat 64 k)).toNat < 16) :
    k ≤ (b - base).toNat ∧ (b - base).toNat < k + 16 ∧ (b - base).toNat < size := by
  simp only [BitVec.toNat_sub, BitVec.toNat_add, BitVec.toNat_ofNat] at *
  omega

theorem agrees_islandStores {a target : Addr} {t : Store} (hs : s ∈ islandStores a target)
    (ht : t ∈ islandStores a target) : s.Agrees t := by
  obtain ⟨h04,h08,h48⟩ := apart_words a
  simp only [islandStores, List.mem_cons, List.not_mem_nil, or_false] at hs ht
  obtain rfl | rfl | rfl := hs <;> obtain rfl | rfl | rfl := ht
  · exact .refl _
  · exact Store.agrees_of_apart h04
  · exact Store.agrees_of_apart h08
  · exact Store.agrees_of_apart h04.symm
  · exact .refl _
  · exact Store.agrees_of_apart h48
  · exact Store.agrees_of_apart h08.symm
  · exact Store.agrees_of_apart h48.symm
  · exact .refl _

theorem writeHooks_eq (hooks : List Hook) (st : State) (hp : st.pool = some base)
    (hroom : st.poolUsed + islandSize*hooks.length ≤ st.poolSize) (hreach : inReach base st.poolUsed hooks) :
    writeHooks hooks st = (hooks.length,{ st with
      mem := runStores (hookStores base st.poolUsed hooks) st.mem
      poolUsed := st.poolUsed + islandSize*hooks.length
      written := st.written ++ hooks.map Hook.runtimeAddr }) := by
  induction hooks generalizing st with
  | nil => simp [writeHooks, hookStores, runStores]
  | cons hook hooks ih =>
    rw [inReach, Bool.and_eq_true] at hreach
    rw [List.length_cons, Nat.mul_succ] at hroom
    have hres : st.reserve = some (base + BitVec.ofNat 64 st.poolUsed) := by
      rw [State.reserve, hp, Option.bind_some, if_pos (by omega)]
    have hwrite : writeTrampoline hook.runtimeAddr hook.target st = (true,{ st with
        mem := store (putIsland st.mem (base + BitVec.ofNat 64 st.poolUsed) ldrX16 brX16 hook.target)
          hook.runtimeAddr 4 (encB (branchOffset hook.runtimeAddr (base + BitVec.ofNat 64 st.poolUsed) / 4))
        poolUsed := st.poolUsed + islandSize
        written := st.written ++ [hook.runtimeAddr] }) := by
      unfold writeTrampoline allocIsland
      rw [hres]
      dsimp only [Option.map_some]
      rw [if_pos hreach.1]
      rfl
    have hstores : runStores (hookStores base st.poolUsed (hook :: hooks)) st.mem =
        runStores (hookStores base (st.poolUsed + islandSize) hooks)
          (store (putIsland st.mem (base + BitVec.ofNat 64 st.poolUsed) ldrX16 brX16 hook.target)
            hook.runtimeAddr 4 (encB (branchOffset hook.runtimeAddr (base + BitVec.ofNat 64 st.poolUsed) / 4))) := rfl
    rw [writeHooks, hwrite]
    dsimp only
    rw [ih]
    · simp only [List.length_cons, List.map_cons, List.append_assoc, List.singleton_append, hstores,
        Nat.mul_add, Nat.mul_one, Nat.add_assoc, Nat.add_comm islandSize]
    · exact hp
    · dsimp only
      omega
    · exact hreach.2

end Write

section Checks
variable {E : Env} {M : MachO} {slide : Addr} {m : Memory} {starts seen : List Addr} {hook hook' : AddressHook}

/-- A hook at a function of at least four bytes, with a target. -/
structure AddressHook.Valid (E : Env) (M : MachO) (starts : List Addr) (hook : AddressHook) : Prop where
  target : E.dlsym (E.dlopen hook.libPath) hook.symbol ≠ 0
  function : ∃ f, executableFunctionEnd M hook.vmaddr starts = some f ∧ hook.vmaddr.toNat + 4 ≤ f.toNat

theorem validateHook_spec {h : Hook} (hval : validateHook E M slide m starts seen hook = some h) :
    hook.vmaddr ∉ seen ∧ hook.Valid E M starts ∧ h = hook.resolved E slide m := by
  unfold validateHook at hval
  split at hval
  · cases hval
  next hseen =>
    split at hval
    · cases hval
    next f hf =>
      split at hval
      · cases hval
      next hlen =>
        iterate 3
          split at hval
          · cases hval
        split at hval
        · cases hval
        next htarget =>
          cases hval
          obtain ⟨-,seg,-,-,sec,-,-,-,hvf,-⟩ := executableFunctionEnd_spec hf
          refine ⟨hseen,⟨htarget,f,hf,?_⟩,rfl⟩
          have h4 := hook.fourBytes
          rw [BitVec.toNat_sub_of_le (BitVec.le_of_lt hvf)] at hlen
          omega

theorem validate_spec {hooks : List AddressHook} {l : List Hook}
    (hval : validate E M slide m starts seen hooks = some l) :
    l = hooks.map (AddressHook.resolved E slide m) ∧ (hooks.map AddressHook.vmaddr).Nodup ∧
      ∀ hook ∈ hooks, hook.vmaddr ∉ seen ∧ hook.Valid E M starts := by
  induction hooks generalizing seen l with
  | nil =>
    cases hval
    exact ⟨rfl,List.nodup_nil,nofun⟩
  | cons hook hooks ih =>
    rw [validate] at hval
    split at hval
    · cases hval
    next h hone =>
      obtain ⟨l',hrest,rfl⟩ := Option.map_eq_some_iff.mp hval
      obtain ⟨hseen,hvalid,rfl⟩ := validateHook_spec hone
      obtain ⟨rfl,hnodup,hall⟩ := ih hrest
      refine ⟨rfl,?_,?_⟩
      · refine List.nodup_cons.mpr ⟨fun hmem => ?_,hnodup⟩
        obtain ⟨hook',hmem,heq⟩ := List.mem_map.mp hmem
        exact (hall hook' hmem).1 (by simp [heq])
      · intro hook' hmem
        rcases List.mem_cons.mp hmem with rfl | hmem
        · exact ⟨hseen,hvalid⟩
        · exact ⟨fun hs => (hall hook' hmem).1 (List.mem_append_left _ hs),(hall hook' hmem).2⟩

/-- The words at two functions share no byte: the first function ends before the second starts. -/
theorem AddressHook.Valid.apart (hs : starts.Pairwise (· < ·)) (hv : hook.Valid E M starts)
    (hv' : hook'.Valid E M starts) (hne : hook.vmaddr ≠ hook'.vmaddr) :
    Apart (hook.vmaddr + slide) 4 (hook'.vmaddr + slide) 4 := by
  obtain ⟨f,hf,hlen⟩ := hv.function
  obtain ⟨f',hf',hlen'⟩ := hv'.function
  have hmem := (executableFunctionEnd_spec hf).1
  have hmem' := (executableFunctionEnd_spec hf').1
  have hlt : hook.vmaddr.toNat + 4 ≤ hook'.vmaddr.toNat ∨ hook'.vmaddr.toNat + 4 ≤ hook.vmaddr.toNat := by
    rcases Nat.lt_or_gt_of_ne (BitVec.toNat_ne.mp hne) with h | h
    · exact .inl (hlen.trans (executableFunctionEnd_le hs hf hmem' h))
    · exact .inr (hlen'.trans (executableFunctionEnd_le hs hf' hmem h))
  unfold Apart
  rw [add_sub_add_right_eq_sub, add_sub_add_right_eq_sub]
  have hf64 := f.isLt
  have hf64' := f'.isLt
  rw [BitVec.toNat_sub, BitVec.toNat_sub]
  omega

end Checks

/-! ## All or nothing -/

def MachO.IsText (M : MachO) (v : Addr) : Prop :=
  ∃ seg ∈ M.segments, seg.segname = "__TEXT".toList ∧
    ((v - seg.vmaddr).toNat < seg.vmsize.toNat ∨ ∃ sec ∈ seg.sections, sec.contains v)

def State.islandOf (st : State) (i : ℕ) : Option Addr :=
  st.pool.map fun base => base + BitVec.ofNat 64 (st.poolUsed + islandSize*i)

/-- The hooks are in place, each with its own island, and nothing else has changed. -/
structure Installed (E : Env) (M : MachO) (slide : Addr) (starts : List Addr) (hooks : List AddressHook)
    (st st' : State) : Prop where
  nodup : (hooks.map AddressHook.vmaddr).Nodup
  isStart : ∀ hook ∈ hooks, hook.vmaddr ∈ starts
  redirected : ∀ i hook, hooks[i]? = some hook → ∃ island, st.islandOf i = some island ∧
    branchTarget st'.mem (hook.vmaddr + slide) = some island ∧
    IslandAt st'.mem island (E.dlsym (E.dlopen hook.libPath) hook.symbol) ∧
    jumpTarget st'.mem island = some (E.dlsym (E.dlopen hook.libPath) hook.symbol) ∧
    E.dlsym (E.dlopen hook.libPath) hook.symbol ≠ 0
  islands : ∀ i j a b, i < j → j < hooks.length → st.islandOf i = some a → st.islandOf j = some b →
    Apart a 16 b 16
  inside : ∀ hook ∈ hooks, ∃ f, executableFunctionEnd M hook.vmaddr starts = some f ∧
    hook.vmaddr.toNat + 4 ≤ f.toNat
  disjoint : hooks.Pairwise fun h h' => Apart (h.vmaddr + slide) 4 (h'.vmaddr + slide) 4
  text : ∀ v, M.IsText v → (∀ hook ∈ hooks, 4 ≤ (v + slide - (hook.vmaddr + slide)).toNat) →
    st'.mem (v + slide) = st.mem (v + slide)
  frame : ∀ b, ¬st.InPool b → (∀ hook ∈ hooks, 4 ≤ (b - (hook.vmaddr + slide)).toNat) →
    st'.mem b = st.mem b

/-- Either every hook of the file is in place, or nothing has changed. -/
def AllOrNothing (E : Env) (M : MachO) (slide : Addr) (file : Option (List Char)) (st : State) : Prop :=
  ((patchAddresses E M slide file st).1 < 0 → (patchAddresses E M slide file st).2.mem = st.mem ∧
      (patchAddresses E M slide file st).2.poolUsed = st.poolUsed) ∧
    (0 ≤ (patchAddresses E M slide file st).1 → ∃ hooks starts, loadAddressHooks file = some hooks ∧
      decodeFunctionStarts M slide st.mem = some starts ∧
      (patchAddresses E M slide file st).1 = hooks.length ∧
      Installed E M slide starts hooks st (patchAddresses E M slide file st).2)

/-- All checks of a call are met. -/
structure Passes (E : Env) (M : MachO) (slide : Addr) (file : Option (List Char)) (st : State) (base : Addr)
    (hooks : List AddressHook) (starts : List Addr) : Prop where
  isMachO64 : M.isMachO64
  load : loadAddressHooks file = some hooks
  decoded : decodeFunctionStarts M slide st.mem = some starts
  valid : validate E M slide st.mem starts [] hooks = some (hooks.map (AddressHook.resolved E slide st.mem))
  pool : st.pool = some base
  room : st.poolUsed + islandSize*hooks.length ≤ st.poolSize
  reach : inReach base st.poolUsed (hooks.map (AddressHook.resolved E slide st.mem))
  writable : (makeTextWritable E M slide st).1

/-- What is stored for the hooks never puts two bytes in one place, nor another one where text is kept. -/
structure Harmless (M : MachO) (slide base : Addr) (hooks : List Hook) (st : State) : Prop where
  agree : ∀ s ∈ hookStores base st.poolUsed hooks, ∀ t ∈ hookStores base st.poolUsed hooks, s.Agrees t
  text : ∀ v, M.IsText v → (∀ hook ∈ hooks, 4 ≤ (v + slide - hook.runtimeAddr).toNat) →
    ∀ s ∈ hookStores base st.poolUsed hooks, ∀ x, s.byteAt (v + slide) = some x → x = st.mem (v + slide)

section AllOrNothing
variable {E : Env} {M : MachO} {slide base : Addr} {file : Option (List Char)} {starts : List Addr}
  {hooks : List AddressHook} {st : State}

theorem placeable_iff {l : List Hook} : placeable st l ↔
    ∃ base, st.pool = some base ∧ st.poolUsed + islandSize*l.length ≤ st.poolSize ∧
      inReach base st.poolUsed l := by
  unfold placeable
  cases hp : st.pool with
  | none => simp
  | some base =>
    simp only [Option.some.injEq, exists_eq_left', decide_eq_true_eq]
    have h16 : islandSize = 16 := rfl
    rw [Nat.le_div_iff_mul_le (by decide : 0 < islandSize), Nat.mul_comm l.length]
    constructor
    · intro h
      exact ⟨by omega,h.2.2⟩
    · intro h
      exact ⟨by omega,by omega,h.2⟩

theorem makeTextWritable_eq {ok : Bool} {st' : State} (h : makeTextWritable E M slide st = (ok,st')) :
    ∃ a b, st' = { st with textBase := a, textSize := b } := by
  unfold makeTextWritable at h
  split at h
  · cases h
    exact ⟨st.textBase,st.textSize,rfl⟩
  · cases h
    exact ⟨_,_,rfl⟩

theorem Passes.result (h : Passes E M slide file st base hooks starts) :
    ∃ a b, patchAddresses E M slide file st = ((BitVec.ofNat 32 hooks.length).toInt,{ st with
      textBase := a
      textSize := b
      mem := runStores (hookStores base st.poolUsed (hooks.map (AddressHook.resolved E slide st.mem))) st.mem
      poolUsed := st.poolUsed + islandSize*hooks.length
      written := st.written ++ (hooks.map (AddressHook.resolved E slide st.mem)).map Hook.runtimeAddr }) := by
  have hroom : st.poolUsed + islandSize*(hooks.map (AddressHook.resolved E slide st.mem)).length ≤ st.poolSize := by
    rw [List.length_map]
    exact h.room
  have hplace := placeable_iff.mpr ⟨base,h.pool,hroom,h.reach⟩
  rcases hw : makeTextWritable E M slide st with ⟨ok,st₁⟩
  obtain ⟨a,b,rfl⟩ := makeTextWritable_eq hw
  obtain rfl : ok = true := by simpa [hw] using h.writable
  have hwrite := writeHooks_eq (hooks.map (AddressHook.resolved E slide st.mem))
    { st with textBase := a, textSize := b } h.pool hroom h.reach
  refine ⟨a,b,?_⟩
  unfold patchAddresses
  rw [if_neg (not_not.mpr h.isMachO64), h.load]
  dsimp only
  rw [h.decoded]
  dsimp only
  rw [h.valid]
  dsimp only
  rw [if_neg (not_not.mpr hplace), hw]
  dsimp only
  rw [hwrite, if_neg (not_not.mpr rfl), List.length_map]

theorem patchAddresses_cases (E : Env) (M : MachO) (slide : Addr) (file : Option (List Char)) (st : State) :
    (∃ a b, patchAddresses E M slide file st = (-1,{ st with textBase := a, textSize := b })) ∨
      ∃ base hooks starts, Passes E M slide file st base hooks starts := by
  have hkeep : ∃ a b, ((-1 : ℤ),st) = (-1,{ st with textBase := a, textSize := b }) :=
    ⟨st.textBase,st.textSize,rfl⟩
  cases hr : patchAddresses E M slide file st with
  | mk result st' =>
    unfold patchAddresses at hr
    split at hr
    · exact .inl (hr ▸ hkeep)
    next hmacho =>
      split at hr
      · exact .inl (hr ▸ hkeep)
      next hooks hload =>
        split at hr
        · exact .inl (hr ▸ hkeep)
        next starts hstarts =>
          split at hr
          · exact .inl (hr ▸ hkeep)
          next l hval =>
            obtain ⟨rfl,-,-⟩ := validate_spec hval
            split at hr
            · exact .inl (hr ▸ hkeep)
            next hplace =>
              obtain ⟨base,hp,hroom,hreach⟩ := placeable_iff.mp (not_not.mp hplace)
              rw [List.length_map] at hroom
              rcases hw : makeTextWritable E M slide st with ⟨_ | _,st₁⟩
              · obtain ⟨a,b,rfl⟩ := makeTextWritable_eq hw
                rw [hw] at hr
                exact .inl ⟨a,b,hr.symm⟩
              · have hwritable : (makeTextWritable E M slide st).1 := by rw [hw]
                exact .inr ⟨base,hooks,starts,not_not.mp hmacho,hload,hstarts,hval,hp,hroom,hreach,hwritable⟩

theorem Passes.count (h : Passes E M slide file st base hooks starts) (hsize : st.poolSize < 2^35) :
    (BitVec.ofNat 32 hooks.length).toInt = hooks.length := by
  have h31 : hooks.length < 2^31 := by
    have hroom := h.room
    unfold islandSize at hroom
    omega
  rw [BitVec.toInt_eq_toNat_bmod, BitVec.toNat_ofNat, Int.bmod_def]
  omega

theorem hooksDone_iff {hooks : List Hook} {m : Memory} {used : ℕ} (hreach : ∀ i hook, hooks[i]? = some hook →
      inBranchRange (branchOffset hook.runtimeAddr (base + BitVec.ofNat 64 (used + islandSize*i)))) :
    (∀ s ∈ hookStores base used hooks, s.Done m) ↔ ∀ i hook, hooks[i]? = some hook →
      branchTarget m hook.runtimeAddr = some (base + BitVec.ofNat 64 (used + islandSize*i)) ∧
      IslandAt m (base + BitVec.ofNat 64 (used + islandSize*i)) hook.target := by
  constructor
  · intro h i hook hi
    refine ⟨branchTarget_encB (hreach i hook hi) ?_,islandAt_iff.mp fun s hs => ?_⟩
    · exact h _ (mem_hookStores.mpr ⟨i,hook,hi,.inr rfl⟩)
    · exact h s (mem_hookStores.mpr ⟨i,hook,hi,.inl hs⟩)
  · intro h s hs
    obtain ⟨i,hook,hi,hs | rfl⟩ := mem_hookStores.mp hs
    · exact islandAt_iff.mpr (h i hook hi).2 s hs
    · exact load_of_branchTarget (hreach i hook hi) (h i hook hi).1

theorem inReach_get {hooks : List Hook} {used : ℕ} (h : inReach base used hooks) {i : ℕ} {hook : Hook}
    (hi : hooks[i]? = some hook) :
    inBranchRange (branchOffset hook.runtimeAddr (base + BitVec.ofNat 64 (used + islandSize*i))) := by
  induction hooks generalizing used i with
  | nil => cases hi
  | cons first hooks ih =>
    rw [inReach, Bool.and_eq_true] at h
    cases i with
    | zero =>
      obtain rfl := Option.some.inj hi
      exact h.1
    | succ i =>
      have hplace : used + islandSize*(i + 1) = used + islandSize + islandSize*i := by
        rw [Nat.mul_succ]
        omega
      rw [hplace]
      exact ih h.2 hi

theorem Passes.island_fits (h : Passes E M slide file st base hooks starts) {i : ℕ} {hook : Hook} {m : Memory}
    (hi : (hooks.map (AddressHook.resolved E slide m))[i]? = some hook) :
    st.poolUsed + islandSize*i + 16 ≤ st.poolSize := by
  have hlt := (List.getElem?_eq_some_iff.mp hi).1
  have hroom := h.room
  rw [List.length_map] at hlt
  unfold islandSize at hroom ⊢
  omega

theorem getElem?_resolved {i : ℕ} {hook : AddressHook} {m : Memory} (hi : hooks[i]? = some hook) :
    (hooks.map (AddressHook.resolved E slide m))[i]? = some (hook.resolved E slide m) := by
  rw [List.getElem?_map, hi, Option.map_some]

theorem Passes.installed (h : Passes E M slide file st base hooks starts) (hsize : st.poolSize < 2^35)
    (hharmless : Harmless M slide base (hooks.map (AddressHook.resolved E slide st.mem)) st) {st' : State}
    (hmem : st'.mem =
      runStores (hookStores base st.poolUsed (hooks.map (AddressHook.resolved E slide st.mem))) st.mem) :
    Installed E M slide starts hooks st st' := by
  obtain ⟨-,hnodup,hall⟩ := validate_spec h.valid
  have hroom := h.room
  have h16 : islandSize = 16 := rfl
  have hdisjoint : hooks.Pairwise fun h h' => Apart (h.vmaddr + slide) 4 (h'.vmaddr + slide) 4 := by
    refine (List.pairwise_map.mp hnodup).imp_of_mem fun {h₁ h₂} hh hh' hne => ?_
    exact (hall h₁ hh).2.apart (decodeFunctionStarts_sorted h.decoded) (hall h₂ hh').2 hne
  have hdone := (runStores_done_iff (m := st.mem) fun s hs => size_hookStores hs).mpr hharmless.agree
  have hplaced := (hooksDone_iff fun i hook => inReach_get h.reach).mp hdone
  refine ⟨hnodup,?_,?_,?_,fun hook hh => (hall hook hh).2.function,hdisjoint,?_,?_⟩
  · intro hook hh
    obtain ⟨f,hf,-⟩ := (hall hook hh).2.function
    exact (executableFunctionEnd_spec hf).1
  · intro i hook hi
    obtain ⟨hbranch,hisland⟩ := hplaced i _ (getElem?_resolved hi)
    rw [← hmem] at hbranch hisland
    refine ⟨_,by rw [State.islandOf, h.pool, Option.map_some],hbranch,hisland,hisland.jumpTarget,?_⟩
    exact (hall hook (List.mem_of_getElem? hi)).2.target
  · intro i j a b hij hj ha hb
    rw [State.islandOf, h.pool, Option.map_some, Option.some.injEq] at ha hb
    subst ha hb
    rw [h16] at hroom ⊢
    exact apart_add base (by omega) (by omega) (by omega) (by omega)
  · intro v hv hwords
    rw [hmem]
    refine (runStores_keeps_iff (fun s hs => size_hookStores hs) hdone).mpr (hharmless.text v hv fun hook hh => ?_)
    obtain ⟨hook,hmem',rfl⟩ := List.mem_map.mp hh
    exact hwords hook hmem'
  · intro b hb hwords
    rw [hmem]
    refine runStores_outside fun s hs => ?_
    obtain ⟨i,hook,hi,hs | rfl⟩ := mem_hookStores.mp hs
    · refine islandStores_outside ?_ hs
      by_contra hnear
      exact hb ⟨base,h.pool,(place_of_island (h.island_fits hi) (by omega) (not_le.mp hnear)).2.2⟩
    · obtain ⟨hook,hh,rfl⟩ := List.mem_map.mp (List.mem_of_getElem? hi)
      exact hwords hook hh

theorem Passes.harmless (h : Passes E M slide file st base hooks starts) {st' : State}
    (hmem : st'.mem =
      runStores (hookStores base st.poolUsed (hooks.map (AddressHook.resolved E slide st.mem))) st.mem)
    (hin : Installed E M slide starts hooks st st') :
    Harmless M slide base (hooks.map (AddressHook.resolved E slide st.mem)) st := by
  have hdone : ∀ s ∈ hookStores base st.poolUsed (hooks.map (AddressHook.resolved E slide st.mem)),
      s.Done st'.mem := by
    refine (hooksDone_iff fun i hook => inReach_get h.reach).mpr fun i hook hi => ?_
    rw [List.getElem?_map] at hi
    obtain ⟨hook,hget,rfl⟩ := Option.map_eq_some_iff.mp hi
    obtain ⟨island,hof,hbranch,hisland,-⟩ := hin.redirected i hook hget
    rw [State.islandOf, h.pool, Option.map_some, Option.some.injEq] at hof
    subst hof
    exact ⟨hbranch,hisland⟩
  rw [hmem] at hdone
  refine ⟨(runStores_done_iff fun s hs => size_hookStores hs).mp hdone,fun v hv hwords => ?_⟩
  refine (runStores_keeps_iff (fun s hs => size_hookStores hs) hdone).mp ?_
  rw [← hmem]
  exact hin.text v hv fun hook hh => hwords _ (List.mem_map_of_mem hh)

theorem allOrNothing_of_harmless (hsize : st.poolSize < 2^35)
    (hharmless : ∀ base hooks starts, Passes E M slide file st base hooks starts →
      Harmless M slide base (hooks.map (AddressHook.resolved E slide st.mem)) st) :
    AllOrNothing E M slide file st := by
  unfold AllOrNothing
  rcases patchAddresses_cases E M slide file st with ⟨a,b,hr⟩ | ⟨base,hooks,starts,hpass⟩
  · rw [hr]
    exact ⟨fun _ => ⟨rfl,rfl⟩,fun h => absurd (show (0 : ℤ) ≤ -1 from h) (by decide)⟩
  · obtain ⟨a,b,hr⟩ := hpass.result
    rw [hr, hpass.count hsize]
    refine ⟨fun hneg => absurd hneg (Int.natCast_nonneg _).not_gt,fun _ => ?_⟩
    exact ⟨hooks,starts,hpass.load,hpass.decoded,rfl,hpass.installed hsize (hharmless _ _ _ hpass) rfl⟩

/-- The hooks of a file are in place or nothing has changed, exactly if a check fails or the islands and
branches are harmless. -/
theorem patchAddresses_allOrNothing_iff (E : Env) (M : MachO) (slide : Addr) (file : Option (List Char))
    (hsize : st.poolSize < 2^35) : AllOrNothing E M slide file st ↔
      ∀ base hooks starts, Passes E M slide file st base hooks starts →
        Harmless M slide base (hooks.map (AddressHook.resolved E slide st.mem)) st := by
  constructor
  · rintro ⟨-,hall⟩ base hooks starts hpass
    obtain ⟨a,b,hr⟩ := hpass.result
    rw [hr, hpass.count hsize] at hall
    obtain ⟨hooks',starts',hload,hdecoded,-,hin⟩ := hall (Int.natCast_nonneg _)
    obtain rfl := Option.some.inj (hload.symm.trans hpass.load)
    obtain rfl := Option.some.inj (hdecoded.symm.trans hpass.decoded)
    exact hpass.harmless rfl hin
  · exact allOrNothing_of_harmless hsize

/-- No byte of `__TEXT` is in the pool. -/
def PoolOutsideText (M : MachO) (slide : Addr) (st : State) : Prop := ∀ v, M.IsText v → ¬st.InPool (v + slide)

theorem AddressHook.Valid.isText {hook : AddressHook} (hv : hook.Valid E M starts) {b : Addr}
    (hb : (b - (hook.vmaddr + slide)).toNat < 4) : M.IsText (b - slide) := by
  obtain ⟨f,hf,hlen⟩ := hv.function
  obtain ⟨-,seg,hseg,htext,sec,hsec,-,hle,-,hfe⟩ := executableFunctionEnd_spec hf
  refine ⟨seg,hseg,htext,.inr ⟨sec,hsec,?_⟩⟩
  have hk : (b - slide).toNat = hook.vmaddr.toNat + (b - (hook.vmaddr + slide)).toNat := by
    have hf64 := f.isLt
    have hsum : b - slide = hook.vmaddr + (b - (hook.vmaddr + slide)) := by ring
    rw [hsum, BitVec.toNat_add]
    omega
  simp only [Section.contains, decide_eq_true_eq, BitVec.le_def, BitVec.lt_def] at *
  omega

theorem Passes.harmless_of_pool (h : Passes E M slide file st base hooks starts) (hsize : st.poolSize < 2^35)
    (hpool : PoolOutsideText M slide st) :
    Harmless M slide base (hooks.map (AddressHook.resolved E slide st.mem)) st := by
  obtain ⟨-,hnodup,hall⟩ := validate_spec h.valid
  -- a byte of an island is in the pool, and a byte of a branch is text
  have hisland : ∀ {b : Addr} {i : ℕ} {hook : Hook} {s : Store} {x : Byte},
      (hooks.map (AddressHook.resolved E slide st.mem))[i]? = some hook →
      s ∈ islandStores (base + BitVec.ofNat 64 (st.poolUsed + islandSize*i)) hook.target → s.byteAt b = some x →
      st.poolUsed + islandSize*i ≤ (b - base).toNat ∧ (b - base).toNat < st.poolUsed + islandSize*i + 16 ∧
        (b - base).toNat < st.poolSize := by
    intro b i hook s x hi hs hx
    refine place_of_island (h.island_fits hi) (by omega) (not_le.mp fun hfar => ?_)
    exact absurd (Store.lt_of_byteAt hx) (islandStores_outside hfar hs).not_gt
  have hbranch : ∀ {b : Addr} {hook : Hook} {island : Addr} {x : Byte},
      hook ∈ hooks.map (AddressHook.resolved E slide st.mem) → (hook.branchStore island).byteAt b = some x →
      M.IsText (b - slide) := by
    intro b hook island x hh hx
    obtain ⟨hook,hmem,rfl⟩ := List.mem_map.mp hh
    exact (hall hook hmem).2.isText (Store.lt_of_byteAt hx)
  have hapart : ∀ {b : Addr}, M.IsText (b - slide) → ¬(b - base).toNat < st.poolSize := by
    intro b hb hlt
    exact hpool _ hb ⟨base,h.pool,by rwa [BitVec.sub_add_cancel]⟩
  constructor
  · intro s hs t ht b x y hx hy
    obtain ⟨i,hook,hi,hs⟩ := mem_hookStores.mp hs
    obtain ⟨j,hook',hj,ht⟩ := mem_hookStores.mp ht
    obtain hs | rfl := hs <;> obtain ht | rfl := ht
    · have hsi := hisland hi hs hx
      have htj := hisland hj ht hy
      have hij : i = j := by
        unfold islandSize at hsi htj
        omega
      subst hij
      obtain rfl := Option.some.inj (hi.symm.trans hj)
      exact agrees_islandStores hs ht b x y hx hy
    · exact absurd (hisland hi hs hx).2.2 (hapart (hbranch (List.mem_of_getElem? hj) hy))
    · exact absurd (hisland hj ht hy).2.2 (hapart (hbranch (List.mem_of_getElem? hi) hx))
    · rw [List.getElem?_map] at hi hj
      obtain ⟨a,ha,rfl⟩ := Option.map_eq_some_iff.mp hi
      obtain ⟨a',ha',rfl⟩ := Option.map_eq_some_iff.mp hj
      by_cases heq : a.vmaddr = a'.vmaddr
      · have hij : i = j := by
          refine (List.getElem?_inj ?_ hnodup).mp ?_
          · rw [List.length_map]
            exact (List.getElem?_eq_some_iff.mp ha).1
          · rw [List.getElem?_map, List.getElem?_map, ha, ha', Option.map_some, Option.map_some, heq]
        subst hij
        obtain rfl := Option.some.inj (ha.symm.trans ha')
        exact Store.Agrees.refl _ b x y hx hy
      · have hvalid := fun {i a} (ha : hooks[i]? = some a) => (hall a (List.mem_of_getElem? ha)).2
        have hwords : Apart (a.vmaddr + slide) 4 (a'.vmaddr + slide) 4 :=
          (hvalid ha).apart (decodeFunctionStarts_sorted h.decoded) (hvalid ha') heq
        exact Store.agrees_of_apart hwords b x y hx hy
  · intro v hv hwords s hs x hx
    obtain ⟨i,hook,hi,hs | rfl⟩ := mem_hookStores.mp hs
    · refine absurd (hisland hi hs hx).2.2 (hapart ?_)
      rwa [BitVec.add_sub_cancel]
    · exact absurd (Store.lt_of_byteAt hx) (hwords hook (List.mem_of_getElem? hi)).not_gt

/-- So it is enough that the pool is outside of the text, as behind an image with its segments in order. -/
theorem allOrNothing_of_poolOutsideText (hsize : st.poolSize < 2^35) (hpool : PoolOutsideText M slide st) :
    AllOrNothing E M slide file st :=
  allOrNothing_of_harmless hsize fun _ _ _ hpass => hpass.harmless_of_pool hsize hpool

end AllOrNothing

/-- Two functions of 16 bytes, each `mov w0,#42` and `ret`. -/
def twoFunctions : MachO where
  isMachO64 := true
  commands := [
    .segment ⟨"__TEXT".toList,0x100000000,0x4000,0,0x4000,5,[⟨0x100001000,0x100,0x80000400⟩]⟩,
    .functionStarts 0x800 4]

def twoFunctionsState : State where
  mem := store (store (store (fun _ => 0) 0x500000800 4 0x00102080#32) 0x500001000 8 0xd65f03c052800540#64)
    0x500001010 8 0xd65f03c052800540#64
  pool := some 0x500004000
  poolSize := 0x100000
  poolUsed := 32
  stubIsland := none
  abortCaller := none
  textBase := 0
  textSize := 0
  written := []

def oneLibrary : Env where
  dlopen _ := 1
  dlsym _ name := if name = "f".toList then 0x7000 else if name = "g".toList then 0x7100 else 0
  pageSize := 0x1000
  textWritable := true
  protect _ := true
  abortAddr := 0x6000

def twoHooks : List Char := "0x100001000 lib f 40058052c0035fd6 # the first\n0x100001010 lib g 40058052\n".toList

theorem poolOutsideText_twoFunctions : PoolOutsideText twoFunctions 0x400000000 twoFunctionsState := by
  rintro v ⟨seg,hseg,-,hv⟩ ⟨base,hbase,hin⟩
  cases hbase
  simp only [twoFunctions, MachO.segments, List.filterMap_cons, List.filterMap_nil, List.mem_singleton] at hseg
  subst hseg
  simp only [twoFunctionsState, Section.contains, List.mem_singleton, exists_eq_left, decide_eq_true_eq] at hv hin
  rcases hv with hv | hv
  · bv_omega
  · bv_omega

/-- Both hooks are in place behind an image whose pool is outside of the text. -/
theorem patchAddresses_allOrNothing_twoFunctions :
    (patchAddresses oneLibrary twoFunctions 0x400000000 (some twoHooks) twoFunctionsState).1 = 2 ∧
      ∃ hooks starts, loadAddressHooks (some twoHooks) = some hooks ∧
        decodeFunctionStarts twoFunctions 0x400000000 twoFunctionsState.mem = some starts ∧ hooks.length = 2 ∧
        Installed oneLibrary twoFunctions 0x400000000 starts hooks twoFunctionsState
          (patchAddresses oneLibrary twoFunctions 0x400000000 (some twoHooks) twoFunctionsState).2 := by
  have h2 : (patchAddresses oneLibrary twoFunctions 0x400000000 (some twoHooks) twoFunctionsState).1 = 2 := by
    decide +kernel
  have hsize : twoFunctionsState.poolSize < 2^35 := by decide
  have hall := (patchAddresses_allOrNothing_iff oneLibrary twoFunctions 0x400000000 (some twoHooks) hsize).mpr
    fun _ _ _ hpass => hpass.harmless_of_pool hsize poolOutsideText_twoFunctions
  obtain ⟨hooks,starts,hload,hdecoded,hcount,hin⟩ := hall.2 (by rw [h2]; decide)
  rw [h2] at hcount ⊢
  exact ⟨rfl,hooks,starts,hload,hdecoded,(Int.ofNat_inj.mp hcount).symm,hin⟩

/-- `__DATA`, `__TEXT` and `__LINKEDIT` in this order, the last one before the second. -/
def outOfOrder : Loader.MachHeader where
  sizeofcmds := 296
  commands := [⟨72,some ⟨"__DATA".toList,0x100000000,0x4000,0x200000,0x4000,3,3,[]⟩⟩,
    ⟨152,some ⟨"__TEXT".toList,0x100008000,0x200000,0,0x200000,5,5,[⟨0x100009000,0x1ff000,0x80000400⟩]⟩⟩,
    ⟨72,some ⟨"__LINKEDIT".toList,0x100004000,0x4000,0x204000,0x4000,1,1,[]⟩⟩]

def outOfOrderImage : MachO where
  isMachO64 := true
  commands := (outOfOrder.segments.map fun seg => .segment
    ⟨seg.segname,seg.vmaddr,seg.vmsize,seg.fileoff,seg.filesize,seg.initprot,seg.sections⟩) ++
      [.functionStarts 0x204000 4]

/-- The functions of before, with the megabyte behind the islands for atomics as pool. -/
def outOfOrderState : State where
  mem := store (store (store (fun _ => 0) 0x500004000 4 0x00102080#32) 0x500009000 8 0xd65f03c052800540#64)
    0x500009010 8 0xd65f03c052800540#64
  pool := some ((Loader.load64Layout 0x1000 outOfOrder 0x500000000).pool + 0x80000)
  poolSize := 0x100000
  poolUsed := 0
  stubIsland := none
  abortCaller := none
  textBase := 0
  textSize := 0
  written := []

def outOfOrderHooks : List Char := "0x100009000 lib f 40058052\n0x100009010 lib g 40058052\n".toList

/-- The pool of this image is in its text: both hooks are placed, and bytes beside their branches change. -/
theorem patchAddresses_over_text :
    (patchAddresses oneLibrary outOfOrderImage (Loader.load64Layout 0x1000 outOfOrder 0x500000000).slide
      (some outOfOrderHooks) outOfOrderState).1 = 2 ∧
    ¬AllOrNothing oneLibrary outOfOrderImage (Loader.load64Layout 0x1000 outOfOrder 0x500000000).slide
      (some outOfOrderHooks) outOfOrderState := by
  have hslide : (Loader.load64Layout 0x1000 outOfOrder 0x500000000).slide = 0x400000000 := by decide +kernel
  rw [hslide]
  have h2 : (patchAddresses oneLibrary outOfOrderImage 0x400000000 (some outOfOrderHooks) outOfOrderState).1 = 2 := by
    decide +kernel
  have hchanged : (patchAddresses oneLibrary outOfOrderImage 0x400000000 (some outOfOrderHooks)
      outOfOrderState).2.mem (0x100088000 + 0x400000000) ≠ outOfOrderState.mem (0x100088000 + 0x400000000) := by
    decide +kernel
  have haddrs : (loadAddressHooks (some outOfOrderHooks)).map (List.map AddressHook.vmaddr) =
      some [0x100009000,0x100009010] := by decide +kernel
  have htext : outOfOrderImage.IsText 0x100088000 := by
    refine ⟨⟨"__TEXT".toList,0x100008000,0x200000,0,0x200000,5,[⟨0x100009000,0x1ff000,0x80000400⟩]⟩,?_,rfl,.inl ?_⟩
    · decide +kernel
    · decide
  refine ⟨h2,fun hall => ?_⟩
  obtain ⟨hooks,starts,hload,-,-,hin⟩ := hall.2 (by rw [h2]; decide)
  rw [hload, Option.map_some, Option.some.injEq] at haddrs
  refine hchanged (hin.text _ htext fun hook hh => ?_)
  have hmem := List.mem_map_of_mem (f := AddressHook.vmaddr) hh
  rw [haddrs, List.mem_cons, List.mem_singleton] at hmem
  obtain h | h := hmem <;> rw [h] <;> decide

end Machismo.Trampoline
