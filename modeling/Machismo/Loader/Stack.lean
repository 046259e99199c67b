import Machismo.A64.Memory
import Machismo.Data.Bytes
import Machismo.Data.Hex

/-! # The initial stack

The words that the program finds at its start are written upwards from the stack pointer, and the strings
of `apple` downwards from the top of the stack.  The room for both is taken off the top by one count of
words, before the stack pointer is aligned.
-/
namespace Machismo.Loader
open A64 Data

def writeBytes (m : Memory) (a : Addr) (bs : List Byte) : Memory := fun b => bs[(b - a).toNat]?.getD (m b)

/-- Memory by the distance from an address. -/
def view (m : Memory) (base : Addr) : Content := fun x => m (base + BitVec.ofNat 64 x)

def readBytes (m : Memory) (a : Addr) (n : ℕ) : List Byte := bytesFrom (view m a) 0 n

def readWords (m : Memory) (a : Addr) (n : ℕ) : List (BitVec 64) :=
  (List.range n).map fun i => load m (a + BitVec.ofNat 64 (8*i)) 8

def ascii (s : String) : List Byte := s.toList.map fun c => BitVec.ofNat 8 c.toNat

/-- The parts of `load_results` that are read.  The counters of the loops over the arguments and the
environment are of 32 bits. -/
structure LoadResults where
  mh : BitVec 64
  stackTop : Addr
  kernfd : BitVec 32
  rootPath : Option (List Byte)
  argv : List (BitVec 64)
  envp : List (BitVec 64)
  argv_lt : argv.length < 2^31
  envp_lt : envp.length < 2^31

/-- `EXECUTABLE_PATH` without its terminator -/
def executablePathKey : List Byte := ascii "executable_path="

def decimal (n : ℤ) : List Byte :=
  (if n < 0 then ascii "-" else []) ++ (Nat.toDigits 10 n.natAbs).map fun c => BitVec.ofNat 8 c.toNat

/-- An array of a size after `snprintf`; what it had behind the terminator stays. -/
def snprintf (size : ℕ) (text : List Byte) (stale : ℕ → Byte) : List Byte :=
  text.take (size-1) ++ 0 :: ((List.range size).drop (min (size-1) text.length + 1)).map stale

/-- The path in its buffer, without the root if it lies under it. -/
def executablePath (rootPath : Option (List Byte)) (filepath : List Byte) : List Byte :=
  let path := filepath.take 4095
  match rootPath with
  | none => path
  | some root => if root <+: path then path.drop root.length else path

def userLongCount (n : ℕ) : ℕ := (n + 7) / 8

def putUser (s : Memory × Addr) (value : BitVec 64) : Memory × Addr :=
  (writeBytes s.1 s.2 (leBytes 8 value.toNat),s.2 + 8)

/-- The loop over an array, up to a null entry. -/
def putArray : List (BitVec 64) → Memory × Addr → Memory × Addr
  | [], s => s
  | a :: l, s => if a = 0 then s else putArray l (putUser s a)

/-- What the array `kernfd`, and `elfcalls`, has before it is written. -/
structure StaleArrays where
  kernfd : ℕ → Byte
  elfcalls : ℕ → Byte

/-- `kernfd=%d`, as much as goes into its array -/
def kernfdText (lr : LoadResults) : List Byte := (ascii "kernfd=" ++ decimal lr.kernfd.toInt).take 11

/-- `elf_calls=%lx` -/
def elfcallsText (elfCalls : Addr) : List Byte :=
  (ascii "elf_calls=" ++ (hex elfCalls.toNat).map fun c => BitVec.ofNat 8 c.toNat).take 26

/-- The new stack pointer and memory. -/
def setupStack64 (filepath : List Byte) (lr : LoadResults) (elfCalls : Addr) (stale : StaleArrays) (m : Memory) :
    Addr × Memory :=
  let path := executablePath lr.rootPath filepath
  let sp := (lr.stackTop &&& ~~~7#64) - BitVec.ofNat 64
    (8*(1 + 1 + (lr.argv.length + 1) + (lr.envp.length + 1) + 4 + userLongCount (path.length + 17 + 12 + 27)))
  let exepath := lr.stackTop - BitVec.ofNat 64 path.length - 17
  let m := writeBytes m exepath executablePathKey
  let m := writeBytes m (exepath + 16) (path ++ [0])
  let kernfd := exepath - 12
  let m := writeBytes m kernfd (snprintf 12 (ascii "kernfd=" ++ decimal lr.kernfd.toInt) stale.kernfd)
  let elfcalls := kernfd - 27
  let m := writeBytes m elfcalls (snprintf 27
    (ascii "elf_calls=" ++ (hex elfCalls.toNat).map fun c => BitVec.ofNat 8 c.toNat) stale.elfcalls)
  let sp := sp &&& ~~~15#64
  let s := putArray lr.argv (putUser (putUser (m,sp) lr.mh) (BitVec.ofNat 64 lr.argv.length))
  let s := putArray lr.envp (putUser s 0)
  (sp,([exepath,kernfd,elfcalls,0].foldl putUser (putUser s 0)).1)

section Memory
variable {m : Memory} {base : Addr} {bs : List Byte} {off x n : ℕ}

theorem toNat_place (base : Addr) {off x : ℕ} (hx : x < 2^64) (hoff : off < 2^64) :
    (base + BitVec.ofNat 64 x - (base + BitVec.ofNat 64 off)).toNat = if off ≤ x then x - off else 2^64 + x - off := by
  simp only [BitVec.toNat_sub,BitVec.toNat_add,BitVec.toNat_ofNat]
  split_ifs <;> omega

theorem view_writeBytes (h : off + bs.length ≤ 2^64) (hx : x < 2^64) :
    view (writeBytes m (base + BitVec.ofNat 64 off) bs) base x = put (view m base) off bs x := by
  cases bs with
  | nil => simp [view,writeBytes,put]
  | cons b bs =>
    rw [List.length_cons] at h
    simp only [view,writeBytes]
    rw [toNat_place base hx (by omega)]
    unfold put
    split_ifs with hle
    · rfl
    · rw [List.getElem?_eq_none (by rw [List.length_cons]; omega)]
      rfl

theorem readBytes_place (m : Memory) (base : Addr) (off n : ℕ) :
    readBytes m (base + BitVec.ofNat 64 off) n = bytesFrom (view m base) off n := by
  refine List.map_congr_left fun i _ => ?_
  simp only [view,Nat.zero_add]
  rw [BitVec.ofNat_add,← BitVec.add_assoc]

theorem loadNat_eq (m : Memory) (a : Addr) (n : ℕ) : loadNat m a n = leNat (readBytes m a n) := by
  induction n generalizing a with
  | zero => rfl
  | succ n ih =>
    have hsplit : readBytes m a (n+1) = m a :: readBytes m (a+1) n := by
      have hone : a + 1 = a + BitVec.ofNat 64 1 := rfl
      have hzero : view m a 0 = m a := congrArg m (BitVec.add_zero a)
      rw [hone,readBytes_place,readBytes,Nat.add_comm n 1,bytesFrom_add]
      exact congrArg (· :: _) hzero
    rw [loadNat,ih,hsplit,leNat,Nat.add_comm]
    rfl

end Memory

section Words
variable {m : Memory} {base : Addr} {off : ℕ}

def wordBytes (ws : List (BitVec 64)) : List Byte := ws.flatMap fun w => leBytes 8 w.toNat

theorem length_wordBytes (ws : List (BitVec 64)) : (wordBytes ws).length = 8*ws.length := by
  rw [wordBytes,List.length_flatMap,List.map_congr_left fun w _ => length_leBytes 8 w.toNat,List.map_const',
    List.sum_replicate,smul_eq_mul,Nat.mul_comm]

theorem put_put_behind (c : Content) (off : ℕ) (as bs : List Byte) :
    put (put c off as) (off + as.length) bs = put c off (as ++ bs) := by
  funext x
  unfold put
  by_cases hx : off ≤ x
  · by_cases hx' : off + as.length ≤ x
    · have hnone : as[x - off]? = none := List.getElem?_eq_none (by omega)
      rw [if_pos hx',if_pos hx,if_pos hx,List.getElem?_append_right (by omega),hnone,Nat.sub_add_eq]
      rfl
    · rw [if_neg hx',if_pos hx,if_pos hx,List.getElem?_append_left (by omega)]
  · rw [if_neg hx,if_neg fun h => hx (Nat.le_trans (Nat.le_add_right _ _) h),if_neg hx]

theorem put_congr {c c' : Content} {x : ℕ} (h : c x = c' x) (off : ℕ) (bs : List Byte) :
    put c off bs x = put c' off bs x := by
  unfold put
  rw [h]

theorem foldl_putUser {ws : List (BitVec 64)} (h : off + 8*ws.length ≤ 2^64) :
    (∀ x < 2^64, view (ws.foldl putUser (m,base + BitVec.ofNat 64 off)).1 base x =
      put (view m base) off (wordBytes ws) x) ∧
    (ws.foldl putUser (m,base + BitVec.ofNat 64 off)).2 = base + BitVec.ofNat 64 (off + 8*ws.length) := by
  induction ws generalizing m off with
  | nil => exact ⟨fun x _ => by simp [wordBytes,put],rfl⟩
  | cons w ws ih =>
    rw [List.length_cons] at h
    have hnext : putUser (m,base + BitVec.ofNat 64 off) w =
        (writeBytes m (base + BitVec.ofNat 64 off) (leBytes 8 w.toNat),base + BitVec.ofNat 64 (off+8)) := by
      refine Prod.ext rfl ?_
      rw [BitVec.ofNat_add,← BitVec.add_assoc]
      rfl
    obtain ⟨hview,hend⟩ := @ih (writeBytes m (base + BitVec.ofNat 64 off) (leBytes 8 w.toNat)) (off+8) (by omega)
    rw [List.foldl_cons,hnext]
    refine ⟨fun x hx => ?_,hend.trans (by rw [List.length_cons]; congr 2; omega)⟩
    have hword : ∀ x < 2^64, view (writeBytes m (base + BitVec.ofNat 64 off) (leBytes 8 w.toNat)) base x =
        put (view m base) off (leBytes 8 w.toNat) x :=
      fun x hx => view_writeBytes (by rw [length_leBytes]; omega) hx
    rw [hview x hx]
    have hput := congrFun (put_put_behind (view m base) off (leBytes 8 w.toNat) (wordBytes ws)) x
    rw [length_leBytes] at hput
    exact (put_congr (hword x hx) _ _).trans hput

theorem wordBytes_drop_take {ws : List (BitVec 64)} {i : ℕ} (hi : i < ws.length) :
    ((wordBytes ws).drop (8*i)).take 8 = leBytes 8 ws[i].toNat := by
  induction ws generalizing i with
  | nil => cases hi
  | cons w ws ih =>
    have hcons : wordBytes (w :: ws) = leBytes 8 w.toNat ++ wordBytes ws := rfl
    cases i with
    | zero => rw [hcons,Nat.mul_zero,List.drop_zero,List.take_left' (length_leBytes 8 w.toNat),List.getElem_cons_zero]
    | succ i =>
      have hdrop : (wordBytes (w :: ws)).drop (8*(i+1)) = (wordBytes ws).drop (8*i) := by
        rw [hcons,Nat.mul_add,Nat.add_comm,← List.drop_drop,List.drop_left' (length_leBytes 8 w.toNat)]
      rw [hdrop,ih (Nat.lt_of_succ_lt_succ hi),List.getElem_cons_succ]

theorem readWords_eq {ws : List (BitVec 64)} {c : Content} (hlen : 8*ws.length ≤ 2^64)
    (h : ∀ x < 2^64, view m base x = put c 0 (wordBytes ws) x) : readWords m base ws.length = ws := by
  refine List.ext_getElem (by simp [readWords]) fun i hi hi' => ?_
  have hbytes : readBytes m (base + BitVec.ofNat 64 (8*i)) 8 = leBytes 8 ws[i].toNat := by
    rw [readBytes_place,bytesFrom_congr fun x _ hx => h x (by omega)]
    have hinside : bytesFrom (put c 0 (wordBytes ws)) (0 + 8*i) 8 = ((wordBytes ws).drop (8*i)).take 8 :=
      bytesFrom_put_inside c 0 (by rw [length_wordBytes]; omega)
    rw [Nat.zero_add] at hinside
    rw [hinside,wordBytes_drop_take hi']
  simp only [readWords,List.getElem_map,List.getElem_range]
  rw [load,loadNat_eq,hbytes,leNat_leBytes]
  apply BitVec.eq_of_toNat_eq
  have hlt := ws[i].isLt
  rw [BitVec.toNat_ofNat]
  omega

end Words

theorem putArray_eq {l : List (BitVec 64)} (h : ∀ a ∈ l, a ≠ 0) (s : Memory × Addr) :
    putArray l s = l.foldl putUser s := by
  induction l generalizing s with
  | nil => rfl
  | cons a l ih =>
    obtain ⟨ha,hl⟩ := List.forall_mem_cons.mp h
    rw [putArray,if_neg ha,ih hl]
    rfl

theorem length_snprintf {size : ℕ} (hsize : 0 < size) (text : List Byte) (stale : ℕ → Byte) :
    (snprintf size text stale).length = size := by
  simp only [snprintf,List.length_append,List.length_take,List.length_cons,List.length_map,List.length_drop,
    List.length_range]
  omega

theorem and_not_low_bits (x : BitVec 64) {k : ℕ} (hk : k ≤ 64) :
    x &&& ~~~(BitVec.ofNat 64 (2^k-1)) = x - BitVec.ofNat 64 (x.toNat % 2^k) := by
  have hshift : x &&& ~~~(BitVec.ofNat 64 (2^k-1)) = (x >>> k) <<< k := by
    apply BitVec.eq_of_getLsbD_eq
    intro i hi
    rw [BitVec.getLsbD_and,BitVec.getLsbD_not,BitVec.getLsbD_ofNat,Nat.testBit_two_pow_sub_one,
      BitVec.getLsbD_shiftLeft,BitVec.getLsbD_ushiftRight]
    by_cases hlt : i < k
    · simp [hlt]
    · simp [hlt,hi,Nat.add_sub_of_le (not_lt.mp hlt)]
  have hx := x.isLt
  have hpow : 2^k ≤ 2^64 := Nat.pow_le_pow_right (by decide) hk
  have hdiv := Nat.div_add_mod x.toNat (2^k)
  have hmod := Nat.mod_lt x.toNat (Nat.two_pow_pos k)
  rw [hshift]
  apply BitVec.eq_of_toNat_eq
  rw [BitVec.toNat_shiftLeft,BitVec.toNat_ushiftRight,Nat.shiftLeft_eq,Nat.shiftRight_eq_div_pow,BitVec.toNat_sub,
    BitVec.toNat_ofNat,Nat.mul_comm]
  omega

/-- What the program finds on its stack. -/
structure InitialStack (lr : LoadResults) (path : List Byte) (elfCalls exepath kernfd elfcalls sp : Addr)
    (m : Memory) : Prop where
  aligned : sp.toNat % 16 = 0
  words : readWords m sp (8 + lr.argv.length + lr.envp.length) =
    [lr.mh,BitVec.ofNat 64 lr.argv.length] ++ lr.argv ++ [0] ++ lr.envp ++ [0] ++ [exepath,kernfd,elfcalls,0]
  /-- The words end below the lowest string. -/
  below : 8*(8 + lr.argv.length + lr.envp.length) ≤ (elfcalls - sp).toNat
  /-- The strings stand next to each other, up to the top of the stack. -/
  top : (lr.stackTop - sp).toNat = (elfcalls - sp).toNat + 27 + 12 + (path.length + 17)
  strings : elfcalls + 27 = kernfd ∧ kernfd + 12 = exepath ∧
    exepath + BitVec.ofNat 64 (path.length + 17) = lr.stackTop
  pathString : readBytes m exepath (path.length + 17) = executablePathKey ++ path ++ [0]
  kernfdString : ∃ stale, readBytes m kernfd 12 = kernfdText lr ++ 0 :: stale
  elfcallsString : ∃ stale, readBytes m elfcalls 27 = elfcallsText elfCalls ++ 0 :: stale

theorem bytesFrom_put_all (c : Content) (off : ℕ) {bs : List Byte} {n : ℕ} (h : bs.length = n) :
    bytesFrom (put c off bs) off n = bs := by
  have hall : bytesFrom (put c off bs) (off + 0) n = (bs.drop 0).take n := bytesFrom_put_inside c off (by omega)
  rw [Nat.add_zero,List.drop_zero,List.take_of_length_le (by omega)] at hall
  exact hall

section Layout
variable {lr : LoadResults} {filepath : List Byte}

/-- The words above the stack pointer. -/
def stackWords (lr : LoadResults) (exepath kernfd elfcalls : Addr) : List (BitVec 64) :=
  [lr.mh,BitVec.ofNat 64 lr.argv.length] ++ lr.argv ++ [0] ++ lr.envp ++ [0] ++ [exepath,kernfd,elfcalls,0]

theorem length_stackWords (lr : LoadResults) (exepath kernfd elfcalls : Addr) :
    (stackWords lr exepath kernfd elfcalls).length = 8 + lr.argv.length + lr.envp.length := by
  simp only [stackWords,List.length_append,List.length_cons,List.length_nil]
  omega

theorem putArrays_eq (hargv : ∀ a ∈ lr.argv, a ≠ 0) (henvp : ∀ a ∈ lr.envp, a ≠ 0) (s : Memory × Addr)
    (exepath kernfd elfcalls : Addr) :
    [exepath,kernfd,elfcalls,0].foldl putUser (putUser (putArray lr.envp (putUser (putArray lr.argv
      (putUser (putUser s lr.mh) (BitVec.ofNat 64 lr.argv.length))) 0)) 0) =
    (stackWords lr exepath kernfd elfcalls).foldl putUser s := by
  rw [putArray_eq henvp,putArray_eq hargv]
  simp only [stackWords,List.foldl_append,List.foldl_cons,List.foldl_nil]

theorem exists_room (htop : lr.stackTop.toNat % 8 = 0) (need : ℕ) :
    ∃ room, need ≤ room ∧ room < need + 16 ∧
      ((lr.stackTop &&& ~~~7#64) - BitVec.ofNat 64 need) &&& ~~~15#64 = lr.stackTop - BitVec.ofNat 64 room ∧
      (lr.stackTop - BitVec.ofNat 64 room).toNat % 16 = 0 := by
  have h7 := and_not_low_bits lr.stackTop (k := 3) (by decide)
  have h15 := and_not_low_bits (lr.stackTop - BitVec.ofNat 64 need) (k := 4) (by decide)
  have hzero : lr.stackTop.toNat % 2^3 = 0 := htop
  rw [hzero,BitVec.sub_zero] at h7
  have hroom : lr.stackTop - BitVec.ofNat 64 need -
        BitVec.ofNat 64 ((lr.stackTop - BitVec.ofNat 64 need).toNat % 2^4) =
      lr.stackTop - BitVec.ofNat 64 (need + (lr.stackTop - BitVec.ofNat 64 need).toNat % 2^4) := by
    rw [BitVec.ofNat_add,sub_sub]
  refine ⟨need + (lr.stackTop - BitVec.ofNat 64 need).toNat % 2^4,by omega,by omega,?_,?_⟩
  · exact (congrArg (fun x => (x - BitVec.ofNat 64 need) &&& ~~~15#64) h7).trans (h15.trans hroom)
  · rw [← hroom,BitVec.toNat_sub,BitVec.toNat_ofNat]
    have hlt := (lr.stackTop - BitVec.ofNat 64 need).isLt
    omega

theorem sub_ofNat_eq (x : Addr) {a b : ℕ} (h : a ≤ b) :
    x - BitVec.ofNat 64 a = x - BitVec.ofNat 64 b + BitVec.ofNat 64 (b - a) := by
  have hb : BitVec.ofNat 64 b = BitVec.ofNat 64 (b - a) + BitVec.ofNat 64 a := by
    rw [← BitVec.ofNat_add,Nat.sub_add_cancel h]
  rw [hb]
  ring

theorem length_executablePathKey : executablePathKey.length = 16 := by decide +kernel

/-- The memory of the new stack, by the distance from the stack pointer. -/
def stackContent (lr : LoadResults) (path : List Byte) (elfCalls : Addr) (stale : StaleArrays) (room : ℕ)
    (ws : List (BitVec 64)) (c : Content) : Content :=
  let c := put c (room - (path.length+17)) (executablePathKey ++ (path ++ [0]))
  let c := put c (room - (path.length+29)) (snprintf 12 (ascii "kernfd=" ++ decimal lr.kernfd.toInt) stale.kernfd)
  let c := put c (room - (path.length+56)) (snprintf 27
    (ascii "elf_calls=" ++ (hex elfCalls.toNat).map fun c => BitVec.ofNat 8 c.toNat) stale.elfcalls)
  put c 0 (wordBytes ws)

theorem length_executablePath_le (rootPath : Option (List Byte)) (filepath : List Byte) :
    (executablePath rootPath filepath).length ≤ 4095 := by
  have htake : (filepath.take 4095).length ≤ 4095 := List.length_take_le _ _
  unfold executablePath
  cases rootPath with
  | none => exact htake
  | some root =>
    dsimp only
    split_ifs
    · rw [List.length_drop]
      omega
    · exact htake

theorem executablePath_none (h : filepath.length < 4096) : executablePath none filepath = filepath :=
  List.take_of_length_le (Nat.le_of_lt_succ h)

theorem view_strings (m : Memory) (base : Addr) (key rest kern elf : List Byte) {e k f x : ℕ}
    (he : e + key.length + rest.length ≤ 2^64) (hk : k + kern.length ≤ 2^64) (hf : f + elf.length ≤ 2^64)
    (hx : x < 2^64) :
    view (writeBytes (writeBytes (writeBytes (writeBytes m (base + BitVec.ofNat 64 e) key)
      (base + BitVec.ofNat 64 (e + key.length)) rest) (base + BitVec.ofNat 64 k) kern)
      (base + BitVec.ofNat 64 f) elf) base x =
    put (put (put (view m base) e (key ++ rest)) k kern) f elf x := by
  rw [view_writeBytes hf hx,← put_put_behind]
  refine put_congr ?_ _ _
  rw [view_writeBytes hk hx]
  refine put_congr ?_ _ _
  rw [view_writeBytes he hx]
  exact put_congr (view_writeBytes (by omega) hx) _ _

theorem view_setupStack64 (elfCalls : Addr) (stale : StaleArrays) (m : Memory)
    (hargv : ∀ a ∈ lr.argv, a ≠ 0) (henvp : ∀ a ∈ lr.envp, a ≠ 0)
    (htop : lr.stackTop.toNat % 8 = 0) {path : List Byte} (hpath : executablePath lr.rootPath filepath = path) :
    ∃ room sp, 8*(8 + lr.argv.length + lr.envp.length) + (path.length + 56) ≤ room ∧ room < 2^64 ∧
      sp = lr.stackTop - BitVec.ofNat 64 room ∧ sp.toNat % 16 = 0 ∧
      (setupStack64 filepath lr elfCalls stale m).1 = sp ∧
      ∀ x < 2^64, view (setupStack64 filepath lr elfCalls stale m).2 sp x =
        stackContent lr path elfCalls stale room (stackWords lr (lr.stackTop - BitVec.ofNat 64 (path.length+17))
          (lr.stackTop - BitVec.ofNat 64 (path.length+29)) (lr.stackTop - BitVec.ofNat 64 (path.length+56)))
          (view m sp) x := by
  have hlen : path.length ≤ 4095 := hpath ▸ length_executablePath_le lr.rootPath filepath
  have hargc := lr.argv_lt
  have henvc := lr.envp_lt
  obtain ⟨room,hle,hlt,hsp,haligned⟩ := exists_room htop (8*(1 + 1 + (lr.argv.length + 1) +
    (lr.envp.length + 1) + 4 + userLongCount (path.length + 17 + 12 + 27)))
  unfold userLongCount at hle hlt
  set sp := lr.stackTop - BitVec.ofNat 64 room with hspdef
  have hexe : lr.stackTop - BitVec.ofNat 64 path.length - 17 = lr.stackTop - BitVec.ofNat 64 (path.length+17) := by
    rw [sub_sub]
    exact congrArg (lr.stackTop - ·) (BitVec.ofNat_add path.length 17).symm
  have hkern : lr.stackTop - BitVec.ofNat 64 (path.length+17) - 12 =
      lr.stackTop - BitVec.ofNat 64 (path.length+29) := by
    rw [sub_sub]
    exact congrArg (lr.stackTop - ·) (BitVec.ofNat_add (path.length+17) 12).symm
  have helf : lr.stackTop - BitVec.ofNat 64 (path.length+29) - 27 =
      lr.stackTop - BitVec.ofNat 64 (path.length+56) := by
    rw [sub_sub]
    exact congrArg (lr.stackTop - ·) (BitVec.ofNat_add (path.length+29) 27).symm
  refine ⟨room,sp,by omega,by omega,rfl,haligned,?_,?_⟩
  · simp only [setupStack64,hpath]
    exact hsp
  · intro x hx
    simp only [setupStack64,hpath]
    rw [hsp,hexe,hkern,helf,putArrays_eq hargv henvp]
    have hat : ∀ k, k ≤ room → lr.stackTop - BitVec.ofNat 64 k = sp + BitVec.ofNat 64 (room - k) :=
      fun k hk => sub_ofNat_eq lr.stackTop hk
    have hzero : sp = sp + BitVec.ofNat 64 0 := (BitVec.add_zero sp).symm
    have hbehind : sp + BitVec.ofNat 64 (room - (path.length+17)) + 16 =
        sp + BitVec.ofNat 64 (room - (path.length+17) + 16) := by
      rw [BitVec.ofNat_add,← BitVec.add_assoc]
      rfl
    set words := stackWords lr (lr.stackTop - BitVec.ofNat 64 (path.length+17))
      (lr.stackTop - BitVec.ofNat 64 (path.length+29)) (lr.stackTop - BitVec.ofNat 64 (path.length+56)) with hwords
    have hcount : words.length = 8 + lr.argv.length + lr.envp.length := length_stackWords lr _ _ _
    rw [hat (path.length+17) (by omega),hat (path.length+29) (by omega),hat (path.length+56) (by omega),hbehind]
    have hstrings := view_strings m sp executablePathKey (path ++ [0])
      (snprintf 12 (ascii "kernfd=" ++ decimal lr.kernfd.toInt) stale.kernfd)
      (snprintf 27 (ascii "elf_calls=" ++ (hex elfCalls.toNat).map fun c => BitVec.ofNat 8 c.toNat) stale.elfcalls)
      (e := room - (path.length+17)) (k := room - (path.length+29)) (f := room - (path.length+56))
      (by rw [length_executablePathKey,List.length_append,List.length_singleton]; omega)
      (by rw [length_snprintf (by decide)]; omega) (by rw [length_snprintf (by decide)]; omega) hx
    rw [length_executablePathKey] at hstrings
    have hrun := fun m' => (@foldl_putUser m' sp 0 words (by omega)).1 x hx
    rw [← hzero] at hrun
    exact (hrun _).trans (put_congr hstrings 0 _)

section Strings
variable {path : List Byte} {elfCalls : Addr} {stale : StaleArrays} {room : ℕ} {ws : List (BitVec 64)} {c : Content}
  (hroom : (wordBytes ws).length + (path.length+56) ≤ room)
include hroom

theorem stackContent_path : bytesFrom (stackContent lr path elfCalls stale room ws c) (room - (path.length+17))
    (path.length+17) = executablePathKey ++ path ++ [0] := by
  simp only [stackContent]
  rw [bytesFrom_put_outside _ (.inr (by omega)),
    bytesFrom_put_outside _ (.inr (by rw [length_snprintf (by decide)]; omega)),
    bytesFrom_put_outside _ (.inr (by rw [length_snprintf (by decide)]; omega)),List.append_assoc]
  have htext : (executablePathKey ++ (path ++ [0])).length = path.length + 17 := by
    rw [List.length_append,length_executablePathKey,List.length_append,List.length_singleton]
    omega
  exact bytesFrom_put_all _ _ htext

theorem stackContent_kernfd : bytesFrom (stackContent lr path elfCalls stale room ws c) (room - (path.length+29)) 12 =
    snprintf 12 (ascii "kernfd=" ++ decimal lr.kernfd.toInt) stale.kernfd := by
  simp only [stackContent]
  rw [bytesFrom_put_outside _ (.inr (by omega)),
    bytesFrom_put_outside _ (.inr (by rw [length_snprintf (by decide)]; omega)),
    bytesFrom_put_all _ _ (length_snprintf (by decide) _ _)]

theorem stackContent_elfcalls : bytesFrom (stackContent lr path elfCalls stale room ws c) (room - (path.length+56)) 27 =
    snprintf 27 (ascii "elf_calls=" ++ (hex elfCalls.toNat).map fun c => BitVec.ofNat 8 c.toNat) stale.elfcalls := by
  simp only [stackContent]
  rw [bytesFrom_put_outside _ (.inr (by omega)),bytesFrom_put_all _ _ (length_snprintf (by decide) _ _)]

end Strings

end Layout

theorem setupStack64_exact (lr : LoadResults) (filepath : List Byte) (elfCalls : Addr) (stale : StaleArrays)
    (m : Memory) (hargv : ∀ a ∈ lr.argv, a ≠ 0) (henvp : ∀ a ∈ lr.envp, a ≠ 0) (hpath : filepath.length < 4096)
    (htop : lr.stackTop.toNat % 8 = 0) :
    (lr.rootPath = none → executablePath lr.rootPath filepath = filepath) ∧
    ∃ exepath kernfd elfcalls, InitialStack lr (executablePath lr.rootPath filepath) elfCalls exepath kernfd elfcalls
      (setupStack64 filepath lr elfCalls stale m).1 (setupStack64 filepath lr elfCalls stale m).2 := by
  refine ⟨fun hroot => hroot ▸ executablePath_none hpath,?_⟩
  generalize hp : executablePath lr.rootPath filepath = path
  obtain ⟨room,sp,hle,hlt,hroom,haligned,hsp,hview⟩ :=
    view_setupStack64 elfCalls stale m hargv henvp htop hp
  have hlen : path.length ≤ 4095 := hp ▸ length_executablePath_le lr.rootPath filepath
  rw [hsp]
  revert hview
  generalize (setupStack64 filepath lr elfCalls stale m).2 = m'
  have hat : ∀ k, k ≤ room → lr.stackTop - BitVec.ofNat 64 k = sp + BitVec.ofNat 64 (room - k) :=
    fun k hk => hroom ▸ sub_ofNat_eq lr.stackTop hk
  have hdist : ∀ k, k ≤ room → (lr.stackTop - BitVec.ofNat 64 k - sp).toNat = room - k := by
    intro k hk
    rw [hat k hk,add_sub_cancel_left,BitVec.toNat_ofNat]
    omega
  have hkeep : ∀ k, lr.stackTop - BitVec.ofNat 64 k + BitVec.ofNat 64 k = lr.stackTop := fun k => sub_add_cancel _ _
  have hstep : ∀ k n, lr.stackTop - BitVec.ofNat 64 (k+n) + BitVec.ofNat 64 n = lr.stackTop - BitVec.ofNat 64 k := by
    intro k n
    rw [BitVec.ofNat_add]
    ring
  generalize hexe : lr.stackTop - BitVec.ofNat 64 (path.length+17) = exepath
  generalize hkern : lr.stackTop - BitVec.ofNat 64 (path.length+29) = kernfd
  generalize helf : lr.stackTop - BitVec.ofNat 64 (path.length+56) = elfcalls
  intro hview
  have hread : ∀ k n, k ≤ room → n ≤ k → readBytes m' (lr.stackTop - BitVec.ofNat 64 k) n =
      bytesFrom (stackContent lr path elfCalls stale room (stackWords lr exepath kernfd elfcalls) (view m sp))
        (room - k) n := by
    intro k n hk hn
    rw [hat k hk,readBytes_place]
    exact bytesFrom_congr fun x _ hx => hview x (by omega)
  have hwords : (wordBytes (stackWords lr exepath kernfd elfcalls)).length =
      8*(8 + lr.argv.length + lr.envp.length) := by
    rw [length_wordBytes,length_stackWords]
  refine ⟨exepath,kernfd,elfcalls,?_⟩
  constructor
  case aligned => exact haligned
  case words =>
    rw [← length_stackWords lr exepath kernfd elfcalls]
    exact readWords_eq (by rw [length_stackWords]; omega) hview
  case below =>
    rw [← helf,hdist _ (by omega)]
    omega
  case top =>
    have htopdist : (lr.stackTop - sp).toNat = room := by simpa using hdist 0 (Nat.zero_le _)
    rw [htopdist,← helf,hdist _ (by omega)]
    omega
  case strings =>
    exact ⟨helf ▸ hkern ▸ hstep (path.length+29) 27,hkern ▸ hexe ▸ hstep (path.length+17) 12,hexe ▸ hkeep _⟩
  case pathString =>
    rw [← hexe,hread _ _ (by omega) le_rfl]
    exact stackContent_path (by omega)
  case kernfdString =>
    rw [← hkern,hread _ 12 (by omega) (by omega),stackContent_kernfd (by omega)]
    exact ⟨_,rfl⟩
  case elfcallsString =>
    rw [← helf,hread _ 27 (by omega) (by omega),stackContent_elfcalls (by omega)]
    exact ⟨_,rfl⟩

/-- A program with one argument and two words of environment, loaded under the path `a`. -/
theorem setupStack64_exact_small : ∃ exepath kernfd elfcalls, InitialStack
    ⟨0x400000,0x8000,3,none,[0x9000],[0x9100,0x9200],by decide,by decide⟩
    (executablePath none [97]) 0x5000 exepath kernfd elfcalls
    (setupStack64 [97] ⟨0x400000,0x8000,3,none,[0x9000],[0x9100,0x9200],by decide,by decide⟩ 0x5000
      ⟨fun _ => 0,fun _ => 0⟩ fun _ => 0).1
    (setupStack64 [97] ⟨0x400000,0x8000,3,none,[0x9000],[0x9100,0x9200],by decide,by decide⟩ 0x5000
      ⟨fun _ => 0,fun _ => 0⟩ fun _ => 0).2 :=
  (setupStack64_exact ⟨0x400000,0x8000,3,none,[0x9000],[0x9100,0x9200],by decide,by decide⟩ [97] 0x5000
    ⟨fun _ => 0,fun _ => 0⟩ (fun _ => 0) (by simp) (by simp) (by simp) (by simp)).2

end Machismo.Loader
