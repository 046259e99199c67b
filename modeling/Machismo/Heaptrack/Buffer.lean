import Mathlib

/-! # The buffer of the trace file

A record is formatted into an array of 512 bytes and gathered in a buffer, which is written to the file
when the next record does not fit.  The formatted text is cut off at the end of the array, but the length
that comes back is that of the whole text, and so many bytes are gathered: behind the array, whatever
stands there.
-/
namespace Machismo.Heaptrack.Buffer

def traceBufSize : ℕ := 2^16

def tmpSize : ℕ := 512

/-- The text of a C string. -/
abbrev Text := {text : List Char // '\x00' ∉ text}

/-- The file, and what is in the buffer. -/
structure Writer where
  file : List Char
  buf : List Char

def Writer.start : Writer := ⟨[],[]⟩

def traceFlush (w : Writer) : Writer := ⟨w.file++w.buf,[]⟩

-- the sum of the position and the length is an `int`
def traceWrite (data : List Char) (w : Writer) : Writer :=
  let w := if traceBufSize < w.buf.length+data.length ∧ w.buf.length+data.length < 2^31 then traceFlush w else w
  if traceBufSize < data.length then { w with file := w.file++data } else { w with buf := w.buf++data }

/-- The first bytes from `tmp` on, as many as the text has; `behind` is what follows the terminator. -/
def tmpBytes (text : List Char) (behind : ℕ → Char) : List Char :=
  (text.take (tmpSize-1) ++ '\x00' :: (List.range text.length).map behind).take text.length

/-- A text whose length is no `int` is not formatted. -/
def tracePrintf (text : Text) (behind : ℕ → Char) (w : Writer) : Writer :=
  if 0 < text.1.length ∧ text.1.length < 2^31 then traceWrite (tmpBytes text.1 behind) w else w

/-- A record, with the bytes that stand behind it in memory, or a flush. -/
inductive Op where
  | printf (text : Text) (behind : ℕ → Char)
  | flush

def Op.text : Op → List Char
  | .printf text _ => text.1
  | .flush => []

def Op.run (w : Writer) : Op → Writer
  | .printf text behind => tracePrintf text behind w
  | .flush => traceFlush w

def runAll (ops : List Op) : Writer := ops.foldl Op.run .start

/-- The bytes that are in the file after the next flush. -/
def Writer.bytes (w : Writer) : List Char := (traceFlush w).file

def Op.written : Op → List Char
  | .printf text behind => if 0 < text.1.length ∧ text.1.length < 2^31 then tmpBytes text.1 behind else []
  | .flush => []

@[simp] theorem bytes_traceFlush (w : Writer) : (traceFlush w).bytes = w.bytes := List.append_nil _

theorem length_tmpBytes (text : List Char) (behind : ℕ → Char) : (tmpBytes text behind).length = text.length := by
  simp [tmpBytes,tmpSize]
  omega

theorem tmpBytes_short {text : List Char} (behind : ℕ → Char) (h : text.length < tmpSize) :
    tmpBytes text behind = text := by
  rw [tmpBytes,List.take_of_length_le (Nat.le_sub_one_of_lt h),List.take_left' rfl]

theorem terminator_mem_tmpBytes {text : List Char} (behind : ℕ → Char) (h : tmpSize ≤ text.length) :
    '\x00' ∈ tmpBytes text behind := by
  have hcut : (text.take (tmpSize-1)).length = tmpSize-1 := List.length_take_of_le (by omega)
  refine List.mem_of_getElem? (i := tmpSize-1) ?_
  rw [tmpBytes,List.getElem?_take_of_lt (by unfold tmpSize at h ⊢; omega),List.getElem?_append_right hcut.le,hcut,
    Nat.sub_self]
  rfl

section Write
variable {data : List Char} {w : Writer}

theorem traceWrite_bytes (h : w.buf.length+data.length < 2^31) : (traceWrite data w).bytes = w.bytes++data := by
  unfold traceWrite Writer.bytes traceFlush
  dsimp only
  by_cases hflush : traceBufSize < w.buf.length+data.length ∧ w.buf.length+data.length < 2^31
  · rw [if_pos hflush]
    split_ifs <;> simp
  · have hshort : ¬traceBufSize < data.length := fun hlong =>
      hflush ⟨Nat.lt_of_lt_of_le hlong (Nat.le_add_left _ _),h⟩
    rw [if_neg hflush,if_neg hshort]
    exact (List.append_assoc _ _ _).symm

theorem traceWrite_perm : ((traceWrite data w).bytes).Perm (w.bytes++data) := by
  unfold traceWrite Writer.bytes traceFlush
  dsimp only
  by_cases hflush : traceBufSize < w.buf.length+data.length ∧ w.buf.length+data.length < 2^31
  · rw [if_pos hflush]
    split_ifs <;> simp
  · rw [if_neg hflush]
    split_ifs
    · simp only [List.append_assoc]
      exact List.perm_append_comm.append_left w.file
    · exact .of_eq (List.append_assoc _ _ _).symm

theorem length_buf_traceWrite (h : w.buf.length ≤ traceBufSize) : (traceWrite data w).buf.length ≤ traceBufSize := by
  unfold traceWrite traceFlush
  dsimp only
  by_cases hlong : traceBufSize < data.length
  · rw [if_pos hlong]
    dsimp only
    split_ifs
    · exact Nat.zero_le _
    · exact h
  · rw [if_neg hlong]
    dsimp only
    rw [List.length_append]
    split_ifs with hflush
    · exact (Nat.zero_add _).le.trans (not_lt.mp hlong)
    · by_contra hfull
      refine hflush ⟨not_le.mp hfull,?_⟩
      unfold traceBufSize at h hlong
      omega

end Write

section Run
variable {op : Op} {ops : List Op} {w : Writer}

theorem run_perm : ((op.run w).bytes).Perm (w.bytes++op.written) := by
  cases op with
  | flush =>
    rw [Op.run,bytes_traceFlush,Op.written,List.append_nil]
  | printf text behind =>
    rw [Op.run,tracePrintf,Op.written]
    split_ifs
    · exact traceWrite_perm
    · rw [List.append_nil]

theorem length_buf_run (h : w.buf.length ≤ traceBufSize) : (op.run w).buf.length ≤ traceBufSize := by
  cases op with
  | flush => exact Nat.zero_le _
  | printf text behind =>
    rw [Op.run,tracePrintf]
    split_ifs
    · exact length_buf_traceWrite h
    · exact h

theorem run_bytes (hbuf : w.buf.length ≤ traceBufSize) (h : op.text.length < tmpSize) :
    (op.run w).bytes = w.bytes++op.text := by
  cases op with
  | flush => rw [Op.run,bytes_traceFlush,Op.text,List.append_nil]
  | printf text behind =>
    have hshort : text.1.length < tmpSize := h
    rw [Op.run,tracePrintf,Op.text]
    split_ifs with hlen
    · rw [tmpBytes_short behind hshort]
      refine traceWrite_bytes ?_
      unfold traceBufSize tmpSize at *
      omega
    · have hnil : text.1.length = 0 := by
        unfold tmpSize at hshort
        omega
      rw [List.length_eq_zero_iff.mp hnil,List.append_nil]

theorem foldl_run_perm : ((ops.foldl Op.run w).bytes).Perm (w.bytes++ops.flatMap Op.written) := by
  induction ops generalizing w with
  | nil => rw [List.flatMap_nil,List.append_nil]; rfl
  | cons op ops ih =>
    rw [List.foldl_cons,List.flatMap_cons,← List.append_assoc]
    exact ih.trans (run_perm.append_right _)

theorem length_buf_foldl_run (h : w.buf.length ≤ traceBufSize) :
    (ops.foldl Op.run w).buf.length ≤ traceBufSize := by
  induction ops generalizing w with
  | nil => exact h
  | cons op ops ih => exact ih (length_buf_run h)

theorem foldl_run_bytes (hbuf : w.buf.length ≤ traceBufSize) (h : ∀ op ∈ ops, op.text.length < tmpSize) :
    (ops.foldl Op.run w).bytes = w.bytes++ops.flatMap Op.text := by
  induction ops generalizing w with
  | nil => rw [List.flatMap_nil,List.append_nil]; rfl
  | cons op ops ih =>
    obtain ⟨hop,hops⟩ := List.forall_mem_cons.mp h
    rw [List.foldl_cons,ih (length_buf_run hbuf) hops,run_bytes hbuf hop,List.flatMap_cons,List.append_assoc]

theorem length_written_le (op : Op) : op.written.length ≤ op.text.length := by
  cases op with
  | flush => exact le_rfl
  | printf text behind =>
    rw [Op.written]
    split_ifs
    · exact (length_tmpBytes _ _).le
    · exact Nat.zero_le _

theorem terminator_not_mem_text (op : Op) : '\x00' ∉ op.text := by
  cases op with
  | flush => exact List.not_mem_nil
  | printf text behind => exact text.2

/-- Of a record that does not fit the array, the terminator is gathered or too few bytes. -/
theorem written_long (h : tmpSize ≤ op.text.length) : '\x00' ∈ op.written ∨ op.written.length < op.text.length := by
  cases op with
  | flush => exact absurd h (by decide)
  | printf text behind =>
    rw [Op.written]
    split_ifs with hlen
    · exact .inl (terminator_mem_tmpBytes behind h)
    · exact .inr (Nat.lt_of_lt_of_le (by decide) h)

end Run

theorem length_text_lt_of_perm {ops : List Op} (h : (ops.flatMap Op.written).Perm (ops.flatMap Op.text)) :
    ∀ op ∈ ops, op.text.length < tmpSize := by
  intro op hop
  by_contra hlong
  rcases written_long (not_lt.mp hlong) with hterm | hlt
  · obtain ⟨op',-,hmem⟩ := List.mem_flatMap.mp (h.subset (List.mem_flatMap.mpr ⟨op,hop,hterm⟩))
    exact terminator_not_mem_text op' hmem
  · have hsum : (ops.map fun op => op.written.length).sum < (ops.map fun op => op.text.length).sum :=
      List.sum_lt_sum _ _ (fun op' _ => length_written_le op') ⟨op,hop,hlt⟩
    have hlen := h.length_eq
    rw [List.length_flatMap,List.length_flatMap] at hlen
    exact hsum.ne hlen

/-- After a flush the file is the records one after the other exactly if each of them fits the array; the
buffer is never too full. -/
theorem trace_file_eq_iff (ops : List Op) :
    ((traceFlush (runAll ops)).file = ops.flatMap Op.text ∧
      ∀ pre, pre <+: ops → (runAll pre).buf.length ≤ traceBufSize) ↔ ∀ op ∈ ops, op.text.length < tmpSize := by
  constructor
  · rintro ⟨hfile,-⟩
    have hperm : ((runAll ops).bytes).Perm (ops.flatMap Op.written) := foldl_run_perm
    exact length_text_lt_of_perm (hperm.symm.trans (.of_eq hfile))
  · intro h
    have hfile : (runAll ops).bytes = ops.flatMap Op.text := foldl_run_bytes (Nat.zero_le _) h
    exact ⟨hfile,fun pre _ => length_buf_foldl_run (Nat.zero_le _)⟩

/-- A string record that is one byte too long for the array. -/
def longString : Text := ⟨ 's' :: ' ' :: (List.replicate 509 'a'++['\n']),by decide +kernel⟩

/-- The terminator gets into the file in place of the line's end. -/
theorem trace_file_ne_longString :
    (traceFlush (runAll [.printf longString fun _ => 'b'])).file ≠
      [Op.printf longString fun _ => 'b'].flatMap Op.text := by
  decide +kernel

end Machismo.Heaptrack.Buffer
