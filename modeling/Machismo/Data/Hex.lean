import Mathlib

/-! # Numbers in lines of text

Hexadecimal numbers as `%x` writes them, lists of them with a blank before each, and text in
lines.  What was written is read back.
-/
namespace Machismo.Data

def hexDigits : List Char := ['0','1','2','3','4','5','6','7','8','9','a','b','c','d','e','f']

def hex (n : ℕ) : List Char := Nat.toDigits 16 n

def readHex (w : List Char) : Option ℕ := w.foldlM (fun v c => (hexDigits.idxOf? c).map (16*v+·)) 0

theorem idxOf?_digitChar : ∀ n < 16, hexDigits.idxOf? n.digitChar = some n := by decide

theorem hex_of_lt {n : ℕ} (h : n < 16) : hex n = [n.digitChar] := Nat.toDigits_of_lt_base h

theorem hex_of_le {n : ℕ} (h : 16 ≤ n) : hex n = hex (n/16)++[(n%16).digitChar] :=
  Nat.toDigits_of_base_le (by decide) h

theorem readHex_hex (n : ℕ) : readHex (hex n) = some n := by
  induction n using Nat.strong_induction_on with
  | _ n ih =>
    by_cases h : n < 16
    · rw [hex_of_lt h]
      simp [readHex,idxOf?_digitChar n h]
    · rw [hex_of_le (by omega)]
      have hhead : readHex (hex (n/16)) = some (n/16) := ih _ (by omega)
      rw [readHex] at hhead ⊢
      rw [List.foldlM_append,hhead]
      simp [idxOf?_digitChar (n%16) (by omega),Nat.div_add_mod]

theorem mem_hexDigits_of_mem_hex {n : ℕ} : ∀ {c : Char}, c ∈ hex n → c ∈ hexDigits := by
  have hdigit : ∀ k < 16, k.digitChar ∈ hexDigits := by decide
  induction n using Nat.strong_induction_on with
  | _ n ih =>
    intro c hc
    by_cases h : n < 16
    · rw [hex_of_lt h,List.mem_singleton] at hc
      rw [hc]
      exact hdigit n h
    · rw [hex_of_le (by omega)] at hc
      rcases List.mem_append.mp hc with hc | hc
      · exact ih _ (by omega) hc
      · rw [List.mem_singleton.mp hc]
        exact hdigit _ (by omega)

def fields (ns : List ℕ) : List Char := ns.flatMap fun n => ' ' :: hex n

def readFields (w : List Char) : Option (List ℕ) := ((w.splitOn ' ').drop 1).mapM readHex

theorem splitOn_append_fields {w : List Char} (hw : ' ' ∉ w) (ns : List ℕ) :
    (w++fields ns).splitOn ' ' = w::ns.map hex := by
  induction ns generalizing w with
  | nil => simpa [fields] using List.splitOn_eq_singleton hw
  | cons n ns ih =>
    have hn : ' ' ∉ hex n := fun h => absurd (mem_hexDigits_of_mem_hex h) (by decide)
    have hcons : fields (n::ns) = ' ' :: (hex n++fields ns) := by simp [fields]
    rw [hcons,List.splitOn_append_cons_self_of_not_mem hw,ih hn,List.map_cons]

theorem readFields_fields (ns : List ℕ) : readFields (fields ns) = some ns := by
  have hsplit := splitOn_append_fields (w := []) (by simp) ns
  rw [List.nil_append] at hsplit
  rw [readFields,hsplit,List.drop_one,List.tail_cons]
  induction ns with
  | nil => rfl
  | cons n ns ih => simp [readHex_hex,ih (splitOn_append_fields (w := []) (by simp) ns)]

theorem not_mem_fields (ns : List ℕ) : '\n' ∉ fields ns := by
  intro h
  obtain ⟨n,-,hn⟩ := List.mem_flatMap.mp h
  rcases List.mem_cons.mp hn with hblank | hdigit
  · exact absurd hblank (by decide)
  · exact absurd (mem_hexDigits_of_mem_hex hdigit) (by decide)

section Lines
variable {α : Type}

def unlines (nl : α) (ls : List (List α)) : List α := ls.flatMap (·++[nl])

variable [BEq α]

def lines (nl : α) (w : List α) : List (List α) := (w.splitOn nl).dropLast

theorem not_mem_of_mem_splitOn [LawfulBEq α] {x : α} {w l : List α} (h : l ∈ w.splitOn x) : x ∉ l := by
  induction w generalizing l with
  | nil =>
    rw [List.splitOn_nil,List.mem_singleton] at h
    simp [h]
  | cons a w ih =>
    obtain ⟨b,ls,hsplit⟩ := List.exists_cons_of_ne_nil (List.splitOn_ne_nil x w)
    rw [hsplit] at ih
    rw [List.splitOn_cons_eq_if_modifyHead,hsplit] at h
    split_ifs at h with ha
    · rcases List.mem_cons.mp h with rfl | h
      · exact List.not_mem_nil
      · exact ih h
    · rcases List.mem_cons.mp h with rfl | h
      · have hne : x ≠ a := fun heq => ha (beq_iff_eq.mpr heq.symm)
        exact List.mem_cons.not.mpr (not_or.mpr ⟨hne,ih (List.mem_cons_self ..)⟩)
      · exact ih (List.mem_cons_of_mem _ h)

theorem splitOn_unlines [LawfulBEq α] {nl : α} {ls : List (List α)} (h : ∀ l ∈ ls, nl ∉ l) :
    (unlines nl ls).splitOn nl = ls++[[]] := by
  induction ls with
  | nil => rfl
  | cons l ls ih =>
    have hcons : unlines nl (l::ls) = l++nl::unlines nl ls := by simp [unlines]
    rw [hcons,List.splitOn_append_cons_self_of_not_mem (h l (List.mem_cons_self ..)),
      ih fun l' hl' => h l' (List.mem_cons_of_mem _ hl'),List.cons_append]

theorem lines_unlines [LawfulBEq α] {nl : α} {ls : List (List α)} (h : ∀ l ∈ ls, nl ∉ l) :
    lines nl (unlines nl ls) = ls := by
  rw [lines,splitOn_unlines h,List.dropLast_concat]

end Lines

end Machismo.Data
