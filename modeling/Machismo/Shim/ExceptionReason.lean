import Machismo.Data.Hex
import Machismo.Shim.StringComponents

/-! # The reason of an exception

`format_exception_reason` writes a format of the guest with the arguments on an Apple stack into a buffer. The
cursor in the format is what is left of it with its terminator; to read behind that has no result, and neither
has a store outside of the buffer.
-/
namespace Machismo.Shim.ExceptionReason
open Machismo.Data.TextBuffer Machismo.Shim.StringComponents

def nul : Char := Char.ofNat 0

/-- A string of C, without its terminator. -/
structure Format where
  chars : List Char
  terminated : nul ∉ chars

/-- What stands at the addresses in the arguments, and the text of a double in `%g`. -/
structure Guest where
  object : BitVec 64 → Object
  text : BitVec 64 → List Char
  general : BitVec 64 → List Char

/-- The buffer, how much of it is used, and how many slots of the stack have been consumed. -/
structure Reason where
  out : List Char
  used : ℕ
  cursor : ℕ

def isFlag (c : Char) : Bool := ['-','+',' ','#','0'].contains c

def isDigit (c : Char) : Bool := '0' ≤ c && c ≤ '9'

def isLength (c : Char) : Bool := ['h','l','L','z','j','t'].contains c

/-- `while (*p && among(*p)) p++` -/
def skip (among : Char → Bool) : List Char → Option (List Char)
  | [] => none
  | c :: p => if c ≠ nul && among c then skip among p else some (c :: p)

def skipPrecision : List Char → Option (List Char)
  | [] => none
  | c :: p => if c = '.' then skip isDigit p else some (c :: p)

/-- Flags, width, precision and length modifiers. -/
def skipModifiers (p : List Char) : Option (List Char) :=
  (((skip isFlag p).bind (skip isDigit)).bind skipPrecision).bind (skip isLength)

theorem skip_suffix {among : Char → Bool} {p q : List Char} (h : skip among p = some q) : q <:+ p := by
  induction p with
  | nil => exact nomatch h
  | cons c p ih =>
    rw [skip] at h
    split at h
    · exact (ih h).trans (List.suffix_cons c p)
    · exact Option.some.inj h ▸ List.suffix_refl _

theorem skipPrecision_suffix {p q : List Char} (h : skipPrecision p = some q) : q <:+ p := by
  cases p with
  | nil => exact nomatch h
  | cons c p =>
    rw [skipPrecision] at h
    split at h
    · exact (skip_suffix h).trans (List.suffix_cons c p)
    · exact Option.some.inj h ▸ List.suffix_refl _

theorem skipModifiers_suffix {p q : List Char} (h : skipModifiers p = some q) : q <:+ p := by
  obtain ⟨p₃,h₃,hlength⟩ := Option.bind_eq_some_iff.mp h
  obtain ⟨p₂,h₂,hprecision⟩ := Option.bind_eq_some_iff.mp h₃
  obtain ⟨p₁,hflags,hwidth⟩ := Option.bind_eq_some_iff.mp h₂
  exact (skip_suffix hlength).trans ((skipPrecision_suffix hprecision).trans
    ((skip_suffix hwidth).trans (skip_suffix hflags)))

/-- What `snprintf` leaves in `tmp`. -/
def printed (text : List Char) : List Char := text.take 63

def pointerText (a : BitVec 64) : List Char :=
  if a = 0 then "(nil)".toList else '0' :: 'x' :: Data.hex a.toNat

def signedText (n : ℤ) : List Char := (if n < 0 then ['-'] else []) ++ Nat.toDigits 10 n.natAbs

/-- What is appended for a specifier, the octal one too in hexadecimal. -/
def argumentText (G : Guest) (specifier : Char) (slot : Option (BitVec 64)) : List Char :=
  if specifier = '@' then
    match slot with
    | some a => objectCstring (G.object a)
    | none => "(null)".toList
  else if specifier = 's' then
    match slot with
    | some a => if a ≠ 0 then G.text a else "(null)".toList
    | none => "(null)".toList
  else if specifier = 'p' then printed (pointerText (slot.getD 0))
  else if ['f','g','e','G','E'].contains specifier then printed (G.general (slot.getD 0))
  else if ['u','x','X','o'].contains specifier then
    printed (if specifier = 'u' then Nat.toDigits 10 (slot.getD 0).toNat else Data.hex (slot.getD 0).toNat)
  else printed (signedText (slot.getD 0).toInt)

def appendText (cap : ℕ) (text : Option (List Char)) (s : Reason) : Option Reason :=
  let text := text.getD "(null)".toList
  if cap ≤ s.used then some s
  else
    let length := if cap-s.used-1 < text.length then cap-s.used-1 else text.length
    (storeAll s.out s.used (text.take length)).bind fun out =>
      (store out (s.used+length) nul).map fun out => { s with out := out, used := s.used+length }

/-- `out[used++] = c; out[used] = '\\0'` -/
def putChar (c : Char) (s : Reason) : Option Reason :=
  (store s.out s.used c).bind fun out =>
    (store out (s.used+1) nul).map fun out => { s with out := out, used := s.used+1 }

def consumeAppleSlot (stack : Option (ℕ → BitVec 64)) (s : Reason) : Option (BitVec 64) × Reason :=
  match stack with
  | none => (none,s)
  | some words => (some (words s.cursor),{ s with cursor := s.cursor+1 })

def formatFrom (G : Guest) (stack : Option (ℕ → BitVec 64)) (cap : ℕ) : List Char → Reason → Option Reason
  | [], _ => none
  | c :: p, s =>
    if c = nul ∨ ¬s.used+1 < cap then some s
    else if c ≠ '%' then (putChar c s).bind (formatFrom G stack cap p)
    else
      match p with
      | [] => none
      | c' :: p' =>
        if c' = '%' then (putChar '%' s).bind (formatFrom G stack cap p')
        else
          match _h : skipModifiers (c' :: p') with
          | none => none
          | some [] => none
          | some (specifier :: rest) =>
            if specifier = nul then some s
            else
              let (slot,s) := consumeAppleSlot stack s
              (appendText cap (some (argumentText G specifier slot)) s).bind (formatFrom G stack cap rest)
termination_by p => p.length
decreasing_by
  · exact Nat.lt_succ_self _
  · exact Nat.lt_succ_of_lt (Nat.lt_succ_self _)
  · exact Nat.lt_succ_of_le (Nat.le_of_succ_le (skipModifiers_suffix _h).length_le)

def formatExceptionReason (G : Guest) (stack : Option (ℕ → BitVec 64)) (cap : ℕ) (format : Option Format)
    (out : List Char) : Option Reason :=
  if cap = 0 then some ⟨out,0,0⟩
  else
    (store out 0 nul).bind fun out =>
      match format with
      | none => appendText cap (some "(null format)".toList) ⟨out,0,0⟩
      | some format => formatFrom G stack cap (format.chars ++ [nul]) ⟨out,0,0⟩

inductive Directive where
  | plain (c : Char)
  | percent
  | conversion (specifier : Char)
  deriving DecidableEq

namespace Directive

def isConversion : Directive → Bool
  | conversion _ => true
  | _ => false

/-- The text of a directive when so many slots have been consumed. -/
def text (G : Guest) (stack : Option (ℕ → BitVec 64)) (cursor : ℕ) : Directive → List Char
  | plain c => [c]
  | percent => ['%']
  | conversion specifier => argumentText G specifier (stack.map fun words => words cursor)

end Directive

def afterPrecision : List Char → List Char
  | [] => []
  | c :: p => if c = '.' then p.dropWhile isDigit else c :: p

/-- What follows the flags, the width, the precision and the length modifiers. -/
def afterModifiers (p : List Char) : List Char :=
  (afterPrecision ((p.dropWhile isFlag).dropWhile isDigit)).dropWhile isLength

theorem afterPrecision_suffix (p : List Char) : afterPrecision p <:+ p := by
  cases p with
  | nil => exact List.suffix_refl _
  | cons c p =>
    rw [afterPrecision]
    split
    · exact (List.dropWhile_suffix _).trans (List.suffix_cons c p)
    · exact List.suffix_refl _

theorem afterModifiers_suffix (p : List Char) : afterModifiers p <:+ p :=
  (List.dropWhile_suffix _).trans ((afterPrecision_suffix _).trans
    ((List.dropWhile_suffix _).trans (List.dropWhile_suffix _)))

/-- The directives of a format, up to a conversion that is not complete. -/
def directives : List Char → List Directive
  | [] => []
  | c :: p =>
    if c ≠ '%' then .plain c :: directives p
    else
      match p with
      | [] => []
      | c' :: p' =>
        if c' = '%' then .percent :: directives p'
        else
          match _h : afterModifiers (c' :: p') with
          | [] => []
          | specifier :: rest => .conversion specifier :: directives rest
termination_by p => p.length
decreasing_by
  · exact Nat.lt_succ_self _
  · exact Nat.lt_succ_of_lt (Nat.lt_succ_self _)
  · exact Nat.lt_succ_of_le (Nat.le_of_succ_le (_h ▸ afterModifiers_suffix (c' :: p')).length_le)

/-- The slots that directives consume, if there is a stack. -/
def slots (stack : Option (ℕ → BitVec 64)) (ds : List Directive) : ℕ :=
  if stack.isSome then ds.countP Directive.isConversion else 0

/-- The directives that are processed: those at which there is room for one more character. -/
def processed (G : Guest) (stack : Option (ℕ → BitVec 64)) : ℕ → ℕ → List Directive → List Directive
  | _, _, [] => []
  | room, cursor, d :: ds =>
    if room = 0 then []
    else d :: processed G stack (room-(d.text G stack cursor).length) (cursor+slots stack [d]) ds

/-- The texts of directives one after another. -/
def rendered (G : Guest) (stack : Option (ℕ → BitVec 64)) : ℕ → List Directive → List Char
  | _, [] => []
  | cursor, d :: ds => d.text G stack cursor ++ rendered G stack (cursor+slots stack [d]) ds

/-- Without a format there are none. -/
def directivesOf : Option Format → List Directive
  | none => []
  | some format => directives format.chars

theorem processed_prefix (G : Guest) (stack : Option (ℕ → BitVec 64)) (room cursor : ℕ) (ds : List Directive) :
    processed G stack room cursor ds <+: ds := by
  induction ds generalizing room cursor with
  | nil => exact List.prefix_refl _
  | cons d ds ih =>
    rw [processed]
    split
    · exact List.nil_prefix
    · exact (List.prefix_cons_inj d).mpr (ih _ _)

theorem processed_eq_self {G : Guest} {stack : Option (ℕ → BitVec 64)} {room cursor : ℕ} {ds : List Directive}
    (h : (rendered G stack cursor ds).length < room) : processed G stack room cursor ds = ds := by
  induction ds generalizing room cursor with
  | nil => rfl
  | cons d ds ih =>
    rw [rendered,List.length_append] at h
    rw [processed,if_neg (by omega),ih (by omega)]

theorem skip_terminated {among : Char → Bool} {p : List Char} (h : nul ∉ p) :
    skip among (p ++ [nul]) = some (p.dropWhile among ++ [nul]) := by
  induction p with
  | nil => rfl
  | cons c p ih =>
    obtain ⟨hc,hp⟩ := not_or.mp (List.mem_cons.not.mp h)
    rw [List.cons_append,skip,List.dropWhile_cons]
    by_cases hamong : among c
    · rw [if_pos hamong,if_pos (by simp [Ne.symm hc,hamong]),ih hp]
    · rw [if_neg hamong,if_neg (by simp [hamong])]
      rfl

theorem skipPrecision_terminated {p : List Char} (h : nul ∉ p) :
    skipPrecision (p ++ [nul]) = some (afterPrecision p ++ [nul]) := by
  cases p with
  | nil => rfl
  | cons c p =>
    rw [List.cons_append,skipPrecision,afterPrecision]
    split
    · exact skip_terminated fun hmem => h (List.mem_cons_of_mem c hmem)
    · rfl

theorem skipModifiers_terminated {p : List Char} (h : nul ∉ p) :
    skipModifiers (p ++ [nul]) = some (afterModifiers p ++ [nul]) := by
  have hwidth : nul ∉ p.dropWhile isFlag := fun hmem => h ((List.dropWhile_suffix _).subset hmem)
  have hprecision : nul ∉ (p.dropWhile isFlag).dropWhile isDigit := fun hmem =>
    hwidth ((List.dropWhile_suffix _).subset hmem)
  have hlength : nul ∉ afterPrecision ((p.dropWhile isFlag).dropWhile isDigit) := fun hmem =>
    hprecision ((afterPrecision_suffix _).subset hmem)
  rw [skipModifiers,skip_terminated h,Option.bind_some,skip_terminated hwidth,Option.bind_some,
    skipPrecision_terminated hprecision,Option.bind_some,skip_terminated hlength]
  rfl

/-! ## The rounds of the loop -/

section Rounds
variable {G : Guest} {stack : Option (ℕ → BitVec 64)} {cap : ℕ} {s : Reason} {p : List Char} {c : Char}

theorem formatFrom_stop (h : c = nul ∨ ¬s.used+1 < cap) : formatFrom G stack cap (c :: p) s = some s := by
  rw [formatFrom.eq_def]
  exact if_pos h

theorem formatFrom_plain (hc : c ≠ nul) (hroom : s.used+1 < cap) (hplain : c ≠ '%') :
    formatFrom G stack cap (c :: p) s = (putChar c s).bind (formatFrom G stack cap p) := by
  rw [formatFrom.eq_def]
  dsimp only
  rw [if_neg (not_or.mpr ⟨hc,not_not_intro hroom⟩),if_pos hplain]

theorem formatFrom_percent (hroom : s.used+1 < cap) :
    formatFrom G stack cap ('%' :: '%' :: p) s = (putChar '%' s).bind (formatFrom G stack cap p) := by
  rw [formatFrom,if_neg (not_or.mpr ⟨by decide,not_not_intro hroom⟩),if_neg (not_not_intro rfl)]
  rfl

theorem formatFrom_incomplete (hroom : s.used+1 < cap) (hc : c ≠ '%') {rest : List Char}
    (h : skipModifiers (c :: p) = some (nul :: rest)) : formatFrom G stack cap ('%' :: c :: p) s = some s := by
  rw [formatFrom,if_neg (not_or.mpr ⟨by decide,not_not_intro hroom⟩),if_neg (not_not_intro rfl)]
  dsimp only
  rw [if_neg hc]
  split
  next hnone => exact nomatch hnone.symm.trans h
  next hnil => exact nomatch hnil.symm.trans h
  next hspecifier =>
    obtain ⟨rfl,-⟩ := List.cons.inj (Option.some.inj (hspecifier.symm.trans h))
    exact if_pos rfl

theorem formatFrom_conversion (hroom : s.used+1 < cap) (hc : c ≠ '%') {specifier : Char} {rest : List Char}
    (h : skipModifiers (c :: p) = some (specifier :: rest)) (hspecifier : specifier ≠ nul) :
    formatFrom G stack cap ('%' :: c :: p) s =
      (appendText cap (some (argumentText G specifier (consumeAppleSlot stack s).1)) (consumeAppleSlot stack s).2).bind
        (formatFrom G stack cap rest) := by
  rw [formatFrom,if_neg (not_or.mpr ⟨by decide,not_not_intro hroom⟩),if_neg (not_not_intro rfl)]
  dsimp only
  rw [if_neg hc]
  split
  next hnone => exact nomatch hnone.symm.trans h
  next hnil => exact nomatch hnil.symm.trans h
  next hsome =>
    obtain ⟨rfl,rfl⟩ := List.cons.inj (Option.some.inj (hsome.symm.trans h))
    exact if_neg hspecifier

theorem directives_plain (hplain : c ≠ '%') : directives (c :: p) = .plain c :: directives p := by
  rw [directives.eq_def]
  exact if_pos hplain

theorem directives_percent : directives ('%' :: '%' :: p) = .percent :: directives p := by
  rw [directives,if_neg (not_not_intro rfl)]
  rfl

theorem directives_incomplete (hc : c ≠ '%') (h : afterModifiers (c :: p) = []) : directives ('%' :: c :: p) = [] := by
  rw [directives,if_neg (not_not_intro rfl),if_neg hc]
  split
  next => rfl
  next hsome => exact nomatch hsome.symm.trans h

theorem directives_conversion (hc : c ≠ '%') {specifier : Char} {rest : List Char}
    (h : afterModifiers (c :: p) = specifier :: rest) :
    directives ('%' :: c :: p) = .conversion specifier :: directives rest := by
  rw [directives,if_neg (not_not_intro rfl),if_neg hc]
  split
  next hnil => exact nomatch hnil.symm.trans h
  next hsome =>
    obtain ⟨rfl,rfl⟩ := List.cons.inj (hsome.symm.trans h)
    rfl

end Rounds

structure Holds (cap : ℕ) (text : List Char) (s : Reason) : Prop where
  front : text ++ [nul] <+: s.out
  used : s.used = text.length
  length : s.out.length = cap

section Buffer
variable {cap : ℕ} {text : List Char} {s : Reason}

theorem Holds.room (h : Holds cap text s) : text.length < cap := by
  have hle := h.front.length_le
  rw [List.length_append,List.length_singleton,h.length] at hle
  exact hle

theorem Holds.take_text (h : Holds cap text s) : text.take (cap-1) = text :=
  List.take_of_length_le (Nat.le_sub_one_of_lt h.room)

theorem putChar_holds (h : Holds cap text s) (hroom : s.used+1 < cap) (c : Char) :
    ∃ s', putChar c s = some s' ∧ Holds cap (text ++ [c]) s' ∧ s'.cursor = s.cursor := by
  have hused := h.used
  have hfront : text <+: s.out := (List.prefix_append text [nul]).trans h.front
  obtain ⟨out₁,hstore₁,hlength₁,hfront₁⟩ := store_extends hfront (by rw [h.length]; omega) c
  have hlen : (text ++ [c]).length = s.used+1 := by rw [List.length_append,List.length_singleton,hused]
  obtain ⟨out₂,hstore₂,hlength₂,hfront₂⟩ := store_extends hfront₁ (by rw [hlength₁,h.length]; omega) nul
  refine ⟨{ s with out := out₂, used := s.used+1 },?_,⟨hfront₂,hlen.symm,?_⟩,rfl⟩
  · rw [putChar,hused,hstore₁,Option.bind_some,← hused,← hlen,hstore₂]
    rfl
  · rw [hlength₂,hlength₁,h.length]

theorem appendText_holds (h : Holds cap text s) (added : List Char) :
    ∃ s', appendText cap (some added) s = some s' ∧ Holds cap ((text ++ added).take (cap-1)) s' ∧
      s'.cursor = s.cursor := by
  have hused := h.used
  have hroom := h.room
  obtain ⟨part,hpart⟩ : ∃ part, part = added.take (cap-1-text.length) := ⟨_,rfl⟩
  have htext : (text ++ added).take (cap-1) = text ++ part := by
    rw [List.take_append,h.take_text,hpart]
  have hlen : (text ++ part).length = s.used+part.length := by rw [List.length_append,hused]
  have hpartlen : part.length ≤ cap-1-text.length := by
    rw [hpart]
    exact List.length_take_le _ _
  have hlength : (if cap-s.used-1 < added.length then cap-s.used-1 else added.length) = part.length := by
    rw [hpart,List.length_take,hused]
    split_ifs <;> omega
  have hprefix : part <+: added := hpart ▸ List.take_prefix _ _
  have hcopied : added.take part.length = part := (List.prefix_iff_eq_take.mp hprefix).symm
  have hfront : text <+: s.out := (List.prefix_append text [nul]).trans h.front
  obtain ⟨out₁,hstore₁,hlength₁,hfront₁⟩ := storeAll_extends hfront (l := part) (by rw [h.length]; omega)
  obtain ⟨out₂,hstore₂,hlength₂,hfront₂⟩ := store_extends hfront₁ (by rw [hlength₁,h.length]; omega) nul
  refine ⟨{ s with out := out₂, used := s.used+part.length },?_,htext ▸ ⟨hfront₂,hlen.symm,?_⟩,rfl⟩
  · rw [appendText,if_neg (by omega)]
    simp only [Option.getD_some,hlength,hcopied]
    rw [hused,hstore₁,Option.bind_some,← hused,← hlen,hstore₂]
    rfl
  · rw [hlength₂,hlength₁,h.length]

end Buffer

section Loop
variable (G : Guest) (stack : Option (ℕ → BitVec 64)) {cap : ℕ} {text : List Char} {s s' : Reason}

/-- The loop ended as it has to with these directives to go. -/
structure Formats (cap : ℕ) (text : List Char) (cursor : ℕ) (ds : List Directive) (s : Reason) : Prop where
  holds : Holds cap ((text ++ rendered G stack cursor ds).take (cap-1)) s
  cursor : s.cursor = cursor + slots stack (processed G stack (cap-1-text.length) cursor ds)

variable {G stack}

theorem slots_cons (d : Directive) (ds : List Directive) :
    slots stack (d :: ds) = slots stack [d] + slots stack ds := by
  unfold slots
  split
  · rw [← List.countP_append,List.singleton_append]
  · rfl

theorem slots_nil : slots stack [] = 0 := by
  unfold slots
  split <;> rfl

theorem processed_full (cursor : ℕ) (ds : List Directive) : processed G stack 0 cursor ds = [] := by
  cases ds with
  | nil => rfl
  | cons d ds => exact if_pos rfl

theorem Holds.formats_stop (h : Holds cap text s) {ds : List Directive} (hstop : ds = [] ∨ ¬s.used+1 < cap) :
    Formats G stack cap text s.cursor ds s := by
  have htext := h.take_text
  obtain rfl | hfull := hstop
  · refine ⟨?_,by rw [processed,slots_nil,Nat.add_zero]⟩
    rw [rendered,List.append_nil,htext]
    exact h
  · have hroom : cap-1-text.length = 0 := by
      rw [← h.used]
      omega
    refine ⟨?_,?_⟩
    · rw [List.take_append,htext,hroom,List.take_zero,List.append_nil]
      exact h
    · rw [hroom,processed_full,slots_nil,Nat.add_zero]

theorem Formats.step {cursor : ℕ} {d : Directive} {ds : List Directive} (hroom : text.length+1 < cap)
    (h : Formats G stack cap ((text ++ d.text G stack cursor).take (cap-1)) (cursor+slots stack [d]) ds s') :
    Formats G stack cap text cursor (d :: ds) s' := by
  have hcursor := h.cursor
  have hholds := h.holds
  have hleft : cap-1-((text ++ d.text G stack cursor).take (cap-1)).length =
      cap-1-text.length-(d.text G stack cursor).length := by
    rw [List.length_take,List.length_append]
    omega
  refine ⟨?_,?_⟩
  · rw [rendered,← List.append_assoc,← take_append_take]
    exact hholds
  · rw [processed,if_neg (by omega),slots_cons,← hleft,← Nat.add_assoc]
    exact hcursor

theorem consumeAppleSlot_slots (stack : Option (ℕ → BitVec 64)) (s : Reason) (specifier : Char) :
    (consumeAppleSlot stack s).2.cursor = s.cursor + slots stack [.conversion specifier] ∧
      (consumeAppleSlot stack s).1 = stack.map fun words => words s.cursor := by
  cases stack with
  | none => exact ⟨rfl,rfl⟩
  | some words => exact ⟨rfl,rfl⟩

theorem Holds.consumeAppleSlot (h : Holds cap text s) (stack : Option (ℕ → BitVec 64)) :
    Holds cap text (consumeAppleSlot stack s).2 := by
  cases stack with
  | none => exact h
  | some words => exact ⟨h.front,h.used,h.length⟩

def FormatsFrom (G : Guest) (stack : Option (ℕ → BitVec 64)) (cap : ℕ) (p : List Char) : Prop :=
  ∀ (text : List Char) (s : Reason), Holds cap text s →
    ∃ s', formatFrom G stack cap (p ++ [nul]) s = some s' ∧ Formats G stack cap text s.cursor (directives p) s'

theorem FormatsFrom.copied {p : List Char} (ih : FormatsFrom G stack cap p) (h : Holds cap text s)
    (hroom : s.used+1 < cap) {c : Char} {d : Directive} (htext : d.text G stack s.cursor = [c])
    (hslots : slots stack [d] = 0) :
    ∃ s', (putChar c s).bind (formatFrom G stack cap (p ++ [nul])) = some s' ∧
      Formats G stack cap text s.cursor (d :: directives p) s' := by
  obtain ⟨s₁,hput,hholds,hcursor⟩ := putChar_holds h hroom c
  obtain ⟨s',hrest,hformats⟩ := ih _ s₁ hholds
  refine ⟨s',by rw [hput]; exact hrest,.step (h.used ▸ hroom) ?_⟩
  rw [htext,hslots,hholds.take_text,Nat.add_zero,← hcursor]
  exact hformats

theorem FormatsFrom.converted {p : List Char} (ih : FormatsFrom G stack cap p) (h : Holds cap text s)
    (hroom : s.used+1 < cap) (specifier : Char) :
    ∃ s', (appendText cap (some (argumentText G specifier (consumeAppleSlot stack s).1))
        (consumeAppleSlot stack s).2).bind (formatFrom G stack cap (p ++ [nul])) = some s' ∧
      Formats G stack cap text s.cursor (.conversion specifier :: directives p) s' := by
  obtain ⟨hslot,hargument⟩ := consumeAppleSlot_slots stack s specifier
  obtain ⟨s₁,happend,hholds,hcursor⟩ := appendText_holds (h.consumeAppleSlot stack)
    (argumentText G specifier (consumeAppleSlot stack s).1)
  obtain ⟨s',hrest,hformats⟩ := ih _ s₁ hholds
  refine ⟨s',by rw [happend]; exact hrest,.step (h.used ▸ hroom) ?_⟩
  rw [Directive.text,← hargument,← hslot,← hcursor]
  exact hformats

theorem FormatsFrom.of_room {c : Char} {p : List Char}
    (h : ∀ (text : List Char) (s : Reason), Holds cap text s → s.used+1 < cap →
      ∃ s', formatFrom G stack cap (c :: (p ++ [nul])) s = some s' ∧
        Formats G stack cap text s.cursor (directives (c :: p)) s') : FormatsFrom G stack cap (c :: p) := by
  intro text s hholds
  by_cases hroom : s.used+1 < cap
  · exact h text s hholds hroom
  · exact ⟨s,formatFrom_stop (.inr hroom),hholds.formats_stop (.inr hroom)⟩

/-- By induction on the directives: whatever they are, the loop ends inside of the buffer and of the format. -/
theorem formatFrom_formats {p : List Char} (hp : nul ∉ p) : FormatsFrom G stack cap p := by
  induction p using directives.induct with
  | case1 => exact fun text s h => ⟨s,formatFrom_stop (.inl rfl),by rw [directives]; exact h.formats_stop (.inl rfl)⟩
  | case2 c p hplain ih =>
    obtain ⟨hc,hrest⟩ := not_or.mp (List.mem_cons.not.mp hp)
    refine .of_room fun text s h hroom => ?_
    rw [formatFrom_plain (Ne.symm hc) hroom hplain,directives_plain hplain]
    exact (ih hrest).copied h hroom rfl (by unfold slots; split <;> rfl)
  | case3 c hpercent =>
    obtain rfl := not_not.mp hpercent
    have hnone : directives ['%'] = [] := by rw [directives,if_neg hpercent]
    refine .of_room fun text s h hroom => ?_
    rw [hnone]
    exact ⟨s,formatFrom_incomplete hroom (by decide) rfl,h.formats_stop (.inl rfl)⟩
  | case4 c hpercent p ih =>
    obtain rfl := not_not.mp hpercent
    have hrest : nul ∉ p := fun hmem => hp (List.mem_cons_of_mem _ (List.mem_cons_of_mem _ hmem))
    refine .of_room fun text s h hroom => ?_
    rw [List.cons_append,formatFrom_percent hroom,directives_percent]
    exact (ih hrest).copied h hroom rfl (by unfold slots; split <;> rfl)
  | case5 c hpercent c' p hc' hincomplete =>
    obtain rfl := not_not.mp hpercent
    have hscan := skipModifiers_terminated fun hmem => hp (List.mem_cons_of_mem '%' hmem)
    rw [hincomplete] at hscan
    refine .of_room fun text s h hroom => ?_
    rw [directives_incomplete hc' hincomplete]
    exact ⟨s,formatFrom_incomplete hroom hc' hscan,h.formats_stop (.inl rfl)⟩
  | case6 c hpercent c' p hc' specifier rest hcomplete ih =>
    obtain rfl := not_not.mp hpercent
    have htail : nul ∉ c' :: p := fun hmem => hp (List.mem_cons_of_mem '%' hmem)
    have hscan := skipModifiers_terminated htail
    have hleft : nul ∉ specifier :: rest := fun hmem =>
      htail ((hcomplete ▸ afterModifiers_suffix (c' :: p)).subset hmem)
    rw [hcomplete,List.cons_append,List.cons_append] at hscan
    obtain ⟨hspecifier,hrest⟩ := not_or.mp (List.mem_cons.not.mp hleft)
    refine .of_room fun text s h hroom => ?_
    rw [List.cons_append,formatFrom_conversion hroom hc' hscan (Ne.symm hspecifier),directives_conversion hc' hcomplete]
    exact (ih hrest).converted h hroom specifier

end Loop

theorem holds_start {cap : ℕ} (hcap : 1 ≤ cap) {out : List Char} (hout : out.length = cap) :
    ∃ out', store out 0 nul = some out' ∧ Holds cap [] ⟨out',0,0⟩ := by
  obtain ⟨out',hstore,hlength,hfront⟩ := store_extends (List.nil_prefix (l := out)) (by rw [hout]; exact hcap) nul
  exact ⟨out',hstore,hfront,rfl,hlength.trans hout⟩

theorem Holds.terminated {cap : ℕ} {text : List Char} {s : Reason} (h : Holds cap text s) :
    s.out.length = cap ∧ s.used < cap ∧ s.out[s.used]? = some nul := by
  have hroom := h.room
  refine ⟨h.length,h.used ▸ hroom,?_⟩
  rw [getElem?_front h.front (by rw [h.used,List.length_append]; exact Nat.lt_succ_self _),h.used]
  exact List.getElem?_concat_length

theorem formatExceptionReason_formats (G : Guest) (stack : Option (ℕ → BitVec 64)) (format : Format) {cap : ℕ}
    (hcap : 1 ≤ cap) {out : List Char} (hout : out.length = cap) :
    ∃ s, formatExceptionReason G stack cap (some format) out = some s ∧
      Formats G stack cap [] 0 (directives format.chars) s := by
  obtain ⟨out',hstore,hholds⟩ := holds_start hcap hout
  have hfrom : FormatsFrom G stack cap format.chars := formatFrom_formats format.terminated
  obtain ⟨s,hloop,hformats⟩ := hfrom _ _ hholds
  refine ⟨s,?_,hformats⟩
  rw [formatExceptionReason,if_neg (Nat.one_le_iff_ne_zero.mp hcap),hstore]
  exact hloop

/-- It ends inside of the buffer and of the format, with a terminated string, and has consumed a slot for every
conversion that it processed. -/
theorem formatExceptionReason_safe (G : Guest) (stack : Option (ℕ → BitVec 64)) (format : Option Format) {cap : ℕ}
    (hcap : 1 ≤ cap) {out : List Char} (hout : out.length = cap) :
    ∃ s, formatExceptionReason G stack cap format out = some s ∧
      (s.out.length = cap ∧ s.used < cap ∧ s.out[s.used]? = some nul) ∧
      s.cursor = slots stack (processed G stack (cap-1) 0 (directivesOf format)) := by
  cases format with
  | none =>
    obtain ⟨out',hstore,hholds⟩ := holds_start hcap hout
    obtain ⟨s,happend,hs,hcursor⟩ := appendText_holds hholds "(null format)".toList
    refine ⟨s,?_,hs.terminated,?_⟩
    · rw [formatExceptionReason,if_neg (Nat.one_le_iff_ne_zero.mp hcap),hstore]
      exact happend
    · rw [hcursor,directivesOf,processed,slots_nil]
  | some format =>
    obtain ⟨s,hs,hformats⟩ := formatExceptionReason_formats G stack format hcap hout
    refine ⟨s,hs,hformats.holds.terminated,?_⟩
    have hcursor := hformats.cursor
    rwa [Nat.zero_add] at hcursor

/-- The format `%5d%%` in a buffer of four. -/
theorem formatExceptionReason_safe_four :
    ∃ s, formatExceptionReason ⟨fun _ => .nil,fun _ => [],fun _ => []⟩ (some fun _ => 7) 4
        (some ⟨['%','5','d','%','%'],by decide⟩) ['x','x','x','x'] = some s ∧
      (s.out.length = 4 ∧ s.used < 4 ∧ s.out[s.used]? = some nul) ∧ s.cursor = 1 := by
  have hmodifiers : afterModifiers ['5','d','%','%'] = ['d','%','%'] := by decide
  have hdirectives : directives ['%','5','d','%','%'] = [.conversion 'd',.percent] := by
    rw [directives_conversion (by decide) hmodifiers,directives_percent,directives]
  obtain ⟨s,hs,hsafe,hcursor⟩ := formatExceptionReason_safe ⟨fun _ => .nil,fun _ => [],fun _ => []⟩
    (some fun _ => 7) (some ⟨['%','5','d','%','%'],by decide⟩) (by decide : 1 ≤ 4)
    (by decide : ['x','x','x','x'].length = 4)
  refine ⟨s,hs,hsafe,hcursor.trans ?_⟩
  rw [directivesOf,hdirectives]
  decide

end Machismo.Shim.ExceptionReason
