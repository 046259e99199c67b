import Machismo.Resolver.Names
import Mathlib.Data.BitVec

/-! # Reading a patch file

A patch file is read line by line through a buffer of 512 bytes, and a line by a scanner that looks a few
characters ahead. Every scanner takes the text that is left and returns what it read with the rest of the
text, or fails, which spoils the whole file. The end of the text stands for the terminator of the string.
-/
namespace Machismo.Patcher

abbrev Name := Resolver.Name
abbrev Text := List Char

structure Pattern where
  mask : BitVec 32
  value : BitVec 32
  deriving DecidableEq, Repr

inductive LocExpr where
  | abs (offset : BitVec 64)
  | sym (name : Name) (offset : BitVec 64)
  | symFind (name : Name) (offset : BitVec 64) (patterns : List Pattern) (within : BitVec 64)
  | label (name : Name) (offset : BitVec 64)
  deriving DecidableEq, Repr

inductive InsnExpr where
  | raw (insn : BitVec 32)
  | b (target : LocExpr)
  | bl (target : LocExpr)
  deriving DecidableEq, Repr

inductive PatchLine where
  | lineAbs (addr : BitVec 64) (insn : BitVec 32)
  | lineAt (loc : LocExpr) (insn : InsnExpr) (expected : Option (BitVec 32))
  | lineLet (labelName : Name) (loc : LocExpr)
  deriving DecidableEq, Repr

def encNop : BitVec 32 := 0xD503201F
def encRet : BitVec 32 := 0xD65F03C0

def isWs (c : Char) : Bool := c ∈ [' ','\t','\n','\r']
def isSpace (c : Char) : Bool := c ∈ [' ','\t','\n','\x0b','\x0c','\r']

def skipWs (p : Text) : Text := p.dropWhile isWs

def hexDigit (c : Char) : Option ℕ :=
  if '0' ≤ c ∧ c ≤ '9' then some (c.toNat - '0'.toNat)
  else if 'a' ≤ c ∧ c ≤ 'f' then some (c.toNat - 'a'.toNat + 10)
  else if 'A' ≤ c ∧ c ≤ 'F' then some (c.toNat - 'A'.toNat + 10)
  else none

def isHexDigit (c : Char) : Bool := (hexDigit c).isSome

/-- The text after a keyword. -/
def after (keyword : Text) (p : Text) : Option Text :=
  if keyword <+: p then some (p.drop keyword.length) else none

def isX (c : Char) : Bool := c = 'x' ∨ c = 'X'

def has0x : Text → Bool
  | '0' :: c :: _ => isX c
  | _ => false

def skip0x (p : Text) : Text := if has0x p then p.drop 2 else p

def hexValue (digits : Text) : ℕ := digits.foldl (fun v c => 16*v + (hexDigit c).getD 0) 0

/-- `strtoull` with base 16, on a text that starts with a digit: it has a prefix of its own, and a number
that is too large gives the largest one. -/
def strtoull16 (p : Text) : BitVec 64 × Text :=
  let p := if has0x p ∧ (p.drop 2).head?.any isHexDigit then p.drop 2 else p
  (BitVec.ofNat 64 (min (hexValue (p.takeWhile isHexDigit)) (2^64 - 1)),p.dropWhile isHexDigit)

def parseHexU64 (p : Text) : Option (BitVec 64 × Text) :=
  let p := skip0x (skipWs p)
  if p.head?.any isHexDigit then some (strtoull16 p) else none

def looksLegacy (p : Text) : Bool :=
  let p := p.dropWhile (· ∈ [' ','\t'])
  if has0x p then true
  else p.head?.any isHexDigit && (p.dropWhile isHexDigit).head?.all (· ∈ [' ','\t','\n'])

def patternNibble (c : Char) : Option (ℕ × ℕ) := if c = '?' then some (0,0) else (hexDigit c).map fun d => (15,d)

def patternOf (nibbles : List (ℕ × ℕ)) : Pattern :=
  nibbles.foldl (fun pat nibble =>
    ⟨pat.mask <<< 4 ||| BitVec.ofNat 32 nibble.1,pat.value <<< 4 ||| BitVec.ofNat 32 nibble.2⟩) ⟨0,0⟩

/-- The end of a word: of the text, a space, or one of the two marks that follow instructions. -/
def isTerminated (p : Text) : Bool := p.head?.all fun c => isSpace c ∨ c = ';' ∨ c = '#'

def parsePattern (s : Text) : Option Pattern :=
  if (s.take 8).length = 8 ∧ isTerminated (s.drop 8) then ((s.take 8).mapM patternNibble).map patternOf else none

def startsPattern (p : Text) : Bool := p.head?.any fun c => isHexDigit c ∨ c = '?'

def locMaxPatterns : ℕ := 8

/-- Patterns are read as long as the next word starts like one, with room for `n` of them. -/
def parsePatterns : ℕ → Text → Option (List Pattern × Text)
  | 0, _ => none
  | n + 1, save =>
    (parsePattern save).bind fun pat =>
      let save := skipWs (save.drop 8)
      if startsPattern save then (parsePatterns n save).map fun r => (pat :: r.1,r.2) else some ([pat],save)

def isSymChar (c : Char) : Bool := ¬isSpace c ∧ c ≠ '+' ∧ c ≠ '-' ∧ c ≠ ';'
def isLabelChar (c : Char) : Bool := ¬isSpace c ∧ c ≠ '+' ∧ c ≠ ';'

/-- A name that is not empty and fits its buffer. -/
def parseName (isNameChar : Char → Bool) (bufSize : ℕ) (p : Text) : Option (Name × Text) :=
  let name := p.takeWhile isNameChar
  if name.length < bufSize ∧ name ≠ [] then some (name,p.dropWhile isNameChar) else none

def parseSymOffset : Text → Option (BitVec 64 × Text)
  | '+' :: p => parseHexU64 p
  | '-' :: p => (parseHexU64 p).map fun r => (-r.1,r.2)
  | p => some (0,p)

def parseWithin (save : Text) : Option (BitVec 64 × Text) :=
  match after "within ".toList save with
  | some save => parseHexU64 (skipWs save)
  | none => some (0,save)

def parseFind (name : Name) (offset : BitVec 64) (save : Text) : Option (LocExpr × Text) :=
  (parsePatterns locMaxPatterns (skipWs save)).bind fun pats =>
    (parseWithin pats.2).map fun r => (.symFind name offset pats.1 r.1,r.2)

def parseSym (p : Text) : Option (LocExpr × Text) :=
  (parseName isSymChar 256 p).bind fun name =>
    (parseSymOffset name.2).bind fun offset =>
      match after "find ".toList (skipWs offset.2) with
      | some save => parseFind name.1 offset.1 save
      | none => some (.sym name.1 offset.1,offset.2)

def parseLabelOffset : Text → Option (BitVec 64 × Text)
  | '+' :: p => parseHexU64 p
  | p => some (0,p)

def parseLabel (p : Text) : Option (LocExpr × Text) :=
  (parseName isLabelChar 256 p).bind fun name =>
    (parseLabelOffset name.2).map fun offset => (.label name.1 offset.1,offset.2)

def parseLocExpr (p : Text) : Option (LocExpr × Text) :=
  let p := skipWs p
  match after "sym:".toList p with
  | some p => parseSym p
  | none => if has0x p then (parseHexU64 p).map fun r => (.abs r.1,r.2) else parseLabel p

/-- A mnemonic without operands. -/
def afterMnemonic (mnemonic : Text) (p : Text) : Option Text :=
  (after mnemonic p).bind fun q => if q.head?.all fun c => isSpace c ∨ c = ';' then some q else none

def parseRaw (p : Text) : Option (InsnExpr × Text) :=
  (parseHexU64 p).bind fun r => if r.1 > 0xFFFFFFFF then none else some (.raw (r.1.setWidth 32),r.2)

def parseInsnExpr (p : Text) : Option (InsnExpr × Text) :=
  let p := skipWs p
  match afterMnemonic "nop".toList p with
  | some q => some (.raw encNop,q)
  | none =>
    match afterMnemonic "ret".toList p with
    | some q => some (.raw encRet,q)
    | none =>
      match after "bl ".toList p with
      | some q => (parseLocExpr q).map fun r => (.bl r.1,r.2)
      | none =>
        match after "b ".toList p with
        | some q => (parseLocExpr q).map fun r => (.b r.1,r.2)
        | none => parseRaw p

def parseExpect (p : Text) : Option (Option (BitVec 32)) :=
  match skipWs p with
  | [] => some none
  | ';' :: p =>
    (after "expect ".toList (skipWs p)).bind fun p =>
      (parseHexU64 (skipWs p)).bind fun r => if r.1 > 0xFFFFFFFF then none else some (some (r.1.setWidth 32))
  | _ :: _ => none

def parseLegacy (p : Text) : Option PatchLine :=
  (parseHexU64 p).bind fun a => (parseHexU64 a.2).bind fun i =>
    if i.1 > 0xFFFFFFFF then none else some (.lineAbs a.1 (i.1.setWidth 32))

def isLetChar (c : Char) : Bool := ¬isSpace c ∧ c ≠ '='

/-- The label may be empty here. -/
def parseLet (p : Text) : Option PatchLine :=
  let p := skipWs p
  let labelName := p.takeWhile isLetChar
  if labelName.length < 128 then
    (after ['='] (skipWs (p.dropWhile isLetChar))).bind fun p =>
      (parseLocExpr (skipWs p)).map fun r => .lineLet labelName r.1
  else none

def parseAt (p : Text) : Option PatchLine :=
  (parseLocExpr (skipWs p)).bind fun loc =>
    (parseInsnExpr loc.2).bind fun insn => (parseExpect insn.2).map fun expected => .lineAt loc.1 insn.1 expected

def parseDirective (p : Text) : Option PatchLine :=
  if looksLegacy p then parseLegacy p
  else match after "let ".toList p with
    | some p => parseLet p
    | none =>
      match after "at ".toList p with
      | some p => parseAt p
      | none => none

/-- The text of a buffer: up to its terminator, a comment, or its end. -/
def lineText (buf : Text) : Text := skipWs ((buf.takeWhile (· ≠ '\x00')).takeWhile (· ≠ '#'))

/-- What is read from a buffer; a blank line gives nothing. -/
def parseBuf (buf : Text) : Option (Option PatchLine) :=
  if lineText buf = [] then some none else (parseDirective (lineText buf)).map some

/-- The buffers that `fgets` fills; `line` is the buffer so far, from its end, and `room` what it can
still take. -/
def fgetsFrom (size : ℕ) (line : Text) (room : ℕ) : Text → List Text
  | [] => if line = [] then [] else [line.reverse]
  | c :: text =>
    if c = '\n' ∨ room ≤ 1 then (c :: line).reverse :: fgetsFrom size [] size text
    else fgetsFrom size (c :: line) (room-1) text

def fgetsSize : ℕ := 511

def fgetsLines (text : Text) : List Text := fgetsFrom fgetsSize [] fgetsSize text

def parsePatchFile (text : Text) : Option (List PatchLine) :=
  ((fgetsLines text).mapM parseBuf).map fun lines => lines.filterMap id

end Machismo.Patcher
