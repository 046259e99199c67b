import Machismo.Patcher.Parse

/-! # The documented grammar

A line is the text of a tree that has every character of it: blanks, prefixes, digits, names. Trees allow
more than the documentation, since the scanner does; those that it describes are the proper ones. It does
not say which characters a name may have, so that a name is a word without the marks that end it where it
stands. A word of digits may be a label as well as an address.
-/
namespace Machismo.Patcher

abbrev Gap := {w : Text // ∀ c ∈ w, isWs c}
abbrev Token (ok : Char → Bool) := {w : Text // w ≠ [] ∧ ∀ c ∈ w, ok c}

/-- A hexadecimal literal, with the `x` of each of its prefixes. -/
@[ext] structure Lit where
  marks : Text
  digits : Text
  isX_marks : ∀ x ∈ marks, isX x
  length_marks : marks.length ≤ 2
  digits_ne : digits ≠ []
  isHexDigit_digits : ∀ c ∈ digits, isHexDigit c

/-- Eight nibbles with wildcards. -/
abbrev PatternWord := {w : Text // w.length = 8 ∧ ∀ c ∈ w, isHexDigit c ∨ c = '?'}

structure Offset where
  neg : Bool
  gap : Gap
  lit : Lit

structure Within where
  gap : Gap
  gap₁ : Gap
  lit : Lit

structure Find where
  gap : Gap
  patterns : List (Gap × PatternWord)
  within : Option Within

inductive LocTree where
  | sym (name : Token isSymChar) (offset : Option Offset) (find : Option Find)
  | label (name : Token isLabelChar) (offset : Option Offset)
  | abs (addr : Lit)

inductive InsnTree where
  | nop
  | ret
  | raw (insn : Lit)
  | branch (link : Bool) (gap : Gap) (target : LocTree)

structure Expect where
  gap : Gap
  gap₁ : Gap
  gap₂ : Gap
  lit : Lit

inductive LineTree where
  | legacy (addr : Lit) (gap : Gap) (insn : Lit) (rest : Text)
  | letLine (gap : Gap) (name : {w : Text // ∀ c ∈ w, isLetChar c}) (gap₁ gap₂ : Gap) (loc : LocTree) (rest : Text)
  | atLine (gap : Gap) (loc : LocTree) (gap₁ : Gap) (insn : InsnTree) (expect : Option Expect) (rest : Text)

/-! ## Texts

The text of a tree is given before the text that follows it.
-/

def Lit.before (l : Lit) (r : Text) : Text := l.marks.foldr (fun x p => '0' :: x :: p) (l.digits ++ r)

def Offset.sign (o : Offset) : Char := if o.neg then '-' else '+'

def offsetBefore : Option Offset → Text → Text
  | none, r => r
  | some o, r => o.sign :: (o.gap ++ o.lit.before r)

def patternsBefore : List (Gap × PatternWord) → Text → Text
  | [], r => r
  | p :: ps, r => p.1 ++ (p.2 ++ patternsBefore ps r)

def withinBefore : Option Within → Text → Text
  | none, r => r
  | some w, r => w.gap ++ ("within ".toList ++ (w.gap₁ ++ w.lit.before r))

def findBefore : Option Find → Text → Text
  | none, r => r
  | some f, r => f.gap ++ ("find ".toList ++ patternsBefore f.patterns (withinBefore f.within r))

def LocTree.before : LocTree → Text → Text
  | .sym name offset find, r => "sym:".toList ++ (name ++ offsetBefore offset (findBefore find r))
  | .label name offset, r => name ++ offsetBefore offset r
  | .abs addr, r => addr.before r

def mnemonic (link : Bool) : Text := if link then "bl ".toList else "b ".toList

def InsnTree.before : InsnTree → Text → Text
  | .nop, r => "nop".toList ++ r
  | .ret, r => "ret".toList ++ r
  | .raw insn, r => insn.before r
  | .branch link gap target, r => mnemonic link ++ (gap ++ target.before r)

def expectBefore : Option Expect → Text → Text
  | none, r => r
  | some e, r => e.gap ++ (';' :: (e.gap₁ ++ ("expect ".toList ++ (e.gap₂ ++ e.lit.before r))))

def LineTree.text : LineTree → Text
  | .legacy addr gap insn rest => addr.before (gap ++ insn.before rest)
  | .letLine gap name gap₁ gap₂ loc rest =>
    "let ".toList ++ (gap ++ (name ++ (gap₁ ++ ('=' :: (gap₂ ++ loc.before rest)))))
  | .atLine gap loc gap₁ insn expect rest =>
    "at ".toList ++ (gap ++ loc.before (gap₁ ++ insn.before (expectBefore expect rest)))

/-- A number that is too large counts as the largest one, but has no documented meaning. -/
def Lit.value (l : Lit) : BitVec 64 := BitVec.ofNat 64 (min (hexValue l.digits) (2^64 - 1))

/-- A wildcard has a nibble of zeros in the mask, a digit a nibble of ones. -/
def PatternWord.pattern (w : PatternWord) : Pattern where
  mask := BitVec.ofNat 32 (hexValue (w.1.map fun c => if c = '?' then '0' else 'F'))
  value := BitVec.ofNat 32 (hexValue (w.1.map fun c => if c = '?' then '0' else c))

def Offset.value (o : Offset) : BitVec 64 := if o.neg then -o.lit.value else o.lit.value

def offsetValue : Option Offset → BitVec 64
  | none => 0
  | some o => o.value

def withinValue : Option Within → BitVec 64
  | none => 0
  | some w => w.lit.value

def LocTree.meaning : LocTree → LocExpr
  | .sym name offset none => .sym name (offsetValue offset)
  | .sym name offset (some f) =>
    .symFind name (offsetValue offset) (f.patterns.map fun p => PatternWord.pattern p.2) (withinValue f.within)
  | .label name offset => .label name (offsetValue offset)
  | .abs addr => .abs addr.value

def InsnTree.meaning : InsnTree → InsnExpr
  | .nop => .raw encNop
  | .ret => .raw encRet
  | .raw insn => .raw (insn.value.setWidth 32)
  | .branch link _ target => if link then .bl target.meaning else .b target.meaning

def LineTree.meaning : LineTree → PatchLine
  | .legacy addr _ insn _ => .lineAbs addr.value (insn.value.setWidth 32)
  | .letLine _ name _ _ loc _ => .lineLet name loc.meaning
  | .atLine _ loc _ insn expect _ => .lineAt loc.meaning insn.meaning (expect.map fun e => e.lit.value.setWidth 32)

/-- At most one prefix, and a number of 64 bits. -/
def Lit.Proper (l : Lit) : Prop := l.marks.length ≤ 1 ∧ hexValue l.digits < 2^64

/-- A number of 32 bits. -/
def Lit.IsWord (l : Lit) : Prop := hexValue l.digits < 2^32

/-- Patterns, and what follows them, are apart. -/
structure Find.Proper (f : Find) : Prop where
  gap : f.gap.1 ≠ []
  patterns : f.patterns ≠ []
  apart : ∀ p ∈ f.patterns.tail, p.1.1 ≠ []
  within : ∀ w ∈ f.within, w.gap.1 ≠ [] ∧ w.lit.Proper

/-- There is an offset or a search, not both. A label does not look like a symbol or a number with a prefix,
and its offset is not negative. -/
def LocTree.Proper : LocTree → Prop
  | .sym _ offset find => (∀ o ∈ offset, o.lit.Proper) ∧ ∀ f ∈ find, offset = none ∧ f.Proper
  | .label name offset =>
    ¬"sym:".toList <+: name.1 ∧ ¬has0x name ∧ ∀ o ∈ offset, o.neg = false ∧ o.lit.Proper
  | .abs addr => addr.Proper

def InsnTree.Proper : InsnTree → Prop
  | .nop => True
  | .ret => True
  | .raw insn => insn.Proper ∧ insn.IsWord
  | .branch _ _ target => target.Proper

/-- The two words of a legacy line are apart by a blank that is not the carriage return of a line's end. -/
def Separates (gap : Gap) : Prop := gap.1.head?.any (· ∈ [' ','\t','\n'])

def LineTree.Proper : LineTree → Prop
  | .legacy addr gap insn rest =>
    addr.Proper ∧ Separates gap ∧ insn.Proper ∧ insn.IsWord ∧ ∀ c ∈ rest, isWs c
  | .letLine _ name _ _ loc rest => name.1 ≠ [] ∧ loc.Proper ∧ ∀ c ∈ rest, isWs c
  | .atLine _ loc gap₁ insn expect rest =>
    loc.Proper ∧ gap₁.1 ≠ [] ∧ insn.Proper ∧ (∀ e ∈ expect, e.lit.Proper ∧ e.lit.IsWord) ∧ ∀ c ∈ rest, isWs c

/-- A line, up to its comment, and what it means: nothing if it is blank. -/
def Documented (line : Text) : Option PatchLine → Prop
  | none => lineText line = []
  | some out => ∃ t : LineTree, t.text = lineText line ∧ t.Proper ∧ t.meaning = out

/-- The lines of a text, each with the newline that ends it; `line` is the one so far, from its end. -/
def textLinesFrom (line : Text) : Text → List Text
  | [] => if line = [] then [] else [line.reverse]
  | c :: text => if c = '\n' then (c :: line).reverse :: textLinesFrom [] text else textLinesFrom (c :: line) text

def textLines (text : Text) : List Text := textLinesFrom [] text

/-- A line is read as documented: with a documented meaning, or not at all if it has none. -/
def ReadAsDocumented (line : Text) : Prop :=
  (∀ out, parseBuf line = some out → Documented line out) ∧ (parseBuf line = none → ∀ out, ¬Documented line out)

/-- A file is read as documented: line by line, whatever their lengths, and each line so. -/
def FileReadAsDocumented (text : Text) : Prop :=
  fgetsLines text = textLines text ∧ ∀ line ∈ textLines text, ReadAsDocumented line

end Machismo.Patcher
