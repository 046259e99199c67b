import Machismo.Data.Hex

/-! # The heaptrack stream

One record a line.  Records name each other by number, and the numbers are not written: the
`k`-th `s`, `i` and `t` line has number `k`, the `k`-th `a` line number `k-1`.  A reader
replays the lines and fails at the first number nothing was written for, and at a `-` that
has no block.
-/
namespace Machismo.Heaptrack.Stream
open Data

abbrev Name := List Char

inductive Record where
  | string (name : Name)
  | ip (addr modIdx fnIdx fileIdx lineNo : ℕ)
  | trace (ipIdx parent : ℕ)
  | alloc (size traceIdx : ℕ)
  | plus (info : ℕ)
  | minus (info : ℕ)
  | clock (ms : ℕ)
  | rss (pages : ℕ)
deriving DecidableEq, Repr

/-- The formats of the `trace_printf` calls, less the line's end. -/
def Record.line : Record → List Char
  | .string name => 's' :: ' ' :: name
  | .ip addr modIdx fnIdx fileIdx lineNo => 'i' :: fields [addr,modIdx,fnIdx,fileIdx,lineNo]
  | .trace ipIdx parent => 't' :: fields [ipIdx,parent]
  | .alloc size traceIdx => 'a' :: fields [size,traceIdx]
  | .plus info => '+' :: fields [info]
  | .minus info => '-' :: fields [info]
  | .clock ms => 'c' :: fields [ms]
  | .rss pages => 'R' :: fields [pages]

/-- A block as the reader knows it: its size and its call stack, innermost frame first. -/
abbrev Block := ℕ × List ℕ

/-- What the lines read so far have defined, and the alloc infos of the blocks that are live. -/
structure Replay where
  strings : List Name
  ips : List ℕ
  traces : List (List ℕ)
  infos : List Block
  live : Multiset ℕ

def Replay.start : Replay := ⟨[],[],[],[],0⟩

def numbered {α : Type} (l : List α) (k : ℕ) : Option α := if k = 0 then none else l[k-1]?

/-- Trace 0 is the empty stack. -/
def Replay.stack (r : Replay) (k : ℕ) : Option (List ℕ) := if k = 0 then some [] else numbered r.traces k

def Replay.apply (r : Replay) : Record → Option Replay
  | .string name => some { r with strings := r.strings++[name] }
  | .ip addr modIdx fnIdx fileIdx _ => do
    let _ ← numbered r.strings modIdx
    let _ ← numbered r.strings fnIdx
    let _ ← numbered r.strings fileIdx
    return { r with ips := r.ips++[addr] }
  | .trace ipIdx parent => do
    let addr ← numbered r.ips ipIdx
    let stack ← r.stack parent
    return { r with traces := r.traces++[addr::stack] }
  | .alloc size traceIdx => do
    let stack ← r.stack traceIdx
    return { r with infos := r.infos++[(size,stack)] }
  | .plus info => do
    let _ ← r.infos[info]?
    return { r with live := info ::ₘ r.live }
  | .minus info => if info ∈ r.live then some { r with live := r.live.erase info } else none
  | .clock _ => some r
  | .rss _ => some r

def replay (records : List Record) : Option Replay := records.foldlM Replay.apply .start

/-- The blocks that are live, with repetitions. -/
def Replay.blocks (r : Replay) : Multiset Block := r.live.map fun k => r.infos.getD k (0,[])

theorem replay_concat {records : List Record} {r : Replay} (h : replay records = some r) (x : Record) :
    replay (records++[x]) = r.apply x := by
  rw [replay] at h ⊢
  rw [List.foldlM_append,h]
  simp

section Text

/-- A line of the stream; lines of other kinds are passed over. -/
def readLine (line : List Char) : Option (Option Record) :=
  match line with
  | 's' :: ' ' :: name => some (some (.string name))
  | 'i' :: rest =>
    match readFields rest with
    | some [addr,modIdx,fnIdx,fileIdx,n] => some (some (.ip addr modIdx fnIdx fileIdx n))
    | _ => none
  | 't' :: rest =>
    match readFields rest with
    | some [ipIdx,parent] => some (some (.trace ipIdx parent))
    | _ => none
  | 'a' :: rest =>
    match readFields rest with
    | some [size,traceIdx] => some (some (.alloc size traceIdx))
    | _ => none
  | '+' :: rest =>
    match readFields rest with
    | some [info] => some (some (.plus info))
    | _ => none
  | '-' :: rest =>
    match readFields rest with
    | some [info] => some (some (.minus info))
    | _ => none
  | _ => some none

def Replay.applyLine (r : Replay) (line : List Char) : Option Replay := do
  match ← readLine line with
  | none => return r
  | some x => r.apply x

def replayText (text : List Char) : Option Replay := (lines '\n' text).foldlM Replay.applyLine .start

def text (records : List Record) : List Char := unlines '\n' (records.map Record.line)

def Record.OneLine : Record → Prop
  | .string name => '\n' ∉ name
  | _ => True

theorem applyLine_line (r : Replay) (x : Record) : r.applyLine x.line = r.apply x := by
  cases x <;> simp [Replay.applyLine,Record.line,readLine,readFields_fields,Replay.apply]

theorem not_mem_line {x : Record} (h : x.OneLine) : '\n' ∉ x.line := by
  cases x with
  | string name => simpa [Record.line,Record.OneLine] using h
  | _ => simpa [Record.line] using not_mem_fields _

theorem replayText_text {records : List Record} (h : ∀ x ∈ records, x.OneLine) :
    replayText (text records) = replay records := by
  have hlines : ∀ l ∈ records.map Record.line, '\n' ∉ l := by
    intro l hl
    obtain ⟨x,hx,rfl⟩ := List.mem_map.mp hl
    exact not_mem_line (h x hx)
  rw [replayText,text,lines_unlines hlines,replay,List.foldlM_map]
  simp only [applyLine_line]

end Text

end Machismo.Heaptrack.Stream
