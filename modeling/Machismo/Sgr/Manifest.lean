import Machismo.Sgr.Archive
import Machismo.Data.Hex

/-! # The manifest

`sgr_extract` lists the header strings and the entries in a text file, a line each;
`sgr_repack` reads the lines back.  A line's end takes all line feeds and carriage returns in
front of it along, so a string must not have the one inside and not end in the other.
-/
namespace Machismo.Sgr
open Machismo.A64 (Byte)
open Machismo.Data

def ascii (c : Char) : Byte := BitVec.ofNat 8 c.toNat

def newline : Byte := ascii '\n'
def carriageReturn : Byte := ascii '\r'
def tabulator : Byte := ascii '\t'

def titleKey : List Byte := ['T','I','T','L','E','\t'].map ascii
def devKey : List Byte := ['D','E','V','\t'].map ascii
def rootKey : List Byte := ['R','O','O','T','\t'].map ascii
def entryKey : List Byte := ['E','N','T','R','Y','\t'].map ascii

section Write

def decimal (n : ℕ) : List Byte := (Nat.toDigits 10 n).map ascii

def entryLine (e : Entry) : List Byte := entryKey++decimal e.type.toNat++tabulator::e.name

def manifestLines (a : Archive) : List (List Byte) :=
  [titleKey++a.title,devKey++a.dev,rootKey++a.root]++a.entries.map entryLine

def manifest (a : Archive) : List Byte := unlines newline (manifestLines a)

end Write

section Read

def isSpaceByte (b : Byte) : Bool := b == 32#8 || (9 ≤ b.toNat && b.toNat ≤ 13)
def isDigitByte (b : Byte) : Bool := 48 ≤ b.toNat && b.toNat ≤ 57

def digitsValue (w : List Byte) : ℕ := (w.takeWhile isDigitByte).foldl (fun v b => 10*v+(b.toNat-48)) 0

def atoi (w : List Byte) : ℤ :=
  match w.dropWhile isSpaceByte with
  | [] => 0
  | b::rest =>
    if b = ascii '-' then -digitsValue rest
    else if b = ascii '+' then digitsValue rest
    else digitsValue (b::rest)

/-- What `sgr_repack` knows of the archive when it has read the manifest. -/
structure Listing where
  title : List Byte
  dev : List Byte
  root : List Byte
  entries : List (List Byte × Byte)
deriving DecidableEq, Repr

def maxEntries : ℕ := 4096
def maxName : ℕ := 512

/-- The type and the name of an entry's line; without a tabulator the type is 0. -/
def readEntryLine (rest : List Byte) : List Byte × Byte :=
  match rest.idxOf? tabulator with
  | some i => ((rest.drop (i+1)).take (maxName-1),BitVec.ofInt 8 (atoi rest))
  | none => (rest.take (maxName-1),0#8)

def Listing.readLine (l : Listing) (line : List Byte) : Listing :=
  if titleKey.isPrefixOf line then { l with title := (line.drop titleKey.length).take 255 }
  else if devKey.isPrefixOf line then { l with dev := (line.drop devKey.length).take 255 }
  else if rootKey.isPrefixOf line then { l with root := (line.drop rootKey.length).take 255 }
  else if entryKey.isPrefixOf line then
    if l.entries.length < maxEntries then
      { l with entries := l.entries++[readEntryLine (line.drop entryKey.length)] }
    else l
  else l

/-- The line without the line feeds and carriage returns at its end. -/
def stripEnd (line : List Byte) : List Byte := line.rdropWhile fun b => b == newline || b == carriageReturn

/-- What `fgets` gives; the last line may lack its end. -/
def fgetsLines (text : List Byte) : List (List Byte) :=
  if (text.splitOn newline).getLast? = some [] then lines newline text else text.splitOn newline

def readManifest (text : List Byte) : Listing :=
  ((fgetsLines text).map stripEnd).foldl Listing.readLine ⟨[],[],[],[]⟩

end Read

/-- A string that is read back as it stands in a line. -/
def LineString (s : List Byte) : Prop := newline ∉ s ∧ stripEnd s = s

instance (s : List Byte) : Decidable (LineString s) := inferInstanceAs (Decidable (_ ∧ _))

section Lines

theorem stripEnd_front (w : List Byte) : stripEnd w <+: w := List.rdropWhile_prefix _ w

theorem stripEnd_append (key s : List Byte) : stripEnd (key++tabulator::s) = key++tabulator::stripEnd s := by
  induction s using List.reverseRecOn with
  | nil =>
    rw [stripEnd,stripEnd,List.rdropWhile_nil]
    exact List.rdropWhile_concat_neg _ _ _ (by decide)
  | append_singleton s b ih =>
    have hassoc : key++tabulator::(s++[b]) = key++tabulator::s++[b] := by simp
    rw [hassoc]
    unfold stripEnd at ih ⊢
    rw [List.rdropWhile_concat,List.rdropWhile_concat]
    split_ifs
    · exact ih
    · exact hassoc.symm

theorem idxOf?_append_cons {w : List Byte} {b : Byte} (h : b ∉ w) (rest : List Byte) :
    (w++b::rest).idxOf? b = some w.length := by
  induction w with
  | nil => simp [List.idxOf?_cons]
  | cons a w ih =>
    obtain ⟨hne,hmem⟩ := not_or.mp (List.mem_cons.not.mp h)
    have hbeq : (a == b) = false := beq_eq_false_iff_ne.mpr (Ne.symm hne)
    rw [List.cons_append,List.idxOf?_cons,hbeq,ih hmem]
    rfl

end Lines

section Numbers

theorem decimal_spec : ∀ n < 256, (decimal n).all isDigitByte = true ∧ digitsValue (decimal n) = n ∧
    decimal n ≠ [] := by
  decide +kernel

theorem takeWhile_digits {w : List Byte} (h : w.all isDigitByte = true) (rest : List Byte) :
    (w++tabulator::rest).takeWhile isDigitByte = w := by
  rw [List.takeWhile_append_of_pos (List.all_eq_true.mp h),List.takeWhile_cons_of_neg (by decide),List.append_nil]

theorem digit_ne {b : Byte} (h : isDigitByte b = true) :
    isSpaceByte b = false ∧ b ≠ ascii '-' ∧ b ≠ ascii '+' ∧ b ≠ tabulator ∧ b ≠ newline := by
  revert b
  decide +kernel

theorem atoi_decimal {n : ℕ} (h : n < 256) (rest : List Byte) : atoi (decimal n++tabulator::rest) = n := by
  obtain ⟨hdigits,hvalue,hne⟩ := decimal_spec n h
  obtain ⟨b,w,hw⟩ := List.exists_cons_of_ne_nil hne
  rw [hw] at hdigits hvalue ⊢
  obtain ⟨hspace,hminus,hplus,-,-⟩ := digit_ne (List.all_eq_true.mp hdigits b (List.mem_cons_self ..))
  have hdigitsValue : digitsValue (b::w++tabulator::rest) = n := by
    rw [digitsValue,takeWhile_digits hdigits]
    rw [digitsValue,List.takeWhile_eq_self_iff.mpr (List.all_eq_true.mp hdigits)] at hvalue
    exact hvalue
  rw [atoi,List.cons_append,List.dropWhile_cons_of_neg (by simp [hspace])]
  dsimp only
  rw [if_neg hminus,if_neg hplus,← List.cons_append,hdigitsValue]

theorem readEntryLine_eq (type : Byte) (name : List Byte) :
    readEntryLine (decimal type.toNat++tabulator::name) = (name.take (maxName-1),type) := by
  have hdigits := List.all_eq_true.mp (decimal_spec type.toNat type.isLt).1
  have hidx : (decimal type.toNat++tabulator::name).idxOf? tabulator = some (decimal type.toNat).length :=
    idxOf?_append_cons (fun h => (digit_ne (hdigits tabulator h)).2.2.2.1 rfl) name
  have hdrop : (decimal type.toNat++tabulator::name).drop ((decimal type.toNat).length+1) = name := by
    simp
  rw [readEntryLine,hidx]
  dsimp only
  rw [hdrop,atoi_decimal type.isLt]
  simp

end Numbers

section RoundTrip

/-- No string of the archive breaks a line. -/
def NoBreaks (a : Archive) : Prop :=
  newline ∉ a.title ∧ newline ∉ a.dev ∧ newline ∉ a.root ∧ ∀ e ∈ a.entries, newline ∉ e.name

theorem readLine_title (l : Listing) (s : List Byte) :
    l.readLine (titleKey++s) = { l with title := s.take 255 } := by
  rfl

theorem readLine_dev (l : Listing) (s : List Byte) : l.readLine (devKey++s) = { l with dev := s.take 255 } := by
  rfl

theorem readLine_root (l : Listing) (s : List Byte) : l.readLine (rootKey++s) = { l with root := s.take 255 } := by
  rfl

theorem readLine_entry (l : Listing) (s : List Byte) : l.readLine (entryKey++s) =
    if l.entries.length < maxEntries then { l with entries := l.entries++[readEntryLine s] } else l := by
  rfl

theorem newline_notMem_decimal (type : Byte) : newline ∉ decimal type.toNat := fun h =>
  (digit_ne (List.all_eq_true.mp (decimal_spec type.toNat type.isLt).1 newline h)).2.2.2.2 rfl

theorem newline_notMem_lines {a : Archive} (h : NoBreaks a) : ∀ line ∈ manifestLines a, newline ∉ line := by
  obtain ⟨htitle,hdev,hroot,hnames⟩ := h
  have hkeys : newline ∉ titleKey ∧ newline ∉ devKey ∧ newline ∉ rootKey ∧ newline ∉ entryKey ∧
      newline ≠ tabulator := by decide
  obtain ⟨hkt,hkd,hkr,hke,htab⟩ := hkeys
  intro line hline
  rcases List.mem_append.mp hline with hline | hline
  · simp only [List.mem_cons,List.not_mem_nil,or_false] at hline
    rcases hline with rfl | rfl | rfl
    · simp [hkt,htitle]
    · simp [hkd,hdev]
    · simp [hkr,hroot]
  · obtain ⟨e,he,rfl⟩ := List.mem_map.mp hline
    simp [entryLine,hke,htab,newline_notMem_decimal,hnames e he]

theorem fgetsLines_manifest {a : Archive} (h : NoBreaks a) : fgetsLines (manifest a) = manifestLines a := by
  have hlines := newline_notMem_lines h
  rw [fgetsLines,manifest,splitOn_unlines hlines,List.getLast?_concat,if_pos rfl]
  exact lines_unlines hlines

theorem stripEnd_entryLine (e : Entry) :
    stripEnd (entryLine e) = entryKey++(decimal e.type.toNat++tabulator::stripEnd e.name) := by
  rw [entryLine,stripEnd_append,List.append_assoc]

/-- The entries' lines, read in order until there is no more room. -/
theorem foldl_entryLines (es : List Entry) (l : Listing) (hl : l.entries.length ≤ maxEntries) :
    ((es.map entryLine).map stripEnd).foldl Listing.readLine l =
      { l with
        entries := (l.entries++es.map fun e => ((stripEnd e.name).take (maxName-1),e.type)).take maxEntries } := by
  induction es generalizing l with
  | nil => simp [List.take_of_length_le hl]
  | cons e es ih =>
    rw [List.map_cons,List.map_cons,List.foldl_cons,stripEnd_entryLine,readLine_entry,readEntryLine_eq]
    split_ifs with hroom
    · rw [ih _ (by simpa using hroom)]
      simp
    · have hfull : l.entries.length = maxEntries := le_antisymm hl (not_lt.mp hroom)
      rw [ih l hl,← hfull,List.take_left,List.take_left]

theorem readManifest_eq {a : Archive} (h : NoBreaks a) : readManifest (manifest a) =
    ⟨(stripEnd a.title).take 255,(stripEnd a.dev).take 255,(stripEnd a.root).take 255,
      (a.entries.map fun e => ((stripEnd e.name).take (maxName-1),e.type)).take maxEntries⟩ := by
  have htitle : stripEnd (titleKey++a.title) = titleKey++stripEnd a.title := stripEnd_append titleKey.dropLast _
  have hdev : stripEnd (devKey++a.dev) = devKey++stripEnd a.dev := stripEnd_append devKey.dropLast _
  have hroot : stripEnd (rootKey++a.root) = rootKey++stripEnd a.root := stripEnd_append rootKey.dropLast _
  rw [readManifest,fgetsLines_manifest h,manifestLines,List.map_append,List.foldl_append,
    foldl_entryLines _ _ (by simp [htitle,hdev,hroot,readLine_title,readLine_dev,readLine_root])]
  simp [htitle,hdev,hroot,readLine_title,readLine_dev,readLine_root]

/-- What a listing read from text looks like. -/
def Listing.Read (l : Listing) : Prop :=
  newline ∉ l.title ∧ newline ∉ l.dev ∧ newline ∉ l.root ∧ ∀ e ∈ l.entries, newline ∉ e.1

theorem Listing.Read.readLine {l : Listing} (h : l.Read) {line : List Byte} (hline : newline ∉ line) :
    (l.readLine line).Read := by
  have hdrop : ∀ n m, newline ∉ (line.drop n).take m := fun n m hm =>
    hline (List.mem_of_mem_drop (List.mem_of_mem_take hm))
  obtain ⟨htitle,hdev,hroot,hnames⟩ := h
  unfold Listing.readLine
  split_ifs
  · exact ⟨hdrop _ _,hdev,hroot,hnames⟩
  · exact ⟨htitle,hdrop _ _,hroot,hnames⟩
  · exact ⟨htitle,hdev,hdrop _ _,hnames⟩
  · refine ⟨htitle,hdev,hroot,fun e he => ?_⟩
    rcases List.mem_append.mp he with he | he
    · exact hnames e he
    · rw [List.mem_singleton.mp he]
      unfold readEntryLine
      split
      · rw [List.drop_drop]
        exact hdrop _ _
      · exact hdrop _ _
  · exact ⟨htitle,hdev,hroot,hnames⟩
  · exact ⟨htitle,hdev,hroot,hnames⟩

theorem read_readManifest (text : List Byte) : (readManifest text).Read := by
  have hlines : ∀ line ∈ (fgetsLines text).map stripEnd, newline ∉ line := by
    intro line hline
    obtain ⟨full,hfull,rfl⟩ := List.mem_map.mp hline
    have hsplit : full ∈ text.splitOn newline := by
      unfold fgetsLines at hfull
      split_ifs at hfull
      · exact List.mem_of_mem_dropLast hfull
      · exact hfull
    exact fun h => not_mem_of_mem_splitOn hsplit ((stripEnd_front full).subset h)
  have hfold : ∀ (ls : List (List Byte)) (l : Listing), l.Read → (∀ line ∈ ls, newline ∉ line) →
      (ls.foldl Listing.readLine l).Read := by
    intro ls
    induction ls with
    | nil => exact fun l hl _ => hl
    | cons line ls ih =>
      intro l hl hls
      obtain ⟨hline,hrest⟩ := List.forall_mem_cons.mp hls
      exact ih _ (hl.readLine hline) hrest
  exact hfold _ _ ⟨List.not_mem_nil,List.not_mem_nil,List.not_mem_nil,by simp⟩ hlines

/-- An archive whose manifest is read as it was written. -/
structure Listable (a : Archive) : Prop where
  title : LineString a.title ∧ a.title.length ≤ 255
  dev : LineString a.dev ∧ a.dev.length ≤ 255
  root : LineString a.root ∧ a.root.length ≤ 255
  names : ∀ e ∈ a.entries, LineString e.name ∧ e.name.length < maxName
  count : a.entries.length ≤ maxEntries

/-- What `sgr_repack` has to know of an archive. -/
def listing (a : Archive) : Listing := ⟨a.title,a.dev,a.root,a.entries.map fun e => (e.name,e.type)⟩

theorem take_stripEnd_iff {s : List Byte} {n : ℕ} (h : newline ∉ s) :
    (stripEnd s).take n = s ↔ LineString s ∧ s.length ≤ n := by
  constructor
  · intro heq
    have hlen : s.length ≤ (stripEnd s).length := by
      rw [← heq]
      simp only [List.length_take]
      exact le_trans (min_le_right _ _) (by rw [heq])
    have hs : stripEnd s = s := (stripEnd_front s).eq_of_length_le hlen
    rw [hs,List.take_eq_self_iff] at heq
    exact ⟨⟨h,hs⟩,heq⟩
  · rintro ⟨⟨-,hs⟩,hlen⟩
    rw [hs,List.take_of_length_le hlen]

theorem readManifest_iff (a : Archive) : readManifest (manifest a) = listing a ↔ Listable a := by
  constructor
  · intro h
    obtain ⟨htitle,hdev,hroot,hnames⟩ := h ▸ read_readManifest (manifest a)
    have hbreaks : NoBreaks a := ⟨htitle,hdev,hroot,fun e he => hnames (e.name,e.type) (List.mem_map_of_mem he)⟩
    rw [readManifest_eq hbreaks,listing,Listing.mk.injEq] at h
    obtain ⟨ht,hd,hr,hes⟩ := h
    have hcount : a.entries.length ≤ maxEntries := by
      have hlen := congrArg List.length hes
      simp only [List.length_take,List.length_map] at hlen
      omega
    rw [List.take_of_length_le (by simpa using hcount)] at hes
    refine ⟨(take_stripEnd_iff htitle).mp ht,(take_stripEnd_iff hdev).mp hd,(take_stripEnd_iff hroot).mp hr,
      ?_,hcount⟩
    intro e he
    have hname := (take_stripEnd_iff (hbreaks.2.2.2 e he)).mp (congrArg Prod.fst (List.map_inj_left.mp hes e he))
    exact ⟨hname.1,by unfold maxName at hname ⊢; omega⟩
  · intro h
    have hbreaks : NoBreaks a := ⟨h.title.1.1,h.dev.1.1,h.root.1.1,fun e he => (h.names e he).1.1⟩
    have hentries : (a.entries.map fun e => ((stripEnd e.name).take (maxName-1),e.type)) =
        a.entries.map fun e => (e.name,e.type) := by
      refine List.map_congr_left fun e he => Prod.ext ?_ rfl
      obtain ⟨hline,hlen⟩ := h.names e he
      exact (take_stripEnd_iff hline.1).mpr ⟨hline,by unfold maxName at hlen ⊢; omega⟩
    have hcount : (a.entries.map fun e => (e.name,e.type)).take maxEntries =
        a.entries.map fun e => (e.name,e.type) := List.take_of_length_le (by simpa using h.count)
    rw [readManifest_eq hbreaks,hentries,hcount,(take_stripEnd_iff h.title.1.1).mpr h.title,
      (take_stripEnd_iff h.dev.1.1).mpr h.dev,(take_stripEnd_iff h.root.1.1).mpr h.root]
    rfl

end RoundTrip

end Machismo.Sgr
