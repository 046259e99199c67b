import Machismo.EhFrame.NativeCie
import Mathlib.Data.Fintype.EquivFin

/-! # Runs over a native `__eh_frame`

The records are found by their lengths, and a length of 64 bits may lead back.  The walk comes to an end
exactly if it reaches no place twice, and it stays in the array exactly if every record on its way and
the CIE that it names can be read there.
-/
namespace Machismo.EhFrame
open A64 (Byte)
open Data Dwarf

def NativeSection.place (E : NativeSection) (pos : ℕ) : ℕ → Option ℕ
  | 0 => some pos
  | k + 1 => (E.record pos).bind fun r => E.place r.2 k

/-- No place is reached twice. -/
def NativeSection.Acyclic (E : NativeSection) : Prop :=
  ∀ i j, i < j → E.place 0 i ≠ none → E.place 0 i ≠ E.place 0 j

/-- A record can be read in the array, and so can the CIE it names. -/
def NativeSection.Readable (E : NativeSection) (dataStart : ℕ) : Prop :=
  dataStart + 4 ≤ E.size ∧
    let ciePos := (dataStart + 2^64 - E.word 4 dataStart) % 2^64
    E.word 4 dataStart ≠ 0 → ciePos < E.size →
      ciePos + 4 ≤ E.size ∧ CieInside E (E.bytes.drop (ciePos+4)) (E.word 4 ciePos)

section Walk
variable {E : NativeSection} {pos : ℕ}

theorem place_add (i k : ℕ) : E.place pos (i+k) = (E.place pos i).bind fun p => E.place p k := by
  induction i generalizing pos with
  | zero => rw [Nat.zero_add]; rfl
  | succ i ih =>
    rw [Nat.succ_add,NativeSection.place,NativeSection.place,Option.bind_assoc]
    congr 1
    funext r
    exact ih

theorem place_none_mono {i j : ℕ} (h : E.place pos i = none) (hij : i ≤ j) : E.place pos j = none := by
  obtain ⟨k,rfl⟩ := Nat.exists_eq_add_of_le hij
  rw [place_add,h]
  rfl

theorem place_mul {d : ℕ} (h : E.place pos d = some pos) (m : ℕ) : E.place pos (d*m) = some pos := by
  induction m with
  | zero => rfl
  | succ m ih => rw [Nat.mul_succ,place_add,ih,Option.bind_some,h]

theorem acyclic_of_ends {n : ℕ} (h : E.place 0 n = none) : E.Acyclic := by
  intro i j hij hi heq
  obtain ⟨p,hp⟩ := Option.ne_none_iff_exists'.mp hi
  obtain ⟨d,rfl⟩ := Nat.exists_eq_add_of_lt hij
  have hback : E.place p (d+1) = some p := by
    rw [hp,Nat.add_assoc,place_add,hp,Option.bind_some] at heq
    exact heq.symm
  have hlater := place_none_mono h (Nat.le_add_left_of_le (Nat.le_mul_of_pos_left n d.succ_pos) : n ≤ i + (d+1)*n)
  rw [place_add,hp,Option.bind_some,place_mul hback] at hlater
  cases hlater

theorem record_le {r : ℕ×ℕ} (h : E.record pos = some r) : r.2 ≤ E.size := by
  unfold NativeSection.record at h
  dsimp only at h
  split_ifs at h <;> obtain rfl := Option.some.inj h <;> dsimp only <;> omega

theorem place_le {k p : ℕ} (hpos : pos ≤ E.size) (h : E.place pos k = some p) : p ≤ E.size := by
  induction k generalizing pos with
  | zero =>
    cases h
    exact hpos
  | succ k ih =>
    obtain ⟨r,hr,hrest⟩ := Option.bind_eq_some_iff.mp h
    exact ih (record_le hr) hrest

/-- The places are at most as many as the bytes, so that without a cycle the walk ends. -/
theorem ends_of_acyclic (h : E.Acyclic) : ∃ n, E.place 0 n = none := by
  by_contra hnever
  have hall : ∀ n, ∃ p, E.place 0 n = some p := fun n => Option.ne_none_iff_exists'.mp fun hn => hnever ⟨n,hn⟩
  choose f hf using hall
  have hle : ∀ n, f n < E.size + 1 := fun n => Nat.lt_succ_of_le (place_le (Nat.zero_le _) (hf n))
  refine not_injective_infinite_finite (fun n => (⟨f n,hle n⟩ : Fin (E.size + 1))) fun i j hij => ?_
  have heq : E.place 0 i = E.place 0 j := by rw [hf,hf,Fin.mk.inj hij]
  rcases lt_trichotomy i j with hlt | rfl | hlt
  · exact absurd heq (h i j hlt fun hn => hnever ⟨i,hn⟩)
  · rfl
  · exact absurd heq.symm (h j i hlt fun hn => hnever ⟨j,hn⟩)

theorem isSome_ehReadEncodedPtr {deref : BitVec 64 → BitVec 64} {address room : ℕ} {rest : List Byte} {encoding : Byte}
    (h : room ≤ rest.length) : (ehReadEncodedPtr deref address ⟨rest,room⟩ encoding).isSome := by
  have hcursor := ehReadEncodedPtr_cursor deref address rest room encoding
  rw [← Option.isSome_map,hcursor]
  split_ifs
  · rfl
  · omega
  · rfl

theorem fdeEntry_isSome_iff {dataStart dataEnd : ℕ} (h : dataEnd ≤ E.size) :
    (E.fdeEntry pos dataStart dataEnd).isSome ↔ E.Readable dataStart := by
  unfold NativeSection.fdeEntry NativeSection.Readable
  dsimp only
  generalize (dataStart + 2^64 - E.word 4 dataStart) % 2^64 = ciePos
  by_cases hsize : E.size < dataStart + 4
  · rw [if_pos hsize]
    exact iff_of_false Bool.false_ne_true fun hr => absurd hsize (not_lt.mpr hr.1)
  rw [if_neg hsize]
  by_cases hcie : E.word 4 dataStart = 0
  · rw [if_pos hcie]
    exact iff_of_true rfl ⟨not_lt.mp hsize,fun hn => absurd hcie hn⟩
  rw [if_neg hcie]
  by_cases hpos : E.size ≤ ciePos
  · rw [if_pos hpos]
    exact iff_of_true rfl ⟨not_lt.mp hsize,fun _ hlt => absurd hpos (not_le.mpr hlt)⟩
  rw [if_neg hpos]
  by_cases hlen : E.size < ciePos + 4
  · rw [if_pos hlen]
    refine iff_of_false Bool.false_ne_true fun hr => ?_
    exact absurd (hr.2 hcie (not_le.mp hpos)).1 (not_le.mpr hlen)
  rw [if_neg hlen]
  have hread : ∀ enc, (ehReadEncodedPtr E.deref (E.base + dataStart + 4)
      ⟨E.bytes.drop (dataStart+4),dataEnd - (dataStart+4)⟩ enc).isSome := by
    intro enc
    refine isSome_ehReadEncodedPtr ?_
    rw [List.length_drop]
    exact Nat.sub_le_sub_right h _
  have hcieRead := @parseCieFdeEncoding_isSome_iff E (E.bytes.drop (ciePos+4)) (E.word 4 ciePos)
  cases henc : parseCieFdeEncoding E (E.bytes.drop (ciePos+4)) (E.word 4 ciePos) with
  | none =>
    rw [henc] at hcieRead
    refine iff_of_false Bool.false_ne_true fun hr => Bool.false_ne_true (hcieRead.mpr ?_)
    exact (hr.2 hcie (not_le.mp hpos)).2
  | some enc =>
    rw [henc] at hcieRead
    rw [Option.bind_some,Option.isSome_map]
    exact iff_of_true (hread enc) ⟨not_lt.mp hsize,fun _ _ => ⟨not_lt.mp hlen,hcieRead.mp rfl⟩⟩

theorem parse_succ {n : ℕ} {entries : List HdrEntry} {r : ℕ×ℕ} {entry : Option HdrEntry} (hr : E.record pos = some r)
    (he : E.fdeEntry pos r.1 r.2 = some entry) :
    parseNativeEhFrameFdes E (n+1) pos entries = parseNativeEhFrameFdes E n r.2 (entries ++ entry.toList) := by
  rw [parseNativeEhFrameFdes,hr]
  dsimp only
  rw [he]

theorem ends_of_parse {n : ℕ} {entries es : List HdrEntry} (h : parseNativeEhFrameFdes E n pos entries = .done es) :
    E.place pos n = none ∧ ∀ k p r, E.place pos k = some p → E.record p = some r → E.Readable r.1 := by
  induction n generalizing pos entries with
  | zero => cases h
  | succ n ih =>
    cases hr : E.record pos with
    | none =>
      have hnone : ∀ k, E.place pos (k+1) = none := fun k => by rw [NativeSection.place,hr]; rfl
      refine ⟨hnone n,fun k p r hp hrec => ?_⟩
      cases k with
      | zero =>
        cases hp
        rw [hr] at hrec
        cases hrec
      | succ k =>
        rw [hnone k] at hp
        cases hp
    | some r =>
      cases he : E.fdeEntry pos r.1 r.2 with
      | none =>
        rw [parseNativeEhFrameFdes,hr] at h
        dsimp only at h
        rw [he] at h
        cases h
      | some entry =>
        rw [parse_succ hr he] at h
        obtain ⟨hend,hread⟩ := ih h
        have hnext : ∀ k, E.place pos (k+1) = E.place r.2 k := fun k => by rw [NativeSection.place,hr]; rfl
        refine ⟨by rw [hnext,hend],fun k p r' hp hrec => ?_⟩
        cases k with
        | zero =>
          cases hp
          rw [hr] at hrec
          obtain rfl := Option.some.inj hrec
          exact (fdeEntry_isSome_iff (record_le hr)).mp (Option.isSome_of_eq_some he)
        | succ k =>
          rw [hnext] at hp
          exact hread k p r' hp hrec

theorem parse_of_ends {n : ℕ} {entries : List HdrEntry} (hend : E.place pos n = none)
    (hread : ∀ k p r, E.place pos k = some p → E.record p = some r → E.Readable r.1) :
    ∃ es, parseNativeEhFrameFdes E n pos entries = .done es := by
  induction n generalizing pos entries with
  | zero => cases hend
  | succ n ih =>
    cases hr : E.record pos with
    | none => exact ⟨entries,by rw [parseNativeEhFrameFdes,hr]⟩
    | some r =>
      have hnext : ∀ k, E.place pos (k+1) = E.place r.2 k := fun k => by rw [NativeSection.place,hr]; rfl
      obtain ⟨entry,he⟩ := Option.isSome_iff_exists.mp
        ((fdeEntry_isSome_iff (record_le hr)).mpr (hread 0 pos r rfl hr))
      rw [parse_succ hr he]
      exact ih (by rw [← hnext,hend]) fun k p r' hp hrec => hread (k+1) p r' (by rw [hnext,hp]) hrec

/-- The parser ends, inside the array, exactly if the walk has no cycle and every record on it can be read. -/
theorem parse_done_iff :
    (∃ n es, parseNativeEhFrameFdes E n 0 [] = .done es) ↔
      E.Acyclic ∧ ∀ k p r, E.place 0 k = some p → E.record p = some r → E.Readable r.1 := by
  constructor
  · rintro ⟨n,es,h⟩
    obtain ⟨hend,hread⟩ := ends_of_parse h
    exact ⟨acyclic_of_ends hend,hread⟩
  · rintro ⟨hacyclic,hread⟩
    obtain ⟨n,hend⟩ := ends_of_acyclic hacyclic
    exact ⟨n,parse_of_ends hend hread⟩

end Walk

end Machismo.EhFrame
