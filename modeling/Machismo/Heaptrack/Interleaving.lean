import Mathlib

/-! # The traced allocator under threads

A traced `malloc`, `free` or `realloc` is two steps: the call of the real allocator and the
tracer's hook, which runs under the tracer's lock.  `free` runs the hook first; the other
two allocate first, so `realloc` has given the old address back before the tracer hears of
it.  The router of `shim_free` releases its blocks before the hook, too: such a `free` takes
the two steps of a `realloc` to the size 0.  Any number of threads take these steps in any
order, and the allocator may hand out any address that is not live.
-/
namespace Machismo.Heaptrack

abbrev Addr := ℕ

/-- What an alloc record of the trace stands for: a size and a call stack. -/
structure Info where
  size : ℕ
  trace : ℕ
deriving DecidableEq, Repr

/-- A `+` or a `-` of the stream, with the address it was written for. -/
inductive Record where
  | plus (p : Addr) (info : Info)
  | minus (p : Addr) (info : Info)
deriving DecidableEq, Repr

def Record.addr : Record → Addr
  | .plus p _ => p
  | .minus p _ => p

/-- The pointer map and the stream. -/
structure Tracer where
  map : Addr → Option Info
  records : List Record

section Hooks

/-- `do_alloc_locked`: an entry that is there already is written over. -/
def Tracer.alloc (tr : Tracer) (p : Addr) (info : Info) : Tracer :=
  ⟨Function.update tr.map p (some info),tr.records++[.plus p info]⟩

/-- `do_free_locked`; an untracked pointer is skipped. -/
def Tracer.free (tr : Tracer) (p : Addr) : Tracer :=
  match tr.map p with
  | none => tr
  | some info => ⟨Function.update tr.map p none,tr.records++[.minus p info]⟩

def Tracer.freeOld (tr : Tracer) : Option Addr → Tracer
  | none => tr
  | some p => tr.free p

def Tracer.allocNew (tr : Tracer) (info : Info) : Option Addr → Tracer
  | none => tr
  | some p => tr.alloc p info

/-- `machismo_heaptrack_realloc`, which does nothing when the allocation failed. -/
def Tracer.realloc (tr : Tracer) (old new : Option Addr) (info : Info) : Tracer :=
  if new = none ∧ info.size ≠ 0 then tr else (tr.freeOld old).allocNew info new

def Tracer.recordsAt (tr : Tracer) (p : Addr) : List Record := tr.records.filter fun r => r.addr == p

/-- The records of one address in turn: each `-` closes the `+` before it, and the last `+` is open
exactly when the map has the address, with the same info. -/
inductive Matched : List Record → Option Info → Prop where
  | nil : Matched [] none
  | plus {l : List Record} (p : Addr) (info : Info) : Matched l none → Matched (l++[.plus p info]) (some info)
  | minus {l : List Record} (p : Addr) {info : Info} : Matched l (some info) → Matched (l++[.minus p info]) none

def Tracer.Matched (tr : Tracer) : Prop := ∀ p, Heaptrack.Matched (tr.recordsAt p) (tr.map p)

theorem recordsAt_concat (tr : Tracer) (m : Addr → Option Info) (r : Record) (p : Addr) :
    Tracer.recordsAt ⟨m,tr.records++[r]⟩ p = if r.addr = p then tr.recordsAt p++[r] else tr.recordsAt p := by
  simp only [Tracer.recordsAt,List.filter_append,List.filter_cons,List.filter_nil,beq_iff_eq]
  split <;> simp

theorem Tracer.Matched.alloc {tr : Tracer} (h : tr.Matched) {p : Addr} (hp : tr.map p = none) (info : Info) :
    (tr.alloc p info).Matched := by
  intro a
  rw [Tracer.alloc,recordsAt_concat]
  rcases eq_or_ne p a with rfl | hne
  · have hm := h p
    rw [hp] at hm
    simpa [Record.addr] using Heaptrack.Matched.plus p info hm
  · simpa [Record.addr,hne,hne.symm] using h a

theorem Tracer.Matched.free {tr : Tracer} (h : tr.Matched) (p : Addr) : (tr.free p).Matched := by
  unfold Tracer.free
  cases hp : tr.map p with
  | none => exact h
  | some info =>
    intro a
    dsimp only
    rw [recordsAt_concat]
    rcases eq_or_ne p a with rfl | hne
    · have hm := h p
      rw [hp] at hm
      simpa [Record.addr] using Heaptrack.Matched.minus p hm
    · simpa [Record.addr,hne,hne.symm] using h a

theorem Tracer.free_map (tr : Tracer) (p : Addr) : (tr.free p).map = Function.update tr.map p none := by
  unfold Tracer.free
  cases hp : tr.map p with
  | none => simp [← hp]
  | some info => rfl

end Hooks

/-- A wrapper between its two steps. -/
inductive Pending where
  | alloc (p : Addr) (size : ℕ)
  | release (p : Addr)
  | realloc (old new : Option Addr) (size : ℕ)
deriving DecidableEq, Repr

structure State (T : Type) where
  live : Addr → Option ℕ
  tracer : Tracer
  pending : T → Option Pending

variable {T : Type} [DecidableEq T]

/-- An address that is a wrapper's while it is between its steps: `realloc` has the new one, or the old one when
it has failed. -/
def Pending.mentions : Pending → Addr → Prop
  | .alloc p _,a => a = p
  | .release p,a => a = p
  | .realloc old new size,a => new = some a ∨ (old = some a ∧ new = none ∧ size ≠ 0)

/-- No wrapper is at work on the address. -/
def State.Idle (s : State T) (a : Addr) : Prop := ∀ t q, s.pending t = some q → ¬q.mentions a

/-- The real allocator's part of `realloc`, on what is live; `released` is also what `free_router` does. -/
inductive Reallocated (live : Addr → Option ℕ) : Option Addr → Option Addr → ℕ → (Addr → Option ℕ) → Prop where
  | failed (old : Option Addr) {size : ℕ} : size ≠ 0 → Reallocated live old none size live
  | released (p : Addr) : Reallocated live (some p) none 0 (Function.update live p none)
  | inPlace (p : Addr) (size : ℕ) : Reallocated live (some p) (some p) size (Function.update live p (some size))
  | moved (p q : Addr) (size : ℕ) : q ≠ p → live q = none →
      Reallocated live (some p) (some q) size (Function.update (Function.update live p none) q (some size))
  | fresh (q : Addr) (size : ℕ) : live q = none →
      Reallocated live none (some q) size (Function.update live q (some size))

/-- One step of one thread.  A thread frees or reallocates only what is live and no wrapper is at work on. -/
inductive Step : State T → State T → Prop where
  | malloc (s : State T) (t : T) (p : Addr) (size : ℕ) : s.pending t = none → s.live p = none →
      Step s { s with
        live := Function.update s.live p (some size)
        pending := Function.update s.pending t (some (.alloc p size)) }
  | allocHook (s : State T) (t : T) (p : Addr) (size trace : ℕ) : s.pending t = some (.alloc p size) →
      Step s { s with
        tracer := s.tracer.alloc p ⟨size,trace⟩
        pending := Function.update s.pending t none }
  | freeHook (s : State T) (t : T) (p : Addr) : s.pending t = none → s.live p ≠ none → s.Idle p →
      Step s { s with
        tracer := s.tracer.free p
        pending := Function.update s.pending t (some (.release p)) }
  | free (s : State T) (t : T) (p : Addr) : s.pending t = some (.release p) →
      Step s { s with
        live := Function.update s.live p none
        pending := Function.update s.pending t none }
  | realloc (s : State T) (t : T) (old new : Option Addr) (size : ℕ) (live : Addr → Option ℕ) :
      s.pending t = none → (∀ p, old = some p → s.live p ≠ none ∧ s.Idle p) → Reallocated s.live old new size live →
      Step s { s with
        live := live
        pending := Function.update s.pending t (some (.realloc old new size)) }
  | reallocHook (s : State T) (t : T) (old new : Option Addr) (size trace : ℕ) :
      s.pending t = some (.realloc old new size) →
      Step s { s with
        tracer := s.tracer.realloc old new ⟨size,trace⟩
        pending := Function.update s.pending t none }

/-- Nothing allocated yet, and no wrapper at work. -/
def State.start : State T := ⟨fun _ => none,⟨fun _ => none,[]⟩,fun _ => none⟩

def State.Quiet (s : State T) : Prop := ∀ t, s.pending t = none

/-- The pointer map has exactly the live pointers, each with its size, and the records are matched. -/
def State.Exact (s : State T) : Prop :=
  (∀ p, (s.tracer.map p).map Info.size = s.live p) ∧ s.tracer.Matched

end Machismo.Heaptrack

/-! # Traced allocation in any order

An address that a `realloc` has left is known to the tracer until that wrapper's hook.  While no hook
enters an address in this time, what the tracer will say of an address is settled by the one wrapper
that has taken it.  Whenever all wrappers are through, the tracer and the allocator agree.  A hook that
enters an address too early leaves a `+` in the stream that nothing closes.
-/
namespace Machismo.Heaptrack
variable {T : Type}

def Pending.takes : Pending → Addr → Prop
  | .alloc p _,a => a = p
  | .release p,a => a = p
  | .realloc _ new _,a => new = some a

def Pending.enters : Pending → Addr → Prop
  | .alloc p _,a => a = p
  | .release _,_ => False
  | .realloc _ new _,a => new = some a

def Pending.removes : Pending → Addr → Prop
  | .realloc old new size,a => old = some a ∧ (new = none → size = 0)
  | _,_ => False

def Pending.leaves (q : Pending) (a : Addr) : Prop := q.removes a ∧ ¬q.takes a

/-- No hook of this step enters an address that a `realloc` has left and not reported yet. -/
def TimelyStep (s s' : State T) : Prop :=
  ∀ t q a, s.pending t = some q → s'.pending t = none → q.enters a → ∀ t' q', s.pending t' = some q' → ¬q'.leaves a

inductive History [DecidableEq T] : State T → Type where
  | start : History State.start
  | step {s s' : State T} (run : History s) (h : Step s s') : History s'

def History.Timely [DecidableEq T] {s : State T} : History s → Prop
  | .start => True
  | @History.step _ _ s s' run _ => run.Timely ∧ TimelyStep s s'

/-- What is so at an address that a wrapper has taken, with what is known of it. -/
def Pending.expects : Pending → Addr → Option ℕ → Option Info → Prop
  | .alloc _ size,_,live,known => live = some size ∧ known = none
  | .release _,_,live,known => live ≠ none ∧ known = none
  | .realloc old _ size,a,live,known => live = some size ∧ (old ≠ some a → known = none)

theorem Pending.mentions_of_takes {q : Pending} {a : Addr} (h : q.takes a) : q.mentions a := by
  cases q with
  | alloc p size => exact h
  | release p => exact h
  | realloc old new size => exact .inl h

/-- A wrapper has left the address. -/
def State.Left (s : State T) (a : Addr) : Prop := ∃ t q, s.pending t = some q ∧ q.leaves a

def State.Taken (s : State T) (a : Addr) : Prop := ∃ t q, s.pending t = some q ∧ q.takes a

open Classical in
/-- The entry of an address, but for one that is to be removed. -/
noncomputable def State.known (s : State T) (a : Addr) : Option Info := if s.Left a then none else s.tracer.map a

theorem known_of_left {s : State T} {a : Addr} (h : s.Left a) : s.known a = none := if_pos h

theorem known_of_not_left {s : State T} {a : Addr} (h : ¬s.Left a) : s.known a = s.tracer.map a := if_neg h

theorem known_of_map_none {s : State T} {a : Addr} (h : s.tracer.map a = none) : s.known a = none := by
  unfold State.known
  split
  · rfl
  · exact h

structure Inv (s : State T) : Prop where
  alone : ∀ t t' q q' a, s.pending t = some q → s.pending t' = some q' → q.takes a → q'.takes a → t = t'
  held : ∀ t q a, s.pending t = some q → q.takes a → q.expects a (s.live a) (s.known a)
  settled : ∀ a, ¬s.Taken a → (s.known a).map Info.size = s.live a
  single : ∀ t t' q q' a, s.pending t = some q → s.pending t' = some q' → q.removes a → q'.removes a → t = t'
  tracked : ∀ t q a, s.pending t = some q → q.removes a → s.tracer.map a ≠ none
  matched : s.tracer.Matched

theorem Inv.start : Inv (State.start : State T) := by
  have hnone : ∀ t q, (State.start : State T).pending t ≠ some q := by simp [State.start]
  refine ⟨?_,?_,fun a _ => ?_,?_,?_,fun _ => .nil⟩
  · exact fun t _ q _ _ h => absurd h (hnone t q)
  · exact fun t q _ h => absurd h (hnone t q)
  · rw [known_of_not_left fun ⟨t,q,h,_⟩ => hnone t q h]
    rfl
  · exact fun t _ q _ _ h => absurd h (hnone t q)
  · exact fun t q _ h => absurd h (hnone t q)

section Known
variable {s : State T} {a : Addr}

theorem State.Idle.not_taken (h : s.Idle a) : ¬s.Taken a :=
  fun ⟨t,q,hq,ha⟩ => h t q hq (Pending.mentions_of_takes ha)

theorem Inv.idle_live (h : Inv s) (hidle : s.Idle a) (hlive : s.live a ≠ none) :
    ¬s.Left a ∧ s.tracer.map a ≠ none := by
  have hset := h.settled a hidle.not_taken
  have hleft : ¬s.Left a := by
    intro hleft
    rw [known_of_left hleft] at hset
    exact hlive hset.symm
  rw [known_of_not_left hleft] at hset
  refine ⟨hleft,fun hmap => hlive ?_⟩
  rw [← hset, hmap]
  rfl

theorem Inv.idle_not_removed (h : Inv s) (hidle : s.Idle a) (hlive : s.live a ≠ none) {t : T} {q : Pending}
    (hq : s.pending t = some q) : ¬q.removes a := by
  intro hrem
  by_cases htakes : q.takes a
  · exact hidle.not_taken ⟨t,q,hq,htakes⟩
  · exact (h.idle_live hidle hlive).1 ⟨t,q,hq,hrem,htakes⟩

theorem Inv.dead (h : Inv s) (hdead : s.live a = none) : ¬s.Taken a ∧ s.known a = none := by
  have htaken : ¬s.Taken a := by
    rintro ⟨t,q,hq,ha⟩
    have hex := h.held t q a hq ha
    rw [hdead] at hex
    cases q with
    | alloc p size => exact absurd hex.1 (by simp)
    | release p => exact hex.1 rfl
    | realloc old new size => exact absurd hex.1 (by simp)
  have hset := h.settled a htaken
  rw [hdead] at hset
  exact ⟨htaken,by simpa using hset⟩

end Known

section Halves
variable [DecidableEq T] {s s' : State T} {t : T} {q : Pending}

theorem left_begin (ht : s.pending t = none) (hpend : s'.pending = Function.update s.pending t (some q)) {a : Addr}
    (h : s.Left a) : s'.Left a := by
  obtain ⟨t',q',h',ha⟩ := h
  have hne : t' ≠ t := by
    rintro rfl
    rw [ht] at h'
    cases h'
  exact ⟨t',q',by rw [hpend,Function.update_of_ne hne,h'],ha⟩

theorem known_none_begin (ht : s.pending t = none) (hpend : s'.pending = Function.update s.pending t (some q))
    {a : Addr} (hmap : s'.tracer.map a = s.tracer.map a) (h : s.known a = none) : s'.known a = none := by
  by_cases hleft : s'.Left a
  · exact known_of_left hleft
  · rw [known_of_not_left hleft,hmap,← known_of_not_left fun hl => hleft (left_begin ht hpend hl),h]

theorem left_of_finish (hpend : s'.pending = Function.update s.pending t none) {a : Addr} (h : s'.Left a) :
    s.Left a := by
  obtain ⟨t',q',h',ha⟩ := h
  rw [hpend] at h'
  rcases eq_or_ne t' t with rfl | hne
  · rw [Function.update_self] at h'
    cases h'
  · rw [Function.update_of_ne hne] at h'
    exact ⟨t',q',h',ha⟩

theorem known_finish (ht : s.pending t = some q) (hpend : s'.pending = Function.update s.pending t none) {a : Addr}
    (hmap : s'.tracer.map a = s.tracer.map a) (hq : ¬q.leaves a) : s'.known a = s.known a := by
  by_cases hleft : s.Left a
  · have hleft' : s'.Left a := by
      obtain ⟨t',q',h',ha⟩ := hleft
      have hne : t' ≠ t := by
        rintro rfl
        obtain rfl := Option.some.inj (ht.symm.trans h')
        exact hq ha
      exact ⟨t',q',by rw [hpend,Function.update_of_ne hne,h'],ha⟩
    rw [known_of_left hleft,known_of_left hleft']
  · rw [known_of_not_left hleft,known_of_not_left fun h => hleft (left_of_finish hpend h),hmap]

/-- The first step of a wrapper takes and leaves addresses that no other one has taken. -/
theorem Inv.begin (h : Inv s) (ht : s.pending t = none) (hpend : s'.pending = Function.update s.pending t (some q))
    (hlive : ∀ a, ¬q.takes a → ¬q.leaves a → s'.live a = s.live a)
    (hmap : ∀ a, ¬q.takes a → s'.tracer.map a = s.tracer.map a)
    (hfree : ∀ a, q.takes a ∨ q.leaves a → ¬s.Taken a) (hleaves : ∀ a, q.leaves a → s'.live a = none)
    (hexpects : ∀ a, q.takes a → q.expects a (s'.live a) (s'.known a))
    (hremoves : ∀ a, q.removes a → s'.tracer.map a ≠ none ∧ ∀ t' q', s.pending t' = some q' → ¬q'.removes a)
    (hkeep : ∀ t' q' a, s.pending t' = some q' → q'.removes a → s'.tracer.map a = s.tracer.map a)
    (hmatched : s'.tracer.Matched) : Inv s' := by
  have hself : s'.pending t = some q := by rw [hpend,Function.update_self]
  have hother : ∀ {t' q'}, s'.pending t' = some q' → (t' = t ∧ q' = q) ∨ (t' ≠ t ∧ s.pending t' = some q') := by
    intro t' q' h'
    rcases eq_or_ne t' t with rfl | hne
    · exact .inl ⟨rfl,(Option.some.inj (hself.symm.trans h')).symm⟩
    · rw [hpend,Function.update_of_ne hne] at h'
      exact .inr ⟨hne,h'⟩
  have hold : ∀ {t' q'}, s.pending t' = some q' → s'.pending t' = some q' := by
    intro t' q' h'
    have hne : t' ≠ t := by
      rintro rfl
      rw [ht] at h'
      cases h'
    rw [hpend,Function.update_of_ne hne,h']
  -- elsewhere what is known stays
  have hknown : ∀ a, ¬q.takes a → ¬q.leaves a → s'.known a = s.known a := by
    intro a htakes hleaves
    by_cases hleft : s.Left a
    · rw [known_of_left hleft,known_of_left (left_begin ht hpend hleft)]
    · have hleft' : ¬s'.Left a := by
        rintro ⟨t',q',h',ha⟩
        rcases hother h' with ⟨-,rfl⟩ | ⟨-,h'⟩
        · exact hleaves ha
        · exact hleft ⟨t',q',h',ha⟩
      rw [known_of_not_left hleft,known_of_not_left hleft',hmap a htakes]
  refine ⟨?_,?_,?_,?_,?_,hmatched⟩
  · intro t₁ t₂ q₁ q₂ a h₁ h₂ ha₁ ha₂
    rcases hother h₁ with ⟨rfl,rfl⟩ | ⟨-,h₁⟩
    · rcases hother h₂ with ⟨rfl,rfl⟩ | ⟨-,h₂⟩
      · rfl
      · exact absurd ⟨t₂,q₂,h₂,ha₂⟩ (hfree a (.inl ha₁))
    · rcases hother h₂ with ⟨rfl,rfl⟩ | ⟨-,h₂⟩
      · exact absurd ⟨t₁,q₁,h₁,ha₁⟩ (hfree a (.inl ha₂))
      · exact h.alone t₁ t₂ q₁ q₂ a h₁ h₂ ha₁ ha₂
  · intro t' q' a h' ha
    rcases hother h' with ⟨rfl,rfl⟩ | ⟨-,h'⟩
    · exact hexpects a ha
    · have htakes : ¬q.takes a := fun hq => hfree a (.inl hq) ⟨t',q',h',ha⟩
      have hleaves : ¬q.leaves a := fun hq => hfree a (.inr hq) ⟨t',q',h',ha⟩
      rw [hlive a htakes hleaves,hknown a htakes hleaves]
      exact h.held t' q' a h' ha
  · intro a hnone
    have htakes : ¬q.takes a := fun hq => hnone ⟨t,q,hself,hq⟩
    by_cases hq : q.leaves a
    · rw [known_of_left ⟨t,q,hself,hq⟩,hleaves a hq]
      rfl
    · rw [hknown a htakes hq,hlive a htakes hq]
      exact h.settled a fun ⟨t',q',h',ha⟩ => hnone ⟨t',q',hold h',ha⟩
  · intro t₁ t₂ q₁ q₂ a h₁ h₂ ha₁ ha₂
    rcases hother h₁ with ⟨rfl,rfl⟩ | ⟨-,h₁⟩
    · rcases hother h₂ with ⟨rfl,rfl⟩ | ⟨-,h₂⟩
      · rfl
      · exact absurd ha₂ ((hremoves a ha₁).2 t₂ q₂ h₂)
    · rcases hother h₂ with ⟨rfl,rfl⟩ | ⟨-,h₂⟩
      · exact absurd ha₁ ((hremoves a ha₂).2 t₁ q₁ h₁)
      · exact h.single t₁ t₂ q₁ q₂ a h₁ h₂ ha₁ ha₂
  · intro t' q' a h' ha
    rcases hother h' with ⟨rfl,rfl⟩ | ⟨-,h'⟩
    · exact (hremoves a ha).1
    · rw [hkeep t' q' a h' ha]
      exact h.tracked t' q' a h' ha

theorem Inv.finish (h : Inv s) (ht : s.pending t = some q) (hpend : s'.pending = Function.update s.pending t none)
    (hlive : ∀ a, ¬q.takes a → s'.live a = s.live a)
    (hmap : ∀ a, ¬q.takes a → ¬q.removes a → s'.tracer.map a = s.tracer.map a)
    (hremoved : ∀ a, ¬q.takes a → q.removes a → s'.tracer.map a = none)
    (hsettled : ∀ a, q.takes a → (s'.known a).map Info.size = s'.live a)
    (htracked : ∀ t' q' a, s.pending t' = some q' → t' ≠ t → q'.removes a → q.takes a → s'.tracer.map a ≠ none)
    (hmatched : s'.tracer.Matched) : Inv s' := by
  have hother : ∀ {t' q'}, s'.pending t' = some q' → t' ≠ t ∧ s.pending t' = some q' := by
    intro t' q' h'
    rw [hpend] at h'
    rcases eq_or_ne t' t with rfl | hne
    · rw [Function.update_self] at h'
      cases h'
    · rw [Function.update_of_ne hne] at h'
      exact ⟨hne,h'⟩
  have hold : ∀ {t' q'}, s.pending t' = some q' → t' ≠ t → s'.pending t' = some q' := by
    intro t' q' h' hne
    rw [hpend,Function.update_of_ne hne,h']
  have hknown : ∀ a, ¬q.takes a → s'.known a = s.known a := by
    intro a htakes
    by_cases hrem : q.removes a
    · rw [known_of_map_none (hremoved a htakes hrem),known_of_left ⟨t,q,ht,hrem,htakes⟩]
    · exact known_finish ht hpend (hmap a htakes hrem) fun hleaves => hrem hleaves.1
  refine ⟨?_,?_,?_,?_,?_,hmatched⟩
  · intro t₁ t₂ q₁ q₂ a h₁ h₂ ha₁ ha₂
    exact h.alone t₁ t₂ q₁ q₂ a (hother h₁).2 (hother h₂).2 ha₁ ha₂
  · intro t' q' a h' ha
    obtain ⟨hne,h'⟩ := hother h'
    have htakes : ¬q.takes a := fun hq => hne (h.alone t' t q' q a h' ht ha hq)
    rw [hlive a htakes,hknown a htakes]
    exact h.held t' q' a h' ha
  · intro a hnone
    by_cases htakes : q.takes a
    · exact hsettled a htakes
    · rw [hlive a htakes,hknown a htakes]
      refine h.settled a ?_
      rintro ⟨t',q',h',ha⟩
      rcases eq_or_ne t' t with rfl | hne
      · obtain rfl := Option.some.inj (ht.symm.trans h')
        exact htakes ha
      · exact hnone ⟨t',q',hold h' hne,ha⟩
  · intro t₁ t₂ q₁ q₂ a h₁ h₂ ha₁ ha₂
    exact h.single t₁ t₂ q₁ q₂ a (hother h₁).2 (hother h₂).2 ha₁ ha₂
  · intro t' q' a h' ha
    obtain ⟨hne,h'⟩ := hother h'
    by_cases htakes : q.takes a
    · exact htracked t' q' a h' hne ha htakes
    · have hrem : ¬q.removes a := fun hq => hne (h.single t' t q' q a h' ht ha hq)
      rw [hmap a htakes hrem]
      exact h.tracked t' q' a h' ha

end Halves

/-! ## Steps -/

section Steps
variable [DecidableEq T] {s s' : State T}

/-- What the allocator did at an address that `realloc` left, and at the one it gave. -/
theorem Reallocated.live_eq {live live' : Addr → Option ℕ} {old new : Option Addr} {size : ℕ}
    (h : Reallocated live old new size live') (a : Addr) :
    live' a = if new = some a then some size
      else if old = some a ∧ (new = none → size = 0) then none else live a := by
  cases h with
  | failed old hsize => simp [hsize]
  | released p => simp [Function.update_apply,eq_comm]
  | inPlace p size =>
    by_cases hp : p = a
    · simp [hp]
    · simp [hp,Function.update_of_ne (Ne.symm hp)]
  | moved p q size hne hdead => simp [Function.update_apply,eq_comm]
  | fresh q size hdead => simp [Function.update_apply,eq_comm]

theorem Reallocated.dead {live live' : Addr → Option ℕ} {old new : Option Addr} {size : ℕ}
    (h : Reallocated live old new size live') {a : Addr} (hnew : new = some a) (hold : old ≠ some a) :
    live a = none := by
  cases h with
  | failed | released => cases hnew
  | inPlace p size => exact absurd hnew hold
  | moved p q size hne hdead =>
    obtain rfl := Option.some.inj hnew
    exact hdead
  | fresh q size hdead =>
    obtain rfl := Option.some.inj hnew
    exact hdead

theorem Inv.realloc (h : Inv s) {t : T} (ht : s.pending t = none) {old new : Option Addr} {size : ℕ}
    {live : Addr → Option ℕ} (hold : ∀ p, old = some p → s.live p ≠ none ∧ s.Idle p)
    (hre : Reallocated s.live old new size live) :
    Inv { s with
      live := live
      pending := Function.update s.pending t (some (.realloc old new size)) } := by
  have hfree : ∀ a, new = some a → ¬s.Taken a := by
    intro a hnew
    by_cases hsame : old = some a
    · exact (hold a hsame).2.not_taken
    · exact (h.dead (hre.dead hnew hsame)).1
  refine h.begin ht rfl ?_ (fun _ _ => rfl) ?_ ?_ ?_ ?_ (fun _ _ _ _ _ => rfl) h.matched
  · intro a htakes hleaves
    have hrem : ¬(old = some a ∧ (new = none → size = 0)) := fun hrem => hleaves ⟨hrem,htakes⟩
    exact (hre.live_eq a).trans ((if_neg htakes).trans (if_neg hrem))
  · rintro a (htakes | ⟨⟨hrem,-⟩,-⟩)
    · exact hfree a htakes
    · exact (hold a hrem).2.not_taken
  · rintro a ⟨hrem,htakes⟩
    exact (hre.live_eq a).trans ((if_neg htakes).trans (if_pos hrem))
  · intro a htakes
    refine ⟨(hre.live_eq a).trans (if_pos htakes),fun hne => ?_⟩
    exact known_none_begin ht rfl rfl (h.dead (hre.dead htakes hne)).2
  · rintro a ⟨hrem,-⟩
    obtain ⟨hlive,hidle⟩ := hold a hrem
    exact ⟨(h.idle_live hidle hlive).2,fun t' q' h' => h.idle_not_removed hidle hlive h'⟩

theorem freeOld_map (tr : Tracer) (old : Option Addr) (a : Addr) :
    (tr.freeOld old).map a = if old = some a then none else tr.map a := by
  cases old with
  | none => simp [Tracer.freeOld]
  | some p =>
    rw [Tracer.freeOld,Tracer.free_map,Function.update_apply]
    simp [eq_comm]

theorem allocNew_map (tr : Tracer) (info : Info) (new : Option Addr) (a : Addr) :
    (tr.allocNew info new).map a = if new = some a then some info else tr.map a := by
  cases new with
  | none => simp [Tracer.allocNew]
  | some p =>
    simp only [Tracer.allocNew,Tracer.alloc,Function.update_apply,Option.some.injEq,eq_comm]

theorem Tracer.Matched.freeOld {tr : Tracer} (h : tr.Matched) (old : Option Addr) : (tr.freeOld old).Matched := by
  cases old with
  | none => exact h
  | some p => exact h.free p

/-- The second half of `realloc`: the old address is reported gone, the new one is entered. -/
theorem Inv.reallocHook (h : Inv s) {t : T} {old new : Option Addr} {size : ℕ}
    (ht : s.pending t = some (.realloc old new size)) (trace : ℕ)
    (htimely : ∀ a, new = some a → ¬s.Left a) :
    Inv { s with
      tracer := s.tracer.realloc old new ⟨size,trace⟩
      pending := Function.update s.pending t none } := by
  by_cases hfail : new = none ∧ size ≠ 0
  · have hsame : s.tracer.realloc old new ⟨size,trace⟩ = s.tracer := if_pos hfail
    rw [hsame]
    obtain ⟨rfl,hsize⟩ := hfail
    refine h.finish ht rfl (fun _ _ => rfl) (fun _ _ _ => rfl) ?_ ?_ ?_ h.matched
    · exact fun a _ hrem => absurd (hrem.2 rfl) hsize
    · exact fun a htakes => absurd htakes (by simp [Pending.takes])
    · exact fun t' q' a _ _ _ htakes => absurd htakes (by simp [Pending.takes])
  · have hhook : s.tracer.realloc old new ⟨size,trace⟩ = (s.tracer.freeOld old).allocNew ⟨size,trace⟩ new :=
      if_neg hfail
    have hsize : new = none → size = 0 := fun hnew => not_not.mp fun hne => hfail ⟨hnew,hne⟩
    have hmap : ∀ a, ((s.tracer.freeOld old).allocNew ⟨size,trace⟩ new).map a =
        if new = some a then some ⟨size,trace⟩ else if old = some a then none else s.tracer.map a := by
      intro a
      rw [allocNew_map,freeOld_map]
    rw [hhook]
    refine h.finish ht rfl (fun _ _ => rfl) ?_ ?_ ?_ ?_ ?_
    · intro a htakes hrem
      exact (hmap a).trans ((if_neg htakes).trans (if_neg fun hold => hrem ⟨hold,hsize⟩))
    · intro a htakes hrem
      exact (hmap a).trans ((if_neg htakes).trans (if_pos hrem.1))
    · intro a htakes
      rw [known_of_not_left fun hleft => htimely a htakes (left_of_finish rfl hleft),(h.held t _ a ht htakes).1]
      exact congrArg (Option.map Info.size) ((hmap a).trans (if_pos htakes))
    · intro t' q' a _ _ _ htakes
      exact ne_of_eq_of_ne ((hmap a).trans (if_pos htakes)) (Option.some_ne_none _)
    · have hmatched := h.matched.freeOld old
      cases new with
      | none => exact hmatched
      | some q =>
        refine hmatched.alloc ?_ _
        rw [freeOld_map]
        split
        next => rfl
        next hne =>
          rw [← known_of_not_left (htimely q rfl)]
          exact (h.held t _ q ht rfl).2 hne

/-- A step that is in time keeps the invariant. -/
theorem step_inv (h : Inv s) (hstep : Step s s') (htimely : TimelyStep s s') : Inv s' := by
  cases hstep with
  | malloc t p size ht hdead =>
    have hnone := h.dead hdead
    refine h.begin ht rfl ?_ (fun _ _ => rfl) ?_ ?_ ?_ ?_ (fun _ _ _ _ _ => rfl) h.matched
    · exact fun a htakes _ => Function.update_of_ne htakes _ _
    · rintro a (rfl | ⟨hrem,-⟩)
      · exact hnone.1
      · exact hrem.elim
    · exact fun a hleaves => hleaves.1.elim
    · rintro a rfl
      exact ⟨Function.update_self _ _ _,known_none_begin ht rfl rfl hnone.2⟩
    · exact fun a hrem => hrem.elim
  | allocHook t p size trace ht =>
    have hleft : ¬s.Left p := by
      rintro ⟨t',q',h',hleaves⟩
      exact htimely t _ p ht (Function.update_self _ _ _) rfl t' q' h' hleaves
    obtain ⟨hlive,hknown⟩ := h.held t _ p ht rfl
    rw [known_of_not_left hleft] at hknown
    refine h.finish ht rfl (fun _ _ => rfl) ?_ (fun _ _ hrem => hrem.elim) ?_ ?_ (h.matched.alloc hknown _)
    · exact fun a htakes _ => Function.update_of_ne htakes _ _
    · rintro a rfl
      rw [known_of_not_left fun hl => hleft (left_of_finish rfl hl)]
      simp [Tracer.alloc,hlive]
    · rintro t' q' a - - - rfl
      simp [Tracer.alloc]
  | freeHook t p ht hlive hidle =>
    have hmap : ∀ a, a ≠ p → (s.tracer.free p).map a = s.tracer.map a := by
      intro a ha
      rw [Tracer.free_map,Function.update_of_ne ha]
    refine h.begin ht rfl (fun _ _ _ => rfl) hmap ?_ ?_ ?_ ?_ ?_ (h.matched.free p)
    · rintro a (rfl | ⟨hrem,-⟩)
      · exact hidle.not_taken
      · exact hrem.elim
    · exact fun a hleaves => hleaves.1.elim
    · rintro a rfl
      refine ⟨hlive,known_of_map_none ?_⟩
      dsimp only
      rw [Tracer.free_map,Function.update_self]
    · exact fun a hrem => hrem.elim
    · intro t' q' a h' hrem
      refine hmap a ?_
      rintro rfl
      exact h.idle_not_removed hidle hlive h' hrem
  | free t p ht =>
    obtain ⟨-,hknown⟩ := h.held t _ p ht rfl
    refine h.finish ht rfl ?_ (fun _ _ _ => rfl) (fun _ _ hrem => hrem.elim) ?_ ?_ h.matched
    · exact fun a htakes => Function.update_of_ne htakes _ _
    · rintro a rfl
      have hsame : State.known { s with
          live := Function.update s.live a none
          pending := Function.update s.pending t none } a = s.known a :=
        known_finish ht rfl rfl fun hleaves => hleaves.1.elim
      rw [hsame,hknown]
      dsimp only
      rw [Function.update_self]
      rfl
    · exact fun t' q' a h' _ hrem _ => h.tracked t' q' a h' hrem
  | realloc t old new size live ht hold hre => exact h.realloc ht hold hre
  | reallocHook t old new size trace ht =>
    refine h.reallocHook ht trace fun a ha => ?_
    rintro ⟨t',q',h',hleaves⟩
    exact htimely t _ a ht (Function.update_self _ _ _) ha t' q' h' hleaves

end Steps

theorem Matched.unique {l : List Record} {m m' : Option Info} (h : Matched l m) (h' : Matched l m') : m = m' := by
  have hlast : ∀ {l : List Record} {r : Record} {m}, Matched (l++[r]) m →
      m = match r with
        | .plus _ info => some info
        | .minus _ _ => none := by
    intro l r m h
    generalize hl : l++[r] = l' at h
    cases h with
    | nil => simp at hl
    | plus p info h =>
      obtain rfl := (List.append_inj' hl rfl).2 |> List.singleton_inj.mp
      rfl
    | minus p h =>
      obtain rfl := (List.append_inj' hl rfl).2 |> List.singleton_inj.mp
      rfl
  cases h with
  | nil =>
    generalize hl : ([] : List Record) = l' at h'
    cases h' with
    | nil => rfl
    | plus | minus => simp at hl
  | plus p info h => exact (hlast h').symm
  | minus p h => exact (hlast h').symm

theorem Matched.of_append {l l' : List Record} {m : Option Info} (h : Matched (l++l') m) : ∃ m', Matched l m' := by
  induction l' using List.reverseRecOn generalizing m with
  | nil =>
    rw [List.append_nil] at h
    exact ⟨m,h⟩
  | append_singleton l' r ih =>
    rw [← List.append_assoc] at h
    generalize hl : l++l'++[r] = k at h
    cases h with
    | nil => simp at hl
    | plus p info h =>
      obtain rfl := (List.append_inj' hl rfl).1
      exact ih h
    | minus p h =>
      obtain rfl := (List.append_inj' hl rfl).1
      exact ih h

theorem not_matched_plus {l : List Record} {info : Info} (h : Matched l (some info)) (p : Addr) (new : Info)
    (m : Option Info) : ¬Matched (l++[.plus p new]) m := by
  intro h'
  generalize hl : l++[.plus p new] = k at h'
  cases h' with
  | nil => simp at hl
  | plus p' info' h' =>
    obtain rfl := (List.append_inj' hl rfl).1
    cases h.unique h'
  | minus p' h' =>
    have hr := List.singleton_inj.mp (List.append_inj' hl rfl).2
    cases hr

/-- The records of some address are matched by nothing that the map could have. -/
def Tracer.Broken (tr : Tracer) : Prop := ∃ p, ∀ m, ¬Heaptrack.Matched (tr.recordsAt p) m

theorem Tracer.Broken.grow {tr tr' : Tracer} (h : tr.Broken) {l : List Record} (hl : tr'.records = tr.records++l) :
    tr'.Broken := by
  obtain ⟨p,hp⟩ := h
  refine ⟨p,fun m hm => ?_⟩
  rw [Tracer.recordsAt,hl,List.filter_append] at hm
  obtain ⟨m',hm'⟩ := hm.of_append
  exact hp m' hm'

theorem free_records (tr : Tracer) (p : Addr) : ∃ l, (tr.free p).records = tr.records++l := by
  unfold Tracer.free
  split
  · exact ⟨[],(List.append_nil _).symm⟩
  · exact ⟨_,rfl⟩

theorem realloc_records (tr : Tracer) (old new : Option Addr) (info : Info) :
    ∃ l, (tr.realloc old new info).records = tr.records++l := by
  unfold Tracer.realloc
  split
  · exact ⟨[],(List.append_nil _).symm⟩
  · have hfree : ∃ l, (tr.freeOld old).records = tr.records++l := by
      cases old with
      | none => exact ⟨[],(List.append_nil _).symm⟩
      | some p => exact free_records tr p
    obtain ⟨l,hl⟩ := hfree
    cases new with
    | none => exact ⟨l,hl⟩
    | some q => exact ⟨l++[.plus q info],by rw [Tracer.allocNew,Tracer.alloc,hl,List.append_assoc]⟩

theorem broken_alloc {tr : Tracer} (h : tr.Matched) {p : Addr} (hp : tr.map p ≠ none) (info : Info) :
    (tr.alloc p info).Broken := by
  obtain ⟨old,hold⟩ := Option.ne_none_iff_exists'.mp hp
  have hm := h p
  rw [hold] at hm
  refine ⟨p,fun m => ?_⟩
  have haddr : (Record.plus p info).addr = p := rfl
  rw [Tracer.alloc,recordsAt_concat,if_pos haddr]
  exact not_matched_plus hm p info m

section Early
variable [DecidableEq T] {s s' : State T}

theorem step_records (h : Step s s') : ∃ l, s'.tracer.records = s.tracer.records++l := by
  cases h with
  | malloc | free | realloc => exact ⟨[],(List.append_nil _).symm⟩
  | allocHook t p size trace ht => exact ⟨_,rfl⟩
  | freeHook t p => exact free_records _ p
  | reallocHook t old new size trace ht => exact realloc_records _ old new _

theorem not_begun {t u : T} {q q' : Pending} (ht : s.pending t = some q) :
    Function.update s.pending u (some q') t ≠ none := by
  rw [Function.update_apply]
  split
  · exact Option.some_ne_none _
  · rw [ht]
    exact Option.some_ne_none _

theorem finished {t u : T} {q : Pending} (ht : s.pending t = some q) (h : Function.update s.pending u none t = none) :
    t = u := by
  by_contra hne
  rw [Function.update_of_ne hne,ht] at h
  cases h

theorem broken_of_early (h : Inv s) (hstep : Step s s') (hearly : ¬TimelyStep s s') : s'.tracer.Broken := by
  unfold TimelyStep at hearly
  push Not at hearly
  obtain ⟨t,q,a,ht,ht',henters,t',q',h',hleaves⟩ := hearly
  have hmap := h.tracked t' q' a h' hleaves.1
  cases hstep with
  | malloc | freeHook | realloc => exact absurd ht' (not_begun ht)
  | free u p hu =>
    obtain rfl := finished ht ht'
    obtain rfl := Option.some.inj (hu.symm.trans ht)
    exact henters.elim
  | allocHook u p size trace hu =>
    obtain rfl := finished ht ht'
    obtain rfl := Option.some.inj (hu.symm.trans ht)
    obtain rfl : a = p := henters
    exact broken_alloc h.matched hmap _
  | reallocHook u old new size trace hu =>
    obtain rfl := finished ht ht'
    obtain rfl := Option.some.inj (hu.symm.trans ht)
    obtain rfl : new = some a := henters
    -- the address that is entered is not the one that this hook removes
    have hold : old ≠ some a := by
      rintro rfl
      obtain rfl := h.single t' t _ _ a h' ht hleaves.1 ⟨rfl,fun hnew => by cases hnew⟩
      obtain rfl := Option.some.inj (h'.symm.trans ht)
      exact hleaves.2 rfl
    have hfree : (s.tracer.freeOld old).map a ≠ none := by
      rw [freeOld_map,if_neg hold]
      exact hmap
    have hhook : s.tracer.realloc old (some a) ⟨size,trace⟩ = (s.tracer.freeOld old).alloc a ⟨size,trace⟩ :=
      if_neg fun hfail => by cases hfail.1
    dsimp only
    rw [hhook]
    exact broken_alloc (h.matched.freeOld old) hfree _

end Early

/-- In a run whose hooks are all in time the invariant holds; after one that is not the records are broken. -/
theorem run_inv [DecidableEq T] {s : State T} (run : History s) :
    (run.Timely → Inv s) ∧ (¬run.Timely → s.tracer.Broken) := by
  induction run with
  | start => exact ⟨fun _ => Inv.start,fun h => absurd trivial h⟩
  | step run hstep ih =>
    refine ⟨fun h => step_inv (ih.1 h.1) hstep h.2,fun h => ?_⟩
    by_cases hrun : run.Timely
    · exact broken_of_early (ih.1 hrun) hstep fun htimely => h ⟨hrun,htimely⟩
    · obtain ⟨l,hl⟩ := step_records hstep
      exact (ih.2 hrun).grow hl

/-- When no wrapper is at work, the tracer has exactly the live blocks if and only if no hook of the run has entered
an address that a `realloc` had left and not reported yet. -/
theorem quiet_exact_iff [DecidableEq T] {s : State T} (run : History s) (hquiet : s.Quiet) : s.Exact ↔ run.Timely := by
  constructor
  · rintro ⟨-,hmatched⟩
    by_contra hrun
    obtain ⟨p,hp⟩ := (run_inv run).2 hrun
    exact hp _ (hmatched p)
  · intro hrun
    have hinv := (run_inv run).1 hrun
    have hnone : ∀ t q, s.pending t ≠ some q := fun t q hq => by
      rw [hquiet t] at hq
      cases hq
    refine ⟨fun a => ?_,hinv.matched⟩
    rw [← known_of_not_left fun ⟨t,q,hq,_⟩ => hnone t q hq]
    exact hinv.settled a fun ⟨t,q,hq,_⟩ => hnone t q hq

theorem timely_of_begin [DecidableEq T] {s s' : State T} {t : T} {q : Pending}
    (hpend : s'.pending = Function.update s.pending t (some q)) : TimelyStep s s' := by
  intro t' q' a ht' hdone
  rw [hpend] at hdone
  exact absurd hdone (not_begun ht')

/-- A `realloc` moves its block, and the other thread is given the old address but runs its hook afterwards. -/
def movedRun : (s : State Bool) × History s := by
  refine ⟨_,.step (.step (.step (.step (.step (.step .start (.malloc _ false 1 8 rfl rfl))
    (.allocHook _ false 1 8 0 rfl))
    (.realloc _ false (some 1) (some 2) 16 _ rfl ?_ (.moved 1 2 16 (by decide) rfl))) (.malloc _ true 1 4 rfl rfl))
    (.reallocHook _ false (some 1) (some 2) 16 0 rfl)) (.allocHook _ true 1 4 0 rfl)⟩
  rintro p hp
  obtain rfl : 1 = p := Option.some.inj hp
  refine ⟨by simp [State.start],fun t q h => ?_⟩
  cases t <;> cases h

theorem quiet_exact_iff_moved : movedRun.1.live 1 = some 4 ∧ movedRun.1.live 2 = some 16 ∧ movedRun.1.Exact := by
  refine ⟨rfl,rfl,(quiet_exact_iff movedRun.2 ?_).mpr ?_⟩
  · intro t
    cases t <;> rfl
  · refine ⟨⟨⟨⟨⟨⟨trivial,timely_of_begin rfl⟩,?_⟩,timely_of_begin rfl⟩,timely_of_begin rfl⟩,?_⟩,?_⟩
    · intro t q a ht hdone henters t' q' h' hleaves
      cases t' <;> cases h'
      exact hleaves.1
    · intro t q a ht hdone henters t' q' h' hleaves
      cases t with
      | true => cases hdone
      | false =>
        cases ht
        cases henters
        cases t' <;> cases h'
        · cases hleaves.1.1
        · exact hleaves.1
    · intro t q a ht hdone henters t' q' h' hleaves
      cases t' <;> cases h'
      exact hleaves.1

/-- The address a `realloc` left is handed out again and entered before its hook: the block of the other thread is
lost. -/
theorem quiet_not_exact : ∃ s : State Bool, Nonempty (History s) ∧ s.Quiet ∧ ¬s.Exact := by
  refine ⟨_,⟨.step (.step (.step (.step (.step (.step .start (.malloc _ false 1 8 rfl rfl))
    (.allocHook _ false 1 8 0 rfl))
    (.realloc _ false (some 1) (some 2) 16 _ rfl ?_ (.moved 1 2 16 (by decide) rfl))) (.malloc _ true 1 4 rfl rfl))
    (.allocHook _ true 1 4 0 rfl)) (.reallocHook _ false (some 1) (some 2) 16 0 rfl)⟩,?_,?_⟩
  · rintro p hp
    obtain rfl : 1 = p := Option.some.inj hp
    refine ⟨by simp [State.start],fun t q h => ?_⟩
    cases t <;> cases h
  · intro t
    cases t <;> rfl
  · intro h
    exact absurd (h.1 1) (by decide)

end Machismo.Heaptrack
