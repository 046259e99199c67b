import Mathlib

/-! # Which layer owns the input

Once per tick the facts collected from the game are resolved to one route, the layer of
highest priority that is present.  A tracker compares neighbouring ticks and counts the
changes in a generation.  The comparison looks at a field only while a route it belongs
to is a candidate; it is the equality of an `Identity`, and so two ticks of one
generation have all the fields of their identity in common.
-/
namespace Machismo.Sword3InputContext

inductive Route where
  | none | field | pointer | menuOpening | systemMenu | title | shop | saveList | saveLoad | battle | hostBattle
  | hostMenu | caption | hostCheat
deriving DecidableEq, Repr

def Route.toNat : Route → ℕ
  | .none => 0 | .field => 1 | .pointer => 2 | .menuOpening => 3 | .systemMenu => 4 | .title => 5 | .shop => 6
  | .saveList => 7 | .saveLoad => 8 | .battle => 9 | .hostBattle => 10 | .hostMenu => 11 | .caption => 12
  | .hostCheat => 13

/-- `SWORD3_INPUT_ROUTE_BIT` -/
def Route.bit (route : Route) : BitVec 32 := 1#32 <<< route.toNat

structure Probe where
  hostCheat : ℤ
  caption : ℤ
  hostMenu : ℤ
  hostBattle : ℤ
  battle : ℤ
  saveLoad : ℤ
  saveList : ℤ
  shop : ℤ
  title : ℤ
  systemMenu : ℤ
  menuOpening : ℤ
  pointer : ℤ
  mapId : ℤ
  titleMode : ℤ
  menuPage : ℤ
  systemPage : ℤ
  systemLevel : ℤ
  systemSub : ℤ
  battleMenu : ℤ

structure Context where
  route : Route
  candidates : BitVec 32
  generation : ℕ
  mapId : ℤ
  titleMode : ℤ
  menuPage : ℤ
  systemPage : ℤ
  systemLevel : ℤ
  systemSub : ℤ
  battleMenu : ℤ
deriving DecidableEq

structure Tracker where
  current : Context
  initialized : Bool

/-- What `memset` leaves. -/
def Context.zero : Context := ⟨.none,0,0,0,0,0,0,0,0,0⟩

def Tracker.zero : Tracker := ⟨Context.zero,false⟩

def addCandidate (candidates : BitVec 32) (route : Route) (active : ℤ) : BitVec 32 :=
  if active ≠ 0 then candidates ||| route.bit else candidates

/-- The table of `choose_route`. -/
def priority : List Route :=
  [.hostCheat,.caption,.hostMenu,.hostBattle,.battle,.saveLoad,.saveList,.shop,.menuOpening,.title,.systemMenu,
    .pointer,.field]

def chooseRoute (candidates : BitVec 32) : Route :=
  (priority.find? fun route => candidates &&& route.bit != 0).getD .none

def resolve : Option Probe → Context
  | none => Context.zero
  | some probe =>
    let candidates := addCandidate 0 .hostCheat probe.hostCheat
    let candidates := addCandidate candidates .caption probe.caption
    let candidates := addCandidate candidates .hostMenu probe.hostMenu
    let candidates := addCandidate candidates .hostBattle probe.hostBattle
    let candidates := addCandidate candidates .battle probe.battle
    let candidates := addCandidate candidates .saveLoad probe.saveLoad
    let candidates := addCandidate candidates .saveList probe.saveList
    let candidates := addCandidate candidates .shop probe.shop
    let candidates := addCandidate candidates .title probe.title
    let candidates := addCandidate candidates .systemMenu probe.systemMenu
    let candidates := addCandidate candidates .menuOpening probe.menuOpening
    let candidates := addCandidate candidates .pointer probe.pointer
    let candidates := addCandidate candidates .field (if probe.title = 0 ∧ probe.battle = 0 then 1 else 0)
    { route := chooseRoute candidates
      candidates := candidates
      generation := 0
      mapId := probe.mapId
      titleMode := probe.titleMode
      menuPage := probe.menuPage
      systemPage := probe.systemPage
      systemLevel := probe.systemLevel
      systemSub := probe.systemSub
      battleMenu := probe.battleMenu }

def titleRoutes : BitVec 32 := Route.title.bit ||| Route.saveLoad.bit
def saveRoutes : BitVec 32 := Route.saveLoad.bit ||| Route.saveList.bit
def battleRoutes : BitVec 32 := Route.battle.bit ||| Route.hostBattle.bit

def sameLifecycle (left right : Context) : Bool :=
  if left.route ≠ right.route ∨ left.candidates ≠ right.candidates ∨ left.mapId ≠ right.mapId then false
  else if left.candidates &&& titleRoutes ≠ 0 ∧ left.titleMode ≠ right.titleMode then false
  else if left.candidates &&& saveRoutes ≠ 0 ∧ left.menuPage ≠ right.menuPage then false
  else if left.candidates &&& battleRoutes ≠ 0 ∧ left.battleMenu ≠ right.battleMenu then false
  else true

/-- `sword3_input_context_track`, for a tracker and a context that are not null: whether there was a
change, the context and the tracker it leaves. -/
def track (tracker : Tracker) (probe : Option Probe) : Bool × Context × Tracker :=
  let changed := !tracker.initialized || !sameLifecycle tracker.current (resolve probe)
  let generation :=
    if !tracker.initialized then 1
    else if changed then
      if (tracker.current.generation+1)%2^64 = 0 then 1 else (tracker.current.generation+1)%2^64
    else tracker.current.generation
  let next := { resolve probe with generation := generation }
  (changed,next,⟨next,true⟩)

section Candidates

def Context.Candidate (context : Context) (route : Route) : Prop := context.candidates &&& route.bit ≠ 0

instance (context : Context) (route : Route) : Decidable (context.Candidate route) :=
  inferInstanceAs (Decidable (_ ≠ _))

theorem and_pair_ne_zero (x a b : BitVec 32) : x &&& (a ||| b) ≠ 0 ↔ x &&& a ≠ 0 ∨ x &&& b ≠ 0 := by
  have hor : x &&& a ||| x &&& b = 0 ↔ x &&& a = 0 ∧ x &&& b = 0 := BitVec.or_eq_zero_iff
  rw [BitVec.and_or_distrib_left,ne_eq,hor,not_and_or]

theorem chooseRoute_first {candidates : BitVec 32} {route : Route} (h : chooseRoute candidates = route)
    (hne : route ≠ .none) :
    candidates &&& route.bit ≠ 0 ∧ ∃ before after, priority = before++route :: after ∧
      ∀ r ∈ before, candidates &&& r.bit = 0 := by
  unfold chooseRoute at h
  cases hf : priority.find? fun route => candidates &&& route.bit != 0 with
  | none =>
    rw [hf] at h
    exact absurd h.symm hne
  | some r =>
    rw [hf] at h
    obtain rfl : r = route := h
    obtain ⟨hr,before,after,hsplit,hbefore⟩ := List.find?_eq_some_iff_append.mp hf
    exact ⟨by simpa using hr,before,after,hsplit,fun r hmem => by simpa using hbefore r hmem⟩

/-- The fact that makes a route a candidate. -/
def Probe.active (probe : Probe) : Route → ℤ
  | .none => 0
  | .field => if probe.title = 0 ∧ probe.battle = 0 then 1 else 0
  | .pointer => probe.pointer
  | .menuOpening => probe.menuOpening
  | .systemMenu => probe.systemMenu
  | .title => probe.title
  | .shop => probe.shop
  | .saveList => probe.saveList
  | .saveLoad => probe.saveLoad
  | .battle => probe.battle
  | .hostBattle => probe.hostBattle
  | .hostMenu => probe.hostMenu
  | .caption => probe.caption
  | .hostCheat => probe.hostCheat

theorem bit_and_bit (r s : Route) : r.bit &&& s.bit ≠ 0 ↔ r = s := by
  cases r <;> cases s <;> decide

theorem addCandidate_and (candidates : BitVec 32) (r s : Route) (active : ℤ) :
    addCandidate candidates r active &&& s.bit ≠ 0 ↔ candidates &&& s.bit ≠ 0 ∨ active ≠ 0 ∧ r = s := by
  unfold addCandidate
  split
  · rename_i h
    rw [BitVec.and_comm,and_pair_ne_zero,BitVec.and_comm,BitVec.and_comm s.bit,bit_and_bit]
    simp [h]
  · rename_i h
    simp [h]

theorem resolve_candidate_iff (probe : Probe) (route : Route) :
    (resolve (some probe)).Candidate route ↔ probe.active route ≠ 0 := by
  simp only [Context.Candidate,resolve,addCandidate_and]
  cases route <;> simp [Probe.active]

end Candidates

section Identity

/-- What a lifecycle is known by: a field counts while one of its routes is a candidate. -/
structure Identity where
  route : Route
  candidates : BitVec 32
  mapId : ℤ
  titleMode : Option ℤ
  menuPage : Option ℤ
  battleMenu : Option ℤ
deriving DecidableEq

def Context.identity (c : Context) : Identity where
  route := c.route
  candidates := c.candidates
  mapId := c.mapId
  titleMode := if c.Candidate .title ∨ c.Candidate .saveLoad then some c.titleMode else none
  menuPage := if c.Candidate .saveLoad ∨ c.Candidate .saveList then some c.menuPage else none
  battleMenu := if c.Candidate .battle ∨ c.Candidate .hostBattle then some c.battleMenu else none

theorem counted_eq_iff {P : Prop} [Decidable P] {a b : ℤ} :
    ((if P then some a else none) = if P then some b else none) ↔ ¬(P ∧ a ≠ b) := by
  by_cases h : P <;> simp [h]

theorem sameLifecycle_iff (left right : Context) :
    sameLifecycle left right = true ↔ left.identity = right.identity := by
  have htitle : left.candidates &&& titleRoutes ≠ 0 ↔ left.Candidate .title ∨ left.Candidate .saveLoad :=
    and_pair_ne_zero _ _ _
  have hsave : left.candidates &&& saveRoutes ≠ 0 ↔ left.Candidate .saveLoad ∨ left.Candidate .saveList :=
    and_pair_ne_zero _ _ _
  have hbattle : left.candidates &&& battleRoutes ≠ 0 ↔ left.Candidate .battle ∨ left.Candidate .hostBattle :=
    and_pair_ne_zero _ _ _
  unfold sameLifecycle Context.identity
  simp only [Identity.mk.injEq,htitle,hsave,hbattle]
  by_cases hsame : left.route ≠ right.route ∨ left.candidates ≠ right.candidates ∨ left.mapId ≠ right.mapId
  · rw [if_pos hsame]
    refine iff_of_false Bool.false_ne_true ?_
    rintro ⟨hr,hc,hm,-⟩
    rcases hsame with h | h | h
    · exact h hr
    · exact h hc
    · exact h hm
  · rw [if_neg hsame]
    simp only [not_or,not_not] at hsame
    obtain ⟨hr,hc,hm⟩ := hsame
    have hcand : ∀ route, right.Candidate route ↔ left.Candidate route := fun route => by
      simp only [Context.Candidate,hc]
    simp only [hr,hc,hm,hcand,true_and,counted_eq_iff]
    split_ifs with htitle hsave hbattle
    · exact iff_of_false id fun h => h.1 htitle
    · exact iff_of_false id fun h => h.2.1 hsave
    · exact iff_of_false id fun h => h.2.2 hbattle
    · exact iff_of_true rfl ⟨htitle,hsave,hbattle⟩

end Identity

section Runs
variable (probes : ℕ → Option Probe)

/-- The tracker before tick `n`. -/
def trackerAt : ℕ → Tracker
  | 0 => Tracker.zero
  | n+1 => (track (trackerAt n) (probes n)).2.2

def changedAt (n : ℕ) : Bool := (track (trackerAt probes n) (probes n)).1

def contextAt (n : ℕ) : Context := (track (trackerAt probes n) (probes n)).2.1

/-- How many of the first `n` ticks reported a change. -/
def changes (n : ℕ) : ℕ := Nat.count (fun k => changedAt probes k = true) n

theorem trackerAt_succ (n : ℕ) : trackerAt probes (n+1) = ⟨contextAt probes n,true⟩ := rfl

theorem identity_generation (c : Context) (generation : ℕ) :
    Context.identity { c with generation := generation } = c.identity := rfl

theorem changedAt_zero : changedAt probes 0 = true := rfl

theorem changedAt_succ (n : ℕ) :
    changedAt probes (n+1) = true ↔ (contextAt probes n).identity ≠ (contextAt probes (n+1)).identity := by
  have hnext : (contextAt probes (n+1)).identity = (resolve (probes (n+1))).identity := identity_generation _ _
  rw [hnext,ne_eq,← sameLifecycle_iff]
  simp [changedAt,trackerAt_succ,track]

theorem changes_succ (n : ℕ) : changes probes (n+1) = changes probes n+(changedAt probes n).toNat := by
  rw [changes,Nat.count_succ,← changes]
  cases changedAt probes n <;> simp

theorem changes_one : changes probes 1 = 1 := by
  rw [changes_succ,changedAt_zero]
  rfl

theorem generation_succ (n : ℕ) (hwrap : changedAt probes (n+1) = true → (contextAt probes n).generation+1 < 2^64) :
    (contextAt probes (n+1)).generation = (contextAt probes n).generation+(changedAt probes (n+1)).toNat := by
  have hgen : (contextAt probes (n+1)).generation = if changedAt probes (n+1) then
      if ((contextAt probes n).generation+1)%2^64 = 0 then 1 else ((contextAt probes n).generation+1)%2^64
      else (contextAt probes n).generation := rfl
  rw [hgen]
  cases hc : changedAt probes (n+1) with
  | false => rfl
  | true =>
    rw [Nat.mod_eq_of_lt (hwrap hc)]
    simp

theorem generation_eq_changes (n : ℕ) (hn : changes probes (n+1) < 2^64) :
    (contextAt probes n).generation = changes probes (n+1) := by
  induction n with
  | zero => exact (changes_one probes).symm
  | succ n ih =>
    have hcount := changes_succ probes (n+1)
    have hbefore := ih (by omega)
    have hwrap : changedAt probes (n+1) = true → (contextAt probes n).generation+1 < 2^64 := by
      intro hc
      rw [hc,Bool.toNat_true] at hcount
      omega
    rw [generation_succ probes n hwrap,hbefore,hcount]

/-- Two counts are the same exactly when nothing changed from the one tick to the other. -/
theorem changes_eq_iff {i j : ℕ} (hij : i ≤ j) :
    changes probes (i+1) = changes probes (j+1) ↔ ∀ k, i < k → k ≤ j → changedAt probes k = false := by
  induction j, hij using Nat.le_induction with
  | base => exact iff_of_true rfl fun k hk hk' => absurd hk' (by omega)
  | succ j hij ih =>
    have hmono : changes probes (i+1) ≤ changes probes (j+1) := Nat.count_monotone _ (by omega)
    rw [changes_succ probes (j+1)]
    constructor
    · intro h k hk hkj
      have hlast : changedAt probes (j+1) = false := by
        cases hc : changedAt probes (j+1) with
        | false => rfl
        | true =>
          rw [hc,Bool.toNat_true] at h
          omega
      rcases Nat.lt_or_eq_of_le hkj with hlt | rfl
      · rw [hlast,Bool.toNat_false,Nat.add_zero] at h
        exact ih.mp h k hk (by omega)
      · exact hlast
    · intro h
      rw [h (j+1) (by omega) le_rfl,Bool.toNat_false,Nat.add_zero]
      exact ih.mpr fun k hk hkj => h k hk (by omega)

/-- Neighbouring ticks without a change have one identity, and so have all in between. -/
theorem identity_eq {i j : ℕ} (hij : i ≤ j) (h : ∀ k, i < k → k ≤ j → changedAt probes k = false) :
    (contextAt probes i).identity = (contextAt probes j).identity := by
  induction j, hij using Nat.le_induction with
  | base => rfl
  | succ j hij ih =>
    have hstep : ¬changedAt probes (j+1) = true := by simp [h (j+1) (by omega) le_rfl]
    rw [changedAt_succ,ne_eq,not_not] at hstep
    exact (ih fun k hk hkj => h k hk (by omega)).trans hstep

/-- The fields of a lifecycle, each while it counts, are the same. -/
structure SameFields (c d : Context) : Prop where
  route : c.route = d.route
  candidates : c.candidates = d.candidates
  mapId : c.mapId = d.mapId
  titleMode : c.Candidate .title ∨ c.Candidate .saveLoad → c.titleMode = d.titleMode
  menuPage : c.Candidate .saveLoad ∨ c.Candidate .saveList → c.menuPage = d.menuPage
  battleMenu : c.Candidate .battle ∨ c.Candidate .hostBattle → c.battleMenu = d.battleMenu

theorem sameFields_of_identity {c d : Context} (h : c.identity = d.identity) : SameFields c d := by
  have hsame := (sameLifecycle_iff c d).mpr h
  simp only [Context.identity,Identity.mk.injEq] at h
  obtain ⟨hr,hc,hm,ht,hp,hb⟩ := h
  have hcand : ∀ route, d.Candidate route ↔ c.Candidate route := fun route => by
    simp only [Context.Candidate,hc]
  simp only [hcand,counted_eq_iff,not_and,not_not] at ht hp hb
  exact ⟨hr,hc,hm,ht,hp,hb⟩

/-- Over any ticks with fewer changes than the generation has values: it is never zero, it goes up by
one at each change and only there, and two ticks have the same one exactly when no tick after the
first of them reported a change; then the fields of their lifecycle are the same. -/
theorem generation_identifies {n : ℕ} (hn : changes probes n < 2^64) :
    (∀ i < n, (contextAt probes i).generation ≠ 0) ∧
    (∀ i, i+1 < n → (contextAt probes (i+1)).generation =
      if changedAt probes (i+1) then (contextAt probes i).generation+1 else (contextAt probes i).generation) ∧
    ∀ i j, i < j → j < n →
      ((contextAt probes i).generation = (contextAt probes j).generation ↔
        ∀ k, i < k → k ≤ j → changedAt probes k = false) ∧
      ((contextAt probes i).generation = (contextAt probes j).generation →
        SameFields (contextAt probes i) (contextAt probes j)) := by
  have hgen : ∀ i < n, (contextAt probes i).generation = changes probes (i+1) := by
    intro i hi
    have hmono : changes probes (i+1) ≤ changes probes n := Nat.count_monotone _ (by omega)
    exact generation_eq_changes probes i (by omega)
  refine ⟨?_,?_,?_⟩
  · intro i hi
    have hfirst : changes probes 1 ≤ changes probes (i+1) := Nat.count_monotone _ (by omega)
    rw [changes_one] at hfirst
    rw [hgen i hi]
    omega
  · intro i hi
    rw [hgen _ hi,hgen i (by omega),changes_succ probes (i+1)]
    cases changedAt probes (i+1) <;> rfl
  · intro i j hij hj
    have hiff : (contextAt probes i).generation = (contextAt probes j).generation ↔
        ∀ k, i < k → k ≤ j → changedAt probes k = false := by
      rw [hgen i (by omega),hgen j hj,changes_eq_iff probes hij.le]
    exact ⟨hiff,fun h => sameFields_of_identity (identity_eq probes hij.le (hiff.mp h))⟩

def menuOpens (n : ℕ) : Option Probe :=
  some ⟨0,0,0,0,0,0,0,0,0,if n = 0 then 0 else 1,0,0,3,0,0,n,0,0,0⟩

theorem generation_identifies_menu :
    (contextAt menuOpens 0).generation ≠ (contextAt menuOpens 1).generation ∧
      SameFields (contextAt menuOpens 1) (contextAt menuOpens 2) :=
  ⟨by decide,((generation_identifies menuOpens (n := 3) (by decide)).2.2 1 2 (by decide) (by decide)).2 (by decide)⟩

end Runs

end Machismo.Sword3InputContext
