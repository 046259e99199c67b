import Mathlib

/-! # Deadlines of the dispatch shim

`dispatch_time` and `dispatch_walltime` answer with a point in time, in nanoseconds of the
monotonic or of the wall clock.  `dispatch_semaphore_wait` takes the number it is given as
the time that is left, and adds it to the wall clock.  The two agree only when the clock
the number was read from stands at nought, or at a multiple of 2^64, as the wait begins.
-/
namespace Machismo.Shim.Dispatch

def nsecPerSec : ℕ := 1000000000

/-- What `clock_gettime` fills in. -/
structure Reading where
  sec : ℕ
  nsec : ℕ
  sec_lt : sec < 2^63
  nsec_lt : nsec < nsecPerSec

def Reading.ns (r : Reading) : ℕ := r.sec*nsecPerSec+r.nsec

structure Timespec where
  sec : ℤ
  nsec : ℤ
deriving DecidableEq, Repr

def Timespec.ns (ts : Timespec) : ℤ := ts.sec*nsecPerSec+ts.nsec

inductive Clock where
  | monotonic
  | realtime
deriving DecidableEq, Repr

/-- The clocks at one moment. -/
abbrev Clocks := Clock → Reading

def timeNow : ℕ := 0
def timeForever : ℕ := 2^64-1

def Reading.toU64 (r : Reading) : ℕ := r.ns%2^64

/-- Adding an `int64_t` as an `uint64_t`. -/
def addDelta (t : ℕ) (delta : ℤ) : ℕ := ((t+delta)%2^64).toNat

def dispatchTime (clocks : Clocks) (t : ℕ) (delta : ℤ) : ℕ :=
  if t = timeForever then timeForever
  else addDelta (if t = timeNow then (clocks .monotonic).toU64 else t) delta

/-- `dispatch_walltime`; without a time it takes the present one. -/
def dispatchWalltime (clocks : Clocks) (t : Option Reading) (delta : ℤ) : ℕ :=
  addDelta (t.getD (clocks .realtime)).toU64 delta

/-- The call a wait ends in. -/
inductive SemCall where
  | wait
  | trywait
  | timedwait (deadline : Timespec)
deriving DecidableEq, Repr

def semCall (clocks : Clocks) (timeout : ℕ) : SemCall :=
  if timeout = timeForever then .wait
  else if timeout = timeNow then .trywait
  else
    let now := clocks .realtime
    -- a sum with an unsigned operand is unsigned, and is stored in a signed field
    let sec := Int.bmod (now.sec+timeout/nsecPerSec : ℕ) (2^64)
    let nsec := now.nsec+timeout%nsecPerSec
    if nsecPerSec ≤ nsec then .timedwait ⟨Int.bmod (sec+1) (2^64),nsec-nsecPerSec⟩ else .timedwait ⟨sec,nsec⟩

/-- `dispatch_semaphore_wait`, with what the call answers. -/
def dispatchSemaphoreWait (clocks : Clocks) (answer : SemCall → ℤ) (dsema : Bool) (timeout : ℕ) : ℤ :=
  if dsema then (if answer (semCall clocks timeout) = 0 then 0 else -1) else -1

/-- The wait that begins now gives up at the instant: its deadline is that one, with nanoseconds in range,
or it does not wait at all and the instant is not to come. -/
def SemCall.TimesOutAt (clocks : Clocks) (instant : ℤ) : SemCall → Prop
  | .wait => False
  | .trywait => instant ≤ (clocks .realtime).ns
  | .timedwait deadline => deadline.ns = instant ∧ 0 ≤ deadline.nsec ∧ deadline.nsec < nsecPerSec

/-- The instant at which a clock shows this many nanoseconds, on the wall clock of the wait. -/
def instant (clocks : Clocks) (clock : Clock) (t : ℕ) : ℤ :=
  (clocks .realtime).ns+(t-(clocks clock).ns)

/-- The number stands for itself and the clock it was read from shows nought at the wait, up to multiples of
2^64; or the number is nought, and the time has passed. -/
def Kept (clocks : Clocks) (clock : Clock) (t : ℕ) : Prop :=
  ¬2^64 ∣ t+1 ∧
    if 2^64 ∣ t then t ≤ (clocks clock).ns
    else (clocks clock).ns = 2^64*(t/2^64) ∧ instant clocks clock t < 2^63*nsecPerSec

section Deadline
variable (clocks : Clocks)

theorem Reading.ns_lt (r : Reading) : r.ns < 2^63*nsecPerSec := by
  have hsec := r.sec_lt
  have hnsec := r.nsec_lt
  simp only [ns,nsecPerSec] at *
  omega

/-- What `sem_timedwait` is handed is the wall clock and the number, up to what a `time_t` holds. -/
theorem semCall_timed {timeout : ℕ} (hforever : timeout ≠ timeForever) (hnow : timeout ≠ timeNow) :
    ∃ deadline, semCall clocks timeout = .timedwait deadline ∧ 0 ≤ deadline.nsec ∧ deadline.nsec < nsecPerSec ∧
      deadline.ns = Int.bmod (((clocks .realtime).ns+timeout)/nsecPerSec : ℕ) (2^64)*nsecPerSec+
        (((clocks .realtime).ns+timeout)%nsecPerSec : ℕ) := by
  have hnsec := (clocks .realtime).nsec_lt
  unfold semCall
  rw [if_neg hforever,if_neg hnow]
  dsimp only
  by_cases hcarry : nsecPerSec ≤ (clocks .realtime).nsec+timeout%nsecPerSec
  · have hdiv : ((clocks .realtime).ns+timeout)/nsecPerSec = (clocks .realtime).sec+timeout/nsecPerSec+1 := by
      simp only [Reading.ns,nsecPerSec] at *
      omega
    have hmod : ((clocks .realtime).ns+timeout)%nsecPerSec =
        (clocks .realtime).nsec+timeout%nsecPerSec-nsecPerSec := by
      simp only [Reading.ns,nsecPerSec] at *
      omega
    rw [if_pos hcarry,hdiv,hmod]
    refine ⟨_,rfl,?_,?_,?_⟩
    · dsimp only
      omega
    · simp only [nsecPerSec] at *
      omega
    · rw [Timespec.ns,Int.bmod_add_bmod,Nat.cast_sub hcarry]
      push_cast
      rfl
  · have hdiv : ((clocks .realtime).ns+timeout)/nsecPerSec = (clocks .realtime).sec+timeout/nsecPerSec := by
      simp only [Reading.ns,nsecPerSec] at *
      omega
    have hmod : ((clocks .realtime).ns+timeout)%nsecPerSec = (clocks .realtime).nsec+timeout%nsecPerSec := by
      simp only [Reading.ns,nsecPerSec] at *
      omega
    rw [if_neg hcarry,hdiv,hmod]
    refine ⟨_,rfl,by positivity,?_,?_⟩
    · dsimp only
      omega
    · rw [Timespec.ns]

/-- A number of seconds comes back from the signed field as it was, or 2^64 too small. -/
theorem bmod_sec {sec : ℕ} (h : sec < 2^64) :
    Int.bmod sec (2^64) = if sec < 2^63 then (sec : ℤ) else sec-2^64 := by
  rw [Int.bmod_def]
  split_ifs <;> omega

theorem timesOutAt_iff (clock : Clock) (t : ℕ) :
    (semCall clocks (t%2^64)).TimesOutAt clocks (instant clocks clock t) ↔ Kept clocks clock t := by
  have hclock := (clocks clock).ns_lt
  have hreal := (clocks .realtime).ns_lt
  unfold Kept
  by_cases hforever : t%2^64 = timeForever
  · have hdvd : 2^64 ∣ t+1 := by
      unfold timeForever at hforever
      omega
    rw [semCall,if_pos hforever]
    exact iff_of_false id fun h => h.1 hdvd
  have hdvd : ¬2^64 ∣ t+1 := by
    unfold timeForever at hforever
    omega
  by_cases hnow : t%2^64 = timeNow
  · rw [semCall,if_neg hforever,if_pos hnow,if_pos (Nat.dvd_of_mod_eq_zero hnow)]
    simp only [SemCall.TimesOutAt,instant,hdvd,not_false_eq_true,true_and]
    omega
  rw [if_neg fun h => hnow (Nat.mod_eq_zero_of_dvd h)]
  obtain ⟨deadline,hcall,h0,h1,hns⟩ := semCall_timed clocks hforever hnow
  rw [hcall]
  simp only [SemCall.TimesOutAt,h0,h1,and_true,hdvd,not_false_eq_true,true_and,hns,instant]
  have hlt : t%2^64 < 2^64 := Nat.mod_lt _ (by decide)
  have hsum := Nat.div_add_mod t (2^64)
  clear hcall h0 h1 hns hdvd hforever hnow
  generalize t%2^64 = r at *
  generalize t/2^64 = q at *
  generalize (clocks .realtime).ns = w at *
  generalize (clocks clock).ns = m at *
  have hsec : (w+r)/nsecPerSec < 2^64 := by
    simp only [nsecPerSec] at *
    omega
  rw [bmod_sec hsec]
  simp only [nsecPerSec] at *
  split_ifs <;> omega

end Deadline

section Called

@[simp] theorem instant_realtime (clocks : Clocks) (t : ℕ) : instant clocks .realtime t = t := by
  rw [instant]
  omega

theorem addDelta_nat (t delta : ℕ) : addDelta (t%2^64) delta = (t+delta)%2^64 := by
  unfold addDelta
  omega

theorem dispatchTime_now (called : Clocks) (delta : ℕ) :
    dispatchTime called timeNow delta = ((called .monotonic).ns+delta)%2^64 := by
  rw [dispatchTime,if_neg (by decide),if_pos rfl,Reading.toU64,addDelta_nat]

theorem dispatchWalltime_eq (called : Clocks) (t : Option Reading) (delta : ℕ) :
    dispatchWalltime called t delta = ((t.getD (called .realtime)).ns+delta)%2^64 := by
  rw [dispatchWalltime,Reading.toU64,addDelta_nat]

/-- A wait for a time of either function, which may begin later than the call. -/
theorem dispatch_deadline_iff (called waits : Clocks) (t : Option Reading) (delta : ℕ) :
    ((semCall waits (dispatchTime called timeNow delta)).TimesOutAt waits
        (instant waits .monotonic ((called .monotonic).ns+delta)) ↔
      Kept waits .monotonic ((called .monotonic).ns+delta)) ∧
    ((semCall waits (dispatchWalltime called t delta)).TimesOutAt waits
        (instant waits .realtime ((t.getD (called .realtime)).ns+delta)) ↔
      Kept waits .realtime ((t.getD (called .realtime)).ns+delta)) := by
  rw [dispatchTime_now,dispatchWalltime_eq]
  exact ⟨timesOutAt_iff waits .monotonic _,timesOutAt_iff waits .realtime _⟩

/-- An hour after the start of the machine. -/
def afterAnHour : Clocks
  | .monotonic => ⟨3600,0,by decide,by decide⟩
  | .realtime => ⟨1700000000,0,by decide,by decide⟩

/-- A wait of one second takes an hour and a second. -/
theorem one_second_takes_an_hour :
    semCall afterAnHour (dispatchTime afterAnHour timeNow 1000000000) = .timedwait ⟨1700003601,0⟩ ∧
    ¬(semCall afterAnHour (dispatchTime afterAnHour timeNow 1000000000)).TimesOutAt afterAnHour
        (instant afterAnHour .monotonic ((afterAnHour .monotonic).ns+1000000000)) := by
  have hcall : semCall afterAnHour (dispatchTime afterAnHour timeNow 1000000000) =
      .timedwait ⟨1700003601,0⟩ := by decide
  refine ⟨hcall,fun h => ?_⟩
  rw [hcall] at h
  exact absurd h.1 (by decide)

end Called

end Machismo.Shim.Dispatch
