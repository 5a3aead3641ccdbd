import Mathlib.Tactic
import RtbAdapter.RtbBase

/-!
# The life of a request

The time since a request came in, from two readings of the clock. A request is late
once more than the time allowed for an answer has passed.
-/

namespace ElapsedTime

open ByteWords RtbBase

def getLife (r : AdRtbRequest) (now : Time) : Nat := r.time.toNow now

/-- A reading of the clock in microseconds. -/
def micros (t : Time) : Int := t.sec * 1000000 + t.usec

def elapsed (start now : Time) : Int := micros now - micros start

/-- The microseconds of a reading are less than a second. -/
def Normal (t : Time) : Prop := 0 ≤ t.usec ∧ t.usec < 1000000

/-- Two readings in their order, less than `2 ^ 32` microseconds apart. -/
structure Span (start now : Time) : Prop where
  first : Normal start
  second : Normal now
  order : 0 ≤ elapsed start now
  short : elapsed start now < 4294967296

/-- The life of a request is the time that has passed; the request is late when that is more than
the time allowed; and once it was late it stays so. -/
structure Exact (r : AdRtbRequest) (now : Time) : Prop where
  toNow : (r.time.toNow now : Int) = elapsed r.time now
  getLife : (getLife r now : Int) = elapsed r.time now
  late : r.checkLife now ↔ adResponseMaxTime < elapsed r.time now
  stays : ∀ earlier, Normal earlier → 0 ≤ elapsed r.time earlier → 0 ≤ elapsed earlier now →
    r.checkLife earlier → r.checkLife now

variable {start now : Time} {r : AdRtbRequest}

theorem toUInt32_eq (x : Int) : (toUInt32 x : Int) = x % 4294967296 := by
  rw [toUInt32]
  omega

/-- Without a borrow the result is exact. -/
theorem toNow_exact (span : Span start now) (ahead : start.usec ≤ now.usec) :
    (start.toNow now : Int) = elapsed start now := by
  obtain ⟨-, -, order, short⟩ := span
  rw [Time.toNow, if_pos ahead, toUInt32_eq]
  simp only [elapsed, micros] at order short ⊢
  omega

/-- With a borrow the microseconds are on the wrong side, so that they count twice. -/
theorem toNow_borrow (behind : now.usec < start.usec) : (start.toNow now : Int) =
    (elapsed start now + 2 * (start.usec - now.usec)) % 4294967296 := by
  rw [Time.toNow, if_neg (by omega), toUInt32_eq]
  congr 1
  simp only [elapsed, micros]
  omega

theorem toNow_exact_iff (span : Span start now) :
    (start.toNow now : Int) = elapsed start now ↔ start.usec ≤ now.usec := by
  constructor
  · intro exact
    by_contra behind
    have off := toNow_borrow (Int.not_le.mp behind)
    obtain ⟨⟨_, small⟩, ⟨nonneg, _⟩, order, short⟩ := span
    omega
  · exact toNow_exact span

theorem checkLife_iff (now : Time) :
    r.checkLife now ↔ (adResponseMaxTime : Int) < r.time.toNow now := by
  rw [AdRtbRequest.checkLife, decide_eq_true_iff]
  omega

/-- A request that was late before is late now, if there is no borrow now: it was late by the time
that had passed, or a whole second had begun since. -/
theorem late_stays {earlier : Time} (span : Span r.time now) (ahead : r.time.usec ≤ now.usec)
    (normal : Normal earlier) (after : 0 ≤ elapsed r.time earlier)
    (before : 0 ≤ elapsed earlier now) (late : r.checkLife earlier) : r.checkLife now := by
  have exact := toNow_exact span ahead
  have allowed : (adResponseMaxTime : Int) = 15000 := rfl
  rw [checkLife_iff] at late ⊢
  rw [exact, allowed]
  obtain ⟨start, normal', order, short⟩ := span
  by_cases borrow : earlier.usec < r.time.usec
  · simp only [elapsed, micros, Normal] at *
    omega
  · have shorter : elapsed r.time earlier < 4294967296 := by
      simp only [elapsed] at *
      omega
    have exact' := toNow_exact ⟨start, normal, after, shorter⟩ (Int.not_lt.mp borrow)
    rw [exact', allowed] at late
    simp only [elapsed] at *
    omega

/-- The life of a request is right exactly when the microseconds of the clock are not behind those
of its start. -/
theorem life_exact_iff (r : AdRtbRequest) (now : Time) (span : Span r.time now) :
    Exact r now ↔ r.time.usec ≤ now.usec := by
  constructor
  · intro exact
    exact (toNow_exact_iff span).mp exact.toNow
  · intro ahead
    have exact := toNow_exact span ahead
    refine ⟨exact, exact, ?_, ?_⟩
    · rw [checkLife_iff, exact]
    · intro earlier normal after before late
      exact late_stays span ahead normal after before late

/-- A request from the last microsecond of a second. -/
def lastMicro : AdRtbRequest := AdRtbRequest.clear ⟨0, 999999⟩

theorem lastMicro_span {now : Time} (normal : Normal now) (later : 1 ≤ now.sec)
    (soon : now.sec < 4000) : Span lastMicro.time now := by
  have start : lastMicro.time = ⟨0, 999999⟩ := rfl
  rw [start]
  refine ⟨⟨by decide, by decide⟩, normal, ?_, ?_⟩
  · simp only [elapsed, micros, Normal] at *
    omega
  · simp only [elapsed, micros, Normal] at *
    omega

theorem lastMicro_exact : Exact lastMicro ⟨1, 999999⟩ ↔ lastMicro.time.usec ≤ 999999 :=
  life_exact_iff lastMicro ⟨1, 999999⟩
    (lastMicro_span ⟨by decide, by decide⟩ (by decide) (by decide))

/-- One microsecond later the request is taken to be almost two seconds old. -/
theorem lastMicro_late : Span lastMicro.time ⟨1, 0⟩ ∧ elapsed lastMicro.time ⟨1, 0⟩ = 1 ∧
    lastMicro.time.toNow ⟨1, 0⟩ = 1999999 ∧ lastMicro.checkLife ⟨1, 0⟩ ∧
    ¬ Exact lastMicro ⟨1, 0⟩ := by
  refine ⟨lastMicro_span ⟨by decide, by decide⟩ (by decide) (by decide), by decide, by decide,
    by decide, fun exact => ?_⟩
  have life : ((1999999 : Nat) : Int) = 1 := exact.toNow
  omega

end ElapsedTime
