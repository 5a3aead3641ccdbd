import RtbAdapter.PlanningData

/-!
# The days of an order

The weekdays of an order are written one after the other into an array of seven days,
and the hours of a day are shifted into a mask, as the stored text has them. A value of
the wrong kind ends the process on the way; an index behind the array, or a shift by a
number that is no place in a word, is undefined.
-/

namespace ScheduleTimes

open ByteWords JsonValues PlanningUnit

/-- Why a parse does not return: the JSON library ends the process, or an access or a shift is out
of range. -/
inductive Halt where
  | ended
  | wild
  deriving DecidableEq

/-- A value that the JSON library is asked for. -/
def asked {α : Type} : Option α → Except Halt α
  | some a => .ok a
  | none => .error .ended

def weekday (entry : JsonValue) : Option UInt32 := (entry.field "weekday").bind JsonValue.asUINT

def budget (entry : JsonValue) : Option UInt32 := (entry.field "budget").bind JsonValue.asUINT

def hours (entry : JsonValue) : Option (List JsonValue) :=
  (entry.field "hour").bind JsonValue.items

/-- `m_uiHour |= 1 << hour` -/
def shiftHour (bits : UInt32) (hour : Int) : Except Halt UInt32 :=
  if 0 ≤ hour ∧ hour < 32 then .ok (bits ||| (1 : UInt32) <<< UInt32.ofNat hour.toNat)
  else .error .wild

/-- The inner loop. -/
def hourLoop : List JsonValue → UInt32 → Except Halt UInt32
  | [], bits => .ok bits
  | hour :: rest, bits => do
    let n ← asked hour.asInt
    let bits ← shiftHour bits n
    hourLoop rest bits

/-- A write to `m_stDay[uiCount]`. -/
def writeDay (day : List AdTimeDay) (uiCount : Nat) (write : AdTimeDay → AdTimeDay) :
    Except Halt (List AdTimeDay) :=
  if uiCount < adWeekDays then .ok (day.modify uiCount write) else .error .wild

/-- One turn of the outer loop. -/
def parseDay (uiCount : Nat) (entry : JsonValue) (day : List AdTimeDay) :
    Except Halt (List AdTimeDay) := do
  let week ← asked (weekday entry)
  let day ← writeDay day uiCount fun d => { d with week }
  let budget ← asked (budget entry)
  let day ← writeDay day uiCount fun d => { d with budget }
  let bits ← hourLoop (← asked (hours entry)) ((day.getD uiCount {}).hour)
  writeDay day uiCount fun d => { d with hour := bits }

def weekLoop : Nat → List JsonValue → List AdTimeDay → Except Halt (List AdTimeDay)
  | _, [], day => .ok day
  | uiCount, entry :: rest, day => do weekLoop (uiCount + 1) rest (← parseDay uiCount entry day)

/-- `DataParseTime` with the range of an order, into a time that is clear. -/
def dataParseTime (range : JsonValue) : Except Halt AdTime := do
  let start ← asked ((range.field "start").bind JsonValue.asString)
  let stop ← asked ((range.field "end").bind JsonValue.asString)
  let week ← asked ((range.field "week").bind JsonValue.items)
  let day ← weekLoop 0 week (List.replicate adWeekDays {})
  return { push := week ≠ [], start, stop, day }

/-- The hours that an entry lists. -/
def listed (entry : JsonValue) : Option (List Int) :=
  (hours entry).bind fun values => values.mapM JsonValue.asInt

/-- The seven days: those of the entries have the bits of the listed hours and no other ones, and
the days behind them have none. -/
structure Masked (entries : List JsonValue) (day : List AdTimeDay) : Prop where
  size : day.length = adWeekDays
  bits : ∀ (i : Nat) (entry : JsonValue), entries[i]? = some entry →
    ∃ (d : AdTimeDay) (hs : List Int), day[i]? = some d ∧ listed entry = some hs ∧
      ∀ j : Nat, d.hour.toNat.testBit j ↔ (j : Int) ∈ hs
  rest : ∀ (i : Nat) (d : AdTimeDay), entries.length ≤ i → day[i]? = some d → d.hour = 0

/-- Nothing is out of range, and where the parse returns the masks are right. -/
def InRange (range : JsonValue) (entries : List JsonValue) : Prop :=
  match dataParseTime range with
  | .ok time => Masked entries time.day
  | .error .ended => True
  | .error .wild => False

/-- What holds of each element that a loop comes to, where it ends at the first one that is not
whole. -/
def Reached {α : Type} (whole : α → Prop) (ok : Nat → α → Prop) (elements : List α) : Prop :=
  ∀ front x back, elements = front ++ x :: back → (∀ y ∈ front, whole y) → ok front.length x

/-- The hours are places in a word, up to the first value that is no number. -/
def HoursFit (values : List JsonValue) : Prop :=
  Reached (fun v => v.asInt.isSome) (fun _ v => ∀ n, v.asInt = some n → 0 ≤ n ∧ n < 32) values

/-- A day of the array, and hours that fit, as far as the entry can be read. -/
def DayFits (i : Nat) (entry : JsonValue) : Prop :=
  (weekday entry).isSome → i < adWeekDays ∧
    ((budget entry).isSome → ∀ values, hours entry = some values → HoursFit values)

/-- An entry that can be read to its end. -/
def Whole (entry : JsonValue) : Prop :=
  (weekday entry).isSome ∧ (budget entry).isSome ∧ (listed entry).isSome

/-- Every entry that is come to fits. -/
def Fits (range : JsonValue) (entries : List JsonValue) : Prop :=
  ((range.field "start").bind JsonValue.asString).isSome →
    ((range.field "end").bind JsonValue.asString).isSome → Reached Whole DayFits entries

variable {α : Type} {whole : α → Prop} {ok : Nat → α → Prop}

theorem reached_nil : Reached whole ok [] := by
  intro front x back split
  exact absurd split.symm (by simp)

theorem reached_cons {x : α} {elements : List α} : Reached whole ok (x :: elements) ↔
    ok 0 x ∧ (whole x → Reached whole (fun i => ok (i + 1)) elements) := by
  constructor
  · intro all
    refine ⟨all [] x elements rfl (by simp), fun here front y back split before => ?_⟩
    exact all (x :: front) y back (by rw [split]; rfl) (List.forall_mem_cons.mpr ⟨here, before⟩)
  · rintro ⟨here, later⟩ front y back split before
    cases front with
    | nil =>
      obtain ⟨rfl, rfl⟩ := List.cons_eq_cons.mp split
      exact here
    | cons z front =>
      obtain ⟨rfl, rfl⟩ := List.cons_eq_cons.mp split
      obtain ⟨first, before⟩ := List.forall_mem_cons.mp before
      exact later first front y back rfl before

variable {values entries : List JsonValue} {entry : JsonValue} {bits : UInt32}
  {day after : List AdTimeDay}

theorem map_wild {β γ : Type} {ran : Except Halt β} {f : β → γ} :
    ran.map f = .error .wild ↔ ran = .error .wild := by
  cases ran with
  | ok x => exact ⟨fun wild => (nomatch wild), fun wild => (nomatch wild)⟩
  | error halt =>
    exact ⟨fun wild => congrArg _ (Except.error.inj wild),
      fun wild => congrArg _ (Except.error.inj wild)⟩

theorem hourLoop_cons (v : JsonValue) (values : List JsonValue) (bits : UInt32) :
    hourLoop (v :: values) bits =
      match v.asInt with
      | none => .error .ended
      | some n =>
        if 0 ≤ n ∧ n < 32 then
          hourLoop values (bits ||| (1 : UInt32) <<< UInt32.ofNat n.toNat)
        else .error .wild := by
  rw [hourLoop]
  cases v.asInt with
  | none => rfl
  | some n =>
    change (shiftHour bits n).bind (hourLoop values) = _
    rw [shiftHour]
    dsimp only
    split <;> rfl

/-- The inner loop comes to its end when all values are numbers and places in a word. -/
theorem hourLoop_eq_ok {mask : UInt32} : hourLoop values bits = .ok mask ↔
    ∃ hs, values.mapM JsonValue.asInt = some hs ∧ (∀ n ∈ hs, 0 ≤ n ∧ n < 32) ∧
      mask = hs.foldl (fun bits n => bits ||| (1 : UInt32) <<< UInt32.ofNat n.toNat) bits := by
  induction values generalizing bits with
  | nil =>
    constructor
    · intro ran
      exact ⟨[], rfl, by simp, (Except.ok.inj ran).symm⟩
    · rintro ⟨hs, read, -, rfl⟩
      obtain rfl := Option.some.inj read
      rfl
  | cons v values ih =>
    rw [hourLoop_cons]
    cases number : v.asInt with
    | none =>
      constructor
      · exact fun ran => nomatch ran
      · rintro ⟨hs, read, -⟩
        obtain ⟨n, rest, found, -⟩ := mapM_cons_eq_some.mp read
        rw [number] at found
        cases found
    | some n =>
      dsimp only
      constructor
      · intro ran
        split at ran
        · next place =>
          obtain ⟨hs, read, all, masked⟩ := ih.mp ran
          exact ⟨n :: hs, mapM_cons_eq_some.mpr ⟨n, hs, number, read, rfl⟩,
            List.forall_mem_cons.mpr ⟨place, all⟩, masked⟩
        · cases ran
      · rintro ⟨hs, read, all, masked⟩
        obtain ⟨m, rest, found, later, rfl⟩ := mapM_cons_eq_some.mp read
        rw [number] at found
        obtain rfl := Option.some.inj found
        obtain ⟨place, others⟩ := List.forall_mem_cons.mp all
        rw [if_pos place]
        exact ih.mpr ⟨rest, later, others, masked⟩

theorem hoursFit_cons {v : JsonValue} : HoursFit (v :: values) ↔
    ∀ n, v.asInt = some n → (0 ≤ n ∧ n < 32) ∧ HoursFit values := by
  rw [HoursFit, reached_cons]
  constructor
  · rintro ⟨here, later⟩ n number
    exact ⟨here n number, later (by rw [number]; rfl)⟩
  · intro all
    refine ⟨fun n number => (all n number).1, fun some' => ?_⟩
    obtain ⟨n, number⟩ := Option.isSome_iff_exists.mp some'
    exact (all n number).2

theorem hourLoop_wild : hourLoop values bits = .error .wild ↔ ¬ HoursFit values := by
  induction values generalizing bits with
  | nil => exact ⟨fun ran => (nomatch ran), fun unfit => absurd reached_nil unfit⟩
  | cons v values ih =>
    rw [hourLoop_cons, hoursFit_cons]
    cases v.asInt with
    | none => simp
    | some n =>
      dsimp only
      split
      · next place => simp [ih, place]
      · next away => simp [away]

theorem hourLoop_ended (ran : hourLoop values bits = .error .ended) :
    values.mapM JsonValue.asInt = none := by
  induction values generalizing bits with
  | nil => cases ran
  | cons v values ih =>
    rw [hourLoop_cons] at ran
    rw [List.mapM_cons]
    cases number : v.asInt with
    | none => rfl
    | some n =>
      rw [number] at ran
      dsimp only at ran
      split at ran
      · rw [ih ran]
        rfl
      · cases ran

/-- Numbers that are places in a word make a mask with just their bits. -/
theorem testBit_hours {hs : List Int} (places : ∀ n ∈ hs, 0 ≤ n ∧ n < 32) (j : Nat) :
    (hs.foldl (fun bits n => bits ||| (1 : UInt32) <<< UInt32.ofNat n.toNat) 0).toNat.testBit j ↔
      (j : Int) ∈ hs := by
  rw [testBit_foldl]
  constructor
  · rintro (zero | ⟨n, inside, bit⟩)
    · simp at zero
    · obtain ⟨nonneg, small⟩ := places n inside
      rw [testBit_one (by omega)] at bit
      have same : n = j := by omega
      exact same ▸ inside
  · intro inside
    obtain ⟨-, small⟩ := places j inside
    exact .inr ⟨j, inside, (testBit_one (by omega) j).mpr (by omega)⟩

/-- The array after some days, where the others are still clear. -/
def written (days : List AdTimeDay) : List AdTimeDay :=
  days ++ List.replicate (adWeekDays - days.length) ({} : AdTimeDay)

variable {days : List AdTimeDay}

theorem written_next {d : AdTimeDay} :
    written (days ++ [d]) = days ++ d :: List.replicate (adWeekDays - days.length - 1) {} := by
  rw [written, List.length_append, List.length_singleton, List.append_assoc,
    List.singleton_append, Nat.sub_sub]

theorem written_split (few : days.length < adWeekDays) : written days =
    days ++ ({} : AdTimeDay) :: List.replicate (adWeekDays - days.length - 1) {} := by
  have more : adWeekDays - days.length = adWeekDays - days.length - 1 + 1 := by omega
  rw [written, more, List.replicate_succ, Nat.add_sub_cancel]

theorem writeDay_behind (few : days.length < adWeekDays) (d : AdTimeDay) (rest : List AdTimeDay)
    (write : AdTimeDay → AdTimeDay) :
    writeDay (days ++ d :: rest) days.length write = .ok (days ++ write d :: rest) := by
  have place : ∀ front : List AdTimeDay,
      (front ++ d :: rest).modify front.length write = front ++ write d :: rest := by
    intro front
    induction front with
    | nil => rfl
    | cons first front ih => exact congrArg (first :: ·) ih
  rw [writeDay, if_pos few, place]

theorem writeDay_outside (many : ¬ days.length < adWeekDays) (write : AdTimeDay → AdTimeDay) :
    writeDay day days.length write = .error .wild := if_neg many

/-- What a turn comes to: the process ends, something is out of range, or the day of the entry is
written behind those before it. -/
theorem parseDay_eq (days : List AdTimeDay) (entry : JsonValue) :
    parseDay days.length entry (written days) =
      match weekday entry with
      | none => .error .ended
      | some week =>
        if days.length < adWeekDays then
          match budget entry, hours entry with
          | some budget, some values =>
            (hourLoop values 0).map fun hour => written (days ++ [{ week, budget, hour }])
          | _, _ => .error .ended
        else .error .wild := by
  rw [parseDay]
  cases weekday entry with
  | none => rfl
  | some week =>
    by_cases few : days.length < adWeekDays
    · dsimp only
      rw [if_pos few, written_split few]
      cases budget entry with
      | none =>
        simp only [asked, writeDay_behind few, bind, Except.bind]
      | some budget =>
        cases hours entry with
        | none => simp only [asked, writeDay_behind few, bind, Except.bind]
        | some values =>
          simp only [asked, writeDay_behind few, bind, Except.bind, written_next]
          have clear : ((days ++ ({ week, budget } : AdTimeDay) ::
              List.replicate (adWeekDays - days.length - 1) {}).getD days.length {}).hour = 0 := by
            rw [List.getD_eq_getElem?_getD, List.getElem?_append_right (Nat.le_refl _),
              Nat.sub_self]
            rfl
          rw [clear]
          cases hourLoop values 0 <;> rfl
    · dsimp only
      rw [if_neg few]
      simp only [asked, writeDay_outside few, bind, Except.bind]

/-- The day of an entry that is read to its end has the bits of the listed hours. -/
structure DayOf (entry : JsonValue) (d : AdTimeDay) : Prop where
  parsed : PlanningData.dataParseDay entry = some d
  bits : ∃ hs, listed entry = some hs ∧ ∀ j : Nat, d.hour.toNat.testBit j ↔ (j : Int) ∈ hs

/-- The shift of a place in a word is the one of the machine. -/
theorem dataParseDay_eq {week budget' : UInt32} {hs : List Int}
    (monday : weekday entry = some week) (spent : budget entry = some budget')
    (opened : hours entry = some values) (read : values.mapM JsonValue.asInt = some hs)
    (places : ∀ n ∈ hs, 0 ≤ n ∧ n < 32) :
    PlanningData.dataParseDay entry = some ⟨week, budget',
      hs.foldl (fun bits n => bits ||| (1 : UInt32) <<< UInt32.ofNat n.toNat) 0⟩ := by
  have words : values.mapM JsonValue.asUINT =
      some (hs.map fun n => UInt32.ofNat (toUInt32 n)) := by
    clear opened places
    induction values generalizing hs with
    | nil =>
      obtain rfl := Option.some.inj read
      rfl
    | cons v values ih =>
      obtain ⟨n, rest, number, later, rfl⟩ := mapM_cons_eq_some.mp read
      refine mapM_cons_eq_some.mpr ⟨UInt32.ofNat (toUInt32 n), _, ?_, ih later, rfl⟩
      rw [JsonValue.asUINT, number, Option.map_some]
  have shifts : (hs.map fun n => UInt32.ofNat (toUInt32 n)).foldl
      (fun bits hour => bits ||| (1 : UInt32) <<< hour) 0 =
        hs.foldl (fun bits n => bits ||| (1 : UInt32) <<< UInt32.ofNat n.toNat) 0 := by
    rw [List.foldl_map]
    refine List.foldl_ext _ _ _ fun bits n inside => ?_
    obtain ⟨nonneg, small⟩ := places n inside
    have same : toUInt32 n = n.toNat := by
      rw [toUInt32]
      omega
    rw [same]
  obtain ⟨first, found, monday⟩ := Option.bind_eq_some_iff.mp monday
  obtain ⟨second, found', spent⟩ := Option.bind_eq_some_iff.mp spent
  obtain ⟨third, found'', opened⟩ := Option.bind_eq_some_iff.mp opened
  simp only [PlanningData.dataParseDay, found, found', found'', monday, spent, opened, words,
    Option.bind_eq_bind, Option.bind_some, shifts]
  rfl

theorem parseDay_ok (ran : parseDay days.length entry (written days) = .ok after) :
    days.length < adWeekDays ∧ Whole entry ∧
      ∃ d, after = written (days ++ [d]) ∧ DayOf entry d := by
  rw [parseDay_eq] at ran
  cases monday : weekday entry with
  | none =>
    rw [monday] at ran
    cases ran
  | some week =>
    rw [monday] at ran
    dsimp only at ran
    split at ran
    · next few =>
      split at ran
      · next budget' values spent opened =>
        cases looped : hourLoop values 0 with
        | error halt =>
          rw [looped] at ran
          cases ran
        | ok hour =>
          rw [looped] at ran
          obtain ⟨hs, read, places, rfl⟩ := hourLoop_eq_ok.mp looped
          have listed' : listed entry = some hs := by rw [listed, opened, Option.bind_some, read]
          refine ⟨few, ⟨by rw [monday]; rfl, by rw [spent]; rfl, by rw [listed']; rfl⟩, _,
            (Except.ok.inj ran).symm, ?_, hs, listed', testBit_hours places⟩
          exact dataParseDay_eq monday spent opened read places
      · cases ran
    · cases ran

theorem parseDay_wild : parseDay days.length entry (written days) = .error .wild ↔
    ¬ DayFits days.length entry := by
  rw [parseDay_eq, DayFits]
  cases weekday entry with
  | none => simp
  | some week =>
    dsimp only
    by_cases few : days.length < adWeekDays
    · rw [if_pos few]
      cases budget entry with
      | none => simp [few]
      | some budget' =>
        cases hours entry with
        | none => simp [few]
        | some values =>
          dsimp only
          rw [map_wild, hourLoop_wild]
          simp [few]
    · rw [if_neg few]
      simp [few]

/-- A turn that does not go astray has an entry that fits. -/
theorem parseDay_fits (ran : parseDay days.length entry (written days) ≠ .error .wild) :
    DayFits days.length entry :=
  not_imp_comm.mp parseDay_wild.mpr ran

theorem parseDay_ended (ran : parseDay days.length entry (written days) = .error .ended) :
    ¬ Whole entry := by
  rintro ⟨monday, spent, read⟩
  obtain ⟨week, monday⟩ := Option.isSome_iff_exists.mp monday
  obtain ⟨budget', spent⟩ := Option.isSome_iff_exists.mp spent
  obtain ⟨hs, read⟩ := Option.isSome_iff_exists.mp read
  obtain ⟨values, opened, read⟩ := Option.bind_eq_some_iff.mp read
  rw [parseDay_eq, monday, spent, opened] at ran
  dsimp only at ran
  split at ran
  · cases looped : hourLoop values 0 with
    | ok hour =>
      rw [looped] at ran
      cases ran
    | error halt =>
      rw [looped] at ran
      obtain rfl := Except.error.inj ran
      rw [hourLoop_ended looped] at read
      cases read
  · cases ran

theorem weekLoop_cons (entry : JsonValue) (entries : List JsonValue) :
    weekLoop days.length (entry :: entries) (written days) =
      (parseDay days.length entry (written days)).bind (weekLoop (days.length + 1) entries) := rfl

theorem weekLoop_wild (days : List AdTimeDay) (entries : List JsonValue) :
    weekLoop days.length entries (written days) = .error .wild ↔
      ¬ Reached Whole (fun i => DayFits (days.length + i)) entries := by
  induction entries generalizing days with
  | nil => exact ⟨fun ran => (nomatch ran), fun unfit => absurd reached_nil unfit⟩
  | cons entry entries ih =>
    rw [weekLoop_cons, reached_cons, Nat.add_zero]
    cases turn : parseDay days.length entry (written days) with
    | ok after =>
      have fits : DayFits days.length entry := parseDay_fits (by rw [turn]; exact nofun)
      obtain ⟨-, whole, d, rfl, -⟩ := parseDay_ok turn
      have next : (days ++ [d]).length = days.length + 1 := by simp
      have later := ih (days ++ [d])
      rw [next] at later
      change weekLoop (days.length + 1) entries (written (days ++ [d])) = .error .wild ↔ _
      rw [later]
      have shift : (fun i => DayFits (days.length + 1 + i)) =
          fun i => DayFits (days.length + (i + 1)) := by
        funext i
        rw [Nat.add_assoc, Nat.add_comm 1 i]
      rw [shift]
      simp [fits, whole]
    | error halt =>
      change (Except.error halt : Except Halt (List AdTimeDay)) = .error .wild ↔ _
      cases halt with
      | ended =>
        have fits : DayFits days.length entry := parseDay_fits (by rw [turn]; exact nofun)
        simp [fits, parseDay_ended turn]
      | wild => simp [parseDay_wild.mp turn]

/-- Where the loop returns, the days of the entries have been written one after the other. -/
theorem weekLoop_ok (days : List AdTimeDay) (few : days.length ≤ adWeekDays)
    (ran : weekLoop days.length entries (written days) = .ok after) :
    ∃ more, after = written (days ++ more) ∧ (days ++ more).length ≤ adWeekDays ∧
      List.Forall₂ DayOf entries more := by
  induction entries generalizing days with
  | nil =>
    obtain rfl := Except.ok.inj ran
    refine ⟨[], ?_, ?_, .nil⟩ <;> rw [List.append_nil]
    exact few
  | cons entry entries ih =>
    rw [weekLoop_cons] at ran
    cases turn : parseDay days.length entry (written days) with
    | error halt =>
      rw [turn] at ran
      cases ran
    | ok middle =>
      rw [turn] at ran
      obtain ⟨room, -, d, rfl, day⟩ := parseDay_ok turn
      have next : (days ++ [d]).length = days.length + 1 := by simp
      rw [← next] at ran
      obtain ⟨more, rfl, fits, others⟩ := ih (days ++ [d]) (by omega) ran
      refine ⟨d :: more, ?_, ?_, .cons day others⟩
      · rw [List.append_assoc, List.singleton_append]
      · rwa [List.append_assoc, List.singleton_append] at fits

theorem written_masked (few : days.length ≤ adWeekDays) (all : List.Forall₂ DayOf entries days) :
    Masked entries (written days) := by
  have count := all.length_eq
  constructor
  · rw [written, List.length_append, List.length_replicate]
    omega
  · intro i entry found
    obtain ⟨below, rfl⟩ := List.getElem?_eq_some_iff.mp found
    obtain ⟨hs, listed', bits⟩ := (all.get below (by omega)).bits
    refine ⟨days[i], hs, ?_, listed', bits⟩
    rw [written, List.getElem?_append_left (by omega)]
    exact List.getElem?_eq_getElem (by omega)
  · intro i d behind found
    rw [written, List.getElem?_append_right (by omega), List.getElem?_replicate] at found
    split at found
    · obtain rfl := Option.some.inj found
      rfl
    · cases found

variable {range : JsonValue}

/-- What the parse comes to, with the members it asks for first. -/
theorem dataParseTime_eq (week : range.field "week" = some (.array entries)) :
    dataParseTime range =
      match (range.field "start").bind JsonValue.asString,
        (range.field "end").bind JsonValue.asString with
      | some start, some stop =>
        (weekLoop 0 entries (List.replicate adWeekDays {})).map fun day =>
          { push := entries ≠ [], start, stop, day }
      | _, _ => .error .ended := by
  rw [dataParseTime]
  cases (range.field "start").bind JsonValue.asString with
  | none => rfl
  | some start =>
    cases (range.field "end").bind JsonValue.asString with
    | none => rfl
    | some stop =>
      rw [week, Option.bind_some, items_array]
      dsimp only
      simp only [asked, bind, Except.bind]
      cases weekLoop 0 entries (List.replicate adWeekDays {}) <;> rfl

/-- A parse that returns gives the time that the orders are loaded with. -/
theorem dataParseTime_loads {time : AdTime} (week : range.field "week" = some (.array entries))
    (ran : dataParseTime range = .ok time) :
    PlanningData.dataParseTime range = some time ∧ Masked entries time.day := by
  rw [dataParseTime_eq week] at ran
  split at ran
  · next start stop started stopped =>
    cases looped : weekLoop 0 entries (List.replicate adWeekDays {}) with
    | error halt =>
      rw [looped] at ran
      cases ran
    | ok day =>
      rw [looped] at ran
      obtain rfl := Except.ok.inj ran
      obtain ⟨days, rfl, few, all⟩ := weekLoop_ok [] (Nat.zero_le _) looped
      rw [List.nil_append] at few ⊢
      refine ⟨?_, written_masked few all⟩
      have parsed : entries.mapM PlanningData.dataParseDay = some days := by
        clear week looped ran few
        induction all with
        | nil => rfl
        | cons day _ ih => exact mapM_cons_eq_some.mpr ⟨_, _, day.parsed, ih, rfl⟩
      have push : (days ≠ []) = (entries ≠ []) := by
        cases all <;> simp
      obtain ⟨first, found, started⟩ := Option.bind_eq_some_iff.mp started
      obtain ⟨second, found', stopped⟩ := Option.bind_eq_some_iff.mp stopped
      simp only [PlanningData.dataParseTime, found, found', week, started, stopped, items_array,
        parsed, Option.bind_eq_bind, Option.bind_some, if_neg (Nat.not_lt.mpr few), push]
      rfl
  · cases ran

/-- The parse of a week stays in range, with the right masks where it returns, exactly when what
it comes to fits: no more than seven days, and hours that are places in a word. -/
theorem parse_in_range (range : JsonValue) (entries : List JsonValue)
    (week : range.field "week" = some (.array entries)) :
    InRange range entries ↔ Fits range entries := by
  have wild : dataParseTime range = .error .wild ↔ ¬ Fits range entries := by
    rw [dataParseTime_eq week, Fits]
    cases (range.field "start").bind JsonValue.asString with
    | none => simp
    | some start =>
      cases (range.field "end").bind JsonValue.asString with
      | none => simp
      | some stop =>
        have loop := weekLoop_wild [] entries
        have offset : (fun i => DayFits (([] : List AdTimeDay).length + i)) = DayFits :=
          funext fun i => congrArg DayFits (Nat.zero_add i)
        rw [offset] at loop
        change (weekLoop 0 entries (written [])).map _ = _ ↔ _
        change weekLoop 0 entries (written []) = _ ↔ _ at loop
        simp only [Option.isSome_some, forall_const]
        rw [← loop]
        exact map_wild
  have fits : dataParseTime range ≠ .error .wild → Fits range entries :=
    not_imp_comm.mp wild.mpr
  rw [InRange]
  cases ran : dataParseTime range with
  | ok time =>
    have fits := fits (by rw [ran]; exact nofun)
    exact ⟨fun _ => fits, fun _ => (dataParseTime_loads week ran).2⟩
  | error halt =>
    cases halt with
    | ended =>
      have fits := fits (by rw [ran]; exact nofun)
      exact ⟨fun _ => fits, fun _ => trivial⟩
    | wild => exact ⟨False.elim, fun fits => wild.mp ran fits⟩

/-- A Monday with some hours. -/
def monday (hours : List Int) : JsonValue :=
  .object [(ascii "weekday", .int 1), (ascii "budget", .int 0),
    (ascii "hour", .array (hours.map .int))]

def rangeOf (entries : List JsonValue) : JsonValue :=
  .object [(ascii "start", .string []), (ascii "end", .string []), (ascii "week", .array entries)]

theorem monday_in_range : InRange (rangeOf [monday [0, 23]]) [monday [0, 23]] ↔
    Fits (rangeOf [monday [0, 23]]) [monday [0, 23]] :=
  parse_in_range (rangeOf [monday [0, 23]]) [monday [0, 23]] rfl

/-- A shift by 32, and an eighth day. -/
theorem wild_weeks : ¬ InRange (rangeOf [monday [32]]) [monday [32]] ∧
    ¬ InRange (rangeOf (List.replicate 8 (monday []))) (List.replicate 8 (monday [])) := by
  have shift : dataParseTime (rangeOf [monday [32]]) = .error .wild := rfl
  have eighth : dataParseTime (rangeOf (List.replicate 8 (monday []))) = .error .wild := rfl
  constructor
  · rw [InRange, shift]
    exact id
  · rw [InRange, eighth]
    exact id

end ScheduleTimes
