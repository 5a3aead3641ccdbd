import Mathlib.Algebra.Order.Ring.Rat
import Mathlib.Tactic.Linarith
import RtbAdapter.BiddingStatus
import RtbAdapter.StepRuns

/-!
# The charges, views and clicks of the exchange

The exchange counts charges by DSP, and views and clicks by medium and slot. An update
adds the counts since the last one to redis, in three loops, and then drops them: a loop
that stops at a failing increment loses the rest of its counts, and a price is cut to an
integer. An increment counts as done when `AdRedisHIncRby` reports so, an error reply of
redis included.
-/

namespace ExchangeStatus

open ByteWords CText PendingAmounts RtbBase Std
open BiddingStatus (AdRedisCli HIncRby UpdateClock serverGiven)
open NetProtocol (adSuccess adFailure)

def statusUpdateTime : Nat := 10

/-- Views and clicks are counted alike. -/
inductive Activity where
  | pV | click
  deriving DecidableEq

/-- What the amounts in redis are added up for. -/
inductive Counter where
  | charge (sDspId : Bytes)
  | activity (kind : Activity) (sPid : Bytes)
  deriving DecidableEq

/-- An entry of the three maps, for which an update makes one increment. -/
inductive Entry where
  | charge (sDspId : Bytes)
  | activity (kind : Activity) (iMid : Int32) (sPid : Bytes)

/-- The counts by medium and slot. -/
abbrev Counts (ν : Type) := TreeMap Int32 (TreeMap Bytes ν)

structure AdAdxTaskStatus where
  charge : TreeMap Bytes ℚ := ∅
  chargeNum : TreeMap Bytes ℚ := ∅
  pV : Counts UInt64 := ∅
  pVNum : Counts Int32 := ∅
  click : Counts UInt64 := ∅
  clickNum : Counts Int32 := ∅
  lastTime : Time

/-- `(INT32)` of a `double`: the fraction is dropped, and a value out of the range gives
anything. -/
def int32OfDouble (unset : Int32) (x : ℚ) : Int32 :=
  let n := x.num.tdiv x.den
  if -2 ^ 31 ≤ n ∧ n < 2 ^ 31 then Int32.ofInt n else unset

/-- `m[iMid][sPid]` -/
def Counts.at {ν : Type} [OfNat ν 0] (counts : Counts ν) (iMid : Int32) (sPid : Bytes) : ν :=
  (counts[iMid]?.bind fun slots => slots[sPid]?).getD 0

/-- `m[iMid][sPid] ++` -/
def Counts.up {ν : Type} [OfNat ν 0] [OfNat ν 1] [Add ν] (counts : Counts ν) (iMid : Int32)
    (sPid : Bytes) : Counts ν :=
  let slots := counts[iMid]?.getD ∅
  counts.insert iMid (slots.insert sPid (slots[sPid]?.getD 0 + 1))

/-- An increment that is reported as done, and what it is for. -/
structure Taken extends HIncRby where
  counter : Counter

/-- Where the loops of an update have come to. -/
structure Loop where
  ret : Int
  taken : List Taken

namespace AdAdxTaskStatus

def statusAddCharge (status : AdAdxTaskStatus) (sDspId : Bytes) (fPrice : ℚ) :
    AdAdxTaskStatus :=
  { status with
    charge := status.charge.insert sDspId (status.charge[sDspId]?.getD 0 + fPrice)
    chargeNum := status.chargeNum.insert sDspId (status.chargeNum[sDspId]?.getD 0 + fPrice) }

def statusAddPV (status : AdAdxTaskStatus) (iMid : Int32) (sPid : Bytes) : AdAdxTaskStatus :=
  { status with pV := status.pV.up iMid sPid, pVNum := status.pVNum.up iMid sPid }

def statusAddClick (status : AdAdxTaskStatus) (iMid : Int32) (sPid : Bytes) :
    AdAdxTaskStatus :=
  { status with click := status.click.up iMid sPid, clickNum := status.clickNum.up iMid sPid }

/-- `m_mPVNum` and `m_mClickNum` -/
def num (status : AdAdxTaskStatus) : Activity → Counts Int32
  | .pV => status.pVNum
  | .click => status.clickNum

def statusKey (name sDay text : Bytes) : Bytes :=
  snprintf 128 (ascii "ssp:" ++ name ++ ascii ":" ++ cStr sDay ++ ascii ":" ++ cStr text)

section Loops

variable (ctRedis : AdRedisCli Entry) (clock : UpdateClock) (unset : Int32)

def chargeLoop : List (Bytes × ℚ) → Loop → Loop
  | [], loop => loop
  | (sDspId, fPrice) :: rest, loop =>
    let sKey := statusKey (ascii "charge") clock.sDay sDspId
    let ret := ctRedis.adRedisHIncRby (.charge sDspId) sKey
    if ret ≠ adSuccess then { loop with ret }
    else
      let incr : HIncRby := ⟨sKey, clock.sHour, int32OfDouble unset fPrice⟩
      chargeLoop rest ⟨ret, loop.taken ++ [⟨incr, .charge sDspId⟩]⟩

def activityName : Activity → Bytes
  | .pV => ascii "pv"
  | .click => ascii "click"

/-- The slots of one medium. -/
def slotLoop (kind : Activity) (iMid : Int32) : List (Bytes × Int32) → Loop → Loop
  | [], loop => loop
  | (sPid, count) :: rest, loop =>
    let sKey := statusKey (activityName kind) clock.sDay sPid
    let ret := ctRedis.adRedisHIncRby (.activity kind iMid sPid) sKey
    if ret ≠ adSuccess then { loop with ret }
    else
      slotLoop kind iMid rest
        ⟨ret, loop.taken ++ [⟨⟨sKey, clock.sHour, count⟩, .activity kind sPid⟩]⟩

/-- A failure ends the loop over the slots, and not the one over the media. -/
def mediumLoop (kind : Activity) : List (Int32 × TreeMap Bytes Int32) → Loop → Loop
  | [], loop => loop
  | (iMid, slots) :: rest, loop =>
    mediumLoop kind rest (slotLoop ctRedis clock kind iMid slots.toList loop)

end Loops

/-- The status after an update, what the update returns, and the increments that are reported
as done by `AdRedisHIncRby`. -/
def statusUpdate (status : AdAdxTaskStatus) (server : Bytes) (clock : UpdateClock)
    (ctRedis : AdRedisCli Entry) (unset : Int32) : AdAdxTaskStatus × Loop :=
  if ¬ serverGiven server then (status, ⟨adFailure, []⟩)
  else if status.pV.isEmpty then (status, ⟨adSuccess, []⟩)
  else if status.lastTime.toNow clock.now < statusUpdateTime * 1000000 then
    (status, ⟨adSuccess, []⟩)
  else
    let status := { status with lastTime := clock.last }
    let ret := ctRedis.adRedisConnect
    if ret ≠ adSuccess then (status, ⟨ret, []⟩)
    else
      let charged := chargeLoop ctRedis clock unset status.chargeNum.toList ⟨ret, []⟩
      let viewed := mediumLoop ctRedis clock .pV status.pVNum.toList charged
      let clicked := mediumLoop ctRedis clock .click status.clickNum.toList viewed
      ({ status with chargeNum := ∅, pVNum := ∅, clickNum := ∅ }, clicked)

end AdAdxTaskStatus

inductive Call where
  | addCharge (sDspId : Bytes) (fPrice : ℚ)
  | addPV (iMid : Int32) (sPid : Bytes)
  | addClick (iMid : Int32) (sPid : Bytes)
  | update (server : Bytes) (clock : UpdateClock) (ctRedis : AdRedisCli Entry) (unset : Int32)

/-- The status of a task, beside all that was added to it and all that was reported as done. -/
structure Exchange where
  status : AdAdxTaskStatus
  added : List (Counter × ℚ) := []
  taken : List Taken := []

def step : Call → Exchange → Option Exchange
  | .addCharge sDspId fPrice, e =>
    some { e with
      status := e.status.statusAddCharge sDspId fPrice
      added := e.added ++ [(.charge sDspId, fPrice)] }
  | .addPV iMid sPid, e =>
    some { e with
      status := e.status.statusAddPV iMid sPid
      added := e.added ++ [(.activity .pV sPid, 1)] }
  | .addClick iMid sPid, e =>
    some { e with
      status := e.status.statusAddClick iMid sPid
      added := e.added ++ [(.activity .click sPid, 1)] }
  | .update server clock ctRedis unset, e =>
    let (status, loop) := e.status.statusUpdate server clock ctRedis unset
    some { e with
      status
      taken := e.taken ++ loop.taken }

def start (lastTime : Time) : Exchange := { status := { lastTime } }

def incremented (counter : Counter) (taken : List Taken) : ℚ :=
  amountOf counter (taken.map fun incr => (incr.counter, (incr.value.toInt : ℚ)))

def value (count : Int32) : ℚ := count.toInt

/-- What is still to be added to redis. -/
def AdAdxTaskStatus.pending (status : AdAdxTaskStatus) : Counter → ℚ
  | .charge sDspId => status.chargeNum[sDspId]?.elim 0 id
  | .activity kind sPid => total (fun _ slots => slots[sPid]?.elim 0 value) (status.num kind)

/-- Nothing that was added is lost, and nothing is added twice. -/
def Conserved (e : Exchange) : Prop :=
  ∀ counter, incremented counter e.taken + e.status.pending counter = amountOf counter e.added

/-- The update comes to the loops. -/
def AdAdxTaskStatus.reaches (status : AdAdxTaskStatus) (server : Bytes) (clock : UpdateClock)
    (ctRedis : AdRedisCli Entry) : Prop :=
  serverGiven server ∧ status.pV.isEmpty = false ∧
    statusUpdateTime * 1000000 ≤ status.lastTime.toNow clock.now ∧ ctRedis.connected

/-- No count is at its end when it goes up, and an update that comes to the loops takes
everything: each charge is zero, or a whole number in the range of an `INT32` that is
answered as all the charges ahead of it are, and each view and click is answered. -/
def StepConserves (call : Call) (e : Exchange) : Prop :=
  match call with
  | .addCharge .. => True
  | .addPV iMid sPid => (e.status.pVNum.at iMid sPid).toInt + 1 < 2 ^ 31
  | .addClick iMid sPid => (e.status.clickNum.at iMid sPid).toInt + 1 < 2 ^ 31
  | .update server clock ctRedis _ =>
    e.status.reaches server clock ctRedis →
      (∀ charge ∈ e.status.chargeNum.toList, charge.2 = 0 ∨
        (∃ n : Int32, charge.2 = n.toInt) ∧
          ∀ ahead ∈ e.status.chargeNum.toList, compare ahead.1 charge.1 ≠ .gt →
            ctRedis.answers (.charge ahead.1)) ∧
      ∀ kind, ∀ medium ∈ (e.status.num kind).toList, ∀ slot ∈ medium.2.toList,
        ctRedis.answers (.activity kind medium.1 slot.1)

open AdAdxTaskStatus

section Loops

variable (ctRedis : AdRedisCli Entry) (clock : UpdateClock) (unset : Int32)

theorem hIncRby_success (name text : Bytes) (entry : Entry) :
    ctRedis.adRedisHIncRby entry (statusKey name clock.sDay text) = adSuccess ↔
      ctRedis.answers entry = true := by
  have some : statusKey name clock.sDay text ≠ [] := by
    have front : ascii "ssp:" = 115 :: ascii "sp:" := by decide
    rw [statusKey, front]
    simp [snprintf]
  have differ : adFailure ≠ adSuccess := by decide
  cases answered : ctRedis.answers entry with
  | false => simp [AdRedisCli.adRedisHIncRby, answered, differ]
  | true => simp [AdRedisCli.adRedisHIncRby, answered, some]

def takenCharge (charge : Bytes × ℚ) : Taken where
  sKey := statusKey (ascii "charge") clock.sDay charge.1
  sFiled := clock.sHour
  value := int32OfDouble unset charge.2
  counter := .charge charge.1

def takenSlot (kind : Activity) (slot : Bytes × Int32) : Taken where
  sKey := statusKey (activityName kind) clock.sDay slot.1
  sFiled := clock.sHour
  value := slot.2
  counter := .activity kind slot.1

/-- The charges before the first one that fails are taken. -/
theorem chargeLoop_taken (charges : List (Bytes × ℚ)) (loop : Loop) :
    (chargeLoop ctRedis clock unset charges loop).taken = loop.taken ++
      (charges.takeWhile fun charge => ctRedis.answers (.charge charge.1)).map
        (takenCharge clock unset) := by
  induction charges generalizing loop with
  | nil => simp [chargeLoop]
  | cons charge rest ih =>
    have success := hIncRby_success ctRedis clock (ascii "charge") charge.1 (.charge charge.1)
    by_cases answered : ctRedis.answers (.charge charge.1) = true
    · rw [chargeLoop, if_neg (not_not.mpr (success.mpr answered)), ih,
        List.takeWhile_cons]
      simp [answered, takenCharge]
    · rw [chargeLoop, if_pos (mt success.mp answered), List.takeWhile_cons]
      simp [answered]

theorem slotLoop_taken (kind : Activity) (iMid : Int32) (slots : List (Bytes × Int32))
    (loop : Loop) :
    (slotLoop ctRedis clock kind iMid slots loop).taken = loop.taken ++
      (slots.takeWhile fun slot => ctRedis.answers (.activity kind iMid slot.1)).map
        (takenSlot clock kind) := by
  induction slots generalizing loop with
  | nil => simp [slotLoop]
  | cons slot rest ih =>
    have success := hIncRby_success ctRedis clock (activityName kind) slot.1
      (.activity kind iMid slot.1)
    by_cases answered : ctRedis.answers (.activity kind iMid slot.1) = true
    · rw [slotLoop, if_neg (not_not.mpr (success.mpr answered)), ih,
        List.takeWhile_cons]
      simp [answered, takenSlot]
    · rw [slotLoop, if_pos (mt success.mp answered), List.takeWhile_cons]
      simp [answered]

/-- The slots of a medium that its loop takes. -/
def takes (kind : Activity) (medium : Int32 × TreeMap Bytes Int32) : List (Bytes × Int32) :=
  medium.2.toList.takeWhile fun slot => ctRedis.answers (.activity kind medium.1 slot.1)

theorem mediumLoop_taken (kind : Activity) (media : List (Int32 × TreeMap Bytes Int32))
    (loop : Loop) :
    (mediumLoop ctRedis clock kind media loop).taken = loop.taken ++
      (media.flatMap (takes ctRedis kind)).map (takenSlot clock kind) := by
  induction media generalizing loop with
  | nil => simp [mediumLoop]
  | cons medium rest ih =>
    rw [mediumLoop, ih, slotLoop_taken, List.flatMap_cons, List.map_append, List.append_assoc]
    rfl

end Loops

section Amounts

variable {clock : UpdateClock} {unset : Int32} {ctRedis : AdRedisCli Entry}

theorem incremented_append (counter : Counter) (taken more : List Taken) :
    incremented counter (taken ++ more) =
      incremented counter taken + incremented counter more := by
  simp [incremented]

theorem incremented_charges (sDspId : Bytes) (charges : List (Bytes × ℚ)) :
    incremented (.charge sDspId) (charges.map (takenCharge clock unset)) =
      amountOf sDspId
        (charges.map fun charge => (charge.1, value (int32OfDouble unset charge.2))) := by
  induction charges with
  | nil => rfl
  | cons charge rest ih =>
    rw [List.map_cons, List.map_cons, amountOf_cons, ← ih, incremented, List.map_cons,
      amountOf_cons]
    simp [takenCharge, incremented, value]

theorem incremented_slots (kind : Activity) (sPid : Bytes) (slots : List (Bytes × Int32)) :
    incremented (.activity kind sPid) (slots.map (takenSlot clock kind)) =
      amountOf sPid (slots.map fun slot => (slot.1, value slot.2)) := by
  induction slots with
  | nil => rfl
  | cons slot rest ih =>
    rw [List.map_cons, List.map_cons, amountOf_cons, ← ih, incremented, List.map_cons,
      amountOf_cons]
    simp [takenSlot, incremented, value]

/-- Increments for other counters add nothing. -/
theorem incremented_none {counter : Counter} {taken : List Taken}
    (other : ∀ incr ∈ taken, incr.counter ≠ counter) : incremented counter taken = 0 := by
  apply amountOf_absent
  intro entry listed
  obtain ⟨incr, inside, rfl⟩ := List.mem_map.mp listed
  exact other incr inside

theorem int32OfDouble_intCast (n : Int32) : int32OfDouble unset (n.toInt : ℚ) = n := by
  have lower := Int32.le_toInt n
  have upper := Int32.toInt_lt n
  rw [int32OfDouble]
  simp only [Rat.num_intCast, Rat.den_intCast, Nat.cast_one, Int.tdiv_one]
  rw [if_pos ⟨lower, upper⟩, Int32.ofInt_toInt]

theorem value_int32OfDouble {fPrice : ℚ} :
    value (int32OfDouble unset fPrice) = fPrice ↔ ∃ n : Int32, fPrice = n.toInt := by
  constructor
  · intro whole
    exact ⟨int32OfDouble unset fPrice, whole.symm⟩
  · rintro ⟨n, rfl⟩
    rw [int32OfDouble_intCast, value]

theorem charges_ordered (charges : TreeMap Bytes ℚ) :
    charges.toList.Pairwise fun one other => compare one.1 other.1 = .lt :=
  TreeMap.ordered_keys_toList

/-- A loop over the charges takes all that is pending for a DSP exactly when its charge is
zero, or is whole and is come to. -/
theorem charge_taken_iff (clock : UpdateClock) (unset : Int32) {charges : TreeMap Bytes ℚ}
    {sDspId : Bytes} {fPrice : ℚ}
    (found : charges[sDspId]? = some fPrice) :
    incremented (.charge sDspId)
        ((charges.toList.takeWhile fun charge => ctRedis.answers (.charge charge.1)).map
          (takenCharge clock unset)) = fPrice ↔
      fPrice = 0 ∨ (∃ n : Int32, fPrice = n.toInt) ∧
        ∀ ahead ∈ charges.toList, compare ahead.1 sDspId ≠ .gt →
          ctRedis.answers (.charge ahead.1) := by
  let passes : Bytes × ℚ → Bool := fun charge => ctRedis.answers (.charge charge.1)
  have listed : (sDspId, fPrice) ∈ charges.toList :=
    TreeMap.mem_toList_iff_getElem?_eq_some.mpr found
  have come := mem_takeWhile_iff (charges_ordered charges) passes (sDspId, fPrice)
  have apart : (charges.toList.takeWhile passes).Pairwise fun one other => one.1 ≠ other.1 :=
    toList_apart.sublist (List.takeWhile_sublist passes)
  rw [incremented_charges]
  by_cases taken : (sDspId, fPrice) ∈ charges.toList.takeWhile passes
  · have amount : amountOf sDspId ((charges.toList.takeWhile passes).map fun charge =>
        (charge.1, value (int32OfDouble unset charge.2))) =
          value (int32OfDouble unset fPrice) := by
      apply amountOf_mem
      · exact List.pairwise_map.mpr apart
      · exact List.mem_map.mpr ⟨(sDspId, fPrice), taken, rfl⟩
    have zero : fPrice = 0 → ∃ n : Int32, fPrice = n.toInt := by
      rintro rfl
      exact ⟨0, rfl⟩
    have ahead := (come.mp taken).2
    rw [amount, value_int32OfDouble]
    constructor
    · intro whole
      exact .inr ⟨whole, ahead⟩
    · rintro (none | ⟨whole, _⟩)
      · exact zero none
      · exact whole
  · have amount : amountOf sDspId ((charges.toList.takeWhile passes).map fun charge =>
        (charge.1, value (int32OfDouble unset charge.2))) = 0 := by
      apply amountOf_absent
      intro entry inside same
      obtain ⟨charge, there, rfl⟩ := List.mem_map.mp inside
      have stored := TreeMap.mem_toList_iff_getElem?_eq_some.mp (List.takeWhile_subset _ there)
      rw [same, found] at stored
      obtain ⟨other, price⟩ := charge
      obtain rfl : fPrice = price := Option.some.inj stored
      obtain rfl : other = sDspId := same
      exact taken there
    have missed : ¬ ∀ ahead ∈ charges.toList, compare ahead.1 sDspId ≠ .gt →
        ctRedis.answers (.charge ahead.1) := fun all => taken (come.mpr ⟨listed, all⟩)
    rw [amount]
    constructor
    · intro none
      exact .inl none.symm
    · rintro (none | ⟨_, all⟩)
      · exact none.symm
      · exact absurd all missed

/-- The slots of a medium that its loop leaves. -/
def skips (ctRedis : AdRedisCli Entry) (kind : Activity)
    (medium : Int32 × TreeMap Bytes Int32) : List (Bytes × Int32) :=
  medium.2.toList.dropWhile fun slot => ctRedis.answers (.activity kind medium.1 slot.1)

def slotAmounts (slots : List (Bytes × Int32)) : List (Bytes × ℚ) :=
  slots.map fun slot => (slot.1, value slot.2)

/-- What is pending for a slot is what the loops take and what they leave. -/
theorem total_eq_taken_add_left (ctRedis : AdRedisCli Entry) (kind : Activity) (sPid : Bytes)
    (media : Counts Int32) :
    total (fun _ slots => slots[sPid]?.elim 0 value) media =
      amountOf sPid (slotAmounts (media.toList.flatMap (takes ctRedis kind))) +
        amountOf sPid (slotAmounts (media.toList.flatMap (skips ctRedis kind))) := by
  have each : ∀ medium : Int32 × TreeMap Bytes Int32, medium.2[sPid]?.elim 0 value =
      amountOf sPid (slotAmounts (takes ctRedis kind medium)) +
        amountOf sPid (slotAmounts (skips ctRedis kind medium)) := by
    intro medium
    rw [← amountOf_toList, ← amountOf_append, slotAmounts, slotAmounts, ← List.map_append, takes,
      skips, List.takeWhile_append_dropWhile]
  rw [total, slotAmounts, slotAmounts, List.map_flatMap, List.map_flatMap, amountOf_flatMap,
    amountOf_flatMap, ← List.sum_map_add]
  simp only [each, slotAmounts]

/-- Counts that all stand for something are taken exactly when each of them is answered. -/
theorem slots_taken_iff (kind : Activity) {media : Counts Int32}
    (positive : ∀ medium ∈ media.toList, ∀ slot ∈ medium.2.toList, 0 < slot.2.toInt) :
    (∀ sPid, amountOf sPid (slotAmounts (media.toList.flatMap (takes ctRedis kind))) =
      total (fun _ slots => slots[sPid]?.elim 0 value) media) ↔
      ∀ medium ∈ media.toList, ∀ slot ∈ medium.2.toList,
        ctRedis.answers (.activity kind medium.1 slot.1) := by
  have left : (∀ sPid, amountOf sPid (slotAmounts (media.toList.flatMap (takes ctRedis kind))) =
      total (fun _ slots => slots[sPid]?.elim 0 value) media) ↔
      ∀ sPid, amountOf sPid (slotAmounts (media.toList.flatMap (skips ctRedis kind))) = 0 := by
    refine forall_congr' fun sPid => ?_
    rw [total_eq_taken_add_left ctRedis kind sPid media]
    exact left_eq_add
  have counts : ∀ entry ∈ slotAmounts (media.toList.flatMap (skips ctRedis kind)),
      0 < entry.2 := by
    intro entry listed
    obtain ⟨slot, inside, rfl⟩ := List.mem_map.mp listed
    obtain ⟨medium, there, skipped⟩ := List.mem_flatMap.mp inside
    have some := positive medium there slot (List.dropWhile_subset _ skipped)
    exact Int.cast_pos.mpr some
  rw [left, ← entries_eq_nil_iff counts, slotAmounts, List.map_eq_nil_iff,
    List.flatMap_eq_nil_iff]
  refine forall₂_congr fun medium _ => ?_
  rw [skips, List.dropWhile_eq_nil_iff]

end Amounts

/-- Every count since the last update stands for something. -/
def Counts.Positive (counts : Counts Int32) : Prop :=
  ∀ (iMid : Int32) (slots : TreeMap Bytes Int32), counts[iMid]? = some slots →
    ∀ (sPid : Bytes) (count : Int32), slots[sPid]? = some count → 0 < count.toInt

theorem Counts.Positive.listed {counts : Counts Int32} (positive : counts.Positive) :
    ∀ medium ∈ counts.toList, ∀ slot ∈ medium.2.toList, 0 < slot.2.toInt :=
  fun medium there slot inside =>
    positive medium.1 medium.2 (TreeMap.mem_toList_iff_getElem?_eq_some.mp there) slot.1 slot.2
      (TreeMap.mem_toList_iff_getElem?_eq_some.mp inside)

section Counts

variable {counts : Counts Int32} {iMid : Int32} {sPid : Bytes}

theorem at_eq : counts.at iMid sPid = (counts[iMid]?.getD ∅)[sPid]?.getD 0 := by
  cases found : counts[iMid]? with
  | none => simp [Counts.at, found]
  | some slots => simp [Counts.at, found]

/-- A count that goes up adds one to its slot, unless it is at its end. -/
theorem total_up (other : Bytes) :
    total (fun _ slots => slots[other]?.elim 0 value) (counts.up iMid sPid) =
      total (fun _ slots => slots[other]?.elim 0 value) counts +
        if sPid = other then value (counts.at iMid sPid + 1) - value (counts.at iMid sPid)
        else 0 := by
  have moved := total_insert (fun _ slots => slots[other]?.elim 0 value) counts iMid
    ((counts[iMid]?.getD ∅).insert sPid ((counts[iMid]?.getD ∅)[sPid]?.getD 0 + 1))
  have before : counts[iMid]?.elim 0 (fun slots => slots[other]?.elim 0 value) =
      (counts[iMid]?.getD ∅)[other]?.elim 0 value := by
    cases counts[iMid]? with
    | none => simp
    | some slots => rfl
  have zero : value 0 = 0 := rfl
  rw [before] at moved
  rw [Counts.up, at_eq]
  by_cases same : sPid = other
  · subst same
    rw [TreeMap.getElem?_insert_self, Option.elim_some] at moved
    have old : (counts[iMid]?.getD ∅)[sPid]?.elim 0 value =
        value ((counts[iMid]?.getD ∅)[sPid]?.getD 0) := by
      cases (counts[iMid]?.getD ∅)[sPid]? with
      | none => exact zero.symm
      | some count => rfl
    rw [old] at moved
    rw [if_pos rfl]
    linarith
  · have elsewhere : compare sPid other ≠ .eq := mt Std.compare_eq_iff_eq.mp same
    rw [TreeMap.getElem?_insert, if_neg elsewhere] at moved
    rw [if_neg same]
    linarith

theorem at_nonneg (positive : counts.Positive) (iMid : Int32) (sPid : Bytes) :
    0 ≤ (counts.at iMid sPid).toInt := by
  rw [at_eq]
  cases found : counts[iMid]? with
  | none => simp
  | some slots =>
    cases held : slots[sPid]? with
    | none => simp [held]
    | some count =>
      have some := positive iMid slots found sPid count held
      simp only [Option.getD_some, held]
      omega

theorem succ_toInt {n : Int32} (room : n.toInt + 1 < 2 ^ 31) : (n + 1).toInt = n.toInt + 1 := by
  have one : (1 : Int32).toInt = 1 := rfl
  have lower := Int32.le_toInt n
  rw [Int32.toInt_add, one]
  exact Int.bmod_eq_of_le (by omega) (by omega)

theorem value_succ {n : Int32} : value (n + 1) - value n = 1 ↔ n.toInt + 1 < 2 ^ 31 := by
  have upper := Int32.toInt_lt (n + 1)
  rw [value, value, ← Int.cast_sub, Int.cast_eq_one]
  constructor
  · intro up
    omega
  · intro room
    rw [succ_toInt room]
    omega

theorem Counts.Positive.up (positive : counts.Positive)
    (room : (counts.at iMid sPid).toInt + 1 < 2 ^ 31) : (counts.up iMid sPid).Positive := by
  intro mid slots found pid count held
  have before : ∀ (pid : Bytes) (count : Int32), (counts[iMid]?.getD ∅)[pid]? = some count →
      0 < count.toInt := by
    intro pid count held
    cases found : counts[iMid]? with
    | none => simp [found] at held
    | some slots =>
      rw [found] at held
      exact positive iMid slots found pid count held
  rw [Counts.up, TreeMap.getElem?_insert] at found
  split at found
  · obtain rfl := Option.some.inj found
    rw [TreeMap.getElem?_insert] at held
    split at held
    · obtain rfl := Option.some.inj held
      have nonneg := at_nonneg positive iMid sPid
      rw [← at_eq, succ_toInt room]
      omega
    · exact before pid count held
  · exact positive mid slots found pid count held

end Counts

section Steps

variable {e : Exchange} {status : AdAdxTaskStatus}

/-- What is added and what is pending for it then go up alike. -/
theorem conserved_add (conserved : Conserved e) {counter : Counter} {x y : ℚ}
    (more : ∀ other, status.pending other =
      e.status.pending other + if counter = other then x else 0) :
    Conserved { e with status, added := e.added ++ [(counter, y)] } ↔ x = y := by
  have sums : ∀ other, amountOf other (e.added ++ [(counter, y)]) =
      amountOf other e.added + if counter = other then y else 0 := by
    intro other
    rw [amountOf_append, amountOf_singleton]
  constructor
  · intro all
    have here := all counter
    have was := conserved counter
    rw [more, sums, if_pos rfl, if_pos rfl] at here
    linarith
  · rintro rfl other
    have was := conserved other
    rw [more, sums]
    linarith

theorem addCharge_pending (sDspId : Bytes) (fPrice : ℚ) (other : Counter) :
    (status.statusAddCharge sDspId fPrice).pending other =
      status.pending other + if .charge sDspId = other then fPrice else 0 := by
  cases other with
  | activity kind sPid =>
    cases kind with
    | pV => simp [pending, statusAddCharge, num]
    | click => simp [pending, statusAddCharge, num]
  | charge other =>
    by_cases same : sDspId = other
    · subst same
      simp only [pending, statusAddCharge, TreeMap.getElem?_insert_self, if_pos]
      cases status.chargeNum[sDspId]? with
      | none => simp
      | some charged => simp
    · simp [pending, statusAddCharge, TreeMap.getElem?_insert, same]

theorem addPV_pending (iMid : Int32) (sPid : Bytes) (other : Counter) :
    (status.statusAddPV iMid sPid).pending other = status.pending other +
      if .activity .pV sPid = other then
        value (status.pVNum.at iMid sPid + 1) - value (status.pVNum.at iMid sPid)
      else 0 := by
  cases other with
  | charge other => simp [pending, statusAddPV]
  | activity kind other =>
    cases kind with
    | pV => simp [pending, statusAddPV, num, total_up]
    | click => simp [pending, statusAddPV, num]

theorem addClick_pending (iMid : Int32) (sPid : Bytes) (other : Counter) :
    (status.statusAddClick iMid sPid).pending other = status.pending other +
      if .activity .click sPid = other then
        value (status.clickNum.at iMid sPid + 1) - value (status.clickNum.at iMid sPid)
      else 0 := by
  cases other with
  | charge other => simp [pending, statusAddClick]
  | activity kind other =>
    cases kind with
    | pV => simp [pending, statusAddClick, num]
    | click => simp [pending, statusAddClick, num, total_up]

section Update

variable {server : Bytes} {clock : UpdateClock} {ctRedis : AdRedisCli Entry} {unset : Int32}

/-- All that an update takes when it comes to the loops. -/
def taking (status : AdAdxTaskStatus) (ctRedis : AdRedisCli Entry) (clock : UpdateClock)
    (unset : Int32) : List Taken :=
  (status.chargeNum.toList.takeWhile fun charge => ctRedis.answers (.charge charge.1)).map
      (takenCharge clock unset) ++
    (status.pVNum.toList.flatMap (takes ctRedis .pV)).map (takenSlot clock .pV) ++
    (status.clickNum.toList.flatMap (takes ctRedis .click)).map (takenSlot clock .click)

/-- An update either comes to the loops and leaves nothing pending, or only looks at the
clock. -/
theorem statusUpdate_cases :
    (status.reaches server clock ctRedis ∧
      (status.statusUpdate server clock ctRedis unset).1 =
        { status with lastTime := clock.last, chargeNum := ∅, pVNum := ∅, clickNum := ∅ } ∧
      (status.statusUpdate server clock ctRedis unset).2.taken =
        taking status ctRedis clock unset) ∨
    (¬ status.reaches server clock ctRedis ∧
      (∃ lastTime, (status.statusUpdate server clock ctRedis unset).1 =
        { status with lastTime }) ∧
      (status.statusUpdate server clock ctRedis unset).2.taken = []) := by
  have connect : ctRedis.adRedisConnect = adSuccess ↔ ctRedis.connected = true := by
    have differ : adFailure ≠ adSuccess := by decide
    cases made : ctRedis.connected with
    | false => simp [AdRedisCli.adRedisConnect, made, differ]
    | true => simp [AdRedisCli.adRedisConnect, made]
  simp only [statusUpdate]
  split
  · next refused =>
    exact .inr ⟨fun reached => refused reached.1, ⟨status.lastTime, rfl⟩, rfl⟩
  split
  · next empty =>
    refine .inr ⟨fun reached => ?_, ⟨status.lastTime, rfl⟩, rfl⟩
    rw [reached.2.1] at empty
    cases empty
  split
  · next early =>
    refine .inr ⟨fun reached => ?_, ⟨status.lastTime, rfl⟩, rfl⟩
    have due := reached.2.2.1
    omega
  next given some late =>
  split
  · next failed =>
    exact .inr ⟨fun reached => failed (connect.mpr reached.2.2.2), ⟨clock.last, rfl⟩, rfl⟩
  · next made =>
    have reached : status.reaches server clock ctRedis := by
      refine ⟨?_, ?_, ?_, ?_⟩
      · simpa using given
      · simpa using some
      · omega
      · exact connect.mp (not_not.mp made)
    refine .inl ⟨reached, rfl, ?_⟩
    rw [mediumLoop_taken, mediumLoop_taken, chargeLoop_taken]
    rfl

/-- What an update takes for a charge comes from the loop over the charges. -/
theorem incremented_taking_charge (sDspId : Bytes) :
    incremented (.charge sDspId) (taking status ctRedis clock unset) =
      incremented (.charge sDspId)
        ((status.chargeNum.toList.takeWhile fun charge =>
          ctRedis.answers (.charge charge.1)).map (takenCharge clock unset)) := by
  have none : ∀ kind (slots : List (Bytes × Int32)),
      incremented (.charge sDspId) (slots.map (takenSlot clock kind)) = 0 := by
    intro kind slots
    apply incremented_none
    intro incr listed
    obtain ⟨slot, _, rfl⟩ := List.mem_map.mp listed
    simp [takenSlot]
  rw [taking, incremented_append, incremented_append, none, none, add_zero, add_zero]

theorem incremented_taking_activity (kind : Activity) (sPid : Bytes) :
    incremented (.activity kind sPid) (taking status ctRedis clock unset) =
      amountOf sPid (slotAmounts ((status.num kind).toList.flatMap (takes ctRedis kind))) := by
  have charges : ∀ charges : List (Bytes × ℚ),
      incremented (.activity kind sPid) (charges.map (takenCharge clock unset)) = 0 := by
    intro charges
    apply incremented_none
    intro incr listed
    obtain ⟨charge, _, rfl⟩ := List.mem_map.mp listed
    simp [takenCharge]
  have other : ∀ kind' (slots : List (Bytes × Int32)), kind' ≠ kind →
      incremented (.activity kind sPid) (slots.map (takenSlot clock kind')) = 0 := by
    intro kind' slots different
    apply incremented_none
    intro incr listed
    obtain ⟨slot, _, rfl⟩ := List.mem_map.mp listed
    simp [takenSlot, different]
  rw [taking, incremented_append, incremented_append, charges, zero_add]
  cases kind with
  | pV => rw [other .click _ (by decide), add_zero, incremented_slots, slotAmounts, num]
  | click => rw [other .pV _ (by decide), zero_add, incremented_slots, slotAmounts, num]

/-- The loops take all that is pending exactly when no increment that counts fails, and no
charge is cut. -/
theorem taking_iff (positive : ∀ kind, (status.num kind).Positive) :
    (∀ counter, incremented counter (taking status ctRedis clock unset) =
      status.pending counter) ↔
      (∀ charge ∈ status.chargeNum.toList, charge.2 = 0 ∨
        (∃ n : Int32, charge.2 = n.toInt) ∧
          ∀ ahead ∈ status.chargeNum.toList, compare ahead.1 charge.1 ≠ .gt →
            ctRedis.answers (.charge ahead.1)) ∧
      ∀ kind, ∀ medium ∈ (status.num kind).toList, ∀ slot ∈ medium.2.toList,
        ctRedis.answers (.activity kind medium.1 slot.1) := by
  have slots : ∀ kind, (∀ sPid,
      incremented (.activity kind sPid) (taking status ctRedis clock unset) =
        status.pending (.activity kind sPid)) ↔
      ∀ medium ∈ (status.num kind).toList, ∀ slot ∈ medium.2.toList,
        ctRedis.answers (.activity kind medium.1 slot.1) := by
    intro kind
    rw [← slots_taken_iff kind (positive kind).listed]
    refine forall_congr' fun sPid => ?_
    rw [incremented_taking_activity, pending]
  have charges : (∀ sDspId,
      incremented (.charge sDspId) (taking status ctRedis clock unset) =
        status.pending (.charge sDspId)) ↔
      ∀ charge ∈ status.chargeNum.toList, charge.2 = 0 ∨
        (∃ n : Int32, charge.2 = n.toInt) ∧
          ∀ ahead ∈ status.chargeNum.toList, compare ahead.1 charge.1 ≠ .gt →
            ctRedis.answers (.charge ahead.1) := by
    constructor
    · intro all charge listed
      obtain ⟨sDspId, fPrice⟩ := charge
      have found := TreeMap.mem_toList_iff_getElem?_eq_some.mp listed
      refine (charge_taken_iff clock unset found).mp ?_
      rw [← incremented_taking_charge, all, pending, found]
      rfl
    · intro kept sDspId
      rw [incremented_taking_charge, pending]
      cases found : status.chargeNum[sDspId]? with
      | some fPrice =>
        have listed := TreeMap.mem_toList_iff_getElem?_eq_some.mpr found
        exact (charge_taken_iff clock unset found).mpr (kept _ listed)
      | none =>
        apply incremented_none
        intro incr taken
        obtain ⟨charge, inside, rfl⟩ := List.mem_map.mp taken
        have there := TreeMap.mem_toList_iff_getElem?_eq_some.mp (List.takeWhile_subset _ inside)
        intro same
        obtain rfl : charge.1 = sDspId := Counter.charge.inj same
        rw [found] at there
        cases there
  constructor
  · intro all
    exact ⟨charges.mp fun sDspId => all (.charge sDspId),
      fun kind => (slots kind).mp fun sPid => all (.activity kind sPid)⟩
  · rintro ⟨whole, answered⟩ counter
    cases counter with
    | charge sDspId => exact charges.mpr whole sDspId
    | activity kind sPid => exact (slots kind).mpr (answered kind) sPid

end Update

theorem pending_emptied (status : AdAdxTaskStatus) (lastTime : Time) (counter : Counter) :
    { status with lastTime, chargeNum := ∅, pVNum := ∅, clickNum := ∅ }.pending counter = 0 := by
  cases counter with
  | charge sDspId => simp [pending]
  | activity kind sPid =>
    have nothing : total (fun _ slots => slots[sPid]?.elim 0 value) (∅ : Counts Int32) = 0 :=
      total_empty _
    cases kind with
    | pV => exact nothing
    | click => exact nothing

theorem positive_empty : (∅ : Counts Int32).Positive := by
  intro iMid slots found
  simp at found

theorem update_step {server : Bytes} {clock : UpdateClock} {ctRedis : AdRedisCli Entry}
    {unset : Int32} {after : Exchange}
    (stepped : step (.update server clock ctRedis unset) e = some after) :
    let updated := e.status.statusUpdate server clock ctRedis unset
    after.status = updated.1 ∧ after.taken = e.taken ++ updated.2.taken ∧
      after.added = e.added := by
  obtain rfl := Option.some.inj stepped
  exact ⟨rfl, rfl, rfl⟩

/-- A step keeps the sums exactly under the condition on it. -/
theorem step_conserved {call : Call} {after : Exchange} (conserved : Conserved e)
    (positive : ∀ kind, (e.status.num kind).Positive) (stepped : step call e = some after) :
    Conserved after ↔ StepConserves call e := by
  cases call with
  | addCharge sDspId fPrice =>
    obtain rfl := Option.some.inj stepped
    exact iff_of_true ((conserved_add conserved (addCharge_pending sDspId fPrice)).mpr rfl) trivial
  | addPV iMid sPid =>
    obtain rfl := Option.some.inj stepped
    exact (conserved_add conserved (addPV_pending iMid sPid)).trans value_succ
  | addClick iMid sPid =>
    obtain rfl := Option.some.inj stepped
    exact (conserved_add conserved (addClick_pending iMid sPid)).trans value_succ
  | update server clock ctRedis unset =>
    obtain ⟨updated, more, same⟩ := update_step stepped
    rcases statusUpdate_cases with ⟨reached, emptied, taken⟩ | ⟨missed, ⟨lastTime, only⟩, none⟩
    · rw [StepConserves, imp_iff_right reached, ← taking_iff positive]
      refine forall_congr' fun counter => ?_
      have was := conserved counter
      rw [updated, more, same, emptied, taken, pending_emptied, incremented_append, add_zero, ← was]
      exact add_right_inj _
    · refine iff_of_true ?_ fun reached => absurd reached missed
      intro counter
      have unchanged : after.status.pending counter = e.status.pending counter := by
        rw [updated, only]
        cases counter with
        | charge sDspId => rfl
        | activity kind sPid => cases kind <;> rfl
      rw [unchanged, more, none, List.append_nil, same]
      exact conserved counter

/-- The counts stay positive as long as none is at its end. -/
theorem step_positive {call : Call} {after : Exchange}
    (positive : ∀ kind, (e.status.num kind).Positive) (kept : StepConserves call e)
    (stepped : step call e = some after) (kind : Activity) : (after.status.num kind).Positive := by
  cases call with
  | addCharge sDspId fPrice =>
    obtain rfl := Option.some.inj stepped
    cases kind with
    | pV => exact positive .pV
    | click => exact positive .click
  | addPV iMid sPid =>
    obtain rfl := Option.some.inj stepped
    cases kind with
    | pV => exact (positive .pV).up kept
    | click => exact positive .click
  | addClick iMid sPid =>
    obtain rfl := Option.some.inj stepped
    cases kind with
    | pV => exact positive .pV
    | click => exact (positive .click).up kept
  | update server clock ctRedis unset =>
    rw [(update_step stepped).1]
    rcases statusUpdate_cases with ⟨_, emptied, _⟩ | ⟨_, ⟨lastTime, only⟩, _⟩
    · rw [emptied]
      cases kind with
      | pV => exact positive_empty
      | click => exact positive_empty
    · rw [only]
      cases kind with
      | pV => exact positive .pV
      | click => exact positive .click

end Steps

theorem conserved_start (lastTime : Time) : Conserved (start lastTime) := by
  intro counter
  have nothing : (start lastTime).status.pending counter = 0 :=
    pending_emptied (start lastTime).status lastTime counter
  rw [nothing, add_zero]
  rfl

/-- Along every run the amounts in redis and the pending ones add up to what was added exactly
as long as no count is at its end when it goes up, and every update that comes to the loops
takes everything. -/
theorem conserved_run_iff (lastTime : Time) (calls : List Call) :
    (∀ e ∈ StepRuns.states step (start lastTime) calls, Conserved e) ↔
      StepRuns.Throughout step StepConserves (start lastTime) calls := by
  let kept : Exchange → Prop := fun e => Conserved e ∧ ∀ kind, (e.status.num kind).Positive
  have begun : kept (start lastTime) := by
    refine ⟨conserved_start lastTime, fun kind => ?_⟩
    cases kind with
    | pV => exact positive_empty
    | click => exact positive_empty
  refine StepRuns.states_iff_invariant ?_ ?_ (fun e kept => kept.1) begun calls
  · intro call e after kept stepped conserved
    exact (step_conserved kept.1 kept.2 stepped).mp conserved
  · intro call e after kept met stepped
    exact ⟨(step_conserved kept.1 kept.2 stepped).mpr met, step_positive kept.2 met stepped⟩

/-- A response for one and a half units, and an update that redis answers in all. -/
theorem charge_lost : ¬ ∀ calls, ∀ e ∈ StepRuns.states step (start ⟨0, 0⟩) calls, Conserved e := by
  intro all
  let clock : UpdateClock := ⟨⟨60, 0⟩, ⟨60, 0⟩, ascii "2024-01-01", ascii "12", by decide⟩
  have conserved := all
    [.addCharge (ascii "AiTou") (3 / 2), .addPV 7 (ascii "p"),
      .update (ascii "10.0.0.1:6379") clock ⟨true, fun _ => true⟩ 0]
    _ (.tail _ (.tail _ (.tail _ (.head _))))
  exact absurd (conserved (.charge (ascii "AiTou"))) (by decide +kernel)

end ExchangeStatus
