import Mathlib.Data.List.Perm.Basic
import RtbAdapter.DecoderBounds
import RtbAdapter.FilterMark

/-!
# What the user service answers

A datagram of the user service has the head of the other protocols and a body of pairs.
Text members take the value of their pair; the others hold marks, each with the time at
which it was captured, and the marks go in order of their age.
-/

namespace UserInfo

open ByteWords ByteMemory CText NetProtocol RecordWalk
open FilterMark (AdUserMark)

inductive UserText where
  | pid
  | creativeID
  | executeID
  | league
  | userID
  | cookID
  | userIP
  | userAg
  deriving DecidableEq

/-- The members for which the user service has keys. -/
structure AdUserInfoData extends FilterMark.AdUserData where
  flagID : UInt32 := 0
  cookID : Bytes := []
  pid : Bytes := []
  creativeID : Bytes := []

def AdUserInfoData.get (data : AdUserInfoData) : UserText → Bytes
  | .pid => data.pid
  | .creativeID => data.creativeID
  | .executeID => data.executeID
  | .league => data.league
  | .userID => data.userID
  | .cookID => data.cookID
  | .userIP => data.userIP
  | .userAg => data.userAg

def AdUserInfoData.assign (data : AdUserInfoData) (value : Bytes) : UserText → AdUserInfoData
  | .pid => { data with pid := value }
  | .creativeID => { data with creativeID := value }
  | .executeID => { data with executeID := value }
  | .league => { data with league := value }
  | .userID => { data with userID := value }
  | .cookID => { data with cookID := value }
  | .userIP => { data with userIP := value }
  | .userAg => { data with userAg := value }

/-- What a pair is for. -/
inductive CacheKey where
  | text (member : UserText)
  | keyword
  | url
  | tag
  | cookieValue
  | flag
  deriving DecidableEq

def adCacheKey : UInt8 := 0x05
def adCacheUrl : UInt8 := 0x06
def adCacheTag : UInt8 := 0x07

/-- The cases of the switch. -/
def cacheKeys : List (UInt8 × CacheKey) :=
  [(0x0d, .text .pid), (0x0f, .text .creativeID), (0x0e, .text .executeID), (0x01, .text .league),
    (0x0a, .text .userID), (0x0b, .text .cookID), (0x03, .text .userIP), (0x04, .text .userAg),
    (adCacheKey, .keyword), (adCacheUrl, .url), (adCacheTag, .tag), (0x0c, .cookieValue),
    (0x08, .flag)]

def keyOf (ucKey : UInt8) : Option CacheKey := cacheKeys.lookup ucKey

def adDaySeconds : Int := 24 * 60 * 60

/-- The mark of one piece of a value: a name and the second it was captured, which is past. -/
def markOf (now : Int) (ucTag : UInt8) (sNode : Bytes) : Option AdUserMark :=
  match strSplit sNode (ascii ":") with
  | [sMark, sTime] =>
    let tCapture := atoi sTime
    if tCapture < now then
      some ⟨sMark, UInt32.ofNat (toUInt32 ((now - tCapture).tdiv adDaySeconds + 1)), ucTag⟩
    else none
  | _ => none

def marksIn (now : Int) (ucTag : UInt8) (sStr : Bytes) : List AdUserMark :=
  (strSplit sStr (ascii "|")).filterMap (markOf now ucTag)

/-- An insertion into a multimap with the greatest time first. -/
def insertMark (mark : AdUserMark) : List AdUserMark → List AdUserMark
  | [] => [mark]
  | first :: rest =>
    if first.time < mark.time then mark :: first :: rest else first :: insertMark mark rest

def adUserInfoAddMark (now : Int) (sStr : Bytes) (mMark : List AdUserMark) (ucTag : UInt8) :
    List AdUserMark :=
  (marksIn now ucTag sStr).foldl (fun mMark mark => insertMark mark mMark) mMark

/-- One case of the switch. The clock is read for the marks and for the audience. -/
def AdUserInfoData.store (data : AdUserInfoData) (now : Int × Int) (value : Bytes) :
    CacheKey → AdUserInfoData
  | .text member => data.assign value member
  | .keyword =>
    let data := { data with marks := adUserInfoAddMark now.1 value data.marks adCacheKey }
    if (ascii "KW_").isPrefixOf value then
      { data with audience := adUserInfoAddMark now.2 value data.audience adCacheTag }
    else data
  | .url => { data with marks := adUserInfoAddMark now.1 value data.marks adCacheUrl }
  | .tag => { data with
      marks := adUserInfoAddMark now.1 value data.marks adCacheTag
      audience := adUserInfoAddMark now.2 value data.audience adCacheTag }
  | .cookieValue => { data with
      audience := adUserInfoAddMark now.2 value data.audience adCacheTag }
  | .flag => { data with flagID := atoiUInt value }

/-- What a parse returns and leaves, the bytes it looks at, and the turns of its loop. -/
structure Parse where
  returned : Int
  user : AdUserInfoData
  accesses : List Access
  turns : Nat

def Parse.behind (accesses : List Access) (parse : Parse) : Parse :=
  { parse with accesses := accesses ++ parse.accesses }

/-- One more turn of the loop. -/
def Parse.after (accesses : List Access) (parse : Parse) : Parse :=
  { parse.behind accesses with turns := parse.turns + 1 }

@[simp] theorem behind_accesses (accesses : List Access) (parse : Parse) :
    (parse.behind accesses).accesses = accesses ++ parse.accesses := rfl

@[simp] theorem behind_turns (accesses : List Access) (parse : Parse) :
    (parse.behind accesses).turns = parse.turns := rfl

@[simp] theorem after_accesses (accesses : List Access) (parse : Parse) :
    (parse.after accesses).accesses = accesses ++ parse.accesses := rfl

section Loop

variable (now : Nat → Int × Int) (m : Memory) (iLen iLength : Int)

/-- The loop, with `rest` pairs announced from the `usTotal`-th on. -/
def readPairs : Nat → Nat → Int → AdUserInfoData → Parse
  | 0, _, _, user => ⟨adSuccess, user, [], 0⟩
  | rest + 1, usTotal, pos, user =>
    if toInt32 (pos - 12 + 1) < iLength then
      if kvLenAt m pos ≤ 0 then ⟨adSuccess, user, headAccessesAt .packet pos, 1⟩
      else if toInt32 (pos + 5 + 1 + kvLenAt m pos) > iLen then
        ⟨adSuccess, user, headAccessesAt .packet pos, 1⟩
      else
        match keyOf (m pos) with
        | none => ⟨adSuccess, user, headAccessesAt .packet pos, 1⟩
        | some slot =>
          (readPairs rest (usTotal + 1) (pos + 5 + kvLenAt m pos)
            (user.store (now usTotal) (readBytes m (pos + 5) (kvLenAt m pos).toNat) slot)).after
            (headAccessesAt .packet pos ++ [⟨.packet, pos + 5, (kvLenAt m pos).toNat⟩])
    else ⟨adSuccess, user, [], 0⟩

/-- The head is read before its length is looked at. -/
def headReads : List Access :=
  [⟨.packet, 0, 1⟩, ⟨.packet, 1, 1⟩, ⟨.packet, 2, 1⟩, ⟨.packet, 3, 1⟩, ⟨.packet, 4, 1⟩,
    ⟨.packet, 5, 1⟩, ⟨.packet, 6, 2⟩, ⟨.packet, 8, 4⟩]

def totalAt (m : Memory) : Nat := beNat (readBytes m 6 2)

def lengthAt (m : Memory) : Int := toInt32 (beNat (readBytes m 8 4))

def adUserInfoParse (user : AdUserInfoData) : Parse :=
  if m 0 = 0xe8 then
    if toInt32 (iLen - lengthAt m) ≠ 12 then ⟨adFailure, user, headReads, 0⟩
    else if totalAt m = 0 then ⟨adFailure, user, headReads, 0⟩
    else (readPairs now m iLen (lengthAt m) (totalAt m) 0 12 user).behind headReads
  else ⟨adFailure, user, [⟨.packet, 0, 1⟩], 0⟩

end Loop

section Reads

open DecoderBounds (Inside head_inside)

variable {now : Nat → Int × Int} {m : Memory} {iLen : Int}

/-- The parse stays in the packet, and its loop ends. -/
def Stays (iLen : Int) (parse : Parse) : Prop :=
  (∀ a ∈ parse.accesses, Inside (fun _ => iLen) a) ∧ parse.turns < 2 ^ 16

/-- As long as more than one byte is left there is the head of a pair. The length of a known pair
is taken for its value unless the end of the value is seen to be behind the packet, and the sum in
which that is seen is an `int`. -/
def PairsInside (m : Memory) (iLen : Int) : Nat → Int → Prop
  | 0, _ => True
  | rest + 1, pos =>
    pos + 1 < iLen → pos + 5 ≤ iLen ∧
      (0 < kvLenAt m pos → (keyOf (m pos)).isSome →
        (pos + 6 + kvLenAt m pos < 2 ^ 31 ∨ pos + 5 + kvLenAt m pos ≤ iLen) ∧
          (pos + 5 + kvLenAt m pos < iLen → PairsInside m iLen rest (pos + 5 + kvLenAt m pos)))

/-- A packet that the parser takes for one of its own has a head, and its pairs are inside. -/
def Framed (m : Memory) (iLen : Int) : Prop :=
  m 0 = 0xe8 → 12 ≤ iLen ∧
    (lengthAt m = iLen - 12 → PairsInside m iLen (totalAt m) 12)

theorem kvLenAt_range (m : Memory) (pos : Int) : -2 ^ 31 ≤ kvLenAt m pos ∧ kvLenAt m pos < 2 ^ 31 :=
  toInt32_range _

/-- The guard of the loop. -/
theorem guard_iff {pos : Int} (lower : 12 ≤ pos) (within : pos ≤ iLen) (upper : iLen < 2 ^ 31) :
    toInt32 (pos - 12 + 1) < iLen - 12 ↔ pos + 1 < iLen := by
  rw [toInt32_of_range (by omega) (by omega)]
  omega

/-- The check of a length, which a sum of 2^31 or more passes. -/
theorem check_iff {pos : Int} (lower : 12 ≤ pos) (within : pos + 1 < iLen)
    (upper : iLen < 2 ^ 31) (positive : 0 < kvLenAt m pos) :
    toInt32 (pos + 5 + 1 + kvLenAt m pos) > iLen ↔
      pos + 6 + kvLenAt m pos < 2 ^ 31 ∧ iLen < pos + 6 + kvLenAt m pos := by
  have range := kvLenAt_range m pos
  obtain ⟨k, wrapped⟩ := toInt32_sub_dvd (pos + 5 + 1 + kvLenAt m pos)
  have bounds := toInt32_range (pos + 5 + 1 + kvLenAt m pos)
  omega

theorem readPairs_end {rest usTotal : Nat} {user : AdUserInfoData}
    (upper : iLen < 2 ^ 31) (lower : 12 ≤ iLen) :
    readPairs now m iLen (iLen - 12) rest usTotal iLen user = ⟨adSuccess, user, [], 0⟩ := by
  cases rest with
  | zero => rfl
  | succ rest =>
    rw [readPairs, if_neg]
    rw [guard_iff lower le_rfl upper]
    omega

theorem readPairs_turns (iLength : Int) (rest usTotal : Nat) (pos : Int) (user : AdUserInfoData) :
    (readPairs now m iLen iLength rest usTotal pos user).turns ≤ rest := by
  induction rest generalizing usTotal pos user with
  | zero => exact le_rfl
  | succ rest ih =>
    rw [readPairs]
    split
    · split
      · exact Nat.succ_le_succ (Nat.zero_le rest)
      · split
        · exact Nat.succ_le_succ (Nat.zero_le rest)
        · split
          · exact Nat.succ_le_succ (Nat.zero_le rest)
          · exact Nat.succ_le_succ (ih _ _ _)
    · exact Nat.zero_le _

/-- The loop stays in the packet exactly when its pairs are inside. -/
theorem readPairs_inside_iff (upper : iLen < 2 ^ 31) (rest usTotal : Nat) {pos : Int}
    (user : AdUserInfoData) (lower : 12 ≤ pos) (within : pos ≤ iLen) :
    (∀ a ∈ (readPairs now m iLen (iLen - 12) rest usTotal pos user).accesses,
      Inside (fun _ => iLen) a) ↔ PairsInside m iLen rest pos := by
  induction rest generalizing usTotal pos user with
  | zero => exact iff_of_true (fun a inside => absurd inside List.not_mem_nil) trivial
  | succ rest ih =>
    have head : (∀ a ∈ headAccessesAt .packet pos, Inside (fun _ => iLen) a) ↔ pos + 5 ≤ iLen :=
      head_inside (by omega)
    have range := kvLenAt_range m pos
    rw [readPairs, PairsInside]
    by_cases more : pos + 1 < iLen
    swap
    · rw [if_neg (mt (guard_iff lower within upper).mp more)]
      exact iff_of_true (fun a inside => absurd inside List.not_mem_nil)
        fun here => absurd here more
    rw [if_pos ((guard_iff lower within upper).mpr more)]
    by_cases empty : kvLenAt m pos ≤ 0
    · rw [if_pos empty, head]
      exact ⟨fun inside _ => ⟨inside, fun positive => absurd positive (by omega)⟩,
        fun inside => (inside more).1⟩
    rw [if_neg empty]
    have check := check_iff lower more upper (Int.not_le.mp empty)
    by_cases long : toInt32 (pos + 5 + 1 + kvLenAt m pos) > iLen
    · rw [if_pos long, head]
      have seen := check.mp long
      refine ⟨fun inside _ => ⟨inside, fun _ _ => ⟨.inl seen.1, fun short => ?_⟩⟩,
        fun inside => (inside more).1⟩
      omega
    rw [if_neg long]
    cases known : keyOf (m pos) with
    | none =>
      rw [head]
      refine ⟨fun inside _ => ⟨inside, fun _ there => ?_⟩, fun inside => (inside more).1⟩
      cases there
    | some slot =>
      have open' := mt check.mpr long
      dsimp only
      rw [after_accesses, List.append_assoc, List.forall_mem_append, head, List.singleton_append,
        List.forall_mem_cons, Inside]
      dsimp only
      -- the value ends before the last byte, or at the end of the largest packet, or behind it
      by_cases short : pos + 5 + kvLenAt m pos < iLen
      · rw [ih _ _ (by omega) (by omega)]
        constructor
        · rintro ⟨inside, _, rest⟩ _
          exact ⟨inside, fun _ _ => ⟨.inr (by omega), fun _ => rest⟩⟩
        · intro inside
          obtain ⟨first, after⟩ := inside more
          obtain ⟨_, rest⟩ := after (by omega) rfl
          exact ⟨first, ⟨by omega, by omega⟩, rest short⟩
      by_cases last : pos + 5 + kvLenAt m pos = iLen
      · rw [last, readPairs_end upper (by omega)]
        constructor
        · rintro ⟨inside, _⟩ _
          exact ⟨inside, fun _ _ => ⟨.inr le_rfl, fun before => absurd before (lt_irrefl _)⟩⟩
        · intro inside
          refine ⟨(inside more).1, ⟨by omega, by omega⟩, ?_⟩
          exact fun a listed => absurd listed List.not_mem_nil
      · refine iff_of_false ?_ ?_
        · rintro ⟨_, ⟨_, value⟩, _⟩
          omega
        · intro inside
          obtain ⟨_, after⟩ := inside more
          obtain ⟨bound, _⟩ := after (by omega) rfl
          omega

theorem beNat_two (m : Memory) (p : Int) : beNat (readBytes m p 2) < 2 ^ 16 := by
  have first := (m p).toNat_lt
  have second := (m (p + 1)).toNat_lt
  have value : beNat (readBytes m p 2) = 256 * (m p).toNat + (m (p + 1)).toNat := by
    simp [beNat, readBytes, List.range_succ]
  omega

theorem headReads_inside : (∀ a ∈ headReads, Inside (fun _ => iLen) a) ↔ 12 ≤ iLen := by
  constructor
  · intro all
    have last := (all ⟨.packet, 8, 4⟩ (by decide)).2
    push_cast at last
    omega
  · intro inside a listed
    have bound : ∀ a ∈ headReads, 0 ≤ a.start ∧ a.start + a.size ≤ 12 := by decide
    exact ⟨(bound a listed).1, (bound a listed).2.trans inside⟩

/-- The length in the head is compared with the packet's. -/
theorem length_iff (positive : 0 < iLen) (upper : iLen < 2 ^ 31) :
    toInt32 (iLen - lengthAt m) = 12 ↔ lengthAt m = iLen - 12 := by
  have range := toInt32_range (beNat (readBytes m 8 4))
  change -2 ^ 31 ≤ lengthAt m ∧ lengthAt m < 2 ^ 31 at range
  generalize lengthAt m = iLength at range
  obtain ⟨k, wrapped⟩ := toInt32_sub_dvd (iLen - iLength)
  have bounds := toInt32_range (iLen - iLength)
  omega

theorem failed_stays (user : AdUserInfoData) (accesses : List Access) :
    Stays iLen ⟨adFailure, user, accesses, 0⟩ ↔ ∀ a ∈ accesses, Inside (fun _ => iLen) a :=
  and_iff_left (Nat.two_pow_pos 16)

/-- A parse stays in its packet exactly when the packet is framed. -/
theorem parse_stays_iff (now : Nat → Int × Int) (m : Memory) (iLen : Int) (user : AdUserInfoData)
    (positive : 0 < iLen) (upper : iLen < 2 ^ 31) :
    Stays iLen (adUserInfoParse now m iLen user) ↔ Framed m iLen := by
  rw [adUserInfoParse, Framed]
  by_cases flag : m 0 = 0xe8
  swap
  · rw [if_neg flag, failed_stays, List.forall_mem_singleton, Inside]
    exact iff_of_true ⟨le_rfl, by push_cast; omega⟩ fun here => absurd here flag
  rw [if_pos flag, forall_prop_of_true flag]
  by_cases fits : lengthAt m = iLen - 12
  swap
  · rw [if_pos (mt (length_iff positive upper).mp fits), failed_stays, headReads_inside]
    exact (and_iff_left fun here => absurd here fits).symm
  rw [if_neg (not_not.mpr ((length_iff positive upper).mpr fits)), forall_prop_of_true fits]
  by_cases none : totalAt m = 0
  · rw [if_pos none, none, failed_stays, headReads_inside]
    exact (and_iff_left trivial).symm
  rw [if_neg none, Stays, behind_accesses, behind_turns, List.forall_mem_append, headReads_inside,
    fits]
  have turns : (readPairs now m iLen (iLen - 12) (totalAt m) 0 12 user).turns ≤ totalAt m :=
    readPairs_turns (iLen - 12) (totalAt m) 0 12 user
  have count : totalAt m < 2 ^ 16 := beNat_two m 6
  rw [and_iff_left (lt_of_le_of_lt turns count)]
  exact and_congr_right fun inside => readPairs_inside_iff upper _ _ user le_rfl inside

/-- A packet of the service with the leagues "5" and "6". -/
def twoPairs : Memory := fun a =>
  [0xe8, 0, 0, 0, 0, 0, 0, 2, 0, 0, 0, 12, 1, 0, 0, 0, 1, 0x35, 1, 0, 0, 0, 1, 0x36].getD a.toNat 0

theorem twoPairs_stays_iff :
    Stays 24 (adUserInfoParse (fun _ => (0, 0)) twoPairs 24 {}) ↔ Framed twoPairs 24 :=
  parse_stays_iff (fun _ => (0, 0)) twoPairs 24 {} (by decide) (by decide)

/-- One byte is enough to be taken for a head. -/
theorem oneByte_leaves : ¬ ∀ (m : Memory) (iLen : Int), 0 < iLen → iLen < 2 ^ 31 →
    Stays iLen (adUserInfoParse (fun _ => (0, 0)) m iLen {}) := by
  intro all
  have stays :=
    (all (fun _ => 0xe8) 1 (by decide) (by decide)).1 ⟨.packet, 1, 1⟩ (by decide +kernel)
  exact absurd stays (by decide)

end Reads

end UserInfo
