import RtbAdapter.UserInfo

/-!
# Whether all pairs are taken

The check of a pair asks for one byte more than its value has, so that the last pair of a
packet is dropped. A parse is complete all the same when that pair brings nothing new.
-/

namespace UserInfoPairs

open ByteWords ByteMemory CText KeyValueStream NetProtocol RecordWalk UserInfo
open FilterMark (AdUserMark)

abbrev Pair := UInt8 × Bytes

section Meaning

variable (now : Nat → Int × Int) (user : AdUserInfoData)

/-- The value of the last pair of a text member, or what the member was before. -/
def lastText (kvs : List Pair) (member : UserText) : Bytes :=
  (((kvs.filter fun kv => keyOf kv.1 = some (.text member)).getLast?).map Prod.snd).getD
    (user.get member)

def lastFlag (kvs : List Pair) : UInt32 :=
  (((kvs.filter fun kv => keyOf kv.1 = some .flag).getLast?).map fun kv => atoiUInt kv.2).getD
    user.flagID

/-- The marks of a pair. -/
def markPart (now : Int) (kv : Pair) : List AdUserMark :=
  match keyOf kv.1 with
  | some .keyword => marksIn now adCacheKey kv.2
  | some .url => marksIn now adCacheUrl kv.2
  | some .tag => marksIn now adCacheTag kv.2
  | _ => []

/-- The marks of a pair that count for the audience. -/
def audiencePart (now : Int) (kv : Pair) : List AdUserMark :=
  match keyOf kv.1 with
  | some .keyword => if (ascii "KW_").isPrefixOf kv.2 then marksIn now adCacheTag kv.2 else []
  | some .tag => marksIn now adCacheTag kv.2
  | some .cookieValue => marksIn now adCacheTag kv.2
  | _ => []

/-- The parts of all pairs, each at the clock of its turn. -/
def allParts (part : Nat → Pair → List AdUserMark) (kvs : List Pair) : List AdUserMark :=
  kvs.zipIdx.flatMap fun (kv, i) => part i kv

/-- The data that pairs stand for: text members and the flag hold the last values, and the marks
of each pair are there. -/
structure Holds (kvs : List Pair) (data : AdUserInfoData) : Prop where
  text : ∀ member, data.get member = lastText user kvs member
  flag : data.flagID = lastFlag user kvs
  marks : data.marks.Perm (user.marks ++ allParts (fun i => markPart (now i).1) kvs)
  audience : data.audience.Perm (user.audience ++ allParts (fun i => audiencePart (now i).2) kvs)

/-- A pair after which the pairs stand for the same data. -/
structure Idle (kvs : List Pair) (kv : Pair) : Prop where
  text : ∀ member, keyOf kv.1 = some (.text member) → kv.2 = lastText user kvs member
  flag : keyOf kv.1 = some .flag → atoiUInt kv.2 = lastFlag user kvs
  marks : markPart (now kvs.length).1 kv = []
  audience : audiencePart (now kvs.length).2 kv = []

end Meaning

section Lists

variable {now : Nat → Int × Int} {user data : AdUserInfoData} {kvs : List Pair} {kv : Pair}

theorem lastText_concat (member : UserText) : lastText user (kvs ++ [kv]) member =
    if keyOf kv.1 = some (.text member) then kv.2 else lastText user kvs member := by
  rw [lastText, List.filter_append, lastText]
  by_cases here : keyOf kv.1 = some (.text member)
  · simp [here]
  · simp [here]

theorem lastFlag_concat : lastFlag user (kvs ++ [kv]) =
    if keyOf kv.1 = some .flag then atoiUInt kv.2 else lastFlag user kvs := by
  rw [lastFlag, List.filter_append, lastFlag]
  by_cases here : keyOf kv.1 = some .flag
  · simp [here]
  · simp [here]

theorem allParts_concat (part : Nat → Pair → List AdUserMark) :
    allParts part (kvs ++ [kv]) = allParts part kvs ++ part kvs.length kv := by
  simp [allParts, List.zipIdx_append]

theorem insertMark_perm (mark : AdUserMark) (mMark : List AdUserMark) :
    (insertMark mark mMark).Perm (mark :: mMark) := by
  induction mMark with
  | nil => exact .refl _
  | cons first rest ih =>
    rw [insertMark]
    split
    · exact .refl _
    · exact (ih.cons first).trans (.swap mark first rest)

theorem addMark_perm (at' : Int) (sStr : Bytes) (mMark : List AdUserMark) (ucTag : UInt8) :
    (adUserInfoAddMark at' sStr mMark ucTag).Perm (mMark ++ marksIn at' ucTag sStr) := by
  rw [adUserInfoAddMark]
  generalize marksIn at' ucTag sStr = more
  induction more generalizing mMark with
  | nil => rw [List.foldl_nil, List.append_nil]
  | cons mark more ih =>
    refine (ih (insertMark mark mMark)).trans ?_
    refine ((insertMark_perm mark mMark).append_right more).trans ?_
    exact List.perm_middle.symm

theorem assign_get (data : AdUserInfoData) (value : Bytes) (member other : UserText) :
    (data.assign value member).get other = if member = other then value else data.get other := by
  cases member <;> cases other <;> rfl

theorem assign_rest (data : AdUserInfoData) (value : Bytes) (member : UserText) :
    (data.assign value member).flagID = data.flagID ∧
      (data.assign value member).marks = data.marks ∧
      (data.assign value member).audience = data.audience := by
  cases member <;> exact ⟨rfl, rfl, rfl⟩

theorem store_text (at' : Int × Int) (value : Bytes) (slot : CacheKey) (other : UserText) :
    (data.store at' value slot).get other =
      if slot = .text other then value else data.get other := by
  cases slot with
  | text member =>
    rw [AdUserInfoData.store, assign_get]
    exact if_congr ⟨fun same => same ▸ rfl, fun same => by cases same; rfl⟩ rfl rfl
  | keyword =>
    rw [AdUserInfoData.store]
    dsimp only
    split <;> cases other <;> rfl
  | url => cases other <;> rfl
  | tag => cases other <;> rfl
  | cookieValue => cases other <;> rfl
  | flag => cases other <;> rfl

theorem store_flag (at' : Int × Int) (value : Bytes) (slot : CacheKey) :
    (data.store at' value slot).flagID =
      if slot = .flag then atoiUInt value else data.flagID := by
  cases slot with
  | text member => exact (assign_rest data value member).1
  | keyword =>
    rw [AdUserInfoData.store]
    dsimp only
    split <;> rfl
  | url => rfl
  | tag => rfl
  | cookieValue => rfl
  | flag => rfl

theorem store_marks (at' : Int × Int) {slot : CacheKey} (known : keyOf kv.1 = some slot) :
    (data.store at' kv.2 slot).marks.Perm (data.marks ++ markPart at'.1 kv) := by
  rw [markPart, known]
  cases slot with
  | text member =>
    rw [AdUserInfoData.store, (assign_rest data kv.2 member).2.1]
    exact .of_eq (List.append_nil _).symm
  | keyword =>
    have marks : (data.store at' kv.2 .keyword).marks =
        adUserInfoAddMark at'.1 kv.2 data.marks adCacheKey := by
      rw [AdUserInfoData.store]
      dsimp only
      split <;> rfl
    rw [marks]
    exact addMark_perm at'.1 kv.2 data.marks adCacheKey
  | url => exact addMark_perm at'.1 kv.2 data.marks adCacheUrl
  | tag => exact addMark_perm at'.1 kv.2 data.marks adCacheTag
  | cookieValue => exact .of_eq (List.append_nil _).symm
  | flag => exact .of_eq (List.append_nil _).symm

theorem store_audience (at' : Int × Int) {slot : CacheKey} (known : keyOf kv.1 = some slot) :
    (data.store at' kv.2 slot).audience.Perm (data.audience ++ audiencePart at'.2 kv) := by
  rw [audiencePart, known]
  cases slot with
  | text member =>
    rw [AdUserInfoData.store, (assign_rest data kv.2 member).2.2]
    exact .of_eq (List.append_nil _).symm
  | keyword =>
    rw [AdUserInfoData.store]
    dsimp only
    split
    · exact addMark_perm at'.2 kv.2 data.audience adCacheTag
    · exact .of_eq (List.append_nil _).symm
  | url => exact .of_eq (List.append_nil _).symm
  | tag => exact addMark_perm at'.2 kv.2 data.audience adCacheTag
  | cookieValue => exact addMark_perm at'.2 kv.2 data.audience adCacheTag
  | flag => exact .of_eq (List.append_nil _).symm

/-- A store adds what its pair stands for. -/
theorem store_holds (holds : Holds now user kvs data) {slot : CacheKey}
    (known : keyOf kv.1 = some slot) :
    Holds now user (kvs ++ [kv]) (data.store (now kvs.length) kv.2 slot) where
  text member := by
    rw [store_text, lastText_concat, known, holds.text]
    exact if_congr Option.some_inj.symm rfl rfl
  flag := by
    rw [store_flag, lastFlag_concat, known, holds.flag]
    exact if_congr Option.some_inj.symm rfl rfl
  marks := by
    rw [allParts_concat, ← List.append_assoc]
    exact (store_marks _ known).trans (holds.marks.append_right _)
  audience := by
    rw [allParts_concat, ← List.append_assoc]
    exact (store_audience _ known).trans (holds.audience.append_right _)

theorem user_holds : Holds now user [] user where
  text _ := rfl
  flag := rfl
  marks := .of_eq (List.append_nil _).symm
  audience := .of_eq (List.append_nil _).symm

/-- Data that stand for some pairs stand for one more exactly when it is idle. -/
theorem holds_concat_iff (holds : Holds now user kvs data) :
    Holds now user (kvs ++ [kv]) data ↔ Idle now user kvs kv := by
  have part : ∀ {mMark uMark all part : List AdUserMark}, mMark.Perm (uMark ++ all) →
      (mMark.Perm (uMark ++ (all ++ part)) ↔ part = []) := by
    intro mMark uMark all part same
    constructor
    · intro longer
      have size := longer.length_eq
      have size' := same.length_eq
      rw [List.length_append] at size' size
      rw [List.length_append] at size
      exact List.eq_nil_of_length_eq_zero (by omega)
    · rintro rfl
      rwa [List.append_nil]
  constructor
  · intro more
    refine ⟨fun member here => ?_, fun here => ?_, ?_, ?_⟩
    · have text := more.text member
      rw [lastText_concat, if_pos here, holds.text] at text
      exact text.symm
    · have flag := more.flag
      rw [lastFlag_concat, if_pos here, holds.flag] at flag
      exact flag.symm
    · have marks := more.marks
      rw [allParts_concat] at marks
      exact (part holds.marks).mp marks
    · have audience := more.audience
      rw [allParts_concat] at audience
      exact (part holds.audience).mp audience
  · rintro ⟨text, flag, marks, audience⟩
    refine ⟨fun member => ?_, ?_, ?_, ?_⟩
    · rw [lastText_concat, holds.text]
      split
      · next here => exact (text member here).symm
      · rfl
    · rw [lastFlag_concat, holds.flag]
      split
      · next here => exact (flag here).symm
      · rfl
    · rw [allParts_concat]
      exact (part holds.marks).mpr marks
    · rw [allParts_concat]
      exact (part holds.audience).mpr audience

end Lists

section Packets

variable {now : Nat → Int × Int} {m : Memory} {user data : AdUserInfoData}

/-- The packet of some pairs, with five bytes of the head that the parser does not look into. -/
def packet (bits : Bytes) (kvs : List Pair) : Bytes :=
  0xe8 :: (bits ++ (beBytes 2 kvs.length ++ (beBytes 4 (stream kvs).length ++ stream kvs)))

/-- Pairs as the service sends them. -/
structure Sendable (kvs : List Pair) : Prop where
  known : ∀ kv ∈ kvs, (keyOf kv.1).isSome
  filled : ∀ kv ∈ kvs, kv.2 ≠ []
  count : kvs.length < 2 ^ 16
  size : 12 + (stream kvs).length < 2 ^ 31

/-- The parse succeeds, and the user has what the pairs stand for. -/
def Complete (now : Nat → Int × Int) (user : AdUserInfoData) (kvs : List Pair) (parse : Parse) :
    Prop :=
  parse.returned = adSuccess ∧ Holds now user kvs parse.user

theorem behind_complete (accesses : List Access) (kvs : List Pair) (parse : Parse) :
    Complete now user kvs (parse.behind accesses) ↔ Complete now user kvs parse := Iff.rfl

theorem after_complete (accesses : List Access) (kvs : List Pair) (parse : Parse) :
    Complete now user kvs (parse.after accesses) ↔ Complete now user kvs parse := Iff.rfl

/-- A turn of the loop at a pair of the packet. -/
theorem readPairs_pair {iLen : Int} (upper : iLen < 2 ^ 31) {kv : Pair} {rest : Bytes}
    {slot : CacheKey} (known : keyOf kv.1 = some slot) (filled : kv.2 ≠ []) {pos : Int}
    (lower : 12 ≤ pos) (last : pos + (record kv ++ rest).length = iLen)
    (holds : readBytes m pos (record kv ++ rest).length = record kv ++ rest) (n i : Nat) :
    readPairs now m iLen (iLen - 12) (n + 1) i pos data =
      if rest = [] ∧ iLen < 2 ^ 31 - 1 then
        ⟨adSuccess, data, headAccessesAt .packet pos, 1⟩
      else
        (readPairs now m iLen (iLen - 12) n (i + 1) (pos + 5 + kv.2.length)
          (data.store (now i) kv.2 slot)).after
          (headAccessesAt .packet pos ++ [⟨.packet, pos + 5, kv.2.length⟩]) := by
  obtain ⟨key, size, value, _⟩ := record_parts holds
  rw [List.length_append, record_length] at last
  push_cast at last
  have some' := List.length_pos_iff.mpr filled
  have kvLen : kvLenAt m pos = kv.2.length := by
    rw [kvLenAt, size, beNat_length (by omega)]
  have more : pos + 1 < iLen := by omega
  have check := check_iff (m := m) lower more upper (by omega)
  have none : rest = [] ↔ rest.length = 0 := List.length_eq_zero_iff.symm
  have stop : toInt32 (pos + 5 + 1 + kvLenAt m pos) > iLen ↔ rest = [] ∧ iLen < 2 ^ 31 - 1 := by
    rw [check, none]
    omega
  rw [readPairs, if_pos ((guard_iff lower (by omega) upper).mpr more), if_neg (by omega),
    if_congr stop rfl rfl, key, known, kvLen, Int.toNat_natCast, value]

/-- The loop takes all pairs but the last, and that one too when it ends where an `int` does. -/
theorem readPairs_complete {iLen : Int} (upper : iLen < 2 ^ 31) {done kvs : List Pair} {kv : Pair}
    (known : ∀ kv' ∈ kvs ++ [kv], (keyOf kv'.1).isSome) (filled : ∀ kv' ∈ kvs ++ [kv], kv'.2 ≠ [])
    {pos : Int} (lower : 12 ≤ pos) (last : pos + (stream (kvs ++ [kv])).length = iLen)
    (holds : readBytes m pos (stream (kvs ++ [kv])).length = stream (kvs ++ [kv]))
    (before : Holds now user done data) :
    Complete now user (done ++ (kvs ++ [kv]))
        (readPairs now m iLen (iLen - 12) (kvs ++ [kv]).length done.length pos data) ↔
      iLen = 2 ^ 31 - 1 ∨ Idle now user (done ++ kvs) kv := by
  induction kvs generalizing done data pos with
  | nil =>
    obtain ⟨slot, found⟩ := Option.isSome_iff_exists.mp (known kv (by simp))
    rw [List.nil_append, stream_cons, stream_nil] at last holds
    rw [List.nil_append, List.append_nil, List.length_singleton,
      readPairs_pair upper found (filled kv (by simp)) lower last holds]
    by_cases short : iLen < 2 ^ 31 - 1
    · rw [if_pos ⟨rfl, short⟩, or_iff_right (by omega), ← holds_concat_iff before]
      exact and_iff_right rfl
    · rw [if_neg fun stop => short stop.2, after_complete]
      exact iff_of_true ⟨rfl, store_holds before found⟩ (.inl (by omega))
  | cons first kvs ih =>
    obtain ⟨slot, found⟩ := Option.isSome_iff_exists.mp (known first (by simp))
    have rest : stream (kvs ++ [kv]) ≠ [] := by
      rw [stream_append, stream_cons, record]
      simp
    rw [List.cons_append, stream_cons] at last holds
    obtain ⟨_, _, _, tail⟩ := record_parts holds
    have place : pos + 5 + first.2.length + (stream (kvs ++ [kv])).length = iLen := by
      rw [List.length_append, record_length] at last
      push_cast at last
      omega
    have next := @ih (data.store (now done.length) first.2 slot) (done ++ [first])
      (fun kv' inside => known kv' (.tail _ inside)) (fun kv' inside => filled kv' (.tail _ inside))
      (pos + 5 + first.2.length) (by omega) place (by rwa [add_assoc]) (store_holds before found)
    rw [List.cons_append, List.length_cons,
      readPairs_pair upper found (filled first (by simp)) lower last holds,
      if_neg fun stop => rest stop.1, after_complete]
    have size : (done ++ [first]).length = done.length + 1 := by simp
    rw [size, List.append_assoc, List.append_assoc, List.singleton_append,
      List.singleton_append] at next
    exact next

theorem totalAt_packet {bits : Bytes} {kvs : List Pair} (five : bits.length = 5)
    (count : kvs.length < 2 ^ 16) (size : (stream kvs).length < 2 ^ 31)
    (holds : readBytes m 0 (packet bits kvs).length = packet bits kvs) :
    m 0 = 0xe8 ∧ totalAt m = kvs.length ∧ lengthAt m = (stream kvs).length ∧
      readBytes m 12 (stream kvs).length = stream kvs := by
  obtain ⟨flag, behind⟩ := readBytes_cons_iff.mp holds
  obtain ⟨_, behind⟩ := readBytes_append_iff.mp behind
  obtain ⟨total, behind⟩ := readBytes_append_iff.mp behind
  obtain ⟨length, body⟩ := readBytes_append_iff.mp behind
  rw [five, beBytes_length] at total length body
  rw [beBytes_length] at length body
  refine ⟨flag, ?_, ?_, ?_⟩
  · have whole : totalAt m = beNat (beBytes 2 kvs.length) := congrArg beNat total
    rw [whole, beNat_beBytes_of_lt (by omega)]
  · have whole : lengthAt m = toInt32 (beNat (beBytes 4 (stream kvs).length)) :=
      congrArg (fun bs => toInt32 (beNat bs)) length
    rw [whole, beNat_length size]
  · exact body

/-- A parse of a packet is complete exactly when the last of its pairs is idle, or the packet is
the largest one. -/
theorem parse_complete_iff (now : Nat → Int × Int) (m : Memory) (user : AdUserInfoData)
    (bits : Bytes) (kvs : List Pair) (five : bits.length = 5) (sendable : Sendable kvs)
    (holds : readBytes m 0 (packet bits kvs).length = packet bits kvs) :
    Complete now user kvs (adUserInfoParse now m (packet bits kvs).length user) ↔
      ∃ others last, kvs = others ++ [last] ∧
        ((packet bits kvs).length = 2 ^ 31 - 1 ∨ Idle now user others last) := by
  have size := sendable.size
  obtain ⟨flag, total, length, body⟩ := totalAt_packet five sendable.count (by omega) holds
  have whole : ((packet bits kvs).length : Int) = 12 + (stream kvs).length := by
    simp only [packet, List.length_cons, List.length_append, beBytes_length, five]
    push_cast
    omega
  have fits : lengthAt m = (packet bits kvs).length - 12 := by omega
  have upper : ((packet bits kvs).length : Int) < 2 ^ 31 := by omega
  rw [adUserInfoParse, if_pos flag,
    if_neg (not_not.mpr ((length_iff (by omega) upper).mpr fits)), fits, total]
  rcases List.eq_nil_or_concat' kvs with rfl | ⟨others, last, rfl⟩
  · have differ : adFailure ≠ adSuccess := by decide
    rw [if_pos List.length_nil]
    refine iff_of_false (fun complete => differ complete.1) ?_
    rintro ⟨others, last, none, _⟩
    exact absurd none.symm (by simp)
  · have some' : (others ++ [last]).length ≠ 0 := by simp
    rw [if_neg some', behind_complete]
    have start : Holds now user [] user := user_holds
    have complete := readPairs_complete upper sendable.known sendable.filled le_rfl whole.symm body
      start
    rw [List.nil_append, List.nil_append, List.length_nil] at complete
    rw [complete]
    constructor
    · rintro (largest | idle)
      · exact ⟨others, last, rfl, .inl (by omega)⟩
      · exact ⟨others, last, rfl, .inr idle⟩
    · rintro ⟨others', last', same, largest | idle⟩
      · exact .inl (by omega)
      · obtain ⟨rfl, alone⟩ := List.append_inj' same rfl
        obtain rfl := List.singleton_inj.mp alone
        exact .inr idle

/-- A packet in a memory that is zero behind it. -/
def memoryOf (bytes : Bytes) : Memory := fun a => bytes.getD a.toNat 0

theorem twoLeagues_complete_iff :
    Complete (fun _ => (0, 0)) {} [(1, ascii "5"), (1, ascii "7")]
        (adUserInfoParse (fun _ => (0, 0))
          (memoryOf (packet [0, 0, 3, 0, 0] [(1, ascii "5"), (1, ascii "7")]))
          (packet [0, 0, 3, 0, 0] [(1, ascii "5"), (1, ascii "7")]).length {}) ↔
      ∃ others last, [(1, ascii "5"), (1, ascii "7")] = others ++ [last] ∧
        ((packet [0, 0, 3, 0, 0] [(1, ascii "5"), (1, ascii "7")]).length = 2 ^ 31 - 1 ∨
          Idle (fun _ => (0, 0)) {} others last) :=
  parse_complete_iff (fun _ => (0, 0))
    (memoryOf (packet [0, 0, 3, 0, 0] [(1, ascii "5"), (1, ascii "7")])) {} [0, 0, 3, 0, 0]
    [(1, ascii "5"), (1, ascii "7")] rfl ⟨by decide, by decide, by decide, by decide⟩
    (by decide +kernel)

/-- The only pair of a packet is lost. -/
theorem oneLeague_lost : ¬ ∀ (m : Memory) (bits : Bytes) (kvs : List Pair), bits.length = 5 →
    Sendable kvs → readBytes m 0 (packet bits kvs).length = packet bits kvs →
      Complete (fun _ => (0, 0)) {} kvs
        (adUserInfoParse (fun _ => (0, 0)) m (packet bits kvs).length {}) := by
  intro all
  have complete := all (memoryOf (packet [0, 0, 3, 0, 0] [(1, ascii "5")])) [0, 0, 3, 0, 0]
    [(1, ascii "5")] rfl ⟨by decide, by decide, by decide, by decide⟩ (by decide +kernel)
  exact absurd (complete.2.text .league) (by decide +kernel)

end Packets

end UserInfoPairs
