import RtbAdapter.RecordWalk

/-!
# What a decoder reads of a packet

A decoder stays inside its packet exactly when the packet is well framed: the
head, the expand head and the body lie inside, the body unpacks when there is
anything to walk, and each record the loop reaches has its header and, under a
known key, its value inside. The decoders check little of this themselves.
-/

namespace DecoderBounds

open ByteWords ByteMemory KeyValueStream RtbBase ZlibCalls NetProtocol RecordWalk

/-- The bytes of the access lie in its region, of the given size. -/
def Inside (size : Region → Int) (a : Access) : Prop :=
  0 ≤ a.start ∧ a.start + a.size ≤ size a.region

/-- Every access is inside and the cursor never goes back. -/
def Safe (size : Region → Int) (accesses : List Access) (moves : List Int) : Prop :=
  (∀ a ∈ accesses, Inside size a) ∧ ∀ move ∈ moves, 0 ≤ move

instance (size : Region → Int) (a : Access) : Decidable (Inside size a) :=
  inferInstanceAs (Decidable (_ ∧ _))

instance (size : Region → Int) (accesses : List Access) (moves : List Int) :
    Decidable (Safe size accesses moves) :=
  inferInstanceAs (Decidable (_ ∧ _))

theorem safe_append {size : Region → Int} {first second : List Access} {moves : List Int} :
    Safe size (first ++ second) moves ↔ (∀ a ∈ first, Inside size a) ∧ Safe size second moves := by
  simp only [Safe, List.forall_mem_append, and_assoc]

section Records

variable {T L : Type} [DecidableEq T] [DecidableEq L]
variable {table : Table T L} {region : Region} {m : Memory} {base length : Int}

/-- The records the loop reaches lie below `limit`: each header, and each value under a
known key. A negative length is tolerated under a known key only, where `assign` throws. -/
def RecordsInside (table : Table T L) (m : Memory) (base length limit : Int) : Nat → Int → Prop
  | 0, _ => True
  | rest + 1, pos =>
    toInt32 pos < length →
      base + pos + 5 ≤ limit ∧
        match table (m (base + pos)) with
        | some _ => 0 ≤ kvLenAt m (base + pos) →
            base + pos + 5 + kvLenAt m (base + pos) ≤ limit ∧
              RecordsInside table m base length limit rest (pos + 5 + kvLenAt m (base + pos))
        | none => 0 ≤ kvLenAt m (base + pos) ∧
            RecordsInside table m base length limit rest (pos + 5 + kvLenAt m (base + pos))

theorem head_inside {size : Region → Int} {p : Int} (lower : 0 ≤ p) :
    (∀ a ∈ headAccessesAt region p, Inside size a) ↔ p + 5 ≤ size region := by
  simp only [headAccessesAt, List.forall_mem_cons, Inside, List.not_mem_nil]
  push_cast
  constructor
  · rintro ⟨_, second, _⟩
    omega
  · intro upper
    exact ⟨⟨lower, by omega⟩, ⟨by omega, by omega⟩, fun _ h => h.elim⟩

omit [DecidableEq T] [DecidableEq L] in
theorem after_safe {size : Region → Int} {accesses : List Access} {move : Int} {w : Walk T L} :
    Safe size (w.after accesses move).accesses (w.after accesses move).moves ↔
      (∀ a ∈ accesses, Inside size a) ∧ 0 ≤ move ∧ Safe size w.accesses w.moves := by
  simp only [Walk.after, Safe, List.forall_mem_append, List.forall_mem_cons]
  tauto

/-- The loop is safe exactly on records that lie inside. -/
theorem walk_safe_iff {size : Region → Int} (rest : Nat) (pos : Int) (lower : 0 ≤ base + pos)
    (msg : Message T L) :
    Safe size (walk table region m base length rest pos msg).accesses
        (walk table region m base length rest pos msg).moves ↔
      RecordsInside table m base length (size region) rest pos := by
  induction rest generalizing pos msg with
  | zero => simp [walk, Safe, RecordsInside]
  | succ rest ih =>
    rw [RecordsInside]
    by_cases reached : toInt32 pos < length
    swap
    · simp [walk_end reached, Safe, reached]
    have next : ∀ n : Int, base + (pos + 5 + n) = base + pos + 5 + n := fun n => by ring
    simp only [reached, forall_const]
    cases known : table (m (base + pos)) with
    | none =>
      rw [walk_unknown reached known, after_safe, head_inside lower]
      constructor
      · rintro ⟨header, forward, tail⟩
        exact ⟨header, forward, (ih _ (by rw [next]; omega) msg).mp tail⟩
      · rintro ⟨header, forward, tail⟩
        exact ⟨header, forward, (ih _ (by rw [next]; omega) msg).mpr tail⟩
    | some slot =>
      by_cases negative : kvLenAt m (base + pos) < 0
      · rw [walk_thrown reached known negative]
        simp only [Safe, head_inside lower, List.not_mem_nil, false_implies, implies_true,
          and_true]
        exact ⟨fun header => ⟨header, fun nonneg => absurd negative (by omega)⟩, And.left⟩
      · obtain ⟨n, size_eq⟩ := Int.eq_ofNat_of_zero_le (Int.not_lt.mp negative)
        rw [walk_known reached known size_eq, after_safe, List.forall_mem_append,
          head_inside lower, size_eq, List.forall_mem_singleton]
        have tail := ih (pos + 5 + n) (by rw [next]; omega)
          (slot.assign (readBytes m (base + pos + 5) n) msg)
        rw [tail, Inside]
        constructor
        · rintro ⟨⟨header, value⟩, _, rest_inside⟩
          exact ⟨header, fun _ => ⟨value.2, rest_inside⟩⟩
        · rintro ⟨header, more⟩
          obtain ⟨value, rest_inside⟩ := more (by omega)
          have value_lower : 0 ≤ base + pos + 5 := by omega
          exact ⟨⟨header, value_lower, value⟩, by omega, rest_inside⟩

/-- The loop takes at most as many turns as pairs are announced. -/
theorem walk_turns (rest : Nat) (pos : Int) (msg : Message T L) :
    (walk table region m base length rest pos msg).moves.length ≤ rest := by
  induction rest generalizing pos msg with
  | zero => exact Nat.le_refl 0
  | succ rest ih =>
    by_cases reached : toInt32 pos < length
    swap
    · simp [walk_end reached]
    cases known : table (m (base + pos)) with
    | none =>
      rw [walk_unknown reached known]
      exact Nat.succ_le_succ (ih _ _)
    | some slot =>
      by_cases negative : kvLenAt m (base + pos) < 0
      · rw [walk_thrown reached known negative]
        exact Nat.zero_le _
      · obtain ⟨n, size_eq⟩ := Int.eq_ofNat_of_zero_le (Int.not_lt.mp negative)
        rw [walk_known reached known size_eq]
        exact Nat.succ_le_succ (ih _ _)

omit [DecidableEq T] [DecidableEq L] in
theorem kvLenAt_agree {m' : Memory} {limit p : Int} (agree : AgreeBelow limit m m')
    (lower : 0 ≤ p) (upper : p + 5 ≤ limit) : kvLenAt m p = kvLenAt m' p := by
  rw [kvLenAt, kvLenAt, readBytes_agree agree (by omega) (by push_cast; omega)]

omit [DecidableEq T] [DecidableEq L] in
/-- Whether records lie inside does not depend on bytes beyond the limit. -/
theorem recordsInside_agree {m' : Memory} {limit : Int} (agree : AgreeBelow limit m m')
    (rest : Nat) (pos : Int) (lower : 0 ≤ base + pos)
    (inside : RecordsInside table m base length limit rest pos) :
    RecordsInside table m' base length limit rest pos := by
  induction rest generalizing pos with
  | zero => trivial
  | succ rest ih =>
    intro reached
    obtain ⟨header, body⟩ := inside reached
    have key : m' (base + pos) = m (base + pos) := (agree _ lower (by omega)).symm
    have size := kvLenAt_agree agree lower header
    have next : ∀ n : Int, base + (pos + 5 + n) = base + pos + 5 + n := fun n => by ring
    refine ⟨header, ?_⟩
    rw [key, ← size]
    cases known : table (m (base + pos)) with
    | none =>
      simp only [known] at body
      exact ⟨body.1, ih _ (by rw [next]; omega) body.2⟩
    | some slot =>
      simp only [known] at body
      intro nonneg
      obtain ⟨value, tail⟩ := body nonneg
      exact ⟨value, ih _ (by rw [next]; omega) tail⟩

end Records

variable (z : Zlib) (fault : ZlibFault) (m : Memory) (iLen : Int)

/-- The bytes a decoder may look at: those of the packet, and those `uncompress` produced. -/
def sizes : Region → Int
  | .packet => iLen
  | .scratch => (z.uncompress fault adKbytes4
      (readBytes m (headSize (readHead m)) (toULong (readHead m).length))).produced

variable {T L : Type} [DecidableEq T] [DecidableEq L]

/-- The body lies inside: a compressed one with its whole source, and with its records
inside what it unpacks to when any are announced. -/
def BodyInside (table : Table T L) : Prop :=
  if (readHead m).attr = adProtocolBodyComp then
    headSize (readHead m) + toULong (readHead m).length ≤ iLen ∧
      ((readHead m).total = 0 ∨ ∃ bs,
        z.inflate (readBytes m (headSize (readHead m)) (toULong (readHead m).length)) = some bs ∧
          bs.length ≤ adKbytes4 ∧
          RecordsInside table (put (fun _ => 0) ⟨0, bs⟩) 0 bs.length bs.length (readHead m).total 0)
  else RecordsInside table m (headSize (readHead m)) (readHead m).length iLen (readHead m).total 0

/-- The head and the expand head lie inside. -/
def HeadInside : Prop :=
  adProtocolHeadLen ≤ iLen ∧
    ((readHead m).expand = adProtocolExpand1 → adProtocolHeadLen + adProtocolHeadExpandLen ≤ iLen)

/-- The length in the head is not beyond the packet, as the decoder compares it. -/
def LengthAdmitted : Prop := toInt32 (headSize (readHead m) + (readHead m).length) ≤ iLen

theorem headSize_range (h : AdProtocolHead) : 12 ≤ headSize h := by
  rw [headSize]
  split <;> decide

variable {z fault m iLen} in
theorem inside_packet {p : Int} {n : Nat} :
    Inside (sizes z fault m iLen) ⟨.packet, p, n⟩ ↔ 0 ≤ p ∧ p + n ≤ iLen := Iff.rfl

variable {z fault m iLen} in
theorem headAccesses_inside :
    (∀ a ∈ headAccesses (readHead m), Inside (sizes z fault m iLen) a) ↔ HeadInside m iLen := by
  have pair : (∀ a ∈ [(⟨.packet, 0, 1⟩ : Access), ⟨.packet, 1, 11⟩],
      Inside (sizes z fault m iLen) a) ↔ 12 ≤ iLen := by
    rw [List.forall_mem_cons, List.forall_mem_singleton, inside_packet, inside_packet]
    omega
  have single : (∀ a ∈ [(⟨.packet, 12, 4⟩ : Access)], Inside (sizes z fault m iLen) a) ↔
      16 ≤ iLen := by
    rw [List.forall_mem_singleton, inside_packet]
    omega
  rw [headAccesses, List.forall_mem_append, pair, HeadInside]
  refine and_congr Iff.rfl ?_
  by_cases expand : (readHead m).expand = adProtocolExpand1
  · rw [if_pos expand, single]
    exact ⟨fun upper _ => upper, fun upper => upper expand⟩
  · simp [expand]

theorem put_agree (m m' : Memory) (bs : Bytes) :
    AgreeBelow bs.length (put m ⟨0, bs⟩) (put m' ⟨0, bs⟩) := by
  intro a lower upper
  simp only [put]
  rw [if_pos ⟨lower, by omega⟩, if_pos ⟨lower, by omega⟩]

/-- A call that produces nothing and reports one byte. -/
def boastingFault : ZlibFault := ⟨[], [], 1, fun _ => 0⟩

/-- The walk over the body is safe, whatever zlib leaves behind, exactly when the body
lies inside. -/
theorem body_safe_iff (table : Table T L) (msg : Message T L) :
    (∀ fault, Safe (sizes z fault m iLen)
      (walkBody z fault table m (readHead m) msg).accesses
      (walkBody z fault table m (readHead m) msg).moves) ↔ BodyInside z m iLen table := by
  have lower : 0 ≤ headSize (readHead m) + 0 := by
    have := headSize_range (readHead m)
    omega
  rw [BodyInside]
  by_cases attr : (readHead m).attr = adProtocolBodyComp
  swap
  · simp only [walkBody, if_neg attr]
    exact ⟨fun safe => (walk_safe_iff _ _ lower msg).mp (safe boastingFault),
      fun inside fault => (walk_safe_iff _ _ lower msg).mpr inside⟩
  simp only [walkBody, if_pos attr]
  have source_inside : ∀ fault, Inside (sizes z fault m iLen)
      ⟨.packet, headSize (readHead m), toULong (readHead m).length⟩ ↔
        headSize (readHead m) + toULong (readHead m).length ≤ iLen := fun fault => by
    rw [inside_packet, add_zero] at *
    exact and_iff_right lower
  have split : ∀ fault (w : Walk T L), Safe (sizes z fault m iLen)
      (⟨.packet, headSize (readHead m), toULong (readHead m).length⟩ :: w.accesses) w.moves ↔
        headSize (readHead m) + toULong (readHead m).length ≤ iLen ∧
          Safe (sizes z fault m iLen) w.accesses w.moves := fun fault w => by
    rw [← source_inside fault]
    simp only [Safe, List.forall_mem_cons, and_assoc]
  simp only [split]
  constructor
  · intro safe
    refine ⟨(safe boastingFault).1, ?_⟩
    have walked := (walk_safe_iff _ 0 (by decide) msg).mp (safe boastingFault).2
    rw [sizes] at walked
    by_cases ok : ∃ bs, z.inflate
        (readBytes m (headSize (readHead m)) (toULong (readHead m).length)) = some bs ∧
          bs.length ≤ adKbytes4
    · obtain ⟨bs, inflates, fits⟩ := ok
      rw [uncompress_ok inflates fits] at walked
      exact .inr ⟨bs, inflates, fits, walked⟩
    · -- nothing was produced, and one byte is reported
      have fails : ∀ bs, z.inflate
          (readBytes m (headSize (readHead m)) (toULong (readHead m).length)) = some bs →
            adKbytes4 < bs.length := by
        intro bs inflates
        by_contra fits
        exact ok ⟨bs, inflates, by omega⟩
      rw [uncompress_failed fails] at walked
      cases total : (readHead m).total with
      | zero => exact .inl rfl
      | succ total' =>
        rw [total] at walked
        have header := (walked (by decide)).1
        exact absurd header (by decide)
  · rintro ⟨source, none | ⟨bs, inflates, fits, inside⟩⟩ fault
    · rw [none]
      exact ⟨source, by simp [walk, Safe]⟩
    · refine ⟨source, ?_⟩
      rw [walk_safe_iff _ 0 (by decide), sizes, uncompress_ok inflates fits]
      exact recordsInside_agree (put_agree _ _ bs) _ 0 (by decide) inside

variable {z fault m} in
theorem body_turns (table : Table T L) (msg : Message T L) :
    (walkBody z fault table m (readHead m) msg).moves.length ≤ (readHead m).total := by
  rw [walkBody]
  split
  · exact walk_turns _ _ _
  · exact walk_turns _ _ _

/-- The request decoder stays inside, never moves back and ends. -/
def RequestBounded : Prop :=
  ∀ (fault : ZlibFault) (p : AdRtbProtocol) (now : Time),
    let d := p.tlvToRequest z fault now m iLen
    Safe (sizes z fault m iLen) d.accesses d.moves ∧ d.moves.length ≤ (readHead m).total

/-- The response decoder stays inside, never moves back and ends. -/
def ResponseBounded : Prop :=
  ∀ (fault : ZlibFault) (p : AdRtbProtocol),
    let d := p.tlvToResponse z fault m iLen
    Safe (sizes z fault m iLen) d.accesses d.moves ∧ d.moves.length ≤ (readHead m).total

/-- A packet the request decoder is safe on. -/
def RequestFramed : Prop :=
  adProtocolHeadLen ≤ iLen → m 0 = adProtocolFlag →
    HeadInside m iLen ∧ (LengthAdmitted m iLen → BodyInside z m iLen requestTable)

/-- A packet the response decoder is safe on: it reads the head without a look at `iLen`. -/
def ResponseFramed : Prop :=
  1 ≤ iLen ∧ (m 0 = adProtocolFlag → HeadInside m iLen ∧
    (LengthAdmitted m iLen → (readHead m).result = adProtocolResultOk →
      BodyInside z m iLen responseTable))

variable {z fault m iLen}

variable (z fault m iLen) in
/-- What the request decoder reads, by how far it gets. -/
theorem request_reads (p : AdRtbProtocol) (now : Time) :
    let d := p.tlvToRequest z fault now m iLen
    let w := walkBody z fault requestTable m (readHead m) (AdRtbRequest.clear now).toMessage
    (iLen < adProtocolHeadLen → d.accesses = [] ∧ d.moves = []) ∧
    (adProtocolHeadLen ≤ iLen → m 0 ≠ adProtocolFlag →
      d.accesses = [⟨.packet, 0, 1⟩] ∧ d.moves = []) ∧
    (adProtocolHeadLen ≤ iLen → m 0 = adProtocolFlag → ¬ LengthAdmitted m iLen →
      d.accesses = headAccesses (readHead m) ∧ d.moves = []) ∧
    (adProtocolHeadLen ≤ iLen → m 0 = adProtocolFlag → LengthAdmitted m iLen →
      d.accesses = headAccesses (readHead m) ++ w.accesses ∧ d.moves = w.moves) := by
  dsimp only
  rw [AdRtbProtocol.tlvToRequest]
  refine ⟨fun short => ?_, fun long flag => ?_, fun long flag refused => ?_,
    fun long flag admitted => ?_⟩
  · rw [if_pos short]
    exact ⟨rfl, rfl⟩
  · rw [if_neg (by omega), if_pos flag]
    exact ⟨rfl, rfl⟩
  · rw [if_neg (by omega), if_neg (not_not.mpr flag)]
    simp only
    rw [if_pos (by rw [LengthAdmitted] at refused; omega)]
    exact ⟨rfl, rfl⟩
  · rw [if_neg (by omega), if_neg (not_not.mpr flag)]
    simp only
    rw [if_neg (by rw [LengthAdmitted] at admitted; omega)]
    split <;> exact ⟨rfl, rfl⟩

variable (z fault m iLen) in
/-- What the response decoder reads, by how far it gets. -/
theorem response_reads (p : AdRtbProtocol) :
    let d := p.tlvToResponse z fault m iLen
    let w := walkBody z fault responseTable m (readHead m) AdRtbResponse.clear.toMessage
    (m 0 ≠ adProtocolFlag → d.accesses = [⟨.packet, 0, 1⟩] ∧ d.moves = []) ∧
    (m 0 = adProtocolFlag →
      ¬ (LengthAdmitted m iLen ∧ (readHead m).result = adProtocolResultOk) →
        d.accesses = headAccesses (readHead m) ∧ d.moves = []) ∧
    (m 0 = adProtocolFlag →
      LengthAdmitted m iLen ∧ (readHead m).result = adProtocolResultOk →
        d.accesses = headAccesses (readHead m) ++ w.accesses ∧ d.moves = w.moves) := by
  dsimp only
  rw [AdRtbProtocol.tlvToResponse]
  refine ⟨fun flag => ?_, fun flag refused => ?_, fun flag admitted => ?_⟩
  · rw [if_pos flag]
    exact ⟨rfl, rfl⟩
  · rw [if_neg (not_not.mpr flag)]
    simp only
    rw [if_pos (by rw [LengthAdmitted] at refused; rw [← not_le]; tauto)]
    exact ⟨rfl, rfl⟩
  · rw [if_neg (not_not.mpr flag)]
    simp only
    rw [if_neg (by rw [LengthAdmitted] at admitted; rw [← not_le]; tauto)]
    split <;> exact ⟨rfl, rfl⟩

theorem request_bounded_iff : RequestBounded z m iLen ↔ RequestFramed z m iLen := by
  constructor
  · intro bounded long flag
    refine ⟨?_, fun admitted => ?_⟩
    · have safe := (bounded boastingFault AdRtbProtocol.fresh ⟨0, 0⟩).1
      obtain ⟨_, _, stopped, walked⟩ :=
        request_reads z boastingFault m iLen AdRtbProtocol.fresh ⟨0, 0⟩
      by_cases admitted : LengthAdmitted m iLen
      · obtain ⟨accesses, moves⟩ := walked long flag admitted
        rw [accesses, moves, safe_append, headAccesses_inside] at safe
        exact safe.1
      · rw [(stopped long flag admitted).1] at safe
        exact headAccesses_inside.mp safe.1
    · refine (body_safe_iff z m iLen requestTable
        (AdRtbRequest.clear ⟨0, 0⟩).toMessage).mp fun fault => ?_
      obtain ⟨_, _, _, walked⟩ := request_reads z fault m iLen AdRtbProtocol.fresh ⟨0, 0⟩
      obtain ⟨accesses, moves⟩ := walked long flag admitted
      have safe := (bounded fault AdRtbProtocol.fresh ⟨0, 0⟩).1
      rw [accesses, moves, safe_append] at safe
      exact safe.2
  · intro framed fault p now
    obtain ⟨short, foreign, stopped, walked⟩ := request_reads z fault m iLen p now
    dsimp only
    by_cases long : adProtocolHeadLen ≤ iLen
    swap
    · rw [(short (by omega)).1, (short (by omega)).2]
      simp [Safe]
    by_cases flag : m 0 = adProtocolFlag
    swap
    · rw [(foreign long flag).1, (foreign long flag).2]
      rw [adProtocolHeadLen] at long
      refine ⟨⟨?_, by simp⟩, by simp⟩
      rw [List.forall_mem_singleton, inside_packet]
      omega
    obtain ⟨head, body⟩ := framed long flag
    by_cases admitted : LengthAdmitted m iLen
    · rw [(walked long flag admitted).1, (walked long flag admitted).2, safe_append,
        headAccesses_inside]
      exact ⟨⟨head, (body_safe_iff z m iLen requestTable _).mpr (body admitted) fault⟩,
        body_turns _ _⟩
    · rw [(stopped long flag admitted).1, (stopped long flag admitted).2]
      exact ⟨⟨headAccesses_inside.mpr head, by simp⟩, by simp⟩

theorem response_bounded_iff : ResponseBounded z m iLen ↔ ResponseFramed z m iLen := by
  constructor
  · intro bounded
    have safe := (bounded boastingFault AdRtbProtocol.fresh).1
    obtain ⟨foreign, stopped, walked⟩ := response_reads z boastingFault m iLen AdRtbProtocol.fresh
    by_cases flag : m 0 = adProtocolFlag
    swap
    · rw [(foreign flag).1, (foreign flag).2, Safe, List.forall_mem_singleton,
        inside_packet] at safe
      exact ⟨by have := safe.1.2; omega, fun same => absurd same flag⟩
    have head : HeadInside m iLen := by
      by_cases admitted : LengthAdmitted m iLen ∧ (readHead m).result = adProtocolResultOk
      · obtain ⟨accesses, moves⟩ := walked flag admitted
        rw [accesses, moves, safe_append, headAccesses_inside] at safe
        exact safe.1
      · rw [(stopped flag admitted).1] at safe
        exact headAccesses_inside.mp safe.1
    refine ⟨by have := head.1; rw [adProtocolHeadLen] at this; omega, fun _ =>
      ⟨head, fun admitted ok => ?_⟩⟩
    refine (body_safe_iff z m iLen responseTable AdRtbResponse.clear.toMessage).mp fun fault => ?_
    obtain ⟨_, _, walked⟩ := response_reads z fault m iLen AdRtbProtocol.fresh
    obtain ⟨accesses, moves⟩ := walked flag ⟨admitted, ok⟩
    have safe := (bounded fault AdRtbProtocol.fresh).1
    rw [accesses, moves, safe_append] at safe
    exact safe.2
  · rintro ⟨some_byte, framed⟩ fault p
    obtain ⟨foreign, stopped, walked⟩ := response_reads z fault m iLen p
    dsimp only
    by_cases flag : m 0 = adProtocolFlag
    swap
    · rw [(foreign flag).1, (foreign flag).2]
      refine ⟨⟨?_, by simp⟩, by simp⟩
      rw [List.forall_mem_singleton, inside_packet]
      omega
    obtain ⟨head, body⟩ := framed flag
    by_cases admitted : LengthAdmitted m iLen ∧ (readHead m).result = adProtocolResultOk
    · rw [(walked flag admitted).1, (walked flag admitted).2, safe_append, headAccesses_inside]
      exact ⟨⟨head, (body_safe_iff z m iLen responseTable _).mpr
        (body admitted.1 admitted.2) fault⟩, body_turns _ _⟩
    · rw [(stopped flag admitted).1, (stopped flag admitted).2]
      exact ⟨⟨headAccesses_inside.mpr head, by simp⟩, by simp⟩

/-- Both decoders stay inside, never move back and end exactly on well framed packets. -/
theorem decoder_bounds_iff (z : Zlib) (m : Memory) (iLen : Int) :
    (RequestBounded z m iLen ↔ RequestFramed z m iLen) ∧
      (ResponseBounded z m iLen ↔ ResponseFramed z m iLen) :=
  ⟨request_bounded_iff, response_bounded_iff⟩

/-- An uncompressed packet of thirteen bytes that announces one pair and has only its key. -/
def truncatedPacket : Bytes := [0xe8, 0x1a, 1, 1, 0, 0, 0, 1, 0, 0, 0, 1, 102]

theorem truncated_packet_overread :
    ¬ RequestBounded storedZlib (put (fun _ => 0) ⟨0, truncatedPacket⟩) 13 ∧
      ¬ ResponseBounded storedZlib (put (fun _ => 0) ⟨0, truncatedPacket⟩) 13 := by
  constructor
  · intro bounded
    have safe := (bounded boastingFault AdRtbProtocol.fresh ⟨0, 0⟩).1
    exact absurd safe (by decide)
  · intro bounded
    have safe := (bounded boastingFault AdRtbProtocol.fresh).1
    exact absurd safe (by decide)

end DecoderBounds
