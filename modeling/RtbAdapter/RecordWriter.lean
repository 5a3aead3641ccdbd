import RtbAdapter.NetProtocol

/-!
# What a pass over the members writes

A pass over a list of keyed values writes the records the space checks accept,
one behind the other, and stops at the first refusal. Whether a pass completes
and what it has written are functions of the values alone.
-/

namespace RecordWriter

open ByteWords ByteMemory KeyValueStream RtbBase NetProtocol

/-- The records accepted with this much space, up to the first refusal. -/
def accepted : Int → List (UInt8 × Bytes) → List (UInt8 × Bytes)
  | _, [] => []
  | space, kv :: kvs =>
    if space < toInt32 (5 + kv.2.length) then []
    else kv :: accepted (toInt32 (space - (5 + kv.2.length))) kvs

/-- Records written one behind the other from an address on. -/
def placed : Int → List (UInt8 × Bytes) → List Write
  | _, [] => []
  | p, kv :: kvs => ⟨p, record kv⟩ :: placed (p + (5 + kv.2.length)) kvs

/-- The space checks accept every value of a pass. -/
def Accepts (space : Int) (kvs : List (UInt8 × Bytes)) : Prop :=
  accepted space (present kvs) = present kvs

instance (space : Int) (kvs : List (UInt8 × Bytes)) : Decidable (Accepts space kvs) :=
  inferInstanceAs (Decidable (_ = _))

/-- Empty values take no part in a pass. -/
theorem pass_present (c : Cursor) (kvs : List (UInt8 × Bytes)) :
    kvs.foldlM adProtocolKv c = (present kvs).foldlM adProtocolKv c := by
  induction kvs generalizing c with
  | nil => rfl
  | cons kv kvs ih =>
    by_cases empty : kv.2 = []
    · have same : present (kv :: kvs) = present kvs := by simp [present, empty]
      rw [same, List.foldlM_cons, adProtocolKv, if_pos empty]
      exact ih c
    · rw [present_cons_value empty, List.foldlM_cons, List.foldlM_cons]
      cases adProtocolKv c kv with
      | error writes => rfl
      | ok c' => exact ih c'

theorem step_refused {c : Cursor} {kv : UInt8 × Bytes} (value : kv.2 ≠ [])
    (short : c.space < toInt32 (5 + kv.2.length)) : adProtocolKv c kv = .error c.writes := by
  rw [adProtocolKv, if_neg value, if_pos short]

theorem step_accepted {c : Cursor} {kv : UInt8 × Bytes} (value : kv.2 ≠ [])
    (room : ¬ c.space < toInt32 (5 + kv.2.length)) :
    adProtocolKv c kv =
      .ok { c.write kv with space := toInt32 (c.space - (5 + kv.2.length)) } := by
  rw [adProtocolKv, if_neg value, if_neg room]

/-- A completed pass accepted everything and moved the cursor over all of it. -/
theorem pass_ok {c c' : Cursor} {kvs : List (UInt8 × Bytes)} (values : ∀ kv ∈ kvs, kv.2 ≠ [])
    (done : kvs.foldlM adProtocolKv c = .ok c') :
    accepted c.space kvs = kvs ∧ c'.pos = c.pos + (stream kvs).length ∧
      c'.writes = c.writes ++ placed c.pos kvs ∧
      (c.count < 2 ^ 16 → c'.count = (c.count + kvs.length) % 2 ^ 16) := by
  induction kvs generalizing c with
  | nil =>
    cases done
    refine ⟨rfl, by simp, by simp [placed], fun small => ?_⟩
    rw [List.length_nil, Nat.add_zero, Nat.mod_eq_of_lt small]
  | cons kv kvs ih =>
    have value := values kv List.mem_cons_self
    rw [List.foldlM_cons] at done
    by_cases short : c.space < toInt32 (5 + kv.2.length)
    · rw [step_refused value short] at done
      cases done
    · rw [step_accepted value short] at done
      obtain ⟨all, pos, writes, count⟩ :=
        ih (fun kv h => values kv (List.mem_cons_of_mem _ h)) done
      refine ⟨?_, ?_, ?_, fun small => ?_⟩
      · rw [accepted, if_neg short]
        exact congrArg _ all
      · rw [pos]
        simp only [Cursor.write, stream_cons, List.length_append, record_length]
        push_cast
        omega
      · rw [writes]
        simp [Cursor.write, placed]
      · have small' : (c.count + 1) % 2 ^ 16 < 2 ^ 16 := Nat.mod_lt _ (by decide)
        rw [count small', List.length_cons]
        simp only [Cursor.write]
        omega

/-- A refused pass leaves the accepted records behind. -/
theorem pass_error {c : Cursor} {kvs : List (UInt8 × Bytes)} {writes : List Write}
    (values : ∀ kv ∈ kvs, kv.2 ≠ []) (refused : kvs.foldlM adProtocolKv c = .error writes) :
    accepted c.space kvs ≠ kvs ∧ writes = c.writes ++ placed c.pos (accepted c.space kvs) := by
  induction kvs generalizing c with
  | nil => cases refused
  | cons kv kvs ih =>
    have value := values kv List.mem_cons_self
    rw [List.foldlM_cons] at refused
    by_cases short : c.space < toInt32 (5 + kv.2.length)
    · rw [step_refused value short] at refused
      cases refused
      rw [accepted, if_pos short]
      exact ⟨List.cons_ne_nil _ _ ∘ Eq.symm, by simp [placed]⟩
    · rw [step_accepted value short] at refused
      obtain ⟨some_left, writes⟩ :=
        ih (fun kv h => values kv (List.mem_cons_of_mem _ h)) refused
      rw [accepted, if_neg short]
      refine ⟨fun same => some_left (List.cons.inj same).2, ?_⟩
      rw [writes]
      simp [Cursor.write, placed]

theorem present_values {kvs : List (UInt8 × Bytes)} : ∀ kv ∈ present kvs, kv.2 ≠ [] := by
  intro kv h
  simpa using (List.mem_filter.mp h).2

/-- Whether a pass completes is decided by the space checks alone. -/
theorem pass_cases (c : Cursor) (kvs : List (UInt8 × Bytes)) :
    (Accepts c.space kvs ∧ ∃ c', kvs.foldlM adProtocolKv c = .ok c' ∧
      c'.pos = c.pos + (stream (present kvs)).length ∧
      c'.writes = c.writes ++ placed c.pos (present kvs) ∧
      (c.count < 2 ^ 16 → c'.count = (c.count + (present kvs).length) % 2 ^ 16)) ∨
    (¬ Accepts c.space kvs ∧ kvs.foldlM adProtocolKv c =
      .error (c.writes ++ placed c.pos (accepted c.space (present kvs)))) := by
  rw [pass_present]
  cases outcome : (present kvs).foldlM adProtocolKv c with
  | ok c' =>
    obtain ⟨all, rest⟩ := pass_ok present_values outcome
    exact .inl ⟨all, c', rfl, rest⟩
  | error writes =>
    obtain ⟨some_left, same⟩ := pass_error present_values outcome
    exact .inr ⟨some_left, by rw [same]⟩

theorem replay_placed_before (m : Memory) (kvs : List (UInt8 × Bytes)) (p q : Int) (n : Nat)
    (before : q + n ≤ p) : readBytes (replay m (placed p kvs)) q n = readBytes m q n := by
  induction kvs generalizing m p with
  | nil => rfl
  | cons kv kvs ih =>
    rw [placed, replay_cons, ih _ _ (by omega)]
    exact readBytes_put_disjoint m _ q n (.inl before)

/-- The records of a pass can be read back as one stream. -/
theorem replay_placed (m : Memory) (kvs : List (UInt8 × Bytes)) (p : Int) :
    readBytes (replay m (placed p kvs)) p (stream kvs).length = stream kvs := by
  induction kvs generalizing m p with
  | nil => rfl
  | cons kv kvs ih =>
    have size : (record kv).length = 5 + kv.2.length := record_length kv
    rw [placed, replay_cons, stream_cons, List.length_append, readBytes_add]
    have next : p + ((record kv).length : Nat) = p + (5 + kv.2.length) := by
      rw [size]
      push_cast
      rfl
    rw [next, ih, replay_placed_before _ _ _ _ _ (by omega)]
    exact congrArg (· ++ stream kvs) (readBytes_put_self m ⟨p, record kv⟩)

theorem placed_inside (kvs : List (UInt8 × Bytes)) (p size : Int) (lower : 0 ≤ p)
    (upper : kvs ≠ [] → p + (stream kvs).length ≤ size) : ∀ w ∈ placed p kvs, w.Inside size := by
  induction kvs generalizing p with
  | nil => intro w hw; cases hw
  | cons kv kvs ih =>
    have room := upper (List.cons_ne_nil _ _)
    simp only [stream_cons, List.length_append, record_length, Nat.cast_add] at room
    intro w hw
    rcases List.mem_cons.mp hw with rfl | tail
    · refine ⟨lower, ?_⟩
      simp only [record_length]
      push_cast at room ⊢
      omega
    · exact ih (p + (5 + kv.2.length)) (by omega) (fun _ => by push_cast at room ⊢; omega) w tail

/-- The last record of a pass reaches the end of its stream. -/
theorem placed_reaches {kvs : List (UInt8 × Bytes)} (some_kv : kvs ≠ []) (p : Int) :
    ∃ w ∈ placed p kvs, w.start + w.data.length = p + (stream kvs).length := by
  induction kvs generalizing p with
  | nil => exact absurd rfl some_kv
  | cons kv kvs ih =>
    by_cases last : kvs = []
    · subst last
      refine ⟨⟨p, record kv⟩, List.mem_cons_self, ?_⟩
      simp
    · obtain ⟨w, hw, hend⟩ := ih last (p + (5 + kv.2.length))
      refine ⟨w, List.mem_cons_of_mem _ hw, ?_⟩
      rw [hend]
      simp only [stream_cons, List.length_append, record_length]
      push_cast
      omega

theorem placed_append (p : Int) (kvs kvs' : List (UInt8 × Bytes)) :
    placed p (kvs ++ kvs') = placed p kvs ++ placed (p + (stream kvs).length) kvs' := by
  induction kvs generalizing p with
  | nil => simp [placed]
  | cons kv kvs ih =>
    have next : p + (5 + kv.2.length) + (stream kvs).length =
        p + (stream (kv :: kvs)).length := by
      rw [stream_cons, List.length_append, record_length]
      push_cast
      ring
    rw [List.cons_append, placed, placed, ih, next, List.cons_append]

/-- Records stay inside exactly when their stream does. -/
theorem placed_inside_iff {kvs : List (UInt8 × Bytes)} {p size : Int} (lower : 0 ≤ p)
    (room : p ≤ size) : (∀ w ∈ placed p kvs, w.Inside size) ↔ p + (stream kvs).length ≤ size := by
  constructor
  · intro inside
    by_cases none : kvs = []
    · subst none
      simpa using room
    · obtain ⟨w, hw, reach⟩ := placed_reaches none p
      exact reach ▸ (inside w hw).2
  · exact fun upper => placed_inside kvs p size lower fun _ => upper

/-- Without a value of two gigabytes or more, the checks accept exactly what fits. -/
theorem accepted_fits {space : Int} {kvs : List (UInt8 × Bytes)} (upper : space < 2 ^ 31)
    (small : ∀ kv ∈ accepted space kvs, (5 + kv.2.length : Int) < 2 ^ 31)
    (some_kv : accepted space kvs ≠ []) : (stream (accepted space kvs)).length ≤ space := by
  induction kvs generalizing space with
  | nil => exact absurd rfl some_kv
  | cons kv kvs ih =>
    rw [accepted] at small some_kv ⊢
    split at some_kv
    · exact absurd rfl some_kv
    case isFalse room =>
      rw [if_neg room] at small ⊢
      have size := small kv List.mem_cons_self
      rw [toInt32_of_range (by omega) size] at room
      have rest : toInt32 (space - (5 + kv.2.length)) = space - (5 + kv.2.length) :=
        toInt32_of_range (by omega) (by omega)
      rw [rest] at small ⊢
      simp only [stream_cons, List.length_append, record_length]
      by_cases last : accepted (space - (5 + kv.2.length)) kvs = []
      · rw [last, stream_nil, List.length_nil]
        push_cast
        omega
      · have tail := ih (by omega) (fun kv h => small kv (List.mem_cons_of_mem _ h)) last
        push_cast
        omega

/-- What the checks let through fits exactly when no accepted value is that long. -/
theorem accepted_fits_iff {size iLen : Int} {kvs : List (UInt8 × Bytes)} (lower : 0 ≤ size)
    (room : size ≤ iLen) (upper : iLen < 2 ^ 31) :
    size + (stream (accepted (iLen - size) kvs)).length ≤ iLen ↔
      ∀ kv ∈ accepted (iLen - size) kvs, (5 + kv.2.length : Int) < 2 ^ 31 := by
  constructor
  · intro fits kv h
    have value := stream_length_value h
    omega
  · intro small
    by_cases none : accepted (iLen - size) kvs = []
    · rw [none]
      simpa using room
    · have fits := accepted_fits (by omega) small none
      omega

/-- The source of `compress` is the stream just written, unless it has two gigabytes. -/
theorem compressSource_placed (buffer : Memory) (size : Int) {kvs : List (UInt8 × Bytes)}
    (short : (stream kvs).length < 2 ^ 31) :
    compressSource buffer size (toInt32 (stream kvs).length) (placed size kvs) = stream kvs := by
  rw [compressSource, toInt32_of_range (by omega) (by omega),
    toULong_of_nonneg (by omega) (by omega), Int.toNat_natCast]
  exact replay_placed buffer kvs size

def responseRecords (r : AdRtbResponse) : List (UInt8 × Bytes) := present (responsePairs r)

/-- The flow record a request writes without a look at the space. -/
def flowRecord (r : AdRtbRequest) : List (UInt8 × Bytes) := present [(136, r.text .flow)]

def requestRecords (r : AdRtbRequest) : List (UInt8 × Bytes) :=
  flowRecord r ++ present (requestPairs r)

theorem requestRecords_eq (r : AdRtbRequest) :
    requestRecords r = present ((136, r.text .flow) :: requestPairs r) := by
  rw [requestRecords, flowRecord, ← present_append]
  rfl

theorem flowRecord_count (r : AdRtbRequest) : (flowRecord r).length < 2 ^ 16 :=
  lt_of_le_of_lt (List.length_filter_le _ _) (show 1 < 2 ^ 16 by decide)

/-- The cursor behind the flow record. -/
theorem requestStart_eq (r : AdRtbRequest) (iLen : Int) :
    requestStart r iLen = ⟨12 + (stream (flowRecord r)).length, iLen - 12,
      (flowRecord r).length, placed 12 (flowRecord r)⟩ := by
  rw [requestStart, flowRecord]
  by_cases flow : r.text .flow = []
  · rw [if_pos flow, flow, present_cons_empty]
    rfl
  · rw [if_neg flow, present_cons_value flow]
    simp [Cursor.write, placed, adProtocolHeadLen]

/-- The pass over a request, from behind its flow record. -/
theorem request_pass (r : AdRtbRequest) (iLen : Int) :
    (Accepts (iLen - 12) (requestPairs r) ∧
      ∃ c, (requestPairs r).foldlM adProtocolKv (requestStart r iLen) = .ok c ∧
        c.pos = 12 + (stream (requestRecords r)).length ∧
        c.writes = placed 12 (requestRecords r) ∧
        c.count = (requestRecords r).length % 2 ^ 16) ∨
    (¬ Accepts (iLen - 12) (requestPairs r) ∧
      (requestPairs r).foldlM adProtocolKv (requestStart r iLen) =
        .error (placed 12
          (flowRecord r ++ accepted (iLen - 12) (present (requestPairs r))))) := by
  rcases pass_cases (requestStart r iLen) (requestPairs r) with
    ⟨accepts, c, pass, pos, writes, count⟩ | ⟨refused, pass⟩
  · rw [requestStart_eq] at accepts pos writes count
    refine .inl ⟨accepts, c, pass, ?_, ?_, ?_⟩
    · rw [pos, requestRecords, stream_append, List.length_append]
      push_cast
      ring
    · rw [writes, requestRecords, placed_append]
    · rw [count (flowRecord_count r), requestRecords, List.length_append]
  · refine .inr ⟨?_, ?_⟩
    · rwa [requestStart_eq] at refused
    · rw [pass, requestStart_eq, placed_append]

end RecordWriter
