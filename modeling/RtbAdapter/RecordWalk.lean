import RtbAdapter.NetProtocol

/-!
# What the key and value loop restores

The loop undoes a stream it finds in memory. A stream that was cut is another
matter: past the cut the loop reads whatever the array holds, so a message
that comes out right for two different fills has not been read past it.
-/

namespace RecordWalk

open ByteWords ByteMemory KeyValueStream NetProtocol

variable {T L : Type} [DecidableEq T] [DecidableEq L]
variable {table : Table T L} {region : Region} {m : Memory} {base length : Int}

omit [DecidableEq T] [DecidableEq L] in
@[simp] theorem after_message (accesses : List Access) (move : Int) (w : Walk T L) :
    (w.after accesses move).message = w.message := rfl

omit [DecidableEq T] [DecidableEq L] in
@[simp] theorem after_returned (accesses : List Access) (move : Int) (w : Walk T L) :
    (w.after accesses move).returned = w.returned := rfl

/-- The length word of the pair at `p`. -/
def kvLenAt (m : Memory) (p : Int) : Int := toInt32 (beNat (readBytes m (p + 1) 4))

def headAccessesAt (region : Region) (p : Int) : List Access :=
  [⟨region, p, 1⟩, ⟨region, p + 1, 4⟩]

section Steps

variable {rest : Nat} {pos : Int} {msg : Message T L}

theorem walk_end (stop : ¬ toInt32 pos < length) :
    walk table region m base length (rest + 1) pos msg = ⟨msg, true, [], []⟩ := by
  rw [walk, if_neg stop]

theorem walk_unknown (reached : toInt32 pos < length) (unknown : table (m (base + pos)) = none) :
    walk table region m base length (rest + 1) pos msg =
      (walk table region m base length rest (pos + 5 + kvLenAt m (base + pos)) msg).after
        (headAccessesAt region (base + pos)) (kvLenAt m (base + pos)) := by
  rw [walk, if_pos reached]
  simp only [unknown]
  rfl

theorem walk_thrown (reached : toInt32 pos < length) {slot : Slot T L}
    (known : table (m (base + pos)) = some slot) (negative : kvLenAt m (base + pos) < 0) :
    walk table region m base length (rest + 1) pos msg =
      ⟨msg, false, headAccessesAt region (base + pos), []⟩ := by
  rw [walk, if_pos reached]
  simp only [known]
  exact if_pos negative

theorem walk_known (reached : toInt32 pos < length) {slot : Slot T L}
    (known : table (m (base + pos)) = some slot) {n : Nat} (size : kvLenAt m (base + pos) = n) :
    walk table region m base length (rest + 1) pos msg =
      (walk table region m base length rest (pos + 5 + n)
        (slot.assign (readBytes m (base + pos + 5) n) msg)).after
        (headAccessesAt region (base + pos) ++ [⟨region, base + pos + 5, n⟩]) n := by
  rw [walk, if_pos reached]
  simp only [known]
  have nonneg : ¬ toInt32 (beNat (readBytes m (base + pos + 1) 4)) < 0 := by
    rw [kvLenAt] at size
    omega
  rw [if_neg nonneg]
  rw [kvLenAt] at size
  rw [size, Int.toNat_natCast]
  rfl

end Steps

/-- The parts of a record in memory, as the loop takes them. -/
theorem record_parts {p : Int} {kv : UInt8 × Bytes} {rest : Bytes}
    (holds : readBytes m p (record kv ++ rest).length = record kv ++ rest) :
    m p = kv.1 ∧ readBytes m (p + 1) 4 = beBytes 4 kv.2.length ∧
      readBytes m (p + 5) kv.2.length = kv.2 ∧
      readBytes m (p + (5 + kv.2.length)) rest.length = rest := by
  obtain ⟨whole, tail⟩ := readBytes_append_iff.mp holds
  obtain ⟨key, behind⟩ := readBytes_cons_iff.mp whole
  obtain ⟨size, value⟩ := readBytes_append_iff.mp behind
  rw [beBytes_length] at size value
  refine ⟨key, size, ?_, ?_⟩
  · have place : p + 1 + ((4 : Nat) : Int) = p + 5 := by push_cast; ring
    rwa [place] at value
  · rw [record_length] at tail
    push_cast at tail
    exact tail

theorem beNat_length {n : Nat} (small : n < 2 ^ 31) : toInt32 (beNat (beBytes 4 n)) = n := by
  rw [beNat_beBytes_of_lt (by omega)]
  exact toInt32_of_range (by omega) (by omega)

/-- The loop undoes a stream that lies inside the body and is announced in full. More
pairs may be announced when the stream is the whole body. -/
theorem walk_stream (kvs : List (UInt8 × Bytes)) (extra : Nat) {msg : Message T L} {pos : Int}
    (holds : readBytes m (base + pos) (stream kvs).length = stream kvs) (lower : 0 ≤ pos)
    (inside : pos + (stream kvs).length ≤ length) (upper : length < 2 ^ 31)
    (stop : extra = 0 ∨ pos + (stream kvs).length = length) :
    (walk table region m base length (kvs.length + extra) pos msg).returned = true ∧
      (walk table region m base length (kvs.length + extra) pos msg).message =
        load table msg kvs := by
  induction kvs generalizing pos msg with
  | nil =>
    rw [List.length_nil, Nat.zero_add]
    rw [stream_nil, List.length_nil, Nat.cast_zero, add_zero] at inside stop
    cases extra with
    | zero => exact ⟨rfl, rfl⟩
    | succ extra =>
      rw [walk_end]
      · exact ⟨rfl, rfl⟩
      · rw [toInt32_of_range (by omega) (by omega)]
        omega
  | cons kv kvs ih =>
    rw [stream_cons] at holds inside stop
    obtain ⟨key, size, value, rest⟩ := record_parts holds
    rw [List.length_append, record_length] at inside stop
    push_cast at inside stop
    have reached : toInt32 pos < length := by
      rw [toInt32_of_range (by omega) (by omega)]
      omega
    have kvLen : kvLenAt m (base + pos) = kv.2.length := by
      rw [kvLenAt, size, beNat_length (by omega)]
    have next : base + (pos + 5 + kv.2.length) = base + pos + (5 + kv.2.length) := by ring
    have tail : ∀ msg : Message T L, _ := fun msg =>
      @ih msg (pos + 5 + kv.2.length) (by rw [next]; exact rest) (by omega) (by omega) (by omega)
    rw [List.length_cons, Nat.add_right_comm]
    cases known : table kv.1 with
    | none =>
      rw [walk_unknown reached (key ▸ known), kvLen, after_returned, after_message,
        load_unknown known]
      exact tail msg
    | some slot =>
      rw [walk_known reached (key ▸ known) kvLen, after_returned, after_message, value,
        load_known known]
      exact tail _

/-- What every assignment of a value shorter than two gigabytes keeps, the loop keeps. -/
theorem walk_invariant (I : Message T L → Prop)
    (step : ∀ msg slot p n, (∃ k, table k = some slot) → n < 2 ^ 31 → I msg →
      I (slot.assign (readBytes m p n) msg))
    (rest : Nat) (pos : Int) (msg : Message T L) (initial : I msg) :
    I (walk table region m base length rest pos msg).message := by
  induction rest generalizing pos msg with
  | zero => exact initial
  | succ rest ih =>
    by_cases reached : toInt32 pos < length
    · cases key : table (m (base + pos)) with
      | none =>
        rw [walk_unknown reached key]
        exact ih _ _ initial
      | some slot =>
        by_cases negative : kvLenAt m (base + pos) < 0
        · rw [walk_thrown reached key negative]
          exact initial
        · obtain ⟨n, size⟩ := Int.eq_ofNat_of_zero_le (Int.not_lt.mp negative)
          have range := toInt32_range (beNat (readBytes m (base + pos + 1) 4))
          rw [kvLenAt] at size
          rw [walk_known reached key size]
          exact ih _ _ (step _ _ _ _ ⟨_, key⟩ (by omega) initial)
    · rw [walk_end reached]
      exact initial

/-- No value of the message has two gigabytes or more. -/
def ShortValues (msg : Message T L) : Prop := ∀ s, ∀ v ∈ msg.values s, v.length < 2 ^ 31

omit [DecidableEq T] [DecidableEq L] in
theorem shortValues_empty : ShortValues (Message.empty : Message T L) := by
  intro s v hv
  cases s with
  | text t =>
    rw [Message.values, List.mem_singleton] at hv
    subst hv
    simp [Message.empty]
  | list l => cases hv

theorem shortValues_assign {msg : Message T L} (short : ShortValues msg) (s : Slot T L)
    {value : Bytes} (small : value.length < 2 ^ 31) : ShortValues (s.assign value msg) := by
  intro s' v hv
  by_cases same : s' = s
  · subst same
    cases s' with
    | text t =>
      simp only [Slot.assign, Message.values, Function.update_self, List.mem_singleton] at hv
      exact hv ▸ small
    | list l =>
      simp only [Slot.assign, Message.values, Function.update_self, List.mem_append,
        List.mem_singleton] at hv
      rcases hv with old | rfl
      · exact short (.list l) v old
      · exact small
  · rw [values_assign_other same] at hv
    exact short s' v hv

/-- The loop takes lengths from a signed word, so it never restores a longer value. -/
theorem walk_shortValues (rest : Nat) (pos : Int) {msg : Message T L} (short : ShortValues msg) :
    ShortValues (walk table region m base length rest pos msg).message :=
  walk_invariant ShortValues
    (fun _ slot _ _ _ small kept => shortValues_assign kept slot (by simpa using small))
    rest pos msg short

/-- An array that holds `source` at its start and one fill byte behind it. -/
def filled (c : UInt8) (source : Bytes) : Memory := put (fun _ => c) ⟨0, source⟩

theorem filled_inside (c : UInt8) (source : Bytes) {p : Nat} (h : p < source.length) :
    filled c source p = source[p] := by
  simp only [filled, put]
  rw [if_pos ⟨by omega, by omega⟩]
  simp [List.getElem?_eq_getElem h]

theorem filled_outside (c : UInt8) (source : Bytes) {p : Nat} (h : source.length ≤ p) :
    filled c source p = c := by
  simp only [filled, put]
  rw [if_neg (by omega)]

/-- Reading adds no byte but those of the source and the fill. -/
theorem other_filled (c : UInt8) (source : Bytes) (p n : Nat) :
    other c (readBytes (filled c source) p n) + other c (source.drop (p + n)) =
      other c (source.drop p) := by
  induction n with
  | zero => simp
  | succ n ih =>
    rw [readBytes_add, other_append, readBytes_one, ← ih]
    have place : (p : Int) + (n : Int) = ((p + n : Nat) : Int) := by push_cast; ring
    rw [place, ← add_assoc]
    by_cases inside : p + n < source.length
    · rw [filled_inside c source inside, List.drop_eq_getElem_cons inside]
      have split : other c (source[p + n] :: source.drop (p + n + 1)) =
          other c [source[p + n]] + other c (source.drop (p + n + 1)) :=
        other_append c [source[p + n]] _
      omega
    · rw [filled_outside c source (by omega), List.drop_eq_nil_of_le (by omega),
        List.drop_eq_nil_of_le (by omega)]
      simp [other]

theorem filled_header (c : UInt8) {source : Bytes} {p : Nat} {kv : UInt8 × Bytes} {rest : Bytes}
    (cut : source.drop p <+: record kv ++ rest) (whole : p + 5 ≤ source.length) :
    readBytes (filled c source) (p + 1) 4 = beBytes 4 kv.2.length := by
  have same : readBytes (filled c source) (p + 1) 4 = ((source.drop p).drop 1).take 4 := by
    apply List.ext_getElem
    · simp
      omega
    · intro i hi _
      rw [readBytes_length] at hi
      have place : (p : Int) + 1 + (i : Int) = ((p + (1 + i) : Nat) : Int) := by push_cast; ring
      simp only [readBytes, List.getElem_map, List.getElem_range, List.getElem_take,
        List.getElem_drop]
      rw [place, filled_inside c source (by omega)]
  obtain ⟨tail, split⟩ := cut
  have long : 5 ≤ (source.drop p).length := by rw [List.length_drop]; omega
  have shape : ((source.drop p ++ tail).drop 1).take 4 = beBytes 4 kv.2.length := by
    rw [split]
    simp [record]
  rw [same, ← shape, List.drop_append_of_le_length (by omega),
    List.take_append_of_le_length (by rw [List.length_drop]; omega)]

/-- A fill byte the loop can walk over: no key, and no negative length. -/
def Harmless (table : Table T L) (c : UInt8) : Prop :=
  table c = none ∧ 0 ≤ toInt32 (beNat [c, c, c, c])

/-- Past the cut there is only the fill, which is no key. -/
theorem walk_past {c : UInt8} (harmless : Harmless table c) {source : Bytes} (rest : Nat) {p : Nat}
    (beyond : source.length ≤ p) (msg : Message T L) :
    (walk table region (filled c source) 0 length rest p msg).message = msg := by
  induction rest generalizing p with
  | zero => rfl
  | succ rest ih =>
    by_cases reached : toInt32 p < length
    swap
    · rw [walk_end reached]
    have unknown : table (filled c source (0 + p)) = none := by
      rw [zero_add, filled_outside c source beyond]
      exact harmless.1
    have four : readBytes (filled c source) (0 + (p : Int) + 1) 4 = [c, c, c, c] := by
      refine (show _ = readBytes (fun _ => c) 0 4 from readBytes_congr fun i _ => ?_).trans rfl
      have place : 0 + (p : Int) + 1 + (i : Int) = ((p + 1 + i : Nat) : Int) := by push_cast; ring
      rw [place]
      exact filled_outside c source (by omega)
    obtain ⟨n, size⟩ := Int.eq_ofNat_of_zero_le harmless.2
    have kvLen : kvLenAt (filled c source) (0 + p) = n := by rw [kvLenAt, four, size]
    have place : (p : Int) + 5 + (n : Int) = ((p + 5 + n : Nat) : Int) := by push_cast; ring
    rw [walk_unknown reached unknown, kvLen, place, after_message]
    exact ih (by omega)

/-- Over a cut stream of known keys, the loop restores no more than the bytes before the cut. -/
theorem walk_weight {c : UInt8} (harmless : Harmless table c) {slots : List (Slot T L)}
    (once : slots.Nodup) {source : Bytes} (rest : Nat) {kvs : List (UInt8 × Bytes)} {p : Nat}
    (cut : source.drop p <+: stream kvs) (known : ∀ kv ∈ kvs, (table kv.1).isSome)
    (short : ∀ kv ∈ kvs, kv.2.length < 2 ^ 31) (msg : Message T L)
    (done : (walk table region (filled c source) 0 length rest p msg).returned = true) :
    weight c slots (walk table region (filled c source) 0 length rest p msg).message ≤
      weight c slots msg + other c (source.drop p) := by
  induction rest generalizing kvs p msg with
  | zero => exact Nat.le_add_right _ _
  | succ rest ih =>
    by_cases reached : toInt32 p < length
    swap
    · rw [walk_end reached]
      exact Nat.le_add_right _ _
    by_cases beyond : source.length ≤ p
    · rw [walk_past harmless _ beyond]
      exact Nat.le_add_right _ _
    cases kvs with
    | nil =>
      have short_list := cut.length_le
      rw [stream_nil, List.length_nil, List.length_drop] at short_list
      omega
    | cons kv kvs =>
      have inside : p < source.length := by omega
      have key : filled c source (0 + p) = kv.1 := by
        rw [zero_add, filled_inside c source inside]
        rw [List.drop_eq_getElem_cons inside] at cut
        exact (List.cons_prefix_cons.mp cut).1
      obtain ⟨slot, hslot⟩ := Option.isSome_iff_exists.mp (known kv List.mem_cons_self)
      rw [← key] at hslot
      by_cases negative : kvLenAt (filled c source) (0 + p) < 0
      · rw [walk_thrown reached hslot negative] at done
        cases done
      obtain ⟨n, size⟩ := Int.eq_ofNat_of_zero_le (Int.not_lt.mp negative)
      have value : 0 + (p : Int) + 5 = ((p + 5 : Nat) : Int) := by push_cast; ring
      have place : (p : Int) + 5 + (n : Int) = ((p + 5 + n : Nat) : Int) := by push_cast; ring
      rw [walk_known reached hslot size, place, value, after_returned] at done
      rw [walk_known reached hslot size, place, value, after_message]
      have read := other_filled c source (p + 5) n
      have skip := other_filled c source p 5
      have assigned := weight_assign c once slot
        (readBytes (filled c source) ((p + 5 : Nat) : Int) n) msg
      -- either the whole header was read, or nothing is left behind it
      have cut' : ∃ kvs', source.drop (p + 5 + n) <+: stream kvs' ∧
          ∀ kv ∈ kvs', (table kv.1).isSome ∧ kv.2.length < 2 ^ 31 := by
        by_cases whole : p + 5 ≤ source.length
        · rw [kvLenAt, zero_add, filled_header c cut whole,
            beNat_length (short kv List.mem_cons_self), Nat.cast_inj] at size
          have dropped := cut.drop (5 + n)
          rw [List.drop_drop, stream_cons, List.drop_left' (by rw [record_length, size]),
            ← add_assoc] at dropped
          exact ⟨kvs, dropped, fun kv h =>
            ⟨known kv (List.mem_cons_of_mem _ h), short kv (List.mem_cons_of_mem _ h)⟩⟩
        · refine ⟨[], ?_, by simp⟩
          rw [List.drop_eq_nil_of_le (by omega)]
          exact List.nil_prefix
      obtain ⟨kvs', cut', all⟩ := cut'
      have tail := ih cut' (fun kv h => (all kv h).1) (fun kv h => (all kv h).2) _ done
      omega

end RecordWalk
