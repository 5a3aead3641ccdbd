import RtbAdapter.ByteMemory
import Mathlib.Logic.Function.Basic

/-!
# Keyed records and the messages they carry

A record is a key byte, a four byte length in network order and a value. A
message has text members and list members. A writer lists its members under
keys; a reader sends each key to a slot, and a key without a slot is skipped.
The writer and the reader are compared through their two tables only.
-/

namespace KeyValueStream

open ByteWords ByteMemory

universe u v

def record (kv : UInt8 × Bytes) : Bytes :=
  kv.1 :: (beBytes 4 kv.2.length ++ kv.2)

def stream (kvs : List (UInt8 × Bytes)) : Bytes := kvs.flatMap record

/-- Empty values are never written. -/
def present (kvs : List (UInt8 × Bytes)) : List (UInt8 × Bytes) :=
  kvs.filter fun kv => kv.2 ≠ []

@[simp] theorem record_length (kv : UInt8 × Bytes) :
    (record kv).length = 5 + kv.2.length := by
  simp [record]
  omega

@[simp] theorem stream_nil : stream [] = [] := rfl

@[simp] theorem stream_cons (kv : UInt8 × Bytes) (kvs : List (UInt8 × Bytes)) :
    stream (kv :: kvs) = record kv ++ stream kvs := rfl

@[simp] theorem stream_append (kvs kvs' : List (UInt8 × Bytes)) :
    stream (kvs ++ kvs') = stream kvs ++ stream kvs' := by
  simp [stream]

theorem stream_length_count (kvs : List (UInt8 × Bytes)) :
    5 * kvs.length ≤ (stream kvs).length := by
  induction kvs with
  | nil => simp
  | cons kv kvs ih =>
    simp only [stream_cons, List.length_append, record_length, List.length_cons]
    omega

theorem stream_length_sum (kvs : List (UInt8 × Bytes)) :
    (stream kvs).length = (kvs.map fun kv => 5 + kv.2.length).sum := by
  simp only [stream, List.length_flatMap, record_length]

theorem stream_length_perm {kvs kvs' : List (UInt8 × Bytes)} (same : kvs.Perm kvs') :
    (stream kvs).length = (stream kvs').length := by
  rw [stream_length_sum, stream_length_sum]
  exact (same.map _).sum_eq

theorem stream_length_value {kvs : List (UInt8 × Bytes)} {kv : UInt8 × Bytes} (h : kv ∈ kvs) :
    5 + kv.2.length ≤ (stream kvs).length := by
  induction kvs with
  | nil => cases h
  | cons first kvs ih =>
    simp only [stream_cons, List.length_append, record_length]
    rcases List.mem_cons.mp h with rfl | tail
    · omega
    · have := ih tail; omega

@[simp] theorem present_nil : present [] = [] := rfl

@[simp] theorem present_append (kvs kvs' : List (UInt8 × Bytes)) :
    present (kvs ++ kvs') = present kvs ++ present kvs' := by
  simp [present]

theorem present_cons_empty (k : UInt8) (kvs : List (UInt8 × Bytes)) :
    present ((k, []) :: kvs) = present kvs := by
  simp [present]

theorem present_cons_value {kv : UInt8 × Bytes} (h : kv.2 ≠ []) (kvs : List (UInt8 × Bytes)) :
    present (kv :: kvs) = kv :: present kvs := by
  simp [present, h]

/-- A message with text members `T` and list members `L`. -/
structure Message (T : Type u) (L : Type v) where
  text : T → Bytes
  list : L → List Bytes

/-- Where a reader puts the value of a key. -/
inductive Slot (T : Type u) (L : Type v) where
  | text (t : T)
  | list (l : L)
  deriving DecidableEq

variable {T : Type u} {L : Type v} [DecidableEq T] [DecidableEq L]

/-- A text member is replaced, a list member grows at its end. -/
def Slot.assign (s : Slot T L) (value : Bytes) (m : Message T L) : Message T L :=
  match s with
  | .text t => { m with text := Function.update m.text t value }
  | .list l => { m with list := Function.update m.list l (m.list l ++ [value]) }

/-- The values a writer finds in a slot. -/
def Message.values (m : Message T L) : Slot T L → List Bytes
  | .text t => [m.text t]
  | .list l => m.list l

/-- The empty message, every member at its cleared value. -/
def Message.empty : Message T L := ⟨fun _ => [], fun _ => []⟩

abbrev Layout (T : Type u) (L : Type v) := List (UInt8 × Slot T L)

abbrev Table (T : Type u) (L : Type v) := UInt8 → Option (Slot T L)

/-- What a writer with this layout offers to the stream, empty values included. -/
def pairs (layout : Layout T L) (m : Message T L) : List (UInt8 × Bytes) :=
  layout.flatMap fun e => (m.values e.2).map (e.1, ·)

def load (table : Table T L) (m : Message T L) (kvs : List (UInt8 × Bytes)) : Message T L :=
  kvs.foldl (fun m kv => match table kv.1 with
    | some s => s.assign kv.2 m
    | none => m) m

/-- What a message keeps after a trip: every text, and list entries that are not empty. -/
def Message.trim (m : Message T L) : Message T L :=
  ⟨m.text, fun l => (m.list l).filter (· ≠ [])⟩

omit [DecidableEq T] [DecidableEq L] in
@[simp] theorem pairs_nil (m : Message T L) : pairs [] m = [] := rfl

omit [DecidableEq T] [DecidableEq L] in
@[simp] theorem pairs_cons (e : UInt8 × Slot T L) (layout : Layout T L) (m : Message T L) :
    pairs (e :: layout) m = (m.values e.2).map (e.1, ·) ++ pairs layout m := rfl

omit [DecidableEq T] [DecidableEq L] in
@[simp] theorem pairs_append (layout layout' : Layout T L) (m : Message T L) :
    pairs (layout ++ layout') m = pairs layout m ++ pairs layout' m := by
  simp [pairs]

omit [DecidableEq T] [DecidableEq L] in
/-- Slots may be renamed when the message is renamed with them. -/
theorem pairs_relabel {layout : Layout T L} {f : Slot T L → Slot T L} {m m' : Message T L}
    (same : ∀ s ∈ layout.map Prod.snd, m'.values (f s) = m.values s) :
    pairs (layout.map fun e => (e.1, f e.2)) m' = pairs layout m := by
  induction layout with
  | nil => rfl
  | cons e layout ih =>
    rw [List.map_cons, pairs_cons, pairs_cons, ih fun s hs => same s (List.mem_cons_of_mem _ hs)]
    exact congrArg (fun values => values.map (e.1, ·) ++ pairs layout m) (same e.2 (by simp))

@[simp] theorem load_nil (table : Table T L) (m : Message T L) : load table m [] = m := rfl

@[simp] theorem load_append (table : Table T L) (m : Message T L)
    (kvs kvs' : List (UInt8 × Bytes)) :
    load table m (kvs ++ kvs') = load table (load table m kvs) kvs' := by
  simp [load]

theorem load_known {table : Table T L} {k : UInt8} {s : Slot T L} (h : table k = some s)
    (m : Message T L) (value : Bytes) (kvs : List (UInt8 × Bytes)) :
    load table m ((k, value) :: kvs) = load table (s.assign value m) kvs := by
  simp [load, h]

theorem load_unknown {table : Table T L} {k : UInt8} (h : table k = none)
    (m : Message T L) (value : Bytes) (kvs : List (UInt8 × Bytes)) :
    load table m ((k, value) :: kvs) = load table m kvs := by
  simp [load, h]

/-- Keys without a slot leave the message alone, however often they occur. -/
theorem load_all_unknown {table : Table T L} {kvs : List (UInt8 × Bytes)}
    (h : ∀ kv ∈ kvs, table kv.1 = none) (m : Message T L) : load table m kvs = m := by
  induction kvs with
  | nil => rfl
  | cons kv kvs ih =>
    rw [load_unknown (h kv List.mem_cons_self)]
    exact ih fun kv hkv => h kv (List.mem_cons_of_mem _ hkv)

theorem load_list_slot {table : Table T L} {k : UInt8} {l : L} (h : table k = some (.list l))
    (m : Message T L) (values : List Bytes) :
    load table m (values.map (k, ·)) =
      { m with list := Function.update m.list l (m.list l ++ values) } := by
  induction values generalizing m with
  | nil => simp
  | cons value values ih =>
    rw [List.map_cons, load_known h, ih]
    simp [Slot.assign]

omit [DecidableEq T] [DecidableEq L] in
theorem present_map_values (k : UInt8) (values : List Bytes) :
    present (values.map (k, ·)) = (values.filter (· ≠ [])).map (k, ·) := by
  simp only [present, List.filter_map]
  rfl

/-- One slot of the layout reaches its own slot of the reader and no other. -/
theorem load_slot {table : Table T L} {k : UInt8} {s : Slot T L} (h : table k = some s)
    (m source : Message T L)
    (fresh : ∀ t, s = .text t → m.text t = [] ∨ m.text t = source.text t) :
    load table m (present ((source.values s).map (k, ·))) =
      match s with
      | .text t => { m with text := Function.update m.text t (source.text t) }
      | .list l => { m with
          list := Function.update m.list l (m.list l ++ (source.trim).list l) } := by
  cases s with
  | list l =>
    simp only [Message.values]
    rw [present_map_values, load_list_slot h]
    rfl
  | text t =>
    simp only [Message.values, List.map_cons, List.map_nil]
    by_cases empty : source.text t = []
    · have cleared : m.text t = [] := (fresh t rfl).elim id (empty ▸ ·)
      have same : Function.update m.text t [] = m.text := by
        rw [← cleared]; exact Function.update_eq_self t m.text
      rw [empty, present_cons_empty, present_nil, load_nil, same]
    · rw [present_cons_value (by simpa using empty), present_nil, load_known h, load_nil]
      rfl

/-- The reader undoes the writer: when the two tables agree and no slot is written
twice, exactly the slots of the layout are restored. -/
theorem load_layout {table : Table T L} (source : Message T L) (layout : Layout T L)
    (agree : ∀ e ∈ layout, table e.1 = some e.2) (once : (layout.map Prod.snd).Nodup)
    (m : Message T L)
    (fresh : ∀ t, .text t ∈ layout.map Prod.snd → m.text t = [] ∨ m.text t = source.text t) :
    (∀ t, (load table m (present (pairs layout source))).text t =
      if .text t ∈ layout.map Prod.snd then source.text t else m.text t) ∧
    (∀ l, (load table m (present (pairs layout source))).list l =
      if .list l ∈ layout.map Prod.snd then m.list l ++ source.trim.list l else m.list l) := by
  induction layout generalizing m with
  | nil => simp
  | cons e layout ih =>
    obtain ⟨k, s⟩ := e
    have here : table k = some s := agree _ List.mem_cons_self
    have tail : ∀ e ∈ layout, table e.1 = some e.2 :=
      fun e he => agree e (List.mem_cons_of_mem _ he)
    rw [List.map_cons, List.nodup_cons] at once
    rw [pairs_cons, present_append, load_append,
      load_slot here m source (fun t ht => fresh t (by simp [ht]))]
    cases s with
    | text t =>
      have fresh' : ∀ t', .text t' ∈ layout.map Prod.snd →
          Function.update m.text t (source.text t) t' = [] ∨
            Function.update m.text t (source.text t) t' = source.text t' := by
        intro t' ht'
        have other : t' ≠ t := by rintro rfl; exact once.1 ht'
        rw [Function.update_of_ne other]
        exact fresh t' (List.mem_cons_of_mem _ ht')
      obtain ⟨texts, lists⟩ := ih tail once.2
        { m with text := Function.update m.text t (source.text t) } fresh'
      refine ⟨fun t' => ?_, fun l => ?_⟩
      · rw [texts t']
        by_cases same : t' = t
        · subst same
          simp only [List.map_cons, List.mem_cons, true_or, if_true, if_neg once.1,
            Function.update_self]
        · simp only [List.map_cons, List.mem_cons, Slot.text.injEq, same, false_or,
            Function.update_of_ne same]
      · rw [lists l]
        simp only [List.map_cons, List.mem_cons, reduceCtorEq, false_or]
    | list l =>
      obtain ⟨texts, lists⟩ := ih tail once.2
        { m with list := Function.update m.list l (m.list l ++ source.trim.list l) }
        (fun t ht => fresh t (List.mem_cons_of_mem _ ht))
      refine ⟨fun t => ?_, fun l' => ?_⟩
      · rw [texts t]
        simp only [List.map_cons, List.mem_cons, reduceCtorEq, false_or]
      · rw [lists l']
        by_cases same : l' = l
        · subst same
          simp only [List.map_cons, List.mem_cons, true_or, if_true, if_neg once.1,
            Function.update_self]
        · simp only [List.map_cons, List.mem_cons, Slot.list.injEq, same, false_or,
            Function.update_of_ne same]

/-- A message holds in every slot of the layout what the source offers there. -/
def Restored (layout : Layout T L) (source m : Message T L) : Prop :=
  ∀ s ∈ layout.map Prod.snd, m.values s = source.trim.values s

/-- What a reader with matching tables ends with, text by text and list by list. -/
theorem load_restored {table : Table T L} (source : Message T L) (layout : Layout T L)
    (agree : ∀ e ∈ layout, table e.1 = some e.2) (once : (layout.map Prod.snd).Nodup)
    (m : Message T L)
    (fresh : ∀ t, .text t ∈ layout.map Prod.snd → m.text t = [] ∨ m.text t = source.text t)
    (empty : ∀ l, .list l ∈ layout.map Prod.snd → m.list l = []) :
    Restored layout source (load table m (present (pairs layout source))) := by
  obtain ⟨texts, lists⟩ := load_layout source layout agree once m fresh
  intro s hs
  cases s with
  | text t => simp only [Message.values, texts t, if_pos hs, Message.trim]
  | list l => simp only [Message.values, lists l, if_pos hs, empty l hs, List.nil_append]

/-- How many bytes differ from a fill byte. -/
def other (c : UInt8) (bs : Bytes) : Nat := bs.countP (· ≠ c)

/-- The bytes that differ from `c` in the values of some slots. -/
def weight (c : UInt8) (slots : List (Slot T L)) (m : Message T L) : Nat :=
  (slots.map fun s => other c (m.values s).flatten).sum

@[simp] theorem other_nil (c : UInt8) : other c [] = 0 := rfl

@[simp] theorem other_append (c : UInt8) (a b : Bytes) :
    other c (a ++ b) = other c a + other c b := by
  simp [other]

theorem other_le_length (c : UInt8) (bs : Bytes) : other c bs ≤ bs.length := List.countP_le_length

/-- No byte equals two fills. -/
theorem length_le_others {c d : UInt8} (apart : c ≠ d) (bs : Bytes) :
    bs.length ≤ other c bs + other d bs := by
  induction bs with
  | nil => simp
  | cons b bs ih =>
    simp only [other, List.countP_cons, List.length_cons, decide_eq_true_eq] at ih ⊢
    have counted : 1 ≤ (if b ≠ c then 1 else 0) + (if b ≠ d then 1 else 0) := by
      by_cases first : b = c
      · simp [first, apart]
      · simp [first]
    omega

omit [DecidableEq T] [DecidableEq L] in
theorem weight_empty (c : UInt8) (slots : List (Slot T L)) :
    weight c slots (Message.empty : Message T L) = 0 := by
  simp only [weight, List.sum_eq_zero_iff, List.mem_map]
  rintro n ⟨s, _, rfl⟩
  cases s <;> rfl

theorem values_assign_self (s : Slot T L) (value : Bytes) (m : Message T L) :
    other c ((s.assign value m).values s).flatten ≤
      other c (m.values s).flatten + other c value := by
  cases s <;> simp [Slot.assign, Message.values]

theorem values_assign_other {s s' : Slot T L} (apart : s' ≠ s) (value : Bytes)
    (m : Message T L) : (s.assign value m).values s' = m.values s' := by
  cases s with
  | text t =>
    cases s' with
    | text t' =>
      have : t' ≠ t := fun same => apart (congrArg Slot.text same)
      simp [Slot.assign, Message.values, this]
    | list l' => rfl
  | list l =>
    cases s' with
    | text t' => rfl
    | list l' =>
      have : l' ≠ l := fun same => apart (congrArg Slot.list same)
      simp [Slot.assign, Message.values, this]

theorem weight_assign_absent (c : UInt8) {slots : List (Slot T L)} {s : Slot T L}
    (absent : s ∉ slots) (value : Bytes) (m : Message T L) :
    weight c slots (s.assign value m) = weight c slots m := by
  simp only [weight]
  congr 1
  apply List.map_congr_left
  intro s' hs'
  rw [values_assign_other (by rintro rfl; exact absent hs')]

/-- An assignment adds no more than the bytes of its value. -/
theorem weight_assign (c : UInt8) {slots : List (Slot T L)} (once : slots.Nodup)
    (s : Slot T L) (value : Bytes) (m : Message T L) :
    weight c slots (s.assign value m) ≤ weight c slots m + other c value := by
  induction slots with
  | nil => simp [weight]
  | cons s' slots ih =>
    rw [List.nodup_cons] at once
    simp only [weight, List.map_cons, List.sum_cons] at ih ⊢
    by_cases same : s' = s
    · subst same
      have first := values_assign_self (c := c) s' value m
      have rest := weight_assign_absent c once.1 value m
      simp only [weight] at rest
      omega
    · rw [values_assign_other same]
      have rest := ih once.2
      omega

omit [DecidableEq T] [DecidableEq L] in
/-- Dropping empty entries drops no byte. -/
theorem trim_flatten (m : Message T L) (s : Slot T L) :
    (m.trim.values s).flatten = (m.values s).flatten := by
  cases s with
  | text t => rfl
  | list l =>
    simp only [Message.values, Message.trim]
    induction m.list l with
    | nil => rfl
    | cons v vs ih => by_cases empty : v = [] <;> simp_all

omit [DecidableEq T] [DecidableEq L] in
/-- The values of a restored message have the bytes the source offered. -/
theorem weight_restored (c : UInt8) {layout : Layout T L} {source m : Message T L}
    (restored : Restored layout source m) :
    weight c (layout.map Prod.snd) m =
      ((pairs layout source).map fun kv => other c kv.2).sum := by
  induction layout with
  | nil => rfl
  | cons e layout ih =>
    have here := restored e.2 (by simp)
    have rest := ih fun s hs => restored s (List.mem_cons_of_mem _ hs)
    simp only [weight, List.map_cons, List.sum_cons, pairs_cons, List.map_append,
      List.sum_append] at rest ⊢
    rw [rest, here, trim_flatten]
    congr 1
    simp only [List.map_map]
    induction source.values e.2 with
    | nil => rfl
    | cons v vs step => simp [step]

theorem stream_present_le (kvs : List (UInt8 × Bytes)) :
    (stream (present kvs)).length ≤ 6 * (kvs.map fun kv => kv.2.length).sum := by
  induction kvs with
  | nil => simp
  | cons kv kvs ih =>
    by_cases empty : kv.2 = []
    · have same : present (kv :: kvs) = present kvs := by simp [present, empty]
      rw [same, List.map_cons, List.sum_cons]
      omega
    · have positive : 0 < kv.2.length := List.length_pos_of_ne_nil empty
      rw [present_cons_value empty, stream_cons, List.length_append, record_length,
        List.map_cons, List.sum_cons]
      omega

omit [DecidableEq T] [DecidableEq L] in
/-- Two restorations that agree with the source bound the stream by the bytes they hold. -/
theorem stream_le_weights {c d : UInt8} (apart : c ≠ d) {layout : Layout T L}
    {source m m' : Message T L} (restored : Restored layout source m)
    (restored' : Restored layout source m') :
    (stream (present (pairs layout source))).length ≤
      6 * (weight c (layout.map Prod.snd) m + weight d (layout.map Prod.snd) m') := by
  rw [weight_restored c restored, weight_restored d restored']
  refine (stream_present_le _).trans (Nat.mul_le_mul_left 6 ?_)
  generalize pairs layout source = kvs
  induction kvs with
  | nil => simp
  | cons kv kvs ih =>
    have first := length_le_others apart kv.2
    simp only [List.map_cons, List.sum_cons]
    omega

end KeyValueStream
