import RtbAdapter.Packets

/-!
# Bodies that fit and bodies that do not

Nobody looks at what the two zlib calls report. A body that does not fit their
limit may come back as nothing, and a body cut by a wrapped length comes back
right only when the loop had no need to read past its end.
-/

namespace CodecRoundTrip

open ByteWords ByteMemory KeyValueStream RtbBase ZlibCalls NetProtocol RecordWriter RecordWalk
open Packets

variable {z : Zlib} {fault : ZlibFault} {buffer : Memory} {iLen : Int}

/-- An array with one fill byte, and calls that leave nothing when they fail. -/
def quietFault (c : UInt8) : ZlibFault := ⟨[], [], 0, fun _ => c⟩

/-- A packed body that was lost on either way cannot be unpacked within the limit. -/
theorem packed_fails {source : Bytes} (nothing : fault.compressed = [])
    (fails : adKbytes4 < (z.deflate source).length ∨ adKbytes4 < source.length) :
    ∀ bs, z.inflate (z.compress fault adKbytes4 source) = some bs → adKbytes4 < bs.length := by
  intro bs inflates
  by_cases packs : (z.deflate source).length ≤ adKbytes4
  · rw [compress_ok packs, z.inflate_deflate, Option.some_inj] at inflates
    subst inflates
    exact fails.resolve_left (by omega)
  · rw [compress_failed (by omega), nothing, List.take_nil, z.inflate_nil] at inflates
    cases inflates

/-- When either call fails on a body, the receiver may find nothing at all. -/
theorem lost_body {T L : Type} [DecidableEq T] [DecidableEq L] {table : Table T L} {c : UInt8}
    {source : Bytes} (total : Nat)
    (fails : adKbytes4 < (z.deflate source).length ∨ adKbytes4 < source.length) :
    unpackedWalk z (quietFault c) table (z.compress (quietFault c) adKbytes4 source) total =
      ⟨Message.empty, true, [], []⟩ :=
  unpackedWalk_lost (packed_fails rfl fails) rfl

section Cut

variable {T L : Type} [DecidableEq T] [DecidableEq L] {table : Table T L}

omit [DecidableEq T] [DecidableEq L] in
theorem mem_present_pairs {layout : Layout T L} {source : Message T L} {kv : UInt8 × Bytes}
    (h : kv ∈ present (pairs layout source)) :
    ∃ s, (kv.1, s) ∈ layout ∧ kv.2 ∈ source.trim.values s ∧ kv.2 ≠ [] := by
  have value : kv.2 ≠ [] := present_values kv h
  obtain ⟨e, he, hkv⟩ := List.mem_flatMap.mp (List.mem_filter.mp h).1
  obtain ⟨v, hv, rfl⟩ := List.mem_map.mp hkv
  refine ⟨e.2, he, ?_, value⟩
  cases hs : e.2 with
  | text t => rw [hs] at hv; exact hv
  | list l =>
    rw [hs] at hv
    exact List.mem_filter.mpr ⟨hv, by simpa using value⟩

omit [DecidableEq T] [DecidableEq L] in
/-- A restored value is a value of the decoded message. -/
theorem restored_short {layout : Layout T L} {source m : Message T L}
    (restored : Restored layout source m) (short : ShortValues m) :
    ∀ kv ∈ present (pairs layout source), kv.2.length < 2 ^ 31 := by
  intro kv h
  obtain ⟨s, hs, hv, _⟩ := mem_present_pairs h
  rw [← restored s (List.mem_map_of_mem hs)] at hv
  exact short s kv.2 hv

/-- A cut stream that comes back right under two fills was not cut far: what the
message holds lies in the bytes before the cut. -/
theorem cut_body_bound {layout : Layout T L} {source : Message T L}
    (once : (layout.map Prod.snd).Nodup) {packed : Bytes} {kvs : List (UInt8 × Bytes)}
    {total : Nat} (fits : packed.length ≤ adKbytes4) (cut : packed <+: stream kvs)
    (known : ∀ kv ∈ kvs, (table kv.1).isSome) (short : ∀ kv ∈ kvs, kv.2.length < 2 ^ 31)
    {c d : UInt8} (apart : c ≠ d) (harmless : Harmless table c) (harmless' : Harmless table d)
    (back : ∀ e, e = c ∨ e = d →
      (unpackedWalk z (quietFault e) table (z.deflate packed) total).returned = true ∧
      Restored layout source
        (unpackedWalk z (quietFault e) table (z.deflate packed) total).message) :
    (stream (present (pairs layout source))).length ≤ 12 * packed.length := by
  have weighed : ∀ e, Harmless table e → (e = c ∨ e = d) →
      weight e (layout.map Prod.snd)
        (unpackedWalk z (quietFault e) table (z.deflate packed) total).message ≤
          packed.length := by
    intro e safe choice
    have done := (back e choice).1
    rw [unpackedWalk_ok total fits] at done ⊢
    have bound := walk_weight (p := 0) safe once total cut known short Message.empty done
    rw [weight_empty, List.drop_zero, Nat.zero_add] at bound
    exact bound.trans (other_le_length e packed)
  have first := weighed c harmless (.inl rfl)
  have second := weighed d harmless' (.inr rfl)
  have bound := stream_le_weights apart (back c (.inl rfl)).2 (back d (.inr rfl)).2
  omega

end Cut

/-- The body and the packed body both fit the limit given to zlib. -/
def BodyFits (z : Zlib) (kvs : List (UInt8 × Bytes)) : Prop :=
  (stream kvs).length ≤ adKbytes4 ∧ (z.deflate (stream kvs)).length ≤ adKbytes4

theorem fits_of_cut {kvs : List (UInt8 × Bytes)}
    (packs : (z.deflate (handed buffer kvs)).length ≤ adKbytes4)
    (source : (handed buffer kvs).length ≤ adKbytes4) (small : (stream kvs).length < 2 ^ 32) :
    BodyFits z kvs := by
  rw [(handed_starts source).2 small] at packs source
  exact ⟨source, packs⟩

theorem not_lost_of_nil {kvs : List (UInt8 × Bytes)} (nil : kvs = []) :
    ¬ (adKbytes4 < (z.deflate (handed buffer kvs)).length ∨
      adKbytes4 < (handed buffer kvs).length) := by
  subst nil
  rw [handed_eq buffer (by decide), stream_nil]
  have short := deflate_short (z := z) [] (by decide)
  have none := List.length_nil (α := UInt8)
  simp only [adKbytes4]
  omega

/-- A message without values restores only a message that offers none. -/
theorem nothing_restored {T L : Type} {layout : Layout T L} {source : Message T L}
    (restored : Restored layout source Message.empty) : present (pairs layout source) = [] := by
  rw [List.eq_nil_iff_forall_not_mem]
  intro kv h
  obtain ⟨s, hs, hv, value⟩ := mem_present_pairs h
  rw [← restored s (List.mem_map_of_mem hs)] at hv
  cases s with
  | text t => exact value (List.mem_singleton.mp hv)
  | list l => cases hv

end CodecRoundTrip
