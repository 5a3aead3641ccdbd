import RtbAdapter.EngineUpdate
import RtbAdapter.FilterReferences
import RtbAdapter.StepRuns

/-!
# The lifetime of orders

Filters point to orders that a later update deletes. An update that empties the
back map is harmless while the filters in use point to visible orders only, or
when it comes to its end and puts new filters in their place; otherwise it leaves
a dangling pointer behind.
-/

namespace OrderLifetime

open ByteWords JsonValues PingPong PlanningUnit PlanningData PlanningUpdate RtbFilters RtbEngine
open OrderPlaces EngineUpdate FilterReferences StepRuns Std
open NetProtocol (adSuccess adFailure)

/-- Every order that the filters in use point to is still in one of the two maps. -/
def NoDangling (e : AdRtbEngine) : Prop := ∀ a ∈ e.references, a ∈ e.live

instance (e : AdRtbEngine) : Decidable (NoDangling e) :=
  inferInstanceAs (Decidable (∀ a ∈ e.references, a ∈ e.live))

/-- No order and no reference stands where `new` has not been yet. -/
structure Aged (e : AdRtbEngine) : Prop where
  visible : PlacedIn e.data.data.get 0 e.data.nextAddress
  back : PlacedIn e.data.data.getBack 0 e.data.nextAddress
  references : ∀ a ∈ e.references, a < e.data.nextAddress

/-- An update that empties the back map does not find the filters in use pointing into it, or
comes to its end. -/
def Supported (parse : Bytes → Option JsonValue) (world : UpdateWorld) (e : AdRtbEngine) : Prop :=
  Clears world.redis e.data →
    (∀ a ∈ e.references, a ∈ addresses e.data.data.get) ∨ Completes parse world e

variable {parse : Bytes → Option JsonValue} {world : UpdateWorld} {e e' : AdRtbEngine}

theorem references_built (built : Built e) {a : Nat} (inside : a ∈ e.references) :
    a ∈ addresses e.data.data.get := by
  obtain ⟨descriptions, same⟩ := built
  rw [AdRtbEngine.references, same] at inside
  obtain ⟨placed, listed, rfl⟩ := references_build inside
  obtain ⟨entry, visible, rfl⟩ := List.mem_map.mp listed
  exact List.mem_map.mpr ⟨entry, visible, rfl⟩

theorem references_kept (same : e'.filters.get = e.filters.get) :
    e'.references = e.references := by
  rw [AdRtbEngine.references, same, AdRtbEngine.references]

theorem aged_update (aged : Aged e) (stepped : update parse world e = some e') : Aged e' := by
  obtain ⟨u, updated, stays, filters⟩ := update_cases stepped
  obtain ⟨grown, visible, back⟩ : e.data.nextAddress ≤ u.state.nextAddress ∧
      PlacedIn u.state.data.get 0 u.state.nextAddress ∧
      PlacedIn u.state.data.getBack 0 u.state.nextAddress := by
    rcases dataUpdate_cases updated with ⟨_, same⟩ | ⟨_, loading, grown, placed, states⟩
    · rw [same]
      exact ⟨le_rfl, aged.visible, aged.back⟩
    · have new : PlacedIn loading.map 0 loading.nextAddress :=
        fun a inside => ⟨Nat.zero_le _, (placed a inside).2⟩
      rcases states with ⟨_, same⟩ | ⟨_, same⟩
      · rw [same]
        exact ⟨grown, by simpa [switched] using new,
          by simpa [switched] using aged.visible.mono grown⟩
      · rw [same]
        exact ⟨grown, by simpa [broken] using aged.visible.mono grown,
          by simpa [broken] using new⟩
  have seen : PlacedIn e'.data.data.get 0 e'.data.nextAddress := by
    rw [stays.nextAddress]
    exact fun a inside => visible a (stays.visible.mem_addresses.mp inside)
  refine ⟨seen, by rw [stays.back, stays.nextAddress]; exact back, fun a inside => ?_⟩
  rcases filters with ⟨_, built⟩ | ⟨_, kept⟩
  · exact (seen a (references_built built inside)).2
  · rw [references_kept kept] at inside
    rw [stays.nextAddress]
    exact (aged.references a inside).trans_le grown

theorem mem_live_iff {s : AdPlanningData} (stays : Stays s e'.data) {a : Nat} :
    a ∈ e'.live ↔ a ∈ addresses s.data.get ∨ a ∈ addresses s.data.getBack := by
  rw [AdRtbEngine.live, List.mem_append, stays.back, stays.visible.mem_addresses]

/-- One update leaves no dangling pointer exactly when it is supported. -/
theorem noDangling_update_iff (aged : Aged e) (sound : NoDangling e)
    (stepped : update parse world e = some e') : NoDangling e' ↔ Supported parse world e := by
  obtain ⟨u, updated, stays, filters⟩ := update_cases stepped
  rcases filters with ⟨completes, built⟩ | ⟨stopped, kept⟩
  · refine iff_of_true (fun a inside => ?_) fun _ => .inr completes
    exact List.mem_append_left _ (references_built built inside)
  · have references : NoDangling e' ↔ ∀ a ∈ e.references,
        a ∈ addresses u.state.data.get ∨ a ∈ addresses u.state.data.getBack := by
      rw [NoDangling, references_kept kept]
      simp only [mem_live_iff stays]
    rw [references]
    rcases dataUpdate_cases updated with ⟨still, same⟩ | ⟨clears, loading, _, placed, states⟩
    · refine iff_of_true (fun a inside => ?_) fun clears => absurd clears still
      rw [same]
      exact List.mem_append.mp (sound a inside)
    · have halves : ∀ a, (a ∈ addresses u.state.data.get ∨ a ∈ addresses u.state.data.getBack) ↔
          a ∈ addresses loading.map ∨ a ∈ addresses e.data.data.get := by
        rcases states with ⟨_, same⟩ | ⟨_, same⟩
        · simp [same, switched]
        · simp [same, broken, or_comm]
      constructor
      · intro all _
        refine .inl fun a inside => ?_
        rcases (halves a).mp (all a inside) with new | old
        · -- a new order stands where no reference points to yet
          exact absurd (placed a new).1 (Nat.not_le.mpr (aged.references a inside))
        · exact old
      · intro supported a inside
        exact (halves a).mpr (.inr ((supported clears).resolve_right stopped a inside))

theorem aged_fresh : Aged AdRtbEngine.fresh :=
  ⟨fun _ inside => absurd inside List.not_mem_nil, fun _ inside => absurd inside List.not_mem_nil,
    fun _ inside => absurd inside List.not_mem_nil⟩

/-- Along a run of updates no filter in use ever points to a deleted order exactly when every
update is supported. -/
theorem no_dangling_iff (parse : Bytes → Option JsonValue) (worlds : List UpdateWorld) :
    (∀ e ∈ states (update parse) .fresh worlds, NoDangling e) ↔
      Throughout (update parse) (Supported parse) .fresh worlds :=
  states_iff_throughout (fun _ _ _ aged stepped => aged_update aged stepped)
    (fun _ _ _ aged sound stepped => noDangling_update_iff aged sound stepped) aged_fresh
    (fun _ inside => absurd inside List.not_mem_nil) worlds

/-- Filters are built over an order, a second set of orders arrives without prices, and a third
one stops at its first order. -/
theorem missed_filters_dangle :
    ¬ ∀ e ∈ states (update sampleParse) .fresh
        [sampleWorld (sampleRedis 1 [ascii "7"] []) [.tanxContent],
          sampleWorld (sampleRedis 2 [ascii "7"] [.priceConnect]) [],
          sampleWorld (sampleRedis 3 [ascii "7"] [.raw 0]) []],
      NoDangling e := by
  decide

end OrderLifetime
