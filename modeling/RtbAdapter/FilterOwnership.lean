import RtbAdapter.ObjectLedger
import RtbAdapter.PingPong
import RtbAdapter.NetProtocol
import RtbAdapter.StepRuns

/-!
# Who owns the filters

`AdRtbFilters` keeps two vectors of pointers to filters, one in use and one behind it.
`FiltersUpdate` deletes what only the vector behind points to, fills it anew and
exchanges the two; the real time filter is made once and then shared. What the
filters contain plays no part here: the outcome of each initialisation is an input.
-/

namespace FilterOwnership

open ObjectLedger PingPong
open NetProtocol (adSuccess adFailure)

inductive FilterKind where
  | time | adExchange | pid | area | size | userAgent | mobileOperator | mobileDevice
  | mobileConnect | parameter | ban | landingPage | tanx | realTime | frequence | mark
  deriving DecidableEq

namespace FilterKind

/-- The kinds by their `AD_FILTERID`. -/
def ids : List FilterKind :=
  [time, adExchange, pid, area, size, userAgent, mobileOperator, mobileDevice, mobileConnect,
    parameter, ban, landingPage, tanx, realTime, frequence, mark]

def flag : FilterKind → UInt32
  | time => 0x1
  | adExchange => 0x2
  | pid => 0x4
  | area => 0x8
  | size => 0x10
  | mobileOperator => 0x20
  | mobileDevice => 0x40
  | mobileConnect => 0x80
  | parameter => 0x100
  | ban => 0x200
  | landingPage => 0x400
  | realTime => 0x800
  | frequence => 0x1000
  | mark => 0x2000
  | tanx => 0x4000
  | userAgent => 0x8000

end FilterKind

def adFiltersAll : UInt32 := 0xffff
def adFilterIdTanx : Nat := 12
def adFilterIdRealTime : Nat := 13
def adFilterIdFrequence : Nat := 14
def adFilterIdMark : Nat := 15
def adFilterIdMax : Nat := 16

/-- A pointer to a filter: the object, and the class it is of. -/
structure Filter where
  id : Nat
  kind : FilterKind
  deriving DecidableEq

/-- Null is `none`. -/
abbrev Filters := List (Option Filter)

def pointers (v : Filters) : List Nat := v.filterMap fun f => f.map Filter.id

structure AdRtbFilters where
  filters : AdPingPongBuffer Filters := ⟨[], [], false⟩
  ledger : Ledger := {}

/-- What a call depends on: for which classes `new` finds memory, which of the files it asks
about have changed, and which initialisations succeed. -/
structure UpdateWorld where
  memory : FilterKind → Bool
  tanxChanged : Bool
  changed : Bool
  tanxInit : Bool
  realTimeInit : Bool
  frequenceInit : Bool
  markInit : Bool

namespace AdRtbFilters

variable (world : UpdateWorld) (s : AdRtbFilters) (uiFlags flag : UInt32) (kind : FilterKind)

/-- The loop of `FiltersClear`: what the vector in use points to is left alone. -/
def deleteUnused (vNow : Filters) : Filters → Ledger → Ledger
  | [], l => l
  | none :: vBak, l => deleteUnused vNow vBak l
  | some f :: vBak, l =>
    deleteUnused vNow vBak (if f.id ∈ pointers vNow then l else l.free f.id)

def filtersClear : AdRtbFilters where
  filters := s.filters.setBack []
  ledger := deleteUnused s.filters.get s.filters.getBack s.ledger

/-- `vBak.push_back` -/
def pushBack (f : Option Filter) : AdRtbFilters :=
  { s with filters := s.filters.setBack (s.filters.getBack ++ [f]) }

def filtersCreateFilter : Int × AdRtbFilters :=
  if flag ≠ 0 ∨ s.filters.get = [] then
    if world.memory kind then
      (adSuccess, { s.pushBack (some ⟨s.ledger.made, kind⟩) with ledger := s.ledger.make })
    else (adFailure, s.filtersClear)
  else (adSuccess, s.pushBack none)

/-- The calls of `FiltersCreateFilter`, one after the other, each with the flag of its class;
the real time filter is asked for with none. -/
def createAll : List FilterKind → AdRtbFilters → Int × AdRtbFilters
  | [], s => (adSuccess, s)
  | kind :: kinds, s =>
    let flag := if kind = .realTime then 0 else uiFlags &&& kind.flag
    let (ret, s) := s.filtersCreateFilter world flag kind
    if ret ≠ adSuccess then (adFailure, s) else createAll kinds s

/-- Between the real time filter and the next: the one in use is taken over. Reading past the
end of a vector ends the process. -/
def inheritRealTime : Option AdRtbFilters :=
  match s.filters.getBack[adFilterIdRealTime]? with
  | none => none
  | some (some _) => some s
  | some none =>
    s.filters.get[adFilterIdRealTime]?.map fun now =>
      { s with filters := s.filters.setBack (s.filters.getBack.set adFilterIdRealTime now) }

def filtersCreate : Option (Int × AdRtbFilters) :=
  let (ret, s) := createAll world uiFlags (FilterKind.ids.take adFilterIdFrequence) s
  if ret ≠ adSuccess then some (adFailure, s)
  else do
    let s ← if uiFlags &&& FilterKind.realTime.flag ≠ 0 then s.inheritRealTime else some s
    return createAll world uiFlags (FilterKind.ids.drop adFilterIdFrequence) s

/-- The initialisation of the Tanx, the frequency and the mark filter, when its flag is set: from
a file that has changed, or else from the filter in use, which is followed without a look at
the vector. -/
def initFilter (id : Nat) (kind : FilterKind) (changed init copy : Bool) : Option Int :=
  if uiFlags &&& kind.flag = 0 then some adSuccess
  else match s.filters.getBack[id]? with
    | none => none
    | some none => some adFailure
    | some (some _) =>
      if changed then some (if init then adSuccess else adFailure)
      else match s.filters.get[id]? with
        | some (some _) => some (if copy then adSuccess else adFailure)
        | _ => none

/-- The real time filter is initialised in the first update. -/
def initRealTime : Option Int :=
  if s.filters.get = [] then
    match s.filters.getBack[adFilterIdRealTime]? with
    | none => none
    | some none => some adFailure
    | some (some _) => some (if world.realTimeInit then adSuccess else adFailure)
  else some adSuccess

/-- The last loop of `FiltersInit`: a null is replaced by the filter in use. -/
def fillFrom (vNow : Filters) (vBack : Filters) : Option Filters :=
  (List.range adFilterIdMax).foldlM (fun vBack i =>
    match vBack[i]? with
    | none => none
    | some (some _) => some vBack
    | some none => vNow[i]?.map fun now => vBack.set i now) vBack

def filtersInit : Option (Int × AdRtbFilters) := do
  let ret ← s.initFilter uiFlags adFilterIdTanx .tanx world.tanxChanged world.tanxInit true
  if ret ≠ adSuccess then return (adFailure, s)
  let ret ← s.initRealTime world
  if ret ≠ adSuccess then return (adFailure, s)
  let ret ←
    s.initFilter uiFlags adFilterIdFrequence .frequence world.changed world.frequenceInit true
  if ret ≠ adSuccess then return (adFailure, s)
  let ret ← s.initFilter uiFlags adFilterIdMark .mark world.changed world.markInit world.markInit
  if ret ≠ adSuccess then return (adFailure, s)
  let vBack ← fillFrom s.filters.get s.filters.getBack
  return (adSuccess, { s with filters := s.filters.setBack vBack })

/-- Adding the orders to the new filters, between the two stages, moves no pointer. -/
def filtersUpdate : Option (Int × AdRtbFilters) := do
  let (ret, s) ← s.filtersClear.filtersCreate world adFiltersAll
  if ret ≠ adSuccess then return (ret, s)
  let (ret, s) ← s.filtersInit world adFiltersAll
  if ret ≠ adSuccess then return (ret, s)
  return (adSuccess, { s with filters := s.filters.switch })

/-- `~AdRtbFilters` -/
def destroy : AdRtbFilters :=
  let s := s.filtersClear
  { s with filters := s.filters.switch }.filtersClear

end AdRtbFilters

/-- One call of a run. -/
def update (world : UpdateWorld) (s : AdRtbFilters) : Option AdRtbFilters :=
  (s.filtersUpdate world).map Prod.snd

@[simp] theorem pointers_nil : pointers [] = [] := rfl

@[simp] theorem pointers_none {v : Filters} : pointers (none :: v) = pointers v := rfl

@[simp] theorem pointers_some {v : Filters} {f : Filter} :
    pointers (some f :: v) = f.id :: pointers v := rfl

@[simp] theorem pointers_append {v w : Filters} :
    pointers (v ++ w) = pointers v ++ pointers w := List.filterMap_append

/-- The loop of `FiltersClear` deletes each filter that only the vector behind points to. -/
theorem clear_deleteUnused {vNow vBak : Filters} {l : Ledger}
    (clear : l.Clear {id | id ∈ pointers vNow ∨ id ∈ pointers vBak})
    (nodup : (pointers vBak).Nodup) :
    (AdRtbFilters.deleteUnused vNow vBak l).Clear {id | id ∈ pointers vNow} := by
  induction vBak generalizing l with
  | nil => exact clear.congr fun id => by simp
  | cons f vBak ih =>
    cases f with
    | none => exact ih clear nodup
    | some f =>
      obtain ⟨outside, nodup⟩ := List.nodup_cons.mp nodup
      unfold AdRtbFilters.deleteUnused
      split
      · next used =>
        apply ih _ nodup
        apply clear.congr
        intro id
        simp only [pointers_some, Set.mem_ofPred_eq, List.mem_cons]
        constructor
        · rintro (now | rfl | behind)
          · exact Or.inl now
          · exact Or.inl used
          · exact Or.inr behind
        · rintro (now | behind)
          · exact Or.inl now
          · exact Or.inr (Or.inr behind)
      · next unused =>
        apply ih _ nodup
        have held : f.id ∈ {id | id ∈ pointers vNow ∨ id ∈ pointers (some f :: vBak)} := by simp
        apply (clear.free held).congr
        intro id
        simp only [pointers_some, Set.mem_sdiff, Set.mem_ofPred_eq, List.mem_cons,
          Set.mem_singleton_iff]
        constructor
        · rintro ⟨now | same | behind, differs⟩
          · exact Or.inl now
          · exact absurd same differs
          · exact Or.inr behind
        · rintro (now | behind)
          · exact ⟨Or.inl now, fun same => unused (same ▸ now)⟩
          · exact ⟨Or.inr (Or.inr behind), fun same => outside (same ▸ behind)⟩

/-- The filters that the two vectors point to are those not deleted, and neither vector points
to one twice. -/
structure Sound (s : AdRtbFilters) : Prop where
  clear : s.ledger.Clear {id | id ∈ pointers s.filters.get ∨ id ∈ pointers s.filters.getBack}
  now : (pointers s.filters.get).Nodup
  back : (pointers s.filters.getBack).Nodup

/-- No filter is in both vectors. -/
def Apart (s : AdRtbFilters) : Prop :=
  ∀ id ∈ pointers s.filters.getBack, id ∉ pointers s.filters.get

/-- The classes that a vector has at its positions. -/
def shape (v : Filters) : List (Option FilterKind) := v.map fun f => f.map Filter.kind

/-- A filter of each class at its position. -/
def Complete (v : Filters) : Prop := shape v = FilterKind.ids.map some

variable {world : UpdateWorld} {s after : AdRtbFilters} {uiFlags flag : UInt32} {kind : FilterKind}
  {kinds : List FilterKind} {ret : Int}

theorem sound_fresh : Sound {} := by
  constructor
  · exact clear_empty.congr fun id => by simp [AdPingPongBuffer.get, AdPingPongBuffer.getBack]
  · exact List.nodup_nil
  · exact List.nodup_nil

theorem get_filtersClear : s.filtersClear.filters.get = s.filters.get := by
  simp [AdRtbFilters.filtersClear]

theorem getBack_filtersClear : s.filtersClear.filters.getBack = [] := by
  simp [AdRtbFilters.filtersClear]

theorem Sound.filtersClear (sound : Sound s) : Sound s.filtersClear := by
  constructor
  · rw [get_filtersClear, getBack_filtersClear]
    exact (clear_deleteUnused sound.clear sound.back).congr fun id => by simp
  · rw [get_filtersClear]
    exact sound.now
  · rw [getBack_filtersClear]
    exact List.nodup_nil

/-- One call of `FiltersCreateFilter` adds an entry behind, or fails and leaves none there. -/
theorem Sound.filtersCreateFilter (sound : Sound s)
    (called : s.filtersCreateFilter world flag kind = (ret, after)) :
    Sound after ∧ after.filters.get = s.filters.get ∧
      ((ret = adSuccess ∧ (Apart s → Apart after) ∧ ∃ f, after.filters.getBack =
          s.filters.getBack ++ [f] ∧ f.map Filter.kind =
            if flag ≠ 0 ∨ s.filters.get = [] then some kind else none) ∨
        (ret ≠ adSuccess ∧ after.filters.getBack = [])) := by
  unfold AdRtbFilters.filtersCreateFilter at called
  split at called
  · next wanted =>
    split at called
    · obtain ⟨rfl, rfl⟩ := Prod.mk.inj called
      obtain ⟨-, new⟩ := sound.clear.fresh
      have fresh := not_or.mp new
      have back : (s.filters.setBack (s.filters.getBack ++ [some ⟨s.ledger.made, kind⟩])).getBack =
        s.filters.getBack ++ [some ⟨s.ledger.made, kind⟩] := AdPingPongBuffer.getBack_setBack ..
      have now : (s.filters.setBack (s.filters.getBack ++ [some ⟨s.ledger.made, kind⟩])).get =
        s.filters.get := AdPingPongBuffer.get_setBack ..
      refine ⟨⟨?_, ?_, ?_⟩, now, Or.inl ⟨rfl, ?_, _, back, ?_⟩⟩
      · apply sound.clear.make.congr
        intro id
        simp only [AdRtbFilters.pushBack, back, now, pointers_append, pointers_some, pointers_nil,
          Set.mem_insert_iff, Set.mem_ofPred_eq, List.mem_append, List.mem_singleton]
        tauto
      · exact now ▸ sound.now
      · simp only [AdRtbFilters.pushBack, back, pointers_append, pointers_some, pointers_nil]
        apply sound.back.append (List.nodup_singleton _)
        intro id behind same
        rw [List.mem_singleton.mp same] at behind
        exact fresh.2 behind
      · intro apart id
        simp only [AdRtbFilters.pushBack, back, now, pointers_append, pointers_some, pointers_nil,
          List.mem_append, List.mem_singleton]
        rintro (behind | rfl)
        · exact apart id behind
        · exact fresh.1
      · exact (if_pos wanted).symm
    · obtain ⟨rfl, rfl⟩ := Prod.mk.inj called
      exact ⟨sound.filtersClear, get_filtersClear, Or.inr ⟨by decide, getBack_filtersClear⟩⟩
  · next unwanted =>
    obtain ⟨rfl, rfl⟩ := Prod.mk.inj called
    have back : (s.filters.setBack (s.filters.getBack ++ [none])).getBack =
      s.filters.getBack ++ [none] := AdPingPongBuffer.getBack_setBack ..
    have now : (s.filters.setBack (s.filters.getBack ++ [none])).get = s.filters.get :=
      AdPingPongBuffer.get_setBack ..
    have same : pointers (s.filters.getBack ++ [none]) = pointers s.filters.getBack := by simp
    refine ⟨⟨?_, ?_, ?_⟩, now, Or.inl ⟨rfl, ?_, none, back, (if_neg unwanted).symm⟩⟩
    · simp only [AdRtbFilters.pushBack, back, now, same]
      exact sound.clear
    · exact now ▸ sound.now
    · simp only [AdRtbFilters.pushBack, back, same]
      exact sound.back
    · intro apart
      unfold Apart
      simp only [AdRtbFilters.pushBack, back, now, same]
      exact apart

/-- The entry that a class gets: none for a real time filter while there are filters in use. -/
def entryKind (uiFlags : UInt32) (vNow : Filters) (kind : FilterKind) : Option FilterKind :=
  if (if kind = .realTime then 0 else uiFlags &&& kind.flag) ≠ 0 ∨ vNow = [] then some kind
  else none

theorem Sound.createAll (sound : Sound s)
    (called : AdRtbFilters.createAll world uiFlags kinds s = (ret, after)) :
    Sound after ∧ after.filters.get = s.filters.get ∧
      ((ret = adSuccess ∧ (Apart s → Apart after) ∧ ∃ new, after.filters.getBack =
          s.filters.getBack ++ new ∧ shape new = kinds.map (entryKind uiFlags s.filters.get)) ∨
        (ret ≠ adSuccess ∧ (kinds ≠ [] → after.filters.getBack = []))) := by
  induction kinds generalizing s with
  | nil =>
    obtain ⟨rfl, rfl⟩ := Prod.mk.inj called
    exact ⟨sound, rfl, Or.inl ⟨rfl, id, [], by simp, rfl⟩⟩
  | cons kind kinds ih =>
    simp only [AdRtbFilters.createAll] at called
    generalize created : s.filtersCreateFilter world
      (if kind = .realTime then 0 else uiFlags &&& kind.flag) kind = result at called
    obtain ⟨one, between⟩ := result
    obtain ⟨sound', now, ⟨rfl, apart, f, back, entry⟩ | ⟨failed, none⟩⟩ :=
      sound.filtersCreateFilter created
    · rw [if_neg (by simp)] at called
      obtain ⟨sound'', now', ⟨rfl, apart', new, back', entries⟩ | ⟨failed, none⟩⟩ :=
        ih sound' called
      · refine ⟨sound'', now'.trans now, Or.inl ⟨rfl, apart' ∘ apart, f :: new, ?_, ?_⟩⟩
        · rw [back', back, List.append_assoc, List.singleton_append]
        · rw [now] at entries
          simp only [shape, List.map_cons] at entries ⊢
          rw [entries, entry]
          rfl
      · refine ⟨sound'', now'.trans now, Or.inr ⟨failed, fun _ => ?_⟩⟩
        cases kinds with
        | nil => exact absurd (Prod.mk.inj called).1.symm failed
        | cons next kinds => exact none (by simp)
    · rw [if_pos failed] at called
      obtain ⟨rfl, rfl⟩ := Prod.mk.inj called
      exact ⟨sound', now, Or.inr ⟨by decide, fun _ => none⟩⟩

theorem Complete.length {v : Filters} (complete : Complete v) : v.length = adFilterIdMax := by
  have lengths := congrArg List.length complete
  simpa [shape, FilterKind.ids, adFilterIdMax] using lengths

/-- A complete vector has a filter at each of its positions. -/
theorem Complete.found {v : Filters} (complete : Complete v) {i : Nat} {kind : FilterKind}
    (here : FilterKind.ids[i]? = some kind) : ∃ f, v[i]? = some (some f) ∧ f.kind = kind := by
  have at_i : (shape v)[i]? = some (some kind) := by
    rw [complete, List.getElem?_map, here]
    rfl
  rw [shape, List.getElem?_map] at at_i
  obtain ⟨f, found, same⟩ := Option.map_eq_some_iff.mp at_i
  obtain ⟨f, rfl, rfl⟩ := Option.map_eq_some_iff.mp same
  exact ⟨f, found, rfl⟩

theorem pointers_mem {v : Filters} {f : Filter} (among : some f ∈ v) : f.id ∈ pointers v :=
  List.mem_filterMap.mpr ⟨some f, among, rfl⟩

/-- The filters that are made in the first part, with the real time filter taken over. -/
theorem Sound.inheritRealTime (sound : Sound s) (apart : Apart s) {first : Filters}
    {last : Option Filter} (length : first.length = adFilterIdRealTime)
    (back : s.filters.getBack = first ++ [last])
    (known : last.isSome ∨ Complete s.filters.get) :
    ∃ after f, s.inheritRealTime = some after ∧ Sound after ∧
      after.filters.get = s.filters.get ∧ after.filters.getBack = first ++ [some f] ∧
      (last = some f ∨ last = none ∧ s.filters.get[adFilterIdRealTime]? = some (some f)) := by
  have here : s.filters.getBack[adFilterIdRealTime]? = some last := by
    rw [back, ← length, List.getElem?_concat_length]
  unfold AdRtbFilters.inheritRealTime
  rw [here]
  cases last with
  | some f => exact ⟨s, f, rfl, sound, rfl, back, Or.inl rfl⟩
  | none =>
    have complete := known.resolve_left (by simp)
    obtain ⟨f, inUse, -⟩ := complete.found (i := adFilterIdRealTime) rfl
    have replaced : s.filters.getBack.set adFilterIdRealTime (some f) = first ++ [some f] := by
      rw [back, ← length, List.set_append_right _ _ (Nat.le_refl _), Nat.sub_self,
        List.set_cons_zero]
    have used : f.id ∈ pointers s.filters.get := pointers_mem (List.mem_of_getElem? inUse)
    have fewer : pointers s.filters.getBack = pointers first := by
      rw [back]
      simp
    refine ⟨{ s with filters := s.filters.setBack (first ++ [some f]) }, f, ?_, ⟨?_, ?_, ?_⟩,
      ?_, ?_,
      Or.inr ⟨rfl, inUse⟩⟩
    · simp only [inUse, Option.map_some, replaced]
    · apply sound.clear.congr
      intro id
      simp only [fewer, AdPingPongBuffer.get_setBack, AdPingPongBuffer.getBack_setBack,
        Set.mem_ofPred_eq, pointers_append, pointers_some, pointers_nil, List.mem_append,
        List.mem_singleton]
      constructor
      · rintro (now | behind)
        · exact Or.inl now
        · exact Or.inr (Or.inl behind)
      · rintro (now | behind | rfl)
        · exact Or.inl now
        · exact Or.inr behind
        · exact Or.inl used
    · simp only [AdPingPongBuffer.get_setBack]
      exact sound.now
    · simp only [AdPingPongBuffer.getBack_setBack, pointers_append, pointers_some, pointers_nil]
      have nodup := sound.back
      rw [fewer] at nodup
      apply nodup.append (List.nodup_singleton _)
      intro id behind same
      rw [List.mem_singleton.mp same] at behind
      rw [← fewer] at behind
      exact apart _ behind used
    · exact AdPingPongBuffer.get_setBack ..
    · exact AdPingPongBuffer.getBack_setBack ..

theorem entryKind_all {vNow : Filters} (other : kind ≠ .realTime) :
    entryKind adFiltersAll vNow kind = some kind := by
  unfold entryKind
  rw [if_neg other, if_pos]
  left
  cases kind <;> decide

theorem entryKind_realTime {vNow : Filters} :
    entryKind adFiltersAll vNow .realTime = if vNow = [] then some .realTime else none := by
  simp [entryKind]

/-- All classes but the real time filter are made. -/
theorem entryKinds_all {vNow : Filters} (other : .realTime ∉ kinds) :
    kinds.map (entryKind adFiltersAll vNow) = kinds.map some := by
  apply List.map_congr_left
  intro kind among
  apply entryKind_all
  rintro rfl
  exact other among

/-- The first part of the entries ends with that of the real time filter. -/
theorem first_part {vNow new : Filters} (entries : shape new =
      (FilterKind.ids.take adFilterIdFrequence).map (entryKind adFiltersAll vNow)) :
    ∃ first last, new = first ++ [last] ∧
      shape first = (FilterKind.ids.take adFilterIdRealTime).map some ∧
      first.length = adFilterIdRealTime ∧
      last.map Filter.kind = if vNow = [] then some .realTime else none := by
  obtain ⟨first, last, rfl⟩ : ∃ first last, new = first ++ [last] := by
    rcases List.eq_nil_or_concat new with rfl | found
    · cases entries
    · simpa using found
  have parted : shape first ++ [last.map Filter.kind] =
      (FilterKind.ids.take adFilterIdRealTime).map some ++
        [entryKind adFiltersAll vNow .realTime] := by
    have both : shape (first ++ [last]) = shape first ++ [last.map Filter.kind] := by simp [shape]
    rw [← both, entries, ← entryKinds_all (by decide)]
    rfl
  obtain ⟨shapes, lastKind⟩ := List.append_inj' parted rfl
  have length : first.length = adFilterIdRealTime := by
    have lengths := congrArg List.length shapes
    simpa [shape, FilterKind.ids, adFilterIdRealTime] using lengths
  rw [entryKind_realTime] at lastKind
  exact ⟨first, last, rfl, shapes, length, List.singleton_inj.mp lastKind⟩

variable (world) in
/-- With all flags, `FiltersCreate` puts a filter at every position behind, the real time filter
in use among them, or fails and leaves none. -/
theorem Sound.filtersCreate (sound : Sound s) (empty : s.filters.getBack = [])
    (fixed : s.filters.get = [] ∨ Complete s.filters.get) :
    ∃ ret after, s.filtersCreate world adFiltersAll = some (ret, after) ∧ Sound after ∧
      after.filters.get = s.filters.get ∧
      (ret = adSuccess ∧ Complete after.filters.getBack ∧
          (s.filters.get ≠ [] → after.filters.getBack[adFilterIdRealTime]? =
            s.filters.get[adFilterIdRealTime]?) ∨
        ret ≠ adSuccess ∧ after.filters.getBack = []) := by
  have apart : Apart s := by
    intro id behind
    rw [empty] at behind
    cases behind
  unfold AdRtbFilters.filtersCreate
  generalize created : AdRtbFilters.createAll world adFiltersAll
    (FilterKind.ids.take adFilterIdFrequence) s = result
  obtain ⟨ret, begun⟩ := result
  obtain ⟨soundBegun, now, ⟨rfl, keeps, new, back, entries⟩ | ⟨failed, none⟩⟩ :=
    sound.createAll created
  swap
  · refine ⟨adFailure, begun, ?_, soundBegun, now, Or.inr ⟨by decide, none (by decide)⟩⟩
    exact if_pos failed
  -- the last entry so far is that of the real time filter
  rw [empty, List.nil_append] at back
  obtain ⟨first, last, rfl, shapes, length, lastKind⟩ := first_part entries
  have known : last.isSome ∨ Complete begun.filters.get := by
    rcases fixed with nil | complete
    · rw [if_pos nil] at lastKind
      cases last with
      | none => cases lastKind
      | some f => exact Or.inl rfl
    · exact Or.inr (now ▸ complete)
  obtain ⟨shared, f, taken, soundShared, nowShared, backShared, same⟩ :=
    soundBegun.inheritRealTime (keeps apart) length back known
  have realTime : f.kind = .realTime := by
    rcases same with rfl | ⟨-, inUse⟩
    · split at lastKind
      · exact Option.some.inj lastKind
      · cases lastKind
    · rcases fixed with nil | complete
      · rw [now, nil] at inUse
        cases inUse
      · obtain ⟨g, found, kind⟩ := complete.found (i := adFilterIdRealTime) rfl
        rw [now, found] at inUse
        cases inUse
        exact kind
  generalize rest : AdRtbFilters.createAll world adFiltersAll
    (FilterKind.ids.drop adFilterIdFrequence) shared = result
  obtain ⟨ret, after⟩ := result
  refine ⟨ret, after, ?_, ?_⟩
  · have wanted : adFiltersAll &&& FilterKind.realTime.flag ≠ 0 := by decide
    simp only [ne_eq, not_true_eq_false, if_false, if_pos wanted, taken]
    exact congrArg some rest
  obtain ⟨soundAfter, nowAfter, ⟨rfl, -, new, backAfter, entries⟩ | ⟨failed, none⟩⟩ :=
    soundShared.createAll rest
  · refine ⟨soundAfter, nowAfter.trans (nowShared.trans now), Or.inl ⟨rfl, ?_, ?_⟩⟩
    · rw [entryKinds_all (by decide)] at entries
      rw [Complete, backAfter, backShared, shape, List.map_append, List.map_append]
      unfold shape at shapes entries
      rw [shapes, entries]
      simp only [List.map_cons, List.map_nil, Option.map_some, realTime]
      rfl
    · intro used
      rw [backAfter, backShared, List.append_assoc, ← length,
        List.getElem?_append_right (Nat.le_refl _), Nat.sub_self]
      rcases same with rfl | ⟨-, inUse⟩
      · rw [if_neg used] at lastKind
        cases lastKind
      · rw [length, ← now, inUse]
        rfl
  · exact ⟨soundAfter, nowAfter.trans (nowShared.trans now), Or.inr ⟨failed, none (by decide)⟩⟩

/-- A complete vector has no null to be replaced. -/
theorem Complete.fillFrom {vNow vBack : Filters} (complete : Complete vBack) :
    AdRtbFilters.fillFrom vNow vBack = some vBack := by
  have every : ∀ i ∈ List.range adFilterIdMax, ∃ f, vBack[i]? = some (some f) := by
    intro i below
    have inside : i < FilterKind.ids.length := List.mem_range.mp below
    obtain ⟨f, found, -⟩ := complete.found (List.getElem?_eq_getElem inside)
    exact ⟨f, found⟩
  unfold AdRtbFilters.fillFrom
  generalize List.range adFilterIdMax = places at every
  induction places with
  | nil => rfl
  | cons i rest ih =>
    obtain ⟨f, found⟩ := every i (.head _)
    rw [List.foldlM_cons, found]
    exact ih fun j among => every j (.tail _ among)

/-- `FiltersInit` moves no pointer when every position behind is filled. -/
theorem Complete.filtersInit (complete : Complete s.filters.getBack)
    (called : s.filtersInit world uiFlags = some (ret, after)) :
    after = { s with filters := s.filters.setBack s.filters.getBack } ∧ ret = adSuccess ∨
      after = s ∧ ret ≠ adSuccess := by
  unfold AdRtbFilters.filtersInit at called
  rw [complete.fillFrom] at called
  obtain ⟨tanx, -, called⟩ := Option.bind_eq_some_iff.mp called
  split at called
  · cases called
    exact Or.inr ⟨rfl, by decide⟩
  obtain ⟨realTime, -, called⟩ := Option.bind_eq_some_iff.mp called
  split at called
  · cases called
    exact Or.inr ⟨rfl, by decide⟩
  obtain ⟨frequence, -, called⟩ := Option.bind_eq_some_iff.mp called
  split at called
  · cases called
    exact Or.inr ⟨rfl, by decide⟩
  obtain ⟨mark, -, called⟩ := Option.bind_eq_some_iff.mp called
  split at called
  · cases called
    exact Or.inr ⟨rfl, by decide⟩
  · cases called
    exact Or.inl ⟨rfl, rfl⟩

/-- The vector in use is empty, or has a filter of each class at its position. -/
def Fixed (s : AdRtbFilters) : Prop := s.filters.get = [] ∨ Complete s.filters.get

structure Steady (s : AdRtbFilters) : Prop where
  sound : Sound s
  fixed : Fixed s

/-- The real time filter in use, if there is one. -/
def realTimeFilter (s : AdRtbFilters) : Option (Option Filter) :=
  s.filters.get[adFilterIdRealTime]?

theorem Sound.switch (sound : Sound s) : Sound { s with filters := s.filters.switch } := by
  constructor
  · simp only [AdPingPongBuffer.get_switch, AdPingPongBuffer.getBack_switch]
    exact sound.clear.congr fun id => or_comm
  · simp only [AdPingPongBuffer.get_switch]
    exact sound.back
  · simp only [AdPingPongBuffer.getBack_switch]
    exact sound.now

theorem Sound.setBack_getBack (sound : Sound s) :
    Sound { s with filters := s.filters.setBack s.filters.getBack } := by
  constructor
  · simp only [AdPingPongBuffer.get_setBack, AdPingPongBuffer.getBack_setBack]
    exact sound.clear
  · simp only [AdPingPongBuffer.get_setBack]
    exact sound.now
  · simp only [AdPingPongBuffer.getBack_setBack]
    exact sound.back

/-- What one call of `FiltersUpdate` does: the filters in use stay in use, or are replaced by a
complete set with the same real time filter. -/
theorem Steady.update (steady : Steady s) (called : update world s = some after) :
    Steady after ∧ (s.filters.get ≠ [] →
      after.filters.get ≠ [] ∧ realTimeFilter after = realTimeFilter s) := by
  obtain ⟨⟨ret, after⟩, updated, rfl⟩ := Option.map_eq_some_iff.mp called
  unfold AdRtbFilters.filtersUpdate at updated
  have fixed : s.filtersClear.filters.get = [] ∨ Complete s.filtersClear.filters.get := by
    rw [get_filtersClear]
    exact steady.fixed
  obtain ⟨ret', created, done, sound, now, outcome⟩ :=
    steady.sound.filtersClear.filtersCreate world getBack_filtersClear fixed
  rw [get_filtersClear] at now
  have unchanged : ∀ t : AdRtbFilters, Sound t → t.filters.get = s.filters.get →
      Steady t ∧ (s.filters.get ≠ [] →
        t.filters.get ≠ [] ∧ realTimeFilter t = realTimeFilter s) := by
    intro t sound same
    refine ⟨⟨sound, ?_⟩, fun used => ⟨same ▸ used, ?_⟩⟩
    · unfold Fixed
      rw [same]
      exact steady.fixed
    · unfold realTimeFilter
      rw [same]
  rw [done, Option.bind_eq_bind, Option.bind_some] at updated
  rcases outcome with ⟨rfl, complete, realTime⟩ | ⟨failed, -⟩
  · rw [get_filtersClear] at realTime
    simp only [ne_eq, not_true_eq_false, if_false] at updated
    obtain ⟨⟨ret, inited⟩, init, rest⟩ := Option.bind_eq_some_iff.mp updated
    rcases complete.filtersInit init with ⟨rfl, rfl⟩ | ⟨rfl, failed⟩
    · simp only [not_true_eq_false, if_false] at rest
      cases rest
      refine ⟨⟨sound.setBack_getBack.switch, Or.inr ?_⟩, fun used => ⟨?_, ?_⟩⟩
      · simp only [AdPingPongBuffer.get_switch, AdPingPongBuffer.getBack_setBack]
        exact complete
      · simp only [AdPingPongBuffer.get_switch, AdPingPongBuffer.getBack_setBack]
        intro nil
        have length := complete.length
        rw [nil] at length
        cases length
      · simp only [realTimeFilter, AdPingPongBuffer.get_switch, AdPingPongBuffer.getBack_setBack]
        exact realTime used
    · simp only [if_pos failed] at rest
      cases rest
      exact unchanged _ sound now
  · simp only [ne_eq, if_pos failed] at updated
    cases updated
    exact unchanged _ sound now

/-- No filter that a vector points to is deleted, none is deleted twice, each one made is deleted
or pointed to, and the vector in use is empty or has its filters at their positions. -/
structure Owned (s : AdRtbFilters) : Prop where
  inUse : ∀ id ∈ pointers s.filters.get, id ∉ s.ledger.freed
  behind : ∀ id ∈ pointers s.filters.getBack, id ∉ s.ledger.freed
  once : s.ledger.freed.Nodup
  kept : ∀ id < s.ledger.made, id ∈ s.ledger.freed ∨
    id ∈ pointers s.filters.get ∨ id ∈ pointers s.filters.getBack
  fixed : Fixed s

/-- Each filter made is deleted, and deleted once. -/
structure Gone (s : AdRtbFilters) : Prop where
  once : s.ledger.freed.Nodup
  all : ∀ id, id < s.ledger.made ↔ id ∈ s.ledger.freed

theorem Steady.owned (steady : Steady s) : Owned s := by
  have clear := steady.sound.clear
  constructor
  · exact fun id used gone => clear.apart id gone (Or.inl used)
  · exact fun id behind gone => clear.apart id gone (Or.inr behind)
  · exact clear.once
  · exact fun id made => (clear.known id).mp made
  · exact steady.fixed

/-- The destructor deletes what the two vectors still point to. -/
theorem Sound.destroy (sound : Sound s) : Gone s.destroy := by
  have last := sound.filtersClear.switch.filtersClear.clear
  have none : {id | id ∈ pointers s.destroy.filters.get ∨
      id ∈ pointers s.destroy.filters.getBack} = ∅ := by
    ext id
    simp [AdRtbFilters.destroy, get_filtersClear, getBack_filtersClear]
  have clear : s.destroy.ledger.Clear ∅ := none ▸ last
  refine ⟨clear.once, fun id => ?_⟩
  rw [clear.known id]
  simp

theorem steady_fresh : Steady {} := ⟨sound_fresh, Or.inl rfl⟩

theorem steady_states {worlds : List UpdateWorld} (start : Steady s) :
    ∀ t ∈ StepRuns.states update s worlds, Steady t :=
  StepRuns.states_keep (fun _ _ _ steady called => (steady.update called).1) start worlds

/-- In every state of every run of updates the filters are owned, the destructor then deletes
each of them once, and the real time filter in use stays in use. -/
theorem filters_owned (worlds : List UpdateWorld) :
    ∀ s ∈ StepRuns.states update {} worlds,
      Owned s ∧ Gone s.destroy ∧ (s.filters.get ≠ [] → ∀ more : List UpdateWorld,
        ∀ t ∈ StepRuns.states update s more, realTimeFilter t = realTimeFilter s) := by
  intro s reached
  have steady := steady_states steady_fresh s reached
  refine ⟨steady.owned, steady.sound.destroy, fun used more t later => ?_⟩
  have keep : ∀ world s' after,
      (Steady s' ∧ s'.filters.get ≠ [] ∧ realTimeFilter s' = realTimeFilter s) →
      update world s' = some after →
      Steady after ∧ after.filters.get ≠ [] ∧ realTimeFilter after = realTimeFilter s := by
    rintro world s' after ⟨steady', used', same⟩ called
    obtain ⟨steadyAfter, stays⟩ := steady'.update called
    obtain ⟨usedAfter, sameAfter⟩ := stays used'
    exact ⟨steadyAfter, usedAfter, sameAfter.trans same⟩
  exact (StepRuns.states_keep keep ⟨steady, used, rfl⟩ more t later).2.2

/-- Memory for every filter, changed files, and every initialisation succeeds. -/
def quietUpdate : UpdateWorld where
  memory _ := true
  tanxChanged := true
  changed := true
  tanxInit := true
  realTimeInit := true
  frequenceInit := true
  markInit := true

/-- The state after a first update that fails at the Tanx files and a second one that succeeds. -/
def secondTry : AdRtbFilters :=
  ((update { quietUpdate with tanxInit := false } {}).bind (update quietUpdate)).getD {}

theorem secondTry_owned : Owned secondTry ∧ Gone secondTry.destroy :=
  have all := filters_owned [{ quietUpdate with tanxInit := false }, quietUpdate] secondTry
    (.tail _ (.tail _ (.head _)))
  ⟨all.1, all.2.1⟩

end FilterOwnership
