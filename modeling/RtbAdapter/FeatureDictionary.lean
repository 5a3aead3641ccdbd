import Mathlib.Tactic
import Std.Data.TreeMap.Lemmas
import RtbAdapter.CText
import RtbAdapter.FeatureNames
import RtbAdapter.InverseMaps

/-!
# The feature dictionary

Training gives the next number to every name that is not in the dictionary yet. The file
of the dictionary has a line for each name, with a tab in front of the number; a name with
a tab or a line end in it does not come back.
-/

namespace FeatureDictionary

open Std ByteWords CText FeatureNames InverseMaps TextPieces

/-- The names with their ids, as many as a `size_t` counts. -/
structure FDict where
  map : TreeMap Bytes Nat
  fits : map.size < 2 ^ 64

structure Feature where
  idx : Nat
  val : Rat
  deriving DecidableEq

def tab : UInt8 := 9
def newline : UInt8 := 10

namespace FDict

def empty : FDict := ⟨∅, by simp⟩

/-- A map that is full throws. -/
def assign (d : FDict) (name : Bytes) (id : Nat) : Option FDict :=
  if fits : (d.map.insert name id).size < 2 ^ 64 then some ⟨_, fits⟩ else none

/-- Zero is reserved for a name that is not found. -/
def getFeatureId (d : FDict) (name : Bytes) (createNew : Bool) : Option (Nat × FDict) :=
  match d.map[name]? with
  | some id => some (id, d)
  | none =>
    if createNew then
      (d.assign name (d.map.size + 1)).map fun after => (after.map.size, after)
    else some (0, d)

end FDict

def appendFeature (createNew : Bool) (state : List Feature × FDict) (name : Bytes) :
    Option (List Feature × FDict) :=
  (state.2.getFeatureId name createNew).map fun (fid, d) =>
    if fid = 0 then (state.1, d) else (state.1 ++ [⟨fid, 1⟩], d)

def extractFeatures (d : FDict) (ins : RawInstance) (createNew : Bool) :
    Option (List Feature × FDict) :=
  ((names ins).foldlM (appendFeature createNew) ([], d)).map fun (features, d) =>
    (features.mergeSort (fun a b => a.idx ≤ b.idx), d)

def extractForTrain (d : FDict) (ins : RawInstance) : Option (List Feature × FDict) :=
  extractFeatures d ins true

def extractForPredict (d : FDict) (ins : RawInstance) : Option (List Feature × FDict) :=
  extractFeatures d ins false

/-- The dictionary after the training instances. -/
def train (d : FDict) (instances : List RawInstance) : Option FDict :=
  instances.foldlM (fun d ins => (extractForTrain d ins).map Prod.snd) d

/-- A line that has not two fields empties the dictionary. -/
def loadLines (d : FDict) : List Bytes → Option (Bool × FDict)
  | [] => some (true, d)
  | line :: lines =>
    match splitBySep line tab with
    | [name, id] =>
      (d.assign name (strtoul (cStr id)).toUInt64.toNat).bind fun d => loadLines d lines
    | _ => some (false, .empty)

def loadFdictFromFile (file : Bytes) : Option (Bool × FDict) :=
  loadLines .empty (pieces newline file)

def lineOf (entry : Bytes × Nat) : Bytes := entry.1 ++ tab :: decimal entry.2

def saveFdictToFile (d : FDict) : Bytes :=
  (d.map.toList.map lineOf).flatMap (· ++ [newline])

/-- The ids are the numbers from 1 to the number of names, each for one name. -/
structure Numbered (d : FDict) : Prop where
  range : ∀ (name : Bytes) (id : Nat), d.map[name]? = some id → 1 ≤ id ∧ id ≤ d.map.size
  injective : ∀ (name name' : Bytes) (id : Nat),
    d.map[name]? = some id → d.map[name']? = some id → name = name'
  onto : ∀ id, 1 ≤ id → id ≤ d.map.size → ∃ name : Bytes, d.map[name]? = some id

theorem numbered_empty : Numbered .empty where
  range name id found := by simp [FDict.empty] at found
  injective name name' id found := by simp [FDict.empty] at found
  onto id positive small := by
    have none : FDict.empty.map.size = 0 := by simp [FDict.empty]
    omega

/-- The dictionary grows by the names, and what it had stays. -/
structure Grows (d after : FDict) (ns : List Bytes) : Prop where
  keeps : ∀ (name : Bytes) (id : Nat), d.map[name]? = some id → after.map[name]? = some id
  keys : ∀ name, name ∈ after.map ↔ name ∈ d.map ∨ name ∈ ns
  numbered : Numbered d → Numbered after

variable {d after : FDict} {n : Bytes} {ns : List Bytes} {id : Nat}

theorem Grows.refl (d : FDict) : Grows d d [] := ⟨fun _ _ found => found, by simp, fun kept => kept⟩

theorem Grows.trans {last : FDict} {ms : List Bytes} (first : Grows d after ns)
    (second : Grows after last ms) : Grows d last (ns ++ ms) where
  keeps name id found := second.keeps name id (first.keeps name id found)
  keys name := by rw [second.keys, first.keys, List.mem_append, or_assoc]
  numbered kept := second.numbered (first.numbered kept)

theorem mem_map {name : Bytes} : name ∈ d.map ↔ ∃ id, d.map[name]? = some id := by
  rw [TreeMap.mem_iff_isSome_getElem?, Option.isSome_iff_exists]

theorem size_new (new : n ∉ d.map) : (d.map.insert n id).size = d.map.size + 1 := by
  rw [TreeMap.size_insert, if_neg]
  rwa [TreeMap.contains_iff_mem]

theorem numbered_new (kept : Numbered d) (new : n ∉ d.map)
    (same : after.map = d.map.insert n (d.map.size + 1)) : Numbered after := by
  have size : after.map.size = d.map.size + 1 := by rw [same, size_new new]
  have found (name : Bytes) (id : Nat) : after.map[name]? = some id ↔
      name = n ∧ d.map.size + 1 = id ∨ name ≠ n ∧ d.map[name]? = some id := by
    rw [same]
    by_cases equal : n = name
    · subst equal
      simp
    · simp [getElem?_insert_ne equal, Ne.symm equal]
  constructor
  · intro name id there
    rcases (found name id).mp there with ⟨_, rfl⟩ | ⟨_, old⟩
    · omega
    · have range := kept.range name id old
      omega
  · intro name name' id there there'
    rcases (found name id).mp there with ⟨rfl, last⟩ | ⟨_, old⟩
    · rcases (found name' id).mp there' with ⟨rfl, _⟩ | ⟨_, old'⟩
      · rfl
      · have range := kept.range name' id old'
        omega
    · rcases (found name' id).mp there' with ⟨_, last⟩ | ⟨_, old'⟩
      · have range := kept.range name id old
        omega
      · exact kept.injective name name' id old old'
  · intro id positive small
    by_cases last : id = d.map.size + 1
    · exact ⟨n, (found n id).mpr (.inl ⟨rfl, last.symm⟩)⟩
    · obtain ⟨name, old⟩ := kept.onto id positive (by omega)
      refine ⟨name, (found name id).mpr (.inr ⟨?_, old⟩)⟩
      rintro rfl
      exact new (mem_map.mpr ⟨id, old⟩)

/-- What the id of a known name does, and of a new one when training and when predicting. -/
theorem getFeatureId_cases {createNew : Bool} {fid : Nat}
    (got : d.getFeatureId n createNew = some (fid, after)) :
    d.map[n]? = some fid ∧ after = d ∨
      n ∉ d.map ∧ createNew = true ∧ fid = d.map.size + 1 ∧
        after.map = d.map.insert n (d.map.size + 1) ∨
      n ∉ d.map ∧ createNew = false ∧ fid = 0 ∧ after = d := by
  rw [FDict.getFeatureId] at got
  cases found : d.map[n]? with
  | some id =>
    simp only [found, Option.some.injEq, Prod.mk.injEq] at got
    exact .inl ⟨by rw [got.1], got.2.symm⟩
  | none =>
    have new : n ∉ d.map := by rw [TreeMap.mem_iff_isSome_getElem?, found]; simp
    simp only [found] at got
    cases createNew with
    | false =>
      simp only [Bool.false_eq_true, if_false, Option.some.injEq, Prod.mk.injEq] at got
      exact .inr (.inr ⟨new, rfl, got.1.symm, got.2.symm⟩)
    | true =>
      simp only [if_true] at got
      obtain ⟨after', assigned, same⟩ := Option.map_eq_some_iff.mp got
      rw [FDict.assign] at assigned
      split_ifs at assigned with fits
      obtain rfl := Option.some.inj assigned
      obtain ⟨rfl, rfl⟩ := Prod.mk.inj same
      exact .inr (.inl ⟨new, rfl, size_new new, rfl⟩)

theorem getFeatureId_grows {fid : Nat} (got : d.getFeatureId n true = some (fid, after)) :
    Grows d after [n] ∧ after.map[n]? = some fid := by
  rcases getFeatureId_cases got with ⟨found, rfl⟩ | ⟨new, _, rfl, same⟩ | ⟨_, off, _⟩
  · refine ⟨⟨fun _ _ found => found, fun name => ?_, fun kept => kept⟩, found⟩
    rw [List.mem_singleton, or_iff_left_of_imp]
    rintro rfl
    exact mem_map.mpr ⟨fid, found⟩
  · refine ⟨⟨fun name id found => ?_, fun name => ?_, fun kept => numbered_new kept new same⟩, ?_⟩
    · rw [same, getElem?_insert_ne, found]
      rintro rfl
      exact new (mem_map.mpr ⟨id, found⟩)
    · rw [same, mem_insert_iff, List.mem_singleton, or_comm]
    · rw [same, TreeMap.getElem?_insert_self]
  · cases off

/-- The ids that the names got, without zeros. -/
def idsIn (d : FDict) (ns : List Bytes) : List Nat :=
  (ns.map fun n => d.map[n]?.getD 0).filter (· ≠ 0)

theorem idsIn_cons : idsIn d (n :: ns) =
    (if d.map[n]?.getD 0 = 0 then [] else [d.map[n]?.getD 0]) ++ idsIn d ns := by
  by_cases zero : d.map[n]?.getD 0 = 0
  · simp [idsIn, zero]
  · simp [idsIn, zero]

theorem appendFeature_some {createNew : Bool} {fs fs' : List Feature}
    (appended : appendFeature createNew (fs, d) n = some (fs', after)) :
    ∃ fid, d.getFeatureId n createNew = some (fid, after) ∧
      fs' = fs ++ (if fid = 0 then [] else [⟨fid, 1⟩]) := by
  rw [appendFeature] at appended
  obtain ⟨⟨fid, d'⟩, got, same⟩ := Option.map_eq_some_iff.mp appended
  dsimp only at same
  split_ifs at same with zero
  · obtain ⟨rfl, rfl⟩ := Prod.mk.inj same
    exact ⟨fid, got, by rw [if_pos zero, List.append_nil]⟩
  · obtain ⟨rfl, rfl⟩ := Prod.mk.inj same
    exact ⟨fid, got, by rw [if_neg zero]⟩

/-- Training appends the ids that the names have in the end. -/
theorem fold_train {fs fs' : List Feature}
    (folded : ns.foldlM (appendFeature true) (fs, d) = some (fs', after)) :
    Grows d after ns ∧ fs'.map Feature.idx = fs.map Feature.idx ++ idsIn after ns := by
  induction ns generalizing fs d with
  | nil =>
    obtain ⟨rfl, rfl⟩ := Prod.mk.inj (Option.some.inj folded)
    exact ⟨Grows.refl _, by simp [idsIn]⟩
  | cons n ns ih =>
    rw [List.foldlM_cons] at folded
    obtain ⟨⟨fs₁, d₁⟩, appended, folded⟩ := Option.bind_eq_some_iff.mp folded
    obtain ⟨fid, got, rfl⟩ := appendFeature_some appended
    obtain ⟨first, found⟩ := getFeatureId_grows got
    obtain ⟨rest, ids⟩ := ih folded
    refine ⟨first.trans rest, ?_⟩
    rw [ids, idsIn_cons, rest.keeps n fid found, List.map_append, List.append_assoc]
    congr 2
    simp only [Option.getD_some]
    split_ifs <;> rfl

theorem getFeatureId_predict :
    d.getFeatureId n false = some (d.map[n]?.getD 0, d) := by
  rw [FDict.getFeatureId]
  cases d.map[n]? <;> rfl

variable (d ns) in
/-- Predicting appends the ids that the names have. -/
theorem fold_predict (fs : List Feature) :
    ∃ fs', ns.foldlM (appendFeature false) (fs, d) = some (fs', d) ∧
      fs'.map Feature.idx = fs.map Feature.idx ++ idsIn d ns := by
  induction ns generalizing fs with
  | nil => exact ⟨fs, rfl, by simp [idsIn]⟩
  | cons n ns ih =>
    obtain ⟨fs', folded, ids⟩ :=
      ih (if d.map[n]?.getD 0 = 0 then fs else fs ++ [⟨d.map[n]?.getD 0, 1⟩])
    refine ⟨fs', ?_, ?_⟩
    · rw [List.foldlM_cons, appendFeature, getFeatureId_predict, Option.map_some]
      dsimp only
      rw [← apply_ite (fun fs => (fs, d))]
      exact folded
    · rw [ids, idsIn_cons]
      split_ifs
      · rw [List.nil_append]
      · rw [List.map_append, List.append_assoc]
        rfl

/-- A vector has the ids of its names, in order of size. -/
theorem extract_ids {createNew : Bool} {ins : RawInstance} {fs : List Feature}
    (extracted : extractFeatures d ins createNew = some (fs, after)) :
    fs.map Feature.idx = (idsIn after (names ins)).mergeSort (· ≤ ·) := by
  rw [extractFeatures] at extracted
  obtain ⟨⟨fs', d'⟩, folded, same⟩ := Option.map_eq_some_iff.mp extracted
  obtain ⟨rfl, rfl⟩ := Prod.mk.inj same
  rw [List.map_mergeSort (s := fun a b => decide (a ≤ b)) fun _ _ _ _ => rfl]
  cases createNew with
  | false =>
    obtain ⟨fs'', folded', ids⟩ := fold_predict d (names ins) []
    obtain ⟨rfl, rfl⟩ := Prod.mk.inj (Option.some.inj (folded.symm.trans folded'))
    rw [ids]
    rfl
  | true =>
    rw [(fold_train folded).2]
    rfl

theorem extract_grows {ins : RawInstance} {fs : List Feature}
    (extracted : extractForTrain d ins = some (fs, after)) : Grows d after (names ins) := by
  rw [extractForTrain, extractFeatures] at extracted
  obtain ⟨⟨fs', d'⟩, folded, same⟩ := Option.map_eq_some_iff.mp extracted
  obtain ⟨_, rfl⟩ := Prod.mk.inj same
  exact (fold_train folded).1

/-- Every training run makes the dictionary grow by the names of its instances. -/
theorem train_grows {instances : List RawInstance} (trained : train d instances = some after) :
    Grows d after (instances.flatMap names) := by
  induction instances generalizing d with
  | nil =>
    obtain rfl := Option.some.inj trained
    exact Grows.refl d
  | cons ins instances ih =>
    rw [train, List.foldlM_cons] at trained
    obtain ⟨middle, first, rest⟩ := Option.bind_eq_some_iff.mp trained
    obtain ⟨⟨fs, d'⟩, extracted, rfl⟩ := Option.map_eq_some_iff.mp first
    exact (extract_grows extracted).trans (ih rest)

/-- A name that a line of the file can hold. -/
def Plain (name : Bytes) : Prop := tab ∉ name ∧ newline ∉ name

/-- No line gives a name with a tab or a line end. -/
theorem loadLines_plain {lines : List Bytes} {ok : Bool}
    (loaded : loadLines d lines = some (ok, after)) (single : ∀ line ∈ lines, newline ∉ line)
    (plain : ∀ name ∈ d.map, Plain name) : ∀ name ∈ after.map, Plain name := by
  induction lines generalizing d with
  | nil =>
    obtain ⟨_, rfl⟩ := Prod.mk.inj (Option.some.inj loaded)
    exact plain
  | cons line lines ih =>
    rw [List.forall_mem_cons] at single
    rw [loadLines] at loaded
    split at loaded
    · next key id fields =>
      obtain ⟨d₁, assigned, rest⟩ := Option.bind_eq_some_iff.mp loaded
      rw [FDict.assign] at assigned
      split_ifs at assigned with fits
      obtain rfl := Option.some.inj assigned
      refine ih rest single.2 fun name inside => ?_
      rcases mem_insert_iff.mp inside with rfl | old
      · have member : name ∈ splitBySep line tab := by rw [fields]; simp
        refine ⟨pieces_notMem _ member, fun inside => single.1 ?_⟩
        have apart : newline ≠ tab := by decide
        exact (mem_pieces apart).mp ⟨name, member, inside⟩
      · exact plain name old
    · obtain ⟨_, rfl⟩ := Prod.mk.inj (Option.some.inj loaded)
      intro name inside
      simp [FDict.empty] at inside

theorem loadFdict_plain {file : Bytes} {ok : Bool}
    (loaded : loadFdictFromFile file = some (ok, after)) : ∀ name ∈ after.map, Plain name :=
  loadLines_plain loaded pieces_notMem fun name inside => by simp [FDict.empty] at inside

theorem lineOf_fields {entry : Bytes × Nat} (plain : tab ∉ entry.1) :
    splitBySep (lineOf entry) tab = [entry.1, decimal entry.2] := by
  have digits : tab ∉ decimal entry.2 := notMem_decimal (by decide) _
  rw [splitBySep, lineOf, pieces_cons plain, pieces_whole digits (decimal_ne_nil _)]

theorem lineOf_single {entry : Bytes × Nat} (plain : newline ∉ entry.1) :
    newline ∉ lineOf entry := by
  have digits : newline ∉ decimal entry.2 := notMem_decimal (by decide) _
  rw [lineOf, List.mem_append, List.mem_cons, not_or, not_or]
  exact ⟨plain, by decide, digits⟩

/-- Lines of plain names load one entry each. -/
theorem loadLines_entries (entries : List (Bytes × Nat)) (plain : ∀ e ∈ entries, tab ∉ e.1)
    (small : ∀ e ∈ entries, e.2 < 2 ^ 64) (room : d.map.size + entries.length < 2 ^ 64) :
    ∃ after, loadLines d (entries.map lineOf) = some (true, after) ∧
      after.map = entries.foldl (fun m e => m.insert e.1 e.2) d.map := by
  induction entries generalizing d with
  | nil => exact ⟨d, rfl, rfl⟩
  | cons e entries ih =>
    rw [List.forall_mem_cons] at plain small
    rw [List.length_cons] at room
    have grown : (d.map.insert e.1 e.2).size ≤ d.map.size + 1 := TreeMap.size_insert_le
    have fits : (d.map.insert e.1 e.2).size < 2 ^ 64 := by omega
    obtain ⟨after, loaded, same⟩ := ih (d := ⟨_, fits⟩) plain.2 small.2 (by dsimp only; omega)
    refine ⟨after, ?_, same⟩
    rw [List.map_cons, loadLines, lineOf_fields plain.1]
    dsimp only
    rw [cStr_decimal, strtoul_natCast small.1, FDict.assign, dif_pos fits]
    exact loaded

/-- Entries with different keys are all found again. -/
theorem foldl_insert_getElem? {entries : List (Bytes × Nat)} {m : TreeMap Bytes Nat}
    (apart : entries.Pairwise fun a b => a.1 ≠ b.1) (name : Bytes) (id : Nat) :
    (entries.foldl (fun m e => m.insert e.1 e.2) m)[name]? = some id ↔
      (name, id) ∈ entries ∨ m[name]? = some id ∧ ∀ e ∈ entries, e.1 ≠ name := by
  induction entries generalizing m with
  | nil => simp
  | cons e entries ih =>
    rw [List.pairwise_cons] at apart
    rw [List.foldl_cons, ih apart.2, List.mem_cons, List.forall_mem_cons]
    obtain ⟨key, value⟩ := e
    by_cases same : key = name
    · subst same
      have others : ∀ e ∈ entries, e.1 ≠ key := fun e inside => Ne.symm (apart.1 e inside)
      have away : (key, id) ∉ entries := fun inside => others _ inside rfl
      simp [away, eq_comm]
      exact fun _ other id inside same => others (other, id) inside same.symm
    · simp [getElem?_insert_ne same, Ne.symm same, same]

/-- The dictionary comes back from its file, and with it the ids of every prediction. -/
def RoundTrip (d : FDict) : Prop :=
  ∃ after, loadFdictFromFile (saveFdictToFile d) = some (true, after) ∧
    (∀ name : Bytes, after.map[name]? = d.map[name]?) ∧
    ∀ ins, (extractForPredict after ins).map Prod.fst = (extractForPredict d ins).map Prod.fst

/-- Predictions need no more than the ids. -/
theorem predict_same (same : ∀ name : Bytes, after.map[name]? = d.map[name]?)
    (ins : RawInstance) :
    (extractForPredict after ins).map Prod.fst = (extractForPredict d ins).map Prod.fst := by
  have fold (fs : List Feature) :
      (((names ins).foldlM (appendFeature false) (fs, after)).map Prod.fst) =
        (((names ins).foldlM (appendFeature false) (fs, d)).map Prod.fst) := by
    induction names ins generalizing fs with
    | nil => rfl
    | cons n ns ih =>
      rw [List.foldlM_cons, List.foldlM_cons, appendFeature, appendFeature, getFeatureId_predict,
        getFeatureId_predict, same n]
      dsimp only [Option.map_some]
      split_ifs
      · exact ih fs
      · exact ih _
  have sorted := congrArg (Option.map fun fs => fs.mergeSort fun a b => decide (a.idx ≤ b.idx))
    (fold [])
  simpa only [extractForPredict, extractFeatures, Option.map_map, Function.comp_def] using sorted

theorem roundTrip_iff (kept : Numbered d) :
    RoundTrip d ↔ ∀ name ∈ d.map, Plain name := by
  constructor
  · rintro ⟨after, loaded, same, _⟩ name inside
    refine loadFdict_plain loaded name ?_
    rwa [TreeMap.mem_iff_isSome_getElem?, same, ← TreeMap.mem_iff_isSome_getElem?]
  · intro plain
    have entry (e : Bytes × Nat) (inside : e ∈ d.map.toList) :
        d.map[e.1]? = some e.2 := TreeMap.mem_toList_iff_getElem?_eq_some.mp inside
    have named (e : Bytes × Nat) (inside : e ∈ d.map.toList) : Plain e.1 :=
      plain e.1 (mem_map.mpr ⟨e.2, entry e inside⟩)
    have apart : d.map.toList.Pairwise fun a b => a.1 ≠ b.1 := by
      refine TreeMap.distinct_keys_toList.imp fun differ same => differ ?_
      rw [same, compare_self]
    have room : FDict.empty.map.size + d.map.toList.length < 2 ^ 64 := by
      rw [TreeMap.length_toList]
      simpa [FDict.empty] using d.fits
    have small : ∀ e ∈ d.map.toList, e.2 < 2 ^ 64 := fun e inside =>
      (kept.range e.1 e.2 (entry e inside)).2.trans_lt d.fits
    obtain ⟨after, loaded, stored⟩ :=
      loadLines_entries d.map.toList (fun e inside => (named e inside).1) small room
    have same (name : Bytes) : after.map[name]? = d.map[name]? := by
      ext id
      rw [stored, foldl_insert_getElem? apart, TreeMap.mem_toList_iff_getElem?_eq_some]
      simp [FDict.empty]
    refine ⟨after, ?_, same, predict_same same⟩
    rw [loadFdictFromFile, saveFdictToFile, pieces_lines, loaded]
    intro line member
    obtain ⟨e, inside, rfl⟩ := List.mem_map.mp member
    exact lineOf_single (named e inside).2

variable {instances : List RawInstance}

theorem trained_numbered (trained : train .empty instances = some d) : Numbered d :=
  (train_grows trained).numbered numbered_empty

theorem trained_keys (trained : train .empty instances = some d) (name : Bytes) :
    name ∈ d.map ↔ ∃ ins ∈ instances, name ∈ names ins := by
  rw [(train_grows trained).keys, List.mem_flatMap, or_iff_right]
  simp [FDict.empty]

/-- No field that gives names has a tab or a line end. -/
def Clean (ins : RawInstance) : Prop := ¬ Holds ins tab ∧ ¬ Holds ins newline

instance (ins : RawInstance) : Decidable (Clean ins) := inferInstanceAs (Decidable (_ ∧ _))

theorem plain_names {ins : RawInstance} : (∀ n ∈ names ins, Plain n) ↔ Clean ins := by
  rw [Clean, ← names_hold (b := tab) (by decide), ← names_hold (b := newline) (by decide)]
  constructor
  · intro plain
    exact ⟨fun ⟨n, member, inside⟩ => (plain n member).1 inside,
      fun ⟨n, member, inside⟩ => (plain n member).2 inside⟩
  · rintro ⟨noTab, noLine⟩ n member
    exact ⟨fun inside => noTab ⟨n, member, inside⟩, fun inside => noLine ⟨n, member, inside⟩⟩

/-- After training from an empty dictionary the ids number the names seen, 0 is no id, later
training changes none, and the file gives the dictionary back exactly when no instance had a
tab or a line end in a field. -/
theorem dictionary (trained : train .empty instances = some d) :
    Numbered d ∧ (∀ name, name ∈ d.map ↔ ∃ ins ∈ instances, name ∈ names ins) ∧
      (∀ name, ∃ fid, d.getFeatureId name false = some (fid, d) ∧ (fid = 0 ↔ name ∉ d.map)) ∧
      (∀ more after, train d more = some after → ∀ (name : Bytes) (id : Nat),
        d.map[name]? = some id → after.map[name]? = some id) ∧
      (RoundTrip d ↔ ∀ ins ∈ instances, Clean ins) := by
  have kept := trained_numbered trained
  refine ⟨kept, trained_keys trained, fun name => ⟨_, getFeatureId_predict, ?_⟩,
    fun more after later => (train_grows later).keeps, ?_⟩
  · rw [mem_map]
    cases found : d.map[name]? with
    | none => simp
    | some id =>
      have range := kept.range name id found
      simp only [Option.getD_some, Option.some.injEq, exists_eq', not_true, iff_false]
      omega
  · rw [roundTrip_iff kept]
    constructor
    · intro plain ins member
      exact plain_names.mp fun n inside =>
        plain n ((trained_keys trained n).mpr ⟨ins, member, inside⟩)
    · intro clean name inside
      obtain ⟨ins, member, inside⟩ := (trained_keys trained name).mp inside
      exact plain_names.mpr (clean ins member) name inside

def visit (host : String) : RawInstance where
  region := ascii "1-2-3"
  os := []
  userTags := ascii "a|b"
  host := ascii host
  pageType := []
  pid := ascii "p"
  viewScreen := []
  adverId := ascii "7"

/-- The dictionary of one visit. -/
def learned (host : String) : FDict := (train .empty [visit host]).getD .empty

theorem learned_trained {host : String} (some' : (train .empty [visit host]).isSome) :
    train .empty [visit host] = some (learned host) := by
  obtain ⟨d, trained⟩ := Option.isSome_iff_exists.mp some'
  rw [learned, trained, Option.getD_some]

theorem learned_dictionary :
    Numbered (learned "www.x.com") ∧
      (∀ name, name ∈ (learned "www.x.com").map ↔
        ∃ ins ∈ [visit "www.x.com"], name ∈ names ins) ∧
      (∀ name, ∃ fid, (learned "www.x.com").getFeatureId name false =
        some (fid, learned "www.x.com") ∧ (fid = 0 ↔ name ∉ (learned "www.x.com").map)) ∧
      (∀ more after, train (learned "www.x.com") more = some after →
        ∀ (name : Bytes) (id : Nat),
          (learned "www.x.com").map[name]? = some id → after.map[name]? = some id) ∧
      (RoundTrip (learned "www.x.com") ↔ ∀ ins ∈ [visit "www.x.com"], Clean ins) :=
  dictionary (learned_trained (by decide +kernel))

/-- A tab in the host is a tab in a name, and the file does not load. -/
theorem tabbed_host : ¬ RoundTrip (learned "a\tb") := by
  intro claim
  have trained : train .empty [visit "a\tb"] = some (learned "a\tb") :=
    learned_trained (by decide +kernel)
  have inside : ascii "host:a\tb" ∈ (learned "a\tb").map :=
    (trained_keys trained _).mpr ⟨visit "a\tb", by simp, by decide +kernel⟩
  exact absurd ((roundTrip_iff (trained_numbered trained)).mp claim _ inside).1 (by decide)

end FeatureDictionary
