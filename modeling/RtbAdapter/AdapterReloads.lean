import RtbAdapter.AdapterMethods
import RtbAdapter.GlobalBan
import RtbAdapter.IpArea
import RtbAdapter.StepRuns

/-!
# Reloading the adapter

When a file of the configuration changed, the adapter reads the configuration into its back half.
The methods are switched first, the half that was in use is filled anew a second later, and the
methods are switched back. Requests arrive before, between and behind, and each keeps the protocol
object that was found for it. Areas and watched users are added to what the back half held.
-/

namespace AdapterReloads

open Std (TreeMap)
open AdapterMethods BinaryTrie ByteWords CText ConfigFiles ObjectLedger PingPong StepRuns
open GlobalBan (AdAdpFilterBan Redis)
open HttpParser (AdCache)
open IpArea (Area Entry addTree allText)
open NetProtocol (adSuccess adFailure)

/-- An element below the root, with what `AddTree` finds in its local. An attribute may be
empty. -/
structure Element where
  properties : List (Bytes × Option Bytes)
  stale : UInt32

/-- The locals of `Init`, which an element leaves to the next one. -/
structure AreaLocals where
  sProvince : Bytes := []
  sCity : Bytes := []
  sAddr : Bytes := []
  uiMask : Option UInt32 := none

def readAttr (locals : AreaLocals) : Bytes × Option Bytes → AreaLocals
  | (_, none) => locals
  | (name, some content) =>
    if name = ascii "prov" then { locals with sProvince := cStr content }
    else if name = ascii "city" then { locals with sCity := cStr content }
    else if name = ascii "addr" then { locals with sAddr := cStr content }
    else if name = ascii "mask" then { locals with uiMask := some (atoiUInt (cStr content)) }
    else locals

/-- The calls of `AddTree`. A mask that was never read is undefined. -/
def areaEntries : AreaLocals → List Element → Option (List Entry)
  | _, [] => some []
  | locals, element :: elements => do
    let locals := element.properties.foldl readAttr locals
    let uiMask ← locals.uiMask
    let area : Area := ⟨ascii "0086", locals.sProvince, locals.sCity⟩
    return ⟨area, locals.sAddr, uiMask, element.stale⟩ :: (← areaEntries locals elements)

/-- The members of the adapter that a configuration fills, and its protocol objects. -/
structure AdAdapter where
  confs : AdPingPongBuffer AdRtbConfig := ⟨{}, {}, false⟩
  configFile : Bytes := []
  debugUser : AdPingPongBuffer (TreeMap Bytes Int) := ⟨∅, ∅, false⟩
  banFilter : AdAdpFilterBan := .fresh
  method : AdPingPongBuffer AdAdapterMethod := ⟨{}, {}, false⟩
  ipArea : AdPingPongBuffer (Trie Area) := ⟨IpArea.init, IpArea.init, false⟩
  objects : Ledger := {}

/-- What a call finds: the files, redis, the libraries, the elements of a file of areas, and
whether the message queues are there. -/
structure World where
  files : FileWorld
  redis : Redis
  loads : Bytes → Bool
  root : Bytes → Option (List Element)
  queues : Bool

namespace AdAdapter

variable (inetAton : Bytes → Option UInt32) (w : World) (s : AdAdapter)

/-- `AdAdapterInit` up to its wait, which a failure does not reach. -/
def initBegin (sConf : Bytes) : Bool × AdAdapter :=
  let configFile := if sConf ≠ [] then sConf else s.configFile
  let loaded := s.confs.getBack.load w.files configFile
  let s := { s with configFile, confs := s.confs.setBack loaded.2 }
  if loaded.1 ≠ adSuccess then (false, s)
  else
    let ctConf := (loaded.2.check w.files).2
    let s := { s with confs := s.confs.setBack ctConf }
    match strSplit ((ctConf.get globalSection).getD (ascii "REDIS") []) [58] with
    | [_, _] =>
      let banned := s.banFilter.update w.redis
      let s := { s with banFilter := banned.2 }
      if banned.1 ≠ adSuccess then (false, s) else (true, { s with method := s.method.switch })
    | _ => (false, s)

/-- The loop over the watched users. -/
def watch (config : TreeMap Bytes Bytes) (ctDebugUser : TreeMap Bytes Int) : TreeMap Bytes Int :=
  config.toList.foldl (fun ctDebugUser entry =>
    ctDebugUser.insert entry.2 (atoi (cStr entry.1))) ctDebugUser

/-- `AdAdapterInit` behind the areas. -/
def initQueues : Int × AdAdapter :=
  if w.queues then
    let users := watch (s.confs.getBack.get (ascii "[DEBUGUSER]")) s.debugUser.getBack
    (adSuccess, { s with debugUser := (s.debugUser.setBack users).switch, confs := s.confs.switch })
  else (adFailure, s)

/-- The calls of `AddTree` for the file of areas, if it is read. -/
def areas : Option (Option (List Entry)) :=
  match w.root (cStr ((s.confs.getBack.get globalSection).getD (ascii "AREA") [])) with
  | none => some none
  | some elements => (areaEntries {} elements).map some

/-- What a call returns, the entries that it adds to the areas, and the adapter after it. -/
structure Reloaded where
  ret : Int
  added : Option (List Entry)
  adapter : AdAdapter

/-- `AdAdapterInit` behind the methods. -/
def initAreas : Option Reloaded :=
  if s.confs.getBack.fileIsChanged (ascii "AREA") then
    match s.areas w with
    | none => none
    | some none => some ⟨adFailure, none, s⟩
    | some (some entries) =>
      (entries.foldlM (addTree inetAton) s.ipArea.getBack).map fun tree =>
        let result := initQueues w { s with ipArea := (s.ipArea.setBack tree).switch }
        ⟨result.1, some entries, result.2⟩
  else some ⟨(s.initQueues w).1, none, (s.initQueues w).2⟩

/-- The methods of the half in the back, as they are filled. -/
def renewed : Int × AdAdapterMethod × Ledger :=
  AdAdapterMethod.init w.loads (s.confs.getBack.get (ascii "[METHODSO]")) s.method.getBack s.objects

/-- `AdAdapterInit` behind its wait. -/
def initEnd : Option Reloaded :=
  let filled := s.renewed w
  let s := { s with method := s.method.setBack filled.2.1, objects := filled.2.2 }
  if filled.1 ≠ adSuccess then some ⟨filled.1, none, s⟩
  else initAreas inetAton w { s with method := s.method.switch }

/-- `AdAdapterUpdate` up to the wait of `AdAdapterInit`. -/
def updateBegin : Bool × AdAdapter :=
  let checked := s.confs.get.check w.files
  let s := { s with confs := s.confs.set checked.2 }
  if checked.1 > 0 then s.initBegin w [] else (false, s)

end AdAdapter

/-- The protocol object that a request keeps: the half of the methods it was found in, and how
often that half had been filled. -/
structure Held where
  half : Bool
  since : Nat
  method : Nat
  deriving DecidableEq

/-- The adapter with the requests that it accepted. -/
structure State where
  adapter : AdAdapter := {}
  waiting : Bool := false
  filled : Bool → Nat := fun _ => 0
  added : List (List Entry) := []
  held : List Held := []

inductive Event where
  | init (w : World) (sConf : Bytes)
  | update (w : World)
  | resume (w : World)
  | request (cache : AdCache)

variable (inetAton : Bytes → Option UInt32)

/-- One thread reloads; requests arrive at any time. -/
def step : Event → State → Option State
  | .init w sConf, s =>
    let begun := s.adapter.initBegin w sConf
    if s.waiting then none else some { s with waiting := begun.1, adapter := begun.2 }
  | .update w, s =>
    let begun := s.adapter.updateBegin w
    if s.waiting then none else some { s with waiting := begun.1, adapter := begun.2 }
  | .resume w, s =>
    let back := !s.adapter.method.first
    if s.waiting then
      (s.adapter.initEnd inetAton w).map fun reloaded => { s with
        waiting := false
        adapter := reloaded.adapter
        filled := Function.update s.filled back (s.filled back + 1)
        added := reloaded.added.toList ++ s.added }
    else none
  | .request cache, s =>
    let found := s.adapter.method.get.get cache {}
    let half := s.adapter.method.first
    match found.2.adxMethod with
    | some method =>
      if found.1 = adSuccess then some { s with held := ⟨half, s.filled half, method⟩ :: s.held }
      else some s
    | none => some s

variable {inetAton} {w : World} {sConf : Bytes}

namespace AdAdapter

/-- Nothing but the half of the methods in use differs, and that only behind a wait. -/
structure Begun (s : AdAdapter) (waits : Bool) (after : AdAdapter) : Prop where
  method : after.method = if waits then s.method.switch else s.method
  objects : after.objects = s.objects
  ipArea : after.ipArea = s.ipArea

theorem initBegin_begun (s : AdAdapter) :
    s.Begun (s.initBegin w sConf).1 (s.initBegin w sConf).2 := by
  rw [initBegin]
  generalize (if sConf ≠ [] then sConf else s.configFile) = configFile
  dsimp only
  by_cases read : (s.confs.getBack.load w.files configFile).1 ≠ adSuccess
  · rw [if_pos read]
    exact ⟨rfl, rfl, rfl⟩
  · rw [if_neg read]
    split
    · split_ifs
      · exact ⟨rfl, rfl, rfl⟩
      · exact ⟨rfl, rfl, rfl⟩
    · exact ⟨rfl, rfl, rfl⟩

theorem updateBegin_begun (s : AdAdapter) : s.Begun (s.updateBegin w).1 (s.updateBegin w).2 := by
  rw [updateBegin]
  split_ifs
  · obtain ⟨method, objects, ipArea⟩ := @initBegin_begun w []
      { s with confs := s.confs.set (s.confs.get.check w.files).2 }
    exact ⟨method, objects, ipArea⟩
  · exact ⟨rfl, rfl, rfl⟩

/-- The areas after a call that added entries, or none. -/
def Piled (inetAton : Bytes → Option UInt32) (before : AdPingPongBuffer (Trie Area)) :
    Option (List Entry) → AdPingPongBuffer (Trie Area) → Prop
  | none, after => after = before
  | some entries, after => ∃ tree,
    entries.foldlM (addTree inetAton) before.getBack = some tree ∧
      after = (before.setBack tree).switch

/-- The back half of the methods is filled, and is switched to where that succeeds. -/
structure Ended (inetAton : Bytes → Option UInt32) (w : World) (s : AdAdapter)
    (reloaded : Reloaded) : Prop where
  method : reloaded.adapter.method = if (s.renewed w).1 = adSuccess
    then (s.method.setBack (s.renewed w).2.1).switch else s.method.setBack (s.renewed w).2.1
  objects : reloaded.adapter.objects = (s.renewed w).2.2
  ipArea : Piled inetAton s.ipArea reloaded.added reloaded.adapter.ipArea

theorem initQueues_keeps (s : AdAdapter) : (s.initQueues w).2.method = s.method ∧
    (s.initQueues w).2.objects = s.objects ∧ (s.initQueues w).2.ipArea = s.ipArea := by
  rw [initQueues]
  split_ifs <;> exact ⟨rfl, rfl, rfl⟩

theorem initAreas_piled {s : AdAdapter} {reloaded : Reloaded}
    (done : s.initAreas inetAton w = some reloaded) : reloaded.adapter.method = s.method ∧
      reloaded.adapter.objects = s.objects ∧
      Piled inetAton s.ipArea reloaded.added reloaded.adapter.ipArea := by
  rw [initAreas] at done
  split_ifs at done
  · split at done
    · cases done
    · cases done
      exact ⟨rfl, rfl, rfl⟩
    · next entries _ =>
      obtain ⟨tree, built, rfl⟩ := Option.map_eq_some_iff.mp done
      obtain ⟨method, objects, ipArea⟩ :=
        @initQueues_keeps w { s with ipArea := (s.ipArea.setBack tree).switch }
      exact ⟨method, objects, tree, built, ipArea⟩
  · cases done
    exact initQueues_keeps s

theorem initEnd_ended {s : AdAdapter} {reloaded : Reloaded}
    (done : s.initEnd inetAton w = some reloaded) : s.Ended inetAton w reloaded := by
  rw [initEnd] at done
  dsimp only at done
  split_ifs at done with failed
  · cases done
    exact ⟨(if_neg failed).symm, rfl, rfl⟩
  · obtain ⟨method, objects, ipArea⟩ := initAreas_piled done
    exact ⟨method.trans (if_pos (not_not.mp failed)).symm, objects, ipArea⟩

/-- Which half is which afterwards. -/
theorem Ended.half {s : AdAdapter} {reloaded : Reloaded} (ended : s.Ended inetAton w reloaded)
    (a : Bool) : reloaded.adapter.method.half a =
      if a = s.method.first then s.method.half a else (s.renewed w).2.1 := by
  rw [ended.method]
  split_ifs <;> simp_all [AdPingPongBuffer.half_setBack]

end AdAdapter

open AdAdapter

/-- What a step does. -/
theorem step_cases {e : Event} {s after : State} (stepped : step inetAton e s = some after) :
    (s.waiting = false ∧ ∃ waits adapter, s.adapter.Begun waits adapter ∧
      after = { s with waiting := waits, adapter }) ∨
    (s.waiting = true ∧ ∃ w reloaded, e = .resume w ∧ s.adapter.Ended inetAton w reloaded ∧
      after = { s with
        waiting := false
        adapter := reloaded.adapter
        filled := Function.update s.filled (!s.adapter.method.first)
          (s.filled (!s.adapter.method.first) + 1)
        added := reloaded.added.toList ++ s.added }) ∨
    (∃ p, s.adapter.method.get.Owns p ∧ after = { s with
      held := ⟨s.adapter.method.first, s.filled s.adapter.method.first, p⟩ :: s.held }) ∨
    after = s := by
  cases e with
  | init w sConf =>
    rw [step] at stepped
    split_ifs at stepped with waiting
    cases stepped
    exact .inl ⟨eq_false_of_ne_true waiting, _, _, initBegin_begun _, rfl⟩
  | update w =>
    rw [step] at stepped
    split_ifs at stepped with waiting
    cases stepped
    exact .inl ⟨eq_false_of_ne_true waiting, _, _, updateBegin_begun _, rfl⟩
  | resume w =>
    rw [step] at stepped
    split_ifs at stepped with waiting
    obtain ⟨reloaded, done, rfl⟩ := Option.map_eq_some_iff.mp stepped
    exact .inr (.inl ⟨waiting, w, reloaded, rfl, initEnd_ended done, rfl⟩)
  | request cache =>
    rw [step] at stepped
    split at stepped
    · next p method =>
      split_ifs at stepped with found
      · obtain ⟨p', -, -, owns, method', -⟩ := AdAdapterMethod.get_found found
        cases method.symm.trans method'
        cases stepped
        exact .inr (.inr (.inl ⟨p, owns, rfl⟩))
      · cases stepped
        exact .inr (.inr (.inr rfl))
    · cases stepped
      exact .inr (.inr (.inr rfl))

/-- The object of a request is in its half until that half is filled, and deleted from then on. -/
def Kept (s : State) (h : Held) : Prop :=
  h.since = s.filled h.half ∧ (s.adapter.method.half h.half).Owns h.method ∨
    h.since < s.filled h.half ∧ h.method ∈ s.adapter.objects.freed

structure Sound (s : State) : Prop where
  known : ∀ p ∈ s.adapter.objects.freed, p < s.adapter.objects.made
  owned : ∀ a p, (s.adapter.method.half a).Owns p →
    p < s.adapter.objects.made ∧ p ∉ s.adapter.objects.freed
  apart : ∀ a p, (s.adapter.method.half a).Owns p → ¬ (s.adapter.method.half (!a)).Owns p
  back : ∀ a, (s.adapter.method.half a).proMethod.getBack = ∅
  held : ∀ h ∈ s.held, Kept s h

theorem sound_fresh : Sound {} := by
  have none (a : Bool) (p : Nat) :
      ¬ (AdPingPongBuffer.half (⟨{}, {}, false⟩ : AdPingPongBuffer AdAdapterMethod) a).Owns p := by
    rintro ⟨id, found⟩
    cases a <;> simp [AdPingPongBuffer.half, AdPingPongBuffer.get] at found
  refine ⟨?_, fun a p owns => absurd owns (none a p), fun a p owns => absurd owns (none a p),
    ?_, ?_⟩
  · intro p freed
    cases freed
  · intro a
    cases a <;> rfl
  · intro h inside
    cases inside

theorem sound_ended {s : State} {w : World} {reloaded : Reloaded} (sound : Sound s)
    (ended : s.adapter.Ended inetAton w reloaded) (added : List (List Entry)) :
    Sound { s with
      waiting := false
      adapter := reloaded.adapter
      filled := Function.update s.filled (!s.adapter.method.first)
        (s.filled (!s.adapter.method.first) + 1)
      added } := by
  have old : s.adapter.method.half (!s.adapter.method.first) = s.adapter.method.getBack :=
    s.adapter.method.half_not_first
  have renewed := @AdAdapterMethod.init_renewed w.loads
    (s.adapter.confs.getBack.get (ascii "[METHODSO]")) s.adapter.method.getBack s.adapter.objects
    (old ▸ sound.back _)
  change s.adapter.method.getBack.Renewed _ (s.adapter.renewed w).2.1 (s.adapter.renewed w).2.2
    at renewed
  rw [← ended.objects] at renewed
  have made := renewed.made
  have deleted (p : Nat) (freed : p ∈ reloaded.adapter.objects.freed) :
      p < s.adapter.objects.made := by
    rcases (renewed.freed p).mp freed with before | owns
    · exact sound.known p before
    · exact (sound.owned _ p (old ▸ owns)).1
  constructor
  · exact fun p freed => lt_of_lt_of_le (deleted p freed) made
  · intro a p owns
    dsimp only at owns
    rw [ended.half] at owns
    split_ifs at owns with same
    · obtain ⟨below, kept⟩ := sound.owned a p owns
      refine ⟨lt_of_lt_of_le below made, fun freed => ?_⟩
      rcases (renewed.freed p).mp freed with before | gone
      · exact kept before
      · exact sound.apart a p owns (same ▸ old ▸ gone)
    · obtain ⟨above, below⟩ := renewed.new p owns
      exact ⟨below, fun freed => absurd (deleted p freed) (by omega)⟩
  · intro a p owns owns'
    dsimp only at owns owns'
    rw [ended.half] at owns owns'
    have other : (!a) = s.adapter.method.first ↔ ¬ a = s.adapter.method.first := by
      cases a <;> cases s.adapter.method.first <;> simp
    split_ifs at owns owns' with one two two
    · exact absurd one (other.mp two)
    · have := (sound.owned a p owns).1
      have := (renewed.new p owns').1
      omega
    · have := (sound.owned _ p owns').1
      have := (renewed.new p owns).1
      omega
    · exact absurd (other.mpr one) two
  · intro a
    dsimp only
    rw [ended.half]
    split_ifs
    · exact sound.back a
    · exact renewed.back
  · intro h inside
    have gone (p : Nat) (before : p ∈ s.adapter.objects.freed) :
        p ∈ reloaded.adapter.objects.freed := (renewed.freed p).mpr (.inl before)
    rw [Kept]
    dsimp only
    rw [ended.half]
    by_cases same : h.half = s.adapter.method.first
    · have apart : h.half ≠ !s.adapter.method.first := by simp [same]
      rw [Function.update_of_ne apart, if_pos same]
      exact (sound.held h inside).imp_right fun before => ⟨before.1, gone _ before.2⟩
    · have here : h.half = !s.adapter.method.first := Bool.eq_not.mpr same
      rw [here, Function.update_self]
      refine .inr ?_
      rcases sound.held h inside with ⟨now, owns⟩ | ⟨since, freed⟩
      · rw [here, old] at owns
        exact ⟨by rw [now, here]; omega, (renewed.freed _).mpr (.inr owns)⟩
      · rw [here] at since
        exact ⟨by omega, gone _ freed⟩

theorem sound_step {e : Event} {s after : State} (sound : Sound s)
    (stepped : step inetAton e s = some after) : Sound after := by
  rcases step_cases stepped with ⟨-, waits, adapter, begun, rfl⟩ |
    ⟨-, w, reloaded, -, ended, rfl⟩ | ⟨p, owns, rfl⟩ | rfl
  · have half (a : Bool) : adapter.method.half a = s.adapter.method.half a := by
      rw [begun.method]
      split_ifs
      · exact s.adapter.method.half_switch a
      · rfl
    constructor <;> simp only [half, begun.objects, Kept]
    · exact sound.known
    · exact sound.owned
    · exact sound.apart
    · exact sound.back
    · exact sound.held
  · exact sound_ended sound ended _
  · refine ⟨sound.known, sound.owned, sound.apart, sound.back, fun h inside => ?_⟩
    rcases List.mem_cons.mp inside with rfl | inside
    · exact .inl ⟨rfl, owns⟩
    · exact sound.held h inside
  · exact sound

/-- The object that a request got is deleted exactly if the half that it was found in was filled
after the request came. -/
theorem held_freed_iff (inetAton : Bytes → Option UInt32) (events : List Event) :
    ∀ t ∈ states (step inetAton) {} events, ∀ h ∈ t.held,
      h.method ∈ t.adapter.objects.freed ↔ h.since < t.filled h.half := by
  intro t reached h inside
  have sound := states_keep (fun e s after => sound_step) sound_fresh events t reached
  rcases sound.held h inside with ⟨now, owns⟩ | ⟨since, freed⟩
  · exact iff_of_false (sound.owned _ _ owns).2 (now ▸ lt_irrefl _)
  · exact iff_of_true freed since

/-- A configuration with one address and a file of areas. -/
def exampleConf : Bytes :=
  ascii "[GLOBAL]\nREDIS=a:1\nAREA=z\n[METHODSO]\n/b:6=x\n[CHECK]\nAREA=z\n"

/-- The files, which all changed at a time, with one prefix in the file of areas. -/
def exampleWorld (time : Int) (city addr : Bytes) : World where
  files := ⟨fun _ => some exampleConf, fun _ => some ⟨time, 0⟩, none⟩
  redis := ⟨true, none⟩
  loads _ := true
  root _ := some [⟨[(ascii "city", some city), (ascii "addr", some addr),
    (ascii "mask", some (ascii "8"))], 0⟩]
  queues := true

def examplePacket : AdCache :=
  ⟨ascii "POST /b HTTP/1.1\r\nContent-Length: 0\r\n\r\n", by decide⟩

def exampleAton (text : Bytes) : Option UInt32 :=
  if text = ascii "10.0.0.0" then some 0x0a000000 else some 0x14000000

/-- A start, a request and two reloads. -/
def exampleRun : List Event :=
  let first := exampleWorld 1 (ascii "old") (ascii "10.0.0.0")
  let second := exampleWorld 2 (ascii "new") (ascii "20.0.0.0")
  let third := exampleWorld 3 (ascii "new") (ascii "20.0.0.0")
  [.init first (ascii "c"), .resume first, .request examplePacket, .update second, .resume second,
    .update third, .resume third]

/-- The state that the first events of the run lead to. -/
def exampleState (n : Nat) : State :=
  (states (step exampleAton) {} (exampleRun.take n)).getLast
    (List.ne_nil_of_mem (first_mem_states _ _))

theorem exampleState_mem (n : Nat) :
    exampleState n ∈ states (step exampleAton) {} (exampleRun.take n) := List.getLast_mem _

theorem held_freed_iff_example : 0 ∈ (exampleState 5).adapter.objects.freed :=
  (held_freed_iff exampleAton _ _ (exampleState_mem 5) ⟨false, 1, 0⟩ (by decide +kernel)).mpr
    (by decide +kernel)

/-- A table without addresses and hosts. -/
def Idle (m : AdAdapterMethod) : Prop := m.uriAdx = ∅ ∧ m.hostAdx = ∅

theorem idle_get {m : AdAdapterMethod} (idle : Idle m) (cache : AdCache) (ctPara : Para) :
    (m.get cache ctPara).1 = adFailure := by
  have noUri (uri : Bytes) : m.uriAdx[uri]? = none := by simp [idle.1]
  have noHost (host : Bytes) : m.hostAdx[host]? = none := by simp [idle.2]
  rw [AdAdapterMethod.get]
  split
  · rfl
  · simp [noUri, noHost]

/-- Whenever the methods are filled, it succeeds. -/
def Filled : Event → State → Prop
  | .resume w, s => (s.adapter.renewed w).1 = adSuccess
  | _, _ => True

instance : (e : Event) → (s : State) → Decidable (Filled e s)
  | .resume _, _ => inferInstanceAs (Decidable (_ = _))
  | .init _ _, _ | .update _, _ | .request _, _ => isTrue trivial

/-- The half of the methods that is only in use while the other one is filled. -/
def spare (s : State) : AdAdapterMethod :=
  if s.waiting then s.adapter.method.get else s.adapter.method.getBack

theorem spare_step {e : Event} {s after : State} (idle : Idle (spare s)) (filled : Filled e s)
    (stepped : step inetAton e s = some after) : Idle (spare after) := by
  rcases step_cases stepped with ⟨rest, waits, adapter, begun, rfl⟩ |
    ⟨waiting, w, reloaded, rfl, ended, rfl⟩ | ⟨p, -, rfl⟩ | rfl
  · rw [spare, if_neg (by simp [rest])] at idle
    cases waits with
    | true => simpa [spare, begun.method] using idle
    | false => simpa [spare, begun.method] using idle
  · have fills : (s.adapter.renewed w).1 = adSuccess := filled
    rw [spare, if_pos waiting] at idle
    rw [spare, if_neg Bool.false_ne_true, ended.method, if_pos fills,
      AdPingPongBuffer.getBack_switch, AdPingPongBuffer.get_setBack]
    exact idle
  · exact idle
  · exact idle

/-- From the wait of a reload to its end no request finds a method. -/
theorem waiting_refuses {events : List Event}
    (filled : Throughout (step inetAton) Filled {} events) :
    ∀ t ∈ states (step inetAton) {} events, t.waiting = true →
      ∀ cache ctPara, (t.adapter.method.get.get cache ctPara).1 = adFailure := by
  intro t reached waiting cache ctPara
  have idle : Idle (spare t) := @states_keep_throughout _ _ _ (fun s => Idle (spare s)) _
    (fun e s after => spare_step) {} ⟨rfl, rfl⟩ _ filled t reached
  rw [spare, if_pos waiting] at idle
  exact idle_get idle cache ctPara

theorem waiting_refuses_example :
    ((exampleState 4).adapter.method.get.get examplePacket {}).1 = adFailure :=
  waiting_refuses (by decide +kernel) _ (exampleState_mem 4) (by decide +kernel) _ {}

/-- The entries of the last list and of every second one before it, the oldest ones first. -/
def everyOther : List (List Entry) → List Entry
  | [] => []
  | [entries] => entries
  | entries :: _ :: older => everyOther older ++ entries

deriving instance DecidableEq for Entry

/-- The trees of both halves. -/
structure Piles (inetAton : Bytes → Option UInt32) (s : State) : Prop where
  inUse : s.adapter.ipArea.get = IpArea.filed inetAton (everyOther s.added)
  back : s.adapter.ipArea.getBack = IpArea.filed inetAton (everyOther s.added.tail)

theorem addTree_filed {before entries : List Entry} {tree : Trie Area}
    (built : entries.foldlM (addTree inetAton) (IpArea.filed inetAton before) = some tree) :
    tree = IpArea.filed inetAton (before ++ entries) := by
  induction entries generalizing before with
  | nil =>
    rw [List.append_nil]
    exact (Option.some.inj built).symm
  | cons entry entries ih =>
    rw [List.foldlM_cons] at built
    obtain ⟨next, added, built⟩ := Option.bind_eq_some_iff.mp built
    have put : next = IpArea.filed inetAton (before ++ [entry]) := by
      rw [IpArea.filed, List.foldl_append, List.foldl_cons, List.foldl_nil, Entry.place]
      rw [addTree] at added
      by_cases all : entry.addr = allText
      · rw [if_neg (not_not.mpr all)] at added
        rw [if_pos all]
        exact (Option.some.inj added).symm
      · rw [if_pos all] at added
        rw [if_neg all]
        split_ifs at added
        exact (Option.some.inj added).symm
    rw [put] at built
    rw [ih built, List.append_assoc, List.singleton_append]

theorem piles_step {e : Event} {s after : State} (piles : Piles inetAton s)
    (stepped : step inetAton e s = some after) : Piles inetAton after := by
  rcases step_cases stepped with ⟨-, waits, adapter, begun, rfl⟩ |
    ⟨-, w, reloaded, -, ended, rfl⟩ | ⟨p, -, rfl⟩ | rfl
  · exact ⟨begun.ipArea ▸ piles.inUse, begun.ipArea ▸ piles.back⟩
  · have piled := ended.ipArea
    cases added : reloaded.added with
    | none =>
      rw [added] at piled
      exact ⟨(congrArg _ piled).trans piles.inUse, (congrArg _ piled).trans piles.back⟩
    | some entries =>
      rw [added] at piled
      obtain ⟨tree, built, after⟩ := piled
      rw [piles.back] at built
      constructor
      · dsimp only
        rw [after, AdPingPongBuffer.get_switch, AdPingPongBuffer.getBack_setBack,
          addTree_filed built]
        cases s.added with
        | nil => rfl
        | cons last older => rfl
      · dsimp only
        rw [after, AdPingPongBuffer.getBack_switch, AdPingPongBuffer.get_setBack]
        exact piles.inUse
  · exact ⟨piles.inUse, piles.back⟩
  · exact piles

/-- The areas that are in use are those of every second file that was read, from the last one
back. -/
theorem areas_piled (inetAton : Bytes → Option UInt32) (events : List Event) :
    ∀ t ∈ states (step inetAton) {} events, ∀ stale sAddr sArea entry,
      (∀ entry ∈ everyOther t.added, entry.area.city ≠ [] ∧ 1 ≤ entry.mastlen ∧
        entry.mastlen ≤ 32 ∧ entry.addr ≠ allText) →
      IpArea.resolve inetAton stale sAddr ≠ 0 →
      IpArea.Longest inetAton (everyOther t.added) (IpArea.resolve inetAton stale sAddr) entry →
      IpArea.get inetAton t.adapter.ipArea.get stale sAddr sArea = entry.area.text := by
  intro t reached stale sAddr sArea entry ordinary positive longest
  have piles : Piles inetAton t := states_keep (fun e s after => piles_step)
    ⟨rfl, rfl⟩ events t reached
  have fits : IpArea.Fits (everyOther t.added) := fun entry inside =>
    UInt32.le_iff_toNat_le.mp (ordinary entry inside).2.2.1
  have proper : ∀ entry ∈ everyOther t.added, entry.area.city ≠ [] ∧ 1 ≤ entry.mastlen ∧
      entry.addr ≠ allText := fun entry inside =>
    ⟨(ordinary entry inside).1, (ordinary entry inside).2.1, (ordinary entry inside).2.2.2⟩
  rw [piles.inUse, IpArea.get_walked fits positive (IpArea.walked_of_longest proper longest)]

/-- The prefix of the first file still answers after two others. -/
theorem areas_piled_example :
    IpArea.get exampleAton (exampleState 7).adapter.ipArea.get 0 (ascii "10.0.0.0") [] =
      ascii "0086--old" := by
  let old : Entry := ⟨⟨ascii "0086", [], ascii "old"⟩, ascii "10.0.0.0", 8, 0⟩
  let new : Entry := ⟨⟨ascii "0086", [], ascii "new"⟩, ascii "20.0.0.0", 8, 0⟩
  have piled : everyOther (exampleState 7).added = [old, new] := by decide +kernel
  refine (areas_piled exampleAton _ _ (exampleState_mem 7) 0 (ascii "10.0.0.0") [] old ?_
    (by decide) ?_).trans (by decide)
  · rw [piled]
    decide
  · rw [piled]
    exact ⟨[], [new], rfl, by decide, by decide, by decide⟩

end AdapterReloads
