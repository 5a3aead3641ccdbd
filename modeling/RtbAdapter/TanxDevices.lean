import Mathlib.Tactic
import RtbAdapter.CText
import RtbAdapter.FilterTables
import RtbAdapter.RtbBase

/-!
# The devices of a Tanx request

The platform of the device is compared with the beginnings of three words. The operating
system is compared with two words as far as it goes itself, and gives the devices of the
other system.
-/

namespace TanxDevices

open ByteWords CText FilterTables KeyValueStream RtbBase

/-- The fields of the device that are read. -/
structure Device where
  operator : Option Int
  platform : Option Bytes
  os : Option Bytes
  deviceId : Option Bytes
  network : Option UInt32
  deriving DecidableEq

def devIphone : Bytes := ascii "1"
def devAndroid : Bytes := ascii "2"
def devIpad : Bytes := ascii "3"
def devApad : Bytes := ascii "5"

def operateYidong : Bytes := ascii "46000"
def operateLiantong : Bytes := ascii "46001"
def operateDianxin : Bytes := ascii "46003"

def conWifi : Bytes := ascii "1"
def conNowifi : Bytes := ascii "2"
def con2G : Bytes := ascii "3"
def con3G : Bytes := ascii "4"
def con4G : Bytes := ascii "5"

/-- `strncasecmp` finds no difference in the first `n` characters. -/
def strncasecmpSame (s t : Bytes) (n : Nat) : Bool :=
  strncmpSame ((cStr s).map tolower) ((cStr t).map tolower) n

def operatorCodes : Option Int → List Bytes
  | some 1 => [operateYidong]
  | some 2 => [operateLiantong]
  | some 3 => [operateDianxin]
  | _ => []

def platformDevices (platform : Bytes) : List Bytes :=
  (if strncasecmpSame platform (ascii "iphone") 6 then [devIphone] else []) ++
    (if strncasecmpSame platform (ascii "ipad") 4 then [devIpad] else []) ++
    (if strncasecmpSame platform (ascii "android") 7 then [devAndroid, devApad] else [])

def osDevices (os : Bytes) : List Bytes :=
  (if strncasecmpSame os (ascii "android") os.length then [devIphone, devIpad] else []) ++
    (if strncasecmpSame os (ascii "ios") os.length then [devAndroid, devApad] else [])

def connectCodes : Option UInt32 → List Bytes
  | some 1 => [conWifi]
  | some 2 => [con2G, conNowifi]
  | some 3 => [con3G, conNowifi]
  | some 4 => [con4G, conNowifi]
  | _ => []

def devices (d : Device) : List Bytes :=
  (d.platform.elim [] platformDevices) ++ (d.os.elim [] osDevices)

/-- What is pushed, in order; the operator comes twice. -/
def pushes (d : Device) : List (RequestList × Bytes) :=
  (operatorCodes d.operator).map (.mobileOperator, ·) ++ (devices d).map (.mobileDevice, ·) ++
    (connectCodes d.network).map (.mobileConnect, ·) ++
    (operatorCodes d.operator).map (.mobileOperator, ·)

def push (m : Message RequestText RequestList) (p : RequestList × Bytes) :
    Message RequestText RequestList := (Slot.list p.1).assign p.2 m

/-- The request and the device id, from the device of the mobile part. -/
def httpToInternal (device : Option Device) (r : AdRtbRequest) (idfa : Bytes) :
    AdRtbRequest × Bytes :=
  match device with
  | none => (r, idfa)
  | some d => ({ r with toMessage := (pushes d).foldl push r.toMessage }, d.deviceId.getD idfa)

theorem foldl_push_list (ps : List (RequestList × Bytes)) (m : Message RequestText RequestList)
    (l : RequestList) :
    (ps.foldl push m).list l = m.list l ++ (ps.filter (·.1 = l)).map Prod.snd := by
  induction ps generalizing m with
  | nil => simp
  | cons p ps ih =>
    rw [List.foldl_cons, ih, push, Slot.assign]
    by_cases same : p.1 = l
    · subst same
      simp
    · simp [same, Function.update_of_ne (Ne.symm same)]

/-- The device list grows by the devices. -/
theorem httpToInternal_devices (d : Device) (r : AdRtbRequest) (idfa : Bytes) :
    (httpToInternal (some d) r idfa).1.list .mobileDevice = r.list .mobileDevice ++ devices d := by
  rw [httpToInternal, foldl_push_list, pushes]
  simp [List.filter_map, Function.comp_def]

theorem foldl_push_text (ps : List (RequestList × Bytes)) (m : Message RequestText RequestList) :
    (ps.foldl push m).text = m.text := by
  induction ps generalizing m with
  | nil => rfl
  | cons p ps ih => rw [List.foldl_cons, ih, push, Slot.assign]

/-- The device filter of a mobile request asks for every code. -/
theorem devices_asked {d : Device} {r : AdRtbRequest} {code : Bytes} (idfa : Bytes)
    (mobile : flowOf r = adProtocolFlowMobile) (inside : code ∈ devices d) :
    snprintf 128 (cStr code) ∈ mobileDeviceAsks (httpToInternal (some d) r idfa).1 := by
  have flow : flowOf (httpToInternal (some d) r idfa).1 = adProtocolFlowMobile := by
    rw [← mobile, flowOf, flowOf, httpToInternal, foldl_push_text]
  rw [mobileDeviceAsks, whenMobile, if_pos flow, httpToInternal_devices, numberAsks]
  exact List.mem_cons_of_mem _ (List.mem_map.mpr ⟨code, List.mem_append_right _ inside, rfl⟩)

/-- A text that is there has one of the words in it, in letters of any case. -/
def Says (text : Option Bytes) (words : List Bytes) : Prop :=
  ∃ s ∈ text, ∃ word ∈ words, word <:+: (cStr s).map tolower

instance (text : Option Bytes) (words : List Bytes) : Decidable (Says text words) :=
  inferInstanceAs (Decidable (∃ s ∈ text, ∃ word ∈ words, word <:+: (cStr s).map tolower))

def apple : List Bytes := [ascii "iphone", ascii "ipad", ascii "ios"]

def google : List Bytes := [ascii "android"]

/-- The codes are only those of the systems that the platform or the os says. -/
def Said (d : Device) (codes : List Bytes) : Prop :=
  (devIphone ∈ codes ∨ devIpad ∈ codes → Says d.platform apple ∨ Says d.os apple) ∧
    (devAndroid ∈ codes ∨ devApad ∈ codes → Says d.platform google ∨ Says d.os google)

/-- A text is the word or the beginning of it, in letters of any case; a terminator ends it
only behind the whole word. -/
def Abbreviates (s word : Bytes) : Prop :=
  (cStr s).map tolower = word ∨ 0 ∉ s ∧ s.map tolower <+: word

theorem strncasecmpSame_whole {s word : Bytes} (clean : 0 ∉ word)
    (lower : word.map tolower = word) :
    strncasecmpSame s word s.length = true ↔ Abbreviates s word := by
  have short : ((cStr s).map tolower).length ≤ s.length := by
    rw [List.length_map]
    exact cStr_length s
  rw [strncasecmpSame, strncmpSame, decide_eq_true_iff, cStr_eq_self clean, lower,
    List.take_of_length_le short, Abbreviates]
  constructor
  · intro same
    by_cases inside : 0 ∈ s
    · have cut : (cStr s).length < s.length := by
        refine lt_of_le_of_ne (cStr_length s) fun same => cStr_clean s ?_
        have whole : cStr s = s := (List.takeWhile_sublist _).eq_of_length same
        rwa [whole]
      have reached : word.length ≤ s.length := by
        have lengths := congrArg List.length same
        rw [List.length_map, List.length_take] at lengths
        omega
      exact .inl (same.trans (List.take_of_length_le reached))
    · rw [cStr_eq_self inside] at same
      refine .inr ⟨inside, List.prefix_iff_eq_take.mpr ?_⟩
      rwa [List.length_map]
  · rintro (same | ⟨inside, begins⟩)
    · rw [same, List.take_of_length_le (same ▸ short)]
    · rw [cStr_eq_self inside]
      simpa using List.prefix_iff_eq_take.mp begins

theorem says_of_start {s word : Bytes} {words : List Bytes} (member : word ∈ words)
    (begins : strncasecmpSame s word word.length) (clean : 0 ∉ word)
    (lower : word.map tolower = word) : Says (some s) words := by
  rw [strncasecmpSame, strncmpSame, decide_eq_true_iff, cStr_eq_self clean, lower,
    List.take_length] at begins
  exact ⟨s, rfl, word, member, (List.prefix_iff_eq_take.mpr begins.symm).isInfix⟩

/-- An abbreviation says nothing that the whole word does not say. -/
theorem Abbreviates.silent {s word : Bytes} {words : List Bytes} (short : Abbreviates s word)
    (other : ∀ w ∈ words, ¬ w <:+: word) : ¬ Says (some s) words := by
  rintro ⟨_, ⟨⟩, w, member, inside⟩
  refine other w member (inside.trans ?_)
  rcases short with whole | ⟨clean, begins⟩
  · rw [whole]
  · rw [cStr_eq_self clean]
    exact begins.isInfix

theorem apple_platform {s : Bytes} :
    devIphone ∈ platformDevices s ∨ devIpad ∈ platformDevices s ↔
      strncasecmpSame s (ascii "iphone") 6 ∨ strncasecmpSame s (ascii "ipad") 4 := by
  simp +decide [platformDevices, devIphone, devIpad, devAndroid, devApad]

theorem google_platform {s : Bytes} :
    devAndroid ∈ platformDevices s ∨ devApad ∈ platformDevices s ↔
      strncasecmpSame s (ascii "android") 7 := by
  simp +decide [platformDevices, devIphone, devIpad, devAndroid, devApad]

theorem apple_os {s : Bytes} :
    devIphone ∈ osDevices s ∨ devIpad ∈ osDevices s ↔ Abbreviates s (ascii "android") := by
  rw [← strncasecmpSame_whole (by decide) (by decide)]
  simp +decide [osDevices, devIphone, devIpad, devAndroid, devApad]

theorem google_os {s : Bytes} :
    devAndroid ∈ osDevices s ∨ devApad ∈ osDevices s ↔ Abbreviates s (ascii "ios") := by
  rw [← strncasecmpSame_whole (by decide) (by decide)]
  simp +decide [osDevices, devIphone, devIpad, devAndroid, devApad]

theorem mem_devices {d : Device} {one two : Bytes} :
    one ∈ devices d ∨ two ∈ devices d ↔
      (∃ s ∈ d.platform, one ∈ platformDevices s ∨ two ∈ platformDevices s) ∨
        ∃ s ∈ d.os, one ∈ osDevices s ∨ two ∈ osDevices s := by
  cases h : d.platform <;> cases h' : d.os <;> simp [devices, h, h']
  tauto

/-- The codes are those that are said exactly where an os that abbreviates the name of one
system comes with a platform that says the other. -/
theorem said_iff (d : Device) (now : Time) (idfa : Bytes) :
    Said d ((httpToInternal (some d) (AdRtbRequest.clear now) idfa).1.list .mobileDevice) ↔
      ∀ os ∈ d.os, (Abbreviates os (ascii "android") → Says d.platform apple) ∧
        (Abbreviates os (ascii "ios") → Says d.platform google) := by
  have fresh : (AdRtbRequest.clear now).list .mobileDevice = [] := rfl
  rw [httpToInternal_devices, fresh, List.nil_append, Said, mem_devices, mem_devices]
  simp only [apple_platform, google_platform, apple_os, google_os]
  constructor
  · rintro ⟨apples, googles⟩ os there
    constructor
    · intro short
      refine (apples (.inr ⟨os, there, short⟩)).resolve_right ?_
      rw [there]
      exact short.silent (by decide)
    · intro short
      refine (googles (.inr ⟨os, there, short⟩)).resolve_right ?_
      rw [there]
      exact short.silent (by decide)
  · intro named
    constructor
    · rintro (⟨s, there, begins | begins⟩ | ⟨os, there, short⟩)
      · rw [there]
        exact .inl (says_of_start (by decide) begins (by decide) (by decide))
      · rw [there]
        exact .inl (says_of_start (by decide) begins (by decide) (by decide))
      · exact .inl ((named os there).1 short)
    · rintro (⟨s, there, begins⟩ | ⟨os, there, short⟩)
      · rw [there]
        exact .inl (says_of_start (by decide) begins (by decide) (by decide))
      · exact .inl ((named os there).2 short)

/-- A device of which only the operating system is known. -/
def running (os : String) : Device := ⟨none, none, some (ascii os), none, none⟩

/-- An Android device is taken for an iPhone, and an iOS device for an Android one. -/
theorem swapped :
    ¬ Said (running "android") ((httpToInternal (some (running "android"))
      (AdRtbRequest.clear ⟨0, 0⟩) []).1.list .mobileDevice) ∧
    ¬ Said (running "ios") ((httpToInternal (some (running "ios"))
      (AdRtbRequest.clear ⟨0, 0⟩) []).1.list .mobileDevice) := by
  constructor
  · rintro ⟨apples, _⟩
    exact absurd (apples (by decide)) (by decide)
  · rintro ⟨_, googles⟩
    exact absurd (googles (by decide)) (by decide)

end TanxDevices
