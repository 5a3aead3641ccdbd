import RtbAdapter.ConfigFiles
import RtbAdapter.HttpRoundTrip
import RtbAdapter.ObjectLedger
import RtbAdapter.PingPong
import RtbAdapter.TextReplacement

/-!
# The methods of the exchanges

A section of the configuration names a library for each address or host, which makes a protocol
object. A packet is given to the protocol of its address, or else of its host, with the part of
the packet that is its body.
-/

namespace AdapterMethods

open Std (TreeMap)
open ByteWords CText ObjectLedger PingPong TextReplacement
open HttpParser (AdCache getBody)
open NetProtocol (adSuccess adFailure)

/-- `strcasestr`: where a word is found. -/
def strcasestr (s word : Bytes) : Option Nat :=
  (cutAt (word.map tolower) ((cStr s).map tolower)).map fun cut => cut.1.length

/-- The characters that end a value: `?`, blank, line feed, tab, the terminator, return. -/
def valueEnds : Bytes := [63, 32, 10, 9, 0, 13]

/-- `GetAttr`. The loop looks up to the terminator behind the packet. -/
def getAttr (cache : AdCache) (pAttr : Bytes) : Option Bytes := do
  let pTmp := (← strcasestr cache.bytes pAttr) + pAttr.length
  let sValue := ((cache.bytes ++ [0]).drop pTmp).takeWhile (· ∉ valueEnds)
  if pTmp + sValue.length > cache.bytes.length then none else return sValue

def getPostUri (cache : AdCache) : Option Bytes := getAttr cache (ascii "POST ")

def getGetUri (cache : AdCache) : Option Bytes := getAttr cache (ascii "GET ")

def getHost (cache : AdCache) : Option Bytes := getAttr cache (ascii "Host: ")

def getLen (cache : AdCache) : Int :=
  match getAttr cache (ascii "Content-Length: ") with
  | none => adFailure
  | some sValue => if sValue = [] then adFailure else atoi (cStr sValue)

/-- `m_ctRequests`: the protocol objects by the number of their exchange. -/
abbrev AdSharedLib := AdPingPongBuffer (TreeMap UInt32 Nat)

namespace AdSharedLib

/-- `Clear(true)`: the objects of the half in use are deleted. -/
def clear (lib : AdSharedLib) (l : Ledger) : AdSharedLib × Ledger :=
  (lib.set ∅, lib.get.toList.foldl (fun l entry => l.free entry.2) l)

/-- `Close(true)` -/
def close (lib : AdSharedLib) (l : Ledger) : AdSharedLib × Ledger :=
  let cleared := lib.clear l
  clear cleared.1.switch cleared.2

/-- `Open`, with the files that are libraries whose function makes an object. -/
def open' (loads : Bytes → Bool) (id : UInt32) (sShareLibFile : Bytes) (lib : AdSharedLib)
    (l : Ledger) : Option (AdSharedLib × Ledger) :=
  if loads (cStr sShareLibFile) then some (lib.set (lib.get.insert id l.made), l.make) else none

end AdSharedLib

structure AdAdapterMethod where
  uriAdx : TreeMap Bytes Int := ∅
  hostAdx : TreeMap Bytes Int := ∅
  proMethod : AdSharedLib := ⟨∅, ∅, false⟩

/-- The fields of a request that a method is found for. -/
structure Para where
  adx : UInt32 := 0
  adxMethod : Option Nat := none
  body : Option (Nat × Int) := none

/-- `(UINT)id` -/
def adxOf (id : Int) : UInt32 := UInt32.ofNat (toUInt32 id)

namespace AdAdapterMethod

/-- A key is an address or a host, a colon and the number of the exchange. -/
def addKey (m : AdAdapterMethod) (key : Bytes) : Int × AdAdapterMethod :=
  match strSplit key [58] with
  | [name, number] =>
    let id := atoi (cStr number)
    if key.head? = some 47 then (id, { m with uriAdx := m.uriAdx.insert name id })
    else (id, { m with hostAdx := m.hostAdx.insert name id })
  | _ => (0, m)

/-- The loop of `Init`. -/
def initEntries (loads : Bytes → Bool) : List (Bytes × Bytes) → AdAdapterMethod → Ledger →
    Int × AdAdapterMethod × Ledger
  | [], m, l => (adSuccess, m, l)
  | (key, file) :: so, m, l =>
    let added := m.addKey key
    if added.1 = 0 then (adFailure, added.2, l)
    else
      match added.2.proMethod.open' loads (adxOf added.1) file l with
      | none => (adFailure, added.2, l)
      | some opened => initEntries loads so { added.2 with proMethod := opened.1 } opened.2

def init (loads : Bytes → Bool) (so : TreeMap Bytes Bytes) (m : AdAdapterMethod) (l : Ledger) :
    Int × AdAdapterMethod × Ledger :=
  let closed := m.proMethod.close l
  initEntries loads so.toList { proMethod := closed.1 } closed.2

def get (m : AdAdapterMethod) (cache : AdCache) (ctPara : Para) : Int × Para :=
  match (getPostUri cache).orElse fun _ => getGetUri cache with
  | none => (adFailure, ctPara)
  | some uri =>
    match m.uriAdx[uri]?.orElse fun _ => (getHost cache).bind fun host => m.hostAdx[host]? with
    | none => (adFailure, ctPara)
    | some id =>
      let ctPara := { ctPara with adx := adxOf id }
      match m.proMethod.get[adxOf id]? with
      | none => (adFailure, ctPara)
      | some pTrans =>
        let ctPara := { ctPara with adxMethod := some pTrans }
        let iBody := getLen cache
        if iBody < adSuccess then (adFailure, ctPara)
        else
          match getBody cache with
          | none => (adFailure, ctPara)
          | some pBody =>
            if pBody + iBody > cache.bytes.length then (adFailure, ctPara)
            else (adSuccess, { ctPara with body := some (pBody, iBody) })

end AdAdapterMethod

theorem takeWhile_ends {value rest : Bytes} {b : UInt8} (letters : ∀ b ∈ valueEnds, b ∉ value)
    (ends : b ∈ valueEnds) : (value ++ b :: rest).takeWhile (· ∉ valueEnds) = value := by
  have inside : ∀ c ∈ value, decide (c ∉ valueEnds) = true := fun c listed =>
    decide_eq_true fun ends => letters c ends listed
  rw [List.takeWhile_append_of_pos inside, List.takeWhile_cons_of_neg (by simpa using ends),
    List.append_nil]

/-- An element that ends the text ends it in front of another one as well. -/
theorem takeWhile_before {p : UInt8 → Bool} {b : UInt8} (ends : p b = false) (s rest : Bytes) :
    (s ++ b :: rest).takeWhile p = s.takeWhile p := by
  rw [List.takeWhile_append, List.takeWhile_cons_of_neg (by simp [ends]), List.append_nil]
  split_ifs with whole
  · exact ((List.takeWhile_prefix p).eq_of_length whole).symm
  · rfl

/-- The word that `GetAttr` looks for stands before a terminator, and so does its value. -/
theorem getAttr_eq (cache : AdCache) (pAttr : Bytes) : getAttr cache pAttr =
    (strcasestr cache.bytes pAttr).map fun n =>
      ((cStr cache.bytes).drop (n + pAttr.length)).takeWhile (· ∉ valueEnds) := by
  rw [getAttr]
  cases found : strcasestr cache.bytes pAttr with
  | none => rfl
  | some n =>
    obtain ⟨⟨front, back⟩, cut, rfl⟩ := Option.map_eq_some_iff.mp found
    have whole := congrArg List.length (cutAt_eq_iff.mp cut).whole
    simp only [List.length_map, List.length_append] at whole
    have size := cStr_length cache.bytes
    have same : cStr (cache.bytes ++ [0]) = cStr cache.bytes := takeWhile_before rfl _ _
    obtain ⟨rest, split⟩ := cStr_split (s := cache.bytes ++ [0]) (by simp [same]; omega)
    rw [same] at split
    have value : ((cache.bytes ++ [0]).drop (front.length + pAttr.length)).takeWhile
        (· ∉ valueEnds) =
        ((cStr cache.bytes).drop (front.length + pAttr.length)).takeWhile (· ∉ valueEnds) := by
      rw [split, List.drop_append_of_le_length (by omega)]
      exact takeWhile_before (by decide) _ _
    have short : (((cStr cache.bytes).drop (front.length + pAttr.length)).takeWhile
        (· ∉ valueEnds)).length ≤ _ := (List.takeWhile_sublist _).length_le
    rw [List.length_drop] at short
    simp only [Option.bind_eq_bind, Option.bind_some, Option.map_some, value]
    exact if_neg (by omega)

/-- The value behind the first occurrence of a word ends at a blank or at the end of a line. -/
theorem getAttr_cut {cache : AdCache} {pAttr front value rest : Bytes} {b : UInt8}
    (clean : 0 ∉ cache.bytes) (text : cache.bytes = front ++ (pAttr ++ (value ++ b :: rest)))
    (first : (cutAt (pAttr.map tolower) (cache.bytes.map tolower)).map Prod.fst =
      some (front.map tolower))
    (letters : ∀ b ∈ valueEnds, b ∉ value) (ends : b ∈ valueEnds) :
    getAttr cache pAttr = some value := by
  have found : strcasestr cache.bytes pAttr = some front.length := by
    have place := congrArg (Option.map List.length) first
    rwa [Option.map_map, Option.map_some, List.length_map, ← cStr_eq_self clean] at place
  have behind : cache.bytes.drop (front.length + pAttr.length) = value ++ b :: rest := by
    rw [text, ← List.append_assoc, ← List.length_append, List.drop_left]
  rw [getAttr_eq, found, Option.map_some, cStr_eq_self clean, behind, takeWhile_ends letters ends]

open HttpRoundTrip (Sent message lines typeLine lengthLine lastLine headSize notMem_append)

theorem cutAt_front (p s : Bytes) : cutAt p (p ++ s) = some ([], s) :=
  cutAt_eq_iff.mpr ⟨rfl, fun _ _ _ => Nat.zero_le _⟩

/-- The first line of a request that is posted. -/
def posted (uri : Bytes) : Bytes := ascii "POST" ++ 32 :: (uri ++ 32 :: ascii "HTTP/1.1")

variable {cache : AdCache} {uri type body : Bytes} {n : Int}

theorem sent_clean {first : Bytes} (sent : Sent cache first type n body) : 0 ∉ cache.bytes := by
  rw [sent.text]
  exact notMem_append (notMem_append (notMem_append sent.head_clean (by decide)) (by decide))
    sent.clean

theorem getPostUri_sent (sent : Sent cache (posted uri) type n body)
    (letters : ∀ b ∈ valueEnds, b ∉ uri) : getPostUri cache = some uri := by
  have text : cache.bytes = [] ++ (ascii "POST " ++ (uri ++ 32 :: (ascii "HTTP/1.1" ++
      (lines type n ++ HttpParser.crlf ++ HttpParser.crlf ++ body)))) := by
    rw [sent.text, message, posted]
    simp [ascii]
  refine getAttr_cut (sent_clean sent) text ?_ letters (by decide)
  rw [text, List.nil_append, List.map_append, cutAt_front]
  rfl

/-- The word that gives the length of the body. -/
def lengthWord : Bytes := ascii "content-length:"

theorem first_absent (last : ¬ lengthWord <:+ uri.map tolower) (blank : 32 ∉ uri.map tolower) :
    ¬ lengthWord ++ [32] <:+: (posted uri).map tolower := by
  have text : (posted uri).map tolower =
      ascii "post" ++ 32 :: (uri.map tolower ++ 32 :: ascii "http/1.1") := by
    rw [posted]
    simp only [List.map_append, List.map_cons]
    rfl
  rw [text, infix_over (by decide) (by decide), infix_over (by decide) blank]
  rintro (here | here | here)
  · exact absurd here (by decide)
  · exact last here
  · exact absurd here (by decide)

theorem lengthAttr_sent (sent : Sent cache (posted uri) type n body) (blank : 32 ∉ uri.map tolower)
    (last : ¬ lengthWord <:+ uri.map tolower)
    (other : ¬ lengthWord ++ [32] <:+: (10 :: typeLine type).map tolower) :
    getAttr cache (ascii "Content-Length: ") = some (decimal n) := by
  have text : cache.bytes = (posted uri ++ 13 :: (10 :: typeLine type ++ 13 :: [10])) ++
      (ascii "Content-Length: " ++ (decimal n ++ 13 :: (10 :: lastLine ++ HttpParser.crlf ++
        HttpParser.crlf ++ body))) := by
    rw [sent.text, message, lines, lengthLine]
    simp [HttpParser.crlf]
  refine getAttr_cut (sent_clean sent) text ?_ (fun b ends => ?_) (by decide)
  · have word : (ascii "Content-Length: ").map tolower = lengthWord ++ [32] := by decide
    have small : tolower 13 = 13 ∧ tolower 10 = 10 := by decide
    have lower : cache.bytes.map tolower = (posted uri).map tolower ++ 13 ::
        ((10 :: typeLine type).map tolower ++ 13 :: (10 :: ((lengthWord ++ [32]) ++
          (decimal n ++ 13 :: (10 :: lastLine ++ HttpParser.crlf ++ HttpParser.crlf ++
            body)).map tolower))) := by
      rw [text, ← word]
      simp [small]
    have apart : ¬ lengthWord ++ [32] <+: 10 :: ((lengthWord ++ [32]) ++
        (decimal n ++ 13 :: (10 :: lastLine ++ HttpParser.crlf ++ HttpParser.crlf ++
          body)).map tolower) := fun starts =>
      absurd (List.cons_prefix_cons.mp starts).1 (by decide)
    rw [lower, word, cutAt_over (by decide) (by decide) (first_absent last blank),
      cutAt_over (by decide) (by decide) other, cutAt, if_neg apart, cutAt_front]
    simp [small]
  · exact notMem_decimal (by revert b; decide +kernel) n

/-- What opening libraries does: new objects, in the half in use. -/
structure Opened (lib : AdSharedLib) (l : Ledger) (lib' : AdSharedLib) (l' : Ledger) : Prop where
  freed : l'.freed = l.freed
  made : l.made ≤ l'.made
  back : lib'.getBack = lib.getBack
  new : ∀ (id : UInt32) (p : Nat), lib'.get[id]? = some p →
    lib.get[id]? = some p ∨ l.made ≤ p ∧ p < l'.made

theorem Opened.refl (lib : AdSharedLib) (l : Ledger) : Opened lib l lib l :=
  ⟨rfl, le_rfl, rfl, fun _ _ found => .inl found⟩

theorem Opened.trans {lib lib' lib'' : AdSharedLib} {l l' l'' : Ledger}
    (one : Opened lib l lib' l') (two : Opened lib' l' lib'' l'') : Opened lib l lib'' l'' := by
  refine ⟨two.freed.trans one.freed, one.made.trans two.made, two.back.trans one.back, ?_⟩
  intro id p found
  have made := one.made
  have made' := two.made
  rcases two.new id p found with found | new
  · exact (one.new id p found).imp_right fun new => ⟨new.1, by omega⟩
  · exact .inr ⟨by omega, new.2⟩

theorem open_opened {loads : Bytes → Bool} {id : UInt32} {file : Bytes} {lib : AdSharedLib}
    {l : Ledger} {opened : AdSharedLib × Ledger} (done : lib.open' loads id file l = some opened) :
    Opened lib l opened.1 opened.2 ∧ opened.1.get = lib.get.insert id l.made := by
  rw [AdSharedLib.open'] at done
  split_ifs at done
  cases done
  refine ⟨⟨rfl, Nat.le_succ _, lib.getBack_set _, fun other p found => ?_⟩, lib.get_set _⟩
  rw [AdPingPongBuffer.get_set, TreeMap.getElem?_insert] at found
  split_ifs at found
  · cases found
    exact .inr ⟨le_rfl, Nat.lt_succ_self _⟩
  · exact .inl found

namespace AdAdapterMethod

variable {loads : Bytes → Bool}

/-- The address that a key is about, with its number. -/
def uriOf (key : Bytes) : Option (Bytes × Int) :=
  match strSplit key [58] with
  | [name, number] => if key.head? = some 47 then some (name, atoi (cStr number)) else none
  | _ => none

theorem notMem_strSplitFrom {sep : UInt8} {piece s : Bytes} (clean : sep ∉ piece) :
    ∀ text ∈ strSplitFrom [sep] 0 piece s, sep ∉ text := by
  induction s generalizing piece with
  | nil =>
    rw [strSplitFrom]
    split
    · exact fun text none => absurd none List.not_mem_nil
    · exact List.forall_mem_singleton.mpr clean
  | cons b s ih =>
    rw [strSplitFrom]
    split
    · refine List.forall_mem_append.mpr ⟨?_, ih List.not_mem_nil⟩
      split
      · exact fun text none => absurd none List.not_mem_nil
      · exact List.forall_mem_singleton.mpr clean
    · next other =>
      refine ih fun inside => ?_
      rcases List.mem_append.mp inside with early | last
      · exact clean early
      · exact other (by simp [List.mem_singleton.mp last])

/-- An address has no colon, so it does not end in the word of the length. -/
theorem uriOf_last {key uri : Bytes} {id : Int} (about : uriOf key = some (uri, id)) :
    ¬ lengthWord <:+ uri.map tolower := by
  have colon : 58 ∉ uri := by
    rw [uriOf] at about
    split at about
    · next name number pieces =>
      split_ifs at about
      cases about
      have inside : uri ∈ strSplit key [58] := pieces ▸ List.mem_cons_self
      exact notMem_strSplitFrom List.not_mem_nil uri inside
    · cases about
  intro ends
  have inside : 58 ∈ uri.map tolower := ends.subset (by decide)
  obtain ⟨b, inside, small⟩ := List.mem_map.mp inside
  have same : ∀ b, tolower b = 58 → b = 58 := forall_byte (by decide +kernel)
  exact colon (same b small ▸ inside)

theorem addKey_proMethod (m : AdAdapterMethod) (key : Bytes) :
    (m.addKey key).2.proMethod = m.proMethod := by
  rw [addKey]
  split
  · dsimp only
    split_ifs <;> rfl
  · rfl

theorem addKey_uri (m : AdAdapterMethod) {key uri : Bytes} {id : Int}
    (about : uriOf key = some (uri, id)) :
    (m.addKey key).1 = id ∧ (m.addKey key).2.uriAdx = m.uriAdx.insert uri id := by
  rw [uriOf] at about
  rw [addKey]
  split at about
  · split_ifs at about with address
    cases about
    rw [if_pos address]
    exact ⟨rfl, rfl⟩
  · cases about

theorem addKey_other (m : AdAdapterMethod) {key uri : Bytes}
    (other : ∀ id, uriOf key ≠ some (uri, id)) :
    (m.addKey key).2.uriAdx[uri]? = m.uriAdx[uri]? := by
  rw [addKey]
  split
  · next name number split' =>
    dsimp only
    split_ifs with address
    · have apart : name ≠ uri := by
        rintro rfl
        exact other _ (by rw [uriOf, split']; exact if_pos address)
      rw [TreeMap.getElem?_insert, if_neg (by simpa using apart)]
    · rfl
  · rfl

theorem initEntries_opened (so : List (Bytes × Bytes)) (m : AdAdapterMethod) (l : Ledger) :
    Opened m.proMethod l (initEntries loads so m l).2.1.proMethod
      (initEntries loads so m l).2.2 := by
  induction so generalizing m l with
  | nil => exact .refl _ _
  | cons entry so ih =>
    rw [initEntries]
    dsimp only
    split_ifs
    · rw [addKey_proMethod]
      exact .refl _ _
    · rw [addKey_proMethod]
      cases done : m.proMethod.open' loads (adxOf (m.addKey entry.1).1) entry.2 l with
      | none =>
        rw [addKey_proMethod]
        exact .refl _ _
      | some opened =>
        exact (open_opened done).1.trans
          (ih { (m.addKey entry.1).2 with proMethod := opened.1 } opened.2)

/-- An address has its number in the table, and a protocol object. -/
def Serves (m : AdAdapterMethod) (uri : Bytes) (id : Int) : Prop :=
  m.uriAdx[uri]? = some id ∧ ∃ p, m.proMethod.get[adxOf id]? = some p

theorem initEntries_serves {so : List (Bytes × Bytes)} {m : AdAdapterMethod} {l : Ledger}
    {uri : Bytes} {id : Int} (done : (initEntries loads so m l).1 = adSuccess)
    (alone : ∀ entry ∈ so, ∀ other, uriOf entry.1 = some (uri, other) → other = id)
    (there : m.Serves uri id ∨ ∃ entry ∈ so, uriOf entry.1 = some (uri, id)) :
    (initEntries loads so m l).2.1.Serves uri id := by
  induction so generalizing m l with
  | nil =>
    rcases there with serves | ⟨_, inside, _⟩
    · exact serves
    · cases inside
  | cons entry so ih =>
    obtain ⟨alone', alone⟩ := List.forall_mem_cons.mp alone
    rw [initEntries] at done ⊢
    dsimp only at done ⊢
    split_ifs at done ⊢
    · cases done
    · rw [addKey_proMethod] at done ⊢
      cases made : m.proMethod.open' loads (adxOf (m.addKey entry.1).1) entry.2 l with
      | none =>
        rw [made] at done
        cases done
      | some opened =>
        rw [made] at done
        have methods := (open_opened made).2
        refine ih done alone ?_
        by_cases about : ∃ other, uriOf entry.1 = some (uri, other)
        · obtain ⟨other, about⟩ := about
          cases alone' other about
          obtain ⟨number, table⟩ := addKey_uri m about
          refine .inl ⟨?_, l.made, ?_⟩
          · exact table ▸ TreeMap.getElem?_insert_self
          · rw [number] at methods
            exact methods ▸ TreeMap.getElem?_insert_self
        · rcases there with ⟨known, p, found⟩ | ⟨other, inside, about'⟩
          · refine .inl ⟨(addKey_other m (not_exists.mp about)).trans known, ?_⟩
            dsimp only
            rw [methods, TreeMap.getElem?_insert]
            split_ifs
            · exact ⟨_, rfl⟩
            · exact ⟨p, found⟩
          · rcases List.mem_cons.mp inside with rfl | inside
            · exact absurd ⟨id, about'⟩ about
            · exact .inr ⟨other, inside, about'⟩

end AdAdapterMethod

theorem foldl_free (entries : List (UInt32 × Nat)) (l : Ledger) :
    (entries.foldl (fun l entry => l.free entry.2) l).made = l.made ∧
      ∀ p, p ∈ (entries.foldl (fun l entry => l.free entry.2) l).freed ↔
        p ∈ l.freed ∨ ∃ entry ∈ entries, entry.2 = p := by
  induction entries generalizing l with
  | nil => simp
  | cons entry entries ih =>
    obtain ⟨made, freed⟩ := ih (l.free entry.2)
    refine ⟨made, fun p => (freed p).trans ?_⟩
    simp [Ledger.free, or_assoc, eq_comm, or_left_comm]

theorem clear_freed (lib : AdSharedLib) (l : Ledger) :
    (lib.clear l).2.made = l.made ∧ ∀ p, p ∈ (lib.clear l).2.freed ↔
      p ∈ l.freed ∨ ∃ id : UInt32, lib.get[id]? = some p := by
  obtain ⟨made, freed⟩ := foldl_free lib.get.toList l
  refine ⟨made, fun p => (freed p).trans (or_congr_right ?_)⟩
  constructor
  · rintro ⟨⟨id, p⟩, inside, rfl⟩
    exact ⟨id, TreeMap.mem_toList_iff_getElem?_eq_some.mp inside⟩
  · rintro ⟨id, found⟩
    exact ⟨(id, p), TreeMap.mem_toList_iff_getElem?_eq_some.mpr found, rfl⟩

/-- Closing deletes what both halves hold. -/
theorem close_freed (lib : AdSharedLib) (l : Ledger) :
    ((lib.close l).1.get = ∅ ∧ (lib.close l).1.getBack = ∅) ∧ (lib.close l).2.made = l.made ∧
      ∀ p, p ∈ (lib.close l).2.freed ↔
        (p ∈ l.freed ∨ ∃ id : UInt32, lib.get[id]? = some p) ∨
          ∃ id : UInt32, lib.getBack[id]? = some p := by
  obtain ⟨made, freed⟩ := clear_freed lib l
  obtain ⟨made', freed'⟩ := clear_freed (lib.clear l).1.switch (lib.clear l).2
  have back : (lib.clear l).1.switch.get = lib.getBack := by
    rw [AdPingPongBuffer.get_switch]
    exact lib.getBack_set ∅
  refine ⟨⟨AdPingPongBuffer.get_set _ _, ?_⟩, made'.trans made, fun p => ?_⟩
  · refine (AdPingPongBuffer.getBack_set _ _).trans ?_
    rw [AdPingPongBuffer.getBack_switch]
    exact lib.get_set ∅
  · rw [AdSharedLib.close, freed', freed, back]

namespace AdAdapterMethod

/-- The protocol objects that a table holds. -/
def Owns (m : AdAdapterMethod) (p : Nat) : Prop := ∃ id : UInt32, m.proMethod.get[id]? = some p

/-- The tables that are filled anew: the old objects are deleted, the new ones are made. -/
structure Renewed (m : AdAdapterMethod) (l : Ledger) (m' : AdAdapterMethod) (l' : Ledger) :
    Prop where
  back : m'.proMethod.getBack = ∅
  made : l.made ≤ l'.made
  freed : ∀ p, p ∈ l'.freed ↔ p ∈ l.freed ∨ m.Owns p
  new : ∀ p, m'.Owns p → l.made ≤ p ∧ p < l'.made

theorem init_renewed (loads : Bytes → Bool) (so : TreeMap Bytes Bytes) {m : AdAdapterMethod}
    (l : Ledger) (back : m.proMethod.getBack = ∅) :
    m.Renewed l (init loads so m l).2.1 (init loads so m l).2.2 := by
  obtain ⟨⟨get, getBack⟩, made, freed⟩ := close_freed m.proMethod l
  have opened := @initEntries_opened loads so.toList { proMethod := (m.proMethod.close l).1 }
    (m.proMethod.close l).2
  constructor
  · exact opened.back.trans getBack
  · exact made ▸ opened.made
  · intro p
    rw [init, opened.freed, freed, back, Owns]
    simp
  · rintro p ⟨id, found⟩
    rcases opened.new id p found with old | new
    · simp [get] at old
    · exact made ▸ new

/-- A method that is found is one of the table, and the body is inside of the packet. -/
theorem get_found {m : AdAdapterMethod} {cache : AdCache} {ctPara : Para}
    (found : (m.get cache ctPara).1 = adSuccess) :
    ∃ p place len, m.Owns p ∧ (m.get cache ctPara).2.adxMethod = some p ∧
      (m.get cache ctPara).2.body = some (place, len) ∧ 0 ≤ len ∧
      place + len ≤ cache.bytes.length := by
  have apart : adFailure ≠ adSuccess := by decide
  revert found
  rw [get]
  split
  · exact fun found => absurd found apart
  split
  · exact fun found => absurd found apart
  dsimp only
  split
  · exact fun found => absurd found apart
  next p method =>
    split_ifs with negative
    · exact fun found => absurd found apart
    split
    · exact fun found => absurd found apart
    next place body =>
      split_ifs with outside
      · exact fun found => absurd found apart
      · exact fun _ =>
          ⟨p, place, _, ⟨_, method⟩, rfl, rfl, not_lt.mp negative, not_lt.mp outside⟩

/-- An address that a request is posted to is looked up, and the whole body is found. -/
theorem get_posted {loads : Bytes → Bool} {so : TreeMap Bytes Bytes} {m m' : AdAdapterMethod}
    {l l' : Ledger} (done : init loads so m l = (adSuccess, m', l')) {key uri : Bytes} {id : Int}
    (listed : key ∈ so) (about : uriOf key = some (uri, id))
    (alone : ∀ key ∈ so, ∀ other, uriOf key = some (uri, other) → other = id)
    (letters : ∀ b ∈ valueEnds, b ∉ uri) {body : Bytes} (clean : 0 ∉ body)
    (short : (HttpParser.requestText 2 (some uri) body body.length).length ≤ 8191) :
    ∃ cache p place, HttpParser.getRequest 2 (some uri) body body.length = some cache ∧
      m'.get cache {} = (adSuccess, ⟨adxOf id, some p, some (place, body.length)⟩) ∧
      cache.bytes.drop place = body ∧ m'.Owns p := by
  have serves : m'.Serves uri id := by
    have listed' : (key, so[key]) ∈ so.toList :=
      TreeMap.mem_toList_iff_getElem?_eq_some.mpr (TreeMap.getElem?_eq_some_getElem listed)
    have all : ∀ entry ∈ so.toList, ∀ other, uriOf entry.1 = some (uri, other) → other = id := by
      intro entry inside
      refine alone entry.1 (TreeMap.mem_iff_isSome_getElem?.mpr ?_)
      rw [TreeMap.mem_toList_iff_getElem?_eq_some.mp inside]
      rfl
    have result := initEntries_serves (m := { proMethod := (m.proMethod.close l).1 })
      (congrArg Prod.fst done) all (.inr ⟨_, listed', about⟩)
    change (init loads so m l).2.1.Serves uri id at result
    rwa [done] at result
  obtain ⟨number, p, method⟩ := serves
  have apart : ∀ b ∈ ([0, 13] : Bytes), b ∉ posted uri := by
    intro b inside
    have other : (b ∉ ascii "POST" ∧ b ∉ ascii "HTTP/1.1") ∧ b ≠ 32 ∧ b ∈ valueEnds := by
      revert b
      decide +kernel
    simp only [posted, List.mem_append, List.mem_cons, not_or]
    exact ⟨other.1.1, other.2.1, letters b other.2.2, other.2.1, other.1.2⟩
  have form := HttpRoundTrip.request_message 2 (letters 0 (by decide)) clean body.length
  obtain ⟨cache, written, sent⟩ := HttpRoundTrip.printed_message short form
    (apart 13 (by decide)) (by decide) (apart 0 (by decide)) (by decide) clean
  refine ⟨cache, p, _, written, ?_, sent.drop_eq, _, method⟩
  have blank : 32 ∉ uri.map tolower := by
    intro inside
    obtain ⟨b, inside, small⟩ := List.mem_map.mp inside
    have same : ∀ b, tolower b = 32 → b = 32 := forall_byte (by decide +kernel)
    exact letters 32 (by decide) (same b small ▸ inside)
  have found := sent.getBody_eq
  have within := (HttpAcceptance.getBody_le found).2
  have size := congrArg List.length sent.drop_eq
  rw [List.length_drop] at size
  have fits := cache.fits
  have length : getLen cache = body.length := by
    rw [getLen, lengthAttr_sent sent blank (uriOf_last about) (by decide)]
    dsimp only
    rw [if_neg (decimal_ne_nil _), cStr_decimal, atoi_decimal (by omega) (by omega)]
  simp only [get, getPostUri_sent sent letters, Option.orElse_some, number, method, length, found]
  rw [if_neg (by simp [adSuccess]), if_neg (by omega)]

/-- One address. -/
def exampleSection : TreeMap Bytes Bytes :=
  (∅ : TreeMap Bytes Bytes).insert (ascii "/besbid:6") (ascii "AdProtocolBaidu.so")

theorem get_posted_example : ∃ cache p place,
    HttpParser.getRequest 2 (some (ascii "/besbid")) (ascii "\r\n\r\nPOST /x") 11 = some cache ∧
      (init (fun _ => true) exampleSection {} {}).2.1.get cache {} =
        (adSuccess, ⟨6, some p, some (place, 11)⟩) ∧
      cache.bytes.drop place = ascii "\r\n\r\nPOST /x" ∧
      (init (fun _ => true) exampleSection {} {}).2.1.Owns p := by
  have about : uriOf (ascii "/besbid:6") = some (ascii "/besbid", 6) := by decide
  refine get_posted (Prod.ext (by decide) rfl) (TreeMap.mem_insert_self ..) about
    (fun key inside other found => ?_) (by decide +kernel) (by decide) (by decide +kernel)
  have same : ascii "/besbid:6" = key := by simpa [exampleSection] using inside
  rw [← same, about] at found
  cases found
  rfl

end AdAdapterMethod

end AdapterMethods
