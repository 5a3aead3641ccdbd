import Mathlib.Tactic
import Std.Data.TreeMap.Lemmas
import RtbAdapter.Adapter
import RtbAdapter.InverseMaps
import RtbAdapter.IpArea
import RtbAdapter.PingPong
import RtbAdapter.RtbBase

/-!
# The global ban list

An update reads the banned keys into the back half and switches. A request has up to two
keys, one of its pid and one of its user. Both are looked up and only the second counts.
-/

namespace GlobalBan

open Std ByteWords ByteMemory CText PingPong RtbBase NetProtocol Adapter RequestAccounts
  RequestAccounts.Account InverseMaps

/-- What redis answers during one update: the connection, and the keys of `global:ban` when
they can be read. -/
structure Redis where
  connect : Bool
  hkeys : Option (List Bytes)

abbrev AdAdpFilterBan := AdPingPongBuffer (TreeMap Bytes UInt32)

namespace AdAdpFilterBan

def fresh : AdAdpFilterBan := ⟨∅, ∅, false⟩

/-- `Update`. Only a failed connection is reported. -/
def update (mBan : AdAdpFilterBan) (redis : Redis) : Int × AdAdpFilterBan :=
  if redis.connect then
    match redis.hkeys with
    | none => (adSuccess, mBan)
    | some lKeys =>
      (adSuccess, (mBan.setBack (lKeys.foldl (fun back key => back.insert key 1) ∅)).switch)
  else (adFailure, mBan)

variable (mBan : AdAdpFilterBan) (r : AdRtbRequest)

def bPid : Bool :=
  r.text .pId ≠ [] &&
    mBan.get.contains (snprintf 256 (decimalUInt r.adx ++ ascii "+" ++ cStr (r.text .pId)))

def bIp : Bool := r.text .userIP ≠ [] && mBan.get.contains (r.text .userIP)

/-- `Match`. The flag of the pid is not in the result. -/
def matchBan : Bool := bIp mBan r && bIp mBan r

end AdAdpFilterBan

def adKbytes8 : Int := 8192

def adAreaAll : Bytes := ascii "0086-ffff-ffff"

/-- What `AdAdapterToInternal` works with besides the ban list: whether the protocol of the
exchange is found and can make an empty answer, the request that it reads, the areas of the
addresses, the compression, and the watched users. -/
structure Conversion where
  method : Bool
  emptyToHttp : Bool
  httpToInternal : Option AdRtbRequest
  inetAton : Bytes → Option UInt32
  ctIpArea : BinaryTrie.Trie IpArea.Area
  stale : UInt32
  z : ZlibCalls.Zlib
  fault : ZlibCalls.ZlibFault
  buffer : Memory
  ctDebugUser : TreeMap Bytes Int

/-- The area of the user, and the whole country when it has none. -/
def Conversion.fillArea (c : Conversion) (r : AdRtbRequest) : AdRtbRequest :=
  let sArea := IpArea.get c.inetAton c.ctIpArea c.stale (r.text .userIP) (r.text .area)
  { r with text := Function.update r.text .area (if sArea = [] then adAreaAll else sArea) }

/-- `AdAdapterToInternal`. -/
def adAdapterToInternal (c : Conversion) (mBan : AdAdpFilterBan) : AdxRequest :=
  match c.method, c.httpToInternal with
  | true, some r =>
    let r := c.fillArea r
    let encoded := AdRtbProtocol.fresh.requestToTlv c.z c.fault r c.buffer adKbytes8
    if encoded.ret ≤ 0 then ⟨false, false, c.emptyToHttp⟩
    else ⟨!mBan.matchBan r, c.ctDebugUser.contains (r.text .userIP), c.emptyToHttp⟩
  | _, _ => ⟨false, false, c.emptyToHttp⟩

/-- The keys that ban a request. One without a pid or without a user has no such key. -/
def banKeys (r : AdRtbRequest) : List Bytes :=
  [decimalUInt r.adx ++ ascii "+" ++ r.text .pId].filter (fun _ => r.text .pId ≠ []) ++
    [r.text .userIP].filter (· ≠ [])

def Banned (hash : List Bytes) (r : AdRtbRequest) : Prop := ∃ key ∈ banKeys r, key ∈ hash

/-- The keys that an update reads. -/
def Redis.read (redis : Redis) : Option (List Bytes) :=
  if redis.connect then redis.hkeys else none

/-- The keys that were read last. -/
def lastRead (updates : List Redis) : List Bytes := (updates.filterMap Redis.read).getLast?.getD []

def bans (updates : List Redis) : AdAdpFilterBan :=
  updates.foldl (fun mBan redis => (mBan.update redis).2) .fresh

/-- The engines that a request was sent to. -/
def bidding : Message → Option Nat
  | .request _ id => some id
  | _ => none

def handed (s : AdAdapter) (id : Nat) : List Nat := writes bidding s.log id

/-- A call of the adapter with a packet of the request sends nothing to an engine. -/
def Stopped (mBan : AdAdpFilterBan) (r : AdRtbRequest) : Prop :=
  ∀ (c : Conversion) (p : Packet), c.httpToInternal = some r →
    p.request = adAdapterToInternal c mBan →
    ∀ s s' session now fresh loop, step (.run session (some p) now fresh loop) s = some s' →
      ∀ id, handed s' id = handed s id

/-- The list does what it is for, with the keys of the hash. -/
structure Enforced (hash : List Bytes) (mBan : AdAdpFilterBan) (r : AdRtbRequest) : Prop where
  matched : mBan.matchBan r = true ↔ Banned hash r
  stopped : Banned hash r → Stopped mBan r
  kept : ∀ redis : Redis, redis.read = none → (mBan.update redis).2 = mBan

variable {mBan : AdAdpFilterBan} {r : AdRtbRequest} {hash : List Bytes} {redis : Redis}
  {updates : List Redis} {key : Bytes}

theorem mem_bans_of_keys (lKeys : List Bytes) (back : TreeMap Bytes UInt32) :
    key ∈ lKeys.foldl (fun back key => back.insert key 1) back ↔ key ∈ lKeys ∨ key ∈ back := by
  induction lKeys generalizing back with
  | nil => simp
  | cons first rest ih =>
    rw [List.foldl_cons, ih, mem_insert_iff, List.mem_cons]
    tauto

/-- An update that reads nothing changes nothing. -/
theorem update_unread (unread : redis.read = none) : (mBan.update redis).2 = mBan := by
  rw [Redis.read] at unread
  rw [AdAdpFilterBan.update]
  split_ifs at unread ⊢ with connect
  · rw [unread]
  · rfl

theorem update_read {lKeys : List Bytes} (read : redis.read = some lKeys) :
    key ∈ (mBan.update redis).2.get ↔ key ∈ lKeys := by
  rw [Redis.read] at read
  split_ifs at read with connect
  rw [AdAdpFilterBan.update, if_pos connect, read]
  dsimp only
  rw [AdPingPongBuffer.get_switch, AdPingPongBuffer.getBack_setBack, mem_bans_of_keys]
  simp

/-- After any updates the keys in force are the ones that were read last. -/
theorem mem_bans : key ∈ (bans updates).get ↔ key ∈ lastRead updates := by
  induction updates using List.reverseRecOn with
  | nil => simp [bans, lastRead, AdAdpFilterBan.fresh, AdPingPongBuffer.get]
  | append_singleton earlier redis ih =>
    rw [bans, lastRead, List.foldl_append, List.filterMap_append, List.foldl_cons, List.foldl_nil]
    cases read : redis.read with
    | none =>
      rw [update_unread read]
      rw [List.filterMap_cons_none read, List.filterMap_nil, List.append_nil]
      exact ih
    | some lKeys =>
      rw [update_read read]
      simp [read]

theorem handed_write {s : AdAdapter} {session id : Nat} {message : Message}
    (answer : bidding message = none) : handed (s.write session message) id = handed s id := by
  rw [handed, AdAdapter.write, writes_log_write, answer]
  simp [handed]

variable {s : AdAdapter} {session req id about : Nat} {now : Time}

@[simp] theorem handed_freePara : handed (s.freePara req) id = handed s id := writes_log_free

@[simp] theorem handed_sessionTimeout : handed (s.sessionTimeout req session) id = handed s id := by
  rw [AdAdapter.sessionTimeout]
  change handed (ite _ _ _) id = _
  split_ifs
  · exact handed_write rfl
  · rfl

@[simp] theorem handed_giveUp : handed (s.giveUp req) id = handed s id :=
  handed_sessionTimeout (s := s.setPara req _)

theorem handed_clearOne : handed (s.clearOne req) id = handed s id := by
  rw [AdAdapter.clearOne]
  change handed (AdAdapter.freePara (ite _ _ _) req) id = _
  rw [handed_freePara]
  split_ifs
  · rfl
  · exact handed_giveUp

theorem handed_check (list : List Nat) : handed (s.check now list) id = handed s id := by
  induction list generalizing s with
  | nil => rfl
  | cons req rest ih =>
    rw [AdAdapter.check]
    split_ifs
    · exact ih
    · rw [ih, handed_giveUp]
    · rfl

theorem handed_finish {toHttp remote : Bool} :
    handed (s.finish session req toHttp about remote) id = handed s id := by
  rw [AdAdapter.finish, handed_freePara]
  split_ifs
  · rfl
  · exact handed_write (s := s.sessionIdle session) rfl
  · exact handed_sessionTimeout (s := s.sessionIdle session)

theorem handed_localReply (p : InternalPacket) :
    handed (AdAdapter.localReply session s p) id = handed s id := by
  rw [AdAdapter.localReply]
  split
  · rfl
  · split_ifs
    · exact handed_finish
    · rfl

theorem handed_remoteReply {p : Packet} (list : List Nat) (iOffset : Int) :
    handed (AdAdapter.remoteReply session p list iOffset s) id = handed s id := by
  induction list generalizing s iOffset with
  | nil => rfl
  | cons req rest ih =>
    rw [AdAdapter.remoteReply]
    dsimp only
    split_ifs
    · rw [ih, handed_finish]
      rfl
    · exact handed_finish
    · rfl

/-- The replies of an engine send no request. -/
theorem handed_bidResponse {bTlv : Bool} {cache : Option Packet} :
    handed (s.bidResponse session bTlv cache now) id = handed s id := by
  have replies (packets : List InternalPacket) (s : AdAdapter) :
      handed (packets.foldl (AdAdapter.localReply session) s) id = handed s id := by
    induction packets generalizing s with
    | nil => rfl
    | cons p rest ih => rw [List.foldl_cons, ih, handed_localReply]
  have cleared (list : List Nat) (s : AdAdapter) :
      handed (list.foldl AdAdapter.clearOne s) id = handed s id := by
    induction list generalizing s with
    | nil => rfl
    | cons req rest ih => rw [List.foldl_cons, ih, handed_clearOne]
  rw [AdAdapter.bidResponse]
  split_ifs with ok tlv
  · split
    · rfl
    · split
      · exact handed_check _
      · rw [handed_remoteReply, handed_check]
  · split
    · rfl
    · split
      · exact handed_check _
      · rw [replies, handed_check]
  · split
    · rfl
    · exact cleared _ (s.setPrivate session none)
  · split
    · rfl
    · exact cleared _ (s.setPrivate session none)

theorem handed_allocPara {fresh : Nat} {s' : AdAdapter}
    (alloc : s.allocPara now fresh = some (req, s')) : handed s' id = handed s id := by
  rw [AdAdapter.allocPara] at alloc
  obtain ⟨⟨req', account⟩, given, same⟩ := Option.map_eq_some_iff.mp alloc
  obtain ⟨rfl, rfl⟩ := Prod.mk.inj same
  rw [Account.allocPara] at given
  have logged : account.log = s.log := by
    split at given
    · obtain ⟨_, rfl⟩ := Prod.mk.inj (Option.some.inj given)
      rfl
    · split_ifs at given
      obtain ⟨_, rfl⟩ := Prod.mk.inj (Option.some.inj given)
      rfl
  rw [handed, handed, ← logged]
  rfl

/-- A packet that gives no request sends none. -/
theorem handed_run {p : Packet} {fresh loop : Nat} {s' : AdAdapter}
    (refused : p.request.toInternal = false)
    (ran : s.run session (some p) now fresh loop = some s') : handed s' id = handed s id := by
  rw [AdAdapter.run] at ran
  split_ifs at ran
  · obtain rfl := Option.some.inj ran
    exact handed_bidResponse
  · obtain rfl := Option.some.inj ran
    exact handed_bidResponse
  · obtain rfl := Option.some.inj ran
    rfl
  · obtain rfl := Option.some.inj ran
    rfl
  · obtain ⟨⟨req, given⟩, alloc, same⟩ := Option.map_eq_some_iff.mp ran
    obtain rfl := same
    dsimp only
    rw [AdAdapter.request, refused, ← handed_allocPara alloc]
    exact handed_freePara.trans handed_sessionTimeout

theorem matchBan_fillArea (c : Conversion) :
    mBan.matchBan (c.fillArea r) = mBan.matchBan r := by
  have user : (c.fillArea r).text .userIP = r.text .userIP := by
    have other : RequestText.userIP ≠ .area := by decide
    rw [Conversion.fillArea]
    dsimp only
    rw [Function.update_of_ne other]
  rw [AdAdpFilterBan.matchBan, AdAdpFilterBan.matchBan, AdAdpFilterBan.bIp, AdAdpFilterBan.bIp,
    user]

/-- A request that the list matches is not taken over. -/
theorem toInternal_of_matched {c : Conversion} (given : c.httpToInternal = some r)
    (matched : mBan.matchBan r = true) : (adAdapterToInternal c mBan).toInternal = false := by
  rw [adAdapterToInternal, given]
  cases c.method with
  | false => rfl
  | true =>
    dsimp only
    split_ifs
    · rfl
    · rw [matchBan_fillArea, matched]
      rfl

theorem matched_stopped (matched : mBan.matchBan r = true) : Stopped mBan r := by
  intro c p given made s s' session now fresh loop stepped id
  have ran : s.run session (some p) now fresh loop = some s' := by
    rw [step] at stepped
    split_ifs at stepped
    exact stepped
  refine handed_run ?_ ran
  rw [made]
  exact toInternal_of_matched given matched

theorem matchBan_iff :
    mBan.matchBan r = true ↔ r.text .userIP ≠ [] ∧ r.text .userIP ∈ mBan.get := by
  rw [AdAdpFilterBan.matchBan, Bool.and_self, AdAdpFilterBan.bIp]
  simp

theorem mem_banKeys : key ∈ banKeys r ↔
    (r.text .pId ≠ [] ∧ key = decimalUInt r.adx ++ ascii "+" ++ r.text .pId) ∨
      (r.text .userIP ≠ [] ∧ key = r.text .userIP) := by
  rw [banKeys, List.mem_append, List.mem_filter, List.mem_filter, List.mem_singleton,
    List.mem_singleton, decide_eq_true_iff, decide_eq_true_iff]
  refine or_congr and_comm ⟨?_, ?_⟩
  · rintro ⟨rfl, some⟩
    exact ⟨some, rfl⟩
  · rintro ⟨some, rfl⟩
    exact ⟨rfl, some⟩

theorem banned_iff : Banned hash r ↔
    (r.text .pId ≠ [] ∧ decimalUInt r.adx ++ ascii "+" ++ r.text .pId ∈ hash) ∨
      (r.text .userIP ≠ [] ∧ r.text .userIP ∈ hash) := by
  constructor
  · rintro ⟨key, among, listed⟩
    rcases mem_banKeys.mp among with ⟨some, same⟩ | ⟨some, same⟩
    · exact .inl ⟨some, same ▸ listed⟩
    · exact .inr ⟨some, same ▸ listed⟩
  · rintro (⟨some, listed⟩ | ⟨some, listed⟩)
    · exact ⟨_, mem_banKeys.mpr (.inl ⟨some, rfl⟩), listed⟩
    · exact ⟨_, mem_banKeys.mpr (.inr ⟨some, rfl⟩), listed⟩

/-- Either flag would be the right result, for keys that fit the buffer. -/
theorem either_flag (text : cStr (r.text .pId) = r.text .pId)
    (fits : (decimalUInt r.adx ++ ascii "+" ++ r.text .pId).length ≤ 255) :
    ((bans updates).bPid r || (bans updates).bIp r) = true ↔ Banned (lastRead updates) r := by
  have whole : snprintf 256 (decimalUInt r.adx ++ ascii "+" ++ cStr (r.text .pId)) =
      decimalUInt r.adx ++ ascii "+" ++ r.text .pId := by
    rw [text, snprintf_whole (by omega)]
  rw [Bool.or_eq_true, AdAdpFilterBan.bPid, AdAdpFilterBan.bIp, whole, banned_iff,
    ← mem_bans, ← mem_bans]
  simp

/-- The ban list is enforced on a request exactly when the hash has no key of its pid, or has
its user. -/
theorem global_ban (updates : List Redis) (r : AdRtbRequest) :
    Enforced (lastRead updates) (bans updates) r ↔
      (r.text .pId ≠ [] → decimalUInt r.adx ++ ascii "+" ++ r.text .pId ∉ lastRead updates) ∨
        (r.text .userIP ≠ [] ∧ r.text .userIP ∈ lastRead updates) := by
  have same : (bans updates).matchBan r = true ↔
      r.text .userIP ≠ [] ∧ r.text .userIP ∈ lastRead updates := by
    rw [matchBan_iff, mem_bans]
  constructor
  · intro enforced
    by_cases user : r.text .userIP ≠ [] ∧ r.text .userIP ∈ lastRead updates
    · exact .inr user
    · refine .inl fun some listed => user ?_
      exact same.mp (enforced.matched.mpr (banned_iff.mpr (.inl ⟨some, listed⟩)))
  · intro condition
    have matched : (bans updates).matchBan r = true ↔ Banned (lastRead updates) r := by
      rw [same, banned_iff]
      refine ⟨.inr, ?_⟩
      rintro (⟨some, listed⟩ | user)
      · exact condition.resolve_left fun none => none some listed
      · exact user
    exact ⟨matched, fun banned => matched_stopped (matched.mpr banned), fun _ => update_unread⟩

/-- A user without a ban, on a page that has one. -/
def bannedPage : AdRtbRequest where
  adx := 7
  time := ⟨0, 0⟩
  text := fun text => if text = .pId then ascii "p" else if text = .userIP then ascii "1.2.3.4"
    else []
  list _ := []

theorem page_passes :
    ¬ Enforced (lastRead [⟨true, some [ascii "7+p"]⟩]) (bans [⟨true, some [ascii "7+p"]⟩])
      bannedPage := by
  intro enforced
  have banned : Banned (lastRead [⟨true, some [ascii "7+p"]⟩]) bannedPage :=
    ⟨ascii "7+p", by decide, by decide⟩
  have matched := enforced.matched.mpr banned
  revert matched
  decide

end GlobalBan
