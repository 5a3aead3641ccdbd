import Mathlib.Tactic
import RtbAdapter.Adapter

/-!
# The lists of the engines

The requests that wait are in the lists of the sessions of the engines. What the
calls of the adapter do to a list of at most one request, and what the search for
an engine finds.
-/

namespace AdapterLists

open RtbBase NetProtocol SessionBuffer HeldCounts RequestAccounts Account Adapter

def listOf (s : AdAdapter) (d : Nat) : List Nat := (s.sessionPrivate d).getD []

/-- The requests in the pending lists. -/
def pendings (s : AdAdapter) : List Nat := s.bidders.flatMap (listOf s)

/-- The requests in the lists of the other engines. -/
def others (s : AdAdapter) (d : Nat) : List Nat := (s.bidders.erase d).flatMap (listOf s)

variable {s after : AdAdapter} {d session req : Nat} {now : Time}

theorem others_congr (apart : s.bidders.Nodup) (bidders : after.bidders = s.bidders)
    (same : ∀ e, e ≠ d → after.sessionPrivate e = s.sessionPrivate e) :
    others after d = others s d := by
  rw [others, others, bidders]
  refine flatMap_erase_congr apart fun e away => ?_
  rw [listOf, listOf, same e away]

theorem listOf_some {list : List Nat} (at_d : s.sessionPrivate d = some list) :
    listOf s d = list := by
  rw [listOf, at_d]
  rfl

theorem pendings_perm (among : d ∈ s.bidders) : (pendings s).Perm (listOf s d ++ others s d) :=
  flatMap_split among

/-- The pending requests after the list of one engine has changed. -/
theorem pendings_with {list : List Nat} (apart : s.bidders.Nodup) (among : d ∈ s.bidders)
    (bidders : after.bidders = s.bidders) (own : after.sessionPrivate d = some list)
    (lists : ∀ e, e ≠ d → after.sessionPrivate e = s.sessionPrivate e) :
    (pendings after).Perm (list ++ others s d) := by
  have among' : d ∈ after.bidders := by rw [bidders]; exact among
  have parted := pendings_perm among'
  rwa [listOf_some own, others_congr apart bidders lists] at parted

theorem mem_pendings {list : List Nat} (among : d ∈ s.bidders)
    (at_d : s.sessionPrivate d = some list)
    {r : Nat} (listed : r ∈ list) : r ∈ pendings s := by
  refine List.mem_flatMap.mpr ⟨d, among, ?_⟩
  rw [listOf_some at_d]
  exact listed

theorem pendings_congr (bidders : after.bidders = s.bidders)
    (lists : after.sessionPrivate = s.sessionPrivate) : pendings after = pendings s := by
  rw [pendings, pendings, bidders]
  refine List.flatMap_congr fun e _ => ?_
  rw [listOf, listOf, lists]

/-- The walk over a list of one request gives it up when it is overdue. -/
theorem check_one : s.check now [req] =
    if (s.paras req).bTimeout then s
    else if adResponseMaxTime < (s.paras req).time.toNow now then s.giveUp req else s := by
  rw [AdAdapter.check, AdAdapter.check]
  split
  · rfl
  · split
    · rw [AdAdapter.check]
    · rfl

variable (s req) in
theorem giveUp_frame : (s.giveUp req).sessionPrivate = s.sessionPrivate ∧
    (s.giveUp req).localSession = s.localSession ∧ (s.giveUp req).netSession = s.netSession ∧
    (s.giveUp req).holder = s.holder ∧ (s.giveUp req).asked = s.asked ∧
    (s.giveUp req).paras = Function.update s.paras req { s.paras req with bTimeout := true } := by
  rw [AdAdapter.giveUp, AdAdapter.sessionTimeout]
  split <;> exact ⟨rfl, rfl, rfl, rfl, rfl, rfl⟩

theorem finish_frame {toHttp : Bool} {about : Nat} {remote : Bool} :
    (s.finish session req toHttp about remote).sessionPrivate = s.sessionPrivate := by
  rw [AdAdapter.finish, AdAdapter.sessionTimeout]
  split
  · rfl
  · split
    · rfl
    · split <;> rfl

theorem localReply_vacant (vacant : s.sessionPrivate d = some []) (packets : List InternalPacket) :
    packets.foldl (AdAdapter.localReply d) s = s := by
  induction packets with
  | nil => rfl
  | cons p packets ih =>
    rw [List.foldl_cons, AdAdapter.localReply, vacant]
    simpa using ih

/-- The first packet that names the request of the list. -/
def replyOf (req : Nat) (packets : List InternalPacket) : Option InternalPacket :=
  packets.find? fun p => p.flags && p.data == req

theorem localReply_one (at_d : s.sessionPrivate d = some [req]) (packets : List InternalPacket) :
    packets.foldl (AdAdapter.localReply d) s =
      match replyOf req packets with
      | none => s
      | some p => (s.setPrivate d (some [])).finish d req p.toHttp (s.holder req) false := by
  induction packets with
  | nil => rfl
  | cons p packets ih =>
    rw [List.foldl_cons, replyOf, List.find?_cons, AdAdapter.localReply, at_d]
    by_cases named : p.flags && p.data == req
    · rw [named]
      rw [Bool.and_eq_true, beq_iff_eq] at named
      obtain ⟨flags, rfl⟩ := named
      dsimp only
      rw [if_pos ⟨flags, List.mem_singleton_self _⟩, List.erase_cons_head]
      refine localReply_vacant ?_ packets
      rw [finish_frame]
      exact Function.update_self _ _ _
    · rw [Bool.not_eq_true] at named
      rw [named]
      have other : ¬ (p.flags ∧ p.data ∈ [req]) := by
        rw [List.mem_singleton]
        simpa using named
      dsimp only
      rw [if_neg other]
      exact ih

theorem remoteReply_one {p : Packet} :
    AdAdapter.remoteReply d p [req] 0 s =
      if 0 < tlvPacketLen p.memory p.size then
        (s.setPrivate d (some [])).finish d req (p.toHttp req 0) p.about true
      else s.setPrivate d (some []) := by
  rw [AdAdapter.remoteReply]
  have whole : (fun a => p.memory (0 + a)) = p.memory := by
    funext a
    rw [zero_add]
  rw [whole, sub_zero]
  dsimp only
  split
  · split
    · rw [AdAdapter.remoteReply]
    · rfl
  · rfl

theorem del_perm_erase {b : AdLRBuffer} (among : d ∈ b) : (b.del d).Perm (b.erase d) :=
  ((AdLRBuffer.del_perm among).symm.trans (List.perm_cons_erase among)).cons_inv

/-- The session of an engine is taken out of its buffer. -/
def without (s : AdAdapter) (d : Nat) (bTlv : Bool) : AdAdapter :=
  if bTlv then { s with netSession := s.netSession.del d }
  else { s with localSession := s.localSession.del d }

theorem bidders_without {bTlv : Bool} (sides : if bTlv then d ∈ s.netSession ∧ d ∉ s.localSession
    else d ∈ s.localSession) : (without s d bTlv).bidders.Perm (s.bidders.erase d) := by
  rw [without, AdAdapter.bidders, AdAdapter.bidders]
  cases bTlv with
  | true =>
    rw [if_pos rfl] at sides ⊢
    rw [List.erase_append_right _ sides.2]
    exact (del_perm_erase sides.1).append_left _
  | false =>
    rw [if_neg Bool.false_ne_true] at sides ⊢
    rw [List.erase_append_left _ sides]
    exact (del_perm_erase sides).append_right _

theorem nextBidder_mem {bDebugUser remote : Bool} {loop : Nat}
    (found : s.nextBidder bDebugUser loop = some (d, remote)) : d ∈ s.bidders := by
  have fromNet : (s.netSession.find loop).map (fun d => (d, true)) = some (d, remote) →
      d ∈ s.bidders := by
    intro equal
    obtain ⟨e, at_loop, pair⟩ := Option.map_eq_some_iff.mp equal
    obtain ⟨rfl, -⟩ := Prod.mk.inj pair
    exact List.mem_append_right _ (AdLRBuffer.find_mem at_loop)
  have fromLocal : (s.localSession.find loop).map (fun d => (d, false)) = some (d, remote) →
      d ∈ s.bidders := by
    intro equal
    obtain ⟨e, at_loop, pair⟩ := Option.map_eq_some_iff.mp equal
    obtain ⟨rfl, -⟩ := Prod.mk.inj pair
    exact List.mem_append_left _ (AdLRBuffer.find_mem at_loop)
  rw [AdAdapter.nextBidder] at found
  cases bDebugUser with
  | true =>
    rcases (Option.orElse_eq_some _ _ _).mp found with one | ⟨-, two⟩
    · exact fromNet one
    · exact fromLocal two
  | false =>
    rcases (Option.orElse_eq_some _ _ _).mp found with one | ⟨-, two⟩
    · exact fromLocal one
    · exact fromNet two

/-- The engine that is found has an empty list. -/
theorem findBidder_send {bDebugUser : Bool} {turns loop : Nat} {list : List Nat}
    (found : s.findBidder bDebugUser turns loop = .send d list) :
    d ∈ s.bidders ∧ s.sessionPrivate d = some [] ∧ list = [] := by
  induction turns generalizing loop with
  | zero => exact absurd found (by simp [AdAdapter.findBidder])
  | succ turns ih =>
    rw [AdAdapter.findBidder] at found
    split at found
    · exact absurd found (by simp)
    · next e remote next_ =>
      split at found
      · exact absurd found (by simp)
      · next l at_e =>
        split at found
        · split at found
          · next vacant =>
            obtain ⟨rfl, rfl⟩ := AdAdapter.Choice.send.inj found
            exact ⟨nextBidder_mem next_, vacant ▸ at_e, vacant⟩
          · exact ih found
        · exact absurd found (by simp)

theorem findBidder_congr (inLocal : after.localSession = s.localSession)
    (inNet : after.netSession = s.netSession) (lists : after.sessionPrivate = s.sessionPrivate)
    (connected : after.sessionOk = s.sessionOk) (bDebugUser : Bool) (turns loop : Nat) :
    after.findBidder bDebugUser turns loop = s.findBidder bDebugUser turns loop := by
  induction turns generalizing loop with
  | zero => rfl
  | succ turns ih =>
    rw [AdAdapter.findBidder, AdAdapter.findBidder, AdAdapter.nextBidder, AdAdapter.nextBidder,
      inLocal, inNet]
    simp only [lists, connected, ih]

/-- A call on a connection that stands, when the list is empty. -/
theorem bidResponse_vacant {bTlv : Bool} {cache : Option Packet} (ok : s.sessionOk d)
    (vacant : s.sessionPrivate d = some []) : s.bidResponse d bTlv cache now = s := by
  rw [AdAdapter.bidResponse, if_pos ok, vacant]
  dsimp only
  rw [AdAdapter.check]
  cases cache with
  | none => rfl
  | some p =>
    dsimp only
    split
    · rw [AdAdapter.remoteReply]
    · exact localReply_vacant vacant _

theorem allocPara_some (given : s.allocPara now fresh = some (req, after)) :
    ∃ account, s.toAccount.allocPara fresh = some (req, account) ∧
      after = { s with toAccount := account }.setPara req ⟨now, 0, 0, false, false, false⟩ := by
  obtain ⟨⟨r, account⟩, found, equal⟩ := Option.map_eq_some_iff.mp given
  obtain ⟨rfl, rfl⟩ := Prod.mk.inj equal
  exact ⟨account, found, rfl⟩

/-- An engine that greets is one more, with an empty list. -/
theorem greet_cases (new : d ∉ s.bidders) (bTlv : Bool) :
    (s.greet d bTlv).bidders.Perm (d :: s.bidders) ∧
      (s.greet d bTlv).sessionPrivate = Function.update s.sessionPrivate d (some []) ∧
      (s.greet d bTlv).paras = s.paras ∧
      (s.greet d bTlv).toAccount = s.toAccount.sessionActive d ∧
      (s.greet d bTlv).crashed = s.crashed := by
  rw [AdAdapter.bidders, List.mem_append, not_or] at new
  have unknown : ∀ b : AdLRBuffer, d ∉ b → b.push d = b ++ [d] := by
    intro b out
    rw [AdLRBuffer.push, if_neg]
    exact fun known => out (AdLRBuffer.check_iff.mp known)
  rw [AdAdapter.greet]
  cases bTlv with
  | true =>
    refine ⟨?_, rfl, rfl, rfl, rfl⟩
    change (s.localSession ++ s.netSession.push d).Perm _
    rw [unknown _ new.2, ← List.append_assoc]
    exact List.perm_append_singleton d _
  | false =>
    refine ⟨?_, rfl, rfl, rfl, rfl⟩
    change (s.localSession.push d ++ s.netSession).Perm _
    rw [unknown _ new.1, List.append_assoc]
    exact List.perm_middle

/-- The lists of the others stay, and no request waits that did not before. -/
theorem greet_lists (new : d ∉ s.bidders) (bTlv : Bool) :
    (∀ e ∈ s.bidders, e ≠ d ∧ (s.greet d bTlv).sessionPrivate e = s.sessionPrivate e) ∧
      (s.greet d bTlv).sessionPrivate d = some [] ∧
      (pendings (s.greet d bTlv)).Perm (pendings s) := by
  obtain ⟨sessions, lists, -⟩ := greet_cases new bTlv
  have away : ∀ e ∈ s.bidders, e ≠ d := by
    rintro e among rfl
    exact new among
  have same : ∀ e ∈ s.bidders, (s.greet d bTlv).sessionPrivate e = s.sessionPrivate e := by
    intro e among
    rw [lists]
    exact Function.update_of_ne (away e among) _ _
  have vacant : (s.greet d bTlv).sessionPrivate d = some [] := by
    rw [lists]
    exact Function.update_self _ _ _
  refine ⟨fun e among => ⟨away e among, same e among⟩, vacant, ?_⟩
  refine (sessions.flatMap_right _).trans ?_
  rw [List.flatMap_cons, listOf_some vacant, List.nil_append, pendings, List.flatMap_congr]
  intro e among
  rw [listOf, listOf, same e among]

variable {base : AdAdapter} {account : Account Kind Message} {kind : Kind} {fresh : Nat}

/-- A state in which a request has arrived and holds its source. -/
structure Arrived (s base : AdAdapter) (account : Account Kind Message) (req session : Nat)
    (kind : Kind) : Prop where
  running : base.crashed = s.crashed
  lists : base.sessionPrivate = s.sessionPrivate
  inLocal : base.localSession = s.localSession
  inNet : base.netSession = s.netSession
  objects : ∀ r, r ≠ req → base.paras r = s.paras r
  ledger : base.toAccount =
    { account.arrive req kind session with uiActive := active account.uiActive session }

theorem Arrived.bidders (arrived : Arrived s base account req session kind) :
    base.bidders = s.bidders := by
  rw [AdAdapter.bidders, arrived.inLocal, arrived.inNet]
  rfl

/-- The lists and the objects after a request was sent to an engine with an empty list. -/
structure Sent (s final : AdAdapter) (d req : Nat) (object : AdAdapterPara) : Prop where
  bidders : final.bidders = s.bidders
  own : final.sessionPrivate d = some [req]
  lists : ∀ e, e ≠ d → final.sessionPrivate e = s.sessionPrivate e
  object : final.paras req = object
  objects : ∀ r, r ≠ req → final.paras r = s.paras r

theorem Arrived.sent (arrived : Arrived s base account req session kind) :
    Sent s (base.sendBidder req session (.send d [])) d req
      { base.paras req with srcSession := session, dstSession := d } := by
  rw [AdAdapter.sendBidder]
  constructor
  · exact arrived.bidders
  · exact Function.update_self _ _ _
  · intro e away
    rw [← arrived.lists]
    exact Function.update_of_ne away _ _
  · exact Function.update_self _ _ _
  · intro r away
    rw [← arrived.objects r away]
    exact Function.update_of_ne away _ _

theorem Sent.pending {final : AdAdapter} {object : AdAdapterPara}
    (sent : Sent s final d req object) (apart : s.bidders.Nodup) (among : d ∈ s.bidders)
    (vacant : s.sessionPrivate d = some []) : (pendings final).Perm (req :: pendings s) := by
  have before := pendings_perm among
  rw [listOf_some vacant, List.nil_append] at before
  exact (pendings_with apart among sent.bidders sent.own sent.lists).trans (before.symm.cons req)

/-- A request goes to an engine with an empty list, or to none. -/
theorem request_cases (taken : s.allocPara now fresh = some (req, after)) (session : Nat)
    (p : AdxRequest) (loop : Nat) :
    ∃ account base, s.toAccount.allocPara fresh = some (req, account) ∧
      Arrived s base account req session (if p.toInternal then .accepted else .rejected) ∧
      base.paras req = ⟨now, 0, 0, false, p.bDebugUser, p.emptyToHttp⟩ ∧
      if p.toInternal then
        (∃ d, s.findBidder p.bDebugUser (s.localSession.length / 2 + 1) loop = .send d [] ∧
          after.request req session p loop = base.sendBidder req session (.send d [])) ∨
        (∀ d list, s.findBidder p.bDebugUser (s.localSession.length / 2 + 1) loop ≠
          .send d list) ∧ after.request req session p loop = base.refuse req session
      else after.request req session p loop = base.refuse req session := by
  obtain ⟨account, given, rfl⟩ := allocPara_some taken
  rw [AdAdapter.request]
  set kind : Kind := if p.toInternal then .accepted else .rejected with kind_
  dsimp only
  set locked : AdAdapter := AdAdapter.setPara _ req _ with locked_
  have mine : locked.paras req = ⟨now, 0, 0, false, p.bDebugUser, p.emptyToHttp⟩ := by
    rw [locked_, AdAdapter.setPara]
    dsimp only
    rw [Function.update_self]
    change ({ (Function.update s.paras req (⟨now, 0, 0, false, false, false⟩ : AdAdapterPara)) req
      with bDebugUser := p.bDebugUser, emptyToHttp := p.emptyToHttp } : AdAdapterPara) = _
    rw [Function.update_self]
  have arrived : Arrived s locked account req session kind := by
    refine ⟨rfl, rfl, rfl, rfl, ?_, rfl⟩
    intro r away
    exact (Function.update_of_ne away _ _).trans (Function.update_of_ne away _ _)
  have search : locked.findBidder p.bDebugUser (locked.localSession.length / 2 + 1) loop =
      s.findBidder p.bDebugUser (s.localSession.length / 2 + 1) loop :=
    findBidder_congr arrived.inLocal arrived.inNet arrived.lists
      (rfl : locked.sessionOk = s.sessionOk) _ _ _
  by_cases parses : p.toInternal
  · simp only [if_pos parses, search]
    cases found : s.findBidder p.bDebugUser (s.localSession.length / 2 + 1) loop with
    | send d list =>
      obtain ⟨-, -, rfl⟩ := findBidder_send found
      exact ⟨account, locked, given, arrived, mine, .inl ⟨d, rfl, rfl⟩⟩
    | refuse =>
      refine ⟨account, locked, given, arrived, mine, .inr ⟨?_, rfl⟩⟩
      intro d list sent
      cases sent
    | broken e =>
      refine ⟨account, { locked with sessionOk := Function.update locked.sessionOk e false }, given,
        ⟨arrived.running, arrived.lists, arrived.inLocal, arrived.inNet, arrived.objects,
          arrived.ledger⟩, mine, .inr ⟨?_, rfl⟩⟩
      intro d list sent
      cases sent
  · simp only [if_neg parses]
    exact ⟨account, locked, given, arrived, mine, rfl⟩

end AdapterLists
