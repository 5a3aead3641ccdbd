import Mathlib.Tactic
import RtbAdapter.RequestLedger
import RtbAdapter.StepRuns
import RtbAdapter.AdapterLists

/-!
# Replies and their requests

A reply of the net names no request and is paired with the first of the list of
its session. Beside the adapter runs what every engine was sent since it greeted
and has not replied to; an engine replies to that and sends nothing else. The
list of an engine and what it was sent are the same, and never longer than one.
-/

namespace AdapterPairing

open RtbBase NetProtocol SessionBuffer RequestAccounts Account Adapter AdapterLists StepRuns
open Adapter hiding step

/-- The objects and the numbers of the requests that an engine was sent and has not replied
to. -/
abbrev Inbox := Nat → List (Nat × Nat)

structure Engines where
  adapter : AdAdapter
  inbox : Inbox

/-- A read is the reply to a request: it was made for the number of the request, and a local
engine names the object of the request in its one packet. -/
def repliesTo (p : Packet) (bTlv : Bool) (entry : Nat × Nat) : Bool :=
  p.about = entry.2 && (bTlv || match p.internal with
    | [q] => q.flags && q.data = entry.1
    | _ => false)

/-- An engine replies to a request that it was sent, and sends nothing else. A session that is
no engine yet was sent nothing. -/
def received (t : Engines) : Input → Option Inbox
  | .run session (some p) _ _ _ =>
    if session ∈ t.adapter.bidders then
      ((t.inbox session).find?
        (repliesTo p (!t.adapter.localSession.check session))).map fun entry =>
        Function.update t.inbox session ((t.inbox session).erase entry)
    else some (Function.update t.inbox session [])
  | _ => some t.inbox

/-- What the engines are sent. -/
def delivered (inbox : Inbox) (events : List (Event Message)) : Inbox :=
  events.foldl (fun inbox event =>
    match event with
    | .write d (.request req id) => Function.update inbox d (inbox d ++ [(req, id)])
    | _ => inbox) inbox

def step (input : Input) (t : Engines) : Option Engines :=
  (received t input).bind fun inbox =>
    (Adapter.step input t.adapter).map fun after =>
      ⟨after, delivered inbox (after.log.drop t.adapter.log.length)⟩

/-- No list is longer than one, and every bid of the net was made for the request that it
answers, a request of the session that it is written to. -/
structure Matched (s : AdAdapter) : Prop where
  short : ∀ d ∈ s.bidders, (listOf s d).length ≤ 1
  own : ∀ session id about, Event.write session (.bid id about true) ∈ s.log →
    about = id ∧ s.asked[id]? = some (.accepted, session)

/-- What a log may hold: bids of the net for the requests of their sessions. -/
def Own (asked : List (Kind × Nat)) : Event Message → Prop
  | .write session (.bid id about true) => about = id ∧ asked[id]? = some (.accepted, session)
  | _ => True

/-- An event that is no bid of the net and no request. -/
def Quiet : Event Message → Prop
  | .write _ (.bid _ _ true) => False
  | .write _ (.request _ _) => False
  | _ => True

/-- The requests that wait have objects of their own and know where they came from. -/
structure Waits (a : Account Kind Message) (waiting : List Nat) (source : Nat → Nat) : Prop where
  pooled : Pooled a
  apart : waiting.Nodup
  inUse : ∀ r ∈ waiting, r ∈ a.used
  asked : ∀ r ∈ waiting, a.asked[a.holder r]? = some (.accepted, source r)
  own : ∀ e ∈ a.log, Own a.asked e

variable {a b after : Account Kind Message} {waiting more : List Nat} {source source' : Nat → Nat}
  {req fresh : Nat}

theorem Quiet.own {asked : List (Kind × Nat)} {e : Event Message} (quiet : Quiet e) :
    Own asked e := by
  match e, quiet with
  | .free _, _ => trivial
  | .write _ (.empty _), _ => trivial
  | .write _ (.bid _ _ false), _ => trivial

theorem Waits.perm (waits : Waits a waiting source) (same : waiting.Perm more) :
    Waits a more source where
  pooled := waits.pooled
  apart := same.nodup_iff.mp waits.apart
  inUse r among := waits.inUse r (same.mem_iff.mpr among)
  asked r among := waits.asked r (same.mem_iff.mpr among)
  own := waits.own

theorem Waits.congr (waits : Waits a waiting source) (same : ∀ r ∈ waiting, source' r = source r) :
    Waits a waiting source' where
  pooled := waits.pooled
  apart := waits.apart
  inUse := waits.inUse
  asked r among := by rw [same r among]; exact waits.asked r among
  own := waits.own

/-- A request may leave the list with its object still in use. -/
theorem Waits.tail (waits : Waits a (req :: waiting) source) : Waits a waiting source where
  pooled := waits.pooled
  apart := (List.nodup_cons.mp waits.apart).2
  inUse r among := waits.inUse r (.tail _ among)
  asked r among := waits.asked r (.tail _ among)
  own := waits.own

/-- Only the objects, the numbers and the log count. -/
theorem Waits.log (waits : Waits a waiting source) (free : b.ctFreePara = a.ctFreePara)
    (used : b.used = a.used) (holder : b.holder = a.holder) (asked : b.asked = a.asked)
    {events : List (Event Message)} (log : b.log = a.log ++ events)
    (own : ∀ e ∈ events, Own a.asked e) : Waits b waiting source where
  pooled := ⟨used ▸ waits.pooled.used, free ▸ waits.pooled.free, by
    rw [free, used]; exact waits.pooled.apart⟩
  apart := waits.apart
  inUse := by rw [used]; exact waits.inUse
  asked := by rw [asked, holder]; exact waits.asked
  own e among := by
    rw [log, List.mem_append] at among
    rw [asked]
    rcases among with old | new
    · exact waits.own e old
    · exact own e new

/-- The object of a request that waits no longer is released. -/
theorem Waits.free_aside (waits : Waits a waiting source) (inUse : req ∈ a.used)
    (outside : req ∉ waiting) : Waits (a.freePara req) waiting source where
  pooled := waits.pooled.free_para inUse
  apart := waits.apart
  inUse r among := (mem_used_freePara waits.pooled).mpr
    ⟨fun equal => outside (equal ▸ among), waits.inUse r among⟩
  asked := waits.asked
  own e among := by
    rcases List.mem_append.mp among with old | new
    · exact waits.own e old
    · rw [List.mem_singleton.mp new]
      trivial

theorem Waits.free (waits : Waits a (req :: waiting) source) :
    Waits (a.freePara req) waiting source :=
  waits.tail.free_aside (waits.inUse req List.mem_cons_self) (List.nodup_cons.mp waits.apart).1

/-- An object given to an arrival belongs to no request that waits. -/
theorem Waits.arrive_aside (waits : Waits a waiting source)
    (given : a.allocPara fresh = some (req, after)) (kind : Kind) (session : Nat) :
    Waits (after.arrive req kind session) waiting source ∧ req ∉ waiting ∧
      (after.arrive req kind session).asked[(after.arrive req kind session).holder req]? =
        some (kind, session) := by
  obtain ⟨unused, pooled, rest, rfl⟩ := waits.pooled.alloc given
  have outside : req ∉ waiting := fun among => unused (waits.inUse req among)
  refine ⟨⟨⟨pooled.used, pooled.free, pooled.apart⟩, waits.apart, ?_, ?_, ?_⟩, outside, ?_⟩
  · exact fun r among => List.mem_cons_of_mem _ (waits.inUse r among)
  · intro r among
    have away : r ≠ req := by
      rintro rfl
      exact outside among
    rw [RequestLedger.holder_arrive away]
    exact RequestLedger.asked_arrive (waits.asked r among)
  · intro e among
    have old := waits.own e among
    match e with
    | .free _ => trivial
    | .write _ (.empty _) => trivial
    | .write _ (.request _ _) => trivial
    | .write _ (.bid _ _ false) => trivial
    | .write _ (.bid _ _ true) => exact ⟨old.1, RequestLedger.asked_arrive old.2⟩
  · rw [RequestLedger.holder_arrive_self]
    exact List.getElem?_concat_length

theorem Waits.arrive (waits : Waits a waiting source)
    (given : a.allocPara fresh = some (req, after)) (session : Nat) :
    Waits (after.arrive req .accepted session) (req :: waiting)
      (Function.update source req session) := by
  obtain ⟨aside, outside, mine⟩ := waits.arrive_aside given .accepted session
  have away : ∀ r ∈ waiting, r ≠ req := by
    rintro r among rfl
    exact outside among
  obtain ⟨-, -, rest, rfl⟩ := waits.pooled.alloc given
  refine ⟨aside.pooled, List.nodup_cons.mpr ⟨outside, aside.apart⟩, ?_, ?_, aside.own⟩
  · intro r among
    rcases List.mem_cons.mp among with rfl | old
    · exact List.mem_cons_self
    · exact aside.inUse r old
  · intro r among
    rcases List.mem_cons.mp among with rfl | old
    · rw [Function.update_self]
      exact mine
    · rw [Function.update_of_ne (away r old)]
      exact aside.asked r old

/-- A call that leaves the objects, the numbers, the lists and the sources as they are, and
writes no bid of the net and no request. -/
structure Beside (s t : AdAdapter) : Prop where
  free : t.ctFreePara = s.ctFreePara
  used : t.used = s.used
  holder : t.holder = s.holder
  asked : t.asked = s.asked
  lists : t.sessionPrivate = s.sessionPrivate
  inLocal : t.localSession = s.localSession
  inNet : t.netSession = s.netSession
  sources : ∀ r, (t.paras r).srcSession = (s.paras r).srcSession
  log : ∃ events, t.log = s.log ++ events ∧ ∀ e ∈ events, Quiet e

variable {s t u : AdAdapter} {d session : Nat} {inbox : Inbox} {now : Time}

theorem Beside.refl : Beside s s :=
  ⟨rfl, rfl, rfl, rfl, rfl, rfl, rfl, fun _ => rfl, [], (List.append_nil _).symm,
    fun _ among => absurd among (by simp)⟩

theorem Beside.trans (first : Beside s t) (second : Beside t u) : Beside s u := by
  obtain ⟨one, log, quiet⟩ := first.log
  obtain ⟨two, log', quiet'⟩ := second.log
  refine ⟨second.free.trans first.free, second.used.trans first.used,
    second.holder.trans first.holder, second.asked.trans first.asked,
    second.lists.trans first.lists, second.inLocal.trans first.inLocal,
    second.inNet.trans first.inNet, fun r => (second.sources r).trans (first.sources r),
    one ++ two, ?_, ?_⟩
  · rw [log', log, List.append_assoc]
  · intro e among
    rcases List.mem_append.mp among with left | right
    · exact quiet e left
    · exact quiet' e right

theorem Beside.bidders (beside : Beside s t) : t.bidders = s.bidders := by
  rw [AdAdapter.bidders, beside.inLocal, beside.inNet]
  rfl

theorem Beside.pendings (beside : Beside s t) : pendings t = pendings s :=
  pendings_congr beside.bidders beside.lists

theorem Beside.waits (beside : Beside s t)
    (waits : Waits s.toAccount waiting fun r => (s.paras r).srcSession) :
    Waits t.toAccount waiting fun r => (t.paras r).srcSession := by
  obtain ⟨events, log, quiet⟩ := beside.log
  exact (waits.log beside.free beside.used beside.holder beside.asked log
    fun e among => (quiet e among).own).congr fun r _ => beside.sources r

/-- Counts and connections may change. -/
theorem beside_counts (uiActive held : Nat → Nat) (sessionOk : Nat → Bool) :
    Beside s { s with uiActive := uiActive, held := held, sessionOk := sessionOk } :=
  ⟨rfl, rfl, rfl, rfl, rfl, rfl, rfl, fun _ => rfl, [], (List.append_nil _).symm,
    fun _ among => absurd among (by simp)⟩

theorem beside_sessionIdle : Beside s (s.sessionIdle session) :=
  beside_counts (HeldCounts.idle s.uiActive session) s.held s.sessionOk

theorem beside_sessionTimeout : Beside s (s.sessionTimeout req session) := by
  rw [AdAdapter.sessionTimeout]
  split
  · refine ⟨rfl, rfl, rfl, rfl, rfl, rfl, rfl, fun _ => rfl, [_], rfl, ?_⟩
    intro e among
    rw [List.mem_singleton.mp among]
    trivial
  · exact beside_sessionIdle

theorem beside_giveUp : Beside s (s.giveUp req) := by
  have flagged : Beside s (s.setPara req { s.paras req with bTimeout := true }) := by
    refine ⟨rfl, rfl, rfl, rfl, rfl, rfl, rfl, ?_, [], (List.append_nil _).symm,
      fun _ among => absurd among (by simp)⟩
    intro r
    by_cases same : r = req
    · subst same
      rw [show (s.setPara r _).paras r = _ from Function.update_self _ _ _]
    · exact congrArg AdAdapterPara.srcSession (Function.update_of_ne same _ _)
  exact flagged.trans beside_sessionTimeout

theorem beside_check (list : List Nat) : Beside s (s.check now list) := by
  induction list generalizing s with
  | nil => exact Beside.refl
  | cons req list ih =>
    rw [AdAdapter.check]
    split
    · exact ih
    · split
      · exact beside_giveUp.trans ih
      · exact Beside.refl

/-- An event that is no request. -/
def Unsent : Event Message → Prop
  | .write _ (.request _ _) => False
  | _ => True

theorem Quiet.unsent {e : Event Message} (quiet : Quiet e) : Unsent e := by
  match e, quiet with
  | .free _, _ => trivial
  | .write _ (.empty _), _ => trivial
  | .write _ (.bid _ _ false), _ => trivial

theorem delivered_unsent {events : List (Event Message)} (unsent : ∀ e ∈ events, Unsent e) :
    delivered inbox events = inbox := by
  induction events with
  | nil => rfl
  | cons e events ih =>
    rw [delivered, List.foldl_cons]
    have here := unsent e List.mem_cons_self
    match e, here with
    | .free _, _ => exact ih fun e among => unsent e (.tail _ among)
    | .write _ (.empty _), _ => exact ih fun e among => unsent e (.tail _ among)
    | .write _ (.bid _ _ _), _ => exact ih fun e among => unsent e (.tail _ among)

/-- The invariant: a list is what its engine was sent and has not replied to. -/
structure Paired (s : AdAdapter) (inbox : Inbox) : Prop where
  waits : Waits s.toAccount (pendings s) fun r => (s.paras r).srcSession
  apart : s.bidders.Nodup
  listed : ∀ d ∈ s.bidders, ∃ list, s.sessionPrivate d = some list ∧ list.length ≤ 1 ∧
    inbox d = list.map fun r => (r, s.holder r)

theorem Paired.matched (paired : Paired s inbox) : Matched s := by
  constructor
  · intro d among
    obtain ⟨list, at_d, short, -⟩ := paired.listed d among
    rw [listOf_some at_d]
    exact short
  · intro session id about among
    exact paired.waits.own _ among

theorem Paired.beside (paired : Paired s inbox) (beside : Beside s t) : Paired t inbox := by
  refine ⟨?_, by rw [beside.bidders]; exact paired.apart, ?_⟩
  · rw [beside.pendings]
    exact beside.waits paired.waits
  · rw [beside.bidders, beside.lists, beside.holder]
    exact paired.listed

/-- The end of a request with a reply: it is written to its source, and its object is released. -/
theorem finish_cases (d req : Nat) (toHttp : Bool) (about : Nat) (remote : Bool) :
    ∃ account : Account Kind Message,
      s.finish d req toHttp about remote = { s with toAccount := account.freePara req } ∧
      account.ctFreePara = s.ctFreePara ∧ account.used = s.used ∧ account.holder = s.holder ∧
      account.asked = s.asked ∧ ∃ events, account.log = s.log ++ events ∧
        ∀ e ∈ events, Quiet e ∨
          remote ∧ e = .write (s.paras req).srcSession (.bid (s.holder req) about true) := by
  rw [AdAdapter.finish]
  split
  · exact ⟨_, rfl, rfl, rfl, rfl, rfl, [], (List.append_nil _).symm,
      fun _ among => absurd among (by simp)⟩
  · split
    · refine ⟨_, rfl, rfl, rfl, rfl, rfl, [_], rfl, ?_⟩
      intro e among
      rw [List.mem_singleton.mp among]
      cases remote with
      | true => exact .inr ⟨rfl, rfl⟩
      | false => exact .inl trivial
    · rw [AdAdapter.sessionTimeout]
      split
      · refine ⟨_, rfl, rfl, rfl, rfl, rfl, [_], rfl, ?_⟩
        intro e among
        rw [List.mem_singleton.mp among]
        exact .inl trivial
      · exact ⟨_, rfl, rfl, rfl, rfl, rfl, [], (List.append_nil _).symm,
          fun _ among => absurd among (by simp)⟩

/-- The list of one engine is emptied, and so is what it was sent. -/
theorem paired_left {account : Account Kind Message} (paired : Paired s inbox)
    (among : d ∈ s.bidders) (holder : account.holder = s.holder)
    (waits : Waits account (others s d) fun r => (s.paras r).srcSession) :
    Paired { s.setPrivate d (some []) with toAccount := account }
      (Function.update inbox d []) := by
  set final : AdAdapter := { s.setPrivate d (some []) with toAccount := account } with finally_
  have lists : ∀ e, e ≠ d → final.sessionPrivate e = s.sessionPrivate e :=
    fun e away => Function.update_of_ne away _ _
  have vacant : final.sessionPrivate d = some [] := Function.update_self _ _ _
  have pending : (pendings final).Perm (others s d) :=
    pendings_with paired.apart among (show final.bidders = s.bidders from rfl) vacant lists
  refine ⟨waits.perm pending.symm, paired.apart, ?_⟩
  intro e among'
  by_cases same : e = d
  · rw [same]
    exact ⟨[], vacant, Nat.zero_le 1, Function.update_self _ _ _⟩
  · obtain ⟨list, at_e, short, sent⟩ := paired.listed e among'
    refine ⟨list, (lists e same).trans at_e, short, ?_⟩
    rw [Function.update_of_ne same, sent]
    exact List.map_congr_left fun r _ => by rw [show final.holder = s.holder from holder]

theorem Paired.alone (paired : Paired s inbox) (among : d ∈ s.bidders)
    (at_d : s.sessionPrivate d = some [req]) :
    Waits s.toAccount (req :: others s d) (fun r => (s.paras r).srcSession) ∧
      inbox d = [(req, s.holder req)] := by
  obtain ⟨list, at_d', -, sent⟩ := paired.listed d among
  obtain rfl : [req] = list := Option.some.inj (at_d.symm.trans at_d')
  have parted := pendings_perm among
  rw [listOf_some at_d] at parted
  exact ⟨paired.waits.perm parted, sent⟩

/-- A reply ends the request that it was made for. -/
theorem paired_finish {toHttp : Bool} {about : Nat} {remote : Bool} (paired : Paired s inbox)
    (among : d ∈ s.bidders) (at_d : s.sessionPrivate d = some [req])
    (made : remote → about = s.holder req) :
    Paired ((s.setPrivate d (some [])).finish d req toHttp about remote)
        (Function.update inbox d []) ∧
      ∃ events, ((s.setPrivate d (some [])).finish d req toHttp about remote).log =
        s.log ++ events ∧ ∀ e ∈ events, Unsent e := by
  obtain ⟨waits, -⟩ := paired.alone among at_d
  obtain ⟨account, equal, free, used, holder, asked, events, log, written⟩ :=
    finish_cases (s := s.setPrivate d (some [])) d req toHttp about remote
  rw [equal]
  constructor
  · refine paired_left paired among holder ?_
    refine (waits.log free used holder asked log ?_).free
    intro e new
    rcases written e new with quiet | ⟨net, rfl⟩
    · exact quiet.own
    · exact ⟨made net, waits.asked req List.mem_cons_self⟩
  · refine ⟨events ++ [.free (account.holder req)], ?_, ?_⟩
    · change account.log ++ [_] = _
      rw [log, List.append_assoc]
      rfl
    · intro e new
      rcases List.mem_append.mp new with old | last
      · rcases written e old with quiet | ⟨-, rfl⟩
        · exact quiet.unsent
        · trivial
      · rw [List.mem_singleton.mp last]
        trivial

variable {bTlv : Bool} {cache : Option Packet} {p : Packet}

/-- What a call that writes no request leaves of what the engines were sent. -/
theorem delivered_log {events : List (Event Message)} (log : t.log = s.log ++ events)
    (unsent : ∀ e ∈ events, Unsent e) :
    delivered inbox (t.log.drop s.log.length) = inbox := by
  rw [log, List.drop_left]
  exact delivered_unsent unsent

theorem Beside.delivered (beside : Beside s t) :
    delivered inbox (t.log.drop s.log.length) = inbox := by
  obtain ⟨events, log, quiet⟩ := beside.log
  exact delivered_log log fun e among => (quiet e among).unsent

theorem Paired.unsent (paired : Paired s inbox) (beside : Beside s t) :
    Paired t (AdapterPairing.delivered inbox (t.log.drop s.log.length)) := by
  rw [beside.delivered]
  exact paired.beside beside

/-- The reply of an engine to the request of its list. -/
theorem paired_reply (paired : Paired s inbox) (among : d ∈ s.bidders)
    (at_d : s.sessionPrivate d = some [req]) (replies : repliesTo p bTlv (req, s.holder req)) :
    let t := if bTlv then AdAdapter.remoteReply d p [req] 0 s
      else p.internal.foldl (AdAdapter.localReply d) s
    Paired t (Function.update inbox d []) ∧
      ∃ events, t.log = s.log ++ events ∧ ∀ e ∈ events, Unsent e := by
  rw [repliesTo, Bool.and_eq_true, decide_eq_true_eq] at replies
  obtain ⟨made, names⟩ := replies
  obtain ⟨waits, -⟩ := paired.alone among at_d
  cases bTlv with
  | true =>
    intro t
    rw [show t = AdAdapter.remoteReply d p [req] 0 s from rfl, remoteReply_one]
    split
    · exact paired_finish paired among at_d fun _ => made
    · exact ⟨paired_left paired among rfl waits.tail, [], (List.append_nil _).symm,
        fun _ none => absurd none (by simp)⟩
  | false =>
    intro t
    rw [show t = p.internal.foldl (AdAdapter.localReply d) s from rfl, localReply_one at_d]
    rw [Bool.false_or] at names
    split at names
    · next q packets =>
      have first : replyOf req p.internal = some q := by
        rw [replyOf, packets, List.find?_cons]
        rw [Bool.and_eq_true, decide_eq_true_eq] at names
        simp [names.1, names.2]
      rw [first]
      exact paired_finish paired among at_d fun net => absurd net (by simp)
    · exact absurd names (by simp)

theorem paired_open {inbox' : Inbox} (paired : Paired s inbox) (among : d ∈ s.bidders)
    (ok : s.sessionOk d)
    (read : ∀ p, cache = some p → ∃ entry ∈ inbox d, repliesTo p bTlv entry ∧
      inbox' = Function.update inbox d ((inbox d).erase entry))
    (unread : cache = none → inbox' = inbox) :
    Paired (s.bidResponse d bTlv cache now)
      (delivered inbox' ((s.bidResponse d bTlv cache now).log.drop s.log.length)) := by
  obtain ⟨list, at_d, short, sent⟩ := paired.listed d among
  rw [AdAdapter.bidResponse, if_pos ok, at_d]
  dsimp only
  have checked : Beside s (s.check now list) := beside_check list
  cases cache with
  | none =>
    rw [unread rfl, checked.delivered]
    exact paired.beside checked
  | some p =>
    obtain ⟨entry, waiting, replies, rfl⟩ := read p rfl
    rw [sent, List.mem_map] at waiting
    obtain ⟨req, listed, rfl⟩ := waiting
    obtain rfl : list = [req] := by
      rcases list with _ | ⟨one, _ | ⟨second, more⟩⟩
      · simp at listed
      · rw [List.mem_singleton.mp listed]
      · simp at short
    rw [sent, List.map_singleton, List.erase_cons_head]
    have among' : d ∈ (s.check now [req]).bidders := by
      rw [checked.bidders]
      exact among
    rw [← checked.holder] at replies
    have at_c : (s.check now [req]).sessionPrivate d = some [req] := by
      rw [checked.lists]
      exact at_d
    obtain ⟨kept, events, log, unsent⟩ := paired_reply (paired.beside checked) among' at_c replies
    obtain ⟨more, log', quiet⟩ := checked.log
    dsimp only at kept log ⊢
    rw [log', List.append_assoc] at log
    rw [delivered_log log]
    · exact kept
    · intro e new
      rcases List.mem_append.mp new with old | last
      · exact (quiet e old).unsent
      · exact unsent e last

/-- The session of an engine is taken out of the buffer, with its list. -/
theorem paired_gone {final : AdAdapter} {inbox' : Inbox} (paired : Paired s inbox)
    (sessions : final.bidders.Perm (s.bidders.erase d))
    (lists : ∀ e, e ≠ d → final.sessionPrivate e = s.sessionPrivate e)
    (holder : final.holder = s.holder)
    (waits : Waits final.toAccount (others s d) fun r => (final.paras r).srcSession)
    (inboxes : ∀ e, e ≠ d → inbox' e = inbox e) : Paired final inbox' := by
  have left : ∀ e ∈ s.bidders.erase d, e ≠ d := by
    rintro e among rfl
    exact paired.apart.not_mem_erase among
  have pending : (pendings final).Perm (others s d) := by
    refine (sessions.flatMap_right _).trans ?_
    rw [others, List.flatMap_congr]
    intro e among
    rw [listOf, listOf, lists e (left e among)]
  refine ⟨waits.perm pending.symm, sessions.nodup_iff.mpr (paired.apart.erase d), ?_⟩
  intro e among
  have here := sessions.mem_iff.mp among
  obtain ⟨list, at_e, short, sent⟩ := paired.listed e (List.mem_of_mem_erase here)
  refine ⟨list, (lists e (left e here)).trans at_e, short, ?_⟩
  rw [inboxes e (left e here), sent, holder]

theorem paired_closed {inbox' : Inbox} (paired : Paired s inbox) (among : d ∈ s.bidders)
    (sides : if bTlv then d ∈ s.netSession ∧ d ∉ s.localSession else d ∈ s.localSession)
    (broken : ¬ s.sessionOk d) (inboxes : ∀ e, e ≠ d → inbox' e = inbox e) :
    Paired (s.bidResponse d bTlv cache now)
      (delivered inbox' ((s.bidResponse d bTlv cache now).log.drop s.log.length)) := by
  obtain ⟨list, at_d, short, -⟩ := paired.listed d among
  rw [AdAdapter.bidResponse, if_neg broken, at_d]
  dsimp only
  obtain ⟨c, isC, holder, inLocal, inNet, lists, waits, events, log, unsent⟩ :
      ∃ c, list.foldl AdAdapter.clearOne (s.setPrivate d none) = c ∧ c.holder = s.holder ∧
        c.localSession = s.localSession ∧ c.netSession = s.netSession ∧
        c.sessionPrivate = Function.update s.sessionPrivate d none ∧
        Waits c.toAccount (others s d) (fun r => (c.paras r).srcSession) ∧
        ∃ events, c.log = s.log ++ events ∧ ∀ e ∈ events, Unsent e := by
    rcases list with _ | ⟨req, _ | ⟨second, more⟩⟩
    · have parted := pendings_perm among
      rw [listOf_some at_d, List.nil_append] at parted
      exact ⟨_, rfl, rfl, rfl, rfl, rfl, paired.waits.perm parted, [], (List.append_nil _).symm,
        fun _ none => absurd none (by simp)⟩
    · obtain ⟨waits, -⟩ := paired.alone among at_d
      have beside : Beside (s.setPrivate d none)
          (if ((s.setPrivate d none).paras req).bTimeout then s.setPrivate d none
            else (s.setPrivate d none).giveUp req) := by
        split
        · exact Beside.refl
        · exact beside_giveUp
      obtain ⟨events, log, quiet⟩ := beside.log
      refine ⟨_, rfl, beside.holder, beside.inLocal, beside.inNet, beside.lists, ?_,
        events ++ [.free (s.holder req)], ?_, ?_⟩
      · exact (beside.waits (s := s.setPrivate d none) waits).free.log rfl rfl rfl rfl
          (List.append_nil _).symm fun _ none => absurd none (by simp)
      · have number := congrFun beside.holder req
        change _ ++ [Event.free _] = _
        rw [log, number, List.append_assoc]
        rfl
      · intro e new
        rcases List.mem_append.mp new with old | last
        · exact (quiet e old).unsent
        · rw [List.mem_singleton.mp last]
          trivial
    · simp at short
  rw [isC]
  set final : AdAdapter := AdAdapter.sessionIdle _ d with finally_
  have equal : final = (without c d bTlv).sessionIdle d := by
    rw [finally_, without]
  have sessions : final.bidders.Perm (s.bidders.erase d) := by
    have inside : (if bTlv then d ∈ c.netSession ∧ d ∉ c.localSession else d ∈ c.localSession) := by
      rw [inLocal, inNet]
      exact sides
    have same : c.bidders = s.bidders := by
      rw [AdAdapter.bidders, inLocal, inNet]
      rfl
    rw [equal, ← same]
    exact bidders_without inside
  obtain ⟨private_, object, ledger⟩ : final.sessionPrivate = c.sessionPrivate ∧
      final.paras = c.paras ∧ final.toAccount = c.toAccount.sessionIdle d := by
    rw [equal, without]
    cases bTlv <;> exact ⟨rfl, rfl, rfl⟩
  have logged : final.log = s.log ++ events := by
    rw [ledger]
    exact log
  rw [delivered_log logged unsent]
  refine paired_gone paired sessions ?_ (by rw [ledger]; exact holder) ?_ inboxes
  · intro e away
    rw [private_, lists, Function.update_of_ne away]
  · rw [ledger, object]
    exact waits.log rfl rfl rfl rfl (List.append_nil _).symm fun _ none => absurd none (by simp)

/-- Where the lists and what the engines were sent are the same, the requests still wait. -/
theorem paired_beside {final : AdAdapter} {inbox' : Inbox} (paired : Paired s inbox)
    (bidders : final.bidders = s.bidders) (lists : final.sessionPrivate = s.sessionPrivate)
    (holder : ∀ r ∈ pendings s, final.holder r = s.holder r)
    (waits : Waits final.toAccount (pendings s) fun r => (final.paras r).srcSession)
    (inboxes : ∀ e ∈ s.bidders, inbox' e = inbox e) : Paired final inbox' := by
  have pending : pendings final = pendings s := pendings_congr bidders lists
  refine ⟨by rw [pending]; exact waits, by rw [bidders]; exact paired.apart, ?_⟩
  intro e among
  rw [bidders] at among
  obtain ⟨list, at_e, short, sent⟩ := paired.listed e among
  refine ⟨list, by rw [lists]; exact at_e, short, ?_⟩
  rw [inboxes e among, sent]
  exact List.map_congr_left fun r listed => by rw [holder r (mem_pendings among at_e listed)]

theorem paired_greet (paired : Paired s inbox) (new : d ∉ s.bidders) (bTlv : Bool) :
    Paired (s.greet d bTlv) (Function.update inbox d []) := by
  obtain ⟨sessions, -, object, ledger, -⟩ := greet_cases new bTlv
  obtain ⟨others, vacant, pending⟩ := greet_lists new bTlv
  refine ⟨?_, ?_, ?_⟩
  · rw [ledger, object]
    exact (paired.waits.perm pending.symm).log rfl rfl rfl rfl (List.append_nil _).symm
      fun _ none => absurd none (by simp)
  · refine sessions.nodup_iff.mpr (List.nodup_cons.mpr ⟨?_, paired.apart⟩)
    exact new
  · intro e among
    rcases List.mem_cons.mp (sessions.mem_iff.mp among) with rfl | old
    · exact ⟨[], vacant, Nat.zero_le 1, Function.update_self _ _ _⟩
    · obtain ⟨away, same⟩ := others e old
      obtain ⟨list, at_e, short, sent⟩ := paired.listed e old
      refine ⟨list, same.trans at_e, short, ?_⟩
      rw [Function.update_of_ne away, sent, ledger]
      rfl

variable {base : AdAdapter} {account : Account Kind Message} {kind : Kind} {inbox' : Inbox}

/-- What an arrival leaves of the requests that wait. -/
theorem arrived_waits (paired : Paired s inbox)
    (given : s.toAccount.allocPara fresh = some (req, account))
    (arrived : Arrived s base account req session kind) :
    Waits base.toAccount (pendings s) (fun r => (base.paras r).srcSession) ∧
      (∀ r ∈ pendings s, r ≠ req) ∧ (∀ r ∈ pendings s, base.holder r = s.holder r) ∧
      req ∈ base.used ∧ base.log = s.log := by
  obtain ⟨aside, outside, -⟩ := paired.waits.arrive_aside given kind session
  have away : ∀ r ∈ pendings s, r ≠ req := by
    rintro r among rfl
    exact outside among
  obtain ⟨-, -, rest, isAccount⟩ := paired.waits.pooled.alloc given
  refine ⟨?_, away, ?_, ?_, ?_⟩
  · rw [arrived.ledger]
    refine Waits.congr (aside.log rfl rfl rfl rfl (List.append_nil _).symm
      fun _ none => absurd none (by simp)) ?_
    intro r among
    rw [arrived.objects r (away r among)]
  · intro r among
    rw [arrived.ledger, isAccount]
    exact Function.update_of_ne (away r among) _ _
  · rw [arrived.ledger, isAccount]
    exact List.mem_cons_self
  · rw [arrived.ledger, isAccount]
    rfl

theorem paired_refused (paired : Paired s inbox)
    (given : s.toAccount.allocPara fresh = some (req, account))
    (arrived : Arrived s base account req session kind)
    (inboxes : ∀ e ∈ s.bidders, inbox' e = inbox e) :
    Paired (base.refuse req session)
      (delivered inbox' ((base.refuse req session).log.drop s.log.length)) := by
  obtain ⟨waits, away, holder, inUse, logged⟩ := arrived_waits paired given arrived
  have beside : Beside base (base.sessionTimeout req session) := beside_sessionTimeout
  obtain ⟨events, log, quiet⟩ := beside.log
  have logged' : (base.refuse req session).log =
      s.log ++ (events ++ [.free (base.holder req)]) := by
    change (base.sessionTimeout req session).log ++
      [.free ((base.sessionTimeout req session).holder req)] = _
    rw [log, logged, beside.holder, List.append_assoc]
  rw [delivered_log logged']
  · refine paired_beside paired (beside.bidders.trans arrived.bidders)
      (beside.lists.trans arrived.lists) ?_ ?_ inboxes
    · intro r among
      rw [← holder r among]
      exact congrFun beside.holder r
    · refine (beside.waits waits).free_aside ?_ fun among => away req among rfl
      rw [beside.used]
      exact inUse
  · intro e new
    rcases List.mem_append.mp new with old | last
    · exact (quiet e old).unsent
    · rw [List.mem_singleton.mp last]
      trivial

theorem paired_sent (paired : Paired s inbox)
    (given : s.toAccount.allocPara fresh = some (req, account))
    (arrived : Arrived s base account req session .accepted) (among : d ∈ s.bidders)
    (vacant : s.sessionPrivate d = some []) (inboxes : ∀ e ∈ s.bidders, inbox' e = inbox e) :
    Paired (base.sendBidder req session (.send d []))
      (delivered inbox' ((base.sendBidder req session (.send d [])).log.drop s.log.length)) := by
  obtain ⟨waits, away, holder, inUse, logged⟩ := arrived_waits paired given arrived
  set object : AdAdapterPara :=
    { base.paras req with srcSession := session, dstSession := d } with object_
  rw [AdAdapter.sendBidder]
  set final : AdAdapter := (((base.sessionActive d).setPara req object).setPrivate d
    (some ([] ++ [req]))).write d (.request req (base.holder req)) with finally_
  change Paired final (delivered inbox' (final.log.drop s.log.length))
  have sent : Sent s final d req object := arrived.sent
  have pending := sent.pending paired.apart among vacant
  obtain ⟨bidders, at_d, lists, updated, objects⟩ := sent
  have logged' : final.log = s.log ++ [.write d (.request req (base.holder req))] := by
    change base.log ++ [_] = _
    rw [logged]
  have posted : delivered inbox' (final.log.drop s.log.length) =
      Function.update inbox' d (inbox' d ++ [(req, base.holder req)]) := by
    rw [logged', List.drop_left]
    rfl
  rw [posted]
  refine ⟨?_, ?_, ?_⟩
  · have mine := (paired.waits.arrive given session).perm pending.symm
    have here : Waits base.toAccount (pendings final)
        (Function.update (fun r => (s.paras r).srcSession) req session) := by
      rw [arrived.ledger]
      exact mine.log rfl rfl rfl rfl (List.append_nil _).symm fun _ none => absurd none (by simp)
    refine (here.log (b := final.toAccount) rfl rfl rfl rfl rfl ?_).congr ?_
    · intro e new
      rw [List.mem_singleton.mp new]
      trivial
    · intro r _
      by_cases same : r = req
      · rw [same, Function.update_self, updated]
      · rw [Function.update_of_ne same, objects r same]
  · rw [bidders]
    exact paired.apart
  · intro e among'
    rw [bidders] at among'
    obtain ⟨list, at_e, short, sent⟩ := paired.listed e among'
    by_cases same : e = d
    · subst same
      obtain rfl : list = [] := Option.some.inj (at_e.symm.trans vacant)
      refine ⟨[req], at_d, le_rfl, ?_⟩
      rw [Function.update_self, inboxes e among, sent]
      rfl
    · refine ⟨list, (lists e same).trans at_e, short, ?_⟩
      rw [Function.update_of_ne same, inboxes e among', sent]
      exact List.map_congr_left fun r listed => by
        rw [← holder r (mem_pendings among' at_e listed)]
        rfl

/-- A call for the session of an engine takes it from the buffer that has it. -/
theorem run_bidder (known : session ∈ s.bidders) (loop : Nat) :
    ∃ bTlv, bTlv = (!s.localSession.check session) ∧
      (if bTlv then session ∈ s.netSession ∧ session ∉ s.localSession
        else session ∈ s.localSession) ∧
      s.run session cache now fresh loop = some (s.bidResponse session bTlv cache now) := by
  rw [AdAdapter.run.eq_def]
  by_cases inLocal : s.localSession.check session
  · refine ⟨false, by rw [inLocal]; rfl, ?_, if_pos inLocal⟩
    rw [if_neg Bool.false_ne_true]
    exact AdLRBuffer.check_iff.mp inLocal
  · have outLocal : session ∉ s.localSession := fun among =>
      inLocal (AdLRBuffer.check_iff.mpr among)
    have inNet := (List.mem_append.mp known).resolve_left outLocal
    rw [if_neg inLocal, if_pos (AdLRBuffer.check_iff.mpr inNet)]
    refine ⟨true, by simpa using inLocal, ?_, rfl⟩
    rw [if_pos rfl]
    exact ⟨inNet, outLocal⟩

/-- A request of an exchange. -/
theorem paired_request {taken : AdAdapter} (paired : Paired s inbox) (session : Nat)
    (p : AdxRequest) (loop : Nat) (given : s.allocPara now fresh = some (req, taken))
    (inboxes : ∀ e ∈ s.bidders, inbox' e = inbox e) :
    Paired (taken.request req session p loop)
      (delivered inbox' ((taken.request req session p loop).log.drop s.log.length)) := by
  obtain ⟨account, base, given, arrived, -, requested⟩ := request_cases given session p loop
  by_cases parses : p.toInternal
  · rw [if_pos parses] at arrived requested
    rcases requested with ⟨d, found, equal⟩ | ⟨-, equal⟩
    · obtain ⟨among, vacant, -⟩ := findBidder_send found
      rw [equal]
      exact paired_sent paired given arrived among vacant inboxes
    · rw [equal]
      exact paired_refused paired given arrived inboxes
  · rw [if_neg parses] at requested
    rw [requested]
    exact paired_refused paired given arrived inboxes

/-- A call with what has arrived keeps the requests paired. -/
theorem paired_run {loop : Nat} (paired : Paired s inbox)
    (arrived : received ⟨s, inbox⟩ (.run session cache now fresh loop) = some inbox')
    (stepped : s.run session cache now fresh loop = some t) :
    Paired t (delivered inbox' (t.log.drop s.log.length)) := by
  by_cases known : session ∈ s.bidders
  · obtain ⟨bTlv, side, sides, called⟩ := run_bidder known loop
    obtain rfl := Option.some.inj (called.symm.trans stepped)
    have read : ∀ p, cache = some p → ∃ entry ∈ inbox session, repliesTo p bTlv entry ∧
        inbox' = Function.update inbox session ((inbox session).erase entry) := by
      rintro p rfl
      rw [received, if_pos known, ← side] at arrived
      obtain ⟨entry, found, rfl⟩ := Option.map_eq_some_iff.mp arrived
      exact ⟨entry, List.mem_of_find?_eq_some found, List.find?_some found, rfl⟩
    have unread : cache = none → inbox' = inbox := by
      rintro rfl
      exact (Option.some.inj arrived).symm
    by_cases ok : s.sessionOk session
    · exact paired_open paired known ok read unread
    · refine paired_closed paired known sides ok ?_
      intro e away
      cases cache with
      | none => rw [unread rfl]
      | some p =>
        obtain ⟨entry, -, -, rfl⟩ := read p rfl
        exact Function.update_of_ne away _ _
  · have outLocal : ¬ s.localSession.check session := fun checked =>
      known (List.mem_append_left _ (AdLRBuffer.check_iff.mp checked))
    have outNet : ¬ s.netSession.check session := fun checked =>
      known (List.mem_append_right _ (AdLRBuffer.check_iff.mp checked))
    rw [AdAdapter.run.eq_def, if_neg outLocal, if_neg outNet] at stepped
    cases cache with
    | none =>
      obtain rfl := Option.some.inj stepped
      obtain rfl := Option.some.inj arrived
      rw [Beside.refl.delivered]
      exact paired
    | some p =>
      rw [received, if_neg known] at arrived
      obtain rfl := Option.some.inj arrived
      have inboxes : ∀ e ∈ s.bidders, Function.update inbox session [] e = inbox e := by
        intro e among
        refine Function.update_of_ne ?_ _ _
        rintro rfl
        exact known among
      have greeted : ∀ bTlv, Paired (s.greet session bTlv) (delivered
          (Function.update inbox session []) ((s.greet session bTlv).log.drop s.log.length)) := by
        intro bTlv
        have logged : (s.greet session bTlv).log = s.log ++ [] := by
          rw [(greet_cases known bTlv).2.2.2.1, List.append_nil]
          rfl
        rw [delivered_log logged fun _ none => absurd none (by simp)]
        exact paired_greet paired known bTlv
      dsimp only at stepped
      split at stepped
      · obtain rfl := Option.some.inj stepped
        exact greeted false
      · split at stepped
        · obtain rfl := Option.some.inj stepped
          exact greeted true
        · obtain ⟨⟨req, s₁⟩, taken, rfl⟩ := Option.map_eq_some_iff.mp stepped
          exact paired_request paired session p.request loop taken inboxes

theorem paired_step {input : Input} {e f : Engines} (paired : Paired e.adapter e.inbox)
    (stepped : step input e = some f) : Paired f.adapter f.inbox := by
  obtain ⟨inbox, arrived, called⟩ := Option.bind_eq_some_iff.mp stepped
  obtain ⟨t, moved, rfl⟩ := Option.map_eq_some_iff.mp called
  dsimp only
  rw [Adapter.step.eq_def] at moved
  split at moved
  · exact absurd moved (by simp)
  · cases input with
    | run session cache now fresh loop => exact paired_run paired arrived moved
    | close session =>
      obtain rfl := Option.some.inj moved
      obtain rfl := Option.some.inj arrived
      exact paired.unsent (beside_counts _ _ _)
    | active session =>
      obtain rfl := Option.some.inj moved
      obtain rfl := Option.some.inj arrived
      exact paired.unsent (beside_counts _ _ _)
    | idle session =>
      dsimp only at moved
      split at moved
      · obtain rfl := Option.some.inj moved
        obtain rfl := Option.some.inj arrived
        exact paired.unsent (beside_counts _ _ _)
      · exact absurd moved (by simp)

theorem paired_start (held : Nat → Nat) : Paired (start held) fun _ => [] := by
  refine ⟨?_, List.nodup_nil, fun d among => nomatch among⟩
  exact {
    pooled := ⟨List.nodup_nil, List.nodup_nil, fun _ none => nomatch none⟩
    apart := List.nodup_nil
    inUse := fun _ none => nomatch none
    asked := fun _ none => nomatch none
    own := fun _ none => nomatch none }

/-- In every state of every run, whatever the engines reply, no list is longer than one and
every bid of the net is for the request that it was made for. -/
theorem replies_matched (held : Nat → Nat) (inputs : List Input) :
    ∀ e ∈ states step ⟨start held, fun _ => []⟩ inputs, Matched e.adapter := by
  intro e reached
  have keep : ∀ (i : Input) (e after : Engines), Paired e.adapter e.inbox →
      step i e = some after → Paired after.adapter after.inbox :=
    fun _ _ _ paired stepped => paired_step paired stepped
  exact (states_keep keep (paired_start held) inputs e reached).matched

/-- A packet of some bytes, read in one piece. -/
def readPacket (text : List UInt8) (size : Int) : Packet :=
  ⟨fun a => text.getD a.toNat 0, size, ⟨true, false, true⟩, [], fun _ _ => true, 0⟩

/-- An engine of the net greets as session 1 and replies to the request of session 7. -/
def greetedRun : List Input :=
  [.run 1 (some (readPacket adIBiddingEngRemote 32)) ⟨0, 0⟩ 0 0,
    .run 7 (some (readPacket [] 64)) ⟨0, 0⟩ 0 0,
    .run 1 (some (readPacket [232, 0, 0, 0, 0, 0, 0, 0, 0, 0, 0, 0, 14] 14)) ⟨0, 0⟩ 0 0]

theorem greeted_bid_matched :
    ∃ e ∈ states step ⟨start fun _ => 0, fun _ => []⟩ greetedRun,
      Event.write 7 (.bid 0 0 true) ∈ e.adapter.log ∧ Matched e.adapter := by
  have bid : ∃ e ∈ states step ⟨start fun _ => 0, fun _ => []⟩ greetedRun,
      Event.write 7 (.bid 0 0 true) ∈ e.adapter.log := by
    refine ⟨_, .tail _ (.tail _ (.tail _ (.head _))), ?_⟩
    decide
  obtain ⟨e, reached, written⟩ := bid
  exact ⟨e, reached, written, replies_matched (fun _ => 0) greetedRun e reached⟩

end AdapterPairing
