import Mathlib.Tactic
import RtbAdapter.RequestLedger
import RtbAdapter.StepRuns
import RtbAdapter.Exchange

/-!
# The balance of the exchange

A request holds its source and the session of its bidder from its push to its
end. A run keeps every request to one answer and one release, every click to one
redirection and the activity counts to the holds of the requests that wait,
exactly when no bidder ever answers in time or late and every request parses.
-/

namespace ExchangeBalance

open Std SessionBuffer HeldCounts RequestAccounts Account RequestLedger Exchange StepRuns
open PendingRequests hiding step

/-- The requests in the list of a session. -/
def keysOf (s : AdAdx) (d : Nat) : List Nat :=
  (s.sessionPrivate d).elim [] fun l => l.mReq.keys

/-- The requests in the pending lists. -/
def pendings (s : AdAdx) : List Nat := s.dspSession.flatMap (keysOf s)

/-- The sessions that requests hold. -/
def owed (paras : Paras) (reqs : List Nat) : List Nat :=
  reqs.flatMap fun r => [(paras r).srcSession, (paras r).dstSession]

/-- What the exchange holds of the sessions: each session of a bidder, and the two sessions
of every request that waits. -/
def holds (s : AdAdx) : List Nat := s.dspSession ++ owed s.paras (pendings s)

/-- The requests in the lists of the other sessions. -/
def others (s : AdAdx) (d : Nat) : List Nat := (s.dspSession.erase d).flatMap (keysOf s)

structure Settled (s : AdAdx) : Prop where
  running : s.crashed = false
  balanced : Balanced s.uiActive s.held (holds s)
  redirected : ∀ id src, s.asked[id]? = some (.click, src) →
    writes Message.redirects s.log id = [src]
  waiting : ∀ r ∈ pendings s,
    writes Message.answers s.log (s.holder r) = [] ∧ frees s.log (s.holder r) = 0
  answered : ∀ id src, s.asked[id]? = some (.ssp, src) → (∀ r ∈ pendings s, s.holder r ≠ id) →
    writes Message.answers s.log id = [src] ∧ frees s.log id = 1

/-- Every click has been redirected once. -/
structure Redirected (a : Account Kind Message) : Prop where
  clicks : ∀ id src, a.asked[id]? = some (.click, src) → writes Message.redirects a.log id = [src]
  known : ∀ id, a.asked.length ≤ id → writes Message.redirects a.log id = []

structure Sound (s : AdAdx) : Prop where
  running : s.crashed = false
  balanced : Balanced s.uiActive s.held (holds s)
  booked : Booked Message.answers (· = .ssp) s.toAccount (pendings s)
    (fun r => (s.paras r).srcSession) (fun _ => false)
  redirected : Redirected s.toAccount
  apart : s.dspSession.Nodup
  listed : ∀ d ∈ s.dspSession, ∃ l, s.sessionPrivate d = some l ∧ l.Backed ∧
    ∀ r ∈ l.mReq.keys, (s.paras r).dstSession = d ∧ (s.paras r).bTimeout = false

variable {s after : AdAdx} {d session : Nat} {l : AdParaList} {paras : Paras} {reqs : List Nat}

theorem Sound.settled (sound : Sound s) : Settled s where
  running := sound.running
  balanced := sound.balanced
  redirected := sound.redirected.clicks
  waiting := sound.booked.opened
  answered id src found outside := sound.booked.closed id .ssp src found rfl outside

theorem pendings_perm (among : d ∈ s.dspSession) : (pendings s).Perm (keysOf s d ++ others s d) :=
  flatMap_split among

theorem keysOf_some (at_d : s.sessionPrivate d = some l) : keysOf s d = l.mReq.keys := by
  rw [keysOf, at_d]
  rfl

/-- Where only the list of one session differs, the other lists are the same. -/
theorem others_congr (apart : s.dspSession.Nodup) (sessions : after.dspSession = s.dspSession)
    (same : ∀ e, e ≠ d → after.sessionPrivate e = s.sessionPrivate e) :
    others after d = others s d := by
  rw [others, others, sessions]
  refine flatMap_erase_congr apart fun e away => ?_
  rw [keysOf, keysOf, same e away]

theorem owed_append {more : List Nat} :
    owed paras (reqs ++ more) = owed paras reqs ++ owed paras more :=
  List.flatMap_append

variable (paras) in
theorem owed_perm {more : List Nat} (same : reqs.Perm more) :
    (owed paras reqs).Perm (owed paras more) :=
  same.flatMap_right _

theorem owed_congr {paras' : Paras} (same : ∀ r ∈ reqs,
    (paras' r).srcSession = (paras r).srcSession ∧ (paras' r).dstSession = (paras r).dstSession) :
    owed paras' reqs = owed paras reqs := by
  refine List.flatMap_congr fun r among => ?_
  rw [(same r among).1, (same r among).2]

theorem holds_perm (among : d ∈ s.dspSession) :
    (holds s).Perm (owed s.paras (keysOf s d) ++ (s.dspSession ++ owed s.paras (others s d))) := by
  have split := owed_perm s.paras (pendings_perm among)
  rw [owed_append] at split
  refine (split.append_left _).trans ?_
  rw [← List.append_assoc, ← List.append_assoc]
  exact List.perm_append_comm.append_right _

theorem Redirected.write {a : Account Kind Message} (redirected : Redirected a) {message : Message}
    (other : message.redirects = none) : Redirected (a.write session message) := by
  have same : ∀ id, writes Message.redirects (a.write session message).log id =
      writes Message.redirects a.log id := by
    intro id
    simp [writes_log_write, other]
  constructor
  · intro id src found
    rw [same]
    exact redirected.clicks id src found
  · intro id unknown
    rw [same]
    exact redirected.known id unknown

theorem Redirected.free {a : Account Kind Message} (redirected : Redirected a) (req : Nat) :
    Redirected (a.freePara req) := by
  constructor
  · intro id src found
    rw [writes_log_free]
    exact redirected.clicks id src found
  · intro id unknown
    rw [writes_log_free]
    exact redirected.known id unknown

theorem Redirected.arrive_ssp {a : Account Kind Message} (redirected : Redirected a) (req : Nat) :
    Redirected (a.arrive req .ssp session) := by
  constructor
  · intro id src found
    rcases asked_arrive_cases found with old | ⟨-, other, -⟩
    · exact redirected.clicks id src old
    · exact absurd other (by decide)
  · intro id unknown
    refine redirected.known id ?_
    have longer : (a.asked ++ [(Kind.ssp, session)]).length ≤ id := unknown
    rw [List.length_append] at longer
    omega

/-- A click is redirected as it arrives. -/
theorem Redirected.arrive_click {a : Account Kind Message} (redirected : Redirected a) (req : Nat) :
    Redirected ((a.arrive req .click session).write session
      (.redirect ((a.arrive req .click session).holder req))) := by
  have grows : ∀ id, writes Message.redirects ((a.arrive req .click session).write session
      (.redirect ((a.arrive req .click session).holder req))).log id =
      writes Message.redirects a.log id ++ if a.asked.length = id then [session] else [] := by
    intro id
    rw [writes_log_write, holder_arrive_self]
    simp [Message.redirects, Account.arrive]
  constructor
  · intro id src found
    have arrived : (a.arrive req .click session).asked[id]? = some (.click, src) := found
    rw [grows]
    rcases asked_arrive_cases arrived with old | ⟨rfl, -, rfl⟩
    · have before := (List.getElem?_eq_some_iff.mp old).1
      rw [if_neg (by omega), List.append_nil]
      exact redirected.clicks id src old
    · rw [if_pos rfl, redirected.known _ le_rfl, List.nil_append]
  · intro id unknown
    have longer : (a.asked ++ [(Kind.click, session)]).length ≤ id := unknown
    rw [List.length_append, List.length_singleton] at longer
    rw [grows, if_neg (by omega), List.append_nil]
    exact redirected.known id (by omega)

/-- What the answers of `clear` leave: the requests are settled and hold nothing. -/
theorem apply_cleared {waiting rest : List Nat} {source : Nat → Nat}
    (sources : ∀ r ∈ reqs, source r = (paras r).srcSession)
    (booked : Booked Message.answers (· = .ssp) s.toAccount (reqs ++ waiting) source
      (fun _ => false))
    (balanced : Balanced s.uiActive s.held (owed paras reqs ++ rest))
    (redirected : Redirected s.toAccount) :
    ∃ account, (reqs.flatMap (AdParaList.cleared paras)).foldl AdAdx.apply s =
        { s with toAccount := account } ∧ account.held = s.held ∧
      Booked Message.answers (· = .ssp) account waiting source (fun _ => false) ∧
      Balanced account.uiActive account.held rest ∧ Redirected account := by
  induction reqs generalizing s with
  | nil => exact ⟨s.toAccount, rfl, rfl, booked, balanced, redirected⟩
  | cons req reqs ih =>
    have mine := sources req List.mem_cons_self
    have settled := booked.settle rfl
      (show Message.answers (.empty (s.holder req)) = _ from rfl) (source req)
    rw [mine] at settled
    have written : Redirected
        (s.toAccount.write (paras req).srcSession (.empty (s.holder req))) := redirected.write rfl
    have freed := written.free req
    obtain ⟨account, applied, held, result⟩ := ih
      (s := ((s.sessionTimeout req (paras req).srcSession).freePara req).sessionIdle
        (paras req).dstSession)
      (fun r among => sources r (.tail _ among)) (settled.recount _ _) balanced.idle.idle
      ⟨freed.clicks, freed.known⟩
    exact ⟨account, applied, held, result⟩

/-- What the answers of `check` leave: the requests still hold the sessions of their bidders. -/
theorem apply_timeouts {rest : List Nat}
    (balanced : Balanced s.uiActive s.held (owed paras reqs ++ rest)) :
    ∃ account, (reqs.flatMap fun r =>
        [Effect.sessionTimeout r (paras r).srcSession, .freePara r]).foldl AdAdx.apply s =
        { s with toAccount := account } ∧ account.held = s.held ∧
      Balanced account.uiActive account.held
        (reqs.map (fun r => (paras r).dstSession) ++ rest) := by
  induction reqs generalizing s rest with
  | nil => exact ⟨s.toAccount, rfl, rfl, balanced⟩
  | cons req reqs ih =>
    have moved : Balanced (idle s.uiActive (paras req).srcSession) s.held
        (owed paras reqs ++ (paras req).dstSession :: rest) :=
      balanced.idle.perm List.perm_middle.symm
    obtain ⟨account, applied, held, result⟩ := ih
      (s := (s.sessionTimeout req (paras req).srcSession).freePara req) moved
    exact ⟨account, applied, held, result.perm List.perm_middle⟩

/-- The call finds no late request at the front of the list, and the reply, if it can be read,
has a bid and names no request that waits. -/
def Quiet (s : AdAdx) (list : AdParaList) (cache : Option Packet) (now : RtbBase.Time) : Prop :=
  (∀ entry ∈ list.mTime.toList.head?, ¬ (s.paras entry.2).checkLife now) ∧
    ∀ p, cache = some p → p.reply.readable →
      ∃ id, p.reply.impId = some id ∧ list.mTime[toULong id]? = none

theorem takeWhile_eq_nil {α : Type} {p : α → Bool} {xs : List α} :
    xs.takeWhile p = [] ↔ ∀ x ∈ xs.head?, ¬ p x := by
  cases xs with
  | nil => simp
  | cons x xs =>
    by_cases holds : p x <;> simp [holds]

theorem setPrivate_self (at_d : s.sessionPrivate d = some l) :
    s.setPrivate d (some l) = s := by
  rw [AdAdx.setPrivate, ← at_d, Function.update_eq_self]

/-- A quiet call changes nothing. -/
theorem dspResponse_quiet {cache : Option Packet} {now : RtbBase.Time} (ok : s.sessionOk d)
    (at_d : s.sessionPrivate d = some l) (backed : l.Backed)
    (waits : ∀ r, l.Holds r → (s.paras r).bTimeout = false) (quiet : Quiet s l cache now) :
    s.dspResponse d cache now = s := by
  rw [AdAdx.dspResponse, if_pos ok, at_d]
  dsimp only
  rw [AdParaList.check_eq backed waits, takeWhile_eq_nil.mpr quiet.1]
  dsimp only [List.foldl_nil]
  rw [AdAdx.setCheck, setPrivate_self at_d]
  cases cache with
  | none => rfl
  | some p =>
    dsimp only
    rw [AdAdx.dspReply]
    split
    · next readable =>
      obtain ⟨id, named, absent⟩ := quiet.2 p rfl readable
      rw [named]
      dsimp only
      rw [AdParaList.delTime, absent]
    · rfl

/-- What a request that leaves the list without more holds on to. -/
theorem holds_without {reqs : List Nat} {l' : AdParaList} (apart : s.dspSession.Nodup)
    (among : d ∈ s.dspSession) (at_d : s.sessionPrivate d = some l)
    (at_d' : after.sessionPrivate d = some l')
    (same : ∀ e, e ≠ d → after.sessionPrivate e = s.sessionPrivate e)
    (sessions : after.dspSession = s.dspSession)
    (paras : ∀ r, (after.paras r).srcSession = (s.paras r).srcSession ∧
      (after.paras r).dstSession = (s.paras r).dstSession)
    (gone : l.mReq.keys.Perm (reqs ++ l'.mReq.keys)) :
    (holds s).Perm (owed s.paras reqs ++ holds after) := by
  have first := holds_perm among
  rw [keysOf_some at_d] at first
  have parted := owed_perm s.paras gone
  rw [owed_append] at parted
  have last := holds_perm (s := after) (by rw [sessions]; exact among)
  rw [keysOf_some at_d', others_congr apart sessions same, sessions,
    owed_congr fun r _ => paras r, owed_congr fun r _ => paras r] at last
  refine first.trans ((parted.append_right _).trans ?_)
  rw [List.append_assoc]
  exact last.symm.append_left _

/-- What the walk over a list does with the requests it gives up: their sources are idle and
their bidder is still held. -/
theorem check_leaves (apart : s.dspSession.Nodup) (among : d ∈ s.dspSession)
    (balanced : Balanced s.uiActive s.held (holds s)) (at_d : s.sessionPrivate d = some l)
    (backed : l.Backed) {gone rest : List (Nat × Nat)} (entries : gone ++ rest = l.mTime.toList)
    {c : AdParaList.Check}
    (checked : c = gone.foldl AdParaList.Check.turn ⟨l, s.paras, [], 0, []⟩) :
    c.list = gone.foldl (fun l entry => l.without entry.1 entry.2) l ∧ c.list.Backed ∧
      ∃ account, c.effects.foldl AdAdx.apply (s.setCheck d c) =
          { s.setCheck d c with toAccount := account } ∧
        Balanced account.uiActive account.held
          ((gone.map Prod.snd).map (fun r => (s.paras r).dstSession) ++
            holds (s.setCheck d c)) := by
  have start := AdParaList.ahead_toList l
  rw [← entries] at start
  obtain ⟨parted, backed'⟩ := AdParaList.keys_perm_foldl backed start
  have effects : c.effects = (gone.map Prod.snd).flatMap fun r =>
      [Effect.sessionTimeout r (s.paras r).srcSession, .freePara r] := by
    rw [checked, AdParaList.turns_effects, List.flatMap_map]
    rfl
  have list : c.list = gone.foldl (fun l entry => l.without entry.1 entry.2) l := by
    rw [checked]
    exact AdParaList.turns_list gone _
  have sessions : ∀ r, (c.paras r).srcSession = (s.paras r).srcSession ∧
      (c.paras r).dstSession = (s.paras r).dstSession := by
    rw [checked]
    exact AdParaList.turns_sessions gone _
  rw [← list] at parted backed'
  have freed : (holds s).Perm (owed s.paras (gone.map Prod.snd) ++
      holds (s.setCheck d c)) := by
    refine holds_without apart among at_d (Function.update_self _ _ _) ?_ rfl sessions parted
    intro e away
    exact Function.update_of_ne away _ _
  obtain ⟨account, applied, -, left⟩ := apply_timeouts (s := s.setCheck d c)
    (balanced.perm freed)
  rw [← effects] at applied
  exact ⟨list, backed', account, applied, left⟩

/-- A call on a connection that stands leaves the run settled only when it is quiet. -/
theorem quiet_of_settled {cache : Option Packet} {now : RtbBase.Time} (ok : s.sessionOk d)
    (apart : s.dspSession.Nodup) (among : d ∈ s.dspSession)
    (balanced : Balanced s.uiActive s.held (holds s))
    (at_d : s.sessionPrivate d = some l) (backed : l.Backed)
    (waits : ∀ r, l.Holds r → (s.paras r).bTimeout = false)
    (settled : Settled (s.dspResponse d cache now)) : Quiet s l cache now := by
  rw [AdAdx.dspResponse, if_pos ok, at_d] at settled
  dsimp only at settled
  rw [AdParaList.check_eq backed waits] at settled
  dsimp only at settled
  generalize late : (l.mTime.toList.takeWhile fun entry =>
    (s.paras entry.2).checkLife now) = gone at settled
  obtain ⟨rest, entries⟩ : gone <+: l.mTime.toList := late ▸ List.takeWhile_prefix _
  set c := gone.foldl AdParaList.Check.turn ⟨l, s.paras, [], 0, []⟩ with checked
  obtain ⟨list, backed', account, applied, left⟩ :=
    check_leaves apart among balanced at_d backed entries checked
  rw [applied] at settled
  have none_gone : ∀ more, Balanced account.uiActive account.held
      ((gone.map Prod.snd).map (fun r => (s.paras r).dstSession) ++ more) →
      Balanced account.uiActive account.held more → gone = [] := by
    intro more out fit
    have nothing := out.nothing_over fit
    rwa [List.map_eq_nil_iff, List.map_eq_nil_iff] at nothing
  have in_time : gone = [] → ∀ entry ∈ l.mTime.toList.head?,
      ¬ (s.paras entry.2).checkLife now := by
    intro nothing
    rw [nothing] at late
    exact takeWhile_eq_nil.mp late
  cases cache with
  | none => exact ⟨in_time (none_gone _ left settled.balanced), fun p absent => nomatch absent⟩
  | some p =>
    dsimp only at settled
    rw [AdAdx.dspReply] at settled
    by_cases readable : p.reply.readable
    · rw [if_pos readable] at settled
      cases named : p.reply.impId with
      | none =>
        rw [named] at settled
        exact absurd settled.running (by simp)
      | some id =>
        rw [named] at settled
        dsimp only at settled
        cases found : c.list.mTime[toULong id]? with
        | none =>
          rw [AdParaList.delTime, found] at settled
          have nothing := none_gone _ left settled.balanced
          refine ⟨in_time nothing, ?_⟩
          intro q same _
          obtain rfl := Option.some.inj same
          refine ⟨id, named, ?_⟩
          rw [list, nothing] at found
          exact found
        | some req =>
          rw [AdParaList.delTime, found] at settled
          dsimp only at settled
          have fewer : (holds (s.setCheck d c)).Perm (owed c.paras [req] ++
              holds ((s.setCheck d c).setPrivate d (some (c.list.without (toULong id) req)))) :=
            holds_without apart among (Function.update_self _ _ _) (Function.update_self _ _ _)
              (fun e away => Function.update_of_ne away _ _) rfl (fun _ => ⟨rfl, rfl⟩)
              (AdParaList.keys_perm_without (backed'.holds found))
          have excess := left.perm (fewer.append_left _)
          rw [← List.append_assoc] at excess
          have nothing := excess.nothing_over settled.balanced
          simp [owed] at nothing
    · rw [if_neg readable] at settled
      refine ⟨in_time (none_gone _ left settled.balanced), ?_⟩
      intro q same readable'
      obtain rfl := Option.some.inj same
      exact absurd readable' readable

theorem del_perm_erase {b : AdLRBuffer} (among : d ∈ b) : (b.del d).Perm (b.erase d) :=
  ((AdLRBuffer.del_perm among).symm.trans (List.perm_cons_erase among)).cons_inv

/-- The call that finds the connection broken settles the requests of the session. -/
theorem sound_dspResponse_closed {cache : Option Packet} {now : RtbBase.Time} (sound : Sound s)
    (among : d ∈ s.dspSession) (broken : ¬ s.sessionOk d) :
    Sound (s.dspResponse d cache now) := by
  obtain ⟨l, at_d, backed, inList⟩ := sound.listed d among
  have split := pendings_perm among
  rw [keysOf_some at_d] at split
  have waits : ∀ r ∈ l.mReq.keys, (s.paras r).bTimeout = false := fun r listed =>
    (inList r listed).2
  set reqs := l.mReq.keys with keys
  have emptied : l.clear s.paras =
      (AdParaList.empty, reqs.foldl AdParaList.giveUp s.paras,
        reqs.flatMap (AdParaList.cleared s.paras)) := by
    rw [AdParaList.clear, AdParaList.clear_foldl TreeMap.nodup_keys waits, List.nil_append]
  have owing : (holds s).Perm
      (owed s.paras reqs ++ (s.dspSession ++ owed s.paras (others s d))) := by
    have parted := holds_perm among
    rwa [keysOf_some at_d] at parted
  obtain ⟨account, applied, held, booked, balanced, redirected⟩ := apply_cleared
    (s := { s.setPrivate d none with paras := reqs.foldl AdParaList.giveUp s.paras })
    (fun _ _ => rfl) (sound.booked.perm split) (sound.balanced.perm owing) sound.redirected
  rw [AdAdx.dspResponse, if_neg broken, at_d]
  dsimp only
  rw [emptied]
  dsimp only
  rw [applied]
  set final : AdAdx := AdAdx.sessionIdle _ d with finally_
  have sessions : final.dspSession.Perm (s.dspSession.erase d) := del_perm_erase among
  have lists : ∀ e, e ≠ d → keysOf final e = keysOf s e := fun e away =>
    congrArg (fun p : Option AdParaList => p.elim [] fun l => l.mReq.keys)
      (Function.update_of_ne away _ _)
  have left : ∀ e ∈ s.dspSession.erase d, e ≠ d := by
    rintro e among' rfl
    exact sound.apart.not_mem_erase among'
  have pending : (pendings final).Perm (others s d) := by
    refine (sessions.flatMap_right _).trans ?_
    rw [others, List.flatMap_congr fun e among' => lists e (left e among')]
  have objects : ∀ r, final.paras r =
      { s.paras r with bTimeout := r ∈ reqs || (s.paras r).bTimeout } :=
    AdParaList.foldl_giveUp reqs
  have outside : ∀ r ∈ others s d, r ∉ reqs := by
    have apart := split.nodup_iff.mp sound.booked.apart
    intro r elsewhere listed
    exact (List.nodup_append.mp apart).2.2 r listed r elsewhere rfl
  refine ⟨sound.running, ?_, ?_, ⟨redirected.clicks, redirected.known⟩,
    sessions.nodup_iff.mpr (sound.apart.erase d), ?_⟩
  · have out : Balanced account.uiActive account.held (d :: holds final) := by
      refine balanced.perm (((List.perm_cons_erase among).append_right _).trans ?_)
      refine ((sessions.symm.append (owed_perm s.paras pending.symm)).cons d).trans ?_
      have same : owed final.paras (pendings final) = owed s.paras (pendings final) :=
        owed_congr fun r _ => by rw [objects]; exact ⟨rfl, rfl⟩
      rw [holds, same]
    exact out.idle
  · refine ((booked.perm pending.symm).recount _ _).congr ?_ (fun _ _ => rfl)
    intro r _
    rw [objects]
  · intro e among'
    have away := left e (sessions.mem_iff.mp among')
    obtain ⟨l', at_e, backed', inList'⟩ := sound.listed e
      (List.mem_of_mem_erase (sessions.mem_iff.mp among'))
    refine ⟨l', (Function.update_of_ne away _ _).trans at_e, backed', ?_⟩
    intro r listed
    have elsewhere : r ∈ others s d := by
      rw [others, List.mem_flatMap]
      refine ⟨e, sessions.mem_iff.mp among', ?_⟩
      rw [keysOf_some at_e]
      exact listed
    rw [objects]
    simpa [outside r elsewhere] using inList' r listed

/-- A step that leaves the lists and the requests in them as they are. -/
theorem sound_beside (sound : Sound s) (running : after.crashed = false)
    (lists : after.sessionPrivate = s.sessionPrivate) (sessions : after.dspSession = s.dspSession)
    (objects : ∀ r ∈ pendings s, after.paras r = s.paras r)
    (balanced : Balanced after.uiActive after.held (holds s))
    (booked : Booked Message.answers (· = .ssp) after.toAccount (pendings s)
      (fun r => (s.paras r).srcSession) (fun _ => false))
    (redirected : Redirected after.toAccount) : Sound after := by
  have keys : ∀ e, keysOf after e = keysOf s e := by
    intro e
    rw [keysOf, keysOf, lists]
  have pending : pendings after = pendings s := by
    rw [pendings, pendings, sessions]
    exact List.flatMap_congr fun e _ => keys e
  refine ⟨running, ?_, ?_, redirected, by rw [sessions]; exact sound.apart, ?_⟩
  · rw [holds, pending, sessions,
      owed_congr fun r waits => by rw [objects r waits]; exact ⟨rfl, rfl⟩]
    exact balanced
  · rw [pending]
    refine booked.congr ?_ (fun _ _ => rfl)
    intro r waits
    rw [objects r waits]
  · intro e among
    rw [sessions] at among
    obtain ⟨l, at_e, backed, inList⟩ := sound.listed e among
    refine ⟨l, by rw [lists]; exact at_e, backed, ?_⟩
    intro r listed
    rw [objects r]
    · exact inList r listed
    · refine List.mem_flatMap.mpr ⟨e, among, ?_⟩
      rw [keysOf_some at_e]
      exact listed

theorem allocPara_some {now : RtbBase.Time} {fresh req : Nat}
    (given : s.allocPara now fresh = some (req, after)) :
    ∃ account, s.toAccount.allocPara fresh = some (req, account) ∧
      after = { s with
        toAccount := account
        paras := Function.update s.paras req ⟨now, 0, 0, false⟩ } := by
  obtain ⟨⟨r, account⟩, found, equal⟩ := Option.map_eq_some_iff.mp given
  obtain ⟨rfl, rfl⟩ := Prod.mk.inj equal
  exact ⟨account, found, rfl⟩

variable {account : Account Kind Message} {fresh req : Nat}

/-- Giving out an object changes no count and no line of the log. -/
theorem Sound.alloc (sound : Sound s) (given : s.toAccount.allocPara fresh = some (req, account)) :
    account.uiActive = s.uiActive ∧ account.held = s.held ∧ account.asked = s.asked ∧
      Redirected account := by
  obtain ⟨-, -, rest, rfl⟩ := sound.booked.pooled.alloc given
  exact ⟨rfl, rfl, rfl, sound.redirected.clicks, sound.redirected.known⟩

/-- A request that is refused after its source was held `uiActive`. -/
theorem sound_refused (sound : Sound s)
    (given : s.toAccount.allocPara fresh = some (req, account)) (base : AdAdx)
    (uiActive : Nat → Nat)
    (ledger : base.toAccount = { account.arrive req .ssp session with uiActive := uiActive })
    (running : base.crashed = false) (lists : base.sessionPrivate = s.sessionPrivate)
    (sessions : base.dspSession = s.dspSession)
    (objects : ∀ r, r ≠ req → base.paras r = s.paras r)
    (balanced : Balanced (idle uiActive session) s.held (holds s)) :
    Sound (base.refuse req session) := by
  obtain ⟨counts, held, asked, redirected⟩ := sound.alloc given
  have booked := sound.booked.refuse given rfl session
    (show Message.answers (.empty s.asked.length) = some s.toAccount.asked.length from rfl) uiActive
  have number : base.holder req = s.asked.length := by
    rw [ledger, ← asked]
    exact Function.update_self _ _ _
  have arrived : Redirected base.toAccount := by
    rw [ledger]
    exact ⟨(redirected.arrive_ssp req).clicks, (redirected.arrive_ssp req).known⟩
  have written : Redirected (base.toAccount.write session (.empty (base.holder req))) :=
    arrived.write rfl
  have freed := written.free req
  refine sound_beside sound running lists sessions
    (fun r waits => objects r (sound.booked.away given waits)) ?_ ?_ ⟨freed.clicks, freed.known⟩
  · have counted : base.uiActive = uiActive := by rw [ledger]
    have based : base.held = s.held := by rw [ledger]; exact held
    change Balanced (idle base.uiActive session) base.held (holds s)
    rw [counted, based]
    exact balanced
  · change Booked Message.answers _ (((base.toAccount.write session
      (.empty (base.holder req))).sessionIdle session).freePara req) _ _ _
    rw [number, ledger]
    exact booked

/-- The lists and the objects after a request was sent to a bidder. -/
structure Sent (s final : AdAdx) (d session req : Nat) (l : AdParaList) (now : RtbBase.Time) :
    Prop where
  sessions : final.dspSession = s.dspSession
  own : final.sessionPrivate d = some (l.push final.paras req)
  lists : ∀ e, e ≠ d → final.sessionPrivate e = s.sessionPrivate e
  object : final.paras req = ⟨now, session, d, false⟩
  objects : ∀ r, r ≠ req → final.paras r = s.paras r

section Sent

variable {final : AdAdx} {req : Nat} {now : RtbBase.Time}

theorem Sent.pending (sent : Sent s final d session req l now) (apart : s.dspSession.Nodup)
    (among : d ∈ s.dspSession) (at_d : s.sessionPrivate d = some l) (unlisted : ¬ l.Holds req) :
    (pendings final).Perm (req :: pendings s) := by
  have among' : d ∈ final.dspSession := by rw [sent.sessions]; exact among
  refine (pendings_perm among').trans ?_
  rw [keysOf_some sent.own, others_congr apart sent.sessions sent.lists]
  refine ((AdParaList.keys_perm_push unlisted).append_right _).trans ?_
  have split := pendings_perm among
  rw [keysOf_some at_d] at split
  exact split.symm.cons req

/-- The exchange holds the bidder and the session of the request besides. -/
theorem Sent.owing (sent : Sent s final d session req l now) (away : ∀ r ∈ pendings s, r ≠ req)
    (pending : (pendings final).Perm (req :: pendings s)) :
    (holds final).Perm (d :: session :: holds s) := by
  have owed_final := owed_perm final.paras pending
  have same : owed final.paras (pendings s) = owed s.paras (pendings s) :=
    owed_congr fun r waits => by rw [sent.objects r (away r waits)]; exact ⟨rfl, rfl⟩
  have first : owed final.paras (req :: pendings s) =
      session :: d :: owed s.paras (pendings s) := by
    rw [owed, List.flatMap_cons, sent.object, ← owed, same]
    rfl
  rw [first] at owed_final
  rw [holds, holds, sent.sessions]
  refine (owed_final.append_left _).trans ?_
  refine List.perm_middle.trans ((List.perm_middle.cons _).trans ?_)
  exact List.Perm.swap _ _ _

theorem Sent.listed (sent : Sent s final d session req l now) (sound : Sound s)
    (at_d : s.sessionPrivate d = some l) (unlisted : ¬ l.Holds req)
    (away : ∀ r ∈ pendings s, r ≠ req) :
    ∀ e ∈ final.dspSession, ∃ l, final.sessionPrivate e = some l ∧ l.Backed ∧
      ∀ r ∈ l.mReq.keys, (final.paras r).dstSession = e ∧ (final.paras r).bTimeout = false := by
  intro e among
  rw [sent.sessions] at among
  obtain ⟨l', at_e, backed, inList⟩ := sound.listed e among
  by_cases same : e = d
  · subst same
    obtain rfl : l = l' := Option.some.inj (at_d.symm.trans at_e)
    refine ⟨_, sent.own, backed.push unlisted, ?_⟩
    intro r listed
    rw [AdParaList.mem_keys, AdParaList.holds_push] at listed
    by_cases mine : r = req
    · rw [mine, sent.object]
      exact ⟨rfl, rfl⟩
    · rw [sent.objects r mine]
      exact inList r (AdParaList.mem_keys.mpr (listed.resolve_left mine))
  · refine ⟨l', (sent.lists e same).trans at_e, backed, ?_⟩
    intro r listed
    rw [sent.objects r]
    · exact inList r listed
    · refine away r (List.mem_flatMap.mpr ⟨e, among, ?_⟩)
      rw [keysOf_some at_e]
      exact listed

end Sent

/-- A request that is sent to a bidder. -/
theorem sound_sent (session : Nat) (now : RtbBase.Time) (sound : Sound s)
    (given : s.toAccount.allocPara fresh = some (req, account)) (among : d ∈ s.dspSession)
    (at_d : s.sessionPrivate d = some l) {sent : AdAdx}
    (isSent : sent = { s with
      toAccount := ((account.arrive req .ssp session).sessionActive session).sessionActive d
      paras := Function.update s.paras req ⟨now, session, d, false⟩ }) :
    Sound ((sent.setPrivate d (some (l.push sent.paras req))).write d
      (.request (sent.holder req))) := by
  obtain ⟨counts, held, asked, redirected⟩ := sound.alloc given
  have away : ∀ r ∈ pendings s, r ≠ req := fun r waits => sound.booked.away given waits
  have unlisted : ¬ l.Holds req := by
    intro holds
    refine away req (List.mem_flatMap.mpr ⟨d, among, ?_⟩) rfl
    rw [keysOf_some at_d]
    exact AdParaList.mem_keys.mpr holds
  set final : AdAdx := (sent.setPrivate d (some (l.push sent.paras req))).write d
    (.request (sent.holder req)) with finally_
  have placed : Sent s final d session req l now := by
    rw [finally_, isSent]
    constructor
    · rfl
    · exact Function.update_self _ _ _
    · exact fun e other => Function.update_of_ne other _ _
    · exact Function.update_self _ _ _
    · exact fun r other => Function.update_of_ne other _ _
  have pending := placed.pending sound.apart among at_d unlisted
  refine ⟨?_, ?_, ?_, ?_, by rw [placed.sessions]; exact sound.apart,
    placed.listed sound at_d unlisted away⟩
  · rw [finally_, isSent]
    exact sound.running
  · refine Balanced.perm ?_ (placed.owing away pending).symm
    have twice := sound.balanced.active (s := session) |>.active (s := d)
    rw [← counts, ← held] at twice
    rw [finally_, isSent]
    exact twice
  · have ledger : final.toAccount = Account.write
        { account.arrive req .ssp session with
          uiActive := active (active account.uiActive session) d
          held := account.held } d (.request (sent.holder req)) := by
      rw [finally_, isSent]
      rfl
    rw [ledger]
    have arrived := (sound.booked.arrive given rfl session).recount
      (active (active account.uiActive session) d) account.held
    refine ((arrived.write_other rfl).perm pending.symm).congr ?_ ?_
    · intro r waits
      rcases List.mem_cons.mp (pending.mem_iff.mp waits) with rfl | old
      · rw [Function.update_self, placed.object]
      · rw [Function.update_of_ne (away r old), placed.objects r (away r old)]
    · intro r _
      by_cases same : r = req
      · rw [same, Function.update_self]
      · rw [Function.update_of_ne same]
  · have arrived : Redirected (account.arrive req .ssp session) := redirected.arrive_ssp req
    have written : Redirected ((account.arrive req .ssp session).write d
        (.request (sent.holder req))) := arrived.write rfl
    rw [finally_, isSent]
    rw [isSent] at written
    exact ⟨written.clicks, written.known⟩

/-- What keeps a run settled. A call for the session of a bidder finds the connection broken
or is quiet. A packet of another session is a click with a landing page, a request that
parses, or comes from a session whose count is zero. -/
def Harmless : Input → AdAdx → Prop
  | .run session cache now _ _, s =>
    if s.dspSession.check session then
      s.sessionOk session → ∀ list, s.sessionPrivate session = some list → Quiet s list cache now
    else
      ∀ p, cache = some p →
        if p.request.parse then ∀ page, p.request.landingPage = some page → page ≠ []
        else s.uiActive session = 0
  | _, _ => True

theorem sound_click (sound : Sound s) {now : RtbBase.Time}
    (given : s.toAccount.allocPara fresh = some (req, account)) {page : List UInt8}
    (somewhere : page ≠ []) :
    Sound (({ s with
      toAccount := account
      paras := Function.update s.paras req ⟨now, 0, 0, false⟩ }.arrive req .click
        session).redirect req session page) := by
  obtain ⟨counts, held, -, redirected⟩ := sound.alloc given
  rw [AdAdx.redirect, if_neg somewhere]
  refine sound_beside sound sound.running rfl rfl
    (fun r waits => Function.update_of_ne (sound.booked.away given waits) _ _) ?_ ?_
    (redirected.arrive_click req)
  · change Balanced account.uiActive account.held (holds s)
    rw [counts, held]
    exact sound.balanced
  · exact (sound.booked.arrive_uncounted given session (by decide)).write_other rfl

theorem sound_run {cache : Option Packet} {now : RtbBase.Time} {loop : Nat} (sound : Sound s)
    (away : session ∉ s.dspSession)
    (harmless : Harmless (.run session cache now fresh loop) s)
    (stepped : s.run session cache now fresh loop = some after) : Sound after := by
  have other : ¬ s.dspSession.check session := fun known => away (AdLRBuffer.check_iff.mp known)
  rw [AdAdx.run.eq_def, if_neg other] at stepped
  rw [Harmless, if_neg other] at harmless
  cases cache with
  | none =>
    obtain rfl := Option.some.inj stepped
    exact sound
  | some p =>
    obtain ⟨⟨req, s₁⟩, alloc, equal⟩ := Option.map_eq_some_iff.mp stepped
    obtain ⟨account, given, rfl⟩ := allocPara_some alloc
    obtain ⟨counts, held, -, -⟩ := sound.alloc given
    have mine := harmless p rfl
    have objects : ∀ r, r ≠ req →
        Function.update s.paras req (⟨now, 0, 0, false⟩ : AdRtbPara) r = s.paras r :=
      fun r away => Function.update_of_ne away _ _
    have held_once : Balanced (idle (active s.uiActive session) session) s.held (holds s) :=
      sound.balanced.active.idle
    subst equal
    dsimp only
    by_cases parses : p.request.parse
    · rw [if_pos parses] at mine ⊢
      cases landing : p.request.landingPage with
      | some page => exact sound_click sound given (mine page landing)
      | none =>
        dsimp only
        rw [AdAdx.sendDsp]
        dsimp only
        split
        · split
          · exact sound_refused sound given _ (active s.uiActive session) (by rw [← counts]; rfl)
              sound.running rfl rfl objects held_once
          · next d found =>
            have among : d ∈ s.dspSession := AdLRBuffer.find_mem found
            split
            · exact sound_refused sound given _ (active s.uiActive session)
                (by rw [← counts]; rfl) sound.running rfl rfl objects held_once
            · next l at_d =>
              split
              · refine sound_sent session now sound given among at_d ?_
                simp only [AdAdx.sessionActive, AdAdx.arrive, Function.update_self,
                  Function.update_idem]
              · exact sound_refused sound given _ (active s.uiActive session)
                  (by rw [← counts]; rfl) sound.running rfl rfl objects held_once
        · exact sound_refused sound given _ (active s.uiActive session) (by rw [← counts]; rfl)
            sound.running rfl rfl objects held_once
    · rw [if_neg parses] at mine ⊢
      exact sound_refused sound given _ s.uiActive (by rw [← counts]; rfl) sound.running rfl rfl
        objects (sound.balanced.idle_iff.mpr mine)

theorem sound_connect (sound : Sound s) (new : d ∉ s.dspSession) : Sound (s.connect d) := by
  have sessions : (s.connect d).dspSession = s.dspSession ++ [d] := by
    have unknown : ¬ s.dspSession.check d := fun known => new (AdLRBuffer.check_iff.mp known)
    rw [AdAdx.connect, AdLRBuffer.push]
    exact if_neg unknown
  have at_d : (s.connect d).sessionPrivate d = some .empty := Function.update_self _ _ _
  have lists : ∀ e ∈ s.dspSession, (s.connect d).sessionPrivate e = s.sessionPrivate e := by
    intro e among
    refine Function.update_of_ne ?_ _ _
    rintro rfl
    exact new among
  have pending : pendings (s.connect d) = pendings s := by
    rw [pendings, sessions, List.flatMap_append, List.flatMap_singleton, keysOf_some at_d,
      pendings]
    have vacant : AdParaList.empty.mReq.keys = [] := rfl
    rw [vacant, List.append_nil]
    refine List.flatMap_congr fun e among => ?_
    rw [keysOf, keysOf, lists e among]
  refine ⟨sound.running, ?_, ?_, ⟨sound.redirected.clicks, sound.redirected.known⟩, ?_, ?_⟩
  · rw [holds, pending, sessions]
    refine Balanced.perm sound.balanced.active ?_
    rw [holds, List.append_assoc]
    exact List.perm_middle.symm
  · rw [pending]
    exact sound.booked.recount _ _
  · rw [sessions, List.nodup_append]
    refine ⟨sound.apart, List.nodup_singleton d, ?_⟩
    intro e among e' last same
    rw [List.mem_singleton.mp last] at same
    exact new (same ▸ among)
  · intro e among
    rw [sessions, List.mem_append, List.mem_singleton] at among
    rcases among with old | rfl
    · obtain ⟨l, at_e, backed, inList⟩ := sound.listed e old
      exact ⟨l, (lists e old).trans at_e, backed, inList⟩
    · refine ⟨_, at_d, AdParaList.backed_empty, ?_⟩
      intro r listed
      exact absurd (AdParaList.mem_keys.mp listed) AdParaList.not_holds_empty

/-- A harmless step keeps the exchange sound. -/
theorem sound_step {input : Input} (sound : Sound s) (harmless : Harmless input s)
    (stepped : step input s = some after) : Sound after := by
  have alive : ¬ s.crashed := by simp [sound.running]
  rw [Exchange.step.eq_def, if_neg alive] at stepped
  cases input with
  | run session cache now fresh loop =>
    by_cases known : session ∈ s.dspSession
    · have checked := AdLRBuffer.check_iff.mpr known
      rw [Harmless, if_pos checked] at harmless
      dsimp only at stepped
      rw [AdAdx.run.eq_def, if_pos checked] at stepped
      obtain rfl := Option.some.inj stepped
      by_cases ok : s.sessionOk session
      · obtain ⟨l, at_d, backed, inList⟩ := sound.listed session known
        rw [dspResponse_quiet ok at_d backed
          (fun r holds => (inList r (AdParaList.mem_keys.mpr holds)).2) (harmless ok l at_d)]
        exact sound
      · exact sound_dspResponse_closed sound known ok
    · exact sound_run sound known harmless stepped
  | connect session =>
    dsimp only at stepped
    split at stepped
    · exact absurd stepped (by simp)
    · next new =>
      obtain rfl := Option.some.inj stepped
      exact sound_connect sound fun known => new (AdLRBuffer.check_iff.mpr known)
  | close session =>
    obtain rfl := Option.some.inj stepped
    exact ⟨sound.running, sound.balanced, sound.booked, sound.redirected, sound.apart, sound.listed⟩
  | active session =>
    obtain rfl := Option.some.inj stepped
    exact ⟨sound.running, sound.balanced.active_base, sound.booked.recount _ _,
      ⟨sound.redirected.clicks, sound.redirected.known⟩, sound.apart, sound.listed⟩
  | idle session =>
    dsimp only at stepped
    split at stepped
    · next held =>
      obtain rfl := Option.some.inj stepped
      exact ⟨sound.running, sound.balanced.idle_base held, sound.booked.recount _ _,
        ⟨sound.redirected.clicks, sound.redirected.known⟩, sound.apart, sound.listed⟩
    · exact absurd stepped (by simp)

/-- A step after which the exchange is settled was harmless. -/
theorem harmless_of_settled {input : Input} (sound : Sound s)
    (stepped : step input s = some after) (settled : Settled after) : Harmless input s := by
  have alive : ¬ s.crashed := by simp [sound.running]
  rw [Exchange.step.eq_def, if_neg alive] at stepped
  cases input with
  | run session cache now fresh loop =>
    dsimp only at stepped
    by_cases known : session ∈ s.dspSession
    · have checked := AdLRBuffer.check_iff.mpr known
      rw [AdAdx.run.eq_def, if_pos checked] at stepped
      rw [Harmless, if_pos checked]
      obtain rfl := Option.some.inj stepped
      intro ok list at_d
      obtain ⟨l, at_d', backed, inList⟩ := sound.listed session known
      obtain rfl : list = l := Option.some.inj (at_d.symm.trans at_d')
      exact quiet_of_settled ok sound.apart known sound.balanced at_d backed
        (fun r holds => (inList r (AdParaList.mem_keys.mpr holds)).2) settled
    · have other : ¬ s.dspSession.check session := fun checked =>
        known (AdLRBuffer.check_iff.mp checked)
      rw [AdAdx.run.eq_def, if_neg other] at stepped
      rw [Harmless, if_neg other]
      rintro p rfl
      obtain ⟨⟨req, s₁⟩, alloc, equal⟩ := Option.map_eq_some_iff.mp stepped
      obtain ⟨account, given, rfl⟩ := allocPara_some alloc
      obtain ⟨counts, held, asked, redirected⟩ := sound.alloc given
      subst equal
      dsimp only at settled
      by_cases parses : p.request.parse
      · rw [if_pos parses] at settled ⊢
        rintro page landing rfl
        rw [landing] at settled
        have arrived : (account.arrive req .click session).asked[s.asked.length]? =
            some (.click, session) := by
          rw [Account.arrive, asked]
          exact List.getElem?_concat_length
        have written := settled.redirected s.asked.length session arrived
        have unwritten := redirected.known s.asked.length
          (congrArg List.length asked).le
        exact absurd (unwritten.symm.trans written) (by simp)
      · rw [if_neg parses] at settled ⊢
        have pending : ∀ r ∈ pendings s, Function.update s.paras req
            (⟨now, 0, 0, false⟩ : AdRtbPara) r = s.paras r :=
          fun r waits => Function.update_of_ne (sound.booked.away given waits) _ _
        have same : owed (Function.update s.paras req ⟨now, 0, 0, false⟩) (pendings s) =
            owed s.paras (pendings s) :=
          owed_congr fun r waits => by rw [pending r waits]; exact ⟨rfl, rfl⟩
        have balanced : Balanced (idle account.uiActive session) account.held
            (s.dspSession ++ owed (Function.update s.paras req ⟨now, 0, 0, false⟩) (pendings s)) :=
          settled.balanced
        rw [same, counts, held] at balanced
        exact sound.balanced.idle_iff.mp balanced
  | connect session => trivial
  | close session => trivial
  | active session => trivial
  | idle session => trivial

/-- The exchange before its first bidder connects. -/
def start (held : Nat → Nat) : AdAdx where
  uiActive := held
  ctFreePara := []
  used := []
  holder := fun _ => 0
  asked := []
  held := held
  log := []
  sessionOk := fun _ => true
  sessionPrivate := fun _ => none
  dspSession := []
  paras := fun _ => ⟨⟨0, 0⟩, 0, 0, false⟩
  crashed := false

theorem sound_start (held : Nat → Nat) : Sound (start held) := by
  refine ⟨rfl, fun _ => rfl, ?_, ⟨?_, fun _ _ => rfl⟩, List.nodup_nil, ?_⟩
  · exact booked_start rfl rfl rfl rfl
  · intro id src found
    simp [start] at found
  · intro d among
    exact absurd among (by simp [start])

/-- The exchange stays settled through a run exactly when every step is harmless. -/
theorem settled_iff_harmless (held : Nat → Nat) (inputs : List Input) :
    (∀ s ∈ states step (start held) inputs, Settled s) ↔
      Throughout step Harmless (start held) inputs :=
  states_iff_invariant (fun _ _ _ => harmless_of_settled) (fun _ _ _ => sound_step)
    (fun _ => Sound.settled) (sound_start held) inputs

/-- A request of session 7 that goes to the bidder of session 1 and gets a bid: the request
has left the list, and its object is not released. -/
theorem bid_not_settled :
    ¬ ∀ (held : Nat → Nat) (inputs : List Input),
      ∀ s ∈ states step (start held) inputs, Settled s := by
  intro all
  let packet : Packet := ⟨⟨true, none, fun _ => none, true⟩, ⟨true, true, true, true, some 0⟩⟩
  have settled := all (fun _ => 0)
    [.connect 1, .run 7 (some packet) ⟨0, 0⟩ 0 0, .run 1 (some packet) ⟨0, 0⟩ 0 0] _
    (.tail _ (.tail _ (.tail _ (.head _))))
  have released := (settled.answered 0 7 rfl (by decide)).2
  exact absurd released (by decide)

end ExchangeBalance
