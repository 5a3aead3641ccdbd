import Mathlib.Tactic
import RtbAdapter.RequestLedger
import RtbAdapter.StepRuns
import RtbAdapter.AdapterLists

/-!
# One answer for every request of the adapter

The list of an engine never holds more than one request. A request holds its
source until it is given up or answered, and the session of its engine until it
leaves the list. A run answers and releases every accepted request once exactly
when no reply of the net drops a request and every empty answer can be made.
-/

namespace AdapterReplies

open RtbBase NetProtocol SessionBuffer HeldCounts RequestAccounts Account RequestLedger Adapter
  AdapterLists StepRuns

/-- The sessions that a request holds: its source only until it is given up. -/
def owedOne (para : AdAdapterPara) : List Nat :=
  if para.bTimeout then [para.dstSession] else [para.srcSession, para.dstSession]

def owed (paras : Paras) (reqs : List Nat) : List Nat := reqs.flatMap fun r => owedOne (paras r)

/-- What the adapter holds of the sessions: each engine, and the sessions of the requests. -/
def holds (s : AdAdapter) : List Nat := s.bidders ++ owed s.paras (pendings s)

/-- A request that was given up has its empty answer, when there is one. -/
def answered (paras : Paras) (r : Nat) : Bool := (paras r).bTimeout && (paras r).emptyToHttp

structure Settled (s : AdAdapter) : Prop where
  running : s.crashed = false
  balanced : Balanced s.uiActive s.held (holds s)
  inUse : ∀ r ∈ pendings s, r ∈ s.used
  waiting : ∀ r ∈ pendings s, (writes Message.answers s.log (s.holder r)).length ≤ 1 ∧
    frees s.log (s.holder r) = 0
  answered : ∀ id src, s.asked[id]? = some (.accepted, src) →
    (∀ r ∈ pendings s, s.holder r ≠ id) →
    writes Message.answers s.log id = [src] ∧ frees s.log id = 1

abbrev Books (a : Account Kind Message) (waiting : List Nat) (paras : Paras) : Prop :=
  Booked Message.answers (· = .accepted) a waiting (fun r => (paras r).srcSession) (answered paras)

structure Sound (s : AdAdapter) : Prop where
  running : s.crashed = false
  balanced : Balanced s.uiActive s.held (holds s)
  booked : Books s.toAccount (pendings s) s.paras
  apart : s.bidders.Nodup
  listed : ∀ d ∈ s.bidders, ∃ list, s.sessionPrivate d = some list ∧ list.length ≤ 1 ∧
    ∀ r ∈ list, (s.paras r).dstSession = d

variable {s after : AdAdapter} {d session req : Nat} {now : Time} {paras paras' : Paras}
  {reqs more : List Nat}

theorem Sound.settled (sound : Sound s) : Settled s where
  running := sound.running
  balanced := sound.balanced
  inUse := sound.booked.inUse
  waiting r waits := by
    obtain ⟨written, unfreed⟩ := sound.booked.opened r waits
    refine ⟨?_, unfreed⟩
    rw [written]
    split <;> simp
  answered id src found outside := sound.booked.closed id .accepted src found rfl outside

theorem owed_append : owed paras (reqs ++ more) = owed paras reqs ++ owed paras more :=
  List.flatMap_append

theorem owed_cons : owed paras (req :: reqs) = owedOne (paras req) ++ owed paras reqs :=
  List.flatMap_cons

variable (paras) in
theorem owed_perm (same : reqs.Perm more) : (owed paras reqs).Perm (owed paras more) :=
  same.flatMap_right _

theorem owed_congr (same : ∀ r ∈ reqs, paras' r = paras r) : owed paras' reqs = owed paras reqs :=
  List.flatMap_congr fun r among => by rw [same r among]

theorem Booked_congr {a : Account Kind Message} (booked : Books a reqs paras)
    (same : ∀ r ∈ reqs, paras' r = paras r) : Books a reqs paras' := by
  refine booked.congr ?_ ?_
  · intro r among
    rw [same r among]
  · intro r among
    rw [answered, answered, same r among]

theorem holds_perm (among : d ∈ s.bidders) :
    (holds s).Perm (owed s.paras (listOf s d) ++ (s.bidders ++ owed s.paras (others s d))) := by
  have split := owed_perm s.paras (flatMap_split (f := listOf s) among)
  rw [owed_append] at split
  refine (split.append_left _).trans ?_
  rw [← List.append_assoc, ← List.append_assoc]
  exact List.perm_append_comm.append_right _

/-- What becomes of a request when a reply has come: it was given up and answered, a bid is
made, or an empty answer. -/
def Ends (para : AdAdapterPara) (toHttp : Bool) : Prop :=
  para.emptyToHttp ∨ toHttp ∧ ¬ para.bTimeout

theorem finish_books {waiting rest : List Nat} (toHttp : Bool) (about : Nat) (remote : Bool)
    (booked : Books s.toAccount (req :: waiting) s.paras)
    (balanced : Balanced s.uiActive s.held (owedOne (s.paras req) ++ rest))
    (ends : Ends (s.paras req) toHttp) :
    ∃ account, s.finish (s.paras req).dstSession req toHttp about remote =
        { s with toAccount := account } ∧
      Books account waiting s.paras ∧ Balanced account.uiActive account.held rest := by
  rw [AdAdapter.finish]
  have idled := booked.recount (idle s.uiActive (s.paras req).dstSession) s.held
  by_cases given : (s.paras req).bTimeout
  · rw [if_pos given]
    rw [owedOne, if_pos given] at balanced
    have empty : (s.paras req).emptyToHttp := by
      rcases ends with empty | ⟨-, waits⟩
      · exact empty
      · exact absurd given waits
    exact ⟨_, rfl, idled.free (by simp [answered, given, empty]), balanced.idle⟩
  · rw [if_neg given]
    rw [owedOne, if_neg given] at balanced
    have unanswered : answered s.paras req = false := by simp [answered, given]
    have twice := (balanced.perm (List.Perm.swap _ _ _)).idle.idle
    by_cases bids : toHttp
    · rw [if_pos bids]
      exact ⟨_, rfl, idled.settle unanswered rfl _, twice⟩
    · rw [if_neg bids, AdAdapter.sessionTimeout]
      have empty : (s.paras req).emptyToHttp := by
        rcases ends with empty | ⟨made, -⟩
        · exact empty
        · exact absurd made bids
      have makes : (s.sessionIdle (s.paras req).dstSession).paras req = s.paras req := rfl
      rw [makes, if_pos empty]
      exact ⟨_, rfl, idled.settle unanswered rfl _, twice⟩

/-- A request that ends without an answer leaves only its release in the log. -/
theorem finish_unanswered {toHttp : Bool} (remote : Bool) (session about : Nat)
    (cut : ¬ Ends (s.paras req) toHttp) :
    ∃ account, s.finish session req toHttp about remote = { s with toAccount := account } ∧
      account.log = s.log ++ [.free (s.holder req)] ∧ account.holder = s.holder ∧
      account.asked = s.asked := by
  rw [Ends, not_or, not_and_or, not_not] at cut
  rw [AdAdapter.finish]
  by_cases given : (s.paras req).bTimeout
  · rw [if_pos given]
    exact ⟨_, rfl, rfl, rfl, rfl⟩
  · have makes : (s.sessionIdle session).paras req = s.paras req := rfl
    rw [if_neg given, if_neg (cut.2.resolve_right given), AdAdapter.sessionTimeout, makes,
      if_neg cut.1]
    exact ⟨_, rfl, rfl, rfl, rfl⟩

/-- The reply has come too late, or the request was given up before. -/
def Late (para : AdAdapterPara) (now : Time) : Prop :=
  para.bTimeout ∨ adResponseMaxTime < para.time.toNow now

/-- A request that is given up is answered, or stays without an answer; its source is idle. -/
theorem giveUp_books (first : Books s.toAccount (req :: reqs) s.paras)
    (unflagged : (s.paras req).bTimeout = false) :
    ∃ account : Account Kind Message,
      s.giveUp req = { s with
        toAccount := account
        paras := Function.update s.paras req { s.paras req with bTimeout := true } } ∧
      account.held = s.held ∧ account.uiActive = idle s.uiActive (s.paras req).srcSession ∧
      Books account (req :: reqs)
        (Function.update s.paras req { s.paras req with bTimeout := true }) := by
  set flagged : AdAdapterPara := { s.paras req with bTimeout := true } with given
  have elsewhere : ∀ r, r ≠ req → Function.update s.paras req flagged r = s.paras r :=
    fun r other => Function.update_of_ne other _ _
  have object : Function.update s.paras req flagged req = flagged := Function.update_self _ _ _
  rw [AdAdapter.giveUp, AdAdapter.sessionTimeout]
  have makes : ((s.setPara req flagged).paras req).emptyToHttp = (s.paras req).emptyToHttp := by
    rw [show (s.setPara req flagged).paras req = flagged from object]
  rw [makes]
  by_cases empty : (s.paras req).emptyToHttp
  · rw [if_pos empty]
    refine ⟨_, rfl, rfl, rfl, ?_⟩
    have settled := (first.answer (show answered s.paras req = false by
      simp [answered, unflagged])
        (show Message.answers (.empty (s.holder req)) = _ from rfl)).recount
      (idle s.uiActive (s.paras req).srcSession) s.held
    refine settled.congr ?_ ?_
    · intro r _
      by_cases same : r = req
      · rw [same, object]
      · rw [elsewhere r same]
    · intro r _
      by_cases same : r = req
      · rw [same, Function.update_self, answered, object, given]
        simp [empty]
      · rw [Function.update_of_ne same, answered, answered, elsewhere r same]
  · rw [if_neg empty]
    refine ⟨_, rfl, rfl, rfl, ?_⟩
    refine (first.recount (idle s.uiActive (s.paras req).srcSession) s.held).congr ?_ ?_
    · intro r _
      by_cases same : r = req
      · rw [same, object]
      · rw [elsewhere r same]
    · intro r _
      by_cases same : r = req
      · rw [same, answered, answered, object, given]
        simp [empty]
      · rw [answered, answered, elsewhere r same]

/-- A request is given up. -/
theorem sound_giveUp (sound : Sound s) (waits : req ∈ pendings s)
    (unflagged : (s.paras req).bTimeout = false) : Sound (s.giveUp req) := by
  set flagged : AdAdapterPara := { s.paras req with bTimeout := true } with given
  have front := List.perm_cons_erase waits
  have away : ∀ r ∈ (pendings s).erase req, r ≠ req := by
    rintro r among rfl
    exact sound.booked.apart.not_mem_erase among
  have elsewhere : ∀ r, r ≠ req → Function.update s.paras req flagged r = s.paras r :=
    fun r other => Function.update_of_ne other _ _
  have object : Function.update s.paras req flagged req = flagged := Function.update_self _ _ _
  obtain ⟨account, equal, held, uiActive, booked⟩ :=
    giveUp_books (sound.booked.perm front) unflagged
  rw [equal]
  refine ⟨sound.running, ?_, booked.perm front.symm, sound.apart, ?_⟩
  · rw [holds]
    change Balanced account.uiActive account.held
      (s.bidders ++ owed (Function.update s.paras req flagged) (pendings s))
    rw [uiActive, held]
    have before : (holds s).Perm ((s.paras req).srcSession :: (s.paras req).dstSession ::
        (s.bidders ++ owed s.paras ((pendings s).erase req))) := by
      have parted := owed_perm s.paras front
      rw [owed_cons, owedOne, if_neg (by simp [unflagged])] at parted
      exact (parted.append_left _).trans (List.perm_middle.trans (List.perm_middle.cons _))
    have later : (s.bidders ++ owed (Function.update s.paras req flagged) (pendings s)).Perm
        ((s.paras req).dstSession :: (s.bidders ++ owed s.paras ((pendings s).erase req))) := by
      have parted := owed_perm (Function.update s.paras req flagged) front
      rw [owed_cons, owedOne, object, if_pos rfl,
        owed_congr fun r among => elsewhere r (away r among)] at parted
      exact (parted.append_left _).trans List.perm_middle
    exact (sound.balanced.perm before).idle.perm later.symm
  · intro e among
    obtain ⟨list, at_e, short, theirs⟩ := sound.listed e among
    refine ⟨list, at_e, short, ?_⟩
    intro r listed
    by_cases same : r = req
    · rw [same] at listed ⊢
      exact (congrArg AdAdapterPara.dstSession object).trans (theirs req listed)
    · rw [show ({ s with
        toAccount := account
        paras := Function.update s.paras req flagged } : AdAdapter).paras r = s.paras r from
          elsewhere r same]
      exact theirs r listed

/-- The walk over the list of one request leaves the state sound, the request in its list, and
given up when it is late. -/
theorem sound_check (now : Time) (sound : Sound s) (among : d ∈ s.bidders)
    (at_d : s.sessionPrivate d = some [req]) : Sound (s.check now [req]) ∧
      (s.check now [req]).sessionPrivate = s.sessionPrivate ∧
      (s.check now [req]).localSession = s.localSession ∧
      (s.check now [req]).netSession = s.netSession ∧
      (s.check now [req]).holder = s.holder ∧ (s.check now [req]).asked = s.asked ∧
      ((s.check now [req]).paras req).emptyToHttp = (s.paras req).emptyToHttp ∧
      (((s.check now [req]).paras req).bTimeout ↔ Late (s.paras req) now) := by
  rw [check_one]
  split
  · next given => exact ⟨sound, rfl, rfl, rfl, rfl, rfl, rfl, by simp [Late, given]⟩
  · next open_ =>
    have unflagged : (s.paras req).bTimeout = false := by simpa using open_
    split
    · next overdue =>
      obtain ⟨lists, here, net, holder, asked, objects⟩ := giveUp_frame s req
      have waits := mem_pendings among at_d List.mem_cons_self
      refine ⟨sound_giveUp sound waits unflagged, lists, here, net, holder, asked, ?_⟩
      rw [objects, Function.update_self]
      simp [Late, overdue]
    · next early => exact ⟨sound, rfl, rfl, rfl, rfl, rfl, rfl, by simp [Late, unflagged, early]⟩

/-- What the request of a list that is emptied has to leave behind. -/
theorem sound_left {account : Account Kind Message} (sound : Sound s) (among : d ∈ s.bidders)
    (booked : Books account (others s d) s.paras)
    (balanced : Balanced account.uiActive account.held (s.bidders ++ owed s.paras (others s d))) :
    Sound { s.setPrivate d (some []) with toAccount := account } := by
  set final : AdAdapter := { s.setPrivate d (some []) with toAccount := account } with finally_
  have lists : ∀ e, e ≠ d → final.sessionPrivate e = s.sessionPrivate e :=
    fun e away => Function.update_of_ne away _ _
  have vacant : final.sessionPrivate d = some [] := Function.update_self _ _ _
  have pending : (pendings final).Perm (others s d) :=
    pendings_with sound.apart among (show final.bidders = s.bidders from rfl) vacant lists
  refine ⟨sound.running, ?_, booked.perm pending.symm, sound.apart, ?_⟩
  · exact balanced.perm ((owed_perm s.paras pending.symm).append_left _)
  · intro e among'
    by_cases same : e = d
    · rw [same]
      exact ⟨[], vacant, Nat.zero_le 1, fun r listed => absurd listed (by simp)⟩
    · obtain ⟨list, at_e, short, theirs⟩ := sound.listed e among'
      exact ⟨list, (lists e same).trans at_e, short, theirs⟩

/-- What is known of the request of a list. -/
theorem Sound.alone (sound : Sound s) (among : d ∈ s.bidders)
    (at_d : s.sessionPrivate d = some [req]) : (s.paras req).dstSession = d ∧
      Books s.toAccount (req :: others s d) s.paras ∧
      Balanced s.uiActive s.held
        (owedOne (s.paras req) ++ (s.bidders ++ owed s.paras (others s d))) := by
  obtain ⟨list, at_d', -, theirs⟩ := sound.listed d among
  obtain rfl : [req] = list := Option.some.inj (at_d.symm.trans at_d')
  have parted := pendings_perm among
  rw [listOf_some at_d] at parted
  have owing := holds_perm among
  rw [listOf_some at_d, owed_cons, owed, List.flatMap_nil, List.append_nil] at owing
  exact ⟨theirs req List.mem_cons_self, sound.booked.perm parted, sound.balanced.perm owing⟩

/-- A request leaves its list with an answer. -/
theorem sound_finish {toHttp : Bool} {about : Nat} {remote : Bool} (sound : Sound s)
    (among : d ∈ s.bidders) (at_d : s.sessionPrivate d = some [req])
    (ends : Ends (s.paras req) toHttp) :
    Sound ((s.setPrivate d (some [])).finish d req toHttp about remote) := by
  obtain ⟨here, booked, balanced⟩ := sound.alone among at_d
  obtain ⟨account, finished, booked, balanced⟩ := finish_books (s := s.setPrivate d (some []))
    toHttp about remote booked balanced ends
  rw [show ((s.setPrivate d (some [])).paras req).dstSession = d from here] at finished
  rw [finished]
  exact sound_left sound among booked balanced

/-- A request that is in no list any more, in a settled state. -/
theorem Settled.left (settled : Settled after) (sound : Sound s) (waits : req ∈ pendings s)
    (holder : after.holder = s.holder) (asked : after.asked = s.asked)
    (pending : ∀ r ∈ pendings after, r ∈ pendings s ∧ r ≠ req) :
    writes Message.answers after.log (s.holder req) = [(s.paras req).srcSession] ∧
      frees after.log (s.holder req) = 1 := by
  obtain ⟨kind, rfl, found⟩ := sound.booked.asked req waits
  refine settled.answered _ _ (by rw [asked]; exact found) ?_
  intro r among same
  obtain ⟨old, other⟩ := pending r among
  rw [holder] at same
  exact other (sound.booked.single r old req waits same)

/-- Where a list of one request is emptied, the requests in the other lists still wait. -/
theorem pendings_emptied (sound : Sound s) (among : d ∈ s.bidders)
    (at_d : s.sessionPrivate d = some [req]) (bidders : after.bidders = s.bidders)
    (vacant : after.sessionPrivate d = some [])
    (lists : ∀ e, e ≠ d → after.sessionPrivate e = s.sessionPrivate e) :
    ∀ r ∈ pendings after, r ∈ pendings s ∧ r ≠ req := by
  have parted := pendings_perm (s := after) (d := d) (by rw [bidders]; exact among)
  rw [listOf_some vacant, List.nil_append, others_congr sound.apart bidders lists] at parted
  have split := pendings_perm among
  rw [listOf_some at_d] at split
  have apart := split.nodup_iff.mp sound.booked.apart
  intro r waits
  have elsewhere := parted.mem_iff.mp waits
  refine ⟨split.mem_iff.mpr (List.mem_append_right _ elsewhere), ?_⟩
  rintro rfl
  exact (List.nodup_append.mp apart).2.2 r List.mem_cons_self r elsewhere rfl

/-- A request leaves its list without an answer. -/
theorem not_settled_finish {toHttp : Bool} {about : Nat} {remote : Bool} (sound : Sound s)
    (among : d ∈ s.bidders) (at_d : s.sessionPrivate d = some [req])
    (settled : Settled ((s.setPrivate d (some [])).finish d req toHttp about remote)) :
    Ends (s.paras req) toHttp := by
  by_contra cut
  obtain ⟨account, finished, log, holder, asked⟩ :=
    finish_unanswered (s := s.setPrivate d (some []))
    remote d about cut
  rw [finished] at settled
  have waits := mem_pendings among at_d List.mem_cons_self
  obtain ⟨written, -⟩ := settled.left sound waits holder asked
    (pendings_emptied sound among at_d rfl (Function.update_self _ _ _)
      fun e away => Function.update_of_ne away _ _)
  rw [log, writes_append, writes_free, List.append_nil] at written
  have opened := (sound.booked.opened req waits).1
  have silent : answered s.paras req = false := by
    rw [Ends, not_or] at cut
    simp [answered, cut.1]
  rw [silent] at opened
  have empty : ([] : List Nat) = [(s.paras req).srcSession] := opened.symm.trans written
  simp at empty

/-- The request of a broken connection ends, with an empty answer unless it had one. -/
theorem clearOne_books {waiting rest : List Nat}
    (booked : Books s.toAccount (req :: waiting) s.paras)
    (balanced : Balanced s.uiActive s.held (owedOne (s.paras req) ++ rest))
    (empty : (s.paras req).emptyToHttp) :
    ∃ account paras, s.clearOne req = { s with toAccount := account, paras := paras } ∧
      (∀ r, r ≠ req → paras r = s.paras r) ∧ Books account waiting s.paras ∧
      Balanced account.uiActive account.held rest := by
  rw [AdAdapter.clearOne]
  by_cases given : (s.paras req).bTimeout
  · rw [if_pos given]
    rw [owedOne, if_pos given] at balanced
    have freed := booked.free (by simp [answered, given, empty])
    exact ⟨_, _, rfl, fun _ _ => rfl,
      freed.recount (idle s.uiActive (s.paras req).dstSession) s.held,
      balanced.idle⟩
  · rw [if_neg given, AdAdapter.giveUp, AdAdapter.sessionTimeout]
    rw [owedOne, if_neg given] at balanced
    set flagged : AdAdapterPara := { s.paras req with bTimeout := true } with isFlagged
    have object : (s.setPara req flagged).paras req = flagged := Function.update_self _ _ _
    have makes : ((s.setPara req flagged).paras req).emptyToHttp = true := by
      rw [object]
      exact empty
    rw [if_pos makes]
    have settled := (booked.settle (by simp [answered, given])
      (show Message.answers (.empty (s.holder req)) = _ from rfl) (s.paras req).srcSession).recount
      (idle (idle s.uiActive (s.paras req).srcSession) (s.paras req).dstSession) s.held
    exact ⟨_, Function.update s.paras req flagged, rfl,
      fun r away => Function.update_of_ne away _ _, settled, balanced.idle.idle⟩

/-- A request of a broken connection that gets no empty answer gets none at all. -/
theorem clearOne_unanswered (silent : (s.paras req).emptyToHttp = false) :
    ∃ account paras, s.clearOne req = { s with toAccount := account, paras := paras } ∧
      account.log = s.log ++ [.free (s.holder req)] ∧ account.holder = s.holder ∧
      account.asked = s.asked := by
  rw [AdAdapter.clearOne]
  by_cases given : (s.paras req).bTimeout
  · rw [if_pos given]
    exact ⟨_, _, rfl, rfl, rfl, rfl⟩
  · rw [if_neg given, AdAdapter.giveUp, AdAdapter.sessionTimeout]
    set flagged : AdAdapterPara := { s.paras req with bTimeout := true } with isFlagged
    have makes : ¬ ((s.setPara req flagged).paras req).emptyToHttp := by
      have updated : (s.setPara req flagged).paras req = flagged := Function.update_self _ _ _
      rw [updated, isFlagged]
      simp [silent]
    rw [if_neg makes]
    exact ⟨_, Function.update s.paras req flagged, rfl, rfl, rfl, rfl⟩

/-- What the sessions that are left need, once the session of an engine is gone. -/
theorem sound_gone {account : Account Kind Message} {bTlv : Bool} (sound : Sound s)
    (among : d ∈ s.bidders)
    (sides : if bTlv then d ∈ s.netSession ∧ d ∉ s.localSession else d ∈ s.localSession)
    (objects : ∀ r ∈ others s d, paras' r = s.paras r) (booked : Books account (others s d) s.paras)
    (balanced : Balanced account.uiActive account.held (s.bidders ++ owed s.paras (others s d))) :
    Sound ((without { s.setPrivate d none with toAccount := account, paras := paras' } d
      bTlv).sessionIdle d) := by
  set cleared : AdAdapter := { s.setPrivate d none with toAccount := account, paras := paras' }
    with cleared_
  set final : AdAdapter := (without cleared d bTlv).sessionIdle d with finally_
  have sessions : final.bidders.Perm (s.bidders.erase d) := bidders_without (s := cleared) sides
  obtain ⟨lists, object, ledger, running⟩ : final.sessionPrivate = cleared.sessionPrivate ∧
      final.paras = paras' ∧ final.toAccount = account.sessionIdle d ∧
      final.crashed = s.crashed := by
    rw [finally_, without]
    cases bTlv <;> exact ⟨rfl, rfl, rfl, rfl⟩
  have left : ∀ e ∈ s.bidders.erase d, e ≠ d := by
    rintro e among' rfl
    exact sound.apart.not_mem_erase among'
  have same : ∀ e, e ≠ d → final.sessionPrivate e = s.sessionPrivate e := by
    intro e away
    rw [lists]
    exact Function.update_of_ne away _ _
  have pending : (pendings final).Perm (others s d) := by
    refine (sessions.flatMap_right _).trans ?_
    rw [others, List.flatMap_congr]
    intro e among'
    rw [listOf, listOf, same e (left e among')]
  have owing : owed paras' (pendings final) = owed s.paras (pendings final) :=
    owed_congr fun r waits => objects r (pending.mem_iff.mp waits)
  refine ⟨by rw [running]; exact sound.running, ?_, ?_,
    sessions.nodup_iff.mpr (sound.apart.erase d), ?_⟩
  · have out : Balanced account.uiActive account.held (d :: holds final) := by
      refine balanced.perm (((List.perm_cons_erase among).append_right _).trans ?_)
      rw [holds, object, owing]
      exact (sessions.symm.append (owed_perm s.paras pending.symm)).cons d
    rw [ledger]
    exact out.idle
  · rw [ledger, object]
    refine Booked_congr ((booked.perm pending.symm).recount _ _) ?_
    intro r waits
    exact objects r (pending.mem_iff.mp waits)
  · intro e among'
    have here := sessions.mem_iff.mp among'
    obtain ⟨list, at_e, short, theirs⟩ := sound.listed e (List.mem_of_mem_erase here)
    refine ⟨list, (same e (left e here)).trans at_e, short, ?_⟩
    intro r listed
    rw [object, objects r]
    · exact theirs r listed
    · refine List.mem_flatMap.mpr ⟨e, here, ?_⟩
      rw [listOf_some at_e]
      exact listed

/-- The call that finds the connection of an engine broken. -/
theorem sound_closed {bTlv : Bool} {cache : Option Packet} (sound : Sound s)
    (among : d ∈ s.bidders)
    (sides : if bTlv then d ∈ s.netSession ∧ d ∉ s.localSession else d ∈ s.localSession)
    (broken : ¬ s.sessionOk d)
    (empty : ∀ req, s.sessionPrivate d = some [req] → (s.paras req).emptyToHttp) :
    Sound (s.bidResponse d bTlv cache now) := by
  obtain ⟨list, at_d, short, -⟩ := sound.listed d among
  rw [AdAdapter.bidResponse, if_neg broken, at_d]
  dsimp only
  rcases list with _ | ⟨req, _ | ⟨second, more⟩⟩
  · have parted := pendings_perm among
    rw [listOf_some at_d, List.nil_append] at parted
    have owing := holds_perm among
    rw [listOf_some at_d, owed, List.flatMap_nil, List.nil_append] at owing
    exact sound_gone sound among sides (fun _ _ => rfl) (sound.booked.perm parted)
      (sound.balanced.perm owing)
  · obtain ⟨-, booked, balanced⟩ := sound.alone among at_d
    obtain ⟨account, paras, cleared, objects, booked', balanced'⟩ :=
      clearOne_books (s := s.setPrivate d none) booked balanced (empty req at_d)
    rw [List.foldl_cons, List.foldl_nil, cleared]
    refine sound_gone sound among sides ?_ booked' balanced'
    intro r elsewhere
    refine objects r ?_
    rintro rfl
    exact (List.nodup_cons.mp booked.apart).1 elsewhere
  · simp at short

/-- A broken connection leaves the run settled only when its request can be answered. -/
theorem not_settled_closed {bTlv : Bool} {cache : Option Packet} (sound : Sound s)
    (among : d ∈ s.bidders)
    (sides : if bTlv then d ∈ s.netSession ∧ d ∉ s.localSession else d ∈ s.localSession)
    (broken : ¬ s.sessionOk d) (at_d : s.sessionPrivate d = some [req])
    (settled : Settled (s.bidResponse d bTlv cache now)) : (s.paras req).emptyToHttp := by
  by_contra silent
  rw [Bool.not_eq_true] at silent
  rw [AdAdapter.bidResponse, if_neg broken, at_d] at settled
  dsimp only at settled
  obtain ⟨account, paras, cleared, log, holder, asked⟩ :=
    clearOne_unanswered (s := s.setPrivate d none) silent
  rw [List.foldl_cons, List.foldl_nil, cleared] at settled
  set final : AdAdapter := (without { s.setPrivate d none with
    toAccount := account, paras := paras } d bTlv).sessionIdle d with finally_
  change Settled final at settled
  obtain ⟨lists, ledger⟩ : final.sessionPrivate = Function.update s.sessionPrivate d none ∧
      final.toAccount = account.sessionIdle d := by
    rw [finally_, without]
    cases bTlv <;> exact ⟨rfl, rfl⟩
  have sessions : final.bidders.Perm (s.bidders.erase d) :=
    bidders_without (s := { s.setPrivate d none with toAccount := account, paras := paras }) sides
  have waits := mem_pendings among at_d List.mem_cons_self
  have apart := (sound.alone among at_d).2.1.apart
  obtain ⟨written, -⟩ := settled.left sound waits (by rw [ledger]; exact holder)
    (by rw [ledger]; exact asked) (by
      intro r among'
      obtain ⟨e, at_e, listed⟩ := List.mem_flatMap.mp among'
      have here := sessions.mem_iff.mp at_e
      have away : e ≠ d := by
        rintro rfl
        exact sound.apart.not_mem_erase here
      rw [listOf, lists, Function.update_of_ne away] at listed
      have elsewhere : r ∈ others s d := List.mem_flatMap.mpr ⟨e, here, listed⟩
      refine ⟨List.mem_flatMap.mpr ⟨e, List.mem_of_mem_erase here, listed⟩, ?_⟩
      rintro rfl
      exact (List.nodup_cons.mp apart).1 elsewhere)
  have logged : final.log = account.log := by
    rw [ledger]
    rfl
  rw [logged, log, writes_append, writes_free, List.append_nil] at written
  have opened := (sound.booked.opened req waits).1
  rw [answered, silent, Bool.and_false] at opened
  have none : ([] : List Nat) = [(s.paras req).srcSession] := opened.symm.trans written
  simp at none

theorem sound_greet (sound : Sound s) (new : d ∉ s.bidders) (bTlv : Bool) :
    Sound (s.greet d bTlv) := by
  obtain ⟨sessions, -, object, ledger, running⟩ := greet_cases new bTlv
  obtain ⟨others, vacant, pending⟩ := greet_lists new bTlv
  refine ⟨by rw [running]; exact sound.running, ?_, ?_, ?_, ?_⟩
  · rw [ledger, holds, object]
    exact sound.balanced.active.perm (sessions.symm.append (owed_perm s.paras pending.symm))
  · rw [ledger, object]
    exact (sound.booked.perm pending.symm).recount _ _
  · refine sessions.nodup_iff.mpr (List.nodup_cons.mpr ⟨?_, sound.apart⟩)
    exact new
  · intro e among
    rcases List.mem_cons.mp (sessions.mem_iff.mp among) with rfl | old
    · exact ⟨[], vacant, Nat.zero_le 1, fun r listed => absurd listed (by simp)⟩
    · obtain ⟨list, at_e, short, theirs⟩ := sound.listed e old
      refine ⟨list, (others e old).2.trans at_e, short, ?_⟩
      rw [object]
      exact theirs

/-- A step that leaves the lists and the requests in them as they are. -/
theorem sound_beside (sound : Sound s) (running : after.crashed = false)
    (lists : after.sessionPrivate = s.sessionPrivate) (sessions : after.bidders = s.bidders)
    (objects : ∀ r ∈ pendings s, after.paras r = s.paras r)
    (balanced : Balanced after.uiActive after.held (holds s))
    (booked : Books after.toAccount (pendings s) s.paras) : Sound after := by
  have pending : pendings after = pendings s := pendings_congr sessions lists
  refine ⟨running, ?_, ?_, by rw [sessions]; exact sound.apart, ?_⟩
  · rw [holds, pending, sessions, owed_congr objects]
    exact balanced
  · rw [pending]
    exact Booked_congr booked objects
  · intro e among
    rw [sessions] at among
    obtain ⟨list, at_e, short, theirs⟩ := sound.listed e among
    refine ⟨list, by rw [lists]; exact at_e, short, ?_⟩
    intro r listed
    rw [objects r (mem_pendings among at_e listed)]
    exact theirs r listed

variable {account : Account Kind Message} {fresh : Nat} {base : AdAdapter} {kind : Kind}

theorem Sound.alloc (sound : Sound s) (given : s.toAccount.allocPara fresh = some (req, account)) :
    account.uiActive = s.uiActive ∧ account.held = s.held ∧ account.asked = s.asked ∧
      account.log = s.log ∧ req ∈ account.used := by
  obtain ⟨-, -, rest, rfl⟩ := sound.booked.pooled.alloc given
  exact ⟨rfl, rfl, rfl, rfl, List.mem_cons_self⟩

/-- The ledger after a request that goes to no engine. -/
theorem refuse_books (sound : Sound s)
    (given : s.toAccount.allocPara fresh = some (req, account))
    (arrived : Arrived s base account req session kind)
    (empty : kind = .accepted → (base.paras req).emptyToHttp) :
    ∃ ledger : Account Kind Message, base.refuse req session = { base with toAccount := ledger } ∧
      Books ledger (pendings s) s.paras ∧ ledger.held = s.held ∧
      ledger.uiActive = idle (active s.uiActive session) session := by
  obtain ⟨counts, held, asked, -, inUse⟩ := sound.alloc given
  have number : base.holder req = s.asked.length := by
    rw [arrived.ledger, ← asked]
    exact Function.update_self _ _ _
  have counted : base.uiActive = active s.uiActive session := by
    rw [arrived.ledger, ← counts]
  have based : base.held = s.held := by
    rw [arrived.ledger]
    exact held
  rw [AdAdapter.refuse, AdAdapter.sessionTimeout]
  cases kind with
  | accepted =>
    rw [if_pos (empty rfl), number]
    refine ⟨_, rfl, ?_, based, by rw [← counted]; rfl⟩
    change Books (((base.toAccount.write session
      (.empty s.asked.length)).sessionIdle session).freePara req) _ _
    rw [arrived.ledger]
    exact sound.booked.refuse given rfl session
      (show Message.answers (.empty s.asked.length) = some s.toAccount.asked.length from rfl) _
  | rejected =>
    have booked : Books base.toAccount (pendings s) s.paras := by
      rw [arrived.ledger]
      exact (sound.booked.arrive_uncounted given session (by decide)).recount _ _
    have uncounted : Uncounted (· = .accepted) base.toAccount (base.holder req) := by
      refine ⟨.rejected, session, ?_, by decide⟩
      rw [number, arrived.ledger, ← asked]
      exact List.getElem?_concat_length
    have used : req ∈ base.used := by
      rw [arrived.ledger]
      exact inUse
    have outside : req ∉ pendings s := fun waits => sound.booked.away given waits rfl
    have final : ∀ a : Account Kind Message, a.holder = base.holder → a.asked = base.asked →
        a.used = base.used → Books a (pendings s) s.paras →
        Books ((a.sessionIdle session).freePara req) (pendings s) s.paras := by
      intro a holder asked used' booked
      refine (booked.recount (idle a.uiActive session) a.held).free_uncounted ?_ ?_ outside
      · obtain ⟨k, src, found, off⟩ := uncounted
        refine ⟨k, src, ?_, off⟩
        change a.asked[a.holder req]? = _
        rw [asked, holder]
        exact found
      · change req ∈ a.used
        rw [used']
        exact used
    split
    · refine ⟨_, rfl,
        final (base.toAccount.write session (.empty (base.holder req))) rfl rfl rfl ?_,
        based, by rw [← counted]; rfl⟩
      exact booked.write_uncounted uncounted rfl
    · exact ⟨_, rfl, final base.toAccount rfl rfl rfl booked, based, by rw [← counted]; rfl⟩

/-- A request that goes to no engine. -/
theorem sound_refused (sound : Sound s)
    (given : s.toAccount.allocPara fresh = some (req, account))
    (arrived : Arrived s base account req session kind)
    (empty : kind = .accepted → (base.paras req).emptyToHttp) :
    Sound (base.refuse req session) := by
  obtain ⟨ledger, equal, booked, held, counts⟩ := refuse_books sound given arrived empty
  rw [equal]
  refine sound_beside sound (arrived.running.trans sound.running) arrived.lists arrived.bidders
    (fun r waits => arrived.objects r (sound.booked.away given waits)) ?_ booked
  rw [held, counts]
  exact sound.balanced.active.idle

/-- An accepted request that goes to no engine is answered in a settled run. -/
theorem not_settled_refused (sound : Sound s)
    (given : s.toAccount.allocPara fresh = some (req, account))
    (arrived : Arrived s base account req session .accepted)
    (settled : Settled (base.refuse req session)) : (base.paras req).emptyToHttp := by
  by_contra silent
  obtain ⟨-, -, asked, log, -⟩ := sound.alloc given
  have arrived_last : base.asked[s.asked.length]? = some (.accepted, session) := by
    rw [arrived.ledger, ← asked]
    exact List.getElem?_concat_length
  have number : base.holder req = s.asked.length := by
    rw [arrived.ledger, ← asked]
    exact Function.update_self _ _ _
  have equal : base.refuse req session = (base.sessionIdle session).freePara req := by
    rw [AdAdapter.refuse, AdAdapter.sessionTimeout, if_neg silent]
  rw [equal] at settled
  have pending : pendings ((base.sessionIdle session).freePara req) = pendings s :=
    pendings_congr arrived.bidders arrived.lists
  obtain ⟨written, -⟩ := settled.answered s.asked.length session arrived_last (by
    intro r waits same
    rw [pending] at waits
    have older := sound.booked.holder_lt waits
    have kept : base.holder r = s.holder r := by
      obtain ⟨-, -, rest, isAccount⟩ := sound.booked.pooled.alloc given
      rw [arrived.ledger, isAccount]
      exact Function.update_of_ne (sound.booked.away given waits) _ _
    have here : base.holder r = s.asked.length := same
    rw [kept] at here
    omega)
  have logged : ((base.sessionIdle session).freePara req).log =
      s.log ++ [.free (base.holder req)] := by
    rw [← log]
    change base.log ++ [.free (base.holder req)] = _
    rw [arrived.ledger]
    rfl
  rw [logged, writes_append, writes_free, List.append_nil,
    (sound.booked.known _ le_rfl).1] at written
  simp at written

/-- A request that goes to an engine. -/
theorem sound_sent (sound : Sound s) (given : s.toAccount.allocPara fresh = some (req, account))
    (arrived : Arrived s base account req session .accepted)
    (unflagged : (base.paras req).bTimeout = false) (among : d ∈ s.bidders)
    (vacant : s.sessionPrivate d = some []) : Sound (base.sendBidder req session (.send d [])) := by
  obtain ⟨counts, held, -, -, -⟩ := sound.alloc given
  set object : AdAdapterPara :=
    { base.paras req with srcSession := session, dstSession := d } with object_
  rw [AdAdapter.sendBidder]
  set final : AdAdapter := (((base.sessionActive d).setPara req object).setPrivate d
    (some ([] ++ [req]))).write d (.request req (base.holder req)) with finally_
  change Sound final
  have sent : Sent s final d req object := arrived.sent
  have pending := sent.pending sound.apart among vacant
  obtain ⟨sessions, at_d, lists, mine, objects⟩ := sent
  have owing : (holds final).Perm (d :: session :: holds s) := by
    have owed_final := owed_perm final.paras pending
    have same : owed final.paras (pendings s) = owed s.paras (pendings s) :=
      owed_congr fun r waits => objects r (sound.booked.away given waits)
    have one : owedOne (final.paras req) = [session, d] := by
      rw [mine, owedOne, if_neg]
      simp [object_, unflagged]
    rw [owed_cons, one, same] at owed_final
    rw [holds, holds, sessions]
    refine (owed_final.append_left _).trans ?_
    refine List.perm_middle.trans ((List.perm_middle.cons _).trans ?_)
    exact List.Perm.swap _ _ _
  have counted : final.uiActive = active (active s.uiActive session) d := by
    change active base.uiActive d = _
    rw [arrived.ledger, ← counts]
  have based : final.held = s.held := by
    change base.held = _
    rw [arrived.ledger]
    exact held
  have ledger : final.toAccount = Account.write
      { account.arrive req .accepted session with
        uiActive := active base.uiActive d
        held := account.held } d (.request req (base.holder req)) := by
    change Account.write (base.toAccount.sessionActive d) d (.request req (base.holder req)) = _
    rw [Account.sessionActive, arrived.ledger]
    rfl
  refine ⟨arrived.running.trans sound.running, ?_, ?_, by rw [sessions]; exact sound.apart, ?_⟩
  · rw [counted, based]
    exact Balanced.perm sound.balanced.active.active owing.symm
  · rw [ledger]
    have waiting := (sound.booked.arrive given rfl session).recount (active base.uiActive d)
      account.held
    refine ((waiting.write_other rfl).perm pending.symm).congr ?_ ?_
    · intro r waits
      rcases List.mem_cons.mp (pending.mem_iff.mp waits) with rfl | old
      · rw [Function.update_self, mine]
      · have other := sound.booked.away given old
        rw [Function.update_of_ne other, objects r other]
    · intro r waits
      rcases List.mem_cons.mp (pending.mem_iff.mp waits) with rfl | old
      · rw [Function.update_self, answered, mine, object_]
        simp [unflagged]
      · rw [Function.update_of_ne (sound.booked.away given old), answered, answered,
          objects r (sound.booked.away given old)]
  · intro e among'
    rw [sessions] at among'
    by_cases same : e = d
    · rw [same]
      refine ⟨[req], at_d, le_rfl, ?_⟩
      intro r listed
      rw [List.mem_singleton.mp listed, mine]
    · obtain ⟨list, at_e, short, theirs⟩ := sound.listed e among'
      refine ⟨list, (lists e same).trans at_e, short, ?_⟩
      intro r listed
      rw [objects r (sound.booked.away given (mem_pendings among' at_e listed))]
      exact theirs r listed

/-- A request can be answered when a reply to it is read: an empty answer can be made of it, or
a bid, and it is not late. -/
def Answerable (para : AdAdapterPara) (now : Time) (toHttp : Bool) : Prop :=
  para.emptyToHttp ∨ toHttp ∧ ¬ Late para now

/-- What a read from the session of an engine has to be for the request of its list: over the
net a packet with a positive length. -/
def Fits (para : AdAdapterPara) (req : Nat) (bTlv : Bool) (p : Packet) (now : Time) : Prop :=
  if bTlv then 0 < tlvPacketLen p.memory p.size ∧ Answerable para now (p.toHttp req 0)
  else ∀ q, replyOf req p.internal = some q → Answerable para now q.toHttp

/-- A call for the session of an engine reads what fits the request of its list, or finds the
connection broken and the request one that can be given an empty answer. -/
def Replied (s : AdAdapter) (d : Nat) (bTlv : Bool) (cache : Option Packet) (now : Time) : Prop :=
  ∀ req, s.sessionPrivate d = some [req] →
    if s.sessionOk d then ∀ p, cache = some p → Fits (s.paras req) req bTlv p now
    else (s.paras req).emptyToHttp

/-- An accepted request finds an engine with an empty list, or can be given an empty answer. -/
def Placed (s : AdAdapter) (p : AdxRequest) (loop : Nat) : Prop :=
  p.toInternal → (∀ d list,
    s.findBidder p.bDebugUser (s.localSession.length / 2 + 1) loop ≠ .send d list) → p.emptyToHttp

/-- What keeps a run settled. -/
def Answered : Input → AdAdapter → Prop
  | .run session cache now _ loop, s =>
    if s.localSession.check session then Replied s session false cache now
    else if s.netSession.check session then Replied s session true cache now
    else ∀ p, cache = some p → ¬ p.greets adIBiddingEngLocal → ¬ p.greets adIBiddingEngRemote →
      Placed s p.request loop
  | _, _ => True

theorem ends_iff {para checked : AdAdapterPara} {toHttp : Bool}
    (empty : checked.emptyToHttp = para.emptyToHttp) (flag : checked.bTimeout ↔ Late para now) :
    Ends checked toHttp ↔ Answerable para now toHttp := by
  rw [Ends, Answerable, empty, flag]

/-- A call on a connection that stands keeps the adapter sound exactly when what was read fits
the request of the list. -/
theorem sound_open {bTlv : Bool} {cache : Option Packet} (sound : Sound s) (among : d ∈ s.bidders)
    (ok : s.sessionOk d) :
    ((∀ req, s.sessionPrivate d = some [req] → ∀ p, cache = some p →
        Fits (s.paras req) req bTlv p now) → Sound (s.bidResponse d bTlv cache now)) ∧
      (Settled (s.bidResponse d bTlv cache now) → ∀ req, s.sessionPrivate d = some [req] →
        ∀ p, cache = some p → Fits (s.paras req) req bTlv p now) := by
  obtain ⟨list, at_d, short, -⟩ := sound.listed d among
  rcases list with _ | ⟨req, _ | ⟨second, more⟩⟩
  · rw [bidResponse_vacant ok at_d]
    refine ⟨fun _ => sound, fun _ req at_d' => ?_⟩
    rw [at_d] at at_d'
    simp at at_d'
  · rw [AdAdapter.bidResponse, if_pos ok, at_d]
    dsimp only
    obtain ⟨checked, lists, inLocal, inNet, -, -, empty, flag⟩ :=
      sound_check now sound among at_d
    set c := s.check now [req] with c_
    have among' : d ∈ c.bidders := by
      rw [AdAdapter.bidders, inLocal, inNet]
      exact among
    have at_c : c.sessionPrivate d = some [req] := by
      rw [lists]
      exact at_d
    cases cache with
    | none => exact ⟨fun _ => checked, fun _ _ _ p absent => absurd absent (by simp)⟩
    | some p =>
      dsimp only
      cases bTlv with
      | true =>
        rw [if_pos rfl, remoteReply_one]
        constructor
        · intro fits
          obtain ⟨long, answerable⟩ := fits req rfl p rfl
          rw [if_pos long]
          exact sound_finish checked among' at_c ((ends_iff empty flag).mpr answerable)
        · intro settled r same q read
          obtain rfl := Option.some.inj read
          obtain rfl : req = r := by simpa using same
          rw [Fits, if_pos rfl]
          split at settled
          · next long =>
            exact ⟨long, (ends_iff empty flag).mp (not_settled_finish checked among' at_c settled)⟩
          · have waits := mem_pendings among' at_c List.mem_cons_self
            obtain ⟨-, released⟩ := settled.left checked waits rfl rfl
              (pendings_emptied checked among' at_c rfl (Function.update_self _ _ _)
                fun e away => Function.update_of_ne away _ _)
            have kept := (checked.booked.opened req waits).2
            have none_freed : (0 : Nat) = 1 := kept.symm.trans released
            exact absurd none_freed (by decide)
      | false =>
        rw [if_neg Bool.false_ne_true, localReply_one at_c]
        constructor
        · intro fits
          have answerable := fits req rfl p rfl
          rw [Fits, if_neg Bool.false_ne_true] at answerable
          cases named : replyOf req p.internal with
          | none => exact checked
          | some q =>
            exact sound_finish checked among' at_c ((ends_iff empty flag).mpr (answerable q named))
        · intro settled r same q read
          obtain rfl := Option.some.inj read
          obtain rfl : req = r := by simpa using same
          rw [Fits, if_neg Bool.false_ne_true]
          intro answer named
          rw [named] at settled
          exact (ends_iff empty flag).mp (not_settled_finish checked among' at_c settled)
  · simp at short

/-- A call for the session of an engine. -/
theorem sound_bidder {bTlv : Bool} {cache : Option Packet} (sound : Sound s)
    (sides : if bTlv then d ∈ s.netSession ∧ d ∉ s.localSession else d ∈ s.localSession) :
    (Replied s d bTlv cache now → Sound (s.bidResponse d bTlv cache now)) ∧
      (Settled (s.bidResponse d bTlv cache now) → Replied s d bTlv cache now) := by
  have among : d ∈ s.bidders := by
    cases bTlv with
    | true =>
      rw [if_pos rfl] at sides
      exact List.mem_append_right _ sides.1
    | false =>
      rw [if_neg Bool.false_ne_true] at sides
      exact List.mem_append_left _ sides
  rw [Replied]
  by_cases ok : s.sessionOk d
  · simp only [if_pos ok]
    exact sound_open sound among ok
  · simp only [if_neg ok]
    exact ⟨sound_closed sound among sides ok,
      fun settled req at_d => not_settled_closed sound among sides ok at_d settled⟩

/-- A request of an exchange. -/
theorem sound_request (sound : Sound s) (session : Nat) (p : AdxRequest) (loop : Nat)
    (taken : s.allocPara now fresh = some (req, after)) :
    (Placed s p loop → Sound (after.request req session p loop)) ∧
      (Settled (after.request req session p loop) → Placed s p loop) := by
  obtain ⟨account, base, given, arrived, mine, requested⟩ := request_cases taken session p loop
  by_cases parses : p.toInternal
  · rw [if_pos parses] at arrived requested
    rcases requested with ⟨d, found, equal⟩ | ⟨none, equal⟩
    · obtain ⟨among, vacant, -⟩ := findBidder_send found
      rw [equal]
      refine ⟨fun _ => sound_sent sound given arrived (by rw [mine]) among vacant, ?_⟩
      intro _ _ none
      exact absurd found (none d [])
    · rw [equal]
      refine ⟨fun met => sound_refused sound given arrived fun _ => ?_, fun settled _ _ => ?_⟩
      · rw [mine]
        exact met parses none
      · have empty := not_settled_refused sound given arrived settled
        rwa [mine] at empty
  · rw [if_neg parses] at arrived requested
    rw [requested]
    refine ⟨fun _ => sound_refused sound given arrived fun accepted => ?_, fun _ met => ?_⟩
    · cases accepted
    · exact absurd met parses

variable {input : Input}

/-- A step keeps the adapter sound exactly when it leaves it settled, and that is when every
request is answered. -/
theorem sound_run {cache : Option Packet} {loop : Nat} (sound : Sound s)
    (stepped : s.run session cache now fresh loop = some after) :
    (Answered (.run session cache now fresh loop) s → Sound after) ∧
      (Settled after → Answered (.run session cache now fresh loop) s) := by
  rw [AdAdapter.run.eq_def] at stepped
  rw [Answered]
  by_cases inLocal : s.localSession.check session
  · rw [if_pos inLocal] at stepped
    simp only [if_pos inLocal]
    obtain rfl := Option.some.inj stepped
    refine sound_bidder sound ?_
    rw [if_neg Bool.false_ne_true]
    exact AdLRBuffer.check_iff.mp inLocal
  · rw [if_neg inLocal] at stepped
    simp only [if_neg inLocal]
    have outLocal : session ∉ s.localSession :=
      fun among => inLocal (AdLRBuffer.check_iff.mpr among)
    by_cases inNet : s.netSession.check session
    · rw [if_pos inNet] at stepped
      simp only [if_pos inNet]
      obtain rfl := Option.some.inj stepped
      refine sound_bidder sound ?_
      rw [if_pos rfl]
      exact ⟨AdLRBuffer.check_iff.mp inNet, outLocal⟩
    · rw [if_neg inNet] at stepped
      simp only [if_neg inNet]
      have new : session ∉ s.bidders := by
        rw [AdAdapter.bidders, List.mem_append, not_or]
        exact ⟨outLocal, fun among => inNet (AdLRBuffer.check_iff.mpr among)⟩
      cases cache with
      | none =>
        obtain rfl := Option.some.inj stepped
        exact ⟨fun _ => sound, fun _ p absent => absurd absent (by simp)⟩
      | some p =>
        dsimp only at stepped
        split at stepped
        · next greets =>
          obtain rfl := Option.some.inj stepped
          refine ⟨fun _ => sound_greet sound new false, ?_⟩
          intro _ q read other
          obtain rfl := Option.some.inj read
          exact absurd greets other
        · next quiet =>
          split at stepped
          · next greets =>
            obtain rfl := Option.some.inj stepped
            refine ⟨fun _ => sound_greet sound new true, ?_⟩
            intro _ q read _ other
            obtain rfl := Option.some.inj read
            exact absurd greets other
          · next silent =>
            obtain ⟨⟨req, s₁⟩, taken, rfl⟩ := Option.map_eq_some_iff.mp stepped
            obtain ⟨keep, need⟩ := sound_request sound session p.request loop taken
            refine ⟨fun met => keep (met p rfl quiet silent), ?_⟩
            intro settled q read _ _
            obtain rfl := Option.some.inj read
            exact need settled

theorem sound_step (sound : Sound s) (stepped : step input s = some after) :
    (Answered input s → Sound after) ∧ (Settled after → Answered input s) := by
  have alive : ¬ s.crashed := by simp [sound.running]
  rw [Adapter.step.eq_def, if_neg alive] at stepped
  cases input with
  | run session cache now fresh loop => exact sound_run sound stepped
  | close session =>
    obtain rfl := Option.some.inj stepped
    refine ⟨fun _ => ?_, fun _ => trivial⟩
    exact ⟨sound.running, sound.balanced, sound.booked, sound.apart, sound.listed⟩
  | active session =>
    obtain rfl := Option.some.inj stepped
    refine ⟨fun _ => ?_, fun _ => trivial⟩
    exact ⟨sound.running, sound.balanced.active_base, sound.booked.recount _ _, sound.apart,
      sound.listed⟩
  | idle session =>
    dsimp only at stepped
    split at stepped
    · next held =>
      obtain rfl := Option.some.inj stepped
      refine ⟨fun _ => ?_, fun _ => trivial⟩
      exact ⟨sound.running, sound.balanced.idle_base held, sound.booked.recount _ _, sound.apart,
        sound.listed⟩
    · exact absurd stepped (by simp)

theorem sound_start (held : Nat → Nat) : Sound (start held) := by
  refine ⟨rfl, fun _ => rfl, ?_, List.nodup_nil, ?_⟩
  · exact booked_start rfl rfl rfl rfl
  · intro d among
    exact absurd among (by simp [start, AdAdapter.bidders])

/-- The adapter stays settled through a run exactly when every request is answered. -/
theorem settled_iff_answered (held : Nat → Nat) (inputs : List Input) :
    (∀ s ∈ states step (start held) inputs, Settled s) ↔
      Throughout step Answered (start held) inputs :=
  states_iff_invariant (fun _ _ _ sound stepped => (sound_step sound stepped).2)
    (fun _ _ _ sound met stepped => (sound_step sound stepped).1 met)
    (fun _ => Sound.settled) (sound_start held) inputs

/-- An engine of the net greets as session 1 and gets a request of session 7, and one byte
comes back: the request is in no list any more and has no answer. -/
theorem short_reply_lost :
    ¬ ∀ (held : Nat → Nat) (inputs : List Input),
      ∀ s ∈ states step (start held) inputs, Settled s := by
  intro all
  let read (text : List UInt8) (size : Int) : Packet :=
    ⟨fun a => text.getD a.toNat 0, size, ⟨true, false, true⟩, [], fun _ _ => false, 0⟩
  have settled := all (fun _ => 0)
    [.run 1 (some (read adIBiddingEngRemote 32)) ⟨0, 0⟩ 0 0,
      .run 7 (some (read [] 64)) ⟨0, 0⟩ 0 0,
      .run 1 (some (read [] 1)) ⟨0, 0⟩ 0 0] _
    (.tail _ (.tail _ (.tail _ (.head _))))
  have released := (settled.answered 0 7 rfl (by decide)).2
  exact absurd released (by decide)

end AdapterReplies
