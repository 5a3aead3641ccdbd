import Mathlib.Tactic
import RtbAdapter.RequestAccounts

/-!
# The ledger of a run

The requests that wait stand for numbers of their own; they are answered at most
once and not released. Every other number of the kinds that count has had one
answer, to the session it came from, and one release. Each thing that a server
does with a request moves the ledger by one line.
-/

namespace RequestLedger

open RequestAccounts Account

variable {κ μ : Type}

structure Booked (answers : μ → Option Nat) (counted : κ → Prop) (a : Account κ μ)
    (waiting : List Nat) (source : Nat → Nat) (answered : Nat → Bool) : Prop where
  pooled : Pooled a
  apart : waiting.Nodup
  inUse : ∀ r ∈ waiting, r ∈ a.used
  single : ∀ r ∈ waiting, ∀ r' ∈ waiting, a.holder r = a.holder r' → r = r'
  asked : ∀ r ∈ waiting, ∃ kind, counted kind ∧ a.asked[a.holder r]? = some (kind, source r)
  opened : ∀ r ∈ waiting,
    writes answers a.log (a.holder r) = (if answered r then [source r] else []) ∧
      frees a.log (a.holder r) = 0
  closed : ∀ id kind src, a.asked[id]? = some (kind, src) → counted kind →
    (∀ r ∈ waiting, a.holder r ≠ id) → writes answers a.log id = [src] ∧ frees a.log id = 1
  known : ∀ id, a.asked.length ≤ id → writes answers a.log id = [] ∧ frees a.log id = 0

variable {answers : μ → Option Nat} {counted : κ → Prop} {a after : Account κ μ}
  {waiting others : List Nat} {source source' : Nat → Nat} {answered answered' : Nat → Bool}
  {req : Nat}

/-- The ledger before the first arrival. -/
theorem booked_start (used : a.used = []) (free : a.ctFreePara = []) (asked : a.asked = [])
    (log : a.log = []) : Booked answers counted a [] source answered where
  pooled := ⟨by rw [used]; exact List.nodup_nil, by rw [free]; exact List.nodup_nil, by simp [free]⟩
  apart := List.nodup_nil
  inUse _ among := nomatch among
  single _ among := nomatch among
  asked _ among := nomatch among
  opened _ among := nomatch among
  closed _ _ _ found := by simp [asked] at found
  known _ _ := by rw [log]; exact ⟨rfl, rfl⟩

/-- The object that is given out belongs to no request that waits. -/
theorem Booked.away (booked : Booked answers counted a waiting source answered) {fresh : Nat}
    (given : a.allocPara fresh = some (req, after)) {r : Nat} (waits : r ∈ waiting) : r ≠ req := by
  rintro rfl
  exact (booked.pooled.alloc given).1 (booked.inUse r waits)

/-- A number that an object stands for has been given out. -/
theorem Booked.holder_lt (booked : Booked answers counted a waiting source answered) {r : Nat}
    (waits : r ∈ waiting) : a.holder r < a.asked.length := by
  obtain ⟨kind, -, found⟩ := booked.asked r waits
  exact (List.getElem?_eq_some_iff.mp found).1

theorem Booked.congr (booked : Booked answers counted a waiting source answered)
    (sources : ∀ r ∈ waiting, source r = source' r)
    (answers' : ∀ r ∈ waiting, answered r = answered' r) :
    Booked answers counted a waiting source' answered' where
  pooled := booked.pooled
  apart := booked.apart
  inUse := booked.inUse
  single := booked.single
  asked r waits := by rw [← sources r waits]; exact booked.asked r waits
  opened r waits := by
    rw [← sources r waits, ← answers' r waits]
    exact booked.opened r waits
  closed := booked.closed
  known := booked.known

theorem Booked.perm (booked : Booked answers counted a waiting source answered)
    (same : waiting.Perm others) : Booked answers counted a others source answered where
  pooled := booked.pooled
  apart := same.nodup_iff.mp booked.apart
  inUse r waits := booked.inUse r (same.mem_iff.mpr waits)
  single r waits r' waits' :=
    booked.single r (same.mem_iff.mpr waits) r' (same.mem_iff.mpr waits')
  asked r waits := booked.asked r (same.mem_iff.mpr waits)
  opened r waits := booked.opened r (same.mem_iff.mpr waits)
  closed id kind src found counts outside :=
    booked.closed id kind src found counts fun r waits => outside r (same.mem_iff.mp waits)
  known := booked.known

/-- The counts of the sessions are no part of the ledger. -/
theorem Booked.recount (booked : Booked answers counted a waiting source answered)
    (uiActive held : Nat → Nat) :
    Booked answers counted { a with uiActive := uiActive, held := held } waiting source answered
    where
  pooled := ⟨booked.pooled.used, booked.pooled.free, booked.pooled.apart⟩
  apart := booked.apart
  inUse := booked.inUse
  single := booked.single
  asked := booked.asked
  opened := booked.opened
  closed := booked.closed
  known := booked.known

/-- A message moves the ledger by what it adds to the answers. -/
theorem Booked.written (booked : Booked answers counted a waiting source answered)
    {session : Nat} {message : μ}
    (opened : ∀ r ∈ waiting, writes answers (a.write session message).log (a.holder r) =
      if answered' r then [source r] else [])
    (closed : ∀ id kind src, a.asked[id]? = some (kind, src) → counted kind →
      (∀ r ∈ waiting, a.holder r ≠ id) →
      writes answers (a.write session message).log id = writes answers a.log id)
    (known : ∀ id, a.asked.length ≤ id →
      writes answers (a.write session message).log id = writes answers a.log id) :
    Booked answers counted (a.write session message) waiting source answered' where
  pooled := ⟨booked.pooled.used, booked.pooled.free, booked.pooled.apart⟩
  apart := booked.apart
  inUse := booked.inUse
  single := booked.single
  asked := booked.asked
  opened r waits := ⟨opened r waits, frees_log_write.trans (booked.opened r waits).2⟩
  closed id kind src found counts outside := by
    rw [closed id kind src found counts outside, frees_log_write]
    exact booked.closed id kind src found counts outside
  known id unknown := by
    rw [known id unknown, frees_log_write]
    exact booked.known id unknown

/-- A message that is no answer. -/
theorem Booked.write_other (booked : Booked answers counted a waiting source answered)
    {session : Nat} {message : μ} (other : answers message = none) :
    Booked answers counted (a.write session message) waiting source answered := by
  have same : ∀ id, writes answers (a.write session message).log id = writes answers a.log id := by
    intro id
    simp [writes_log_write, other]
  refine booked.written (fun r waits => ?_) (fun id _ _ _ _ _ => same id) fun id _ => same id
  rw [same]
  exact (booked.opened r waits).1

/-- The answer to a request that waits. -/
theorem Booked.answer (booked : Booked answers counted a (req :: waiting) source answered)
    (unanswered : answered req = false) {message : μ}
    (about : answers message = some (a.holder req)) :
    Booked answers counted (a.write (source req) message) (req :: waiting) source
      (Function.update answered req true) := by
  have grows : ∀ id, writes answers (a.write (source req) message).log id =
      writes answers a.log id ++ if a.holder req = id then [source req] else [] := by
    intro id
    simp [writes_log_write, about]
  refine booked.written (fun r waits => ?_) (fun id kind src found counts outside => ?_)
    fun id unknown => ?_
  · rw [grows, (booked.opened r waits).1]
    by_cases same : r = req
    · subst same
      simp [unanswered]
    · have away : a.holder req ≠ a.holder r := fun equal =>
        same (booked.single r waits req List.mem_cons_self equal.symm)
      rw [if_neg away, Function.update_of_ne same, List.append_nil]
  · have mine : a.holder req ≠ id := outside req List.mem_cons_self
    rw [grows, if_neg mine, List.append_nil]
  · have given := booked.holder_lt (r := req) List.mem_cons_self
    rw [grows, if_neg (by omega), List.append_nil]

/-- The release of the object of an answered request. -/
theorem Booked.free (booked : Booked answers counted a (req :: waiting) source answered)
    (done : answered req = true) :
    Booked answers counted (a.freePara req) waiting source answered := by
  have apart := List.nodup_cons.mp booked.apart
  have away : ∀ r ∈ waiting, r ≠ req := by
    rintro r waits rfl
    exact apart.1 waits
  have elsewhere : ∀ r ∈ waiting, a.holder req ≠ a.holder r := fun r waits equal =>
    away r waits (booked.single r (.tail _ waits) req List.mem_cons_self equal.symm)
  exact {
    pooled := booked.pooled.free_para (booked.inUse req List.mem_cons_self)
    apart := apart.2
    inUse := fun r waits => (mem_used_freePara booked.pooled).mpr
      ⟨away r waits, booked.inUse r (.tail _ waits)⟩
    single := fun r waits r' waits' => booked.single r (.tail _ waits) r' (.tail _ waits')
    asked := fun r waits => booked.asked r (.tail _ waits)
    opened := fun r waits => by
      obtain ⟨written, unfreed⟩ := booked.opened r (.tail _ waits)
      refine ⟨writes_log_free.trans written, ?_⟩
      rw [frees_log_free, show (a.freePara req).holder = a.holder from rfl, unfreed,
        if_neg (elsewhere r waits)]
    closed := fun id kind src found counts outside => by
      rw [writes_log_free, frees_log_free]
      by_cases mine : a.holder req = id
      · subst mine
        obtain ⟨written, unfreed⟩ := booked.opened req List.mem_cons_self
        obtain ⟨kind', -, found'⟩ := booked.asked req List.mem_cons_self
        have equal := found'.symm.trans found
        rw [written, unfreed, done, if_pos rfl, if_pos rfl]
        simp_all
      · rw [if_neg mine]
        refine booked.closed id kind src found counts ?_
        intro r waits
        rcases List.mem_cons.mp waits with rfl | waits
        · exact mine
        · exact outside r waits
    known := fun id unknown => by
      have given := booked.holder_lt (r := req) List.mem_cons_self
      rw [writes_log_free, frees_log_free, if_neg]
      · exact booked.known id unknown
      · intro equal
        have : a.asked.length ≤ id := unknown
        omega }

/-- The answer to a request that waits, and the release of its object. -/
theorem Booked.settle (booked : Booked answers counted a (req :: waiting) source answered)
    (unanswered : answered req = false) {message : μ}
    (about : answers message = some (a.holder req)) (session : Nat) :
    Booked answers counted
      (((a.write (source req) message).sessionIdle session).freePara req) waiting source
      answered := by
  have answered := booked.answer unanswered about
  have freed := (answered.recount (HeldCounts.idle a.uiActive session) a.held).free
    (Function.update_self _ _ _)
  refine freed.congr (fun _ _ => rfl) ?_
  intro r waits
  refine Function.update_of_ne ?_ _ _
  rintro rfl
  exact (List.nodup_cons.mp booked.apart).1 waits

theorem holder_arrive {kind : κ} {session r : Nat} (away : r ≠ req) :
    (a.arrive req kind session).holder r = a.holder r :=
  Function.update_of_ne away _ _

theorem holder_arrive_self {kind : κ} {session : Nat} :
    (a.arrive req kind session).holder req = a.asked.length :=
  Function.update_self _ _ _

/-- The numbers known before an arrival are still known after it. -/
theorem asked_arrive {kind k : κ} {session id src : Nat}
    (found : a.asked[id]? = some (k, src)) :
    (a.arrive req kind session).asked[id]? = some (k, src) := by
  have before := (List.getElem?_eq_some_iff.mp found).1
  rw [Account.arrive, List.getElem?_append_left before]
  exact found

theorem asked_arrive_cases {kind k : κ} {session id src : Nat}
    (found : (a.arrive req kind session).asked[id]? = some (k, src)) :
    a.asked[id]? = some (k, src) ∨ id = a.asked.length ∧ k = kind ∧ src = session := by
  rw [Account.arrive, List.getElem?_append] at found
  split at found
  · exact .inl found
  · next past =>
    obtain ⟨last, equal⟩ := List.getElem?_eq_some_iff.mp found
    rw [List.length_singleton] at last
    have first : id - a.asked.length = 0 := by omega
    simp only [first, List.getElem_cons_zero, Prod.mk.injEq] at equal
    exact .inr ⟨by omega, equal.1.symm, equal.2.symm⟩

/-- A request that arrives and waits. -/
theorem Booked.arrive {fresh : Nat} (booked : Booked answers counted a waiting source answered)
    (given : a.allocPara fresh = some (req, after)) {kind : κ} (counts : counted kind)
    (session : Nat) :
    Booked answers counted (after.arrive req kind session) (req :: waiting)
      (Function.update source req session) (Function.update answered req false) := by
  obtain ⟨unused, pooled, rest, rfl⟩ := booked.pooled.alloc given
  have away : ∀ r ∈ waiting, r ≠ req := by
    rintro r waits rfl
    exact unused (booked.inUse r waits)
  have older : ∀ r ∈ waiting, a.holder r ≠ a.asked.length := fun r waits equal => by
    have := booked.holder_lt waits
    omega
  obtain ⟨unwritten, unfreed⟩ := booked.known a.asked.length le_rfl
  exact {
    pooled := ⟨pooled.used, pooled.free, pooled.apart⟩
    apart := List.nodup_cons.mpr ⟨fun waits => away req waits rfl, booked.apart⟩
    inUse := fun r waits => by
      rcases List.mem_cons.mp waits with rfl | waits
      · exact List.mem_cons_self
      · exact List.mem_cons_of_mem _ (booked.inUse r waits)
    single := fun r waits r' waits' equal => by
      rcases List.mem_cons.mp waits with rfl | old
      · rcases List.mem_cons.mp waits' with rfl | old'
        · rfl
        · rw [holder_arrive_self, holder_arrive (away r' old')] at equal
          exact absurd equal.symm (older r' old')
      · rcases List.mem_cons.mp waits' with rfl | old'
        · rw [holder_arrive_self, holder_arrive (away r old)] at equal
          exact absurd equal (older r old)
        · rw [holder_arrive (away r old), holder_arrive (away r' old')] at equal
          exact booked.single r old r' old' equal
    asked := fun r waits => by
      rcases List.mem_cons.mp waits with rfl | waits
      · refine ⟨kind, counts, ?_⟩
        rw [holder_arrive_self, Function.update_self, Account.arrive]
        exact List.getElem?_concat_length
      · obtain ⟨k, counts', found⟩ := booked.asked r waits
        refine ⟨k, counts', ?_⟩
        rw [holder_arrive (away r waits), Function.update_of_ne (away r waits)]
        exact asked_arrive found
    opened := fun r waits => by
      rcases List.mem_cons.mp waits with rfl | waits
      · rw [holder_arrive_self, Function.update_self, Function.update_self]
        exact ⟨unwritten, unfreed⟩
      · rw [holder_arrive (away r waits), Function.update_of_ne (away r waits),
          Function.update_of_ne (away r waits)]
        exact booked.opened r waits
    closed := fun id k src found counts outside => by
      rcases asked_arrive_cases found with old | ⟨rfl, -, -⟩
      · refine booked.closed id k src old counts fun r waits => ?_
        have other := outside r (List.mem_cons_of_mem _ waits)
        rwa [holder_arrive (away r waits)] at other
      · exact absurd holder_arrive_self (outside req List.mem_cons_self)
    known := fun id unknown => by
      refine booked.known id ?_
      have longer : (a.asked ++ [(kind, session)]).length ≤ id := unknown
      rw [List.length_append] at longer
      omega }

/-- An arrival of a kind that does not count. -/
theorem Booked.arrive_uncounted {fresh : Nat}
    (booked : Booked answers counted a waiting source answered)
    (given : a.allocPara fresh = some (req, after)) {kind : κ} (session : Nat)
    (uncounted : ¬ counted kind) :
    Booked answers counted (after.arrive req kind session) waiting source answered := by
  obtain ⟨unused, pooled, rest, rfl⟩ := booked.pooled.alloc given
  have away : ∀ r ∈ waiting, r ≠ req := by
    rintro r waits rfl
    exact unused (booked.inUse r waits)
  exact {
    pooled := ⟨pooled.used, pooled.free, pooled.apart⟩
    apart := booked.apart
    inUse := fun r waits => List.mem_cons_of_mem _ (booked.inUse r waits)
    single := fun r waits r' waits' equal => by
      rw [holder_arrive (away r waits), holder_arrive (away r' waits')] at equal
      exact booked.single r waits r' waits' equal
    asked := fun r waits => by
      obtain ⟨k, counts, found⟩ := booked.asked r waits
      refine ⟨k, counts, ?_⟩
      rw [holder_arrive (away r waits)]
      exact asked_arrive found
    opened := fun r waits => by
      rw [holder_arrive (away r waits)]
      exact booked.opened r waits
    closed := fun id k src found counts outside => by
      rcases asked_arrive_cases found with old | ⟨-, rfl, -⟩
      · refine booked.closed id k src old counts fun r waits => ?_
        have other := outside r waits
        rwa [holder_arrive (away r waits)] at other
      · exact absurd counts uncounted
    known := fun id unknown => by
      refine booked.known id ?_
      have longer : (a.asked ++ [(kind, session)]).length ≤ id := unknown
      rw [List.length_append] at longer
      omega }

/-- A number whose kind does not count. -/
def Uncounted (counted : κ → Prop) (a : Account κ μ) (id : Nat) : Prop :=
  ∃ kind src, a.asked[id]? = some (kind, src) ∧ ¬ counted kind

theorem Uncounted.off {id src : Nat} {kind : κ} (uncounted : Uncounted counted a id)
    (found : a.asked[id]? = some (kind, src)) : ¬ counted kind := by
  obtain ⟨kind', src', found', off⟩ := uncounted
  have equal := found'.symm.trans found
  obtain ⟨rfl, -⟩ := Prod.mk.inj (Option.some.inj equal)
  exact off

theorem Uncounted.lt {id : Nat} (uncounted : Uncounted counted a id) : id < a.asked.length := by
  obtain ⟨kind, src, found, -⟩ := uncounted
  exact (List.getElem?_eq_some_iff.mp found).1

theorem Booked.uncounted_ne (booked : Booked answers counted a waiting source answered) {id r : Nat}
    (uncounted : Uncounted counted a id) (waits : r ∈ waiting) : a.holder r ≠ id := by
  rintro rfl
  obtain ⟨kind, counts, found⟩ := booked.asked r waits
  exact uncounted.off found counts

/-- The answer to a number that does not count. -/
theorem Booked.write_uncounted (booked : Booked answers counted a waiting source answered)
    {id session : Nat} {message : μ} (uncounted : Uncounted counted a id)
    (about : answers message = some id) :
    Booked answers counted (a.write session message) waiting source answered := by
  have same : ∀ i, i ≠ id →
      writes answers (a.write session message).log i = writes answers a.log i := by
    intro i away
    rw [writes_log_write, about, if_neg, List.append_nil]
    exact fun equal => away (Option.some.inj equal).symm
  refine booked.written (fun r waits => ?_) (fun i kind src found counts outside => ?_)
    fun i unknown => ?_
  · rw [same _ (booked.uncounted_ne uncounted waits)]
    exact (booked.opened r waits).1
  · refine same i ?_
    rintro rfl
    exact uncounted.off found counts
  · refine same i ?_
    rintro rfl
    exact absurd uncounted.lt (Nat.not_lt.mpr unknown)

/-- The release of an object whose number does not count. -/
theorem Booked.free_uncounted (booked : Booked answers counted a waiting source answered)
    (uncounted : Uncounted counted a (a.holder req)) (inUse : req ∈ a.used)
    (outside : req ∉ waiting) :
    Booked answers counted (a.freePara req) waiting source answered := by
  have freed : ∀ id, id ≠ a.holder req → frees (a.freePara req).log id = frees a.log id := by
    intro id away
    rw [frees_log_free, if_neg (Ne.symm away), Nat.add_zero]
  exact {
    pooled := booked.pooled.free_para inUse
    apart := booked.apart
    inUse := fun r waits => (mem_used_freePara booked.pooled).mpr
      ⟨fun equal => outside (equal ▸ waits), booked.inUse r waits⟩
    single := booked.single
    asked := booked.asked
    opened := fun r waits => by
      obtain ⟨written, unfreed⟩ := booked.opened r waits
      have away : a.holder r ≠ a.holder req := booked.uncounted_ne uncounted waits
      exact ⟨writes_log_free.trans written, (freed _ away).trans unfreed⟩
    closed := fun i kind src found counts outside => by
      rw [writes_log_free, freed]
      · exact booked.closed i kind src found counts outside
      · rintro rfl
        exact uncounted.off found counts
    known := fun i unknown => by
      rw [writes_log_free, freed]
      · exact booked.known i unknown
      · rintro rfl
        exact absurd uncounted.lt (Nat.not_lt.mpr unknown) }

/-- An arrival that is answered at once. -/
theorem Booked.refuse {fresh : Nat} (booked : Booked answers counted a waiting source answered)
    (given : a.allocPara fresh = some (req, after)) {kind : κ} (counts : counted kind)
    (session : Nat) {message : μ}
    (about : answers message = some a.asked.length) (uiActive : Nat → Nat) :
    Booked answers counted
      ((({ after.arrive req kind session with uiActive := uiActive }.write session
        message).sessionIdle session).freePara req) waiting source answered := by
  have unused := (booked.pooled.alloc given).1
  have away : ∀ r ∈ waiting, r ≠ req := by
    rintro r waits rfl
    exact unused (booked.inUse r waits)
  have number : (after.arrive req kind session).holder req = a.asked.length := by
    obtain ⟨-, -, rest, equal⟩ := booked.pooled.alloc given
    rw [holder_arrive_self, equal]
  rw [← number] at about
  have done := ((booked.arrive given counts session).recount uiActive after.held).settle
    (Function.update_self _ _ _) about session
  rw [Function.update_self] at done
  exact done.congr (fun r waits => Function.update_of_ne (away r waits) _ _)
    (fun r waits => Function.update_of_ne (away r waits) _ _)

end RequestLedger
