import Mathlib.Tactic
import RtbAdapter.HeldCounts

/-!
# Requests, their objects and their sessions

What the servers share: the activity counts of the sessions, the ring buffer of
released request objects, and the account that is kept of a run. Requests are
numbered as they arrive, an object stands for the number it was given last, and
what is written and released is logged under the numbers.
-/

namespace RequestAccounts

open HeldCounts

inductive Event (μ : Type) where
  | write (session : Nat) (message : μ)
  | free (id : Nat)
  deriving DecidableEq

/-- Room in the ring buffer of released objects. -/
def freeParaMax : Nat := 4096 * 400 - 1

structure Account (κ μ : Type) where
  uiActive : Nat → Nat
  ctFreePara : List Nat
  used : List Nat
  holder : Nat → Nat
  asked : List (κ × Nat)
  held : Nat → Nat
  log : List (Event μ)

namespace Account

variable {κ μ : Type}

def write (a : Account κ μ) (session : Nat) (message : μ) : Account κ μ :=
  { a with log := a.log ++ [.write session message] }

def sessionActive (a : Account κ μ) (session : Nat) : Account κ μ :=
  { a with uiActive := active a.uiActive session }

def sessionIdle (a : Account κ μ) (session : Nat) : Account κ μ :=
  { a with uiActive := idle a.uiActive session }

/-- A released object, or a new one at an address not in use. -/
def allocPara (a : Account κ μ) (fresh : Nat) : Option (Nat × Account κ μ) :=
  match a.ctFreePara with
  | req :: rest => some (req, { a with ctFreePara := rest, used := req :: a.used })
  | [] => if fresh ∈ a.used then none else some (fresh, { a with used := fresh :: a.used })

def freePara (a : Account κ μ) (req : Nat) : Account κ μ :=
  { a with
    ctFreePara := if a.ctFreePara.length < freeParaMax then a.ctFreePara ++ [req]
      else a.ctFreePara
    used := a.used.erase req
    log := a.log ++ [.free (a.holder req)] }

/-- The next number goes to an arrival. -/
def arrive (a : Account κ μ) (req : Nat) (kind : κ) (session : Nat) : Account κ μ :=
  { a with
    holder := Function.update a.holder req a.asked.length
    asked := a.asked ++ [(kind, session)] }

/-- The sessions to which messages about a number were written. -/
def writes (about : μ → Option Nat) (log : List (Event μ)) (id : Nat) : List Nat :=
  log.filterMap fun
    | .write session message => if about message = some id then some session else none
    | .free _ => none

/-- How often the object of a number was released. -/
def frees (log : List (Event μ)) (id : Nat) : Nat :=
  log.countP fun
    | .write _ _ => false
    | .free i => i = id

variable {about : μ → Option Nat} {log more : List (Event μ)} {id : Nat} {a after : Account κ μ}
  {req : Nat}

theorem writes_append :
    writes about (log ++ more) id = writes about log id ++ writes about more id :=
  List.filterMap_append

theorem frees_append : frees (log ++ more) id = frees log id + frees more id :=
  List.countP_append

theorem writes_write {session : Nat} {message : μ} :
    writes about [.write session message] id =
      if about message = some id then [session] else [] := by
  rw [writes, List.filterMap_cons]
  split <;> simp_all

@[simp] theorem writes_free {i : Nat} : writes about [.free i] id = [] := rfl

@[simp] theorem frees_write {session : Nat} {message : μ} :
    frees [.write session message] id = 0 := rfl

theorem frees_free {i : Nat} : frees ([.free i] : List (Event μ)) id = if i = id then 1 else 0 := by
  by_cases same : i = id <;> simp [frees, same]

/-- What one operation adds to the log. -/
theorem writes_log_write {session : Nat} {message : μ} :
    writes about (a.write session message).log id =
      writes about a.log id ++ if about message = some id then [session] else [] := by
  rw [write, writes_append, writes_write]

theorem frees_log_write {session : Nat} {message : μ} :
    frees (a.write session message).log id = frees a.log id := by
  rw [write, frees_append, frees_write, Nat.add_zero]

theorem writes_log_free : writes about (a.freePara req).log id = writes about a.log id := by
  rw [freePara, writes_append, writes_free, List.append_nil]

theorem frees_log_free :
    frees (a.freePara req).log id = frees a.log id + if a.holder req = id then 1 else 0 := by
  rw [freePara, frees_append, frees_free]

/-- Objects in use and released objects are apart. -/
structure Pooled (a : Account κ μ) : Prop where
  used : a.used.Nodup
  free : a.ctFreePara.Nodup
  apart : ∀ req ∈ a.ctFreePara, req ∉ a.used

theorem Pooled.alloc {fresh : Nat} (pooled : Pooled a)
    (given : a.allocPara fresh = some (req, after)) :
    req ∉ a.used ∧ Pooled after ∧
      ∃ rest, after = { a with ctFreePara := rest, used := req :: a.used } := by
  rw [allocPara] at given
  split at given
  · next first rest front =>
    obtain ⟨rfl, rfl⟩ := Prod.mk.inj (Option.some.inj given)
    have unused := pooled.apart first (by rw [front]; exact List.mem_cons_self)
    have free := pooled.free
    rw [front, List.nodup_cons] at free
    refine ⟨unused, ⟨List.nodup_cons.mpr ⟨unused, pooled.used⟩, free.2, ?_⟩, rest, rfl⟩
    intro other among
    have outside := pooled.apart other (by rw [front]; exact List.mem_cons_of_mem _ among)
    rw [List.mem_cons, not_or]
    refine ⟨?_, outside⟩
    rintro rfl
    exact free.1 among
  · next front =>
    split at given
    · exact absurd given (by simp)
    · next unused =>
      obtain ⟨rfl, rfl⟩ := Prod.mk.inj (Option.some.inj given)
      refine ⟨unused, ⟨List.nodup_cons.mpr ⟨unused, pooled.used⟩, pooled.free, ?_⟩,
        a.ctFreePara, rfl⟩
      intro other among
      rw [show a.ctFreePara = [] from front] at among
      exact absurd among (by simp)

theorem mem_used_freePara (pooled : Pooled a) {r : Nat} :
    r ∈ (a.freePara req).used ↔ r ≠ req ∧ r ∈ a.used :=
  pooled.used.mem_erase_iff

theorem Pooled.free_para (pooled : Pooled a) (inUse : req ∈ a.used) : Pooled (a.freePara req) := by
  have inside : ∀ r ∈ (a.freePara req).ctFreePara, r ∈ a.ctFreePara ∨ r = req := by
    intro r among
    rw [freePara] at among
    dsimp only at among
    split at among
    · simpa using among
    · exact .inl among
  refine ⟨pooled.used.erase req, ?_, ?_⟩
  · rw [freePara]
    dsimp only
    split
    · rw [List.nodup_append]
      refine ⟨pooled.free, List.nodup_singleton req, ?_⟩
      intro one among two last
      rw [List.mem_singleton] at last
      subst last
      rintro rfl
      exact pooled.apart one among inUse
    · exact pooled.free
  · intro r among
    rw [mem_used_freePara pooled]
    rcases inside r among with old | rfl
    · exact fun found => pooled.apart r old found.2
    · exact fun found => found.1 rfl

/-- The log is about numbers that were given out. -/
def Known (about : μ → Option Nat) (a : Account κ μ) : Prop :=
  ∀ id, a.asked.length ≤ id → writes about a.log id = [] ∧ frees a.log id = 0

end Account

end RequestAccounts
