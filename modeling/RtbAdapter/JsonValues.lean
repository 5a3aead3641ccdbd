import RtbAdapter.CText

/-!
# Parsed JSON

The values of the JSON library and the accessors the orders are read with. An
accessor used on a value of another kind throws or fails an assertion, which
ends the process: this is `none`.
-/

namespace JsonValues

open ByteWords CText

inductive JsonValue where
  | null
  | int (n : Int)
  | uint (n : Nat)
  | real (x : Rat)
  | string (s : Bytes)
  | bool (b : Bool)
  | array (items : List JsonValue)
  | object (members : List (Bytes × JsonValue))

namespace JsonValue

def isMember (value : JsonValue) (key : String) : Option Bool :=
  match value with
  | null => some false
  | object members => some (members.lookup (ascii key)).isSome
  | _ => none

/-- `operator[]` with a key. -/
def field (value : JsonValue) (key : String) : Option JsonValue :=
  match value with
  | null => some null
  | object members => some ((members.lookup (ascii key)).getD null)
  | _ => none

/-- `operator[]` with an index. -/
def nth (value : JsonValue) (index : Nat) : Option JsonValue :=
  match value with
  | null => some null
  | array items => some (items[index]?.getD null)
  | _ => none

def size : JsonValue → Nat
  | array items => items.length
  | object members => members.length
  | _ => 0

/-- What a loop over the indices below `size` sees. -/
def items (value : JsonValue) : Option (List JsonValue) := (List.range value.size).mapM value.nth

def maxInt : Nat := 2 ^ 31 - 1

def asInt : JsonValue → Option Int
  | null => some 0
  | int n => some n
  | uint n => if n < maxInt then some n else none
  | real x => if -2 ^ 31 ≤ x ∧ x ≤ maxInt then some (x.num.tdiv x.den) else none
  | bool b => some (if b then 1 else 0)
  | _ => none

/-- `asInt` where its result is stored in a `UINT`. -/
def asUINT (value : JsonValue) : Option UInt32 :=
  value.asInt.map fun n => UInt32.ofNat (toUInt32 n)

def asString : JsonValue → Option Bytes
  | null => some []
  | string s => some (cStr s)
  | bool b => some (ascii (if b then "true" else "false"))
  | _ => none

def asDouble : JsonValue → Option Rat
  | null => some 0
  | int n => some n
  | uint n => some n
  | real x => some x
  | bool b => some (if b then 1 else 0)
  | _ => none

/-- A member that is read only when it is there. -/
def optional {α : Type} (value : JsonValue) (key : String) (absent : α)
    (read : JsonValue → Option α) : Option α := do
  if ← value.isMember key then read (← value.field key) else return absent

def uints (value : JsonValue) : Option (List UInt32) := do (← value.items).mapM asUINT

def strings (value : JsonValue) : Option (List Bytes) := do (← value.items).mapM asString

end JsonValue

theorem mapM_cons_eq_some {α β : Type} {f : α → Option β} {x : α} {xs : List α} {ys : List β} :
    (x :: xs).mapM f = some ys ↔
      ∃ y rest, f x = some y ∧ xs.mapM f = some rest ∧ ys = y :: rest := by
  rw [List.mapM_cons]
  cases f x with
  | none => simp
  | some y =>
    cases xs.mapM f with
    | none => simp
    | some rest => simp [eq_comm]

theorem items_array (items : List JsonValue) : (JsonValue.array items).items = some items := by
  have each : (List.range items.length).mapM (JsonValue.array items).nth =
      some ((List.range items.length).map fun i => items[i]?.getD .null) := by
    generalize List.range items.length = indices
    induction indices with
    | nil => rfl
    | cons i rest ih =>
      rw [List.mapM_cons, ih]
      rfl
  rw [JsonValue.items, JsonValue.size, each]
  refine congrArg some (List.ext_getElem (by simp) fun i below below' => ?_)
  simp [below']

end JsonValues
