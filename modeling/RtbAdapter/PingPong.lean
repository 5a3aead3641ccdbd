import Mathlib.Tactic

/-!
# A buffer with a visible and a back half

`Get` and `GetBack` name one half each, `Switch` exchanges the names.
-/

namespace PingPong

structure AdPingPongBuffer (α : Type) where
  requestA : α
  requestB : α
  first : Bool := false

namespace AdPingPongBuffer

variable {α : Type} (buffer : AdPingPongBuffer α) (x : α)

def get : α := if buffer.first then buffer.requestA else buffer.requestB

def getBack : α := if buffer.first then buffer.requestB else buffer.requestA

def switch : AdPingPongBuffer α := { buffer with first := !buffer.first }

/-- Writing through the reference that `Get` returns. -/
def set : AdPingPongBuffer α :=
  if buffer.first then { buffer with requestA := x } else { buffer with requestB := x }

def setBack : AdPingPongBuffer α :=
  if buffer.first then { buffer with requestB := x } else { buffer with requestA := x }

@[simp] theorem get_switch : buffer.switch.get = buffer.getBack := by
  cases h : buffer.first <;> simp [switch, get, getBack, h]

@[simp] theorem getBack_switch : buffer.switch.getBack = buffer.get := by
  cases h : buffer.first <;> simp [switch, get, getBack, h]

@[simp] theorem get_set : (buffer.set x).get = x := by
  cases h : buffer.first <;> simp [set, get, h]

@[simp] theorem getBack_set : (buffer.set x).getBack = buffer.getBack := by
  cases h : buffer.first <;> simp [set, getBack, h]

@[simp] theorem get_setBack : (buffer.setBack x).get = buffer.get := by
  cases h : buffer.first <;> simp [setBack, get, h]

@[simp] theorem getBack_setBack : (buffer.setBack x).getBack = x := by
  cases h : buffer.first <;> simp [setBack, getBack, h]

/-- A half, which a switch leaves where it is. -/
def half (a : Bool) : α := if a then buffer.requestA else buffer.requestB

theorem half_first : buffer.half buffer.first = buffer.get := rfl

theorem half_not_first : buffer.half (!buffer.first) = buffer.getBack := by
  cases h : buffer.first <;> simp [half, getBack, h]

@[simp] theorem half_switch (a : Bool) : buffer.switch.half a = buffer.half a := rfl

theorem half_setBack (a : Bool) :
    (buffer.setBack x).half a = if a = buffer.first then buffer.half a else x := by
  cases h : buffer.first <;> cases a <;> simp [setBack, half, h]

@[simp] theorem first_setBack : (buffer.setBack x).first = buffer.first := by
  cases h : buffer.first <;> simp [setBack, h]

end AdPingPongBuffer

end PingPong
