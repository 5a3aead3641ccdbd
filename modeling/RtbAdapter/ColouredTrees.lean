import Mathlib.Data.List.Basic
import Mathlib.Tactic.Common

/-!
# Trees with two colours

A tree is sound for a height when all ways down meet as many black nodes, and no red node has a
red child. A place in a tree is a subtree with the frames above it, the nearest first; sides are
mirror images, and what is said of one side is said of both.
-/

namespace ColouredTrees

universe u

inductive Colour where
  | red | black
  deriving DecidableEq

inductive Side where
  | left | right
  deriving DecidableEq

def Side.opposite : Side → Side
  | .left => .right
  | .right => .left

inductive ColouredTree (α : Type u) where
  | null
  | node (colour : Colour) (left : ColouredTree α) (entry : α) (right : ColouredTree α)
  deriving DecidableEq

/-- A node above a place, without the subtree on its side. -/
structure Frame (α : Type u) where
  side : Side
  colour : Colour
  entry : α
  sibling : ColouredTree α

variable {α : Type u}

namespace ColouredTree

def colour : ColouredTree α → Colour
  | null => .black
  | node colour _ _ _ => colour

def paint (colour : Colour) : ColouredTree α → ColouredTree α
  | null => null
  | node _ left entry right => node colour left entry right

/-- A node with the subtree on a side, and the one across. -/
def join (side : Side) (colour : Colour) (near : ColouredTree α) (entry : α)
    (far : ColouredTree α) : ColouredTree α :=
  match side with
  | .left => node colour near entry far
  | .right => node colour far entry near

def toList : ColouredTree α → List α
  | null => []
  | node _ left entry right => left.toList ++ entry :: right.toList

/-- All ways down meet `h` black nodes, and no red node has a red child. -/
def Sound : ColouredTree α → Nat → Prop
  | null, h => h = 0
  | node .red left _ right, h =>
    (left.colour = .black ∧ right.colour = .black) ∧ left.Sound h ∧ right.Sound h
  | node .black left _ right, h => ∃ k, h = k + 1 ∧ left.Sound k ∧ right.Sound k

end ColouredTree

open ColouredTree

def Frame.plug (tree : ColouredTree α) (f : Frame α) : ColouredTree α :=
  join f.side f.colour tree f.entry f.sibling

def plug (tree : ColouredTree α) (path : List (Frame α)) : ColouredTree α :=
  path.foldl Frame.plug tree

/-- What stands before a place, and after it. -/
def before : List (Frame α) → List α
  | [] => []
  | f :: path =>
    match f.side with
    | .left => before path
    | .right => before path ++ f.sibling.toList ++ [f.entry]

def after : List (Frame α) → List α
  | [] => []
  | f :: path =>
    match f.side with
    | .left => f.entry :: f.sibling.toList ++ after path
    | .right => after path

/-- The root has to be black, like a child of a red node. -/
def above : List (Frame α) → Colour
  | [] => .red
  | f :: _ => f.colour

/-- The place of a subtree of height `h` in a sound tree. -/
def Fits : List (Frame α) → Nat → Prop
  | [], _ => True
  | f :: path, h => f.sibling.Sound h ∧
    match f.colour with
    | .red => f.sibling.colour = .black ∧ above path = .black ∧ Fits path h
    | .black => Fits path (h + 1)

/-- A subtree at its place. -/
structure Placed (tree : ColouredTree α) (path : List (Frame α)) (h : Nat) : Prop where
  sound : tree.Sound h
  fits : Fits path h
  colour : above path = .red → tree.colour = .black

structure Valid (tree : ColouredTree α) : Prop where
  sound : ∃ h, tree.Sound h
  root : tree.colour = .black

variable {side : Side} {colour : Colour} {near far tree : ColouredTree α} {entry : α} {h : Nat}
  {path : List (Frame α)}

@[simp] theorem join_colour : (join side colour near entry far).colour = colour := by
  cases side <;> rfl

@[simp] theorem join_paint (other : Colour) :
    (join side colour near entry far).paint other = join side other near entry far := by
  cases side <;> rfl

@[simp] theorem join_inj {other : Colour} {near' far' : ColouredTree α} {entry' : α} :
    join side colour near entry far = join side other near' entry' far' ↔
      colour = other ∧ near = near' ∧ entry = entry' ∧ far = far' := by
  cases side
  · simp [join]
  · simp only [join, node.injEq]
    tauto

@[simp] theorem join_ne_null : join side colour near entry far ≠ null := by
  cases side <;> simp [join]

@[simp] theorem sound_red : (join side .red near entry far).Sound h ↔
    (near.colour = .black ∧ far.colour = .black) ∧ near.Sound h ∧ far.Sound h := by
  cases side
  · rfl
  · rw [and_comm (a := near.colour = _), and_comm (a := near.Sound h)]
    rfl

@[simp] theorem sound_black : (join side .black near entry far).Sound (h + 1) ↔
    near.Sound h ∧ far.Sound h := by
  cases side <;> simp [join, Sound, and_comm]

/-- A node by its children on the two sides. -/
theorem exists_join (side : Side) (other : tree ≠ null) :
    ∃ colour near entry far, tree = join side colour near entry far := by
  cases tree with
  | null => exact absurd rfl other
  | node colour left entry right =>
    cases side
    · exact ⟨colour, left, entry, right, rfl⟩
    · exact ⟨colour, right, entry, left, rfl⟩

/-- A black node has a level below it. -/
theorem sound_black_iff : (join side .black near entry far).Sound h ↔
    ∃ k, h = k + 1 ∧ near.Sound k ∧ far.Sound k := by
  cases side <;> simp [join, Sound, and_comm]

theorem sound_ne_null (sound : tree.Sound (h + 1)) : tree ≠ null := by
  rintro rfl
  exact absurd sound (Nat.succ_ne_zero h)

theorem sound_zero (sound : tree.Sound 0) (black : tree.colour = .black) : tree = null := by
  cases tree with
  | null => rfl
  | node colour left entry right =>
    cases colour with
    | red => cases black
    | black =>
      obtain ⟨k, level, -⟩ := sound
      cases level

/-- A red root becomes black, and the tree is higher. -/
theorem sound_paint (sound : tree.Sound h) (red : tree.colour = .red) :
    (tree.paint .black).Sound (h + 1) := by
  cases tree with
  | null => cases red
  | node colour left entry right =>
    cases colour with
    | red => exact ⟨h, rfl, sound.2⟩
    | black => cases red

@[simp] theorem paint_toList (colour : Colour) : (tree.paint colour).toList = tree.toList := by
  cases tree <;> rfl

theorem paint_self (same : tree.colour = colour) : tree.paint colour = tree := by
  cases tree with
  | null => rfl
  | node other left entry right =>
    cases same
    rfl

@[simp] theorem paint_colour : (tree.paint .black).colour = .black := by
  cases tree <;> rfl

/-- A tree that is painted black is valid. -/
theorem valid_paint (sound : tree.Sound h) : Valid (tree.paint .black) := by
  refine ⟨?_, paint_colour⟩
  cases colour : tree.colour with
  | red => exact ⟨h + 1, sound_paint sound colour⟩
  | black => exact ⟨h, (paint_self colour).symm ▸ sound⟩

theorem placed_plug {f : Frame α} (placed : Placed tree (f :: path) h) :
    ∃ k, Placed (f.plug tree) path k := by
  obtain ⟨sound, ⟨sibling, fits⟩, black⟩ := placed
  obtain ⟨side, colour, entry, far⟩ := f
  cases colour with
  | red =>
    obtain ⟨calm, parent, fits⟩ := fits
    exact ⟨h, sound_red.mpr ⟨⟨black rfl, calm⟩, sound, sibling⟩, fits,
      fun red => absurd (parent.symm.trans red) (by decide)⟩
  | black => exact ⟨h + 1, sound_black.mpr ⟨sound, sibling⟩, fits, fun _ => join_colour⟩

/-- A subtree at its place makes the whole tree valid. -/
theorem Placed.valid (placed : Placed tree path h) : Valid (plug tree path) := by
  induction path generalizing tree h with
  | nil => exact ⟨⟨h, placed.sound⟩, placed.colour rfl⟩
  | cons f path ih =>
    obtain ⟨k, placed⟩ := placed_plug placed
    exact ih placed

theorem Valid.placed (valid : Valid tree) : ∃ h, Placed tree [] h := by
  obtain ⟨⟨h, sound⟩, root⟩ := valid
  exact ⟨h, sound, trivial, fun _ => root⟩

/-- Down to a child. -/
theorem Placed.down (placed : Placed (join side colour near entry far) path h) :
    ∃ k, Placed near (⟨side, colour, entry, far⟩ :: path) k := by
  obtain ⟨sound, fits, black⟩ := placed
  cases colour with
  | red =>
    obtain ⟨⟨calm, calm'⟩, near', far'⟩ := sound_red.mp sound
    have parent : above path = .black := by
      cases colour : above path with
      | red => exact absurd ((black colour).symm.trans join_colour) (by decide)
      | black => rfl
    exact ⟨h, near', ⟨far', calm', parent, fits⟩, fun _ => calm⟩
  | black =>
    obtain ⟨k, rfl, near', far'⟩ := sound_black_iff.mp sound
    exact ⟨k, near', ⟨far', fits⟩, fun red => Colour.noConfusion red⟩

/-- A place does not depend on the entries above it. -/
theorem placed_entry {inner : List (Frame α)} {sibling : ColouredTree α} (other : α)
    (placed : Placed tree (inner ++ ⟨side, colour, entry, sibling⟩ :: path) h) :
    Placed tree (inner ++ ⟨side, colour, other, sibling⟩ :: path) h := by
  have same (inner : List (Frame α)) : above (inner ++ ⟨side, colour, other, sibling⟩ :: path) =
      above (inner ++ ⟨side, colour, entry, sibling⟩ :: path) := by
    cases inner <;> rfl
  obtain ⟨sound, fits, black⟩ := placed
  refine ⟨sound, ?_, fun red => black ((same inner).symm.trans red)⟩
  clear sound black
  induction inner generalizing h with
  | nil => exact fits
  | cons f inner ih =>
    obtain ⟨near, colour', entry', far⟩ := f
    cases colour' with
    | red => exact ⟨fits.1, fits.2.1, (same inner).trans fits.2.2.1, ih fits.2.2.2⟩
    | black => exact ⟨fits.1, ih fits.2⟩

theorem before_append (inner upper : List (Frame α)) :
    before (inner ++ upper) = before upper ++ before inner := by
  induction inner with
  | nil => simp [before]
  | cons f inner ih =>
    rw [List.cons_append, before, before]
    cases f.side <;> simp [ih]

theorem after_append (inner upper : List (Frame α)) :
    after (inner ++ upper) = after inner ++ after upper := by
  induction inner with
  | nil => simp [after]
  | cons f inner ih =>
    rw [List.cons_append, after, after]
    cases f.side <;> simp [ih]

theorem toList_plug (tree : ColouredTree α) (path : List (Frame α)) :
    (plug tree path).toList = before path ++ tree.toList ++ after path := by
  induction path generalizing tree with
  | nil => simp [plug, before, after]
  | cons f path ih =>
    obtain ⟨side, colour, entry, sibling⟩ := f
    have next := ih (join side colour tree entry sibling)
    rw [plug, List.foldl_cons]
    refine next.trans ?_
    cases side <;> simp [join, toList, before, after]

end ColouredTrees
