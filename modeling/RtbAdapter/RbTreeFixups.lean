import RtbAdapter.RbTree

/-!
# The repairs of the red-black tree

An insertion leaves a red node below a red one at most, and a deletion one black node too few at
most. Both loops move the fault up until a rotation ends it, and keep the order of the entries.
-/

namespace RbTree

open ColouredTrees
open ColouredTree (join)

variable {side : Side} {c rc : Colour} {near far rnear rfar node subst left right : Node}
  {entry rentry : Entry} {h : Nat} {path : Parents} {p g : Frame Entry}

@[simp] theorem rotate_join :
    rotate side (join side c near entry (join side rc rnear rentry rfar)) =
      some (join side rc (join side c near entry rnear) rentry rfar) := by
  cases side <;> rfl

/-- The rotation to the other side. -/
@[simp] theorem rotate_opposite :
    rotate side.opposite (join side c (join side rc rfar rentry rnear) entry near) =
      some (join side rc rfar rentry (join side c rnear entry near)) := by
  cases side <;> rfl

@[simp] theorem children_join : children side (join side c near entry far) =
    some (near, entry, far) := by
  cases side <;> rfl

theorem toList_plug_congr {other : Node} (same : node.toList = other.toList) :
    (plug node path).toList = (plug other path).toList := by
  rw [toList_plug, toList_plug, same]

theorem opposite_of_ne {other : Side} (differ : side ≠ other) : side = other.opposite := by
  cases side <;> cases other <;> first | rfl | exact absurd rfl differ

theorem join_opposite : join side.opposite c near entry far = join side c far entry near := by
  cases side <;> rfl

/-- The colours that an insertion changes up to the root. -/
def climbs : Parents → Bool
  | [] => true
  | [_] => false
  | p :: g :: path => p.colour = .red && g.sibling.colour = .red && climbs path

/-- The rotations at a red node below a red parent, whose sibling is black. -/
theorem rotations (sound : node.Sound h) (red : node.colour = .red)
    (fits : Fits (p :: g :: path) h) (parent : p.colour = .red)
    (uncle : g.sibling.colour = .black) : ∃ middle top,
    (if p.side = g.side then some (p.plug node) else rotate g.side (p.plug node)) = some middle ∧
    rotate g.side.opposite (join g.side .red (middle.paint .black) g.entry g.sibling) = some top ∧
    Placed top path (h + 1) ∧ top.toList = (g.plug (p.plug node)).toList := by
  obtain ⟨pside, pcolour, pentry, s⟩ := p
  obtain ⟨gside, gcolour, gentry, u⟩ := g
  cases parent
  obtain ⟨sibling, calm, black, uncle', fits⟩ := fits
  cases black
  by_cases same : pside = gside
  · subst same
    refine ⟨_, join pside .black node pentry (join pside .red s gentry u), if_pos rfl,
      by simp [Frame.plug], ⟨?_, fits, fun _ => join_colour⟩, ?_⟩
    · simp only [sound_black, sound_red]
      exact ⟨sound, ⟨calm, uncle⟩, sibling, uncle'⟩
    · cases pside <;> simp [Frame.plug, join, ColouredTree.toList]
  · obtain rfl := opposite_of_ne same
    obtain ⟨colour, near, entry, far, rfl⟩ := @exists_join _ node gside
      (fun null => by rw [null] at red; cases red)
    rw [join_colour] at red
    subst red
    obtain ⟨⟨near', far'⟩, nearSound, farSound⟩ := sound_red.mp sound
    refine ⟨_,
      join gside .black (join gside .red s pentry near) entry (join gside .red far gentry u),
      by rw [if_neg same, Frame.plug, join_opposite, rotate_join], by simp,
      ⟨?_, fits, fun _ => join_colour⟩, ?_⟩
    · simp only [sound_black, sound_red]
      exact ⟨⟨⟨calm, near'⟩, sibling, nearSound⟩, ⟨far', uncle⟩, farSound, uncle'⟩
    · cases gside <;> simp [Frame.plug, join, ColouredTree.toList, Side.opposite]

/-- The loop ends with a valid tree, unless the colours change up to a root whose parent pointer
is another one. -/
theorem rbtreeInsertFixup_eq (stale : Bool) : ∀ (path : Parents) (node : Node) (h : Nat),
    node.Sound h → node.colour = .red → Fits path h → ∃ root,
      rbtreeInsertFixup stale node path = (if stale ∧ climbs path then none else some root) ∧
      Valid root ∧ root.toList = (plug node path).toList
  | [], node, h, sound, _, _ =>
    ⟨node.paint .black, by simp [rbtreeInsertFixup, climbs], valid_paint sound, paint_toList _⟩
  | [p], node, h, sound, _, fits => by
    have black : p.colour = .black := by
      cases colour : p.colour with
      | red =>
        rw [Fits, colour] at fits
        exact absurd fits.2.2.1 (by decide)
      | black => rfl
    have placed : Placed node [p] h :=
      ⟨sound, fits, fun red => absurd (black.symm.trans red) (by decide)⟩
    obtain ⟨k, top⟩ := placed_plug placed
    exact ⟨(p.plug node).paint .black, by simp [rbtreeInsertFixup, climbs, black],
      valid_paint top.sound, paint_toList _⟩
  | p :: g :: path, node, h, sound, red, fits => by
    rw [rbtreeInsertFixup, climbs]
    cases colour : p.colour with
    | black =>
      have placed : Placed node (p :: g :: path) h :=
        ⟨sound, fits, fun red => absurd (colour.symm.trans red) (by decide)⟩
      obtain ⟨⟨k, whole⟩, -⟩ := placed.valid
      exact ⟨(plug node (p :: g :: path)).paint .black, by simp, valid_paint whole, paint_toList _⟩
    | red =>
      cases uncle : g.sibling.colour with
      | red =>
        -- the fault moves up by two nodes
        have fits' := fits
        rw [Fits, colour] at fits'
        obtain ⟨sibling, calm, black, uncle', grand⟩ := fits'
        change g.colour = .black at black
        rw [black] at grand
        have parent : ((p.plug node).paint .black).Sound (h + 1) := by
          rw [Frame.plug, join_paint]
          exact sound_black.mpr ⟨sound, sibling⟩
        obtain ⟨root, ended, valid, order⟩ := rbtreeInsertFixup_eq stale path
          (join g.side .red ((p.plug node).paint .black) g.entry (g.sibling.paint .black)) (h + 1)
          (sound_red.mpr ⟨⟨paint_colour, paint_colour⟩, parent, sound_paint uncle' uncle⟩)
          join_colour grand
        refine ⟨root, by simpa [uncle] using ended, valid, order.trans ?_⟩
        change (plug _ path).toList = (plug (g.plug (p.plug node)) path).toList
        refine toList_plug_congr ?_
        rw [Frame.plug.eq_def _ g]
        cases g.side <;> simp [join, ColouredTree.toList]
      | black =>
        obtain ⟨middle, top, first, second, placed, order⟩ :=
          rotations sound red fits colour uncle
        obtain ⟨⟨k, whole⟩, -⟩ := placed.valid
        refine ⟨(plug top path).paint .black, ?_, valid_paint whole, ?_⟩
        · by_cases same : p.side = g.side
          · rw [if_pos same, Option.some.injEq] at first
            subst first
            simp [uncle, same, second]
          · rw [if_neg same] at first
            simp [uncle, same, first, second]
        · rw [paint_toList]
          exact toList_plug_congr order

/-- A subtree that misses a black node: a red root can become one. -/
def Short (node : Node) (h : Nat) : Prop :=
  match node.colour with
  | .red => (node.paint .black).Sound (h + 1)
  | .black => node.Sound h

theorem short_red (red : node.colour = .red) :
    Short node h ↔ (node.paint .black).Sound (h + 1) := by
  rw [Short, red]

theorem short_black (black : node.colour = .black) : Short node h ↔ node.Sound h := by
  rw [Short, black]

theorem short_of_sound (sound : node.Sound h) : Short node h := by
  cases colour : node.colour with
  | red => exact (short_red colour).mpr (sound_paint sound colour)
  | black => exact (short_black colour).mpr sound

theorem Short.paint (short : Short node h) : Valid (node.paint .black) := by
  cases colour : node.colour with
  | red => exact ⟨⟨h + 1, (short_red colour).mp short⟩, paint_colour⟩
  | black => exact valid_paint ((short_black colour).mp short)

/-- A black sibling, with the parent and those above it, after a red one took the parent's place. -/
theorem redSibling_eq (node : Node) (fits : Fits (p :: path) (h + 1)) : ∃ q upper,
    redSibling p path = some (q, upper) ∧ q.sibling.colour = .black ∧
    Fits (q :: upper) (h + 1) ∧ (q.colour = .black → upper = path) ∧
    (plug node (q :: upper)).toList = (plug node (p :: path)).toList := by
  rw [redSibling]
  cases colour : p.sibling.colour with
  | black => exact ⟨p, path, by simp, colour, fits, fun _ => rfl, rfl⟩
  | red =>
    obtain ⟨side, pcolour, pentry, w⟩ := p
    obtain ⟨sibling, fits⟩ := fits
    cases pcolour with
    | red => exact absurd (colour.symm.trans fits.1) (by decide)
    | black =>
      obtain ⟨wcolour, near, entry, far, rfl⟩ := @exists_join _ w side
        (sound_ne_null sibling)
      obtain rfl : wcolour = .red := join_colour.symm.trans colour
      obtain ⟨⟨near', far'⟩, nearSound, farSound⟩ := sound_red.mp sibling
      refine ⟨⟨side, .red, pentry, near⟩, ⟨side, .black, entry, far⟩ :: path, by simp, near',
        ⟨nearSound, near', rfl, farSound, fits⟩, fun red => Colour.noConfusion red, ?_⟩
      change (plug (join side .black (join side .red node pentry near) entry far) path).toList =
        (plug (join side .black node pentry (join side .red near entry far)) path).toList
      refine toList_plug_congr ?_
      cases side <;> simp [join, ColouredTree.toList]

/-- Two black subtrees under a parent of the same colour. -/
theorem placed_join (entry : Entry) (fits : Fits (p :: path) h)
    (near' : near.colour = .black) (far' : far.colour = .black)
    (nearSound : near.Sound h) (farSound : far.Sound h) :
    ∃ k, Placed (join p.side p.colour near entry far) path k := by
  have placed : Placed near (⟨p.side, p.colour, entry, far⟩ :: path) h := by
    refine ⟨nearSound, ⟨farSound, ?_⟩, fun _ => near'⟩
    have rest := fits.2
    cases colour : p.colour with
    | red =>
      rw [colour] at rest
      exact ⟨far', rest.2⟩
    | black =>
      rw [colour] at rest
      exact rest
  exact placed_plug placed

/-- The rotations at a black sibling with a red child, the far one in the end. -/
theorem siblingRotations (sound : node.Sound h) (nearSound : near.Sound h)
    (farSound : far.Sound h) (nephew : ¬(near.colour = .black ∧ far.colour = .black))
    (fits : Fits (p :: path) (h + 1)) :
    ∃ near' entry' far' k,
      (if far.colour = .black then
        rotate p.side.opposite (join p.side .red (near.paint .black) entry far)
        else some (join p.side .black near entry far)) =
          some (join p.side .black near' entry' far') ∧
      Placed (join p.side p.colour (join p.side .black node p.entry near') entry'
        (far'.paint .black)) path k ∧
      (join p.side p.colour (join p.side .black node p.entry near') entry'
        (far'.paint .black)).toList =
          (join p.side p.colour node p.entry (join p.side .black near entry far)).toList := by
  cases colour : far.colour with
  | red =>
    obtain ⟨k, placed⟩ := @placed_join (join p.side .black node p.entry near)
      (far.paint .black) _ _ _ entry fits join_colour paint_colour
      (sound_black.mpr ⟨sound, nearSound⟩) (sound_paint farSound colour)
    refine ⟨near, entry, far, k, if_neg (by decide), placed, ?_⟩
    cases p.side <;> simp [join, ColouredTree.toList]
  | black =>
    have nearRed : near.colour = .red := by
      cases other : near.colour with
      | red => rfl
      | black => exact absurd ⟨other, colour⟩ nephew
    obtain ⟨ncolour, first, middle, second, rfl⟩ := @exists_join _ near p.side
      (fun null => by rw [null] at nearRed; cases nearRed)
    obtain rfl : ncolour = .red := join_colour.symm.trans nearRed
    obtain ⟨⟨first', second'⟩, firstSound, secondSound⟩ := sound_red.mp nearSound
    obtain ⟨k, placed⟩ := @placed_join (join p.side .black node p.entry first)
      (join p.side .black second entry far) _ _ _ middle fits join_colour join_colour
      (sound_black.mpr ⟨sound, firstSound⟩) (sound_black.mpr ⟨secondSound, farSound⟩)
    refine ⟨first, middle, join p.side .red second entry far, k, ?_, ?_, ?_⟩
    · rw [if_pos rfl, join_paint]
      cases p.side <;> rfl
    · rwa [join_paint]
    · cases p.side <;> simp [join, ColouredTree.toList]

/-- The loop ends with a valid tree. After a red sibling the node becomes red, so that the nodes
above bound the turns. -/
theorem rbtreeDeleteFixup_eq (fuel : Nat) (node : Node) (path : Parents) (h : Nat)
    (short : Short node h) (fits : Fits path (h + 1))
    (enough : node.colour = .black → path.length ≤ fuel) : ∃ root,
      rbtreeDeleteFixup fuel node path = some root ∧ Valid root ∧
      root.toList = (plug node path).toList := by
  cases path with
  | nil => exact ⟨node.paint .black, by cases fuel <;> rfl, short.paint, paint_toList _⟩
  | cons p path =>
    cases colour : node.colour with
    | red =>
      have placed : Placed (node.paint .black) (p :: path) (h + 1) :=
        ⟨(short_red colour).mp short, fits, fun _ => paint_colour⟩
      refine ⟨plug (node.paint .black) (p :: path), ?_, placed.valid, ?_⟩
      · cases fuel <;> simp [rbtreeDeleteFixup, colour]
      · exact toList_plug_congr (paint_toList _)
    | black =>
      cases fuel with
      | zero => exact absurd (enough colour) (Nat.not_succ_le_zero _)
      | succ fuel =>
        have sound := (short_black colour).mp short
        obtain ⟨q, upper, moved, calm, fits', same, order⟩ := redSibling_eq node fits
        have sibling := fits'.1
        obtain ⟨wcolour, near, entry, far, whole⟩ := exists_join q.side (sound_ne_null sibling)
        rw [whole, join_colour] at calm
        subst calm
        rw [whole] at sibling
        obtain ⟨nearSound, farSound⟩ := sound_black.mp sibling
        have order' : (plug node (q :: upper)).toList =
            (plug (join q.side q.colour node q.entry q.sibling) upper).toList := rfl
        rw [rbtreeDeleteFixup, if_neg (by rw [colour]; decide)]
        by_cases calm : near.colour = .black ∧ far.colour = .black
        · -- the parent misses the black node now
          have sound' : (q.sibling.paint .red).Sound h := by
            rw [whole, join_paint]
            exact sound_red.mpr ⟨calm, nearSound, farSound⟩
          have next : ∃ k, Short (join q.side q.colour node q.entry (q.sibling.paint .red)) k ∧
              Fits upper (k + 1) := by
            have rest := fits'.2
            cases level : q.colour with
            | red =>
              rw [level] at rest
              refine ⟨h, (short_red join_colour).mpr ?_, rest.2.2⟩
              rw [join_paint]
              exact sound_black.mpr ⟨sound, sound'⟩
            | black =>
              rw [level] at rest
              exact ⟨h + 1, short_of_sound (sound_black.mpr ⟨sound, sound'⟩), rest⟩
          obtain ⟨k, short', rest⟩ := next
          obtain ⟨root, ended, valid, order''⟩ := rbtreeDeleteFixup_eq fuel _ upper k short' rest
            fun black => by
              rw [same (join_colour.symm.trans black)]
              exact Nat.le_of_succ_le_succ (enough colour)
          refine ⟨root, ?_, valid, order''.trans ?_⟩
          · simpa [moved, whole, calm] using ended
          · rw [← order, order']
            refine toList_plug_congr ?_
            cases q.side <;> simp [join, ColouredTree.toList]
        · obtain ⟨near', entry', far', k, turned, placed, order''⟩ :=
            @siblingRotations _ _ _ entry _ _ _ sound nearSound farSound calm fits'
          obtain ⟨⟨m, sound'⟩, -⟩ := placed.valid
          refine ⟨(plug (join q.side q.colour (join q.side .black node q.entry near') entry'
            (far'.paint .black)) upper).paint .black, ?_, valid_paint sound', ?_⟩
          · by_cases outer : far.colour = .black
            · rw [if_pos outer] at turned
              have inner : near.colour ≠ .black := fun inner => calm ⟨inner, outer⟩
              simp [moved, whole, inner, outer, turned]
            · rw [if_neg outer, Option.some.injEq] at turned
              obtain ⟨-, rfl, rfl, rfl⟩ := join_inj.mp turned
              simp [moved, whole, outer]
          · rw [paint_toList, ← order, order', whole]
            exact toList_plug_congr order''

end RbTree
