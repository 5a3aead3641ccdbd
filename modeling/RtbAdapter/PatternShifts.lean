import RtbAdapter.RejectedPatterns

/-!
# Shifts of a built tree

A build fills the two tables from which a search takes its shifts. Good-suffix entries
only make a shift smaller. An entry of the bad-character table can be too high: those of
`A` and `Z` never come down, and the table is filled from as many texts as there are
patterns, which leaves texts out once a pattern was added twice.
-/

namespace PatternShifts

open ByteWords CText PatternTree PatternSearch RejectedPatterns ShiftedScan

variable {δ : Type}

/-- The texts that a build goes through. -/
def texts (tree : AdAcbmTree δ) : List Bytes := tree.vStr.take tree.iPtnCount

/-- The entries for one byte of a text. -/
def bcEntry (iOne : Nat) (table : UInt8 → Int) (b : UInt8) : UInt8 → Int :=
  let ucVal := tolower b
  let table := Function.update table ucVal iOne
  if 97 < ucVal ∧ ucVal < 122 then Function.update table (ucVal - 32) iOne else table

/-- The places come from the last one down to the second, so that the first one stays. -/
def adAcbmBCShift (tree : AdAcbmTree δ) : UInt8 → Int :=
  (List.range' 1 (tree.iMinPtnSize.toNat - 1)).foldr
    (fun iOne table =>
      (texts tree).foldl (fun table sStr => bcEntry iOne table (sStr.getD iOne 0)) table)
    fun _ => tree.iMinPtnSize

def adAcbmGSShiftInit (tree : AdAcbmTree δ) (p : Bytes) : Option AdAcbmNode :=
  (tree.node p).map fun n => if n.iLabel ≠ -2 then { n with iGSShift := tree.iMinPtnSize } else n

/-- The places from `i` on at which a text has the byte, as far as the least size. -/
def offsets (ucFirst : UInt8) (iMinPtnSize : Int) : Nat → Bytes → List Nat
  | _, [] => []
  | i, b :: rest =>
    if ucFirst ≠ tolower b then offsets ucFirst iMinPtnSize (i + 1) rest
    else if (i : Int) > iMinPtnSize then []
    else i :: offsets ucFirst iMinPtnSize (i + 1) rest

/-- How many pairs of bytes are compared, with the pair that differs. -/
def compared : Bytes → Bytes → Nat
  | a :: rest1, b :: rest2 => if tolower a ≠ tolower b then 1 else compared rest1 rest2 + 1
  | _, _ => 0

/-- `AdAcbmSetGSShift2`: the depths and shifts that it passes on. -/
def adAcbmSetGSShift2 (iMinPtnSize : Int) (sStr1 sStr2 : Bytes) : List (Nat × Nat) :=
  let ucFirst := tolower (sStr1.getD 0 0)
  let iCount1 := ((sStr2.drop 1).takeWhile fun b => ucFirst = tolower b).length + 1
  (1, iCount1) :: (offsets ucFirst iMinPtnSize 1 (sStr2.drop 1)).flatMap fun iOffset =>
    let iIndex1 := compared sStr1 (sStr2.drop iOffset)
    if iOffset + iIndex1 = sStr2.length then
      (List.range' iIndex1 (sStr1.length - iIndex1)).map fun iCount2 => (iCount2 + 1, iOffset)
    else [(iIndex1 + 1, iOffset)]

/-- The way down along the first bytes of a text, and along the null behind its end. -/
def way (sStr : Bytes) (iDepth : Nat) : Bytes :=
  (List.range iDepth).map fun iCount => tolower (sStr.getD iCount 0)

def lower (iGSShift : Int) (iShift : Nat) : Int := if iGSShift < iShift then iGSShift else iShift

def adAcbmSetGSShift1 (node : Bytes → Option AdAcbmNode) (sStr : Bytes) (iDepth iShift : Nat) :
    Bytes → Option AdAcbmNode :=
  match descend node [] (way sStr iDepth) with
  | (path, []) => Function.update node path
      ((node path).map fun n => { n with iGSShift := lower n.iGSShift iShift })
  | _ => node

/-- The calls of `AdAcbmSetGSShift1`, one pair of texts after the other. -/
def gsCalls (tree : AdAcbmTree δ) : List (Bytes × Nat × Nat) :=
  (texts tree).flatMap fun sStr1 => (texts tree).flatMap fun sStr2 =>
    (adAcbmSetGSShift2 tree.iMinPtnSize sStr1 sStr2).map fun (iDepth, iShift) =>
      (sStr1, iDepth, iShift)

def adAcbmGSShift (calls : List (Bytes × Nat × Nat)) (node : Bytes → Option AdAcbmNode) :
    Bytes → Option AdAcbmNode :=
  calls.foldl (fun node (sStr, iDepth, iShift) => adAcbmSetGSShift1 node sStr iDepth iShift) node

/-- `AdAcbmTreeBuild`, if it does not follow a null root. -/
def adAcbmTreeBuild (tree : AdAcbmTree δ) : Option (AdAcbmTree δ) :=
  if (tree.node []).isSome then
    some { tree with
      iBCShift := adAcbmBCShift tree
      node := adAcbmGSShift (gsCalls tree) (adAcbmGSShiftInit tree) }
  else none

section Entries

variable {tree : AdAcbmTree δ} {c : UInt8} {i : Nat}

/-- Whether a byte of a text brings down the entry of a byte. -/
def Writes (b c : UInt8) : Prop := c ≠ 65 ∧ c ≠ 90 ∧ tolower b = tolower c

instance (b c : UInt8) : Decidable (Writes b c) := inferInstanceAs (Decidable (_ ∧ _))

theorem tolower_toNat (b : UInt8) :
    (65 ≤ b.toNat ∧ b.toNat ≤ 90 ∧ (tolower b).toNat = b.toNat + 32) ∨
      ¬ (65 ≤ b.toNat ∧ b.toNat ≤ 90) ∧ (tolower b).toNat = b.toNat := by
  by_cases upper : 65 ≤ b.toNat ∧ b.toNat ≤ 90
  · have moved : tolower b = b + 32 := if_pos upper
    rw [moved, UInt8.toNat_add]
    exact .inl ⟨upper.1, upper.2,
      Nat.mod_eq_of_lt (Nat.lt_of_le_of_lt (Nat.add_le_add_right upper.2 32) (by decide))⟩
  · have same : tolower b = b := if_neg upper
    rw [same]
    exact .inr ⟨upper, rfl⟩

/-- A byte of a text stands for itself and, between `a` and `z`, for the upper case letter. -/
theorem writes_iff (b c : UInt8) : Writes b c ↔
    c = tolower b ∨ (97 < tolower b ∧ tolower b < 122) ∧ c = tolower b - 32 := by
  have byte := b.toNat_lt
  have fold := tolower_toNat b
  have fold' := tolower_toNat c
  have moved : (tolower b - 32).toNat = (256 - 32 + (tolower b).toNat) % 256 :=
    UInt8.toNat_sub _ _
  have range : (97 < tolower b ∧ tolower b < 122) ↔
      97 < (tolower b).toNat ∧ (tolower b).toNat < 122 := Iff.rfl
  have lower : (65 : UInt8).toNat = 65 := rfl
  have upper : (90 : UInt8).toNat = 90 := rfl
  rw [Writes, range, Ne, Ne, ← UInt8.toNat_inj, ← UInt8.toNat_inj, ← UInt8.toNat_inj,
    ← UInt8.toNat_inj, ← UInt8.toNat_inj]
  omega

theorem bcEntry_eq (iOne : Nat) (table : UInt8 → Int) (b c : UInt8) :
    bcEntry iOne table b c = if Writes b c then (iOne : Int) else table c := by
  rw [bcEntry, if_congr (writes_iff b c) rfl rfl]
  by_cases letter : 97 < tolower b ∧ tolower b < 122
  · rw [if_pos letter, Function.update_apply, Function.update_apply]
    by_cases same : c = tolower b
    · rw [if_pos same, ite_self, if_pos (.inl same)]
    · rw [if_neg same]
      exact if_congr ((or_iff_right same).trans (and_iff_right letter)).symm rfl rfl
  · rw [if_neg letter, Function.update_apply]
    exact if_congr (or_iff_left fun here => letter here.1).symm rfl rfl

/-- Some text brings the entry of a byte down to a place. -/
def RowWrites (words : List Bytes) (c : UInt8) (iOne : Nat) : Prop :=
  ∃ sStr ∈ words, Writes (sStr.getD iOne 0) c

instance (words : List Bytes) (c : UInt8) (iOne : Nat) : Decidable (RowWrites words c iOne) :=
  inferInstanceAs (Decidable (∃ sStr ∈ words, _))

theorem row_eq (iOne : Nat) (words : List Bytes) (table : UInt8 → Int) (c : UInt8) :
    words.foldl (fun table sStr => bcEntry iOne table (sStr.getD iOne 0)) table c =
      if RowWrites words c iOne then (iOne : Int) else table c := by
  induction words generalizing table with
  | nil => exact (if_neg fun ⟨_, inside, _⟩ => List.not_mem_nil inside).symm
  | cons sStr words ih =>
    rw [List.foldl_cons, ih, bcEntry_eq]
    have split : RowWrites (sStr :: words) c iOne ↔
        Writes (sStr.getD iOne 0) c ∨ RowWrites words c iOne := List.exists_mem_cons_iff ..
    by_cases later : RowWrites words c iOne
    · rw [if_pos later, if_pos (split.mpr (.inr later))]
    · rw [if_neg later]
      exact if_congr (split.trans (or_iff_left later)).symm rfl rfl

/-- The places ascend, and the first one at which some text has the byte is the entry. -/
theorem rows_le {rows : List Nat} (ascend : rows.Pairwise (· < ·)) (least : Int) :
    rows.foldr (fun iOne table =>
        (texts tree).foldl (fun table sStr => bcEntry iOne table (sStr.getD iOne 0)) table)
      (fun _ => least) c ≤ i ↔
      (∃ r ∈ rows, r ≤ i ∧ RowWrites (texts tree) c r) ∨
        (∀ r ∈ rows, ¬ RowWrites (texts tree) c r) ∧ least ≤ i := by
  induction rows with
  | nil => simp
  | cons r rows ih =>
    obtain ⟨above, ascend⟩ := List.pairwise_cons.mp ascend
    rw [List.foldr_cons, row_eq]
    by_cases writes : RowWrites (texts tree) c r
    · rw [if_pos writes]
      constructor
      · intro below
        exact .inl ⟨r, .head _, by omega, writes⟩
      · rintro (⟨r', inside, below, _⟩ | ⟨none, _⟩)
        · rcases List.mem_cons.mp inside with rfl | later
          · omega
          · have order := above r' later
            omega
        · exact absurd writes (none r (.head _))
    · rw [if_neg writes, ih ascend, List.exists_mem_cons_iff, List.forall_mem_cons]
      refine or_congr ?_ (and_congr_left' (and_iff_right writes).symm)
      exact (or_iff_right fun here => writes here.2).symm

/-- One of the texts has the byte up to case at a place from one to `i`, and the entries of the
byte can come down. -/
def Spelled (tree : AdAcbmTree δ) (c : UInt8) (i : Nat) : Prop :=
  c ≠ 65 ∧ c ≠ 90 ∧ ∃ sStr ∈ texts tree, ∃ j b, 1 ≤ j ∧ j ≤ i ∧ sStr[j]? = some b ∧
    tolower b = tolower c

theorem adAcbmBCShift_le (long : ∀ sStr ∈ tree.vStr, tree.iMinPtnSize ≤ sStr.length) :
    adAcbmBCShift tree c ≤ i ↔ tree.iMinPtnSize ≤ i ∨ Spelled tree c i := by
  have ascend : (List.range' 1 (tree.iMinPtnSize.toNat - 1)).Pairwise (· < ·) :=
    List.pairwise_lt_range'
  have spelled : ∀ r : Nat, 1 ≤ r → (r : Int) < tree.iMinPtnSize → (RowWrites (texts tree) c r ↔
      c ≠ 65 ∧ c ≠ 90 ∧ ∃ sStr ∈ texts tree, ∃ b, sStr[r]? = some b ∧ tolower b = tolower c) := by
    intro r positive small
    have read : ∀ sStr ∈ texts tree, sStr[r]? = some (sStr.getD r 0) := by
      intro sStr inside
      have size := long sStr (List.mem_of_mem_take inside)
      have place : r < sStr.length := by omega
      simp [place]
    constructor
    · rintro ⟨sStr, inside, lower, upper, same⟩
      exact ⟨lower, upper, sStr, inside, _, read sStr inside, same⟩
    · rintro ⟨lower, upper, sStr, inside, b, there, same⟩
      rw [read sStr inside] at there
      obtain rfl := Option.some.inj there
      exact ⟨sStr, inside, lower, upper, same⟩
  rw [adAcbmBCShift, rows_le ascend]
  constructor
  · rintro (⟨r, inside, below, writes⟩ | ⟨_, least⟩)
    · obtain ⟨positive, small⟩ := List.mem_range'_1.mp inside
      obtain ⟨lower, upper, sStr, listed, b, there, same⟩ :=
        (spelled r positive (by omega)).mp writes
      exact .inr ⟨lower, upper, sStr, listed, r, b, positive, below, there, same⟩
    · exact .inl least
  · intro here
    by_cases none : ∀ r ∈ List.range' 1 (tree.iMinPtnSize.toNat - 1), ¬ RowWrites (texts tree) c r
    · right
      refine ⟨none, ?_⟩
      rcases here with least | ⟨lower, upper, sStr, listed, j, b, positive, below, there, same⟩
      · exact least
      · by_contra small
        have place : j ∈ List.range' 1 (tree.iMinPtnSize.toNat - 1) := by
          rw [List.mem_range'_1]
          omega
        exact none j place ((spelled j positive (by omega)).mpr
          ⟨lower, upper, sStr, listed, b, there, same⟩)
    · left
      obtain ⟨r, inside, writes⟩ : ∃ r ∈ List.range' 1 (tree.iMinPtnSize.toNat - 1),
          RowWrites (texts tree) c r := by
        by_contra out
        exact none fun r inside writes => out ⟨r, inside, writes⟩
      obtain ⟨positive, small⟩ := List.mem_range'_1.mp inside
      rcases here with least | ⟨lower, upper, sStr, listed, j, b, above, below, there, same⟩
      · exact ⟨r, inside, by omega, writes⟩
      · by_cases place : (j : Int) < tree.iMinPtnSize
        · refine ⟨j, ?_, below, (spelled j above place).mpr
            ⟨lower, upper, sStr, listed, b, there, same⟩⟩
          rw [List.mem_range'_1]
          omega
        · exact ⟨r, inside, by omega, writes⟩

end Entries

section Built

variable {tree built : AdAcbmTree δ} {node node' : Bytes → Option AdAcbmNode}

theorem descend_congr (same : ∀ p, (node p).isSome = (node' p).isSome) (path rest : Bytes) :
    descend node path rest = descend node' path rest := by
  induction rest generalizing path with
  | nil => rfl
  | cons c rest ih => rw [descend, descend, same, ih]

/-- All of a node but its good-suffix entry. -/
def bare (n : AdAcbmNode) : AdAcbmNode := { n with iGSShift := 0 }

theorem set_bare (node : Bytes → Option AdAcbmNode) (sStr : Bytes) (iDepth iShift : Nat)
    (p : Bytes) : (adAcbmSetGSShift1 node sStr iDepth iShift p).map bare = (node p).map bare := by
  rw [adAcbmSetGSShift1]
  rcases descend node [] (way sStr iDepth) with ⟨path, _ | ⟨c, rest⟩⟩
  · by_cases here : p = path
    · subst here
      dsimp only
      rw [Function.update_self, Option.map_map]
      rfl
    · dsimp only
      rw [Function.update_of_ne here]
  · rfl

theorem gsShift_bare (calls : List (Bytes × Nat × Nat)) (node : Bytes → Option AdAcbmNode)
    (p : Bytes) : (adAcbmGSShift calls node p).map bare = (node p).map bare := by
  induction calls generalizing node with
  | nil => rfl
  | cons c calls ih => exact (ih _).trans (set_bare node c.1 c.2.1 c.2.2 p)

theorem build_bare (done : adAcbmTreeBuild tree = some built) (p : Bytes) :
    (built.node p).map bare = (tree.node p).map bare := by
  rw [adAcbmTreeBuild] at done
  split at done
  · obtain rfl := Option.some.inj done
    rw [gsShift_bare, adAcbmGSShiftInit, Option.map_map]
    refine congrArg (Option.map · (tree.node p)) (funext fun n => ?_)
    rw [Function.comp_apply]
    by_cases root : n.iLabel = -2
    · rw [if_neg (not_not.mpr root)]
    · rw [if_pos root]
      rfl
  · cases done

theorem isSome_of_bare (same : ∀ p, (node p).map bare = (node' p).map bare) (p : Bytes) :
    (node p).isSome = (node' p).isSome := by
  have both := congrArg Option.isSome (same p)
  rwa [Option.isSome_map, Option.isSome_map] at both

theorem label_of_bare (same : (node p).map bare = (node' p).map bare) :
    (node p).map AdAcbmNode.iLabel = (node' p).map AdAcbmNode.iLabel := by
  have both := congrArg (Option.map AdAcbmNode.iLabel) same
  rwa [Option.map_map, Option.map_map] at both

theorem walk_built (done : adAcbmTreeBuild tree = some built) (path rest : Bytes) :
    built.walk path rest = tree.walk path rest := by
  induction rest generalizing path with
  | nil => rfl
  | cons c rest ih =>
    rw [AdAcbmTree.walk, AdAcbmTree.walk, isSome_of_bare (build_bare done), ih, labelled_eq,
      labelled_eq, label_of_bare (build_bare done _)]

theorem build_eq (done : adAcbmTreeBuild tree = some built) :
    built = { tree with
      iBCShift := adAcbmBCShift tree
      node := adAcbmGSShift (gsCalls tree) (adAcbmGSShiftInit tree) } := by
  rw [adAcbmTreeBuild] at done
  split at done
  · exact (Option.some.inj done).symm
  · cases done

theorem hits_built (done : adAcbmTreeBuild tree = some built) (p : Bytes) :
    built.hits p = tree.hits p := by
  have label := label_of_bare (build_bare done p)
  rw [AdAcbmTree.hits, AdAcbmTree.hits, label, build_eq done]

theorem set_gs (node : Bytes → Option AdAcbmNode) (sStr : Bytes) (iDepth iShift : Nat)
    (p : Bytes) : (adAcbmSetGSShift1 node sStr iDepth iShift p).map AdAcbmNode.iGSShift =
      ((node p).map AdAcbmNode.iGSShift).map fun iGSShift =>
        if descend node [] (way sStr iDepth) = (p, []) then lower iGSShift iShift
        else iGSShift := by
  rw [adAcbmSetGSShift1, Option.map_map]
  rcases descend node [] (way sStr iDepth) with ⟨path, _ | ⟨c, rest⟩⟩
  · by_cases here : p = path
    · subst here
      dsimp only
      simp only [Function.update_self, Option.map_map, if_true]
      rfl
    · have other : (path, ([] : Bytes)) ≠ (p, []) := fun same => here (congrArg Prod.fst same).symm
      dsimp only
      simp only [Function.update_of_ne here, if_neg other]
      rfl
  · have other : (path, c :: rest) ≠ (p, []) := fun same => by cases congrArg Prod.snd same
    simp only [if_neg other]
    rfl

/-- The entry of a node: the least of the shifts that the build passes on for it. -/
def goodShift (tree : AdAcbmTree δ) (p : Bytes) : Int :=
  (((adAcbmGSShiftInit tree p).map AdAcbmNode.iGSShift).map fun iGSShift =>
    (gsCalls tree).foldl (fun iGSShift (sStr, iDepth, iShift) =>
      if descend tree.node [] (way sStr iDepth) = (p, []) then lower iGSShift iShift
      else iGSShift) iGSShift).getD 0

theorem gsShift_gs (same : ∀ p, (node p).isSome = (node' p).isSome)
    (calls : List (Bytes × Nat × Nat)) (p : Bytes) :
    (adAcbmGSShift calls node p).map AdAcbmNode.iGSShift =
      ((node p).map AdAcbmNode.iGSShift).map fun iGSShift =>
        calls.foldl (fun iGSShift (sStr, iDepth, iShift) =>
          if descend node' [] (way sStr iDepth) = (p, []) then lower iGSShift iShift
          else iGSShift) iGSShift := by
  induction calls generalizing node with
  | nil =>
    rw [Option.map_map]
    rfl
  | cons c calls ih =>
    obtain ⟨sStr, iDepth, iShift⟩ := c
    have kept : ∀ p, (adAcbmSetGSShift1 node sStr iDepth iShift p).isSome = (node' p).isSome :=
      fun p => (isSome_of_bare (set_bare node sStr iDepth iShift) p).trans (same p)
    have step := ih kept
    rw [set_gs, descend_congr same, Option.map_map] at step
    exact step

theorem build_gs (done : adAcbmTreeBuild tree = some built) (p : Bytes) :
    ((built.node p).map AdAcbmNode.iGSShift).getD 0 = goodShift tree p := by
  have same : ∀ p, (adAcbmGSShiftInit tree p).isSome = (tree.node p).isSome := fun p =>
    Option.isSome_map ..
  rw [build_eq done, gsShift_gs same]
  rfl

end Built

section Leaps

variable {tree built : AdAcbmTree δ} {text last : Bytes} {next : Option UInt8}

/-- How many positions a built search passes over when a way down ends at a node before a byte. -/
def leapFrom (tree : AdAcbmTree δ) (last : Bytes) (next : Option UInt8) : Nat :=
  match tree.node last with
  | some n =>
    match next with
    | some c =>
      if 0 < n.iChild then
        (min (goodShift tree (last ++ [n.ucChild])) (adAcbmBCShift tree c - last.length)).toNat - 1
      else 0
    | none => 0
  | none => 0

def leap (tree : AdAcbmTree δ) (text : Bytes) (b : Nat) : Nat :=
  leapFrom tree (tree.walk [] (text.drop b)).2.1 (tree.walk [] (text.drop b)).2.2

/-- A shift goes by the smaller of the two, and by one at least. -/
theorem shift_least (good bad : Int) :
    (if (if good > bad then bad else good) ≤ 0 then 1
      else if good > bad then bad else good).toNat - 1 = (min good bad).toNat - 1 := by
  split <;> split <;> omega

theorem shift_built (done : adAcbmTreeBuild tree = some built) (last : Bytes)
    (next : Option UInt8) : (built.shift last next).toNat - 1 = leapFrom tree last next := by
  have kept := build_bare done last
  rw [AdAcbmTree.shift.eq_def, leapFrom]
  cases found : tree.node last with
  | none =>
    rw [found, Option.map_none, Option.map_eq_none_iff] at kept
    rw [kept]
    rfl
  | some n =>
    rw [found, Option.map_some, Option.map_eq_some_iff] at kept
    obtain ⟨n', found', same⟩ := kept
    have child : (bare n').iChild = (bare n).iChild := congrArg AdAcbmNode.iChild same
    have byte : (bare n').ucChild = (bare n).ucChild := congrArg AdAcbmNode.ucChild same
    have table : built.iBCShift = adAcbmBCShift tree := by rw [build_eq done]
    change n'.iChild = n.iChild at child
    change n'.ucChild = n.ucChild at byte
    rw [found']
    dsimp only
    rw [child, byte, build_gs done, table]
    generalize goodShift tree (last ++ [n.ucChild]) = good
    by_cases children : 0 < n.iChild
    · rw [if_pos children]
      cases next with
      | none =>
        refine (shift_least good 1).trans ?_
        dsimp only
        omega
      | some c =>
        refine (shift_least good _).trans ?_
        exact (if_pos children).symm
    · rw [if_neg children]
      cases next with
      | none => rfl
      | some c => exact (if_neg children).symm

theorem passes_built (done : adAcbmTreeBuild tree = some built) (text : Bytes) :
    passes built text = leap tree text := by
  funext b
  rw [passes, walk_built done]
  exact shift_built done _ _

/-- Where a shift goes beyond a position. -/
theorem leapFrom_le {d : Nat} (positive : 0 < d) :
    d ≤ leapFrom tree last next ↔ ∃ n c, tree.node last = some n ∧ next = some c ∧
      0 < n.iChild ∧ d < goodShift tree (last ++ [n.ucChild]) ∧
      (d + last.length : Nat) < adAcbmBCShift tree c := by
  rw [leapFrom]
  cases found : tree.node last with
  | none =>
    refine iff_of_false (Nat.not_le.mpr positive) ?_
    rintro ⟨_, _, same, _⟩
    cases same
  | some n =>
    cases next with
    | none =>
      refine iff_of_false (Nat.not_le.mpr positive) ?_
      rintro ⟨_, _, _, same, _⟩
      cases same
    | some c =>
      dsimp only
      generalize good : goodShift tree (last ++ [n.ucChild]) = g
      by_cases children : 0 < n.iChild
      · rw [if_pos children]
        constructor
        · intro within
          exact ⟨n, c, rfl, rfl, children, by omega, by omega⟩
        · rintro ⟨n', c', same, same', _, below, below'⟩
          obtain rfl := Option.some.inj same
          obtain rfl := Option.some.inj same'
          rw [good] at below
          omega
      · rw [if_neg children]
        refine iff_of_false (Nat.not_le.mpr positive) ?_
        rintro ⟨n', _, same, _, more, _⟩
        obtain rfl := Option.some.inj same
        exact children more

end Leaps

section Filed

open NetProtocol (adSuccess adFailure)

variable {tree : AdAcbmTree δ} {after : Bytes → Option AdAcbmNode} {word sStr q : Bytes}
  {iPtnLen : Int} {pData : δ}

/-- Before any build: whatever has a label is found, and no text is shorter than the least size. -/
structure Filed (tree : AdAcbmTree δ) : Prop where
  unbuilt : Unbuilt tree.node
  found : ∀ q, tree.labelled q = true →
    q ≠ [] ∧ (∀ p, p <+: q → (tree.node p).isSome) ∧ tree.hits q ≠ []
  long : ∀ sStr ∈ tree.vStr, tree.iMinPtnSize ≤ sStr.length

theorem filed_bare (table : UInt8 → Int) : Filed ({ iBCShift := table } : AdAcbmTree δ) where
  unbuilt _ _ found := by cases found
  found _ labelled := by cases labelled
  long _ inside := by cases inside

theorem file_other (other : q ≠ word) :
    (tree.file after word sStr iPtnLen pData).node q = after q := by
  simp only [AdAcbmTree.file]
  split
  · exact Function.update_of_ne other _ _
  · rfl

theorem file_isSome : ((tree.file after word sStr iPtnLen pData).node q).isSome =
    (after q).isSome := by
  by_cases here : q = word
  · subst here
    simp only [AdAcbmTree.file]
    split
    · dsimp only
      rw [Function.update_self, Option.isSome_map]
    · rfl
  · rw [file_other here]

theorem file_data : ∃ label, (tree.file after word sStr iPtnLen pData).mData =
    Function.update tree.mData label (tree.mData label ++ [pData]) := by
  simp only [AdAcbmTree.file]
  split
  · exact ⟨_, rfl⟩
  · exact ⟨_, rfl⟩

theorem file_vStr : (tree.file after word sStr iPtnLen pData).vStr = tree.vStr ++ [sStr] := by
  simp only [AdAcbmTree.file]
  split <;> rfl

theorem file_least : (tree.file after word sStr iPtnLen pData).iMinPtnSize ≤ iPtnLen ∧
    (tree.file after word sStr iPtnLen pData).iMinPtnSize ≤ tree.iMinPtnSize := by
  have least : (tree.file after word sStr iPtnLen pData).iMinPtnSize =
      if iPtnLen < tree.iMinPtnSize then iPtnLen else tree.iMinPtnSize := by
    simp only [AdAcbmTree.file]
    split <;> rfl
  rw [least]
  split <;> omega

theorem grown_keeps {malloc : Nat → Bool} {node : Bytes → Option AdAcbmNode}
    (rooted : withRoot malloc tree.node = some node)
    (grew : grow malloc 1 (descend node [] word).1 (descend node [] word).2 node = some after)
    {p : Bytes} (there : (tree.node p).isSome) : (after p).isSome := by
  have root : (node p).isSome := by
    rcases (withRoot_node rooted).2.2 p with same | root
    · have both := congrArg Option.isSome same
      rw [Option.isSome_map, Option.isSome_map] at both
      exact both.trans there
    · have both := congrArg Option.isSome root
      rwa [Option.isSome_map] at both
  exact (isSome_of_label ((grow_grown grew).label p)).mpr (.inr root)

theorem hits_eq_nil_iff {label : Int} (stored : (tree.node q).map AdAcbmNode.iLabel = some label) :
    tree.hits q = [] ↔ tree.mData label = [] := by
  rw [AdAcbmTree.hits, stored, List.map_eq_nil_iff]
  rfl

theorem labelled_label (labelled : tree.labelled q = true) :
    ∃ label, (tree.node q).map AdAcbmNode.iLabel = some label ∧ 0 ≤ label := by
  rw [labelled_eq, Option.any_eq_true] at labelled
  obtain ⟨label, stored, nonneg⟩ := labelled
  exact ⟨label, stored, of_decide_eq_true nonneg⟩

theorem filed_call (filed : Filed tree) (c : Call δ) : Filed (call tree c).2 := by
  rcases call_cases tree c with
    failed | ⟨node, after, word, rooted, grew, some', folded, small, within, done⟩
  · rw [failed]
    exact filed_bare fun _ => 0
  rw [done]
  obtain ⟨root, unbuilt, _⟩ := withRoot_node rooted
  refine ⟨file_unbuilt ((grow_grown grew).unbuilt (unbuilt filed.unbuilt)), ?_, ?_⟩
  · intro q labelled
    dsimp only at labelled ⊢
    by_cases here : q = word
    · subst here
      have findable : Findable (tree.file after q c.sStr q.length c.pData) q :=
        file_findable (fun p start => grown_there root grew start) folded some' small
      exact ⟨some', findable.there, findable.pushes⟩
    · obtain ⟨label, stored, nonneg⟩ := labelled_label labelled
      rw [file_other here] at stored
      have before := grown_labelled rooted grew nonneg stored
      have old : tree.labelled q = true := by
        rw [labelled_eq, before]
        exact decide_eq_true nonneg
      obtain ⟨some'', there, pushes⟩ := filed.found q old
      refine ⟨some'', fun p start => ?_, ?_⟩
      · rw [file_isSome]
        exact grown_keeps rooted grew (there p start)
      · have stored' : ((tree.file after word c.sStr word.length c.pData).node q).map
            AdAcbmNode.iLabel = some label := by rw [file_other here, stored]
        obtain ⟨next, data⟩ : ∃ next, (tree.file after word c.sStr word.length c.pData).mData =
            Function.update tree.mData next (tree.mData next ++ [c.pData]) := file_data
        rw [Ne, hits_eq_nil_iff stored', data, Function.update_apply]
        split
        · simp
        · exact fun none => pushes ((hits_eq_nil_iff before).mpr none)
  · intro sStr inside
    dsimp only at inside ⊢
    have least : (tree.file after word c.sStr word.length c.pData).iMinPtnSize ≤ word.length ∧
      (tree.file after word c.sStr word.length c.pData).iMinPtnSize ≤ tree.iMinPtnSize := file_least
    rw [file_vStr, List.mem_append, List.mem_singleton] at inside
    rcases inside with old | rfl
    · exact least.2.trans (filed.long sStr old)
    · omega

theorem filed_callAll (filed : Filed tree) (calls : List (Call δ)) :
    Filed (callAll tree calls) := by
  induction calls generalizing tree with
  | nil => exact filed
  | cons c calls ih => exact ih (filed_call filed c)

/-- A way down finds nothing exactly when no pattern stands there. -/
theorem nothing_iff (filed : Filed tree) (text : Bytes) (m : Nat) :
    (tree.walk [] (text.drop m)).1.flatMap tree.hits = [] ↔
      ∀ q, tree.labelled q = true → ¬ StandsAt q text m := by
  rw [List.flatMap_eq_nil_iff]
  constructor
  · intro none q labelled stands
    obtain ⟨some', there, pushes⟩ := filed.found q labelled
    refine pushes (none q (mem_walk_iff.mpr ⟨labelled, ?_, fun p _ start => there p start⟩))
    exact ⟨stands, List.length_pos_iff.mpr some'⟩
  · intro none q met
    obtain ⟨labelled, new, _⟩ := mem_walk_iff.mp met
    exact absurd new.1 (none q labelled)

end Filed

section Searches

variable {tree built : AdAcbmTree δ}

/-- The positions at which a pattern has room. -/
def positions (tree : AdAcbmTree δ) (sStr : Bytes) : Nat :=
  (toInt32 sStr.length - tree.iMinPtnSize + 1).toNat

/-- What a search pushes. -/
theorem search_found (root : (tree.node []).isSome) (sStr : Bytes) :
    ∃ iMatch, tree.adAcbmSearch sStr =
      some (iMatch, (starts (passes tree (AdAcbmTree.seen sStr)) 0 (positions tree sStr)).flatMap
        fun b => (tree.walk [] ((AdAcbmTree.seen sStr).drop b)).1.flatMap tree.hits) := by
  rw [AdAcbmTree.adAcbmSearch, positions]
  generalize AdAcbmTree.seen sStr = text
  generalize toInt32 sStr.length = iSize
  dsimp only
  by_cases short : iSize < tree.iMinPtnSize
  · have none : (iSize - tree.iMinPtnSize + 1).toNat = 0 := by omega
    rw [if_pos short, none, starts]
    exact ⟨0, rfl⟩
  · rw [if_neg short, if_pos root, scan_eq, List.flatMap_assoc]
    exact ⟨_, rfl⟩

variable [DecidableEq δ]

/-- A part of what is pushed gives each datum as much exactly when it is all. -/
theorem results_perm_iff {found report : List (Found δ)} (sub : report.Sublist found) :
    (∀ pData, (mResult report pData).Perm (mResult found pData)) ↔ report.Perm found := by
  constructor
  · intro same
    have sizes : ∀ pData, (report.filter fun entry => entry.data = pData).length =
        (found.filter fun entry => entry.data = pData).length := by
      intro pData
      have size := (same pData).length_eq
      rwa [mResult, mResult, List.length_map, List.length_map] at size
    clear same
    induction sub with
    | slnil => exact .refl _
    | @cons report found entry sub ih =>
      have size := sizes entry.data
      have bound := (sub.filter fun other => decide (other.data = entry.data)).length_le
      rw [List.filter_cons_of_pos (by simp), List.length_cons] at size
      omega
    | @cons_cons report found entry sub ih =>
      refine (ih fun pData => ?_).cons entry
      have size := sizes pData
      by_cases here : entry.data = pData
      · rw [List.filter_cons_of_pos (by simpa using here),
          List.filter_cons_of_pos (by simpa using here)] at size
        exact Nat.succ_inj.mp size
      · rwa [List.filter_cons_of_neg (by simpa using here),
          List.filter_cons_of_neg (by simpa using here)] at size
  · intro all pData
    exact (all.filter _).map _

/-- The tree can be built, both searches answer, and give each datum the same texts. -/
def Agree (tree : AdAcbmTree δ) (sStr : Bytes) : Prop :=
  ∃ built plain report, adAcbmTreeBuild tree = some built ∧
    tree.adAcbmSearch sStr = some plain ∧ built.adAcbmSearch sStr = some report ∧
    ∀ pData, (mResult report.2 pData).Perm (mResult plain.2 pData)

/-- The tree has a root, and wherever a built search comes to, the entry of the byte at which the
way down ends does not lead beyond a pattern that stands in the text: unless the good-suffix entry
stops before it, the byte is as far into the pattern as the least size, or its entry has come down
as far. -/
structure Covered (tree : AdAcbmTree δ) (sStr : Bytes) : Prop where
  rooted : (tree.node []).isSome
  entries : ∀ b ∈ starts (leap tree (AdAcbmTree.seen sStr)) 0 (positions tree sStr),
    ∀ last c n, (tree.walk [] ((AdAcbmTree.seen sStr).drop b)).2 = (last, some c) →
      tree.node last = some n → 0 < n.iChild → ∀ d m q, 0 < d → m + d = b →
        tree.labelled q = true → StandsAt q (AdAcbmTree.seen sStr) m →
          goodShift tree (last ++ [n.ucChild]) ≤ d ∨
          tree.iMinPtnSize ≤ (d + last.length : Nat) ∨ Spelled tree c (d + last.length)

theorem agree_iff (filed : Filed tree) (sStr : Bytes) : Agree tree sStr ↔ Covered tree sStr := by
  by_cases root : (tree.node []).isSome
  swap
  · refine iff_of_false ?_ fun covered => root covered.rooted
    rintro ⟨built, _, _, done, _⟩
    rw [adAcbmTreeBuild, if_neg root] at done
    cases done
  obtain ⟨built, done⟩ : ∃ built, adAcbmTreeBuild tree = some built := ⟨_, if_pos root⟩
  have root' : (built.node []).isSome := (isSome_of_bare (build_bare done) []).trans root
  have least : built.iMinPtnSize = tree.iMinPtnSize := by rw [build_eq done]
  obtain ⟨iMatch, searched⟩ := search_found root sStr
  obtain ⟨iMatch', searched'⟩ := search_found root' sStr
  have here : positions built sStr = positions tree sStr := by rw [positions, positions, least]
  have meets : (fun b => (built.walk [] ((AdAcbmTree.seen sStr).drop b)).1.flatMap built.hits) =
      fun b => (tree.walk [] ((AdAcbmTree.seen sStr).drop b)).1.flatMap tree.hits := by
    funext b
    rw [walk_built done, funext (hits_built done)]
  rw [starts_plain (passes_unbuilt filed.unbuilt _)] at searched
  rw [here, meets, passes_built done] at searched'
  have agree : Agree tree sStr ↔ ∀ b ∈ starts (leap tree (AdAcbmTree.seen sStr)) 0
      (positions tree sStr), ∀ m, m < b → b ≤ m + leap tree (AdAcbmTree.seen sStr) b →
        (tree.walk [] ((AdAcbmTree.seen sStr).drop m)).1.flatMap tree.hits = [] := by
    rw [← starts_perm_iff, ← results_perm_iff (starts_sublist.flatMap _)]
    constructor
    · rintro ⟨built', plain, report, done', plain', report', same⟩
      obtain rfl := Option.some.inj (done.symm.trans done')
      obtain rfl := Option.some.inj (searched.symm.trans plain')
      obtain rfl := Option.some.inj (searched'.symm.trans report')
      dsimp only at same
      exact same
    · intro same
      refine ⟨built, _, _, done, searched, searched', fun pData => ?_⟩
      dsimp only
      exact same pData
  rw [agree]
  constructor
  · intro nothing
    refine ⟨root,
      fun b come last c n ends found children d m q positive place labelled stands => ?_⟩
    by_contra out
    rw [not_or, not_or, Int.not_le] at out
    obtain ⟨good, bad⟩ := out
    rw [← not_or, ← adAcbmBCShift_le filed.long, Int.not_le] at bad
    have passed : d ≤ leap tree (AdAcbmTree.seen sStr) b := by
      rw [leap, ends]
      exact (leapFrom_le positive).mpr ⟨n, c, found, rfl, children, good, bad⟩
    have none := nothing b come m (by omega) (by omega)
    exact (nothing_iff filed _ m).mp none q labelled stands
  · rintro ⟨_, entries⟩ b come m above passed
    rw [nothing_iff filed]
    intro q labelled stands
    obtain ⟨d, place⟩ := Nat.exists_eq_add_of_lt above
    have reach : d + 1 ≤ leap tree (AdAcbmTree.seen sStr) b := by omega
    obtain ⟨n, c, found, next, children, good, bad⟩ := (leapFrom_le (Nat.succ_pos d)).mp reach
    have ends : (tree.walk [] ((AdAcbmTree.seen sStr).drop b)).2 =
        ((tree.walk [] ((AdAcbmTree.seen sStr).drop b)).2.1, some c) := by
      rw [← next]
    rcases entries b come _ c n ends found children (d + 1) m q (Nat.succ_pos d) (by omega) labelled
      stands with stop | bound
    · omega
    · have low := (adAcbmBCShift_le filed.long).mpr bound
      omega

omit [DecidableEq δ] in
/-- The byte at which a way down ends stands behind the bytes on the way. -/
theorem walk_ends {path rest last : Bytes} {c : UInt8}
    (ends : (tree.walk path rest).2 = (last, some c)) :
    ∃ k, last.length = path.length + k ∧ rest[k]? = some c := by
  induction rest generalizing path with
  | nil => cases ends
  | cons b rest ih =>
    rw [AdAcbmTree.walk] at ends
    dsimp only at ends
    by_cases there : (tree.node (path ++ [tolower b])).isSome
    · rw [if_pos there] at ends
      have below : (tree.walk (path ++ [tolower b]) rest).2 = (last, some c) := by
        rw [← ends]
        split <;> rfl
      obtain ⟨k, length, next⟩ := ih below
      rw [List.length_append, List.length_singleton] at length
      exact ⟨k + 1, by omega, by rwa [List.getElem?_cons_succ]⟩
    · rw [if_neg there] at ends
      obtain ⟨rfl, next⟩ := Prod.mk.inj ends
      exact ⟨0, rfl, by rwa [List.getElem?_cons_zero]⟩

/-- Where a pattern stands in the text, before the least size, there is no upper case `A` or `Z`
behind its first byte, and each byte of the pattern is found at such a place, and no later, in one
of as many texts as there are patterns up to case. -/
structure Clean (adds : List (Bytes × δ)) (sStr : Bytes) : Prop where
  sized : Sized adds
  letters : ∀ q ∈ keys adds, ∀ m, StandsAt q (AdAcbmTree.seen sStr) m → ∀ j : Nat, 1 ≤ j →
    j < leastSize adds → ∀ c ∈ (AdAcbmTree.seen sStr)[m + j]?, c ≠ 65 ∧ c ≠ 90
  spelled : ∀ q ∈ keys adds, ∀ m, StandsAt q (AdAcbmTree.seen sStr) m → ∀ j : Nat, 1 ≤ j →
    j < leastSize adds → ∃ add ∈ adds.take (firsts adds).length, ∃ i, 1 ≤ i ∧ i ≤ j ∧
      (key add.1)[i]? = q[j]?

omit [DecidableEq δ] in
/-- Patterns that differ up to case leave none of their texts out. -/
theorem spelled_of_nodup {adds : List (Bytes × δ)} (different : firsts adds = keys adds) {q : Bytes}
    (listed : q ∈ keys adds) {j : Nat} (later : 1 ≤ j) :
    ∃ add ∈ adds.take (firsts adds).length, ∃ i, 1 ≤ i ∧ i ≤ j ∧ (key add.1)[i]? = q[j]? := by
  obtain ⟨add, inside, rfl⟩ := List.mem_map.mp listed
  have whole : adds.take (firsts adds).length = adds := by
    rw [different, keys, List.length_map, List.take_length]
  rw [whole]
  exact ⟨add, inside, j, later, le_rfl, rfl⟩

omit [DecidableEq δ] in
theorem covered_of_clean (unset : UInt8 → Int) {adds : List (Bytes × δ)} {sStr : Bytes}
    (some' : adds ≠ []) (clean : Clean adds sStr) : Covered (addAll unset adds) sStr := by
  obtain ⟨holds, -⟩ := addAll_holds unset clean.sized
  refine ⟨(node_isSome holds []).mpr (.inl ⟨rfl, some'⟩), ?_⟩
  intro b _ last c n ends _ _ d m q positive place labelled stands
  right
  rw [holds.size]
  have listed := mem_firsts.mp ((labelled_iff holds q).mp labelled)
  by_cases early : ((d + last.length : Nat) : Int) < leastSize adds
  swap
  · exact .inl (Int.not_lt.mp early)
  right
  have later : 1 ≤ d + last.length := by omega
  -- the byte at which the way down ends is one of the pattern
  have next : (AdAcbmTree.seen sStr)[m + (d + last.length)]? = some c := by
    obtain ⟨k, length, next⟩ := walk_ends ends
    rw [List.length_nil, Nat.zero_add] at length
    rw [List.getElem?_drop, ← length, ← place] at next
    rwa [← Nat.add_assoc]
  obtain ⟨lower, upper⟩ := clean.letters q listed m stands _ later early c next
  obtain ⟨add, among, i, first, before, same⟩ := clean.spelled q listed m stands _ later early
  have own : q[d + last.length]? = some (tolower c) := by
    have size := leastSize_le listed
    have inside : d + last.length < q.length := by omega
    have read := List.prefix_iff_getElem?.mp stands _ inside
    rw [List.getElem?_map, List.getElem?_drop, next, Option.map_some] at read
    rw [List.getElem?_eq_getElem inside, ← read]
  rw [own, key, List.getElem?_map, Option.map_eq_some_iff] at same
  obtain ⟨byte, there, fold⟩ := same
  refine ⟨lower, upper, add.1, ?_, i, byte, first, before, there, fold⟩
  rw [texts, holds.vStr, holds.count, ← List.map_take]
  exact List.mem_map_of_mem among

omit [DecidableEq δ] in
theorem addAll_filed (unset : UInt8 → Int) (adds : List (Bytes × δ)) :
    Filed (addAll unset adds) := by
  have calls : addAll unset adds =
      callAll (.init unset) (adds.map fun add => ⟨fun _ => true, add.1, add.2⟩) := by
    rw [callAll, List.foldl_map]
    rfl
  rw [calls]
  exact filed_callAll (filed_bare unset) _

/-- A built search reports what a plain one does when no entry of a byte is too high within a
pattern that stands in the text. -/
theorem build_agrees (unset : UInt8 → Int) (adds : List (Bytes × δ)) (some' : adds ≠ [])
    (sStr : Bytes) (clean : Clean adds sStr) : Agree (addAll unset adds) sStr :=
  (agree_iff (addAll_filed unset adds) sStr).mpr (covered_of_clean unset some' clean)

/-- Both searches find "ab" and "bCd" in one text. -/
theorem two_patterns_agree :
    Agree (addAll (fun _ => 0) [(ascii "ab", 1), (ascii "bCd", 2)]) (ascii "xaBcdx") := by
  refine build_agrees (fun _ => 0) [(ascii "ab", 1), (ascii "bCd", 2)] (by decide)
    (ascii "xaBcdx") ⟨by unfold Sized; decide, ?_, ?_⟩
  · intro q _ m _ j _ _ c there
    have plain : ∀ c ∈ AdAcbmTree.seen (ascii "xaBcdx"), c ≠ 65 ∧ c ≠ 90 := by decide +kernel
    exact plain c (List.mem_of_getElem? there)
  · exact fun q listed m _ j later _ => spelled_of_nodup (by decide) listed later

/-- The entry of an upper case `A` never comes down. -/
theorem upperCase_disagrees : ¬ ∀ (adds : List (Bytes × Nat)), adds ≠ [] →
    (∀ add ∈ adds, add.1 ≠ []) → ∀ sStr, Agree (addAll (fun _ => 0) adds) sStr := by
  intro all
  obtain ⟨built, plain, report, done, searched, searched', same⟩ :=
    all [(ascii "cca", 1)] (by decide) (by decide) (ascii "ccAx")
  have plain' : (addAll (fun _ => 0) [(ascii "cca", 1)]).adAcbmSearch (ascii "ccAx") =
      some (1, [⟨ascii "cca", 1, ascii "cca"⟩]) := by decide +kernel
  have report' : ((adAcbmTreeBuild (addAll (fun _ => 0) [(ascii "cca", 1)])).bind
      fun built => built.adAcbmSearch (ascii "ccAx")) = some (0, []) := by decide +kernel
  rw [done, Option.bind_some] at report'
  obtain rfl := Option.some.inj (plain'.symm.trans searched)
  obtain rfl := Option.some.inj (report'.symm.trans searched')
  exact absurd (same 1).length_eq (by decide)

end Searches

end PatternShifts
