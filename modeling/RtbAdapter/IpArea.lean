import Mathlib.Tactic.Common
import RtbAdapter.BinaryTrie
import RtbAdapter.CText

/-!
# Areas of addresses

Prefixes of addresses are filed in a tree over bits with an area each. The lookup of an address
keeps the last area with a city on its way down. The text "0.0.0.0" and the address zero go
around the tree and use its root.
-/

namespace IpArea

open ByteWords CText BinaryTrie

/-- The data of a TreeNode. -/
structure Area where
  country : Bytes := []
  province : Bytes := []
  city : Bytes := []
deriving DecidableEq, Repr

def Area.text (area : Area) : Bytes :=
  area.country ++ ascii "-" ++ area.province ++ ascii "-" ++ area.city

def Area.named (area : Area) : Bool := !area.city.isEmpty

/-- The arguments of AddTree, and what the local `Addr` held before inet_aton. -/
structure Entry where
  area : Area
  addr : Bytes
  mastlen : UInt32
  stale : UInt32 := 0

def allText : Bytes := ascii "0.0.0.0"

/-- The bit that the mask of step `i` selects. -/
def bitAt (ip : UInt32) (i : Nat) : Bool := ((0x80000000 : UInt32) >>> UInt32.ofNat i) &&& ip != 0

def bits (ip : UInt32) (n : Nat) : List Bool := (List.range n).map (bitAt ip)

variable (inetAton : Bytes → Option UInt32)

/-- The address in host order. inet_aton leaves the struct alone when it fails. -/
def resolve (stale : UInt32) (addr : Bytes) : UInt32 := (inetAton (cStr addr)).getD stale

/-- Shifting by 32 and more is undefined. The root takes the area for the text 0.0.0.0 with
every mask. -/
def addTree (tree : Trie Area) (entry : Entry) : Option (Trie Area) :=
  if entry.addr ≠ allText then
    if entry.mastlen.toNat ≤ 32 then
      some (tree.put {} entry.area
        (bits (resolve inetAton entry.stale entry.addr) entry.mastlen.toNat))
    else none
  else some (tree.put {} entry.area [])

/-- The root node of a new object. -/
def init : Trie Area := .node {} .null .null

def addAll (entries : List Entry) : Option (Trie Area) := entries.foldlM (addTree inetAton) init

def rootArea : Trie Area → Area
  | .null => {}
  | .node area _ _ => area

/-- `sArea` is what the caller's text held before. -/
def get (tree : Trie Area) (stale : UInt32) (sAddr sArea : Bytes) : Bytes :=
  let uiIP := resolve inetAton stale sAddr
  if uiIP = 0 then (rootArea tree).text
  else (tree.visited (bits uiIP 32)).foldl
    (fun last area => if area.named then area.text else last) sArea

def answer (entries : List Entry) (stale : UInt32) (sAddr sArea : Bytes) : Option Bytes :=
  (addAll inetAton entries).map fun tree => get inetAton tree stale sAddr sArea

/-- The address of an entry. -/
def Entry.ip (entry : Entry) : UInt32 :=
  if entry.addr = allText then 0 else resolve inetAton entry.stale entry.addr

/-- The first bits of the address are those of the entry. -/
def Covers (ip : UInt32) (entry : Entry) : Prop :=
  bits ip entry.mastlen.toNat = bits (entry.ip inetAton) entry.mastlen.toNat

instance (ip : UInt32) (entry : Entry) : Decidable (Covers inetAton ip entry) :=
  inferInstanceAs (Decidable (_ = _))

/-- The longest covering prefix of a list, and of equal ones the last. -/
def Longest (entries : List Entry) (ip : UInt32) (entry : Entry) : Prop :=
  ∃ before after, entries = before ++ entry :: after ∧ Covers inetAton ip entry ∧
    (∀ other ∈ before, Covers inetAton ip other → other.mastlen ≤ entry.mastlen) ∧
    ∀ other ∈ after, Covers inetAton ip other → other.mastlen < entry.mastlen

variable {inetAton} {entries : List Entry} {ip stale : UInt32} {sAddr sArea : Bytes}

theorem length_bits (ip : UInt32) (n : Nat) : (bits ip n).length = n := by
  rw [bits, List.length_map, List.length_range]

theorem take_bits (n k : Nat) : (bits ip n).take k = bits ip (min k n) := by
  rw [bits, ← List.map_take, List.take_range, bits]

/-- Where an entry is filed. -/
def Entry.place (inetAton : Bytes → Option UInt32) (entry : Entry) : List Bool :=
  if entry.addr = allText then []
  else bits (resolve inetAton entry.stale entry.addr) entry.mastlen.toNat

/-- The masks that IPv4 prefixes have. -/
def Fits (entries : List Entry) : Prop := ∀ entry ∈ entries, entry.mastlen.toNat ≤ 32

def filed (inetAton : Bytes → Option UInt32) (entries : List Entry) : Trie Area :=
  entries.foldl (fun tree entry => tree.put {} entry.area (entry.place inetAton)) init

theorem addTree_fits {tree : Trie Area} {entry : Entry} (fits : entry.mastlen.toNat ≤ 32) :
    addTree inetAton tree entry = some (tree.put {} entry.area (entry.place inetAton)) := by
  rw [addTree, Entry.place]
  by_cases all : entry.addr = allText
  · rw [if_neg (not_not.mpr all), if_pos all]
  · rw [if_pos all, if_pos fits, if_neg all]

theorem addAll_fits (fits : Fits entries) :
    addAll inetAton entries = some (filed inetAton entries) := by
  rw [addAll, filed]
  generalize init = tree
  induction entries generalizing tree with
  | nil => rfl
  | cons entry entries ih =>
    rw [List.foldlM_cons, addTree_fits (fits entry List.mem_cons_self)]
    exact ih (fun other inside => fits other (List.mem_cons_of_mem _ inside)) _

theorem answer_fits (fits : Fits entries) :
    answer inetAton entries stale sAddr sArea =
      some (get inetAton (filed inetAton entries) stale sAddr sArea) := by
  rw [answer, addAll_fits fits, Option.map_some]

/-- The last entry of its length that covers the address in the tree. -/
def Standing (inetAton : Bytes → Option UInt32) (entries : List Entry) (ip : UInt32)
    (entry : Entry) : Prop :=
  entry.addr ≠ allText ∧ Covers inetAton ip entry ∧
    ∃ before after, entries = before ++ entry :: after ∧
      ∀ other ∈ after, other.addr ≠ allText → other.mastlen = entry.mastlen →
        ¬ Covers inetAton ip other

/-- The longest entry of the tree that covers the address and has a city. -/
structure Walked (inetAton : Bytes → Option UInt32) (entries : List Entry) (ip : UInt32)
    (entry : Entry) : Prop where
  standing : Standing inetAton entries ip entry
  proper : 1 ≤ entry.mastlen
  named : entry.area.named
  longest : ∀ other, Standing inetAton entries ip other → entry.mastlen < other.mastlen →
    ¬ other.area.named

theorem place_eq_iff {k : Nat} {entry : Entry} (below : 1 ≤ k) :
    bits ip k = entry.place inetAton ↔
      entry.addr ≠ allText ∧ entry.mastlen.toNat = k ∧ Covers inetAton ip entry := by
  rw [Entry.place, Covers, Entry.ip]
  by_cases all : entry.addr = allText
  · rw [if_pos all]
    refine iff_of_false (fun empty => ?_) fun both => both.1 all
    have := congrArg List.length empty
    rw [length_bits, List.length_nil] at this
    omega
  · rw [if_neg all, if_neg all]
    constructor
    · intro same
      have long := congrArg List.length same
      rw [length_bits, length_bits] at long
      exact ⟨all, long.symm, long ▸ same⟩
    · rintro ⟨-, rfl, same⟩
      exact same

/-- What the tree holds `k` steps down the way of an address. -/
theorem stored_iff {k : Nat} {entry : Entry} (below : 1 ≤ k) :
    (entries.filter fun other => bits ip k = other.place inetAton).getLast? = some entry ↔
      Standing inetAton entries ip entry ∧ entry.mastlen.toNat = k := by
  rw [getLast?_filter_iff]
  simp only [decide_eq_true_eq]
  constructor
  · rintro ⟨here, before, after, split, none⟩
    obtain ⟨plain, long, covers⟩ := (place_eq_iff below).mp here
    refine ⟨⟨plain, covers, before, after, split, fun other later plain' same covers' => ?_⟩, long⟩
    exact none other later ((place_eq_iff below).mpr ⟨plain', same ▸ long, covers'⟩)
  · rintro ⟨⟨plain, covers, before, after, split, none⟩, long⟩
    refine ⟨(place_eq_iff below).mpr ⟨plain, long, covers⟩, before, after, split, ?_⟩
    intro other later here
    obtain ⟨plain', long', covers'⟩ := (place_eq_iff below).mp here
    exact none other later plain' (UInt32.toNat_inj.mp (long'.trans long.symm)) covers'

theorem standing_unique {entry other : Entry} (one : Standing inetAton entries ip entry)
    (two : Standing inetAton entries ip other) (same : entry.mastlen = other.mastlen)
    (proper : 1 ≤ entry.mastlen) : entry = other := by
  have below : 1 ≤ entry.mastlen.toNat := UInt32.le_iff_toNat_le.mp proper
  have first := (stored_iff below).mpr ⟨one, rfl⟩
  have second := (stored_iff below).mpr ⟨two, congrArg UInt32.toNat same.symm⟩
  exact Option.some.inj (first.symm.trans second)

theorem walked_unique {entry other : Entry} (one : Walked inetAton entries ip entry)
    (two : Walked inetAton entries ip other) : entry = other := by
  have upper : ¬ entry.mastlen < other.mastlen := fun longer =>
    one.longest other two.standing longer two.named
  have lower : ¬ other.mastlen < entry.mastlen := fun longer =>
    two.longest entry one.standing longer one.named
  rw [UInt32.lt_iff_toNat_lt] at upper lower
  exact standing_unique one.standing two.standing (UInt32.toNat_inj.mp (by omega)) one.proper

/-- What is filed some steps down the way. -/
def areaAt (inetAton : Bytes → Option UInt32) (entries : List Entry) (ip : UInt32)
    (k : Nat) : Area :=
  Trie.dataAt {} (bits ip k) (filed inetAton entries)

theorem areaAt_eq {k : Nat} (below : 1 ≤ k) :
    areaAt inetAton entries ip k =
      ((entries.filter fun other => bits ip k = other.place inetAton).getLast?.map
        Entry.area).getD {} := by
  have blank : Trie.dataAt {} (bits ip k) init = {} := by
    obtain ⟨j, rfl⟩ := Nat.exists_eq_add_of_le' below
    have long := length_bits ip (j + 1)
    cases path : bits ip (j + 1) with
    | nil => rw [path] at long; cases long
    | cons bit path =>
      rw [Trie.dataAt, init, Trie.get_cons]
      cases bit <;> rw [Trie.child] <;> simp
  rw [areaAt, filed, Trie.dataAt_puts, blank]

theorem named_iff {k : Nat} (below : 1 ≤ k) :
    (areaAt inetAton entries ip k).named ↔
      ∃ entry, Standing inetAton entries ip entry ∧ entry.mastlen.toNat = k ∧
        entry.area.named ∧ areaAt inetAton entries ip k = entry.area := by
  rw [areaAt_eq below]
  constructor
  · intro mark
    cases held : (entries.filter fun other => bits ip k = other.place inetAton).getLast? with
    | none => rw [held] at mark; cases mark
    | some entry =>
      rw [held] at mark
      obtain ⟨standing, long⟩ := (stored_iff below).mp held
      exact ⟨entry, standing, long, mark, rfl⟩
  · rintro ⟨entry, standing, long, mark, same⟩
    rw [same]
    exact mark

/-- The walk ends with the text of the longest entry that has a city. -/
theorem get_cases (fits : Fits entries) (positive : resolve inetAton stale sAddr ≠ 0) :
    (∃ entry, Walked inetAton entries (resolve inetAton stale sAddr) entry ∧
      get inetAton (filed inetAton entries) stale sAddr sArea = entry.area.text) ∨
    ((∀ entry, ¬ Walked inetAton entries (resolve inetAton stale sAddr) entry) ∧
      get inetAton (filed inetAton entries) stale sAddr sArea = sArea) := by
  rw [get, if_neg positive, Trie.visited_foldl Area.named Area.text
    (show Area.named {} = false from rfl), length_bits]
  generalize resolve inetAton stale sAddr = ip
  have same : ∀ k < 32, Trie.dataAt {} ((bits ip 32).take (k + 1)) (filed inetAton entries) =
      areaAt inetAton entries ip (k + 1) := fun k inside => by
    rw [take_bits, Nat.min_eq_left (Nat.succ_le_of_lt inside), areaAt]
  have inside : ∀ {entry}, Standing inetAton entries ip entry → entry.mastlen.toNat ≤ 32 := by
    rintro entry ⟨-, -, before, after, split, -⟩
    exact fits entry (split ▸ List.mem_append_right _ List.mem_cons_self)
  -- an entry of the tree is met at the step of its length
  have met : ∀ {entry}, Standing inetAton entries ip entry → 1 ≤ entry.mastlen →
      entry.area.named → ∃ k < 32, entry.mastlen.toNat = k + 1 ∧
        (Trie.dataAt {} ((bits ip 32).take (k + 1)) (filed inetAton entries)).named := by
    intro entry standing proper mark
    have below : 1 ≤ entry.mastlen.toNat := UInt32.le_iff_toNat_le.mp proper
    have above := inside standing
    refine ⟨entry.mastlen.toNat - 1, by omega, by omega, ?_⟩
    rw [same _ (by omega), Nat.sub_add_cancel below, areaAt_eq below,
      (stored_iff below).mpr ⟨standing, rfl⟩]
    exact mark
  cases last : ((List.range 32).filter fun k => Area.named
      (Trie.dataAt {} ((bits ip 32).take (k + 1)) (filed inetAton entries))).getLast? with
  | none =>
    refine .inr ⟨fun entry walked => ?_, rfl⟩
    obtain ⟨k, below, -, mark⟩ := met walked.standing walked.proper walked.named
    exact List.filter_eq_nil_iff.mp (List.getLast?_eq_none_iff.mp last) k
      (List.mem_range.mpr below) mark
  | some k =>
    obtain ⟨below, mark, none⟩ := last_range last
    rw [same k below, named_iff (Nat.le_add_left 1 k)] at mark
    obtain ⟨entry, standing, long, mark, text⟩ := mark
    refine .inl ⟨entry, ⟨standing, UInt32.le_iff_toNat_le.mpr ?_, mark, ?_⟩, ?_⟩
    · exact long ▸ Nat.le_add_left 1 k
    · intro other standing' longer mark'
      rw [UInt32.lt_iff_toNat_lt] at longer
      obtain ⟨j, below', long', there⟩ :=
        met standing' (UInt32.le_iff_toNat_le.mpr (by change 1 ≤ _; omega)) mark'
      exact none j (by omega) below' there
    · rw [Option.map_some, Option.getD_some, same k below, text]

theorem get_walked (fits : Fits entries) (positive : resolve inetAton stale sAddr ≠ 0)
    {entry : Entry} (walked : Walked inetAton entries (resolve inetAton stale sAddr) entry) :
    get inetAton (filed inetAton entries) stale sAddr sArea = entry.area.text := by
  rcases get_cases fits positive with ⟨other, walked', text⟩ | ⟨none, -⟩
  · rw [text, walked_unique walked walked']
  · exact absurd walked (none entry)

theorem longest_le {best other : Entry} (longest : Longest inetAton entries ip best)
    (inside : other ∈ entries) (covers : Covers inetAton ip other) :
    other.mastlen ≤ best.mastlen := by
  obtain ⟨before, after, rfl, -, first, last⟩ := longest
  rcases List.mem_append.mp inside with earlier | later
  · exact first other earlier covers
  · rcases List.mem_cons.mp later with rfl | later
    · exact UInt32.le_refl _
    · exact UInt32.le_of_lt (last other later covers)

theorem longest_snoc {best other : Entry} (longest : Longest inetAton entries ip best)
    (shorter : Covers inetAton ip other → other.mastlen < best.mastlen) :
    Longest inetAton (entries ++ [other]) ip best := by
  obtain ⟨before, after, rfl, covers, first, last⟩ := longest
  refine ⟨before, after ++ [other], by simp, covers, first, fun later inside => ?_⟩
  rcases List.mem_append.mp inside with old | new
  · exact last later old
  · rw [List.mem_singleton.mp new]
    exact shorter

theorem longest_exists (entries : List Entry) :
    (∃ entry ∈ entries, Covers inetAton ip entry) → ∃ best, Longest inetAton entries ip best := by
  induction entries using List.reverseRecOn with
  | nil => simp
  | append_singleton entries last ih =>
    rintro ⟨entry, inside, covers⟩
    by_cases longer : ∃ other ∈ entries, Covers inetAton ip other ∧
        (Covers inetAton ip last → last.mastlen < other.mastlen)
    · obtain ⟨other, held, covers', longer⟩ := longer
      obtain ⟨best, longest⟩ := ih ⟨other, held, covers'⟩
      exact ⟨best, longest_snoc longest fun covered =>
        UInt32.lt_of_lt_of_le (longer covered) (longest_le longest held covers')⟩
    · have here : Covers inetAton ip last ∧ ∀ other ∈ entries, Covers inetAton ip other →
          other.mastlen ≤ last.mastlen := by
        have most : ∀ other ∈ entries, Covers inetAton ip other →
            Covers inetAton ip last ∧ other.mastlen ≤ last.mastlen := by
          intro other held covers'
          by_contra lacking
          refine longer ⟨other, held, covers', fun covered => ?_⟩
          exact UInt32.not_le.mp fun upper => lacking ⟨covered, upper⟩
        refine ⟨?_, fun other held covers' => (most other held covers').2⟩
        rcases List.mem_append.mp inside with held | same
        · exact (most entry held covers).1
        · exact List.mem_singleton.mp same ▸ covers
      exact ⟨last, entries, [], rfl, here.1, here.2, fun _ => by simp⟩

theorem walked_of_longest (proper : ∀ entry ∈ entries, entry.area.city ≠ [] ∧
    1 ≤ entry.mastlen ∧ entry.addr ≠ allText) {best : Entry}
    (longest : Longest inetAton entries ip best) : Walked inetAton entries ip best := by
  have held : ∀ {other}, Standing inetAton entries ip other → other ∈ entries := by
    rintro other ⟨-, -, before, after, rfl, -⟩
    exact List.mem_append_right _ List.mem_cons_self
  have standing : Standing inetAton entries ip best := by
    obtain ⟨before, after, rfl, covers, -, last⟩ := longest
    have inside : best ∈ before ++ best :: after := List.mem_append_right _ List.mem_cons_self
    refine ⟨(proper best inside).2.2, covers, before, after, rfl, ?_⟩
    rintro other later - same covers'
    exact absurd same (UInt32.ne_of_lt (last other later covers'))
  obtain ⟨city, positive, -⟩ := proper best (held standing)
  refine ⟨standing, positive, by simpa [Area.named] using city, fun other standing' longer => ?_⟩
  exact absurd (longest_le longest (held standing') standing'.2.1) (UInt32.not_le.mpr longer)

/-- **The longest prefix wins.** The list holds other entries than 0.0.0.0, all of them with a
city and a mask of 1 to 32 bits, and one covers the address. -/
theorem get_longest (inetAton : Bytes → Option UInt32) (entries : List Entry)
    (ordinary : ∀ entry ∈ entries, entry.area.city ≠ [] ∧ 1 ≤ entry.mastlen ∧
      entry.mastlen ≤ 32 ∧ entry.addr ≠ allText)
    (stale : UInt32) (sAddr sArea : Bytes) (positive : resolve inetAton stale sAddr ≠ 0)
    (covered : ∃ entry ∈ entries, Covers inetAton (resolve inetAton stale sAddr) entry) :
    ∃ entry, Longest inetAton entries (resolve inetAton stale sAddr) entry ∧
      answer inetAton entries stale sAddr sArea = some entry.area.text := by
  obtain ⟨best, longest⟩ := longest_exists entries covered
  have fits : Fits entries := fun entry inside =>
    UInt32.le_iff_toNat_le.mp (ordinary entry inside).2.2.1
  have proper : ∀ entry ∈ entries, entry.area.city ≠ [] ∧ 1 ≤ entry.mastlen ∧
      entry.addr ≠ allText := fun entry inside =>
    ⟨(ordinary entry inside).1, (ordinary entry inside).2.1, (ordinary entry inside).2.2.2⟩
  refine ⟨best, longest, ?_⟩
  rw [answer_fits fits, get_walked fits positive (walked_of_longest proper longest)]

/-- The areas that the witness uses. -/
def longArea : Area := ⟨ascii "0086", ascii "Jiangsu", ascii "Nanjing"⟩
def shortArea : Area := ⟨ascii "0086", ascii "Jiangsu", ascii "Suzhou"⟩

/-- inet_aton on two texts. -/
def twoTexts (text : Bytes) : Option UInt32 :=
  if text = ascii "10.0.0.0" then some 0x0A000000
  else if text = ascii "10.1.2.3" then some 0x0A010203
  else none

def twoPrefixes : List Entry :=
  [⟨longArea, ascii "10.0.0.0", 12, 0⟩, ⟨shortArea, ascii "10.0.0.0", 8, 0⟩]

theorem twoPrefixes_longest :
    ∃ entry, Longest twoTexts twoPrefixes (resolve twoTexts 0 (ascii "10.1.2.3")) entry ∧
      answer twoTexts twoPrefixes 0 (ascii "10.1.2.3") [] = some entry.area.text :=
  get_longest twoTexts twoPrefixes (by decide) 0 (ascii "10.1.2.3") [] (by decide) (by decide)

/-- The last entry of a kind. -/
def LastOf (kind : Entry → Prop) (entries : List Entry) (entry : Entry) : Prop :=
  kind entry ∧ ∃ before after, entries = before ++ entry :: after ∧ ∀ other ∈ after, ¬ kind other

/-- The entry for all addresses. -/
def Default (entry : Entry) : Prop := entry.addr = allText ∧ entry.mastlen = 0

/-- Entries that are filed at the root. -/
def AtRoot (entry : Entry) : Prop := entry.addr = allText ∨ entry.mastlen = 0

/-- The prefixes of at least one bit. -/
def prefixes (entries : List Entry) : List Entry := entries.filter fun entry => 1 ≤ entry.mastlen

/-- What is promised for one address: the default where no prefix covers it, the area of a
prefix 0.0.0.0 where that is the longest one, and no effect of such a prefix elsewhere. -/
structure AreasRight (inetAton : Bytes → Option UInt32) (entries : List Entry) (stale : UInt32)
    (sAddr : Bytes) : Prop where
  uncovered : (∀ entry ∈ prefixes entries, ¬ Covers inetAton (resolve inetAton stale sAddr) entry) →
    ∀ entry, LastOf Default entries entry →
      ∀ sArea, answer inetAton entries stale sAddr sArea = some entry.area.text
  within : ∀ entry, entry.addr = allText →
    Longest inetAton (prefixes entries) (resolve inetAton stale sAddr) entry →
      ∀ sArea, answer inetAton entries stale sAddr sArea = some entry.area.text
  outside : ∀ before entry after, entries = before ++ entry :: after → entry.addr = allText →
    1 ≤ entry.mastlen → ¬ Covers inetAton (resolve inetAton stale sAddr) entry →
      ∀ sArea, answer inetAton entries stale sAddr sArea =
        answer inetAton (before ++ after) stale sAddr sArea

/-- A prefix covers the address, and a longest one 0.0.0.0 has the area of the one walked to. -/
def CoveredElsewhere (inetAton : Bytes → Option UInt32) (entries : List Entry)
    (ip : UInt32) : Prop :=
  (∃ entry ∈ prefixes entries, Covers inetAton ip entry) ∧
  ∀ entry, entry.addr = allText → Longest inetAton (prefixes entries) ip entry →
    ∃ walked, Walked inetAton entries ip walked ∧ walked.area.text = entry.area.text

/-- The last entry at the root has the area that the address zero is to get. -/
def RootRight (inetAton : Bytes → Option UInt32) (entries : List Entry) : Prop :=
  ∀ root, LastOf AtRoot entries root →
    ((∀ entry ∈ prefixes entries, ¬ Covers inetAton 0 entry) →
      ∀ entry, LastOf Default entries entry → root.area.text = entry.area.text) ∧
    ∀ entry, entry.addr = allText → Longest inetAton (prefixes entries) 0 entry →
      root.area.text = entry.area.text

theorem lastOf_iff {kind : Entry → Prop} [DecidablePred kind] {entry : Entry} :
    (entries.filter fun other => kind other).getLast? = some entry ↔
      LastOf kind entries entry := by
  rw [getLast?_filter_iff, LastOf]
  simp only [decide_eq_true_eq]

theorem lastOf_exists {kind : Entry → Prop} {entry : Entry} (inside : entry ∈ entries)
    (here : kind entry) : ∃ last, LastOf kind entries last := by
  classical
  cases last : (entries.filter fun other => kind other).getLast? with
  | none =>
    have none := List.filter_eq_nil_iff.mp (List.getLast?_eq_none_iff.mp last) entry inside
    exact absurd here (by simpa using none)
  | some entry => exact ⟨entry, lastOf_iff.mp last⟩

theorem atRoot_iff {entry : Entry} : [] = entry.place inetAton ↔ AtRoot entry := by
  rw [Entry.place, AtRoot]
  by_cases all : entry.addr = allText
  · rw [if_pos all]
    exact iff_of_true rfl (.inl all)
  · rw [if_neg all, eq_comm, ← List.length_eq_zero_iff, length_bits, or_iff_right all,
      ← UInt32.toNat_inj, UInt32.toNat_zero]

theorem get_zero {root : Entry} (last : LastOf AtRoot entries root)
    (zero : resolve inetAton stale sAddr = 0) :
    get inetAton (filed inetAton entries) stale sAddr sArea = root.area.text := by
  have atRoot : ∀ tree : Trie Area, rootArea tree = Trie.dataAt {} [] tree := fun tree => by
    cases tree <;> rfl
  have held : (entries.filter fun other => [] = other.place inetAton).getLast? = some root := by
    rw [getLast?_filter_iff]
    simpa only [decide_eq_true_eq, atRoot_iff, LastOf] using last
  simp only [get]
  rw [if_pos zero, atRoot, filed, Trie.dataAt_puts, held]
  rfl

/-- Lists that file the same below the root answer the same for an address that is not zero. -/
theorem get_congr {entries' : List Entry} (positive : resolve inetAton stale sAddr ≠ 0)
    (same : ∀ k, 1 ≤ k → areaAt inetAton entries (resolve inetAton stale sAddr) k =
      areaAt inetAton entries' (resolve inetAton stale sAddr) k) :
    get inetAton (filed inetAton entries) stale sAddr sArea =
      get inetAton (filed inetAton entries') stale sAddr sArea := by
  have step : ∀ k, Trie.dataAt {} ((bits (resolve inetAton stale sAddr) 32).take (k + 1))
      (filed inetAton entries) = Trie.dataAt {} ((bits (resolve inetAton stale sAddr) 32).take
        (k + 1)) (filed inetAton entries') := by
    intro k
    rw [take_bits]
    exact same _ (by omega)
  have blank : Area.named {} = false := rfl
  simp only [get]
  rw [if_neg positive, if_neg positive, Trie.visited_foldl Area.named Area.text blank,
    Trie.visited_foldl Area.named Area.text blank]
  simp only [step]

theorem areaAt_remove {before after : List Entry} {entry : Entry} {k : Nat} (below : 1 ≤ k)
    (all : entry.addr = allText) :
    areaAt inetAton (before ++ entry :: after) ip k = areaAt inetAton (before ++ after) ip k := by
  have elsewhere : ¬ bits ip k = entry.place inetAton := fun here =>
    ((place_eq_iff below).mp here).1 all
  rw [areaAt_eq below, areaAt_eq below, List.filter_append, List.filter_append,
    List.filter_cons_of_neg (by simpa using elsewhere)]

theorem mem_prefixes {entry : Entry} :
    entry ∈ prefixes entries ↔ entry ∈ entries ∧ 1 ≤ entry.mastlen := by
  rw [prefixes, List.mem_filter, decide_eq_true_eq]

theorem prefix_of_walked {entry : Entry} (walked : Walked inetAton entries ip entry) :
    entry ∈ prefixes entries ∧ Covers inetAton ip entry := by
  obtain ⟨-, covers, before, after, rfl, -⟩ := walked.standing
  exact ⟨mem_prefixes.mpr ⟨List.mem_append_right _ List.mem_cons_self, walked.proper⟩, covers⟩

theorem covers_zero {entry : Entry} (all : entry.addr = allText) : Covers inetAton 0 entry := by
  rw [Covers, Entry.ip, if_pos all]

/-- An answer that is the same text whatever the caller's text was has been walked to. -/
theorem walked_of_answers (fits : Fits entries) (positive : resolve inetAton stale sAddr ≠ 0)
    {area : Area} (answers : ∀ sArea, answer inetAton entries stale sAddr sArea = some area.text) :
    ∃ walked, Walked inetAton entries (resolve inetAton stale sAddr) walked ∧
      walked.area.text = area.text := by
  have read := answers (area.text ++ [0])
  rw [answer_fits fits] at read
  rcases get_cases fits positive with ⟨walked, reached, text⟩ | ⟨-, text⟩
  · rw [text] at read
    exact ⟨walked, reached, Option.some.inj read⟩
  · rw [text] at read
    have long := congrArg List.length (Option.some.inj read)
    rw [List.length_append, List.length_singleton] at long
    omega

/-- For the address zero the last writer of the root decides. -/
theorem areasRight_zero (fits : Fits entries) {default : Entry} (inside : default ∈ entries)
    (isDefault : Default default) (zero : resolve inetAton stale sAddr = 0) :
    AreasRight inetAton entries stale sAddr ↔ RootRight inetAton entries := by
  obtain ⟨root, last⟩ : ∃ root, LastOf AtRoot entries root :=
    lastOf_exists inside (.inl isDefault.1)
  have answers : ∀ sArea, answer inetAton entries stale sAddr sArea = some root.area.text :=
    fun sArea => by rw [answer_fits fits, get_zero last zero]
  constructor
  · rintro ⟨uncovered, within, -⟩ other last'
    have same : other = root := by
      classical
      exact Option.some.inj ((lastOf_iff.mpr last').symm.trans (lastOf_iff.mpr last))
    rw [zero] at uncovered within
    subst same
    refine ⟨fun none entry isLast => ?_, fun entry all longest => ?_⟩
    · exact Option.some.inj ((answers []).symm.trans (uncovered none entry isLast []))
    · exact Option.some.inj ((answers []).symm.trans (within entry all longest []))
  · intro right
    obtain ⟨uncovered, within⟩ := right root last
    rw [← zero] at uncovered within
    refine ⟨fun none entry isLast sArea => ?_, fun entry all longest sArea => ?_, ?_⟩
    · rw [answers, uncovered none entry isLast]
    · rw [answers, within entry all longest]
    · rintro before entry after - all - apart
      rw [zero] at apart
      exact absurd (covers_zero all) apart

/-- For another address the walk below the root decides. -/
theorem areasRight_positive (fits : Fits entries) {default : Entry} (inside : default ∈ entries)
    (isDefault : Default default) (positive : resolve inetAton stale sAddr ≠ 0) :
    AreasRight inetAton entries stale sAddr ↔
      CoveredElsewhere inetAton entries (resolve inetAton stale sAddr) := by
  constructor
  · rintro ⟨uncovered, within, -⟩
    refine ⟨?_, fun entry all longest => ?_⟩
    · by_contra none
      obtain ⟨last, isLast⟩ := lastOf_exists inside isDefault
      obtain ⟨walked, reached, -⟩ := walked_of_answers fits positive
        (uncovered (fun entry held covers => none ⟨entry, held, covers⟩) last isLast)
      exact none ⟨walked, prefix_of_walked reached⟩
    · exact walked_of_answers fits positive (within entry all longest)
  · rintro ⟨⟨entry, held, covers⟩, texts⟩
    refine ⟨fun none => absurd covers (none entry held), fun other all longest sArea => ?_, ?_⟩
    · obtain ⟨walked, reached, text⟩ := texts other all longest
      rw [answer_fits fits, get_walked fits positive reached, text]
    · rintro before other after rfl all - - sArea
      have fits' : Fits (before ++ after) := fun entry inside => by
        refine fits entry ?_
        rcases List.mem_append.mp inside with earlier | later
        · exact List.mem_append_left _ earlier
        · exact List.mem_append_right _ (List.mem_cons_of_mem _ later)
      rw [answer_fits fits, answer_fits fits',
        get_congr positive fun k below => areaAt_remove below all]

/-- **Areas of 0.0.0.0.** A list with an entry for all addresses keeps its promise for an
address exactly if other entries answer in the place of the 0.0.0.0 ones, or, for the address
zero, the last writer of the root has the right area. -/
theorem areasRight_iff (inetAton : Bytes → Option UInt32) (entries : List Entry)
    (fits : Fits entries) (held : ∃ entry ∈ entries, Default entry)
    (stale : UInt32) (sAddr : Bytes) :
    AreasRight inetAton entries stale sAddr ↔
      if resolve inetAton stale sAddr = 0 then RootRight inetAton entries
      else CoveredElsewhere inetAton entries (resolve inetAton stale sAddr) := by
  obtain ⟨default, inside, isDefault⟩ := held
  split
  · next zero => exact areasRight_zero fits inside isDefault zero
  · next positive => exact areasRight_positive fits inside isDefault positive

def allChina : Area := ⟨ascii "0086", ascii "ffff", ascii "ffff"⟩

def defaultOnly : List Entry := [⟨allChina, allText, 0, 0⟩]

theorem defaultOnly_areasRight_iff :
    AreasRight twoTexts defaultOnly 0 (ascii "10.1.2.3") ↔
      if resolve twoTexts 0 (ascii "10.1.2.3") = 0 then RootRight twoTexts defaultOnly
      else CoveredElsewhere twoTexts defaultOnly (resolve twoTexts 0 (ascii "10.1.2.3")) :=
  areasRight_iff twoTexts defaultOnly (by unfold Fits; decide)
    ⟨_, List.mem_cons_self, rfl, rfl⟩ 0 (ascii "10.1.2.3")

/-- An address that no prefix covers keeps the text of the caller. -/
theorem defaultOnly_lost : ¬ AreasRight twoTexts defaultOnly 0 (ascii "10.1.2.3") := by
  intro right
  have read := right.uncovered (by decide) ⟨allChina, allText, 0, 0⟩
    ⟨⟨rfl, rfl⟩, [], [], rfl, by simp⟩ []
  have lost : answer twoTexts defaultOnly 0 (ascii "10.1.2.3") [] = some [] := by decide
  rw [lost] at read
  exact absurd read (by decide)

end IpArea
