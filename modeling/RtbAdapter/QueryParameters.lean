import RtbAdapter.HttpParser

/-!
# The parameters of a query

A query is read from pair to pair: a name ends at the first equals sign and a value at
the next ampersand. A map has one value for a name, that of the last pair.
-/

namespace QueryParameters

open ByteWords CText HttpParser

abbrev Pair := Bytes × Bytes

/-- A pair that can be told apart from what stands around it. -/
structure Pair.Plain (pair : Pair) : Prop where
  named : pair.1 ≠ []
  name : 61 ∉ pair.1
  whole : 38 ∉ pair.1
  value : 38 ∉ pair.2

def Pair.text (pair : Pair) : Bytes := pair.1 ++ ascii "=" ++ pair.2

/-- `name=value&name=value...` -/
def query (pairs : List Pair) : Bytes := (ascii "&").intercalate (pairs.map Pair.text)

/-- A value is the one of the last pair of its name. -/
def LastOf (pairs : List Pair) (name value : Bytes) : Prop :=
  ∃ front back, pairs = front ++ (name, value) :: back ∧ ∀ pair ∈ back, pair.1 ≠ name

variable {pair : Pair} {pairs : List Pair} {paras : Attrs}

theorem takeWhile_until {b : UInt8} {s : Bytes} (clean : b ∉ s) (t : Bytes) :
    (s ++ b :: t).takeWhile (· ≠ b) = s ∧ (s ++ b :: t).dropWhile (· ≠ b) = b :: t := by
  have all : ∀ c ∈ s, decide (c ≠ b) = true := by
    intro c inside
    exact decide_eq_true fun same => clean (same ▸ inside)
  rw [List.takeWhile_append_of_pos all, List.dropWhile_append_of_pos all]
  simp

theorem dropWhile_none {b : UInt8} {s : Bytes} (clean : b ∉ s) :
    s.dropWhile (· ≠ b) = [] := by
  rw [List.dropWhile_eq_nil_iff]
  intro c inside
  exact decide_eq_true fun same => clean (same ▸ inside)

theorem query_cons (pair next : Pair) (pairs : List Pair) :
    query (pair :: next :: pairs) = pair.1 ++ 61 :: (pair.2 ++ 38 :: query (next :: pairs)) := by
  have equals : ascii "=" = [61] := rfl
  have ampersand : ascii "&" = [38] := rfl
  simp only [query, Pair.text, equals, ampersand, List.map_cons, List.intercalate_cons_cons,
    List.append_assoc, List.cons_append, List.nil_append]

theorem query_single (pair : Pair) : query [pair] = pair.1 ++ 61 :: pair.2 := by
  have equals : ascii "=" = [61] := rfl
  simp only [query, Pair.text, equals, List.map_cons, List.map_nil, List.intercalate_singleton,
    List.append_assoc, List.singleton_append]

/-- The loop takes the pairs one by one, each in front of those before it. -/
theorem paraPairs_query {fuel : Nat} (plain : ∀ pair ∈ pairs, pair.Plain)
    (enough : pairs.length < fuel) :
    paraPairs fuel (query pairs) paras = pairs.reverse ++ paras := by
  induction pairs generalizing fuel paras with
  | nil =>
    cases fuel <;> rfl
  | cons pair pairs ih =>
    obtain ⟨fuel, rfl⟩ := Nat.exists_eq_succ_of_ne_zero (Nat.ne_zero_of_lt enough)
    obtain ⟨here, others⟩ := List.forall_mem_cons.mp plain
    cases pairs with
    | nil =>
      obtain ⟨name, rest⟩ := takeWhile_until here.name pair.2
      rw [query_single, paraPairs, rest]
      dsimp only
      rw [dropWhile_none here.value, name]
      rfl
    | cons next pairs =>
      obtain ⟨name, rest⟩ :=
        takeWhile_until here.name (pair.2 ++ 38 :: query (next :: pairs))
      obtain ⟨value, more⟩ := takeWhile_until here.value (query (next :: pairs))
      have room : (next :: pairs).length < fuel := by simpa using enough
      rw [query_cons, paraPairs, rest]
      dsimp only
      rw [more, name, value]
      dsimp only
      rw [ih others room, List.reverse_cons (a := pair), List.append_assoc]
      rfl

/-- A name has a character at least, so a query has as many as there are pairs. -/
theorem length_query (plain : ∀ pair ∈ pairs, pair.Plain) :
    pairs.length ≤ (query pairs).length := by
  induction pairs with
  | nil => exact Nat.zero_le _
  | cons pair pairs ih =>
    obtain ⟨here, others⟩ := List.forall_mem_cons.mp plain
    cases pairs with
    | nil =>
      rw [query_single]
      simp only [List.length_cons, List.length_nil, List.length_append]
      omega
    | cons next pairs =>
      have rest := ih others
      rw [query_cons]
      simp only [List.length_cons, List.length_append] at rest ⊢
      omega

/-- No equals sign stands in front of the first name. -/
theorem query_starts (plain : ∀ pair ∈ pairs, pair.Plain) :
    (query pairs).dropWhile (· = 61) = query pairs := by
  cases pairs with
  | nil => rfl
  | cons pair pairs =>
    obtain ⟨here, -⟩ := List.forall_mem_cons.mp plain
    obtain ⟨b, letters, name⟩ := List.exists_cons_of_ne_nil here.named
    obtain ⟨rest, text⟩ : ∃ rest, query (pair :: pairs) = b :: rest := by
      cases pairs with
      | nil => exact ⟨_, by rw [query_single, name]; rfl⟩
      | cons next pairs => exact ⟨_, by rw [query_cons, name]; rfl⟩
    have other : b ≠ 61 := fun same => here.name (by rw [name, same]; exact List.mem_cons_self)
    rw [text, List.dropWhile_cons_of_neg (by simpa using other)]

theorem parsePara_eq (plain : ∀ pair ∈ pairs, pair.Plain) :
    parsePara (query pairs) paras = pairs.reverse ++ paras := by
  rw [parsePara, query_starts plain]
  exact paraPairs_query plain (Nat.lt_succ_of_le (length_query plain))

/-- The first pair of a name in the reversed list is the last one in the list. -/
theorem lookup_reverse (pairs : List Pair) (name value : Bytes) :
    (pairs.reverse ++ paras).lookup name = some value ↔
      LastOf pairs name value ∨
        (∀ pair ∈ pairs, pair.1 ≠ name) ∧ paras.lookup name = some value := by
  induction pairs generalizing paras with
  | nil =>
    constructor
    · exact fun found => .inr ⟨fun pair inside => absurd inside List.not_mem_nil, found⟩
    · rintro (⟨front, back, split, -⟩ | ⟨-, found⟩)
      · exact absurd split.symm (by simp)
      · exact found
  | cons pair pairs ih =>
    rw [List.reverse_cons, List.append_assoc, List.singleton_append, ih]
    constructor
    · rintro (⟨front, back, rfl, last⟩ | ⟨others, found⟩)
      · exact .inl ⟨pair :: front, back, rfl, last⟩
      · obtain ⟨first, second⟩ := pair
        by_cases same : name = first
        · subst same
          rw [List.lookup_cons_self, Option.some.injEq] at found
          subst found
          exact .inl ⟨[], pairs, rfl, others⟩
        · rw [List.lookup_cons, beq_eq_false_iff_ne.mpr same] at found
          exact .inr ⟨List.forall_mem_cons.mpr ⟨Ne.symm same, others⟩, found⟩
    · rintro (⟨front, back, split, last⟩ | ⟨others, found⟩)
      · cases front with
        | nil =>
          obtain ⟨rfl, rfl⟩ := List.cons_eq_cons.mp split
          exact .inr ⟨last, List.lookup_cons_self⟩
        | cons first front =>
          obtain ⟨rfl, rfl⟩ := List.cons_eq_cons.mp split
          exact .inl ⟨front, back, rfl, last⟩
      · obtain ⟨here, others⟩ := List.forall_mem_cons.mp others
        refine .inr ⟨others, ?_⟩
        rw [List.lookup_cons, beq_eq_false_iff_ne.mpr (Ne.symm here)]
        exact found

/-- A query leaves each name with the value of its last pair, and other names as they were. -/
theorem parsePara_query (pairs : List Pair) (plain : ∀ pair ∈ pairs, pair.Plain) (paras : Attrs)
    (name value : Bytes) :
    (parsePara (query pairs) paras).lookup name = some value ↔
      LastOf pairs name value ∨
        (∀ pair ∈ pairs, pair.1 ≠ name) ∧ paras.lookup name = some value := by
  rw [parsePara_eq plain]
  exact lookup_reverse pairs name value

/-- An empty value, one with an equals sign, and a name that comes twice. -/
theorem parsePara_twice :
    (parsePara (query [(ascii "a", []), (ascii "b", ascii "c=d"), (ascii "a", ascii "1")])
        []).lookup (ascii "a") = some (ascii "1") ↔
      LastOf [(ascii "a", []), (ascii "b", ascii "c=d"), (ascii "a", ascii "1")] (ascii "a")
          (ascii "1") ∨
        (∀ pair ∈ [(ascii "a", []), (ascii "b", ascii "c=d"), (ascii "a", ascii "1")],
          pair.1 ≠ ascii "a") ∧ ([] : Attrs).lookup (ascii "a") = some (ascii "1") := by
  refine parsePara_query _ (fun pair inside => ?_) [] (ascii "a") (ascii "1")
  simp only [List.mem_cons, List.not_mem_nil, or_false] at inside
  rcases inside with rfl | rfl | rfl <;> exact ⟨by decide, by decide, by decide, by decide⟩

end QueryParameters
