import RtbAdapter.CreativeKeys

/-!
# Landing pages that are not wanted

A place has a list of domains. An order is filed under the host of a destination and the
domains above it, but only the first material of each creative is looked at.
-/

namespace LandingPages

open ByteWords CText PlanningUnit RtbBase FilterTables FilterKeys FilterResults LoadedOrders
open MatchedOrders CreativeKeys Std

/-- `AdFilterLandingPage::match` with the lists of the places. -/
def landingPageMatch (unit : Nat → AdPlanningUnit) (table : AdMap Nat)
    (landPages : Bytes → Option (List Bytes)) (r : AdRtbRequest) (result : AdResult) : AdResult :=
  if (r.adx.toNat : Int) = adProtocolKeyAdxBaidu then
    match landPages (r.text .pId) with
    | some pages => eraseAll unit table pages result
    | none => result
  else result

/-- Labels with dots between them. -/
def hostOf (labels : List Bytes) : Bytes := (ascii ".").intercalate labels

/-- `scheme://host/path`, with the labels of the host. -/
structure Destination (url : Bytes) (labels : List Bytes) : Prop where
  some' : labels ≠ []
  each : ∀ label ∈ labels, label ≠ [] ∧ ∀ b ∈ ascii "/?.", b ∉ label
  clean : ∀ label ∈ labels, 0 ∉ label
  form : ∃ scheme path, scheme ≠ [] ∧ 47 ∉ scheme ∧
    url = scheme ++ ascii "://" ++ hostOf labels ++ ascii "/" ++ path

/-- A list has a host, or a domain above it with two labels or more. -/
def Unwanted (pages : List Bytes) (labels : List Bytes) : Prop :=
  hostOf labels ∈ pages ∨ ∃ n, 2 ≤ (labels.drop n).length ∧ hostOf (labels.drop n) ∈ pages

/-- The host and the domains above it with two labels or more. -/
def domains (labels : List Bytes) : List Bytes :=
  (List.range (labels.length - 1)).map fun n => hostOf (labels.drop n)

/-- The text in front of `//` is one piece. -/
theorem strSplitFrom_slashes {a : Bytes} (some' : a ≠ []) (clean : 47 ∉ a) (s : Bytes) :
    strSplitFrom (ascii "//") 0 [] (a ++ ascii "//" ++ s) =
      a :: strSplitFrom (ascii "//") 0 [] s := by
  have slashes : ascii "//" = [47, 47] := rfl
  rw [slashes, List.append_assoc, strSplitFrom_plain clean, List.nil_append]
  simp [strSplitFrom, List.isPrefixOf, some']

/-- The labels come back from the host. -/
theorem strSplit_hostOf {labels : List Bytes} (some' : labels ≠ [])
    (each : ∀ label ∈ labels, label ≠ [] ∧ 46 ∉ label) :
    strSplitFrom (ascii ".") 0 [] (hostOf labels) = labels := by
  have dot : ascii "." = [46] := rfl
  rw [hostOf, dot]
  induction labels with
  | nil => exact absurd rfl some'
  | cons label labels ih =>
    obtain ⟨⟨full, clean⟩, others⟩ := List.forall_mem_cons.mp each
    cases labels with
    | nil =>
      rw [List.intercalate_singleton, strSplitFrom_whole clean, List.nil_append, if_neg full]
    | cons next labels =>
      have cut : [(46 : UInt8)].intercalate (label :: next :: labels) =
          label ++ 46 :: [(46 : UInt8)].intercalate (next :: labels) := by
        rw [List.intercalate_cons_cons, List.append_assoc, List.singleton_append]
      rw [cut, strSplitFrom_cut clean (by simpa using full), List.nil_append,
        ih (List.cons_ne_nil _ _) others]

variable {url : Bytes} {labels : List Bytes}

/-- Labels that a URL is taken apart at nowhere else than between them. -/
def Plain (labels : List Bytes) : Prop :=
  ∀ label ∈ labels, label ≠ [] ∧ ∀ b ∈ ascii "/?.", b ∉ label

/-- A host starts with its first label. -/
theorem hostOf_head (some' : labels ≠ []) (each : Plain labels) :
    ∃ b rest, hostOf labels = b :: rest ∧ b ≠ 46 := by
  obtain ⟨label, others, rfl⟩ := List.exists_cons_of_ne_nil some'
  obtain ⟨full, apart⟩ := each label List.mem_cons_self
  obtain ⟨b, rest, rfl⟩ := List.exists_cons_of_ne_nil full
  have other : b ≠ 46 := fun same => apart 46 (by decide) (same ▸ List.mem_cons_self)
  cases others with
  | nil => exact ⟨b, rest, List.intercalate_singleton .., other⟩
  | cons next others => exact ⟨b, _, List.intercalate_cons_cons .., other⟩

theorem notMem_hostOf {b : UInt8} (other : b ≠ 46) (apart : ∀ label ∈ labels, b ∉ label) :
    b ∉ hostOf labels := by
  rw [hostOf]
  induction labels with
  | nil => exact List.not_mem_nil
  | cons label labels ih =>
    obtain ⟨here, others⟩ := List.forall_mem_cons.mp apart
    cases labels with
    | nil => rwa [List.intercalate_singleton]
    | cons next labels =>
      rw [List.intercalate_cons_cons, List.mem_append, List.mem_append, not_or, not_or]
      exact ⟨⟨here, fun dot => other (List.mem_singleton.mp dot)⟩, ih others⟩

/-- The first piece of a destination ends with the colon. -/
theorem strSplit_scheme {scheme : Bytes} (apart : 47 ∉ scheme) (s : Bytes) :
    strSplit (scheme ++ ascii "://" ++ s) (ascii "//") =
      (scheme ++ ascii ":") :: strSplitFrom (ascii "//") 0 [] s := by
  have whole : scheme ++ ascii "://" ++ s = (scheme ++ ascii ":") ++ ascii "//" ++ s := by
    have signs : ascii "://" = ascii ":" ++ ascii "//" := rfl
    rw [signs, List.append_assoc scheme (ascii ":"), ← List.append_assoc scheme]
  have colon : 47 ∉ scheme ++ ascii ":" := by
    rw [List.mem_append, not_or]
    exact ⟨apart, by decide⟩
  have full : scheme ++ ascii ":" ≠ [] := List.append_ne_nil_of_right_ne_nil _ (by decide)
  have starts : ∀ c ∈ (scheme ++ ascii ":" ++ ascii "//" ++ s).head?, c ∉ ascii "//" := by
    intro c first inside
    rw [List.append_assoc, List.head?_append_of_ne_nil _ full] at first
    have slash : c = 47 := by
      rcases List.mem_cons.mp inside with same | inside
      · exact same
      · exact List.mem_singleton.mp inside
    exact head_notMem colon c first (by rw [slash]; exact List.mem_singleton_self 47)
  have some' : scheme ++ ascii ":" ++ ascii "//" ++ s ≠ [] := by
    rw [List.append_assoc]
    exact List.append_ne_nil_of_left_ne_nil full _
  rw [whole, strSplit_eq some' starts, strSplitFrom_slashes full colon]

/-- A piece that starts with a host and goes on with the path gives the host. -/
theorem strSplit_path {host t path : Bytes} (full : host ≠ []) (slash : 47 ∉ host)
    (front : t <+: 47 :: path) : (strSplit (host ++ t) (ascii "/")).head? = some host := by
  have inFront : t.takeWhile (· ≠ 47) = [] := by
    cases t with
    | nil => rfl
    | cons c t =>
      obtain rfl := (List.cons_prefix_cons.mp front).1
      rfl
  have starts : ∀ c ∈ (host ++ t).head?, c ∉ ascii "/" := by
    intro c begin'
    rw [List.head?_append_of_ne_nil _ full] at begin'
    exact head_notMem slash c begin'
  obtain ⟨others, cut⟩ : ∃ others, strSplitFrom (ascii "/") 0 [] (host ++ t) =
      (host ++ t.takeWhile (· ≠ 47)) :: others := strSplitFrom_first slash full t
  rw [strSplit_eq (List.append_ne_nil_of_left_ne_nil full _) starts, cut, inFront,
    List.append_nil, List.head?_cons]

theorem strSplit_labels (some' : labels ≠ []) (each : Plain labels) :
    strSplit (hostOf labels) (ascii ".") = labels := by
  obtain ⟨b, rest, host, other⟩ := hostOf_head some' each
  have starts : ∀ c ∈ (hostOf labels).head?, c ∉ ascii "." := by
    rw [host]
    rintro _ ⟨⟩ inside
    exact other (List.mem_singleton.mp inside)
  rw [strSplit_eq (by simp [host]) starts]
  exact strSplit_hostOf some' fun label listed =>
    ⟨(each label listed).1, (each label listed).2 46 (by decide)⟩

/-- The source takes a URL apart into its host and the domains above. -/
theorem landingPageUrlParse_host {scheme : Bytes} (apart : 47 ∉ scheme) (some' : labels ≠ [])
    (each : Plain labels) (path : Bytes) :
    landingPageUrlParse (scheme ++ ascii "://" ++ hostOf labels ++ ascii "/" ++ path) =
      domains labels := by
  obtain ⟨b, rest, host, -⟩ := hostOf_head some' each
  have slash : 47 ∉ hostOf labels := notMem_hostOf (by decide) fun label listed =>
    (each label listed).2 47 (by decide)
  have mark : 63 ∉ hostOf labels := notMem_hostOf (by decide) fun label listed =>
    (each label listed).2 63 (by decide)
  have hostFull : hostOf labels ≠ [] := by simp [host]
  have whole : scheme ++ ascii "://" ++ hostOf labels ++ ascii "/" ++ path =
      scheme ++ ascii "://" ++ (hostOf labels ++ 47 :: path) := by
    have sign : ascii "/" = [47] := rfl
    simp only [sign, List.append_assoc, List.singleton_append]
  have slashes : ascii "//" = [47, 47] := rfl
  -- the first piece ends with the colon, the next one starts with the host
  obtain ⟨t, pieces, second, front⟩ : ∃ t pieces, strSplitFrom (ascii "//") 0 (hostOf labels)
      (47 :: path) = (hostOf labels ++ t) :: pieces ∧ t <+: 47 :: path :=
    strSplitFrom_front hostFull (47 :: path)
  have first : strSplit (scheme ++ ascii "://" ++ hostOf labels ++ ascii "/" ++ path)
      (ascii "//") = (scheme ++ ascii ":") :: (hostOf labels ++ t) :: pieces := by
    rw [whole, strSplit_scheme apart, slashes, strSplitFrom_plain slash, List.nil_append,
      ← slashes, second]
  have unmarked : strSplit (hostOf labels) (ascii "?") = [hostOf labels] :=
    strSplit_whole hostFull mark
  rw [landingPageUrlParse, first]
  dsimp only
  rw [strSplit_path hostFull slash front, Option.bind_some, unmarked, List.head?_cons,
    Option.getD_some, strSplit_labels some' each]
  rfl

theorem landingPageUrlParse_domains (there : Destination url labels) :
    landingPageUrlParse url = domains labels := by
  obtain ⟨scheme, path, -, apart, rfl⟩ := there.form
  exact landingPageUrlParse_host apart there.some' there.each path

theorem mem_domains {domain : Bytes} :
    domain ∈ domains labels ↔
      ∃ n, 2 ≤ (labels.drop n).length ∧ hostOf (labels.drop n) = domain := by
  rw [domains, List.mem_map]
  refine exists_congr fun n => and_congr_left fun _ => ?_
  rw [List.mem_range, List.length_drop]
  omega

theorem cStr_domain (there : Destination url labels) {domain : Bytes}
    (inside : domain ∈ domains labels) : cStr domain = domain := by
  obtain ⟨n, -, rfl⟩ := mem_domains.mp inside
  refine cStr_eq_self (notMem_hostOf (by decide) fun label listed => ?_)
  exact there.clean label (List.mem_of_mem_drop listed)

variable {u : AdPlanningUnit} {loaded : Loaded} {result : AdResult} {r : AdRtbRequest}
  {landPages : Bytes → Option (List Bytes)}

/-- The destinations of an order for the one exchange that has lists: some host, or a domain
above it, is on the list of the place. -/
def UnwantedMaterial (u : AdPlanningUnit) (pages : List Bytes) : Prop :=
  ∃ create, u.creativeInfo[(6 : UInt32)]? = some create ∧ ∃ m ∈ create.materials, ∃ labels,
    Destination m.destinationUrl labels ∧ Unwanted pages labels

/-- The first material of some creative leads to a domain of the list. -/
def FirstUnwanted (u : AdPlanningUnit) (pages : List Bytes) : Prop :=
  ∃ create ∈ creatives u, ∃ m ∈ create.materials.head?,
    ∃ domain ∈ landingPageUrlParse m.destinationUrl, cStr domain ∈ pages

theorem got_landingPage (push : u.time.push) (pages : List Bytes) :
    got pages (landingPageKeys u) ↔ FirstUnwanted u pages := by
  rw [got_iff, landingPageKeys, whenPushed, if_pos push]
  constructor
  · rintro ⟨key, asked, listed⟩
    obtain ⟨create, held, listed⟩ := List.mem_flatMap.mp listed
    cases materials : create.materials with
    | nil =>
      rw [materials] at listed
      exact absurd listed List.not_mem_nil
    | cons m others =>
      rw [materials] at listed
      obtain ⟨domain, parsed, rfl⟩ := List.mem_map.mp listed
      exact ⟨create, held, m, by rw [materials]; rfl, domain, parsed, asked⟩
  · rintro ⟨create, held, m, first, domain, parsed, asked⟩
    refine ⟨cStr domain, asked, List.mem_flatMap.mpr ⟨create, held, ?_⟩⟩
    obtain ⟨others, materials⟩ := List.head?_eq_some_iff.mp first
    rw [materials]
    exact List.mem_map_of_mem parsed

/-- A first material leads to the domains of its host. -/
theorem firstUnwanted_of_first {pages : List Bytes} {create : AdCreativeInfo} {m : AdMaterialInfo}
    (held : create ∈ creatives u) (first : m ∈ create.materials.head?)
    (there : Destination m.destinationUrl labels) (several : 2 ≤ labels.length)
    (unwanted : Unwanted pages labels) : FirstUnwanted u pages := by
  obtain ⟨domain, inside, listed⟩ : ∃ domain ∈ domains labels, domain ∈ pages := by
    rcases unwanted with host | ⟨n, long, parent⟩
    · exact ⟨_, mem_domains.mpr ⟨0, several, rfl⟩, host⟩
    · exact ⟨_, mem_domains.mpr ⟨n, long, rfl⟩, parent⟩
  refine ⟨create, held, m, first, domain, ?_, ?_⟩
  · rwa [landingPageUrlParse_domains there]
  · rwa [cStr_domain there inside]

/-- An order stays unless a first material leads to a domain of the list. -/
theorem stays_iff (sound : Sound loaded result)
    (baidu : (r.adx.toNat : Int) = adProtocolKeyAdxBaidu)
    {placed : Allocated} (inside : placed ∈ loaded.orders) (push : placed.unit.time.push)
    {pages : List Bytes} (listed : landPages (r.text .pId) = some pages) :
    placed.address ∈ (landingPageMatch (orderAt loaded.orders)
        (tableOf landingPageKeys loaded.orders) landPages r result).map Prod.fst ↔
      placed.address ∈ result.map Prod.fst ∧ ¬ FirstUnwanted placed.unit pages := by
  have unit := orderAt_address loaded.addresses inside
  rw [landingPageMatch, if_pos baidu, listed, ← got_landingPage push]
  constructor
  · intro kept
    obtain ⟨entry, kept, address⟩ := List.mem_map.mp kept
    obtain ⟨held, free⟩ := (mem_eraseAll sound entry).mp kept
    rw [address, unit] at free
    exact ⟨List.mem_map.mpr ⟨entry, held, address⟩, Bool.eq_false_iff.mp free⟩
  · rintro ⟨present, free⟩
    obtain ⟨entry, held, address⟩ := List.mem_map.mp present
    refine List.mem_map.mpr ⟨entry, (mem_eraseAll sound entry).mpr ⟨held, ?_⟩, address⟩
    rw [address, unit]
    exact Bool.eq_false_iff.mpr free

/-- The lists cover an order: with an unwanted destination it is not in the result. -/
def Covered (loaded : Loaded) (landPages : Bytes → Option (List Bytes)) (r : AdRtbRequest)
    (result : AdResult) (placed : Allocated) : Prop :=
  ∀ pages, landPages (r.text .pId) = some pages → UnwantedMaterial placed.unit pages →
    placed.address ∉ (landingPageMatch (orderAt loaded.orders)
      (tableOf landingPageKeys loaded.orders) landPages r result).map Prod.fst

/-- An order with an unwanted destination is covered exactly when it was not in the result, or
the first material of one of its creatives leads to a domain of the list. -/
theorem covered_iff (loaded : Loaded) (landPages : Bytes → Option (List Bytes))
    (result : AdResult) (sound : Sound loaded result) (r : AdRtbRequest)
    (baidu : (r.adx.toNat : Int) = adProtocolKeyAdxBaidu) (placed : Allocated)
    (inside : placed ∈ loaded.orders) (push : placed.unit.time.push) :
    Covered loaded landPages r result placed ↔
      ∀ pages, landPages (r.text .pId) = some pages → UnwantedMaterial placed.unit pages →
        placed.address ∉ result.map Prod.fst ∨ FirstUnwanted placed.unit pages := by
  refine forall_congr' fun pages => forall₂_congr fun listed _ => ?_
  rw [stays_iff sound baidu inside push listed, not_and_or, not_not]

/-- A creative with two materials, and the second one leads somewhere else. -/
def twoPages : AdCreativeInfo :=
  ⟨ascii "g1", ascii "6", [{ destinationUrl := ascii "http://good.com/a" },
    { destinationUrl := ascii "http://bad.com/b" }]⟩

def twoPagesOrder : AdPlanningUnit where
  order := { executeId := 7 }
  time := { push := true }
  creativeInfo := (∅ : TreeMap UInt32 AdCreativeInfo).insert 6 twoPages

def baiduRequest : AdRtbRequest := { AdRtbRequest.clear ⟨0, 0⟩ with adx := 6 }

/-- Every place has a list with one domain. -/
def badPages : Bytes → Option (List Bytes) := fun _ => some [ascii "bad.com"]

theorem twoPages_sound : Sound (single twoPagesOrder) [(0, {})] :=
  ⟨List.pairwise_singleton _ _, fun entry inside => by
    rw [List.mem_singleton.mp inside]
    exact List.mem_cons_self⟩

theorem twoPages_covered_iff :
    Covered (single twoPagesOrder) badPages baiduRequest [(0, {})] ⟨0, twoPagesOrder⟩ ↔
      ∀ pages, badPages (baiduRequest.text .pId) = some pages →
        UnwantedMaterial twoPagesOrder pages →
          0 ∉ [(0, ({} : AdRtbFilterResult))].map Prod.fst ∨ FirstUnwanted twoPagesOrder pages :=
  covered_iff (single twoPagesOrder) badPages [(0, {})] twoPages_sound baiduRequest rfl
    ⟨0, twoPagesOrder⟩ List.mem_cons_self rfl

/-- The destination of the second material is let through. -/
theorem secondPage_uncovered :
    ¬ Covered (single twoPagesOrder) badPages baiduRequest [(0, {})] ⟨0, twoPagesOrder⟩ := by
  intro covered
  have unwanted : UnwantedMaterial twoPagesOrder [ascii "bad.com"] := by
    refine ⟨twoPages, TreeMap.getElem?_insert_self, _, .tail _ (.head _),
      [ascii "bad", ascii "com"], ⟨by decide, by decide +kernel, by decide, ?_⟩,
      .inl (by decide)⟩
    exact ⟨ascii "http", ascii "b", by decide, by decide, by decide⟩
  refine covered _ rfl unwanted ?_
  rw [stays_iff twoPages_sound rfl List.mem_cons_self rfl rfl]
  refine ⟨List.mem_cons_self, ?_⟩
  rintro ⟨create, held, m, first, domain, parsed, listed⟩
  obtain ⟨adx, found⟩ := mem_creatives.mp held
  rw [twoPagesOrder, TreeMap.getElem?_insert] at found
  split at found
  · obtain rfl := Option.some.inj found
    obtain rfl := Option.some.inj first
    have good : ∀ domain ∈ landingPageUrlParse (ascii "http://good.com/a"),
        cStr domain ∉ [ascii "bad.com"] := by decide
    exact good domain parsed listed
  · simp at found

end LandingPages
