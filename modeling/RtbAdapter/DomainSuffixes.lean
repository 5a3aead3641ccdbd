import RtbAdapter.LandingPages

/-!
# The domains of a page

A URL is split three times to find its host. From the labels of the host the loop joins
what is left and takes the first label away, as long as there are two. The exchange has
a copy of the filter's function for the page of a request.
-/

namespace DomainSuffixes

open ByteWords CText FilterTables LandingPages

/-- The text that the inner loop puts together. -/
def joined (vStrTemp : List Bytes) : Bytes :=
  vStrTemp.foldl (fun sTemp label => if sTemp = [] then label else sTemp ++ ascii "." ++ label) []

/-- The loop over the labels. -/
def suffixLoop : List Bytes → List Bytes → List Bytes
  | label :: next :: rest, vStr =>
    suffixLoop (next :: rest) (vStr ++ [joined (label :: next :: rest)])
  | _, vStr => vStr

/-- The body that the two functions share. -/
def urlParse (sSrc : Bytes) (vStr : List Bytes) : List Bytes :=
  match strSplit sSrc (ascii "//") with
  | _ :: sTemp :: _ => match strSplit sTemp (ascii "/") with
    | sTemp :: _ => match strSplit sTemp (ascii "?") with
      | sTemp :: _ => suffixLoop (strSplit sTemp (ascii ".")) vStr
      | [] => vStr
    | [] => vStr
  | _ => vStr

def adFilterLandingPageUrlParse (sSrc : Bytes) (vStr : List Bytes) : List Bytes :=
  urlParse sSrc vStr

def adPageUrlParse (sSrc : Bytes) (vStr : List Bytes) : List Bytes := urlParse sSrc vStr

variable {labels : List Bytes}

/-- No piece is empty. -/
theorem strSplitFrom_full {sep piece s : Bytes} {skip : Nat} :
    ∀ part ∈ strSplitFrom sep skip piece s, part ≠ [] := by
  fun_induction strSplitFrom sep skip piece s with
  | case1 skip => simp
  | case2 skip piece some' =>
    intro part inside
    rw [List.mem_singleton.mp inside]
    exact some'
  | case3 piece skip b s ih => exact ih
  | case4 piece b s here ih =>
    intro part inside
    rcases List.mem_append.mp inside with own | later
    · split at own
      · exact absurd own List.not_mem_nil
      · next some' =>
        rw [List.mem_singleton.mp own]
        exact some'
    · exact ih part later
  | case5 piece b s away ih => exact ih

/-- Behind the first label the inner loop puts a dot in front of each. -/
theorem joined_from {text : Bytes} (some' : text ≠ []) (labels : List Bytes) :
    labels.foldl (fun sTemp label => if sTemp = [] then label else sTemp ++ ascii "." ++ label)
      text = (ascii ".").intercalate (text :: labels) := by
  induction labels generalizing text with
  | nil => rw [List.foldl_nil, List.intercalate_singleton]
  | cons label labels ih =>
    have longer : text ++ ascii "." ++ label ≠ [] :=
      List.append_ne_nil_of_left_ne_nil (List.append_ne_nil_of_left_ne_nil some' _) _
    rw [List.foldl_cons, if_neg some', ih longer]
    cases labels with
    | nil => rw [List.intercalate_singleton, List.intercalate_cons_cons, List.intercalate_singleton]
    | cons next labels => simp only [List.intercalate_cons_cons, List.append_assoc]

theorem joined_eq (full : ∀ label ∈ labels, label ≠ []) : joined labels = hostOf labels := by
  cases labels with
  | nil => rfl
  | cons label labels =>
    rw [joined, List.foldl_cons, if_pos rfl]
    exact joined_from (full label List.mem_cons_self) labels

/-- The loop appends what is left after each number of labels, up to the last two. -/
theorem suffixLoop_eq (full : ∀ label ∈ labels, label ≠ []) (vStr : List Bytes) :
    suffixLoop labels vStr = vStr ++ domains labels := by
  fun_induction suffixLoop labels vStr with
  | case1 label next rest vStr ih =>
    have others := (List.forall_mem_cons.mp full).2
    have count : (label :: next :: rest).length - 1 = ((next :: rest).length - 1) + 1 := rfl
    rw [ih others, joined_eq full, domains, domains, count, List.range_succ_eq_map,
      List.map_cons, List.map_map, List.append_assoc]
    rfl
  | case2 labels vStr short =>
    have few : labels.length - 1 = 0 := by
      rcases labels with - | ⟨label, - | ⟨next, rest⟩⟩
      · rfl
      · rfl
      · exact absurd rfl (short label next rest)
    rw [domains, few, List.range_zero, List.map_nil, List.append_nil]

/-- What the body appends is what the keys of the filter are made of. -/
theorem urlParse_eq (sSrc : Bytes) (vStr : List Bytes) :
    urlParse sSrc vStr = vStr ++ landingPageUrlParse sSrc := by
  have loop : ∀ host : Bytes, suffixLoop (strSplit host (ascii ".")) vStr =
      vStr ++ domains (strSplit host (ascii ".")) := fun host =>
    suffixLoop_eq strSplitFrom_full vStr
  rw [urlParse, landingPageUrlParse]
  rcases strSplit sSrc (ascii "//") with - | ⟨first, - | ⟨sTemp, others⟩⟩
  · exact (List.append_nil vStr).symm
  · exact (List.append_nil vStr).symm
  · dsimp only
    cases strSplit sTemp (ascii "/") with
    | nil => exact (List.append_nil vStr).symm
    | cons path rest =>
      dsimp only
      rw [List.head?_cons, Option.bind_some]
      cases strSplit path (ascii "?") with
      | nil => exact (List.append_nil vStr).symm
      | cons host rest => exact loop host

/-- Both functions append the domains with two labels or more, the longest first. -/
theorem urlParse_domains (scheme : Bytes) (labels : List Bytes) (rest : Bytes)
    (vStr : List Bytes) (apart : 47 ∉ scheme) (several : 2 ≤ labels.length)
    (each : ∀ label ∈ labels, label ≠ [] ∧ ∀ b ∈ ascii "/?.", b ∉ label) :
    let url := scheme ++ ascii "://" ++ hostOf labels ++ ascii "/" ++ rest
    let suffixes := (List.range (labels.length - 1)).map fun n => hostOf (labels.drop n)
    adFilterLandingPageUrlParse url vStr = vStr ++ suffixes ∧
      adPageUrlParse url vStr = vStr ++ suffixes := by
  have some' : labels ≠ [] := by
    rintro rfl
    cases several
  have parsed := urlParse_eq (scheme ++ ascii "://" ++ hostOf labels ++ ascii "/" ++ rest) vStr
  rw [landingPageUrlParse_host apart some' each rest] at parsed
  exact ⟨parsed, parsed⟩

/-- `http://a.b.c//x` -/
theorem urlParse_three :
    let url := ascii "http" ++ ascii "://" ++ hostOf [ascii "a", ascii "b", ascii "c"] ++
      ascii "/" ++ ascii "/x"
    let suffixes := (List.range ([ascii "a", ascii "b", ascii "c"].length - 1)).map fun n =>
      hostOf ([ascii "a", ascii "b", ascii "c"].drop n)
    adFilterLandingPageUrlParse url [] = [] ++ suffixes ∧
      adPageUrlParse url [] = [] ++ suffixes :=
  urlParse_domains (ascii "http") [ascii "a", ascii "b", ascii "c"] (ascii "/x") [] (by decide)
    (by decide) (by decide +kernel)

end DomainSuffixes
