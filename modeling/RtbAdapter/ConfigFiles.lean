import RtbAdapter.CText
import RtbAdapter.FileLines
import RtbAdapter.InverseMaps
import RtbAdapter.NetProtocol
import RtbAdapter.PendingAmounts

/-!
# Configuration files

A file is read line by line: blanks go, a comment goes, one piece opens a section, and two pieces
around `=` are an entry of the section that is open. A line that does not fit the buffer counts as
several. The file itself is then among the files to check, which are told apart by their times.
-/

namespace ConfigFiles

open Std (TreeMap)
open ByteWords CText FileLines InverseMaps
open NetProtocol (adSuccess adFailure)
open PendingAmounts (toList_apart)

def adConfigMax : Nat := 512

/-- `m_vInvalidChar` -/
def invalidChar : Bytes := [32, 9, 10, 13]

/-- `struct timespec`; a new entry of a map is zero. -/
structure Timespec where
  tvSec : Int := 0
  tvNsec : Int := 0
  deriving DecidableEq

abbrev Config := TreeMap Bytes (TreeMap Bytes Bytes)

structure AdRtbConfig where
  config : Config := ∅
  fileTimeStamp : TreeMap Bytes Timespec := ∅
  changedFile : TreeMap Bytes UInt32 := ∅
  configFile : Bytes := []

/-- The files as a call finds them, and the address that `GetIp` finds for a network card. -/
structure FileWorld where
  read : Bytes → Option Bytes
  stat : Bytes → Option Timespec
  ip : Option Bytes

def strDeleteInvalid (str : Bytes) : Bytes := str.filter (· ∉ invalidChar)

/-- `m_mConfig[section]` -/
def sectionAt (config : Config) (name : Bytes) : TreeMap Bytes Bytes := config.getD name ∅

/-- The body of the loop in `Load`: the open section with the entries so far. -/
def loadLine (state : Bytes × Config) (line : Bytes) : Bytes × Config :=
  let sLine := strDeleteInvalid (cStr line)
  if sLine = [] ∨ sLine.head? = some 35 then state
  else
    let sLine := (strSplit sLine [35]).headD []
    match strSplit sLine [61] with
    | [sSection] => (sSection, state.2)
    | [key, value] =>
      if state.1 ≠ [] then
        (state.1, state.2.insert state.1 ((sectionAt state.2 state.1).insert key value))
      else state
    | _ => state

def loadLines (content : Bytes) : Config :=
  ((lines 10 (adConfigMax - 1) content).foldl loadLine ([], ∅)).2

/-- `GetDevId` -/
def getDevId (ip : Option Bytes) : Option Bytes :=
  match ip.map (strSplit · [46]) with
  | some [_, _, _, id] => some id
  | _ => none

def checkSection : Bytes := ascii "[CHECK]"

def globalSection : Bytes := ascii "[GLOBAL]"

def devKey : Bytes := ascii "DEV"

namespace AdRtbConfig

def load (world : FileWorld) (file : Bytes) (c : AdRtbConfig) : Int × AdRtbConfig :=
  let configFile := if file ≠ [] then file else c.configFile
  match world.read (cStr configFile) with
  | none => (adFailure, { configFile })
  | some content =>
    let config := loadLines content
    let config := config.insert checkSection
      ((sectionAt config checkSection).insert configFile configFile)
    let fileTimeStamp := match world.stat (cStr configFile) with
      | some stamp => (∅ : TreeMap Bytes Timespec).insert configFile stamp
      | none => ∅
    let global := sectionAt config globalSection
    let id := (getDevId world.ip).getD (global.getD devKey [])
    let config := config.insert globalSection (global.insert devKey id)
    (adSuccess, ⟨config, fileTimeStamp, ∅, configFile⟩)

/-- The body of the loop in `Check`. -/
def checkFile (world : FileWorld) (c : AdRtbConfig) (entry : Bytes × Bytes) : AdRtbConfig :=
  match world.stat (cStr entry.2) with
  | none => c
  | some stamp =>
    if c.fileTimeStamp.getD entry.1 {} ≠ stamp then
      { c with
        fileTimeStamp := c.fileTimeStamp.insert entry.1 stamp
        changedFile := c.changedFile.insert entry.1 (c.changedFile.getD entry.1 0 + 1) }
    else c

def check (world : FileWorld) (c : AdRtbConfig) : Int × AdRtbConfig :=
  let checked := (sectionAt c.config checkSection).toList.foldl (checkFile world)
    { c with changedFile := ∅ }
  (checked.changedFile.size, checked)

/-- `Get` -/
def get (c : AdRtbConfig) (name : Bytes) : TreeMap Bytes Bytes := sectionAt c.config name

def fileIsChanged (c : AdRtbConfig) (sFile : Bytes) : Bool :=
  if sFile = ascii "NULL" then c.changedFile.size > 0 else c.changedFile.contains sFile

end AdRtbConfig

/-- What a line is about. -/
inductive Content where
  | nothing
  | header (name : Bytes)
  | entry (key value : Bytes)
  deriving DecidableEq

def Content.text : Content → Bytes
  | nothing => []
  | header name => name
  | entry key value => key ++ 61 :: value

/-- A name that is read as it is written. -/
def Plain (name : Bytes) : Prop := name ≠ [] ∧ ∀ b ∈ name, b ∉ 0 :: 35 :: 61 :: invalidChar

def Content.Plain : Content → Prop
  | nothing => True
  | header name => ConfigFiles.Plain name
  | entry key value => ConfigFiles.Plain key ∧ ConfigFiles.Plain value

/-- A line with blanks anywhere, and a comment behind its text. -/
structure Writes (raw : Bytes) (content : Content) : Prop where
  clean : 0 ∉ raw ∧ 10 ∉ raw
  short : raw.length < adConfigMax - 1
  plain : content.Plain
  text : ∃ comment, strDeleteInvalid raw = content.text ++ comment ∧
    (comment = [] ∨ comment.head? = some 35)

def file (document : List (Bytes × Content)) : Bytes := document.flatMap fun line => line.1 ++ [10]

/-- What a line does to the open section and the entries. -/
def Content.apply (state : Bytes × Config) : Content → Bytes × Config
  | nothing => state
  | header name => (name, state.2)
  | entry key value =>
    if state.1 ≠ [] then
      (state.1, state.2.insert state.1 ((sectionAt state.2 state.1).insert key value))
    else state

variable {raw name key value : Bytes} {content : Content} {state : Bytes × Config}

theorem Plain.notMem (plain : Plain name) {b : UInt8} (other : b ∈ 0 :: 35 :: 61 :: invalidChar) :
    b ∉ name := fun inside => plain.2 b inside other

/-- The piece in front of a separator, and those behind it. -/
theorem strSplit_cut {sep : UInt8} {text : Bytes} (some' : text ≠ []) (clean : sep ∉ text)
    (rest : Bytes) :
    strSplit (text ++ sep :: rest) [sep] = text :: strSplitFrom [sep] 0 [] rest := by
  have first : ∀ b ∈ (text ++ sep :: rest).head?, b ∉ [sep] := by
    cases text with
    | nil => exact absurd rfl some'
    | cons b text =>
      intro c starts
      cases starts
      exact fun same => clean (List.mem_singleton.mp same ▸ List.mem_cons_self)
  rw [strSplit_eq (by simp) first]
  exact @strSplitFrom_cut sep [] _ _ clean some'

theorem strSplit_comment {text comment : Bytes} (some' : text ≠ []) (clean : 35 ∉ text)
    (comment' : comment = [] ∨ comment.head? = some 35) :
    (strSplit (text ++ comment) [35]).headD [] = text := by
  rcases comment' with rfl | starts
  · rw [List.append_nil, strSplit_whole some' clean]
    rfl
  · obtain ⟨rest, rfl⟩ := List.head?_eq_some_iff.mp starts
    rw [strSplit_cut some' clean]
    rfl

theorem loadLine_eq (writes : Writes raw content) :
    loadLine state (raw ++ [10]) = content.apply state := by
  obtain ⟨⟨clean, -⟩, -, plain, comment, text, comment'⟩ := writes
  have line : strDeleteInvalid (cStr (raw ++ [10])) = content.text ++ comment := by
    rw [cStr_append clean, ← text, strDeleteInvalid, List.filter_append]
    exact List.append_nil _
  rw [loadLine, line]
  have skip (some' : content.text ≠ []) (bare : 35 ∉ content.text) :
      ¬(content.text ++ comment = [] ∨ (content.text ++ comment).head? = some 35) := by
    obtain ⟨b, rest, whole⟩ := List.exists_cons_of_ne_nil some'
    rw [whole] at bare ⊢
    rintro (none | starts)
    · cases none
    · exact bare (Option.some.inj starts ▸ List.mem_cons_self)
  cases content with
  | nothing =>
    rw [if_pos]
    · rfl
    · exact comment'
  | header name =>
    have bare := Plain.notMem plain (b := 35) (by decide)
    rw [if_neg (skip plain.1 bare)]
    simp only [Content.text, strSplit_comment plain.1 bare comment',
      strSplit_whole plain.1 (Plain.notMem plain (b := 61) (by decide))]
    rfl
  | entry key value =>
    obtain ⟨plain, plain'⟩ := plain
    have bare : 35 ∉ key ++ 61 :: value := by
      rw [List.mem_append, List.mem_cons]
      rintro (inside | same | inside)
      · exact Plain.notMem plain (by decide) inside
      · cases same
      · exact Plain.notMem plain' (by decide) inside
    have some' : key ++ 61 :: value ≠ [] := by simp
    have value' := @strSplitFrom_whole _ [] _ (Plain.notMem plain' (b := 61) (by decide))
    rw [List.nil_append, if_neg plain'.1] at value'
    rw [if_neg (skip some' bare)]
    simp only [Content.text, strSplit_comment some' bare comment',
      strSplit_cut plain.1 (Plain.notMem plain (b := 61) (by decide)), value']
    rfl

/-- A written file is read as its lines say. -/
theorem loadLines_file {document : List (Bytes × Content)}
    (writes : ∀ line ∈ document, Writes line.1 line.2) :
    loadLines (file document) = ((document.map Prod.snd).foldl Content.apply ([], ∅)).2 := by
  have fit : ∀ line ∈ document.map Prod.fst, 10 ∉ line ∧ line.length < adConfigMax - 1 := by
    intro raw inside
    obtain ⟨line, listed, rfl⟩ := List.mem_map.mp inside
    exact ⟨(writes line listed).clean.2, (writes line listed).short⟩
  have whole := @lines_lines _ _ (10 : UInt8) _ _ fit []
  rw [List.append_nil, List.flatMap_map, lines_nil, List.append_nil] at whole
  rw [loadLines, file, whole]
  congr 1
  have step : ∀ (document : List (Bytes × Content)) (state : Bytes × Config),
      (∀ line ∈ document, Writes line.1 line.2) →
      ((document.map Prod.fst).map (· ++ [10])).foldl loadLine state =
        (document.map Prod.snd).foldl Content.apply state := by
    intro document
    induction document with
    | nil => exact fun _ _ => rfl
    | cons line document ih =>
      intro state writes
      obtain ⟨first, rest⟩ := List.forall_mem_cons.mp writes
      simp only [List.map_cons, List.foldl_cons, loadLine_eq first]
      exact ih _ rest
  exact step document _ writes

/-- What a list of entries says of a key. -/
def found {β : Type} (entries : List (Bytes × β)) (key : Bytes) : Option β :=
  (entries.find? fun e => e.1 = key).map Prod.snd

variable {β : Type} {entries : List (Bytes × β)} {config : Config}

theorem found_none (absent : ∀ e ∈ entries, e.1 ≠ key) : found entries key = none := by
  rw [found, List.find?_eq_none.mpr fun e inside => by simpa using absent e inside, Option.map_none]

theorem found_cons (e : Bytes × β) :
    found (e :: entries) key = if e.1 = key then some e.2 else found entries key := by
  rw [found, List.find?_cons]
  by_cases same : e.1 = key <;> simp [same, found]

theorem found_toList (m : TreeMap Bytes β) (key : Bytes) : found m.toList key = m[key]? := by
  rw [found]
  cases entry : m.toList.find? fun e => e.1 = key with
  | some e =>
    obtain ⟨other, v⟩ := e
    have same : other = key := by simpa using List.find?_some entry
    subst same
    exact (TreeMap.mem_toList_iff_getElem?_eq_some.mp (List.mem_of_find?_eq_some entry)).symm
  | none =>
    rw [Option.map_none]
    refine (Option.eq_none_iff_forall_not_mem.mpr fun v there => ?_).symm
    have inside : (key, v) ∈ m.toList := TreeMap.mem_toList_iff_getElem?_eq_some.mpr there
    simpa using List.find?_eq_none.mp entry (key, v) inside

theorem section_insert (config : Config) (name other : Bytes) (m : TreeMap Bytes Bytes) :
    sectionAt (config.insert name m) other =
      if name = other then m else sectionAt config other := by
  rw [sectionAt, TreeMap.getD_insert]
  simp [sectionAt]

/-- The entries that stand below a header, with the name of the section. -/
def placed : Bytes → List Content → List (Bytes × Bytes × Bytes)
  | _, [] => []
  | sSection, .nothing :: rest => placed sSection rest
  | _, .header name :: rest => placed name rest
  | sSection, .entry key value :: rest =>
    if sSection = [] then placed sSection rest
    else (sSection, key, value) :: placed sSection rest

/-- The last value that is given to a key of a section. -/
def said (entries : List (Bytes × Bytes × Bytes)) (s k : Bytes) : Option Bytes :=
  (entries.reverse.find? fun e => e.1 = s ∧ e.2.1 = k).map fun e => e.2.2

theorem said_cons (e : Bytes × Bytes × Bytes) (entries : List (Bytes × Bytes × Bytes))
    (s k : Bytes) : said (e :: entries) s k =
      (said entries s k).or (if e.1 = s ∧ e.2.1 = k then some e.2.2 else none) := by
  rw [said, List.reverse_cons, List.find?_append, said]
  cases entries.reverse.find? fun e => e.1 = s ∧ e.2.1 = k with
  | some found => rfl
  | none =>
    by_cases here : e.1 = s ∧ e.2.1 = k <;> simp [here]

/-- What the lines leave in a section is the last value they give to each key. -/
theorem apply_said (all : List Content) (state : Bytes × Config) (s k : Bytes) :
    (sectionAt (all.foldl Content.apply state).2 s)[k]? =
      (said (placed state.1 all) s k).or (sectionAt state.2 s)[k]? := by
  induction all generalizing state with
  | nil => rfl
  | cons content all ih =>
    rw [List.foldl_cons, ih]
    cases content with
    | nothing => rfl
    | header name => rfl
    | entry key value =>
      rw [Content.apply, placed]
      by_cases outside : state.1 = []
      · rw [if_neg (not_not.mpr outside), if_pos outside]
      · rw [if_pos outside, if_neg outside, said_cons, Option.or_assoc, section_insert]
        congr 1
        dsimp only
        by_cases here : state.1 = s
        · subst here
          by_cases same : key = k
          · subst same
            rw [if_pos rfl, if_pos ⟨rfl, rfl⟩, TreeMap.getElem?_insert_self, Option.some_or]
          · rw [if_pos rfl, if_neg fun both => same both.2, getElem?_insert_ne same,
              Option.none_or]
        · rw [if_neg here, if_neg fun both => here both.1, Option.none_or]

/-- A configuration in the lines of a file: headers and entries in any order, a section as often as
one likes, where the last value of a key counts, and empty lines and comments among them. -/
structure Document (m : Config) (document : List (Bytes × Content)) : Prop where
  writes : ∀ line ∈ document, Writes line.1 line.2
  last : ∀ s k, said (placed [] (document.map Prod.snd)) s k = m[s]?.bind (·[k]?)

theorem loadLines_document {m : Config} {document : List (Bytes × Content)}
    (written : Document m document) (s k : Bytes) :
    (sectionAt (loadLines (file document)) s)[k]? = m[s]?.bind (·[k]?) := by
  rw [loadLines_file written.writes, apply_said, written.last]
  simp [sectionAt]

/-- A configuration in whatever layout is loaded as it is, and the file itself is among those to
check. -/
theorem load_document (world : FileWorld) (c : AdRtbConfig) (path : Bytes) (m : Config)
    (document : List (Bytes × Content)) (written : Document m document) (named : path ≠ [])
    (there : world.read (cStr path) = some (file document)) :
    (c.load world path).1 = adSuccess ∧
    ∀ s k, ((c.load world path).2.get s)[k]? =
      if s = checkSection ∧ k = path then some path
      else if s = globalSection ∧ k = devKey then
        some ((getDevId world.ip).getD ((m[s]?.bind (·[k]?)).getD []))
      else m[s]?.bind (·[k]?) := by
  have loaded := loadLines_document written
  rw [AdRtbConfig.load, if_pos named, there]
  refine ⟨rfl, fun s k => ?_⟩
  have differ : globalSection ≠ checkSection := by decide
  rw [AdRtbConfig.get]
  simp only [section_insert]
  by_cases global : globalSection = s
  · subst global
    rw [if_pos rfl, if_neg (Ne.symm differ),
      if_neg fun both : globalSection = checkSection ∧ k = path => differ both.1]
    by_cases dev : k = devKey
    · subst dev
      rw [TreeMap.getElem?_insert_self, if_pos ⟨rfl, rfl⟩, TreeMap.getD_eq_getD_getElem?, loaded]
    · rw [getElem?_insert_ne (Ne.symm dev), loaded, if_neg fun both => dev both.2]
  · rw [if_neg global]
    by_cases checks : checkSection = s
    · subst checks
      rw [if_pos rfl]
      by_cases own : k = path
      · subst own
        rw [TreeMap.getElem?_insert_self, if_pos ⟨rfl, rfl⟩]
      · rw [getElem?_insert_ne (Ne.symm own), loaded, if_neg fun both => own both.2,
          if_neg fun both => differ both.1.symm]
    · rw [if_neg checks, loaded, if_neg fun both => checks both.1.symm,
        if_neg fun both => global both.1.symm]

def exampleConfig : Config :=
  let t : TreeMap Bytes Bytes := (∅ : TreeMap Bytes Bytes).insert (ascii "K") (ascii "U")
  let s : TreeMap Bytes Bytes := (∅ : TreeMap Bytes Bytes).insert (ascii "K") (ascii "V")
  ((∅ : Config).insert (ascii "[T]") t).insert (ascii "[S]") s

def exampleDocument : List (Bytes × Content) :=
  [(ascii " # S", .nothing), (ascii " [ S ]", .header (ascii "[S]")),
    (ascii "K=W", .entry (ascii "K") (ascii "W")), (ascii "[T]", .header (ascii "[T]")),
    (ascii "K=U", .entry (ascii "K") (ascii "U")), (ascii "[S]", .header (ascii "[S]")),
    (ascii "K = V # is V", .entry (ascii "K") (ascii "V"))]

theorem document_example : Document exampleConfig exampleDocument where
  writes := by
    simp only [exampleDocument, List.forall_mem_cons]
    refine ⟨⟨by decide +kernel, by decide, trivial, ascii "#S", by decide, Or.inr rfl⟩,
      ⟨by decide, by decide, ⟨by decide, by decide +kernel⟩, [], by decide, Or.inl rfl⟩,
      ⟨by decide, by decide, ⟨⟨by decide, by decide +kernel⟩, by decide, by decide +kernel⟩, [],
        by decide, Or.inl rfl⟩,
      ⟨by decide, by decide, ⟨by decide, by decide +kernel⟩, [], by decide, Or.inl rfl⟩,
      ⟨by decide, by decide, ⟨⟨by decide, by decide +kernel⟩, by decide, by decide +kernel⟩, [],
        by decide, Or.inl rfl⟩,
      ⟨by decide, by decide, ⟨by decide, by decide +kernel⟩, [], by decide, Or.inl rfl⟩,
      ⟨by decide, by decide, ⟨⟨by decide, by decide +kernel⟩, by decide, by decide +kernel⟩,
        ascii "#isV", by decide, Or.inr rfl⟩, ?_⟩
    simp
  last := by
    intro s k
    have entries : placed [] (exampleDocument.map Prod.snd) =
        [(ascii "[S]", ascii "K", ascii "W"), (ascii "[T]", ascii "K", ascii "U"),
          (ascii "[S]", ascii "K", ascii "V")] := by decide
    have apart : ascii "[S]" ≠ ascii "[T]" := by decide
    have none : said [] s k = none := rfl
    rw [entries, said_cons, said_cons, said_cons, none, exampleConfig]
    dsimp only
    by_cases one : ascii "[S]" = s
    · subst one
      rw [TreeMap.getElem?_insert_self, Option.bind_some]
      by_cases key : ascii "K" = k
      · subst key
        simp
      · simp [key]
    · rw [getElem?_insert_ne one]
      by_cases two : ascii "[T]" = s
      · subst two
        rw [TreeMap.getElem?_insert_self, Option.bind_some]
        by_cases key : ascii "K" = k
        · subst key
          simp [apart]
        · simp [key]
      · simp [one, two]

theorem load_document_example :
    let world : FileWorld := ⟨fun _ => some (file exampleDocument), fun _ => none, none⟩
    (((({} : AdRtbConfig).load world (ascii "f")).2.get (ascii "[S]"))[ascii "K"]?) =
      some (ascii "V") := by
  intro world
  have loaded := (load_document world {} (ascii "f") exampleConfig exampleDocument
    document_example (by decide) rfl).2 (ascii "[S]") (ascii "K")
  rw [loaded]
  decide

/-- The time of a file that a check compares with, after the times that were found. -/
def lastStamp (first : Timespec) (path : Bytes) (worlds : List FileWorld) : Timespec :=
  worlds.foldl (fun stamp world => (world.stat (cStr path)).getD stamp) first

variable {world : FileWorld} {c : AdRtbConfig} {k path : Bytes}

theorem checkFile_stamp (entry : Bytes × Bytes) (k : Bytes) :
    (c.checkFile world entry).fileTimeStamp.getD k {} =
      if entry.1 = k then (world.stat (cStr entry.2)).getD (c.fileTimeStamp.getD k {})
      else c.fileTimeStamp.getD k {} := by
  rw [AdRtbConfig.checkFile]
  cases world.stat (cStr entry.2) with
  | none => simp
  | some stamp =>
    by_cases same : entry.1 = k
    · subst same
      by_cases still : c.fileTimeStamp.getD entry.1 {} = stamp <;> simp [still]
    · rw [if_neg same]
      dsimp only
      split_ifs
      · rw [TreeMap.getD_insert, if_neg (by simpa using same)]
      · rfl

theorem checkFile_changed (entry : Bytes × Bytes) (k : Bytes) :
    k ∈ (c.checkFile world entry).changedFile ↔ k ∈ c.changedFile ∨ entry.1 = k ∧
      ∃ stamp, world.stat (cStr entry.2) = some stamp ∧ c.fileTimeStamp.getD k {} ≠ stamp := by
  rw [AdRtbConfig.checkFile]
  cases world.stat (cStr entry.2) with
  | none => simp
  | some stamp =>
    dsimp only
    split_ifs with differs
    · rw [mem_insert_iff, or_comm]
      refine or_congr_right ⟨?_, fun here => here.1.symm⟩
      rintro rfl
      exact ⟨rfl, stamp, rfl, differs⟩
    · refine (or_iff_left ?_).symm
      rintro ⟨rfl, other, same, differs'⟩
      exact differs (Option.some.inj same ▸ differs')

theorem checkFile_config (entry : Bytes × Bytes) : (c.checkFile world entry).config = c.config := by
  rw [AdRtbConfig.checkFile]
  cases world.stat (cStr entry.2) with
  | none => rfl
  | some stamp =>
    dsimp only
    split_ifs <;> rfl

theorem foldl_checkFile (world : FileWorld) (entries : List (Bytes × Bytes))
    (apart : entries.Pairwise fun one other => one.1 ≠ other.1) (c : AdRtbConfig) (k : Bytes) :
    let checked := entries.foldl (AdRtbConfig.checkFile world) c
    checked.config = c.config ∧
    checked.fileTimeStamp.getD k {} = ((found entries k).bind fun path =>
      world.stat (cStr path)).getD (c.fileTimeStamp.getD k {}) ∧
    (k ∈ checked.changedFile ↔ k ∈ c.changedFile ∨ ∃ path stamp, found entries k = some path ∧
      world.stat (cStr path) = some stamp ∧ c.fileTimeStamp.getD k {} ≠ stamp) := by
  induction entries generalizing c with
  | nil => simp [found]
  | cons entry entries ih =>
    obtain ⟨first, rest⟩ := List.pairwise_cons.mp apart
    obtain ⟨config, stamps, changed⟩ := ih rest (c.checkFile world entry)
    intro checked
    refine ⟨config.trans (checkFile_config entry), stamps.trans ?_, changed.trans ?_⟩
    · rw [checkFile_stamp, found_cons]
      by_cases same : entry.1 = k
      · subst same
        rw [if_pos rfl, if_pos rfl, found_none fun other inside => (first other inside).symm]
        rfl
      · rw [if_neg same, if_neg same]
    · rw [checkFile_changed, checkFile_stamp, found_cons]
      by_cases same : entry.1 = k
      · subst same
        simp [found_none fun other inside => (first other inside).symm]
      · simp [same]

theorem check_eq (world : FileWorld) (c : AdRtbConfig) (k : Bytes) :
    (c.check world).2.config = c.config ∧
    (c.check world).2.fileTimeStamp.getD k {} = (((c.get checkSection)[k]?).bind fun path =>
      world.stat (cStr path)).getD (c.fileTimeStamp.getD k {}) ∧
    (k ∈ (c.check world).2.changedFile ↔ ∃ path stamp, (c.get checkSection)[k]? = some path ∧
      world.stat (cStr path) = some stamp ∧ c.fileTimeStamp.getD k {} ≠ stamp) := by
  have checked := foldl_checkFile world (sectionAt c.config checkSection).toList toList_apart
    { c with changedFile := ∅ } k
  rw [found_toList] at checked
  refine ⟨checked.1, checked.2.1, checked.2.2.trans (or_iff_right ?_)⟩
  simp

/-- The checks of a row of times. -/
def checks (c : AdRtbConfig) (worlds : List FileWorld) : AdRtbConfig :=
  worlds.foldl (fun c world => (c.check world).2) c

theorem checks_eq (c : AdRtbConfig) (worlds : List FileWorld) :
    (checks c worlds).config = c.config ∧
    ∀ k path, (c.get checkSection)[k]? = some path → (checks c worlds).fileTimeStamp.getD k {} =
      lastStamp (c.fileTimeStamp.getD k {}) path worlds := by
  induction worlds generalizing c with
  | nil => exact ⟨rfl, fun _ _ _ => rfl⟩
  | cons world worlds ih =>
    have same := fun k => check_eq world c k
    obtain ⟨config, stamps⟩ := ih (c.check world).2
    refine ⟨config.trans (same []).1, fun k path listed => ?_⟩
    have listed' : ((c.check world).2.get checkSection)[k]? = some path := by
      rw [AdRtbConfig.get, (same k).1]
      exact listed
    refine (stamps k path listed').trans ?_
    rw [(same k).2.1, listed]
    rfl

/-- In every row of checks, a file counts as changed when its time is not the one that the last
check before found, or loading. -/
theorem changed_iff (c : AdRtbConfig) (worlds : List FileWorld) (world : FileWorld) :
    let changed := fun k => ∃ path stamp, (c.get checkSection)[k]? = some path ∧
      world.stat (cStr path) = some stamp ∧
      lastStamp (c.fileTimeStamp.getD k {}) path worlds ≠ stamp
    (∀ k ≠ ascii "NULL", ((checks c worlds).check world).2.fileIsChanged k = true ↔ changed k) ∧
    (0 < ((checks c worlds).check world).1 ↔ ∃ k, changed k) ∧
    (((checks c worlds).check world).2.fileIsChanged (ascii "NULL") = true ↔ ∃ k, changed k) := by
  intro changed
  obtain ⟨config, stamps⟩ := checks_eq c worlds
  have mem (k : Bytes) : k ∈ ((checks c worlds).check world).2.changedFile ↔ changed k := by
    rw [(check_eq world (checks c worlds) k).2.2, AdRtbConfig.get, config]
    refine exists_congr fun path => exists_congr fun stamp => ?_
    refine and_congr_right fun listed => ?_
    rw [stamps k path listed]
  have size : 0 < ((checks c worlds).check world).2.changedFile.size ↔ ∃ k, changed k := by
    rw [← exists_congr mem, ← TreeMap.isEmpty_eq_false_iff_exists_mem,
      TreeMap.isEmpty_eq_size_eq_zero]
    simp [Nat.pos_iff_ne_zero]
  refine ⟨fun k other => ?_, ?_, ?_⟩
  · rw [AdRtbConfig.fileIsChanged, if_neg other, TreeMap.contains_iff_mem, mem]
  · rw [← size]
    exact Int.natCast_pos
  · rw [AdRtbConfig.fileIsChanged, if_pos rfl, decide_eq_true_eq, gt_iff_lt, size]

end ConfigFiles
