import Cnpv.Config.Model
import Cnpv.Agent.Spelling

/-!
# What a configuration of file rules means

`reference` is the meaning of a configuration: the last entry for a path, in the sections of the
program, decides, by the letters of its last `AUTHORITY`. Loading the configuration and checking a
path gives this verdict (`processRoot_reference`).

The loops of the loaders are folds over the selected entries (`processRoot_selected`), and the
record that an entry leaves has its last `PATH` and its last `AUTHORITY` (`readMembers`).
-/

namespace Cnpv

open CLib

/-- The members of an object. -/
abbrev Entry := List (List UInt8 × JsonValue)

namespace JsonValue

/-- A string, as C sees it. -/
def str : JsonValue → Option CStr
  | .string ptr => some (CStr.ofBytes ptr)
  | _ => Option.none

def entry : JsonValue → List Entry
  | .object values => [values]
  | _ => []

def entries : JsonValue → List Entry
  | .array values => values.flatMap entry
  | _ => []

end JsonValue

/-- The entries of the sections whose name contains the name of the program, in document order. -/
def selectedEntries (progName : CStr) : JsonValue → List Entry
  | .object sections => sections.flatMap fun s =>
    if progName.bytes <:+: (CStr.ofBytes s.1).bytes then s.2.entries else []
  | _ => []

/-- The last member of an entry with the name `key`. -/
def lastMember (key : CStr) (e : Entry) : Option CStr :=
  (e.filterMap fun m => if CStr.ofBytes m.1 = key then m.2.str else none).getLast?

/-- The string contains one of the two letters. -/
def contains (s : CStr) (upper lower : Char) : Prop :=
  upper.toUInt8 ∈ s.bytes ∨ lower.toUInt8 ∈ s.bytes

instance (s : CStr) (upper lower : Char) : Decidable (contains s upper lower) :=
  inferInstanceAs (Decidable (_ ∨ _))

/-- What an `AUTHORITY` grants to the access mode of a flag word. -/
def grants (A : CStr) (oflag : CInt) : Bool :=
  if contains A 'F' 'f' then false
  else if oflag &&& 3 = 0 then contains A 'R' 'r'
  else if oflag &&& 3 = 1 then contains A 'W' 'w'
  else if oflag &&& 3 = 2 then contains A 'R' 'r' ∧ contains A 'W' 'w'
  else false

/-- The meaning of a configuration. -/
def reference (progName : CStr) (root : JsonValue) (q : CStr) (oflag : CInt) : Bool :=
  match (selectedEntries progName root).reverse.find? fun e => lastMember PATH e = some q with
  | none => true
  | some e => grants ((lastMember AUTHORITY e).getD default) oflag

/-! ## Configurations of file rules -/

/-- An entry for a file: its last `PATH` is not empty, is shorter than `bound` and does not end
in `/`. -/
structure EntryOk (bound : Nat) (e : Entry) : Prop where
  strings : ∀ m ∈ e, CStr.ofBytes m.1 = PATH ∨ CStr.ofBytes m.1 = AUTHORITY →
    ∃ ptr, m.2 = .string ptr
  path : ∃ p, lastMember PATH e = some p ∧ p.bytes ≠ [] ∧ p.strlen < bound ∧
    p.bytes.getLast? ≠ some '/'.toUInt8

instance : (v : JsonValue) → Decidable (∃ ptr, v = .string ptr)
  | .string ptr => .isTrue ⟨ptr, rfl⟩
  | .object _ | .array _ | .integer _ | .double _ | .boolean _ | .null | .none =>
    .isFalse (by rintro ⟨_, h⟩; cases h)

instance (bound : Nat) (e : Entry) : Decidable (EntryOk bound e) :=
  decidable_of_iff ((∀ m ∈ e, CStr.ofBytes m.1 = PATH ∨ CStr.ofBytes m.1 = AUTHORITY →
      ∃ ptr, m.2 = .string ptr) ∧
    ∃ p ∈ lastMember PATH e, p.bytes ≠ [] ∧ p.strlen < bound ∧ p.bytes.getLast? ≠ some '/'.toUInt8)
    ⟨fun h => ⟨h.1, h.2⟩, fun h => ⟨h.strings, h.path⟩⟩

/-- A configuration of file rules. -/
def ConfigOk (bound : Nat) (root : JsonValue) : Prop :=
  ∃ sections, root = .object sections ∧ ∀ s ∈ sections, ∃ values, s.2 = .array values ∧
    ∀ v ∈ values, ∃ e, v = .object e ∧ EntryOk bound e

theorem ConfigOk.mono {b b' : Nat} {root : JsonValue} (h : ConfigOk b root) (hb : b ≤ b') :
    ConfigOk b' root := by
  obtain ⟨sections, rfl, h⟩ := h
  refine ⟨sections, rfl, fun s hs => ?_⟩
  obtain ⟨values, hvalues, h⟩ := h s hs
  refine ⟨values, hvalues, fun v hv => ?_⟩
  obtain ⟨e, he, hok⟩ := h v hv
  obtain ⟨p, hp, hne, hlt, hlast⟩ := hok.path
  exact ⟨e, he, hok.strings, p, hp, hne, Nat.lt_of_lt_of_le hlt hb, hlast⟩

theorem configOk_sections {bound : Nat} {ss : List (List UInt8 × List Entry)}
    (h : ∀ s ∈ ss, ∀ e ∈ s.2, EntryOk bound e) :
    ConfigOk bound (.object (ss.map fun s => (s.1, .array (s.2.map JsonValue.object)))) := by
  refine ⟨_, rfl, fun s hs => ?_⟩
  obtain ⟨s', hs', rfl⟩ := List.mem_map.mp hs
  refine ⟨_, rfl, fun v hv => ?_⟩
  obtain ⟨e, he, rfl⟩ := List.mem_map.mp hv
  exact ⟨e, rfl, h s' hs' e he⟩

/-- A configuration with one section. -/
theorem configOk_section {bound : Nat} (name : List UInt8) {es : List Entry}
    (h : ∀ e ∈ es, EntryOk bound e) :
    ConfigOk bound (.object [(name, .array (es.map JsonValue.object))]) :=
  configOk_sections (List.forall_mem_singleton.mpr h : ∀ s ∈ [(name, es)], _)

/-! ## The loops of the loaders -/

section Loops

variable {bound : Nat} {root : JsonValue} {progName : CStr} {σ : Type}

/-- What `process_array` meets: the values of the section, or `none` if it exits. -/
def sectionValues : JsonValue → List (Option JsonValue)
  | .array values => values.map some
  | _ => [none]

/-- What `process_root` meets. -/
def rootValues (progName : CStr) : JsonValue → List (Option JsonValue)
  | .object sections => sections.flatMap fun s =>
    if progName.bytes <:+: (CStr.ofBytes s.1).bytes then sectionValues s.2 else []
  | _ => [none]

/-- What it does with it. -/
def visitValue (processPair : σ → JsonValue → Exec σ) (s : σ) : Option JsonValue → Exec σ
  | some v => processPair s v
  | none => .error (.exit (-1))

/-- The loops over sections and entries are one loop. -/
theorem processRoot_eq_runFrom (processPair : σ → JsonValue → Exec σ) (progName : CStr) (s : σ)
    (root : JsonValue) : processRoot processPair progName s root =
      runFrom (visitValue processPair) s (rootValues progName root) := by
  have harray : ∀ s v, processArray processPair s v =
      runFrom (visitValue processPair) s (sectionValues v) := by
    intro s v
    cases v with
    | array values =>
      rw [processArray, sectionValues, runFrom_map_list]
      rfl
    | _ => rfl
  cases root with
  | object sections =>
    rw [processRoot, rootValues, runFrom_flatMap]
    congr 1
    funext s sec
    by_cases hname : progName.bytes <:+: (CStr.ofBytes sec.1).bytes
    · rw [if_pos (strstr_isSome.mpr hname), if_pos hname]
      exact harray s sec.2
    · rw [if_neg (mt strstr_isSome.mp hname), if_neg hname, runFrom_nil]
  | _ => rfl

/-- The loops over sections and entries are a fold over the selected entries. -/
theorem processRoot_selected {processPair : σ → JsonValue → Exec σ} {f : σ → Entry → σ}
    (hroot : ConfigOk bound root)
    (h : ∀ e ∈ selectedEntries progName root, ∀ s, processPair s (.object e) = .ok (f s e)) (s : σ) :
    processRoot processPair progName s root = .ok ((selectedEntries progName root).foldl f s) := by
  obtain ⟨sections, rfl, hsections⟩ := hroot
  refine runFrom_emit _ (fun sec hsec s => ?_) s
  obtain ⟨values, hvalues, hentries⟩ := hsections sec hsec
  by_cases hname : progName.bytes <:+: (CStr.ofBytes sec.1).bytes
  · rw [if_pos (strstr_isSome.mpr hname), if_pos hname, hvalues]
    refine runFrom_emit _ (fun v hv s => ?_) s
    obtain ⟨e, rfl, he⟩ := hentries v hv
    refine h e (List.mem_flatMap.mpr ⟨sec, hsec, ?_⟩) s
    rw [if_pos hname, hvalues]
    exact List.mem_flatMap.mpr ⟨_, hv, List.mem_singleton.mpr rfl⟩
  · rw [if_neg (mt strstr_isSome.mp hname), if_neg hname]
    rfl

theorem entryOk_of_selected (hroot : ConfigOk bound root) :
    ∀ e ∈ selectedEntries progName root, EntryOk bound e := by
  obtain ⟨sections, rfl, hsections⟩ := hroot
  intro e he
  obtain ⟨sec, hsec, he⟩ := List.mem_flatMap.mp he
  obtain ⟨values, hvalues, hentries⟩ := hsections sec hsec
  split at he
  · rw [hvalues] at he
    obtain ⟨v, hv, he⟩ := List.mem_flatMap.mp he
    obtain ⟨e', rfl, he'⟩ := hentries v hv
    obtain rfl := List.mem_singleton.mp he
    exact he'
  · cases he

end Loops

/-! ## One entry -/

theorem lastMember_cons (key : CStr) (m : List UInt8 × JsonValue) (e : Entry) :
    lastMember key (m :: e) =
      (lastMember key e).or (if CStr.ofBytes m.1 = key then m.2.str else none) := by
  unfold lastMember
  rw [List.filterMap_cons]
  cases hm : (if CStr.ofBytes m.1 = key then m.2.str else none) with
  | none => simp
  | some s =>
    rw [List.getLast?_cons]
    cases (e.filterMap fun m => if CStr.ofBytes m.1 = key then m.2.str else none).getLast? <;> rfl

/-- The record that an entry leaves, when it had the permission `p` before. -/
def userOf (p : CInt) (e : Entry) : User where
  pathname := (lastMember PATH e).getD default
  permission := ((lastMember AUTHORITY e).map getModeValue).getD p

section Member

variable {maxPath : Nat} {u : User} {m : List UInt8 × JsonValue} {ptr : List UInt8}

theorem readMember_path (h : CStr.ofBytes m.1 = PATH) (hptr : m.2 = .string ptr) :
    readMember maxPath u m =
      .ok { u with pathname := (CStr.ofBytes ptr).take (maxPath - 1) } := by
  rw [readMember, if_pos h, hptr]
  rfl

theorem readMember_authority (h : CStr.ofBytes m.1 = AUTHORITY) (hptr : m.2 = .string ptr) :
    readMember maxPath u m = .ok { u with permission := getModeValue (CStr.ofBytes ptr) } := by
  have hpath : CStr.ofBytes m.1 ≠ PATH := by
    rw [h]
    decide
  rw [readMember, if_neg hpath, if_pos h, hptr]
  rfl

theorem readMember_other (h : CStr.ofBytes m.1 ≠ PATH) (h' : CStr.ofBytes m.1 ≠ AUTHORITY) :
    readMember maxPath u m = .ok u := by
  rw [readMember, if_neg h, if_neg h']

end Member

/-- The loop over the members of an entry. -/
theorem readMembers {maxPath : Nat} {e : Entry}
    (h : ∀ m ∈ e, CStr.ofBytes m.1 = PATH ∨ CStr.ofBytes m.1 = AUTHORITY → ∃ ptr, m.2 = .string ptr)
    (u : User) : runFrom (readMember maxPath) u e = .ok
      { pathname := ((lastMember PATH e).map (CStr.take (maxPath - 1))).getD u.pathname
        permission := ((lastMember AUTHORITY e).map getModeValue).getD u.permission } := by
  induction e generalizing u with
  | nil => rfl
  | cons m e ih =>
    have ih := ih fun m hm => h m (by simp [hm])
    have hne : PATH ≠ AUTHORITY := by decide
    rw [runFrom_cons, lastMember_cons, lastMember_cons]
    by_cases hpath : CStr.ofBytes m.1 = PATH
    · obtain ⟨ptr, hptr⟩ := h m (by simp) (.inl hpath)
      have hauth : CStr.ofBytes m.1 ≠ AUTHORITY := fun e => hne (hpath.symm.trans e)
      rw [readMember_path hpath hptr, Exec.ok_bind, ih, if_pos hpath, if_neg hauth, hptr]
      cases lastMember PATH e <;> simp [JsonValue.str]
    · by_cases hauth : CStr.ofBytes m.1 = AUTHORITY
      · obtain ⟨ptr, hptr⟩ := h m (by simp) (.inr hauth)
        rw [readMember_authority hauth hptr, Exec.ok_bind, ih, if_neg hpath, if_pos hauth, hptr]
        cases lastMember AUTHORITY e <;> simp [JsonValue.str]
      · rw [readMember_other hpath hauth, Exec.ok_bind, ih, if_neg hpath, if_neg hauth]
        simp

/-- The record of an entry for a file. -/
theorem EntryOk.readMembers {bound maxPath : Nat} {e : Entry} (h : EntryOk bound e)
    (hb : bound ≤ maxPath) (p : CInt) :
    runFrom (readMember maxPath) { pathname := default, permission := p } e = .ok (userOf p e) ∧
      ∃ b, lastChar (userOf p e).pathname = .ok b ∧ b ≠ '/'.toUInt8 := by
  obtain ⟨path, hpath, hne, hlt, hlast⟩ := h.path
  refine ⟨?_, ?_⟩
  · have htake : path.take (maxPath - 1) = path := CStr.take_of_le (by omega)
    rw [Cnpv.readMembers h.strings]
    simp [userOf, hpath, htake]
  · obtain ⟨b, hb⟩ : ∃ b, path.bytes.getLast? = some b := ⟨_, List.getLast?_eq_some_getLast hne⟩
    refine ⟨b, by simp [userOf, hpath, lastChar, hb], fun e => hlast (e ▸ hb)⟩

/-- `process_pair` of the agent on an entry for a file. -/
theorem Config.processPair_entry {opendir : CStr → Option (List Dirent)} {fuel bound : Nat}
    {e : Entry} (h : EntryOk bound e) (hb : bound ≤ MAX_PATH) (map : PolicyMap) :
    Config.processPair opendir fuel map (.object e) = .ok (Config.hashmapSet map (userOf 0 e)) := by
  obtain ⟨hread, b, hlast, hb⟩ := h.readMembers hb 0
  simp only [Config.processPair, hread, Exec.ok_bind, hlast]
  rw [if_neg hb]

/-- **Loading a configuration of file rules** in the agent. -/
theorem Config.processRoot_eq {opendir : CStr → Option (List Dirent)} {fuel bound : Nat}
    {root : JsonValue} (hroot : ConfigOk bound root) (hb : bound ≤ MAX_PATH) (progName : CStr) :
    Config.processRoot opendir fuel progName ∅ root =
      .ok (((selectedEntries progName root).map (userOf 0)).foldl Config.hashmapSet ∅) := by
  rw [List.foldl_map]
  exact processRoot_selected hroot (fun e he map =>
    Config.processPair_entry (entryOk_of_selected hroot e he) hb map) ∅

/-- The last rule for a name decides. -/
theorem lookup_foldl_hashmapSet (users : List User) (map : PolicyMap) (q : CStr) :
    (users.foldl Config.hashmapSet map).lookup q =
      ((users.reverse.find? fun u => u.pathname = q).map User.permission).or (map.lookup q) := by
  induction users using List.reverseRecOn with
  | nil => rfl
  | append_singleton users u ih =>
    rw [List.foldl_append, List.reverse_append, List.foldl_cons, List.foldl_nil,
      List.reverse_singleton, List.singleton_append, List.find?_cons, Config.hashmapSet]
    by_cases hq : u.pathname = q
    · subst hq
      simp [Finmap.lookup_insert]
    · rw [Finmap.lookup_insert_of_ne _ (Ne.symm hq), ih]
      simp [hq]

/-- The permission of the last entry for `q`: that of its last `AUTHORITY`. -/
def ruleOf (es : List Entry) (q : CStr) : Option CInt :=
  (es.reverse.find? fun e => lastMember PATH e = some q).map fun e =>
    getModeValue ((lastMember AUTHORITY e).getD default)

/-- The agent's rules for the entries `es`. -/
theorem lookup_rules {bound : Nat} {es : List Entry} (hes : ∀ e ∈ es, EntryOk bound e) (q : CStr) :
    ((es.map (userOf 0)).foldl Config.hashmapSet ∅).lookup q = ruleOf es q := by
  induction es using List.reverseRecOn with
  | nil => rfl
  | append_singleton es e ih =>
    obtain ⟨path, hpath, -⟩ := (hes e (by simp)).path
    have hzero : getModeValue default = 0 := by decide
    have huser : userOf 0 e = ⟨path, getModeValue ((lastMember AUTHORITY e).getD default)⟩ := by
      cases hA : lastMember AUTHORITY e <;> simp [userOf, hpath, hA, hzero]
    rw [List.map_append, List.foldl_append, List.map_singleton, List.foldl_cons, List.foldl_nil,
      huser, Config.hashmapSet, ruleOf, List.reverse_append, List.reverse_singleton,
      List.singleton_append, List.find?_cons, hpath]
    by_cases hq : path = q
    · subst hq
      simp [Finmap.lookup_insert]
    · rw [Finmap.lookup_insert_of_ne _ (Ne.symm hq), ih fun e he => hes e (by simp [he])]
      simp [hq, ruleOf]

/-! ## Verdicts -/

theorem hasLetter_iff {s : CStr} {upper lower : Char} :
    hasLetter s upper lower ↔ contains s upper lower :=
  or_congr strstr_singleton strstr_singleton

/-- The bits of `get_mode_value` grant what the letters grant. -/
theorem allows_getModeValue {A : CStr} {oflag : CInt} (h : oflag ≠ FOPEN_MODE_FLAG) :
    allows (getModeValue A) oflag = grants A oflag := by
  unfold allows grants getModeValue
  rw [if_neg h]
  simp only [hasLetter_iff]
  by_cases hF : contains A 'F' 'f' <;> by_cases hR : contains A 'R' 'r' <;>
    by_cases hW : contains A 'W' 'w' <;>
    simp [hF, hR, hW, O_FORBIDDEN, O_READ, O_WRITE, O_RDONLY, O_WRONLY, O_RDWR]

/-- **A configuration of file rules means what it says**: it loads, and then the check without the
cache gives a path with a `/` the verdict of `reference`. -/
theorem processRoot_reference {opendir : CStr → Option (List Dirent)} {fuel : Nat} {root : JsonValue}
    (hroot : ConfigOk MAX_PATH root) (progName : CStr) {cwd q : CStr} (hslash : ¬ Bare q)
    (hq : q.strlen < MAX_PATH) {oflag : CInt} (hflag : oflag ≠ FOPEN_MODE_FLAG) :
    ∃ map, Config.processRoot opendir fuel progName ∅ root = .ok map ∧
      checkPermissionUncached map cwd q oflag = .ok (reference progName root q oflag) := by
  refine ⟨_, Config.processRoot_eq hroot (Nat.le_refl _) progName, ?_⟩
  have hname : checkName cwd q = .ok q := checkName_of_not_bare hslash hq
  rw [uncached_eq hname, verdict_of_checkName hname, lookup_rules (entryOk_of_selected hroot),
    ruleOf, reference]
  cases (selectedEntries progName root).reverse.find? fun e => lastMember PATH e = some q with
  | none => rfl
  | some e =>
    show Except.ok (allows (getModeValue ((lastMember AUTHORITY e).getD default)) oflag) = _
    rw [allows_getModeValue hflag]

/-- An entry with a `PATH` and an `AUTHORITY`. -/
theorem entryOk_rule {bound : Nat} {p A : CStr} (hne : p.bytes ≠ []) (hlt : p.strlen < bound)
    (hlast : p.bytes.getLast? ≠ some '/'.toUInt8) :
    EntryOk bound [(PATH.buf, .string p.buf), (AUTHORITY.buf, .string A.buf)] where
  strings m hm _ := by
    simp only [List.mem_cons, List.not_mem_nil, or_false] at hm
    rcases hm with rfl | rfl <;> exact ⟨_, rfl⟩
  path := by
    have hauth : AUTHORITY ≠ PATH := by decide
    refine ⟨p, ?_, hne, hlt, hlast⟩
    simp [lastMember, hauth, JsonValue.str]

/-- An entry for the file `/f`. -/
theorem entryOk_file {bound : Nat} (hb : 2 < bound) (authority : CStr) :
    EntryOk bound [(PATH.buf, .string (CStr.ofChars ['/', 'f']).buf),
      (AUTHORITY.buf, .string authority.buf)] :=
  entryOk_rule (by decide) hb (by decide)

/-- A rule for a file. -/
def fileRule (path authority : List Char) : JsonValue :=
  .object [(PATH.buf, .string (CStr.ofChars path).buf), (AUTHORITY.buf, .string (CStr.ofChars authority).buf)]

/-- Two sections. In that of `a` the last rules for `/f` and `/g` permit to read, and to read and
write; those before are for nothing. -/
def readConfig : JsonValue :=
  .object [((CStr.ofChars ['a']).buf, .array
      [fileRule ['/', 'f'] ['F'], .object [(PATH.buf, .string (CStr.ofChars ['/', 'g']).buf)],
        fileRule ['/', 'f'] ['r'], fileRule ['/', 'g'] ['R', 'W']]),
    ((CStr.ofChars ['b']).buf, .array [fileRule ['/', 'f'] ['w']])]

theorem configOk_readConfig : ConfigOk 254 readConfig :=
  @configOk_sections 254 [(_, [_, _, _, _]), (_, [_])] (by decide)

/-- The two files of `readConfig`, opened to write. -/
theorem processRoot_reference_write :
    ∃ map, Config.processRoot (fun _ => none) 0 (.ofChars ['a']) ∅ readConfig = .ok map ∧
      checkPermissionUncached map slash (.ofChars ['/', 'f']) O_WRONLY = .ok false ∧
      checkPermissionUncached map slash (.ofChars ['/', 'g']) O_WRONLY = .ok true := by
  have h := fun q hq hlt => @processRoot_reference (fun _ => none) 0 readConfig
    (configOk_readConfig.mono (by decide)) (.ofChars ['a']) slash q hq hlt O_WRONLY (by decide)
  obtain ⟨map, hmap, hf⟩ := h (.ofChars ['/', 'f']) (by decide) (by decide)
  obtain ⟨map', hmap', hg⟩ := h (.ofChars ['/', 'g']) (by decide) (by decide)
  obtain rfl := Except.ok.inj (hmap.symm.trans hmap')
  exact ⟨map, hmap, hf.trans (by decide), hg.trans (by decide)⟩

end Cnpv
