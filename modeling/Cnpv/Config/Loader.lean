import Cnpv.Config.Agreement
import Cnpv.Kernel.Messages

/-!
# Runs of `nluser` (`kernel_module/nluser.c`)

A run of `nluser` names a target with `-t`, and then loads the rules of that target's sections into
the kernel module. Its default target is `a.out`; that of the kernel module is `mytest`, and the
kernel keeps its target and its rules from one run to the next. So after a run that loads a
configuration the kernel restricts the program whose rules were loaded, by these rules and no
others, if and only if the run names a target (or the kernel's is `a.out`), the kernel had no rule
for another path, and no permission is left over from an entry to the next (`loaded_iff`).
-/

namespace Cnpv

open CLib

/-- An option, as `getopt` gives it. -/
inductive NlOption
  | r
  | h
  | c (optarg : CStr)
  | t (optarg : CStr)
  | unknown

/-- How a run ends. -/
inductive NlExit
  /-- `main` returns at `-r` or `-h`. -/
  | returned
  /-- `exit(status)`, in `getfile_content` or after `json_parse`. -/
  | exited (status : Int)
  /-- A configuration is loaded, for the program `target`. -/
  | loaded (target : CStr) (value : JsonValue)

/-- A run: its options, and what `getfile_content` and `json_parse` give for a path, `none` if the
file cannot be read and `some none` if it cannot be parsed. -/
structure NlRun where
  options : List NlOption
  files : CStr → Option (Option JsonValue)

/-- All globals of `nluser`. -/
structure NlMain extends Nluser where
  configPath : CStr := .ofChars ['c', 'o', 'n', 'f', 'i', 'g', '.', 'j', 's', 'o', 'n']
  target : CStr := .ofChars ['a', '.', 'o', 'u', 't']

namespace NlMain

/-- `main`, its loop over the options; `true` if it goes on to load. -/
def getopts (g : NlMain) : List NlOption → Exec (Bool × NlMain)
  | [] => .ok (true, g)
  | .r :: _ =>
    let user : MyUser := { g.user with type := .cmd, pathname := clearCmd }
    .ok (false, { g with toNluser := { g.toNluser with user }.mysendmsg user })
  | .h :: _ => .ok (false, g)
  | .c optarg :: options => do
    let configPath ← optarg.store 255
    { g with configPath }.getopts options
  | .t optarg :: options => do
    let target ← optarg.store 255
    let pathname ← (tarCmd ++ optarg).store KERNEL_MAX_PATH
    let user : MyUser := { g.user with type := .cmd, pathname }
    { g with target, toNluser := { g.toNluser with user }.mysendmsg user }.getopts options
  | .unknown :: options => g.getopts options

/-- `main`: the messages that it sends, and how it ends. -/
def main (opendir : CStr → Option (List Dirent)) (fuel : Nat) (run : NlRun) :
    Exec (List MyUser × NlExit) := do
  let (load, g) ← ({} : NlMain).getopts run.options
  if load then
    match run.files g.configPath with
    | none => .ok (g.sent, .exited (-1))
    | some none => .ok (g.sent, .exited 1)
    | some (some value) => do
      let n ← Nluser.jsonProcess opendir fuel g.target g.toNluser value
      .ok (n.sent, .loaded g.target value)
  else .ok (g.sent, .returned)

end NlMain

/-- A run of `nluser` and the kernel module, which receives its messages in order. -/
def Kernel.serve (opendir : CStr → Option (List Dirent)) (fuel : Nat) (k : Kernel) (run : NlRun) :
    Exec (NlExit × Kernel) := do
  -- A run that exits inside `json_process` is not followed further.
  let (sent, exit) ← NlMain.main opendir fuel run
  .ok (exit, sent.foldl helloNlRecvMsg k)

/-- The argument of `-t`. -/
def NlOption.name? : NlOption → Option CStr
  | .t optarg => some optarg
  | _ => none

/-- The names in the options `-t`. -/
def NlRun.names (run : NlRun) : List CStr := run.options.filterMap NlOption.name?

/-! ## What a run sends -/

variable {opendir : CStr → Option (List Dirent)} {fuel : Nat} {g g' : NlMain}
  {options : List NlOption} {run : NlRun} {k : Kernel} {es : List Entry}

/-- The options that do not end the run: each `-t` sets the target and sends its name. -/
theorem NlMain.getopts_eq (h : g.getopts options = .ok (true, g')) :
    g'.target = (options.filterMap NlOption.name?).getLast?.getD g.target ∧
    g'.user.permission = g.user.permission ∧
    g'.sent = g.sent ++ (options.filterMap NlOption.name?).map fun name =>
      (Message.target name g.user.permission).record := by
  induction options generalizing g with
  | nil => cases h; simp
  | cons option options ih =>
    cases option with
    | r => cases h
    | h => cases h
    | unknown => exact ih h
    | c optarg =>
      obtain ⟨configPath, -, h⟩ := Exec.bind_ok.mp h
      exact ih (g := { g with configPath }) h
    | t optarg =>
      obtain ⟨target, htarget, h⟩ := Exec.bind_ok.mp h
      obtain ⟨pathname, hpathname, h⟩ := Exec.bind_ok.mp h
      obtain ⟨-, rfl⟩ := CStr.store_ok.mp htarget
      obtain ⟨-, rfl⟩ := CStr.store_ok.mp hpathname
      obtain ⟨htarget, hpermission, hsent⟩ := ih h
      have hnames : (NlOption.t optarg :: options).filterMap NlOption.name? =
        optarg :: options.filterMap NlOption.name? := rfl
      rw [hnames]
      refine ⟨?_, hpermission, ?_⟩
      · rw [htarget, List.getLast?_cons]
        cases (options.filterMap NlOption.name?).getLast? <;> rfl
      · rw [hsent]
        simp [Nluser.mysendmsg, Message.record]

/-- The kernel module takes the targets; they do not change its rules. -/
theorem foldl_targets (names : List CStr) (permission : CInt) (k : Kernel) :
    ((names.map fun name => (Message.target name permission).record).foldl helloNlRecvMsg k).target =
      names.getLast?.getD k.target ∧
    ((names.map fun name => (Message.target name permission).record).foldl helloNlRecvMsg k).map.getD
      ∅ = k.map.getD ∅ := by
  induction names generalizing k with
  | nil => exact ⟨rfl, rfl⟩
  | cons name names ih =>
    rw [List.map_cons, List.foldl_cons, helloNlRecvMsg_target]
    obtain ⟨htarget, hmap⟩ := ih { map := some (k.map.getD ∅), target := name }
    refine ⟨?_, hmap⟩
    rw [htarget, List.getLast?_cons]
    cases names.getLast? <;> rfl

/-- A map that is `NULL` receives a rule like an empty one. -/
theorem foldl_rules {users : List User} (h : ∀ u ∈ users, u.pathname.strlen < KERNEL_MAX_PATH)
    (k : Kernel) :
    ((users.map fun u => ({ u with type := .myuser } : MyUser)).foldl helloNlRecvMsg k).target =
      k.target ∧
    ((users.map fun u => ({ u with type := .myuser } : MyUser)).foldl helloNlRecvMsg k).map.getD ∅ =
      users.foldl Config.hashmapSet (k.map.getD ∅) := by
  cases users with
  | nil => exact ⟨rfl, rfl⟩
  | cons u users =>
    have heq := foldl_helloNlRecvMsg h (k.map.getD ∅) k.target
    rw [List.map_cons, List.foldl_cons] at heq ⊢
    have hmsg : helloNlRecvMsg k { u with type := .myuser } =
      helloNlRecvMsg { map := some (k.map.getD ∅), target := k.target } { u with type := .myuser } :=
        rfl
    rw [hmsg, heq]
    exact ⟨rfl, rfl⟩

/-! ## The messages fit -/

section Fit

variable {σ : Type}

/-- What `emit` keeps for a name that fits its record, a directory keeps. -/
theorem dirContent_keeps (inv : σ → Prop) {size : Nat} {emit : σ → User → σ} {permission : CInt}
    (hemit : ∀ s u, inv s → u.pathname.strlen < size → inv (emit s u)) {fuel : Nat} {path : CStr}
    {s s' : σ} (hs : inv s) (h : dirContent opendir size emit permission fuel path s = .ok s') :
    inv s' := by
  induction fuel generalizing path s s' with
  | zero => cases h
  | succ fuel ih =>
    rw [dirContent] at h
    cases hopen : opendir path with
    | none => simp only [hopen] at h; cases h; exact hs
    | some entries =>
      simp only [hopen] at h
      refine runFrom_keeps inv (fun d _ s s' hs h => ?_) hs h
      rcases dirEntry_ok h with ⟨-, hlt, rfl⟩ | ⟨-, -, -, h⟩ | ⟨-, -, rfl⟩
      · exact hemit s _ hs hlt
      · exact ih hs h
      · exact hs

/-- What an entry keeps, the loops over sections and entries keep. -/
theorem processRoot_keeps (inv : σ → Prop) {processPair : σ → JsonValue → Exec σ}
    (hpair : ∀ s v s', inv s → processPair s v = .ok s' → inv s') {progName : CStr}
    {value : JsonValue} {s s' : σ} (hs : inv s)
    (h : processRoot processPair progName s value = .ok s') : inv s' := by
  rw [processRoot_eq_runFrom] at h
  refine runFrom_keeps inv (fun v _ s s' hs h => ?_) hs h
  cases v with
  | none => cases h
  | some v => exact hpair s v s' hs h

end Fit

/-- The pathname of each message sent fits its buffer. -/
def Nluser.Fits (n : Nluser) : Prop := ∀ u ∈ n.sent, u.pathname.strlen < KERNEL_MAX_PATH

theorem Nluser.Fits.mysendmsg {n : Nluser} {u : MyUser} (h : n.Fits)
    (hu : u.pathname.strlen < KERNEL_MAX_PATH) : (n.mysendmsg u).Fits := by
  intro u' hu'
  rcases List.mem_append.mp hu' with hu' | hu'
  · exact h u' hu'
  · rwa [List.mem_singleton.mp hu']

theorem readMembers_strlen {u u' : User} {values : Entry} (maxPath : Nat) (hpos : 0 < maxPath)
    (hu : u.pathname.strlen < maxPath) (h : runFrom (readMember maxPath) u values = .ok u') :
    u'.pathname.strlen < maxPath := by
  refine runFrom_keeps (fun u => u.pathname.strlen < maxPath) (fun m _ u u' hu h => ?_) hu h
  rw [readMember] at h
  split_ifs at h
  · obtain ⟨ptr, -, h⟩ := Exec.bind_ok.mp h
    cases h
    have hle := List.length_take_le (maxPath - 1) (CStr.ofBytes ptr).bytes
    show (List.take (maxPath - 1) (CStr.ofBytes ptr).bytes).length < maxPath
    omega
  · obtain ⟨ptr, -, h⟩ := Exec.bind_ok.mp h
    cases h
    exact hu
  · cases h; exact hu

theorem Nluser.Fits.processPair {n n' : Nluser} {pair : JsonValue} (hn : n.Fits)
    (h : Nluser.processPair opendir fuel n pair = .ok n') : n'.Fits := by
  cases pair with
  | object values =>
    obtain ⟨u, hread, h⟩ := Exec.bind_ok.mp h
    obtain ⟨last, -, h⟩ := Exec.bind_ok.mp h
    have hzero : (default : CStr).strlen < KERNEL_MAX_PATH := by decide
    have hu := readMembers_strlen KERNEL_MAX_PATH (by decide) hzero hread
    split_ifs at h
    · refine dirContent_keeps Nluser.Fits (fun n u hn hu => ?_) ?_ h
      · exact Nluser.Fits.mysendmsg hn hu
      · exact hn
    · cases h
      exact Nluser.Fits.mysendmsg hn hu
  | _ => cases h

theorem NlMain.fits_getopts {load : Bool} (hg : g.Fits) (h : g.getopts options = .ok (load, g')) :
    g'.Fits := by
  induction options generalizing g with
  | nil => cases h; exact hg
  | cons option options ih =>
    cases option with
    | r =>
      cases h
      have hclear : clearCmd.strlen < KERNEL_MAX_PATH := by decide
      exact Nluser.Fits.mysendmsg hg hclear
    | h => cases h; exact hg
    | unknown => exact ih hg h
    | c optarg =>
      obtain ⟨configPath, -, h⟩ := Exec.bind_ok.mp h
      exact ih (g := { g with configPath }) hg h
    | t optarg =>
      obtain ⟨target, -, h⟩ := Exec.bind_ok.mp h
      obtain ⟨pathname, hpathname, h⟩ := Exec.bind_ok.mp h
      obtain ⟨hlt, rfl⟩ := CStr.store_ok.mp hpathname
      exact ih (Nluser.Fits.mysendmsg hg hlt) h

/-- The pathname of each message of a run fits its buffer. -/
theorem NlMain.fits_main {sent : List MyUser} {exit : NlExit}
    (h : NlMain.main opendir fuel run = .ok (sent, exit)) :
    ∀ u ∈ sent, u.pathname.strlen < KERNEL_MAX_PATH := by
  obtain ⟨⟨load, g⟩, hopts, h⟩ := Exec.bind_ok.mp h
  have hg : g.Fits := NlMain.fits_getopts (by simp [Nluser.Fits]) hopts
  cases load with
  | false => cases h; exact hg
  | true =>
    simp only [if_true] at h
    split at h
    · cases h; exact hg
    · cases h; exact hg
    · obtain ⟨n, hn, h⟩ := Exec.bind_ok.mp h
      cases h
      exact processRoot_keeps Nluser.Fits (fun n v n' hn h => hn.processPair h) hg hn

/-- Each path of the map fits the buffer. -/
def Kernel.Fits (k : Kernel) : Prop := ∀ q ∈ k.map.getD ∅, q.strlen < KERNEL_MAX_PATH

theorem Kernel.Fits.message {u : MyUser} (hk : k.Fits) (hu : u.pathname.strlen < KERNEL_MAX_PATH) :
    (helloNlRecvMsg k u).Fits := by
  unfold helloNlRecvMsg
  cases u.type with
  | myuser =>
    intro q hq
    rw [Option.getD_some, CStr.take_of_le (Nat.le_of_lt hu), Finmap.mem_insert] at hq
    rcases hq with rfl | hq
    · exact hu
    · exact hk q hq
  | str => exact hk
  | cmd =>
    simp only
    split_ifs
    · exact fun q hq => absurd hq Finmap.notMem_empty
    · exact hk
    · exact hk

theorem Kernel.Fits.messages {sent : List MyUser} (hk : k.Fits)
    (hsent : ∀ u ∈ sent, u.pathname.strlen < KERNEL_MAX_PATH) :
    (sent.foldl helloNlRecvMsg k).Fits := by
  induction sent generalizing k with
  | nil => exact hk
  | cons u sent ih => exact ih (hk.message (hsent u (by simp))) fun u hu => hsent u (by simp [hu])

/-! ## When the rules are those of the configuration -/

/-- A rule for `q` decides alone, whatever the map had before. -/
theorem lookup_foldl_of_mem {users : List User} {q : CStr} (h : ∃ u ∈ users, u.pathname = q)
    (map : PolicyMap) :
    (users.foldl Config.hashmapSet map).lookup q = (users.foldl Config.hashmapSet ∅).lookup q := by
  obtain ⟨pre, u, post, rfl, rfl, hpost⟩ := exists_last h
  rw [lookup_of_last hpost, lookup_of_last hpost]

theorem mem_carriedUsers_iff {bound : Nat} (hes : ∀ e ∈ es, EntryOk bound e) (p : CInt) (q : CStr) :
    (∃ u ∈ carriedUsers p es, u.pathname = q) ↔ ∃ e ∈ es, lastMember PATH e = some q := by
  rw [← List.mem_map, pathname_carriedUsers, List.mem_map]
  refine exists_congr fun e => and_congr_right fun he => ?_
  obtain ⟨path, hpath, -⟩ := (hes e he).path
  rw [hpath, Option.getD_some, Option.some_inj]

theorem ruleOf_eq_none {q : CStr} (h : ¬ ∃ e ∈ es, lastMember PATH e = some q) :
    ruleOf es q = none := by
  rw [ruleOf, List.find?_eq_none.mpr fun e he => ?_, Option.map_none]
  exact fun hq => h ⟨e, List.mem_reverse.mp he, of_decide_eq_true hq⟩

/-- The rules of `nluser` stored in a map give the rules of the entries if and only if the map had
no other path and no permission is left over. -/
theorem rules_eq_iff {bound : Nat} (hes : ∀ e ∈ es, EntryOk bound e) (map : PolicyMap) :
    (∀ q, ((carriedUsers 0 es).foldl Config.hashmapSet map).lookup q = ruleOf es q) ↔
      (∀ q ∈ map, ∃ e ∈ es, lastMember PATH e = some q) ∧ NoLeak es := by
  have hnone : ∀ q, (¬ ∃ e ∈ es, lastMember PATH e = some q) → ∀ map : PolicyMap,
      ((carriedUsers 0 es).foldl Config.hashmapSet map).lookup q = map.lookup q := fun q hq map =>
    lookup_of_none (fun u hu hu' => hq ((mem_carriedUsers_iff hes 0 q).mp ⟨u, hu, hu'⟩)) map
  rw [← maps_eq_iff hes]
  constructor
  · intro h
    refine ⟨fun q hmap => ?_, Finmap.ext_lookup fun q => ?_⟩
    · by_contra hq
      obtain ⟨permission, hlookup⟩ := Finmap.mem_iff.mp hmap
      have hrule := h q
      rw [hnone q hq, ruleOf_eq_none hq, hlookup] at hrule
      cases hrule
    · by_cases hq : ∃ e ∈ es, lastMember PATH e = some q
      · rw [lookup_rules hes, ← h q]
        exact (lookup_foldl_of_mem ((mem_carriedUsers_iff hes 0 q).mpr hq) map).symm
      · rw [lookup_rules hes, ruleOf_eq_none hq, hnone q hq, Finmap.lookup_empty]
  · rintro ⟨hmap, heq⟩ q
    by_cases hq : ∃ e ∈ es, lastMember PATH e = some q
    · rw [lookup_foldl_of_mem ((mem_carriedUsers_iff hes 0 q).mpr hq), heq, lookup_rules hes]
    · rw [hnone q hq, ruleOf_eq_none hq]
      exact Finmap.lookup_eq_none.mpr fun hmem => hq (hmap q hmem)

/-! ## One run after the other -/

/-- The kernel module restricts the program `target` by the rules of its sections, and no others. -/
def Kernel.Restricts (k : Kernel) (target : CStr) (value : JsonValue) : Prop :=
  k.target = target ∧ ∀ q, (k.map.getD ∅).lookup q = ruleOf (selectedEntries target value) q

/-- The paths of the entries fit the record of `nluser`. -/
def ShortPaths (es : List Entry) : Prop :=
  ∀ e ∈ es, ∀ p, lastMember PATH e = some p → p.strlen < KERNEL_MAX_PATH

instance (es : List Entry) : Decidable (ShortPaths es) :=
  inferInstanceAs (Decidable (∀ e ∈ es, ∀ p ∈ lastMember PATH e, p.strlen < KERNEL_MAX_PATH))

theorem EntryOk.short {bound : Nat} {e : Entry} (he : EntryOk bound e)
    (hshort : ∀ p, lastMember PATH e = some p → p.strlen < KERNEL_MAX_PATH) :
    EntryOk KERNEL_MAX_PATH e where
  strings := he.strings
  path := by
    obtain ⟨p, hp, hne, -, hlast⟩ := he.path
    exact ⟨p, hp, hne, hshort p hp, hlast⟩

variable {k' : Kernel} {target : CStr} {value : JsonValue} {bound : Nat}

/-- The parts of a run that loads a configuration. -/
theorem NlMain.main_loaded {sent : List MyUser}
    (h : NlMain.main opendir fuel run = .ok (sent, .loaded target value)) :
    target = run.names.getLast?.getD ({} : NlMain).target ∧
    ∃ n : Nluser, n.user.permission = 0 ∧
      n.sent = run.names.map (fun name => (Message.target name 0).record) ∧
      (∃ path, run.files path = some (some value)) ∧
      ∃ n', Nluser.jsonProcess opendir fuel target n value = .ok n' ∧ sent = n'.sent := by
  obtain ⟨⟨load, g⟩, hopts, h⟩ := Exec.bind_ok.mp h
  cases load with
  | false => cases h
  | true =>
    obtain ⟨htarget, hpermission, hsent⟩ := NlMain.getopts_eq hopts
    simp only [if_true] at h
    split at h
    · cases h
    · cases h
    · rename_i value' hfile
      obtain ⟨n', hn', h⟩ := Exec.bind_ok.mp h
      cases h
      exact ⟨htarget, g.toNluser, hpermission, hsent, ⟨_, hfile⟩, n', hn', rfl⟩

/-- The kernel module after a run that loads a configuration with short paths. -/
theorem Kernel.serve_loaded (h : Kernel.serve opendir fuel k run = .ok (.loaded target value, k'))
    (hvalue : ConfigOk bound value) (hshort : ShortPaths (selectedEntries target value)) :
    k'.target = run.names.getLast?.getD k.target ∧
    k'.map.getD ∅ =
      (carriedUsers 0 (selectedEntries target value)).foldl Config.hashmapSet (k.map.getD ∅) := by
  have hes : ∀ e ∈ selectedEntries target value, EntryOk KERNEL_MAX_PATH e := fun e he =>
    (entryOk_of_selected hvalue e he).short (hshort e he)
  obtain ⟨⟨sent, exit⟩, hmain, h⟩ := Exec.bind_ok.mp h
  cases h
  obtain ⟨-, n, hpermission, hnames, -, n', hn', rfl⟩ := NlMain.main_loaded hmain
  have hsend : Nluser.jsonProcess opendir fuel target n value =
      .ok ((selectedEntries target value).foldl Nluser.record n) :=
    processRoot_selected hvalue
      (fun e he n => Nluser.processPair_entry (hes e he) (Nat.le_refl _) n) n
  obtain rfl : (selectedEntries target value).foldl Nluser.record n = n' :=
    Except.ok.inj (hsend.symm.trans hn')
  rw [Nluser.sent_foldl_record, hpermission, hnames, List.foldl_append]
  obtain ⟨htarget, hmap⟩ := foldl_targets run.names 0 k
  obtain ⟨htarget', hmap'⟩ := foldl_rules (strlen_carriedUsers hes 0)
    ((run.names.map fun name => (Message.target name 0).record).foldl helloNlRecvMsg k)
  exact ⟨htarget'.trans htarget, hmap'.trans (by rw [hmap])⟩

/-- The paths of the rules that decide fit the buffers. -/
theorem Kernel.Restricts.short (h : k.Restricts target value) (hk : k.Fits) :
    ShortPaths (selectedEntries target value) := by
  intro e he p hp
  refine hk p (Finmap.mem_iff.mpr ?_)
  rw [h.2 p, ruleOf]
  obtain ⟨e', he'⟩ : ∃ e', (selectedEntries target value).reverse.find?
      (fun e => lastMember PATH e = some p) = some e' :=
    Option.isSome_iff_exists.mp
      (List.find?_isSome.mpr ⟨e, List.mem_reverse.mpr he, decide_eq_true hp⟩)
  exact ⟨_, by rw [he', Option.map_some]⟩

/-- The two targets after the options. -/
theorem targets_eq_iff (names : List CStr) (target target' : CStr) :
    names.getLast?.getD target = names.getLast?.getD target' ↔ names ≠ [] ∨ target = target' := by
  cases names with
  | nil => simp
  | cons name names => simp [List.getLast?_cons]

/-- **When the loader and the kernel module agree**, in every sequence of runs: after a run that loads
a configuration the kernel restricts the program whose sections were loaded, by their rules and no
others, if and only if the run has an option `-t` (or the kernel's target is the default of
`nluser`), the paths fit the buffers, the kernel had rules for these paths only, and no permission
is left over from an entry to the next. -/
theorem loaded_iff (opendir : CStr → Option (List Dirent)) (fuel : Nat) {runs : List NlRun}
    (hconfigs : ∀ run ∈ runs, ∀ path value, run.files path = some (some value) →
      ∃ bound, ConfigOk bound value) :
    ∀ e ∈ trace (Kernel.serve opendir fuel) Kernel.init runs, ∀ target value,
      e.2.2 = .loaded target value → ∃ k', Kernel.serve opendir fuel e.1 e.2.1 = .ok (e.2.2, k') ∧
        (k'.Restricts target value ↔
          (e.2.1.names ≠ [] ∨ e.1.target = ({} : NlMain).target) ∧
          ShortPaths (selectedEntries target value) ∧
          (∀ q ∈ e.1.map.getD ∅, ∃ e' ∈ selectedEntries target value, lastMember PATH e' = some q) ∧
          NoLeak (selectedEntries target value)) := by
  intro e he target value hexit
  have hfits : ∀ k run exit k', k.Fits → True →
      Kernel.serve opendir fuel k run = .ok (exit, k') → k'.Fits := by
    intro k run exit k' hk _ h
    obtain ⟨⟨sent, exit⟩, hmain, h⟩ := Exec.bind_ok.mp h
    cases h
    exact hk.messages (NlMain.fits_main hmain)
  have hinit : Kernel.init.Fits := fun q hq => absurd hq Finmap.notMem_empty
  obtain ⟨hk, k', hserve⟩ := trace_inv (fun _ _ => True) Kernel.Fits hfits hinit (fun _ _ => trivial) e he
  refine ⟨k', hserve, ?_⟩
  have hk' := hfits _ _ _ _ hk trivial hserve
  rw [hexit] at hserve
  obtain ⟨⟨sent, exit⟩, hmain, hsent⟩ := Exec.bind_ok.mp hserve
  cases hsent
  obtain ⟨htarget, -, -, -, ⟨path, hfile⟩, -⟩ := NlMain.main_loaded hmain
  obtain ⟨bound, hvalue⟩ := hconfigs _ (mem_of_mem_trace he) path value hfile
  have hes : ∀ e' ∈ selectedEntries target value, EntryOk bound e' := entryOk_of_selected hvalue
  have hrules := rules_eq_iff hes (e.1.map.getD ∅)
  have hloaded : ShortPaths (selectedEntries target value) → _ := Kernel.serve_loaded hserve hvalue
  constructor
  · intro h
    have hshort := h.short hk'
    obtain ⟨htarget', hmap⟩ := hloaded hshort
    obtain ⟨hnames, hlookup⟩ := h
    rw [hmap] at hlookup
    rw [htarget', htarget] at hnames
    exact ⟨(targets_eq_iff _ _ _).mp hnames, hshort, hrules.mp hlookup⟩
  · rintro ⟨hnames, hshort, hmap, hleak⟩
    obtain ⟨htarget', hmap'⟩ := hloaded hshort
    refine ⟨?_, ?_⟩
    · rw [htarget', htarget]
      exact (targets_eq_iff _ _ _).mpr hnames
    · rw [hmap']
      exact hrules.mpr ⟨hmap, hleak⟩

/-- `nluser -t a` with the configuration `value`. -/
def loadRun (value : JsonValue) : NlRun where
  options := [.t (.ofChars ['a'])]
  files _ := some (some value)

/-- One section with one rule: a file that is forbidden. -/
def forbiddenConfig : JsonValue :=
  .object [((CStr.ofChars ['a']).buf, .array [fileRule ['/', 'f'] ['F']])]

/-- Two runs of `nluser`. The rule of the first one is for a path that the second one loads too. -/
theorem loaded_iff_read :
    ∃ k k', Kernel.serve (fun _ => none) 0 Kernel.init (loadRun forbiddenConfig) =
        .ok (.loaded (.ofChars ['a']) forbiddenConfig, k) ∧
      Kernel.serve (fun _ => none) 0 k (loadRun readConfig) =
        .ok (.loaded (.ofChars ['a']) readConfig, k') ∧
      k'.Restricts (.ofChars ['a']) readConfig := by
  have hconfigs : ∀ run ∈ [loadRun forbiddenConfig, loadRun readConfig], ∀ path value,
      run.files path = some (some value) → ∃ bound, ConfigOk bound value := by
    refine List.forall_mem_cons.mpr ⟨?_, List.forall_mem_singleton.mpr ?_⟩
    · rintro path value ⟨⟩
      exact ⟨254, @configOk_section 254 _ [_] (by decide)⟩
    · rintro path value ⟨⟩
      exact ⟨254, configOk_readConfig⟩
  obtain ⟨k, hk, hmap⟩ : ∃ k, Kernel.serve (fun _ => none) 0 Kernel.init (loadRun forbiddenConfig) =
      .ok (.loaded (.ofChars ['a']) forbiddenConfig, k) ∧
      k.map.getD ∅ = Finmap.singleton (.ofChars ['/', 'f']) O_FORBIDDEN := ⟨_, rfl, by decide⟩
  obtain ⟨k₁, hk₁⟩ : ∃ k₁, Kernel.serve (fun _ => none) 0 k (loadRun readConfig) =
      .ok (.loaded (.ofChars ['a']) readConfig, k₁) := ⟨_, rfl⟩
  obtain ⟨k', hk', hiff⟩ := loaded_iff (fun _ => none) 0 hconfigs
    (k, loadRun readConfig, .loaded (.ofChars ['a']) readConfig) (by simp [trace, hk, hk₁]) _ _ rfl
  have hnames : (loadRun readConfig).names ≠ [] := by decide
  refine ⟨k, k', hk, hk', hiff.mpr ⟨.inl hnames, by decide, ?_, by decide⟩⟩
  intro q hq
  rw [hmap, Finmap.mem_singleton] at hq
  subst hq
  exact ⟨_, List.mem_cons_self, rfl⟩

/-- One section, for the default target of `nluser`. -/
def defaultConfig : JsonValue :=
  .object [(({} : NlMain).target.buf, .array [.object
    [(PATH.buf, .string (CStr.ofChars ['/', 'f']).buf), (AUTHORITY.buf, .string (CStr.ofChars ['r']).buf)]])]

theorem configOk_defaultConfig : ConfigOk 254 defaultConfig := @configOk_section 254 _ [_] (by decide)

/-- A run without options: `nluser` loads the rules for `a.out`, the kernel restricts `mytest`. -/
theorem loaded_fails :
    ConfigOk 254 defaultConfig ∧
    ∃ k', Kernel.serve (fun _ => none) 0 Kernel.init ⟨[], fun _ => some (some defaultConfig)⟩ =
        .ok (.loaded (.ofChars ['a', '.', 'o', 'u', 't']) defaultConfig, k') ∧
      k'.target = .ofChars ['m', 'y', 't', 'e', 's', 't'] ∧
      ¬ k'.Restricts (.ofChars ['a', '.', 'o', 'u', 't']) defaultConfig := by
  refine ⟨configOk_defaultConfig, _, rfl, rfl, fun h => ?_⟩
  exact absurd h.1 (by decide)

end Cnpv
