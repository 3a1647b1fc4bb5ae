import Cnpv.Config.Reference

/-!
# Which configurations are read safely (`ns_agent/config.c`, `kernel_module/nluser.c`)

The loaders test that the root is an object, a section an array and an entry an object, and exit if
not. They do not test that a `PATH` or an `AUTHORITY` is a string, nor that an entry has a `PATH`
that is not empty: then `pathname[strlen(pathname) - 1]` is before the buffer. So a loader completes
or exits if and only if each entry that it reads is safe (`processRoot_safe_iff`).
-/

namespace Cnpv

open CLib

/-- The run completes, or stops at `exit(-1)`. -/
def CompletesOrExits {α : Type} (x : Exec α) : Prop := (∃ a, x = .ok a) ∨ x = .error (.exit (-1))

/-- The directories read from `path` are finite, and the names fit: those of files a buffer of `size`
bytes, those of directories one of 512. -/
inductive DirFits (opendir : CStr → Option (List Dirent)) (size : Nat) : CStr → Prop
  | missing {path : CStr} : opendir path = none → DirFits opendir size path
  | listed {path : CStr} {entries : List Dirent} : opendir path = some entries →
    (∀ d ∈ entries, d.isDir = false → (path ++ d.name).strlen < size) →
    (∀ d ∈ entries, d.isDir = true → d.name ≠ dot ∧ d.name ≠ dotDot → (path ++ d.name).strlen < 512) →
    (∀ d ∈ entries, d.isDir = true → d.name ≠ dot ∧ d.name ≠ dotDot →
      DirFits opendir size (path ++ d.name)) → DirFits opendir size path

/-- An entry that is read safely: its `PATH`s and `AUTHORITY`s are strings, its last `PATH` is not empty
and, if what is kept of it ends in `/`, its directory fits. -/
structure PairSafe (opendir : CStr → Option (List Dirent)) (maxPath : Nat) (e : Entry) : Prop where
  strings : ∀ m ∈ e, CStr.ofBytes m.1 = PATH ∨ CStr.ofBytes m.1 = AUTHORITY →
    ∃ ptr, m.2 = .string ptr
  path : ∃ p, lastMember PATH e = some p ∧ p.bytes ≠ [] ∧
    ((p.take (maxPath - 1)).bytes.getLast? = some '/'.toUInt8 →
      DirFits opendir maxPath (p.take (maxPath - 1)))

/-- An entry that `process_pair` reads, or `none` if it exits. -/
def entryVisit : JsonValue → Option Entry
  | .object e => some e
  | _ => none

/-- What `process_array` meets in a section. -/
def sectionVisits : JsonValue → List (Option Entry)
  | .array values => values.map entryVisit
  | _ => [none]

/-- What `process_root` meets. -/
def visits (progName : CStr) : JsonValue → List (Option Entry)
  | .object sections => sections.flatMap fun s =>
    if progName.bytes <:+: (CStr.ofBytes s.1).bytes then sectionVisits s.2 else []
  | _ => [none]

/-- The entries before the first exit. -/
def untilExit : List (Option Entry) → List Entry
  | some e :: visits => e :: untilExit visits
  | _ => []

/-- The entries that `process_root` reads. -/
def readEntries (progName : CStr) (root : JsonValue) : List Entry := untilExit (visits progName root)

variable {opendir : CStr → Option (List Dirent)} {size maxPath fuel : Nat} {σ : Type}

/-! ## Directories -/

section Directories

variable {emit : σ → User → σ} {permission : CInt} {path : CStr} {s s' : σ} {h : Halt}

/-- Reading a directory stops without an exit. -/
theorem dirContent_error (herr : dirContent opendir size emit permission fuel path s = .error h) :
    h ≠ .exit (-1) := by
  induction fuel generalizing path s with
  | zero => cases herr; decide
  | succ fuel ih =>
    rw [dirContent] at herr
    cases hopen : opendir path with
    | none => simp only [hopen] at herr; cases herr
    | some entries =>
      simp only [hopen] at herr
      obtain ⟨d, -, s₁, hd⟩ := runFrom_error herr
      rw [dirEntry] at hd
      split_ifs at hd
      · rcases Exec.bind_error.mp hd with hstore | ⟨pathname, -, hd⟩
        · rw [CStr.store_error hstore]
          decide
        · cases hd
      · rcases Exec.bind_error.mp hd with hstore | ⟨dPath, -, hd⟩
        · rw [CStr.store_error hstore]
          decide
        · exact ih hd

/-- A directory that was read fits. -/
theorem dirFits_of_ok (hok : dirContent opendir size emit permission fuel path s = .ok s') :
    DirFits opendir size path := by
  induction fuel generalizing path s s' with
  | zero => cases hok
  | succ fuel ih =>
    rw [dirContent] at hok
    cases hopen : opendir path with
    | none => exact .missing hopen
    | some entries =>
      simp only [hopen] at hok
      have hentry := runFrom_ok hok
      have hfile : ∀ d ∈ entries, d.isDir = false → (path ++ d.name).strlen < size := by
        intro d hd hfile
        obtain ⟨s₁, s₂, hstep⟩ := runFrom_ok hok d hd
        rcases dirEntry_ok hstep with ⟨-, hlt, -⟩ | ⟨hdir, -⟩ | ⟨hdir, -⟩
        · exact hlt
        · simp [hfile] at hdir
        · simp [hfile] at hdir
      have hsub : ∀ d ∈ entries, d.isDir = true → d.name ≠ dot ∧ d.name ≠ dotDot →
          (path ++ d.name).strlen < 512 ∧ DirFits opendir size (path ++ d.name) := by
        intro d hd hdir hdots
        obtain ⟨s₁, s₂, hstep⟩ := runFrom_ok hok d hd
        rcases dirEntry_ok hstep with ⟨hfile, -⟩ | ⟨-, -, hlt, hread⟩ | ⟨-, hnot, -⟩
        · simp [hdir] at hfile
        · exact ⟨hlt, ih hread⟩
        · exact absurd hdots hnot
      exact .listed hopen hfile (fun d hd hdir hdots => (hsub d hd hdir hdots).1)
        fun d hd hdir hdots => (hsub d hd hdir hdots).2

/-- One bound for all elements of a list. -/
theorem exists_bound {α : Type} {P : α → Nat → Prop} {l : List α}
    (h : ∀ a ∈ l, ∃ N, ∀ n, N ≤ n → P a n) : ∃ N, ∀ n, N ≤ n → ∀ a ∈ l, P a n := by
  induction l with
  | nil => exact ⟨0, by simp⟩
  | cons a l ih =>
    obtain ⟨N₁, h₁⟩ := h a (by simp)
    obtain ⟨N₂, h₂⟩ := ih fun a ha => h a (by simp [ha])
    refine ⟨max N₁ N₂, fun n hn => List.forall_mem_cons.mpr ⟨h₁ n ?_, h₂ n ?_⟩⟩
    · omega
    · omega

/-- A directory that fits is read, with enough fuel. -/
theorem DirFits.reads (hfits : DirFits opendir size path) (emit : σ → User → σ) :
    ∃ N, ∀ fuel, N ≤ fuel → ∀ permission s,
      ∃ s', dirContent opendir size emit permission fuel path s = .ok s' := by
  induction hfits with
  | missing hopen =>
    refine ⟨1, fun fuel hfuel permission s => ?_⟩
    obtain ⟨k, rfl⟩ : ∃ k, fuel = k + 1 := ⟨fuel - 1, by omega⟩
    exact ⟨s, by simp [dirContent, hopen]⟩
  | @listed path entries hopen hfile hdir _ ih =>
    obtain ⟨N, hN⟩ := exists_bound (P := fun d fuel => d.isDir = true → d.name ≠ dot ∧ d.name ≠ dotDot →
      ∀ permission s, ∃ s', dirContent opendir size emit permission fuel (path ++ d.name) s = .ok s')
      fun d (hd : d ∈ entries) => by
        by_cases hsub : d.isDir = true ∧ d.name ≠ dot ∧ d.name ≠ dotDot
        · obtain ⟨N, hN⟩ := ih d hd hsub.1 hsub.2
          exact ⟨N, fun fuel hfuel _ _ => hN fuel hfuel⟩
        · exact ⟨0, fun fuel _ h₁ h₂ => absurd ⟨h₁, h₂⟩ hsub⟩
    refine ⟨N + 1, fun fuel hfuel permission s => ?_⟩
    obtain ⟨k, rfl⟩ : ∃ k, fuel = k + 1 := ⟨fuel - 1, by omega⟩
    simp only [dirContent, hopen]
    refine runFrom_returns (fun d hd s => ?_) s
    rw [dirEntry]
    split_ifs with h₁ h₂
    · rw [CStr.store_of_lt (hfile d hd h₁)]
      exact ⟨_, rfl⟩
    · have hisDir : d.isDir = true := by simpa using h₁
      rw [CStr.store_of_lt (hdir d hd hisDir h₂)]
      exact hN k (by omega) d hd hisDir h₂ permission s
    · exact ⟨s, rfl⟩

end Directories

/-! ## One entry -/

section Pair

/-- `process_pair` on an object, for both programs: `store` keeps a file, `enter` precedes a directory. -/
def readPair (opendir : CStr → Option (List Dirent)) (maxPath : Nat) (emit : σ → User → σ) (fuel : Nat)
    (permission : CInt) (store enter : User → σ) (values : Entry) : Exec σ := do
  let u ← runFrom (readMember maxPath) { pathname := default, permission } values
  let last ← lastChar u.pathname
  if last = '/'.toUInt8 then dirContent opendir maxPath emit u.permission fuel u.pathname (enter u)
  else .ok (store u)

theorem Config.processPair_object (map : PolicyMap) (e : Entry) :
    Config.processPair opendir fuel map (.object e) =
      readPair opendir MAX_PATH Config.hashmapSet fuel 0 (Config.hashmapSet map) (fun _ => map) e := rfl

theorem Nluser.processPair_object (n : Nluser) (e : Entry) :
    Nluser.processPair opendir fuel n (.object e) =
      readPair opendir KERNEL_MAX_PATH (fun n tmp => n.mysendmsg { tmp with type := .myuser }) fuel
        n.user.permission
        (fun u => { n with user := { u with type := .myuser } }.mysendmsg { u with type := .myuser })
        (fun u => { n with user := { n.user with toUser := u } }) e := rfl

variable {u u' : User} {m : List UInt8 × JsonValue} {e : Entry} {emit : σ → User → σ}
  {permission : CInt} {store enter : User → σ} {s : σ} {h : Halt}

/-- A member that was read is a string where one is expected. -/
theorem string_of_readMember (hok : readMember maxPath u m = .ok u')
    (hname : CStr.ofBytes m.1 = PATH ∨ CStr.ofBytes m.1 = AUTHORITY) : ∃ ptr, m.2 = .string ptr := by
  have hptr : ∀ ptr, m.2.stringPtr = .ok ptr → ∃ ptr, m.2 = .string ptr := by
    intro ptr hptr
    cases hm : m.2 with
    | string ptr => exact ⟨ptr, rfl⟩
    | _ => rw [hm] at hptr; cases hptr
  rw [readMember] at hok
  split_ifs at hok with h₁ h₂
  · obtain ⟨ptr, h, -⟩ := Exec.bind_ok.mp hok
    exact hptr ptr h
  · obtain ⟨ptr, h, -⟩ := Exec.bind_ok.mp hok
    exact hptr ptr h
  · exact absurd hname (not_or.mpr ⟨h₁, h₂⟩)

theorem readMember_error (herr : readMember maxPath u m = .error h) : h ≠ .exit (-1) := by
  have hptr : m.2.stringPtr = .error h → h ≠ .exit (-1) := by
    intro hptr
    cases hm : m.2 with
    | string ptr => rw [hm] at hptr; cases hptr
    | _ => rw [hm] at hptr; cases hptr; decide
  rw [readMember] at herr
  split_ifs at herr
  · rcases Exec.bind_error.mp herr with herr | ⟨ptr, -, herr⟩
    · exact hptr herr
    · cases herr
  · rcases Exec.bind_error.mp herr with herr | ⟨ptr, -, herr⟩
    · exact hptr herr
    · cases herr

theorem lastChar_ok {p : CStr} {b : UInt8} : lastChar p = .ok b ↔ p.bytes.getLast? = some b := by
  unfold lastChar
  cases p.bytes.getLast? <;> simp

/-- An entry stops without an exit. -/
theorem readPair_error
    (herr : readPair opendir maxPath emit fuel permission store enter e = .error h) :
    h ≠ .exit (-1) := by
  rcases Exec.bind_error.mp herr with herr | ⟨u, -, herr⟩
  · obtain ⟨m, -, u, hm⟩ := runFrom_error herr
    exact readMember_error hm
  · rcases Exec.bind_error.mp herr with herr | ⟨last, -, herr⟩
    · unfold lastChar at herr
      split at herr
      · cases herr
      · cases herr; decide
    · split_ifs at herr
      exact dirContent_error herr

/-- The record of an entry whose `PATH`s and `AUTHORITY`s are strings. -/
theorem readPair_strings (hstrings : ∀ m ∈ e, CStr.ofBytes m.1 = PATH ∨ CStr.ofBytes m.1 = AUTHORITY →
      ∃ ptr, m.2 = .string ptr) {p : CStr} (hp : lastMember PATH e = some p) :
    ∃ A, readPair opendir maxPath emit fuel permission store enter e = (do
      let last ← lastChar (p.take (maxPath - 1))
      if last = '/'.toUInt8 then
        dirContent opendir maxPath emit A fuel (p.take (maxPath - 1)) (enter ⟨p.take (maxPath - 1), A⟩)
      else .ok (store ⟨p.take (maxPath - 1), A⟩)) := by
  refine ⟨((lastMember AUTHORITY e).map getModeValue).getD permission, ?_⟩
  rw [readPair, readMembers hstrings, hp]
  rfl

/-- An entry that was read is safe. -/
theorem pairSafe_of_ok (hok : readPair opendir maxPath emit fuel permission store enter e = .ok s) :
    PairSafe opendir maxPath e := by
  obtain ⟨u, hread, hlast⟩ := Exec.bind_ok.mp hok
  have hstrings : ∀ m ∈ e, CStr.ofBytes m.1 = PATH ∨ CStr.ofBytes m.1 = AUTHORITY →
      ∃ ptr, m.2 = .string ptr := by
    intro m hm hname
    obtain ⟨u₁, u₂, hstep⟩ := runFrom_ok hread m hm
    exact string_of_readMember hstep hname
  refine ⟨hstrings, ?_⟩
  cases hp : lastMember PATH e with
  | none =>
    -- `pathname` is empty.
    rw [readMembers hstrings, hp] at hread
    cases hread
    obtain ⟨last, hlast, -⟩ := Exec.bind_ok.mp hlast
    cases lastChar_ok.mp hlast
  | some p =>
    obtain ⟨A, hpair⟩ := readPair_strings hstrings hp
    rw [hpair] at hok
    obtain ⟨last, hlast, hok⟩ := Exec.bind_ok.mp hok
    rw [lastChar_ok] at hlast
    refine ⟨p, rfl, ?_, fun hslash => ?_⟩
    · rintro hnil
      simp [CStr.take, hnil] at hlast
    · rw [hslash] at hlast
      rw [if_pos (Option.some.inj hlast).symm] at hok
      exact dirFits_of_ok hok

/-- A safe entry is read, with enough fuel. -/
theorem PairSafe.reads (hsafe : PairSafe opendir maxPath e) (hmax : 1 < maxPath) (emit : σ → User → σ) :
    ∃ N, ∀ fuel, N ≤ fuel → ∀ permission store enter,
      ∃ s, readPair opendir maxPath emit fuel permission store enter e = .ok s := by
  obtain ⟨p, hp, hne, hdir⟩ := hsafe.path
  obtain ⟨last, hlast⟩ : ∃ last, (p.take (maxPath - 1)).bytes.getLast? = some last := by
    refine ⟨_, List.getLast?_eq_some_getLast fun hnil => ?_⟩
    rcases List.take_eq_nil_iff.mp hnil with hzero | hnil
    · omega
    · exact hne hnil
  by_cases hslash : last = '/'.toUInt8
  · subst hslash
    obtain ⟨N, hN⟩ := (hdir hlast).reads emit
    refine ⟨N, fun fuel hfuel permission store enter => ?_⟩
    obtain ⟨A, hpair⟩ := readPair_strings hsafe.strings hp
    rw [hpair, lastChar_ok.mpr hlast, Exec.ok_bind, if_pos rfl]
    exact hN fuel hfuel A _
  · refine ⟨0, fun fuel _ permission store enter => ?_⟩
    obtain ⟨A, hpair⟩ := readPair_strings hsafe.strings hp
    rw [hpair, lastChar_ok.mpr hlast, Exec.ok_bind, if_neg hslash]
    exact ⟨_, rfl⟩

end Pair

/-! ## All entries -/

section Visits

/-- What `process_root` does with what it meets. -/
def visit (processPair : σ → JsonValue → Exec σ) (s : σ) : Option Entry → Exec σ
  | some e => processPair s (.object e)
  | none => .error (.exit (-1))

theorem visits_eq (progName : CStr) (root : JsonValue) :
    visits progName root = (rootValues progName root).map fun v => v.bind entryVisit := by
  have hsection : ∀ v, sectionVisits v = (sectionValues v).map fun v => v.bind entryVisit := by
    intro v
    cases v with
    | array values => simp [sectionVisits, sectionValues]
    | _ => rfl
  cases root with
  | object sections =>
    rw [visits, rootValues, List.map_flatMap]
    congr 1
    funext sec
    split_ifs
    · exact hsection sec.2
    · rfl
  | _ => rfl

/-- The loops over sections and entries are one loop over what they meet. -/
theorem processRoot_visits {processPair : σ → JsonValue → Exec σ}
    (hexit : ∀ s v, entryVisit v = none → processPair s v = .error (.exit (-1))) (progName : CStr)
    (s : σ) (root : JsonValue) :
    processRoot processPair progName s root = runFrom (visit processPair) s (visits progName root) := by
  rw [processRoot_eq_runFrom, visits_eq, runFrom_map_list]
  congr 1
  funext s v
  cases v with
  | none => rfl
  | some v =>
    cases v with
    | object e => rfl
    | _ => exact hexit s _ rfl

variable {processPair : Nat → σ → JsonValue → Exec σ} {Safe : Entry → Prop} {vs : List (Option Entry)}

/-- If the entries before the first exit are safe, the loop completes or exits. -/
theorem completesOrExits_of_safe (hreads : ∀ e, Safe e → ∃ N, ∀ fuel, N ≤ fuel → ∀ s,
      ∃ s', processPair fuel s (.object e) = .ok s') (hsafe : ∀ e ∈ untilExit vs, Safe e) :
    ∃ N, ∀ fuel, N ≤ fuel → ∀ s, CompletesOrExits (runFrom (visit (processPair fuel)) s vs) := by
  induction vs with
  | nil => exact ⟨0, fun _ _ s => .inl ⟨s, rfl⟩⟩
  | cons v vs ih =>
    cases v with
    | none => exact ⟨0, fun _ _ _ => .inr rfl⟩
    | some e =>
      rw [untilExit, List.forall_mem_cons] at hsafe
      obtain ⟨N₁, h₁⟩ := hreads e hsafe.1
      obtain ⟨N₂, h₂⟩ := ih hsafe.2
      refine ⟨max N₁ N₂, fun fuel hfuel s => ?_⟩
      obtain ⟨s', hs'⟩ := h₁ fuel (by omega) s
      rw [runFrom_cons, visit, hs']
      exact h₂ fuel (by omega) s'

/-- If the loop completes or exits, the entries before the first exit are safe. -/
theorem safe_of_completesOrExits {fuel : Nat} {s : σ}
    (hok : ∀ s e s', processPair fuel s (.object e) = .ok s' → Safe e)
    (herror : ∀ s e h, processPair fuel s (.object e) = .error h → h ≠ .exit (-1))
    (hrun : CompletesOrExits (runFrom (visit (processPair fuel)) s vs)) : ∀ e ∈ untilExit vs, Safe e := by
  induction vs generalizing s with
  | nil => simp [untilExit]
  | cons v vs ih =>
    cases v with
    | none => simp [untilExit]
    | some e =>
      rw [runFrom_cons, visit] at hrun
      cases hpair : processPair fuel s (.object e) with
      | ok s' =>
        rw [hpair] at hrun
        exact List.forall_mem_cons.mpr ⟨hok s e s' hpair, ih hrun⟩
      | error h =>
        rw [hpair] at hrun
        rcases hrun with ⟨s', hs'⟩ | hexit
        · cases hs'
        · cases hexit
          exact absurd rfl (herror s e _ hpair)

end Visits

/-- A loader whose `process_pair` reads objects as `readPair` does. -/
theorem loader_safe_iff {processPair : Nat → σ → JsonValue → Exec σ} (hmax : 1 < maxPath)
    {emit : σ → User → σ} {permission : σ → CInt} {store enter : σ → User → σ}
    (hobject : ∀ fuel s e, processPair fuel s (.object e) =
      readPair opendir maxPath emit fuel (permission s) (store s) (enter s) e)
    (hexit : ∀ fuel s v, entryVisit v = none → processPair fuel s v = .error (.exit (-1)))
    (progName : CStr) (s : σ) (root : JsonValue) :
    (∃ N, ∀ fuel, N ≤ fuel → CompletesOrExits (processRoot (processPair fuel) progName s root)) ↔
      ∀ e ∈ readEntries progName root, PairSafe opendir maxPath e := by
  constructor
  · rintro ⟨N, hN⟩
    have hrun := hN N (Nat.le_refl N)
    rw [processRoot_visits (hexit N)] at hrun
    refine safe_of_completesOrExits (fun s e s' h => ?_) (fun s e halt h => ?_) hrun
    · rw [hobject] at h
      exact pairSafe_of_ok h
    · rw [hobject] at h
      exact readPair_error h
  · intro hsafe
    have hreads : ∀ e, PairSafe opendir maxPath e → ∃ N, ∀ fuel, N ≤ fuel → ∀ s,
        ∃ s', processPair fuel s (.object e) = .ok s' := by
      intro e he
      obtain ⟨N, hN⟩ := he.reads hmax emit
      refine ⟨N, fun fuel hfuel s => ?_⟩
      obtain ⟨s', hs'⟩ := hN fuel hfuel (permission s) (store s) (enter s)
      exact ⟨s', (hobject fuel s e).trans hs'⟩
    obtain ⟨N, hN⟩ := completesOrExits_of_safe hreads hsafe
    refine ⟨N, fun fuel hfuel => ?_⟩
    rw [processRoot_visits (hexit fuel)]
    exact hN fuel hfuel s

/-- **Which configurations are read safely**: the agent and `nluser` complete or exit, without a read
of a member of the wrong type or an index outside of a buffer, if and only if each entry that is
read is safe. -/
theorem processRoot_safe_iff (opendir : CStr → Option (List Dirent)) (progName : CStr)
    (map : PolicyMap) (n : Nluser) (root : JsonValue) :
    ((∃ N, ∀ fuel, N ≤ fuel →
        CompletesOrExits (Config.processRoot opendir fuel progName map root)) ↔
      ∀ e ∈ readEntries progName root, PairSafe opendir MAX_PATH e) ∧
    ((∃ N, ∀ fuel, N ≤ fuel →
        CompletesOrExits (Nluser.jsonProcess opendir fuel progName n root)) ↔
      ∀ e ∈ readEntries progName root, PairSafe opendir KERNEL_MAX_PATH e) := by
  refine ⟨?_, ?_⟩
  · exact loader_safe_iff (by decide) (fun fuel map e => Config.processPair_object map e)
      (fun fuel map v hv => by cases v <;> first | rfl | cases hv) progName map root
  · exact loader_safe_iff (by decide) (fun fuel n e => Nluser.processPair_object n e)
      (fun fuel n v hv => by cases v <;> first | rfl | cases hv) progName n root

/-- An entry without a `PATH`, and one whose `PATH` is a number. -/
theorem processRoot_unsafe :
    Config.processRoot (fun _ => none) 1 (.ofChars ['a']) ∅
      (.object [((CStr.ofChars ['a']).buf, .array [.object []])]) =
        .error (.undefined .outOfBounds) ∧
    Config.processRoot (fun _ => none) 1 (.ofChars ['a']) ∅
      (.object [((CStr.ofChars ['a']).buf, .array [.object [(PATH.buf, .integer 5)]])]) =
        .error (.undefined .wrongMember) := by
  exact ⟨rfl, rfl⟩

end Cnpv
