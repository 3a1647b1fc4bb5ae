import Cnpv.Agent.Cache
import Mathlib.Data.Finmap

/-!
# The permission check (`ns_agent/check.c`)

`checkPermission` is `check_permission` compiled with `USE_CACHE`, `checkPermissionUncached` the
same function without. The policy is a finite map from names to permissions (the hash map is taken
to be one), and an `int` is a `BitVec 32`.

The cache is keyed by the name alone, but a verdict also depends on the flag word. `Agent.Sound`
is the invariant of the cache: every entry is the verdict of the policy on the flag word of the
latest call that asked the policy about its name. So a call returns the verdict for its own flag
word when the cache does not have its name, and for that other flag word when it does
(`checkPermission_spec`).
-/

namespace Cnpv

open CLib

/-- `MAX_PATH` -/
def MAX_PATH : Nat := 512

/-- `int` -/
abbrev CInt := BitVec 32

def O_READ : CInt := 0o100
def O_WRITE : CInt := 0o10
def O_FORBIDDEN : CInt := 0o1

def O_RDONLY : CInt := 0
def O_WRONLY : CInt := 1
def O_RDWR : CInt := 2

/-- The flag word that `fopen` passes. -/
def FOPEN_MODE_FLAG : CInt := 0xffff

/-- `map`, from the `pathname` to the `permission` of a `struct user`. -/
abbrev PolicyMap := Finmap fun _ : CStr => CInt

/-- The globals of the agent. -/
structure Agent where
  map : PolicyMap
  cwd : CStr
  cache : VerdictCache

/-- `"/"` -/
def slash : CStr := .ofChars ['/']

/-- The name that `check_permission` looks up, in its `buf`. -/
def checkName (cwd pathname : CStr) : Exec CStr :=
  if (strstr pathname.bytes slash.bytes).isNone then (cwd ++ slash ++ pathname).store MAX_PATH
  else pathname.store MAX_PATH

/-- `ret` for a name with a rule. -/
def allows (permission oflag : CInt) : Bool :=
  if oflag = FOPEN_MODE_FLAG then true
  else if permission &&& O_FORBIDDEN ≠ 0 then false
  else if oflag &&& 0x03 = O_RDONLY then permission &&& O_READ ≠ 0
  else if oflag &&& 0x03 = O_WRONLY then permission &&& O_WRITE ≠ 0
  else if oflag &&& 0x03 = O_RDWR then permission &&& O_READ ≠ 0 ∧ permission &&& O_WRITE ≠ 0
  else false

/-- The verdict of the policy on a name in `buf`: a name without a rule is allowed. -/
def verdict (map : PolicyMap) (buf : CStr) (oflag : CInt) : Bool :=
  match map.lookup (buf.take (MAX_PATH - 1)) with
  | none => true
  | some permission => allows permission oflag

/-- `check_permission` without `USE_CACHE`. -/
def checkPermissionUncached (map : PolicyMap) (cwd pathname : CStr) (oflag : CInt) : Exec Bool := do
  let buf ← checkName cwd pathname
  .ok (verdict map buf oflag)

/-- The value that the cache stores for a verdict. -/
def verdictStr (ret : Bool) : CStr := if ret then .ofChars ['A'] else .ofChars ['F']

/-- `*p` -/
def Buffer.char (p : Buffer) : UInt8 := p.data.headD 0

/-- `check_permission` with `USE_CACHE`. -/
def checkPermission (fuel : Nat) (a : Agent) (pathname : CStr) (oflag : CInt) :
    Exec (Bool × Agent) := do
  let buf ← checkName a.cwd pathname
  let (cacheValue, cache) ← cacheGet fuel a.cache buf none
  if cacheValue.map Buffer.char = some 'A'.toUInt8 then .ok (true, { a with cache })
  else if cacheValue.map Buffer.char = some 'F'.toUInt8 then .ok (false, { a with cache })
  else do
    let ret := verdict a.map buf oflag
    let cache ← cacheInsert fuel cache buf (verdictStr ret)
    .ok (ret, { a with cache })

/-- The agent after `config_init` and `cache_init`. -/
def agentInit (map : PolicyMap) (cwd : CStr) (seed : UInt64) : Agent where
  map := map
  cwd := cwd
  cache := cacheInit seed

/-- The name of a pathname fits the buffer. -/
def NameFits (cwd pathname : CStr) : Prop := (checkName cwd pathname).isOk = true

instance (cwd pathname : CStr) : Decidable (NameFits cwd pathname) :=
  inferInstanceAs (Decidable (_ = _))

section Name

variable {cwd pathname n : CStr} {map : PolicyMap} {oflag : CInt}

theorem nameFits_iff : NameFits cwd pathname ↔ ∃ n, checkName cwd pathname = .ok n := by
  unfold NameFits
  cases checkName cwd pathname with
  | ok n => simp [Except.isOk, Except.toBool]
  | error e => simp [Except.isOk, Except.toBool]

theorem checkName_eq (hn : checkName cwd pathname = .ok n) :
    n.strlen < MAX_PATH ∧ n = if '/'.toUInt8 ∈ pathname.bytes then pathname
      else cwd ++ slash ++ pathname := by
  unfold checkName at hn
  have hs : (strstr pathname.bytes slash.bytes).isNone ↔ '/'.toUInt8 ∉ pathname.bytes := by
    rw [← strstr_singleton, Option.isNone_iff_eq_none, Option.not_isSome_iff_eq_none]
    rfl
  split at hn
  · next h =>
    obtain ⟨hlt, rfl⟩ := CStr.store_ok.mp hn
    rw [if_neg (hs.mp h)]
    exact ⟨hlt, rfl⟩
  · next h =>
    obtain ⟨hlt, rfl⟩ := CStr.store_ok.mp hn
    rw [if_pos (by simpa using mt hs.mpr h)]
    exact ⟨hlt, rfl⟩

/-- A name in the buffer is a key of the cache, and of the policy. -/
theorem keyFits_of_checkName (hn : checkName cwd pathname = .ok n) : KeyFits n := by
  have := (checkName_eq hn).1
  unfold MAX_PATH at this
  unfold KeyFits
  omega

theorem verdict_of_checkName (hn : checkName cwd pathname = .ok n) :
    verdict map n oflag = (map.lookup n).elim true fun permission => allows permission oflag := by
  have hlt := (checkName_eq hn).1
  unfold verdict
  rw [CStr.take_of_le (Nat.le_sub_one_of_lt hlt)]
  cases map.lookup n <;> rfl

end Name

/-! ## The cached verdicts -/

namespace Agent

variable {a : Agent} {n : CStr} {flags : CStr → Option CInt} {fuel : Nat}

/-- The cache has the name `n`. -/
def cached (fuel : Nat) (a : Agent) (n : CStr) : Bool :=
  (cacheGet fuel a.cache n none).returned fun r => r.1.isSome

/-- Every entry of the cache is the verdict of the policy on a name and the flag word that `flags`
gives for it. -/
def Sound (a : Agent) (flags : CStr → Option CInt) : Prop :=
  ∃ t, a.cache.Holds t ∧ ∀ e ∈ t.entries, ∀ n, itemKey e = n.buf →
    ∃ f, flags n = some f ∧ ∃ p, e.value = some ⟨p, (verdictStr (verdict a.map n f)).buf⟩

theorem sound_agentInit (map : PolicyMap) (cwd : CStr) (seed : UInt64) :
    (agentInit map cwd seed).Sound fun _ => none :=
  ⟨_, holds_cacheInit seed, by simp⟩

/-- A cached name has a flag word. -/
theorem Sound.flags_of_cached (h : a.Sound flags) (hf : 64 < fuel) (hk : KeyFits n)
    (hc : a.cached fuel n) : ∃ f, flags n = some f := by
  obtain ⟨t, h, hentries⟩ := h
  obtain ⟨ret, c', hget, hspec⟩ := cacheGet_spec h hf hk none
  rcases hspec with ⟨e, he, hke, -, -⟩ | ⟨-, rfl, -⟩
  · obtain ⟨f, hflags, -⟩ := hentries e he n hke
    exact ⟨f, hflags⟩
  · simp [cached, hget, Exec.returned] at hc

/-- The flag word that decides a call on the name `n` with the flag word `oflag`. -/
def decided (fuel : Nat) (a : Agent) (flags : CStr → Option CInt) (n : CStr) (oflag : CInt) : CInt :=
  if a.cached fuel n then (flags n).getD oflag else oflag

end Agent

/-- **`check_permission`**: it returns the verdict on the flag word that decides the call, and its
name keeps this flag word. -/
theorem checkPermission_spec {fuel : Nat} {a : Agent} {flags : CStr → Option CInt}
    (h : a.Sound flags) (hf : 65 < fuel) {pathname n : CStr} (hn : checkName a.cwd pathname = .ok n)
    (oflag : CInt) :
    ∃ a', checkPermission fuel a pathname oflag =
        .ok (verdict a.map n (a.decided fuel flags n oflag), a') ∧
      a'.map = a.map ∧ a'.cwd = a.cwd ∧
      a'.Sound (Function.update flags n (some (a.decided fuel flags n oflag))) := by
  obtain ⟨t, h, hentries⟩ := h
  have hk := keyFits_of_checkName hn
  obtain ⟨ret, c', hget, hspec⟩ := cacheGet_spec h (Nat.lt_of_succ_lt hf) hk none
  rcases hspec with ⟨e, he, hke, rfl, h'⟩ | ⟨hnone, rfl, rfl⟩
  · obtain ⟨f, hflags, p, hvalue⟩ := hentries e he n hke
    have hdecided : a.decided fuel flags n oflag = f := by
      simp [Agent.decided, Agent.cached, hget, Exec.returned, hvalue, hflags]
    rw [hdecided, ← hflags, Function.update_eq_self]
    refine ⟨{ a with cache := c' }, ?_, rfl, rfl, t.use e, h', ?_⟩
    · refine Exec.bind_ok.mpr ⟨n, hn, Exec.bind_ok.mpr ⟨_, hget, ?_⟩⟩
      simp only [hvalue]
      cases verdict a.map n f <;> rfl
    · intro e' he' n' hk'
      rcases Multiset.mem_cons.mp he' with rfl | he'
      · exact hentries e he n' hk'
      · exact hentries e' (Multiset.mem_of_mem_erase he') n' hk'
  · have hdecided : a.decided fuel flags n oflag = oflag := by
      simp [Agent.decided, Agent.cached, hget, Exec.returned]
    rw [hdecided]
    obtain ⟨c₂, hinsert, t', h', hs⟩ :=
      cacheInsert_spec h hf hk (verdictStr (verdict a.map n oflag))
    refine ⟨{ a with cache := c₂ }, ?_, rfl, rfl, t', h', fun e' he' n' hk' => ?_⟩
    · exact Exec.bind_ok.mpr ⟨n, hn, Exec.bind_ok.mpr ⟨_, hget, Exec.bind_ok.mpr ⟨c₂, hinsert, rfl⟩⟩⟩
    · rcases hs.mem (by rwa [hk.readBytes]) he' with he' | ⟨hke, hvalue⟩
      · have hne : n' ≠ n := fun e => hnone e' he' (e ▸ hk')
        rw [Function.update_of_ne hne]
        exact hentries e' he' n' hk'
      · rw [hk.readBytes] at hke
        obtain rfl : n = n' := CStr.buf_inj.mp (hke.symm.trans hk')
        exact ⟨oflag, Function.update_self _ _ _, _, hvalue⟩

/-- What holds before each call of a run with the policy `map` and the working directory `cwd`. -/
structure Running (map : PolicyMap) (cwd : CStr) (a : Agent) (flags : CStr → Option CInt) : Prop where
  map_eq : a.map = map
  cwd_eq : a.cwd = cwd
  sound : a.Sound flags

theorem running_agentInit {map : PolicyMap} {cwd : CStr} {seed : UInt64} :
    Running map cwd (agentInit map cwd seed) fun _ => none :=
  ⟨rfl, rfl, Agent.sound_agentInit map cwd seed⟩

theorem Running.check {map : PolicyMap} {cwd : CStr} {a : Agent} {flags : CStr → Option CInt}
    {fuel : Nat} (h : Running map cwd a flags) (hf : 65 < fuel) {pathname n : CStr}
    (hn : checkName cwd pathname = .ok n) (oflag : CInt) :
    ∃ a', checkPermission fuel a pathname oflag =
        .ok (verdict map n (a.decided fuel flags n oflag), a') ∧
      Running map cwd a' (Function.update flags n (some (a.decided fuel flags n oflag))) := by
  obtain ⟨rfl, rfl, h⟩ := h
  obtain ⟨a', hcheck, hmap, hcwd, hsound⟩ := checkPermission_spec h hf hn oflag
  exact ⟨a', hcheck, hmap, hcwd, hsound⟩

end Cnpv
