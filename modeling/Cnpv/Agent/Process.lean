import Cnpv.Agent.Accesses
import Cnpv.Agent.Spelling

/-!
# The checked name and the opened name

A process changes its working directory and opens directories between its intercepted calls. The
first call runs `init_preload`, which captures the working directory in `cwd`; every later check
puts this `cwd` in front of a name without a slash, and `openat` is checked without its `dirfd`. So
the name that is looked up is the name that the real call opens if and only if the call resolves its
name against the directory that was the working directory at the first call (`checked_iff`).
-/

namespace Cnpv

open CLib

/-- What `init_preload` reads. -/
structure Env where
  /-- The map that `config_init` builds. -/
  map : PolicyMap
  /-- `CNPV_PATH` -/
  configPath : Option CStr
  /-- `program_invocation_short_name` -/
  progName : CStr
  seed : UInt64

/-- `init_preload`, the first time; `pwd` is what `getcwd` returns. -/
def initPreload (env : Env) (pwd : CStr) : Exec Agent := do
  let _ ← (pwd ++ .ofChars ['/', 'c', 'n', 'p', 'v', '-'] ++ env.progName ++
    .ofChars ['.', 'l', 'o', 'g']).store MAX_PATH
  if env.configPath.isNone then .error (.exit (-1)) else .ok (agentInit env.map pwd env.seed)

/-- A process with the agent. -/
structure Process where
  /-- The working directory. -/
  pwd : CStr
  /-- The directory that a file descriptor refers to. -/
  dirs : CInt → Option CStr := fun _ => none
  /-- The globals of the agent, once `init_preload` ran. -/
  agent : Option Agent := none

/-- What a process does. -/
inductive Event
  | chdir (dir : CStr)
  /-- The file descriptor is opened on a directory, or closed. -/
  | setDir (fd : CInt) (dir : Option CStr)
  | call (call : Call)

namespace Process

/-- The agent that serves a call: `init_preload` runs once. -/
def preload (env : Env) (p : Process) : Exec Agent :=
  match p.agent with
  | some a => .ok a
  | none => initPreload env p.pwd

/-- One event. A call gives the accesses that its check makes, and its reply. -/
def step (env : Env) (fuel : Nat) (p : Process) :
    Event → Exec (Option (List CheckAccess × Reply) × Process)
  | .chdir dir => .ok (none, { p with pwd := dir })
  | .setDir fd dir => .ok (none, { p with dirs := Function.update p.dirs fd dir })
  | .call call => do
    let a ← p.preload env
    let (reply, w) ← call.runWith (Watched.checkPermission fuel) ⟨a, []⟩
    .ok (some (w.accesses, reply), { p with agent := some w.agent })

/-- The process after an event. -/
def run (env : Env) (fuel : Nat) (p : Process) (event : Event) : Exec Process :=
  Prod.snd <$> p.step env fuel event

/-- `AT_FDCWD` -/
def AT_FDCWD : CInt := -100

/-- The directory that the real call resolves a relative pathname against. -/
def resolveDir (p : Process) : Call → Option CStr
  | .openat dirfd _ _ _ => if dirfd = AT_FDCWD then some p.pwd else p.dirs dirfd
  | .openat64 dirfd _ _ _ => if dirfd = AT_FDCWD then some p.pwd else p.dirs dirfd
  | _ => some p.pwd

/-- The working directory at the first call of `events`, or after them if there is none. -/
def firstCwd (pwd : CStr) : List Event → CStr
  | [] => pwd
  | .chdir dir :: events => firstCwd dir events
  | .setDir _ _ :: events => firstCwd pwd events
  | .call _ :: _ => pwd

/-- The `cwd` of the agent after `events`. -/
def captured (p : Process) (events : List Event) : CStr :=
  match p.agent with
  | some a => a.cwd
  | none => firstCwd p.pwd events

/-- What holds between the events: the agent is in a run of the policy. -/
def Good (env : Env) (p : Process) : Prop :=
  ∀ a, p.agent = some a → ∃ flags, Running env.map a.cwd a flags

variable {env : Env} {p p' : Process} {fuel : Nat} {event : Event} {events : List Event} {a : Agent}

theorem initPreload_ok {pwd : CStr} (h : initPreload env pwd = .ok a) :
    a = agentInit env.map pwd env.seed := by
  obtain ⟨_, -, h⟩ := Exec.bind_ok.mp h
  split at h
  · cases h
  · exact (Except.ok.inj h).symm

/-- The agent of a call. -/
theorem Good.preload (h : p.Good env) (ha : p.preload env = .ok a) :
    a.cwd = p.captured [] ∧ ∃ flags, Running env.map a.cwd a flags := by
  unfold Process.preload at ha
  unfold captured
  cases hp : p.agent with
  | some b =>
    rw [hp] at ha
    obtain rfl := Except.ok.inj ha
    exact ⟨rfl, h _ hp⟩
  | none =>
    rw [hp] at ha
    obtain rfl := initPreload_ok ha
    exact ⟨rfl, _, running_agentInit⟩

/-- One event keeps the captured directory. -/
theorem Good.run (h : p.Good env) (hf : 65 < fuel) (hr : p.run env fuel event = .ok p')
    (events : List Event) :
    p'.Good env ∧ p'.captured events = p.captured (event :: events) := by
  obtain ⟨⟨r, p''⟩, hs, rfl⟩ := Exec.map_ok.mp hr
  cases event with
  | chdir dir =>
    cases hs
    refine ⟨h, ?_⟩
    unfold captured
    cases p.agent <;> rfl
  | setDir fd dir =>
    cases hs
    refine ⟨h, ?_⟩
    unfold captured
    cases p.agent <;> rfl
  | call call =>
    obtain ⟨a, ha, hs⟩ := Exec.bind_ok.mp hs
    obtain ⟨⟨reply, w⟩, hcall, hs⟩ := Exec.bind_ok.mp hs
    cases hs
    obtain ⟨hcwd, flags, hrunning⟩ := h.preload ha
    obtain ⟨_, -, -, h'⟩ := hrunning.run hf (Watched.run_of_runWith hcall)
    refine ⟨fun b hb => ?_, ?_⟩
    · cases hb
      exact ⟨_, h'.cwd_eq.symm ▸ h'⟩
    · refine h'.cwd_eq.trans (hcwd.trans ?_)
      unfold captured
      cases p.agent <;> rfl

/-- A run keeps the directory that its first call captured. -/
theorem Good.runFrom (h : p.Good env) (hf : 65 < fuel)
    (hr : runFrom (Process.run env fuel) p events = .ok p') :
    p'.Good env ∧ p'.captured [] = p.captured events := by
  induction events generalizing p with
  | nil => cases hr; exact ⟨h, rfl⟩
  | cons event events ih =>
    rw [runFrom_cons] at hr
    obtain ⟨q, hq, hr⟩ := Exec.bind_ok.mp hr
    obtain ⟨hgood, hcaptured⟩ := h.run hf hq events
    obtain ⟨hgood', hcaptured'⟩ := ih hgood hr
    exact ⟨hgood', hcaptured'.trans hcaptured⟩

end Process

/-- **When the checked name is the opened name**: after a run from the start of the process, a call
with a name without a slash, which the real call resolves against the directory `D`, looks up
`D/name`, in the cache and in the policy, if and only if `D` was the working directory at the first
call and `D/name` fits the buffer. -/
theorem checked_iff {env : Env} {pwd D : CStr} {dirs : CInt → Option CStr} {fuel : Nat}
    {events : List Event} {p : Process} {a : Agent} {call : Call} (hf : 65 < fuel)
    (hrun : runFrom (Process.run env fuel) ⟨pwd, dirs, none⟩ events = .ok p)
    (ha : p.preload env = .ok a) (hbare : Bare call.pathname) (hD : p.resolveDir call = some D) :
    (∃ accesses reply p', p.step env fuel (.call call) = .ok (some (accesses, reply), p') ∧
      Watched.Lookups fuel a (D ++ slash ++ call.pathname) accesses) ↔
      D = Process.firstCwd pwd events ∧ (D ++ slash ++ call.pathname).strlen < MAX_PATH := by
  have hstart : (⟨pwd, dirs, none⟩ : Process).Good env := fun _ h => by cases h
  obtain ⟨hgood, hcaptured⟩ := hstart.runFrom hf hrun
  obtain ⟨hcwd, flags, hrunning⟩ := hgood.preload ha
  rw [hcaptured] at hcwd
  change a.cwd = Process.firstCwd pwd events at hcwd
  rw [← hcwd]
  constructor
  · rintro ⟨accesses, reply, p', hstep, hlookups⟩
    obtain ⟨b, hb, hstep⟩ := Exec.bind_ok.mp hstep
    cases ha.symm.trans hb
    obtain ⟨⟨reply', w⟩, hcall, hstep⟩ := Exec.bind_ok.mp hstep
    cases hstep
    obtain ⟨ret, hcheck⟩ := Call.check_of_runWith hcall
    obtain ⟨n, hname, hn⟩ := Watched.lookups_of_check hcheck
    obtain rfl : n = D ++ slash ++ call.pathname := hn.unique hlookups
    exact ⟨by simpa [CStr.append_left_inj] using checkName_bare hbare hname, (checkName_eq hname).1⟩
  · rintro ⟨rfl, hfits⟩
    have hname : checkName a.cwd call.pathname = .ok (a.cwd ++ slash ++ call.pathname) :=
      checkName_of_bare hbare hfits
    obtain ⟨reply, a', hcall, -, -⟩ := Call.run_spec hrunning hf hname
    obtain ⟨w, hwatched, -⟩ := Watched.runWith_of_run hcall
    obtain ⟨ret, hcheck⟩ := Call.check_of_runWith hwatched
    obtain ⟨n, hn, hlookups⟩ := Watched.lookups_of_check hcheck
    cases hname.symm.trans hn
    exact ⟨w.accesses, reply, _, Exec.bind_ok.mpr ⟨a, ha, Exec.bind_ok.mpr ⟨_, hwatched, rfl⟩⟩,
      hlookups⟩

/-- The environment of a process without rules. -/
def emptyEnv : Env := ⟨∅, some (.ofChars ['c']), .ofChars ['p'], 0⟩

/-- The working directory is `/e` since the first call, but the descriptor is open on that of the first
call, `/d`. -/
theorem checked_iff_openat :
    ∃ p a accesses reply p', runFrom (Process.run emptyEnv 66)
        ⟨.ofChars ['/', 'd'], fun _ => none, none⟩
        [.call (.open (.ofChars ['f']) O_RDONLY 0), .setDir 3 (some (.ofChars ['/', 'd'])),
          .chdir (.ofChars ['/', 'e'])] = .ok p ∧
      p.pwd = .ofChars ['/', 'e'] ∧
      p.step emptyEnv 66 (.call (.openat 3 (.ofChars ['g']) O_RDONLY 0)) =
        .ok (some (accesses, reply), p') ∧
      Watched.Lookups 66 a (.ofChars ['/', 'd'] ++ slash ++ .ofChars ['g']) accesses := by
  obtain ⟨p, hrun, h⟩ := Exec.of_returned
    (x := runFrom (Process.run emptyEnv 66) ⟨.ofChars ['/', 'd'], fun _ => none, none⟩
      [.call (.open (.ofChars ['f']) O_RDONLY 0), .setDir 3 (some (.ofChars ['/', 'd'])),
        .chdir (.ofChars ['/', 'e'])])
    (p := fun p => decide (p.pwd = .ofChars ['/', 'e'] ∧
        p.resolveDir (.openat 3 (.ofChars ['g']) O_RDONLY 0) = some (.ofChars ['/', 'd'])) &&
      (p.preload emptyEnv).returned fun _ => true) (by decide)
  obtain ⟨h, hinit⟩ := (Bool.and_eq_true _ _).mp h
  obtain ⟨hpwd, hdir⟩ := of_decide_eq_true h
  obtain ⟨a, ha, -⟩ := Exec.of_returned hinit
  obtain ⟨accesses, reply, p', hstep, hlookups⟩ :=
    (checked_iff (by decide) hrun ha (by decide) hdir).mpr ⟨rfl, by decide⟩
  exact ⟨p, a, accesses, reply, p', hrun, hpwd, hstep, hlookups⟩

/-- A call after `chdir`: its name is looked up in the directory of the first call, `/d`, and opened
in `/e`. -/
theorem checked_fails :
    ∃ p accesses reply p', runFrom (Process.run emptyEnv 66)
        ⟨.ofChars ['/', 'd'], fun _ => none, none⟩
        [.call (.open (.ofChars ['f']) O_RDONLY 0), .chdir (.ofChars ['/', 'e'])] = .ok p ∧
      p.resolveDir (.open (.ofChars ['g']) O_RDONLY 0) = some (.ofChars ['/', 'e']) ∧
      p.step emptyEnv 66 (.call (.open (.ofChars ['g']) O_RDONLY 0)) =
        .ok (some (accesses, reply), p') ∧
      .hashmapGet (.ofChars ['/', 'd', '/', 'g']) ∈ accesses ∧
      ∀ access ∈ accesses, access.key ≠ .ofChars ['/', 'e'] ++ slash ++ .ofChars ['g'] := by
  obtain ⟨p, hrun, h⟩ := Exec.of_returned
    (x := runFrom (Process.run emptyEnv 66) ⟨.ofChars ['/', 'd'], fun _ => none, none⟩
      [.call (.open (.ofChars ['f']) O_RDONLY 0), .chdir (.ofChars ['/', 'e'])])
    (p := fun p => p.resolveDir (.open (.ofChars ['g']) O_RDONLY 0) = some (.ofChars ['/', 'e']) &&
      (p.step emptyEnv 66 (.call (.open (.ofChars ['g']) O_RDONLY 0))).returned fun r =>
        r.1.any fun e => .hashmapGet (.ofChars ['/', 'd', '/', 'g']) ∈ e.1 ∧
          ∀ access ∈ e.1, access.key ≠ .ofChars ['/', 'e'] ++ slash ++ .ofChars ['g']) (by decide)
  obtain ⟨hdir, h⟩ := (Bool.and_eq_true _ _).mp h
  obtain ⟨⟨r, p'⟩, hstep, hr⟩ := Exec.of_returned h
  cases r with
  | none => cases hr
  | some e =>
    obtain ⟨accesses, reply⟩ := e
    obtain ⟨hlookup, hother⟩ := of_decide_eq_true hr
    exact ⟨p, accesses, reply, p', hrun, of_decide_eq_true hdir, hstep, hlookup, hother⟩

end Cnpv
