import Cnpv.Agent.Process
import Cnpv.CLib.Once
import Cnpv.Config.Reference

/-!
# `init_preload` in many threads

Every intercepted call begins with `init_preload`, which looks at `init` without the lock, takes
the lock, looks again, and then assigns the globals of the agent one after the other
(`initBody`). In every interleaving of any number of threads the body runs at most once, and a
thread returns from `init_preload` only when all globals are set (`preloaded_once`): they are
then the agent that one thread alone would make (`Globals.Complete.initPreload`).
-/

namespace Cnpv

open CLib

/-- What `init_preload` reads. -/
structure Startup where
  /-- `dlsym(RTLD_NEXT, symbol)` -/
  dlsym : CStr → Option Nat
  /-- `getcwd(NULL, 0)` -/
  getcwd : Option CStr
  /-- `getenv("CNPV_PATH")` -/
  configPath : Option CStr
  /-- `program_invocation_short_name` -/
  progName : CStr
  /-- What `config_init` gets from the file at a path: `none` if it cannot be read, and `some none`
  if it cannot be parsed. -/
  files : CStr → Option (Option JsonValue)
  opendir : CStr → Option (List Dirent)
  /-- How deep directories are read. -/
  depth : Nat
  seed : UInt64

/-- The globals that `init_preload` sets; `none` before. -/
structure Globals where
  realFopen : Option Nat := none
  realOpen : Option Nat := none
  realOpen64 : Option Nat := none
  realOpenat : Option Nat := none
  realOpenat64 : Option Nat := none
  cwd : Option CStr := none
  configPath : Option CStr := none
  map : Option PolicyMap := none
  cache : Option VerdictCache := none

/-- The symbols that `init_preload` looks up. -/
def symFopen : CStr := .ofChars ['f', 'o', 'p', 'e', 'n']
def symOpen : CStr := .ofChars ['o', 'p', 'e', 'n']
def symOpen64 : CStr := .ofChars ['o', 'p', 'e', 'n', '6', '4']
def symOpenat : CStr := .ofChars ['o', 'p', 'e', 'n', 'a', 't']
def symOpenat64 : CStr := .ofChars ['o', 'p', 'e', 'n', 'a', 't', '6', '4']

namespace Startup

/-- `sprintf(log_path, ...)` into a buffer of `MAX_PATH` bytes. -/
def logPath (e : Startup) (cwd : CStr) : Exec CStr :=
  (cwd ++ .ofChars ['/', 'c', 'n', 'p', 'v', '-'] ++ e.progName ++
    .ofChars ['.', 'l', 'o', 'g']).store MAX_PATH

/-- `config_init` up to `json_parse`. -/
def readConfig (e : Startup) (configPath : CStr) : Exec JsonValue :=
  match e.files configPath with
  | none => .error (.exit (-1))
  | some none => .error (.exit 1)
  | some (some value) => .ok value

/-- `process_root`, on the file that `config_init` has read. -/
def fillMap (e : Startup) (configPath : CStr) (map : PolicyMap) : Exec PolicyMap := do
  let value ← e.readConfig configPath
  Config.processRoot e.opendir e.depth e.progName map value

/-- A global that has been set; `NULL` would be read through otherwise. -/
def require {α : Type} (x : Option α) : Exec α :=
  x.elim (.error (.undefined .nullPointer)) .ok

/-- The body of `init_preload`: its assignments, in order, and the tests between them. -/
def initBody (e : Startup) : List (Globals → Exec Globals) :=
  [fun g => .ok { g with realFopen := e.dlsym symFopen },
    fun g => .ok { g with realOpen := e.dlsym symOpen },
    fun g => .ok { g with realOpen64 := e.dlsym symOpen64 },
    fun g => .ok { g with realOpenat := e.dlsym symOpenat },
    fun g => .ok { g with realOpenat64 := e.dlsym symOpenat64 },
    fun g => .ok { g with cwd := e.getcwd },
    fun g => if g.cwd.isNone then .error (.exit (-1)) else .ok g,
    fun g => do
      let cwd ← require g.cwd
      let _ ← e.logPath cwd
      .ok g,
    -- `getenv_options`
    fun g => .ok { g with configPath := e.configPath },
    fun g => if g.configPath.isNone then .error (.exit (-1)) else .ok g,
    -- `config_init`
    fun g => do
      let configPath ← require g.configPath
      let _ ← e.readConfig configPath
      .ok g,
    fun g => .ok { g with map := some ∅ },
    fun g => do
      let configPath ← require g.configPath
      let map ← require g.map
      let map ← e.fillMap configPath map
      .ok { g with map := some map },
    -- `cache_init`
    fun g => .ok { g with cache := some (cacheInit e.seed) }]

end Startup

/-- The threads of a process, in `init_preload`. -/
abbrev Preload (ι : Type) := Once ι Globals

/-- No thread has called yet. -/
def Preload.start (ι : Type) : Preload ι := { globals := {} }

/-- One step of a thread in `init_preload`. -/
def Preload.step {ι : Type} [DecidableEq ι] (e : Startup) : Preload ι → ι → Exec (Preload ι) :=
  Once.step e.initBody

/-- All globals are set: `map` to the rules of the parsed file, and the others to what they stand for. -/
structure Globals.Complete (e : Startup) (g : Globals) : Prop where
  realFopen : g.realFopen = e.dlsym symFopen
  realOpen : g.realOpen = e.dlsym symOpen
  realOpen64 : g.realOpen64 = e.dlsym symOpen64
  realOpenat : g.realOpenat = e.dlsym symOpenat
  realOpenat64 : g.realOpenat64 = e.dlsym symOpenat64
  cwd : ∃ cwd path, g.cwd = some cwd ∧ e.getcwd = some cwd ∧ e.logPath cwd = .ok path
  map : ∃ path value map, e.configPath = some path ∧ e.files path = some (some value) ∧
    g.map = some map ∧ Config.processRoot e.opendir e.depth e.progName ∅ value = .ok map
  cache : g.cache = some (cacheInit e.seed)

section Body

variable {e : Startup} {g : Globals}

theorem Startup.require_ok {α : Type} {x : Option α} {a : α} : Startup.require x = .ok a ↔ x = some a := by
  cases x with
  | none => exact iff_of_false (fun h => by cases h) fun h => by cases h
  | some b => exact ⟨fun h => by cases h; rfl, fun h => by cases h; rfl⟩

theorem Startup.readConfig_ok {path : CStr} {value : JsonValue} (h : e.readConfig path = .ok value) :
    e.files path = some (some value) := by
  unfold Startup.readConfig at h
  split at h
  · cases h
  · cases h
  · cases h
    assumption

/-- What the whole body sets. -/
theorem complete_of_initBody (h : runBody e.initBody {} = .ok g) : g.Complete e := by
  simp only [runBody, Startup.initBody, runFrom_cons, runFrom_nil, Exec.ok_bind] at h
  -- `getcwd`
  obtain ⟨g₁, h₁, h⟩ := Exec.bind_ok.mp h
  split at h₁
  · cases h₁
  cases h₁
  obtain ⟨g₂, h₂, h⟩ := Exec.bind_ok.mp h
  obtain ⟨cwd, hcwd, h₂⟩ := Exec.bind_ok.mp h₂
  obtain ⟨path, hpath, h₂⟩ := Exec.bind_ok.mp h₂
  cases h₂
  -- `getenv_options`
  obtain ⟨g₃, h₃, h⟩ := Exec.bind_ok.mp h
  split at h₃
  · cases h₃
  cases h₃
  -- `config_init`
  obtain ⟨g₄, h₄, h⟩ := Exec.bind_ok.mp h
  obtain ⟨configPath, hconfig, h₄⟩ := Exec.bind_ok.mp h₄
  obtain ⟨value, -, h₄⟩ := Exec.bind_ok.mp h₄
  cases h₄
  obtain ⟨g₅, h₅, h⟩ := Exec.bind_ok.mp h
  obtain ⟨configPath', hconfig', h₅⟩ := Exec.bind_ok.mp h₅
  obtain ⟨map₀, hmap₀, h₅⟩ := Exec.bind_ok.mp h₅
  obtain ⟨map, hmap, h₅⟩ := Exec.bind_ok.mp h₅
  cases h₅
  cases h
  cases Startup.require_ok.mp hmap₀
  obtain ⟨value, hvalue, hmap⟩ := Exec.bind_ok.mp hmap
  have hcwd := Startup.require_ok.mp hcwd
  exact {
    realFopen := rfl
    realOpen := rfl
    realOpen64 := rfl
    realOpenat := rfl
    realOpenat64 := rfl
    cwd := ⟨cwd, path, hcwd, hcwd, hpath⟩
    map := ⟨configPath', value, map, Startup.require_ok.mp hconfig', Startup.readConfig_ok hvalue, rfl, hmap⟩
    cache := rfl }

/-- The globals are then those of the agent that `initPreload` makes. -/
theorem Globals.Complete.initPreload (h : g.Complete e) :
    ∃ map cwd cache, g.map = some map ∧ g.cwd = some cwd ∧ g.cache = some cache ∧
      Cnpv.initPreload ⟨map, e.configPath, e.progName, e.seed⟩ cwd = .ok ⟨map, cwd, cache⟩ := by
  obtain ⟨cwd, path, hcwd, -, hpath⟩ := h.cwd
  obtain ⟨configPath, -, map, hconfig, -, hmap, -⟩ := h.map
  refine ⟨map, cwd, _, hmap, hcwd, h.cache, Exec.bind_ok.mpr ⟨path, hpath, ?_⟩⟩
  rw [hconfig]
  rfl

end Body

/-- **`init_preload` in many threads**: the body runs at most once, and a thread that has returned has
all globals set by a completed body. -/
theorem preloaded_once {ι : Type} [DecidableEq ι] {e : Startup} {threads : List ι} {s : Preload ι}
    (hrun : runFrom (Preload.step e) (Preload.start ι) threads = .ok s) :
    s.bodies ≤ 1 ∧ ∀ t, s.place t = .returned → s.init = true ∧ s.globals.Complete e := by
  have h := Once.run_inv hrun
  refine ⟨h.bodies_le, fun t ht => ?_⟩
  obtain ⟨hinit, hbody⟩ := h.returned ht
  exact ⟨hinit, complete_of_initBody hbody⟩

/-- The program `a`, with the configuration `readConfig`. -/
def readStartup : Startup where
  dlsym _ := some 1
  getcwd := some (.ofChars ['/', 'd'])
  configPath := some (.ofChars ['c'])
  progName := .ofChars ['a']
  files _ := some (some readConfig)
  opendir _ := none
  depth := 0
  seed := 0

/-- Two threads: both find the flag unset without the lock, and the second one waits for the body of
the first one. Then the file `/f` may be read. -/
theorem preloaded_once_two :
    ∃ s, runFrom (Preload.step readStartup) (Preload.start Bool)
      ([false, true, false, true] ++ List.replicate 19 false ++ [true, true, true]) = .ok s ∧
      s.place true = .returned ∧ s.bodies ≤ 1 ∧ s.globals.Complete readStartup ∧
      (s.globals.map.bind fun map => map.lookup (.ofChars ['/', 'f'])) = some O_READ := by
  obtain ⟨s, hs, hend⟩ := Exec.of_returned
    (x := runFrom (Preload.step readStartup) (Preload.start Bool)
      ([false, true, false, true] ++ List.replicate 19 false ++ [true, true, true]))
    (p := fun s => s.place true = .returned ∧
      (s.globals.map.bind fun map => map.lookup (.ofChars ['/', 'f'])) = some O_READ) (by decide)
  obtain ⟨hreturned, hrule⟩ := of_decide_eq_true hend
  obtain ⟨hbodies, hcomplete⟩ := preloaded_once hs
  exact ⟨s, hs, hreturned, hbodies, (hcomplete true hreturned).2, hrule⟩

end Cnpv
