import Cnpv.Agent.Check

/-!
# The configuration (`ns_agent/config.c`, `kernel_module/nluser.c`, `kernel_module/cnpv.c`)

The policy is a JSON file: sections for programs, each an array of objects with a `PATH` and an
`AUTHORITY`. Two programs load it: the agent puts the rules in its own map, and `nluser` sends them
to the kernel module. What their copies of a function share is one definition here, with the sizes
of their buffers as parameters; each copy keeps its own name in `Config` and `Nluser`.

The files are read through `opendir`, which is a parameter: the entries that `readdir` gives for a
path, or `none` if `opendir` fails.
-/

namespace Cnpv

open CLib

/-- `json_value`. Names and strings are NUL-terminated, and may have a NUL before that one. -/
inductive JsonValue
  | none
  | object (values : List (List UInt8 × JsonValue))
  | array (values : List JsonValue)
  | integer (value : Int)
  | double (bits : UInt64)
  | string (ptr : List UInt8)
  | boolean (value : Bool)
  | null

/-- `value->u.string.ptr` -/
def JsonValue.stringPtr : JsonValue → Exec (List UInt8)
  | .string ptr => .ok ptr
  | _ => .error (.undefined .wrongMember)

/-- `struct user` -/
structure User where
  pathname : CStr
  permission : CInt
  deriving DecidableEq

/-- The string has one of the two letters: `strstr(s, upper) || strstr(s, lower)`. -/
def hasLetter (s : CStr) (upper lower : Char) : Prop :=
  (strstr s.bytes [upper.toUInt8]).isSome ∨ (strstr s.bytes [lower.toUInt8]).isSome

instance (s : CStr) (upper lower : Char) : Decidable (hasLetter s upper lower) :=
  inferInstanceAs (Decidable (_ ∨ _))

/-- `get_mode_value` -/
def getModeValue (s : CStr) : CInt :=
  let ret : CInt := if hasLetter s 'F' 'f' then O_FORBIDDEN else 0
  let ret := if hasLetter s 'R' 'r' then ret ||| O_READ else ret
  if hasLetter s 'W' 'w' then ret ||| O_WRITE else ret

/-- `"PATH"` -/
def PATH : CStr := .ofChars ['P', 'A', 'T', 'H']

/-- `"AUTHORITY"` -/
def AUTHORITY : CStr := .ofChars ['A', 'U', 'T', 'H', 'O', 'R', 'I', 'T', 'Y']

/-- `process_pair`: one member of the object. `pathname` is a zeroed buffer of `maxPath` bytes. -/
def readMember (maxPath : Nat) (u : User) (member : List UInt8 × JsonValue) : Exec User :=
  if CStr.ofBytes member.1 = PATH then do
    let ptr ← member.2.stringPtr
    .ok { u with pathname := (CStr.ofBytes ptr).take (maxPath - 1) }
  else if CStr.ofBytes member.1 = AUTHORITY then do
    let ptr ← member.2.stringPtr
    .ok { u with permission := getModeValue (CStr.ofBytes ptr) }
  else .ok u

/-- `pathname[strlen(pathname) - 1]` -/
def lastChar (s : CStr) : Exec UInt8 :=
  match s.bytes.getLast? with
  | some b => .ok b
  | none => .error (.undefined .outOfBounds)

/-- `process_array`, with the `process_pair` of the program. -/
def processArray {σ : Type} (processPair : σ → JsonValue → Exec σ) (s : σ) : JsonValue → Exec σ
  | .array values => runFrom processPair s values
  | _ => .error (.exit (-1))

/-- `process_root`: the sections whose name contains the name of the program. -/
def processRoot {σ : Type} (processPair : σ → JsonValue → Exec σ) (progName : CStr) (s : σ) :
    JsonValue → Exec σ
  | .object values =>
    runFrom (fun s value =>
      if (strstr (CStr.ofBytes value.1).bytes progName.bytes).isSome then
        processArray processPair s value.2
      else .ok s) s values
  | _ => .error (.exit (-1))

/-! ## Directories -/

/-- `struct dirent` -/
structure Dirent where
  name : CStr
  /-- `d_type == DT_DIR` -/
  isDir : Bool
  deriving DecidableEq

/-- `"."` -/
def dot : CStr := .ofChars ['.']

/-- `".."` -/
def dotDot : CStr := .ofChars ['.', '.']

/-- `get_dir_content`: one entry of the directory `path`. A file goes to `emit`, in a record whose
`pathname` has `size` bytes; a subdirectory goes to `getDirContent`. -/
def dirEntry {σ : Type} (size : Nat) (emit : σ → User → σ) (permission : CInt) (path : CStr)
    (getDirContent : CStr → σ → Exec σ) (s : σ) (dir : Dirent) : Exec σ :=
  if dir.isDir = false then do
    let pathname ← (path ++ dir.name).store size
    .ok (emit s { pathname, permission })
  else if dir.name ≠ dot ∧ dir.name ≠ dotDot then do
    let dPath ← (path ++ dir.name).store 512
    getDirContent dPath s
  else .ok s

/-- `get_dir_content` -/
def dirContent {σ : Type} (opendir : CStr → Option (List Dirent)) (size : Nat) (emit : σ → User → σ)
    (permission : CInt) : Nat → CStr → σ → Exec σ
  | 0, _, _ => .error .outOfFuel
  | fuel + 1, path, s =>
    match opendir path with
    | none => .ok s
    | some entries =>
      runFrom (dirEntry size emit permission path
        (dirContent opendir size emit permission fuel)) s entries

/-- What one entry of a directory does, when it returns. -/
theorem dirEntry_ok {σ : Type} {size : Nat} {emit : σ → User → σ} {permission : CInt} {path : CStr}
    {getDirContent : CStr → σ → Exec σ} {s s' : σ} {d : Dirent}
    (h : dirEntry size emit permission path getDirContent s d = .ok s') :
    (d.isDir = false ∧ (path ++ d.name).strlen < size ∧
      s' = emit s { pathname := path ++ d.name, permission }) ∨
    (d.isDir = true ∧ (d.name ≠ dot ∧ d.name ≠ dotDot) ∧ (path ++ d.name).strlen < 512 ∧
      getDirContent (path ++ d.name) s = .ok s') ∨
    (d.isDir = true ∧ ¬ (d.name ≠ dot ∧ d.name ≠ dotDot) ∧ s' = s) := by
  rw [dirEntry] at h
  by_cases hfile : d.isDir = false
  · rw [if_pos hfile] at h
    obtain ⟨pathname, hstore, h⟩ := Exec.bind_ok.mp h
    obtain ⟨hlt, rfl⟩ := CStr.store_ok.mp hstore
    exact .inl ⟨hfile, hlt, (Except.ok.inj h).symm⟩
  · have hdir : d.isDir = true := by simpa using hfile
    rw [if_neg hfile] at h
    by_cases hdots : d.name ≠ dot ∧ d.name ≠ dotDot
    · rw [if_pos hdots] at h
      obtain ⟨dPath, hstore, h⟩ := Exec.bind_ok.mp h
      obtain ⟨hlt, rfl⟩ := CStr.store_ok.mp hstore
      exact .inr (.inl ⟨hdir, hdots, hlt, h⟩)
    · rw [if_neg hdots] at h
      exact .inr (.inr ⟨hdir, hdots, (Except.ok.inj h).symm⟩)

/-! ## The agent -/

namespace Config

/-- `hashmap_set(map, &tmp)` -/
def hashmapSet (map : PolicyMap) (tmp : User) : PolicyMap := map.insert tmp.pathname tmp.permission

/-- `get_dir_content` -/
def getDirContent (opendir : CStr → Option (List Dirent)) (fuel : Nat) (map : PolicyMap)
    (path : CStr) (permission : CInt) : Exec PolicyMap :=
  dirContent opendir MAX_PATH hashmapSet permission fuel path map

/-- `process_pair` -/
def processPair (opendir : CStr → Option (List Dirent)) (fuel : Nat) (map : PolicyMap) :
    JsonValue → Exec PolicyMap
  | .object values => do
    let tmp ← runFrom (readMember MAX_PATH) { pathname := default, permission := 0 } values
    let last ← lastChar tmp.pathname
    if last = '/'.toUInt8 then getDirContent opendir fuel map tmp.pathname tmp.permission
    else .ok (hashmapSet map tmp)
  | _ => .error (.exit (-1))

/-- `process_root` -/
def processRoot (opendir : CStr → Option (List Dirent)) (fuel : Nat) (progName : CStr)
    (map : PolicyMap) (root : JsonValue) : Exec PolicyMap :=
  Cnpv.processRoot (processPair opendir fuel) progName map root

end Config

/-! ## `nluser` -/

/-- `MAX_PATH` of the kernel module. -/
def KERNEL_MAX_PATH : Nat := 255

/-- `netlink_type` -/
inductive NetlinkType
  | cmd | str | myuser
  deriving DecidableEq

/-- `struct myuser` -/
structure MyUser extends User where
  type : NetlinkType

/-- The globals of `nluser`. -/
structure Nluser where
  /-- `user_t` -/
  user : MyUser := { pathname := default, permission := 0, type := .cmd }
  /-- The messages sent to the kernel, in order. -/
  sent : List MyUser := []

namespace Nluser

/-- `mysendmsg` -/
def mysendmsg (n : Nluser) (u : MyUser) : Nluser := { n with sent := n.sent ++ [u] }

/-- `get_dir_content`: a file is sent in a local record. -/
def getDirContent (opendir : CStr → Option (List Dirent)) (fuel : Nat) (n : Nluser) (path : CStr)
    (permission : CInt) : Exec Nluser :=
  dirContent opendir KERNEL_MAX_PATH (fun n tmp => n.mysendmsg { tmp with type := .myuser })
    permission fuel path n

/-- `process_pair`: only the pathname of the global record is cleared. -/
def processPair (opendir : CStr → Option (List Dirent)) (fuel : Nat) (n : Nluser) :
    JsonValue → Exec Nluser
  | .object values => do
    let u ← runFrom (readMember KERNEL_MAX_PATH) { n.user.toUser with pathname := default } values
    let last ← lastChar u.pathname
    if last = '/'.toUInt8 then
      getDirContent opendir fuel { n with user := { n.user with toUser := u } } u.pathname u.permission
    else
      let user : MyUser := { u with type := .myuser }
      .ok ({ n with user }.mysendmsg user)
  | _ => .error (.exit (-1))

/-- `json_process`, after the file is parsed. -/
def jsonProcess (opendir : CStr → Option (List Dirent)) (fuel : Nat) (target : CStr) (n : Nluser)
    (value : JsonValue) : Exec Nluser :=
  Cnpv.processRoot (processPair opendir fuel) target n value

end Nluser

/-! ## The kernel module -/

/-- The globals of the kernel module that a message changes. -/
structure Kernel where
  /-- `NULL` before the first message. -/
  map : Option PolicyMap := none
  target : CStr

/-- `"clear"` -/
def clearCmd : CStr := .ofChars ['c', 'l', 'e', 'a', 'r']

/-- `"tar-"` -/
def tarCmd : CStr := .ofChars ['t', 'a', 'r', '-']

/-- `hello_nl_recv_msg`, up to its reply. -/
def helloNlRecvMsg (k : Kernel) (u : MyUser) : Kernel :=
  let map := k.map.getD ∅
  match u.type with
  | .myuser => { k with map := some (map.insert (u.pathname.take KERNEL_MAX_PATH) u.permission) }
  | .cmd =>
    if u.pathname = clearCmd then { k with map := some ∅ }
    else if (strstr u.pathname.bytes tarCmd.bytes).isSome then
      { map := some map, target := ⟨u.pathname.bytes.drop 4, fun h =>
          u.pathname.noNul (List.mem_of_mem_drop h)⟩ }
    else { k with map := some map }
  | .str => { k with map := some map }

end Cnpv
