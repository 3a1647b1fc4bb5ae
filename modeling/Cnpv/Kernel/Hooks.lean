import Cnpv.Kernel.Messages

/-!
# The hooks of the kernel module (`kernel_module/cnpv.c`)

`my_open` and `my_openat` copy the pathname of the process into `user_msg`, which has 256 bytes, and
`check_permission` copies it on into `buf`, which has 255. `strncpy_from_user` adds no NUL to a
pathname that fills its buffer. So the hooks stay in their buffers if and only if the pathname is
shorter than 255 bytes (`hook_inBounds_iff`).

`my_openat` checks only an absolute pathname, and `my_open` checks every one (`hooks_agree`).
-/

namespace Cnpv

open CLib

/-- `strncpy_from_user(dst, src, n)`: the buffer `dst` after it. -/
def strncpyFromUser (dst : List UInt8) (src : CStr) (n : Nat) : List UInt8 :=
  src.buf.take n ++ dst.drop (src.buf.take n).length

/-- `user_msg`, zeroed and then filled. -/
def userMsg (pathname : CStr) : List UInt8 :=
  strncpyFromUser (List.replicate 256 0) pathname 256

/-- The string in a buffer. Without a NUL, it goes on past the end. -/
def bufferStr (buffer : List UInt8) : Exec CStr :=
  if 0 ∈ buffer then .ok (CStr.ofBytes buffer) else .error (.undefined .outOfBounds)

/-- A system call that is hooked. -/
inductive KernelCall
  | open (pathname : CStr) (flags mode : CInt)
  | openat (dfd : CInt) (filename : CStr) (flags mode : CInt)
  deriving DecidableEq

namespace KernelCall

def pathname : KernelCall → CStr
  | .open pathname _ _ => pathname
  | .openat _ filename _ _ => filename

def flags : KernelCall → CInt
  | .open _ flags _ => flags
  | .openat _ _ flags _ => flags

/-- `openat` is checked only for an absolute filename. -/
def Hooked : KernelCall → Prop
  | .open _ _ _ => True
  | .openat _ filename _ _ => Absolute filename

end KernelCall

/-- What a hook does. -/
inductive HookReply
  /-- It returns -1. -/
  | refused
  /-- It makes the real system call. -/
  | real (call : KernelCall)
  deriving DecidableEq

namespace Kernel

/-- The check of both hooks, and the real call if it gives 1. -/
def checkMsg (k : Kernel) (msg : List UInt8) (call : KernelCall) : Exec HookReply := do
  let pathname ← bufferStr msg
  let ret ← k.checkPermission pathname call.flags
  if ret = 1 then .ok (.real call) else .ok .refused

/-- `my_open`, in a process with the name `comm`. -/
def myOpen (k : Kernel) (comm pathname : CStr) (flags mode : CInt) : Exec HookReply :=
  let msg := userMsg pathname
  if comm = k.target then k.checkMsg msg (.open pathname flags mode)
  else .ok (.real (.open pathname flags mode))

/-- `my_openat` -/
def myOpenat (k : Kernel) (comm : CStr) (dfd : CInt) (filename : CStr) (flags mode : CInt) :
    Exec HookReply :=
  let msg := userMsg filename
  if msg.head? = some '/'.toUInt8 ∧ comm = k.target then
    k.checkMsg msg (.openat dfd filename flags mode)
  else .ok (.real (.openat dfd filename flags mode))

/-- The hook of a system call. -/
def hook (k : Kernel) (comm : CStr) : KernelCall → Exec HookReply
  | .open pathname flags mode => k.myOpen comm pathname flags mode
  | .openat dfd filename flags mode => k.myOpenat comm dfd filename flags mode

end Kernel

/-! ## The two buffers -/

section Buffers

variable {k : Kernel} {comm pathname : CStr} {call : KernelCall}

/-- A pathname of at most 255 bytes is a string in `user_msg`. -/
theorem bufferStr_userMsg_of_lt (h : pathname.strlen < 256) :
    bufferStr (userMsg pathname) = .ok pathname := by
  have hlen : pathname.buf.length ≤ 256 := by
    rw [CStr.buf, List.length_append]
    exact h
  have hmsg : userMsg pathname =
      pathname.buf ++ (List.replicate 256 0).drop pathname.buf.length := by
    unfold userMsg strncpyFromUser
    rw [List.take_of_length_le hlen]
  have hzero : 0 ∈ userMsg pathname := by
    rw [hmsg]
    exact List.mem_append_left _ (List.mem_append_right _ List.mem_cons_self)
  rw [bufferStr, if_pos hzero, hmsg, CStr.ofBytes_buf_append]

/-- A longer one fills it, and leaves no NUL. -/
theorem bufferStr_userMsg_of_le (h : 256 ≤ pathname.strlen) :
    bufferStr (userMsg pathname) = .error (.undefined .outOfBounds) := by
  have htake : pathname.buf.take 256 = pathname.bytes.take 256 := List.take_append_of_le_length h
  have hmsg : userMsg pathname = pathname.bytes.take 256 := by
    unfold userMsg strncpyFromUser
    rw [htake, List.length_take_of_le h, List.drop_replicate]
    exact List.append_nil _
  refine if_neg fun hzero => ?_
  rw [hmsg] at hzero
  exact pathname.noNul (List.mem_of_mem_take hzero)

theorem head?_userMsg (pathname : CStr) :
    (userMsg pathname).head? = some '/'.toUInt8 ↔ Absolute pathname := by
  have hne : pathname.buf.take 256 ≠ [] := by simp [CStr.buf]
  unfold userMsg strncpyFromUser Absolute
  rw [List.head?_append_of_ne_nil _ hne, List.head?_take, if_neg (by decide), CStr.buf]
  cases pathname.bytes with
  | nil => decide
  | cons b bytes => rfl

/-- The check of a pathname in `user_msg`. -/
theorem Kernel.checkMsg_userMsg_of_lt (h : pathname.strlen < 256) (call : KernelCall) :
    k.checkMsg (userMsg pathname) call = (do
      let ret ← k.checkPermission pathname call.flags
      if ret = 1 then .ok (.real call) else .ok .refused) := by
  rw [checkMsg, bufferStr_userMsg_of_lt h, Exec.ok_bind]

/-- A call of the target process that is hooked is checked. -/
theorem Kernel.hook_target (h : call.Hooked) :
    k.hook k.target call = k.checkMsg (userMsg call.pathname) call := by
  cases call with
  | «open» pathname flags mode => exact if_pos rfl
  | openat dfd filename flags mode => exact if_pos ⟨(head?_userMsg filename).mpr h, rfl⟩

/-- Another call goes on to the system call. -/
theorem Kernel.hook_of_not (h : ¬ (comm = k.target ∧ call.Hooked)) :
    k.hook comm call = .ok (.real call) := by
  cases call with
  | «open» pathname flags mode => exact if_neg fun hcomm => h ⟨hcomm, trivial⟩
  | openat dfd filename flags mode =>
    exact if_neg fun hcall => h ⟨hcall.2, (head?_userMsg filename).mp hcall.1⟩

/-- How `check_permission` of the kernel module can halt. -/
theorem Kernel.checkPermission_cases (k : Kernel) (pathname : CStr) (oflag : CInt) :
    (KERNEL_MAX_PATH ≤ pathname.strlen ∧
      k.checkPermission pathname oflag = .error (.undefined .overflow)) ∨
    (pathname.strlen < KERNEL_MAX_PATH ∧ k.map = none ∧
      k.checkPermission pathname oflag = .error (.undefined .nullPointer)) ∨
    (pathname.strlen < KERNEL_MAX_PATH ∧ k.map ≠ none ∧
      ∃ ret, k.checkPermission pathname oflag = .ok ret) := by
  by_cases hlen : pathname.strlen < KERNEL_MAX_PATH
  · refine .inr ?_
    cases hmap : k.map with
    | none =>
      refine .inl ⟨hlen, rfl, ?_⟩
      rw [checkPermission, CStr.store_of_lt hlen, Exec.ok_bind, hmap]
      rfl
    | some map => exact .inr ⟨hlen, by simp, _, checkPermission_eq hmap hlen oflag⟩
  · refine .inl ⟨Nat.le_of_not_lt hlen, ?_⟩
    rw [checkPermission, CStr.store, if_neg hlen]
    rfl

/-- A pathname of 255 bytes. -/
theorem hook_overflow (hcall : call.Hooked) (hlen : call.pathname.strlen = 255) (k : Kernel) :
    k.hook k.target call = .error (.undefined .overflow) := by
  rw [Kernel.hook_target hcall, Kernel.checkMsg_userMsg_of_lt (by omega)]
  rcases k.checkPermission_cases call.pathname call.flags with ⟨-, hcheck⟩ | ⟨hlt, -⟩ | ⟨hlt, -⟩
  · rw [hcheck]
    rfl
  · unfold KERNEL_MAX_PATH at hlt
    omega
  · unfold KERNEL_MAX_PATH at hlt
    omega

/-- The run does not leave its buffers. -/
def InBounds {α : Type} (x : Exec α) : Prop :=
  x ≠ .error (.undefined .overflow) ∧ x ≠ .error (.undefined .outOfBounds)

/-- **When a hook stays in its buffers**, in the target process: if the pathname is shorter than 255
bytes, and only then. -/
theorem hook_inBounds_iff (h : call.Hooked) (k : Kernel) :
    InBounds (k.hook k.target call) ↔ call.pathname.strlen < KERNEL_MAX_PATH := by
  rw [Kernel.hook_target h]
  by_cases hlen : call.pathname.strlen < 256
  · rw [Kernel.checkMsg_userMsg_of_lt hlen]
    rcases k.checkPermission_cases call.pathname call.flags with
      ⟨hle, hcheck⟩ | ⟨hlt, -, hcheck⟩ | ⟨hlt, -, ret, hcheck⟩
    · rw [hcheck]
      exact iff_of_false (fun hin => hin.1 rfl) (Nat.not_lt.mpr hle)
    · rw [hcheck]
      exact iff_of_true ⟨by simp, by simp⟩ hlt
    · rw [hcheck, Exec.ok_bind]
      refine iff_of_true ?_ hlt
      split_ifs <;> exact ⟨by simp, by simp⟩
  · have hle : 256 ≤ call.pathname.strlen := Nat.le_of_not_lt hlen
    rw [Kernel.checkMsg, bufferStr_userMsg_of_le hle]
    refine iff_of_false (fun hin => hin.2 rfl) ?_
    unfold KERNEL_MAX_PATH
    omega

/-- `open` of a short path. -/
theorem hook_inBounds_iff_open :
    InBounds (Kernel.init.hook Kernel.init.target (.open (.ofChars ['/', 'f']) O_RDONLY 0)) ↔
      (KernelCall.open (.ofChars ['/', 'f']) O_RDONLY 0).pathname.strlen < KERNEL_MAX_PATH :=
  hook_inBounds_iff (show KernelCall.Hooked (.open (.ofChars ['/', 'f']) O_RDONLY 0) from trivial)
    Kernel.init

/-- A path of 255 bytes. -/
def longPath : CStr := ⟨'/'.toUInt8 :: List.replicate 254 'a'.toUInt8, by
  simp only [List.mem_cons, List.mem_replicate]
  decide⟩

theorem longPath_strlen : longPath.strlen = 255 := by
  show (_ :: List.replicate 254 _).length = 255
  rw [List.length_cons, List.length_replicate]

/-- It is a string in `user_msg`, and does not fit `buf`. -/
theorem hook_overflows :
    Kernel.init.hook Kernel.init.target (.open longPath O_RDONLY 0) = .error (.undefined .overflow) ∧
    Kernel.init.hook Kernel.init.target (.openat (-100) longPath O_RDONLY 0) =
      .error (.undefined .overflow) := by
  exact ⟨hook_overflow (show KernelCall.Hooked (.open longPath O_RDONLY 0) from trivial) longPath_strlen _,
    hook_overflow (show KernelCall.Hooked (.openat (-100) longPath O_RDONLY 0) from rfl)
      longPath_strlen _⟩

end Buffers

/-! ## One policy in both hooks -/

section Agree

variable {k : Kernel} {map : PolicyMap} {pathname : CStr}

/-- What the hook does for the verdict `ret`. -/
def hookReply (ret : CInt) (call : KernelCall) : HookReply := if ret = 1 then .real call else .refused

theorem hookReply_eq_refused {ret : CInt} {call : KernelCall} :
    hookReply ret call = .refused ↔ ret ≠ 1 := by
  unfold hookReply
  split_ifs with h
  · exact iff_of_false (by simp) (not_not.mpr h)
  · exact iff_of_true rfl h

/-- A hooked call of the target process gets the verdict on its pathname. -/
theorem Kernel.hook_verdict {call : KernelCall} (h : call.Hooked) (hlen : call.pathname.strlen < 256)
    {ret : CInt} (hcheck : k.checkPermission call.pathname call.flags = .ok ret) :
    k.hook k.target call = .ok (hookReply ret call) := by
  rw [hook_target h, checkMsg_userMsg_of_lt hlen, hcheck, Exec.ok_bind, hookReply]
  split_ifs <;> rfl

/-- **Both hooks enforce one policy** on absolute pathnames; `openat` passes a relative one on. So they
agree if the pathname is absolute or the policy allows the call, and only then. -/
theorem hooks_agree (hmap : k.map = some map) (hlen : pathname.strlen < KERNEL_MAX_PATH)
    (dfd flags mode : CInt) :
    ∃ r₁ r₂, k.hook k.target (.open pathname flags mode) = .ok r₁ ∧
      k.hook k.target (.openat dfd pathname flags mode) = .ok r₂ ∧
      (Absolute pathname → (r₁ = .refused ↔ r₂ = .refused)) ∧
      (¬ Absolute pathname → r₂ = .real (.openat dfd pathname flags mode)) ∧
      ((r₁ = .refused ↔ r₂ = .refused) ↔
        Absolute pathname ∨ k.checkPermission pathname flags = .ok 1) := by
  have hlt : pathname.strlen < 256 := Nat.lt_trans hlen (by decide)
  have hcheck := Kernel.checkPermission_eq hmap hlen flags
  generalize ((map.lookup pathname).map fun permission => Kernel.allows permission flags).getD 1 = ret
    at hcheck
  have hopen : k.hook k.target (.open pathname flags mode) =
      .ok (hookReply ret (.open pathname flags mode)) :=
    Kernel.hook_verdict (show KernelCall.Hooked (.open pathname flags mode) from trivial) hlt hcheck
  by_cases habs : Absolute pathname
  · have hopenat : k.hook k.target (.openat dfd pathname flags mode) =
        .ok (hookReply ret (.openat dfd pathname flags mode)) :=
      Kernel.hook_verdict (show KernelCall.Hooked (.openat dfd pathname flags mode) from habs) hlt hcheck
    have hagree : hookReply ret (.open pathname flags mode) = .refused ↔
        hookReply ret (.openat dfd pathname flags mode) = .refused := by
      rw [hookReply_eq_refused, hookReply_eq_refused]
    exact ⟨_, _, hopen, hopenat, fun _ => hagree, fun h => absurd habs h,
      iff_of_true hagree (.inl habs)⟩
  · have hopenat : k.hook k.target (.openat dfd pathname flags mode) =
        .ok (.real (.openat dfd pathname flags mode)) := Kernel.hook_of_not fun h => habs h.2
    refine ⟨_, _, hopen, hopenat, fun h => absurd h habs, fun _ => rfl, ?_⟩
    rw [hookReply_eq_refused, hcheck]
    simp [habs]

/-- A file that may only be read, opened to write: both hooks refuse the call. -/
theorem hooks_agree_absolute :
    (⟨some (Finmap.singleton (.ofChars ['/', 'f']) O_READ), .ofChars ['p']⟩ : Kernel).hook (.ofChars ['p'])
      (.open (.ofChars ['/', 'f']) O_WRONLY 0) = .ok .refused ∧
    (⟨some (Finmap.singleton (.ofChars ['/', 'f']) O_READ), .ofChars ['p']⟩ : Kernel).hook (.ofChars ['p'])
      (.openat (-100) (.ofChars ['/', 'f']) O_WRONLY 0) = .ok .refused := by
  obtain ⟨r₁, r₂, h₁, h₂, hagree, -⟩ := @hooks_agree
    ⟨some (Finmap.singleton (.ofChars ['/', 'f']) O_READ), .ofChars ['p']⟩ _ (.ofChars ['/', 'f']) rfl
    (by decide) (-100) O_WRONLY 0
  have hopen : (⟨some (Finmap.singleton (.ofChars ['/', 'f']) O_READ), .ofChars ['p']⟩ : Kernel).hook
      (.ofChars ['p']) (.open (.ofChars ['/', 'f']) O_WRONLY 0) = .ok .refused := by decide
  obtain rfl := Except.ok.inj (h₁.symm.trans hopen)
  rw [(hagree (by decide)).mp rfl] at h₂
  exact ⟨hopen, h₂⟩

/-- A forbidden relative pathname: `open` is refused, and `openat` goes on to the system call. -/
theorem hooks_disagree :
    (⟨some (Finmap.singleton (.ofChars ['f']) O_FORBIDDEN), .ofChars ['p']⟩ : Kernel).hook
      (.ofChars ['p']) (.open (.ofChars ['f']) O_RDONLY 0) = .ok .refused ∧
    (⟨some (Finmap.singleton (.ofChars ['f']) O_FORBIDDEN), .ofChars ['p']⟩ : Kernel).hook
      (.ofChars ['p']) (.openat (-100) (.ofChars ['f']) O_RDONLY 0) =
        .ok (.real (.openat (-100) (.ofChars ['f']) O_RDONLY 0)) := by
  decide

end Agree

end Cnpv
