import Cnpv.Agent.Spelling
import Cnpv.Config.Model

/-!
# The check of the kernel module (`kernel_module/check.c`)

The kernel module has its own copy of `check_permission`. It differs from the agent's in three
ways: its buffer has 255 bytes, it does not treat the flag word of `fopen` apart, and its `ret`
starts as 1, not as `false`. So the two decide alike but for the access mode 3, which is none of
`O_RDONLY`, `O_WRONLY` and `O_RDWR` (`checkPermission_agree_iff`).
-/

namespace Cnpv

open CLib

namespace Kernel

/-- `ret` for a path with a rule. -/
def allows (permission oflag : CInt) : CInt :=
  if permission &&& O_FORBIDDEN ≠ 0 then 0
  else if oflag &&& 0x03 = O_RDONLY then if permission &&& O_READ ≠ 0 then 1 else 0
  else if oflag &&& 0x03 = O_WRONLY then if permission &&& O_WRITE ≠ 0 then 1 else 0
  else if oflag &&& 0x03 = O_RDWR then
    if permission &&& O_READ ≠ 0 ∧ permission &&& O_WRITE ≠ 0 then 1 else 0
  else 1

/-- `hashmap_get(map, &tmp)` -/
def hashmapGet (map : Option PolicyMap) (pathname : CStr) : Exec (Option CInt) :=
  match map with
  | none => .error (.undefined .nullPointer)
  | some map => .ok (map.lookup pathname)

/-- `check_permission` -/
def checkPermission (k : Kernel) (pathname : CStr) (oflag : CInt) : Exec CInt := do
  let buf ← pathname.store KERNEL_MAX_PATH
  let user ← hashmapGet k.map (buf.take (KERNEL_MAX_PATH - 1))
  match user with
  | none => .ok 1
  | some permission => .ok (allows permission oflag)

end Kernel

variable {k : Kernel} {map : PolicyMap} {cwd pathname : CStr} {permission oflag : CInt}

/-- `check_permission` of the kernel module on a path that fits its buffer. -/
theorem Kernel.checkPermission_eq (hmap : k.map = some map) (hlen : pathname.strlen < KERNEL_MAX_PATH)
    (oflag : CInt) : k.checkPermission pathname oflag =
      .ok (((map.lookup pathname).map fun permission => Kernel.allows permission oflag).getD 1) := by
  have htake : pathname.take (KERNEL_MAX_PATH - 1) = pathname :=
    CStr.take_of_le (Nat.le_sub_one_of_lt hlen)
  rw [checkPermission, CStr.store_of_lt hlen, Exec.ok_bind, hmap, htake, hashmapGet, Exec.ok_bind]
  cases map.lookup pathname <;> rfl

/-- An access mode is one of four. -/
theorem accessMode_cases (oflag : CInt) : oflag &&& 0x03 = O_RDONLY ∨ oflag &&& 0x03 = O_WRONLY ∨
    oflag &&& 0x03 = O_RDWR ∨ oflag &&& 0x03 = 0x03 := by
  have hlt : (oflag &&& 0x03).toNat < 4 := by
    rw [BitVec.toNat_and]
    exact Nat.and_lt_two_pow _ (n := 2) (by decide)
  obtain h | h | h | h : (oflag &&& 0x03).toNat = 0 ∨ (oflag &&& 0x03).toNat = 1 ∨
      (oflag &&& 0x03).toNat = 2 ∨ (oflag &&& 0x03).toNat = 3 := by omega
  · exact .inl (BitVec.eq_of_toNat_eq h)
  · exact .inr (.inl (BitVec.eq_of_toNat_eq h))
  · exact .inr (.inr (.inl (BitVec.eq_of_toNat_eq h)))
  · exact .inr (.inr (.inr (BitVec.eq_of_toNat_eq h)))

/-- What `check_permission` asks of a permission: not `O_FORBIDDEN`, and the bits of the access mode. -/
theorem Kernel.allows_ne_zero (permission oflag : CInt) : Kernel.allows permission oflag ≠ 0 ↔
    permission &&& O_FORBIDDEN = 0 ∧
    (oflag &&& 0x03 = O_RDONLY → permission &&& O_READ ≠ 0) ∧
    (oflag &&& 0x03 = O_WRONLY → permission &&& O_WRITE ≠ 0) ∧
    (oflag &&& 0x03 = O_RDWR → permission &&& O_READ ≠ 0 ∧ permission &&& O_WRITE ≠ 0) := by
  unfold Kernel.allows
  by_cases hforb : permission &&& O_FORBIDDEN = 0
  · rw [if_neg (not_not_intro hforb)]
    rcases accessMode_cases oflag with h | h | h | h <;> simp only [h, hforb] <;>
      simp [O_RDONLY, O_WRONLY, O_RDWR]
  · rw [if_pos hforb]
    simp only [hforb, false_and, ne_eq, not_true_eq_false]

theorem accessMode_ne {mode : CInt} (h : oflag &&& 0x03 = mode) (hne : mode ≠ 0x03) :
    oflag ≠ FOPEN_MODE_FLAG := by
  rintro rfl
  exact hne h.symm

/-- The two decisions on one permission. -/
theorem allows_agree_iff (permission oflag : CInt) :
    (allows permission oflag = true ↔ Kernel.allows permission oflag ≠ 0) ↔
      (oflag &&& 0x03 = 0x03 → (permission &&& O_FORBIDDEN ≠ 0 ↔ oflag ≠ FOPEN_MODE_FLAG)) := by
  unfold allows Kernel.allows
  rcases accessMode_cases oflag with h | h | h | h
  · have hflag := accessMode_ne h (by decide)
    simp only [h, hflag]
    by_cases hforb : permission &&& O_FORBIDDEN = 0 <;>
      by_cases hread : permission &&& O_READ = 0 <;> simp [hforb, hread, O_RDONLY]
  · have hflag := accessMode_ne h (by decide)
    simp only [h, hflag]
    by_cases hforb : permission &&& O_FORBIDDEN = 0 <;>
      by_cases hwrite : permission &&& O_WRITE = 0 <;> simp [hforb, hwrite, O_RDONLY, O_WRONLY]
  · have hflag := accessMode_ne h (by decide)
    simp only [h, hflag]
    by_cases hforb : permission &&& O_FORBIDDEN = 0 <;>
      by_cases hread : permission &&& O_READ = 0 <;>
      by_cases hwrite : permission &&& O_WRITE = 0 <;>
      simp [hforb, hread, hwrite, O_RDONLY, O_WRONLY, O_RDWR]
  · simp only [h]
    by_cases hforb : permission &&& O_FORBIDDEN = 0 <;>
      by_cases hflag : oflag = FOPEN_MODE_FLAG <;>
      simp [hforb, hflag, O_RDONLY, O_WRONLY, O_RDWR]

/-- **When the agent and the kernel module decide alike** on an absolute path that fits the kernel's
buffer: the access mode is not 3, or the path has no rule, or its rule is `O_FORBIDDEN` and the flag
word is not that of `fopen`, or the other way around. -/
theorem checkPermission_agree_iff (hmap : k.map = some map) (habs : Absolute pathname)
    (hlen : pathname.strlen < KERNEL_MAX_PATH) (cwd : CStr) (oflag : CInt) :
    ∃ allowed ret, checkPermissionUncached map cwd pathname oflag = .ok allowed ∧
      k.checkPermission pathname oflag = .ok ret ∧
      ((allowed = true ↔ ret ≠ 0) ↔ (oflag &&& 0x03 = 0x03 → ∀ permission,
        map.lookup pathname = some permission →
          (permission &&& O_FORBIDDEN ≠ 0 ↔ oflag ≠ FOPEN_MODE_FLAG))) := by
  have hslash : ¬ Bare pathname := fun h => h (List.mem_of_mem_head? habs)
  have hname : checkName cwd pathname = .ok pathname :=
    checkName_of_not_bare hslash (Nat.lt_trans hlen (by decide))
  refine ⟨_, _, uncached_eq hname map oflag, Kernel.checkPermission_eq hmap hlen oflag, ?_⟩
  rw [verdict_of_checkName hname]
  cases map.lookup pathname with
  | none => simp
  | some permission =>
    have hagree := allows_agree_iff permission oflag
    simpa using hagree

/-- A file that may be read, opened to read. -/
theorem checkPermission_agree_iff_read :
    ∃ allowed ret, checkPermissionUncached (Finmap.singleton (.ofChars ['/', 'f']) O_READ) slash
        (.ofChars ['/', 'f']) O_RDONLY = .ok allowed ∧
      (⟨some (Finmap.singleton (.ofChars ['/', 'f']) O_READ), default⟩ : Kernel).checkPermission
        (.ofChars ['/', 'f']) O_RDONLY = .ok ret ∧
      ((allowed = true ↔ ret ≠ 0) ↔ (O_RDONLY &&& 0x03 = 0x03 → ∀ permission,
        (Finmap.singleton (.ofChars ['/', 'f']) O_READ : PolicyMap).lookup (.ofChars ['/', 'f']) =
          some permission → (permission &&& O_FORBIDDEN ≠ 0 ↔ O_RDONLY ≠ FOPEN_MODE_FLAG))) :=
  checkPermission_agree_iff rfl (by decide) (by decide) slash O_RDONLY

/-- The file opened with the access mode 3: the agent refuses, the kernel module allows. -/
theorem checkPermission_disagree :
    checkPermissionUncached (Finmap.singleton (.ofChars ['/', 'f']) O_READ) slash
      (.ofChars ['/', 'f']) 3 = .ok false ∧
    (⟨some (Finmap.singleton (.ofChars ['/', 'f']) O_READ), default⟩ : Kernel).checkPermission
      (.ofChars ['/', 'f']) 3 = .ok 1 := by
  decide

end Cnpv
