import Cnpv.CLib.Exec
import Mathlib.Data.List.Infix
import Mathlib.Data.List.TakeWhile

/-!
# C strings

A `CStr` is the bytes of a string before its NUL, so none of them is 0. A buffer gives the string
before its first NUL (`CStr.ofBytes`), as every function of `string.h` sees it, and a string is
written to a buffer with `CStr.store`, which is undefined behaviour if it does not fit.
-/

namespace CLib

/-- A C string. -/
@[ext] structure CStr where
  bytes : List UInt8
  noNul : 0 ∉ bytes
  deriving DecidableEq

namespace CStr

variable {s t u : CStr} {n : Nat}

instance : Inhabited CStr := ⟨⟨[], by simp⟩⟩

/-- `strlen` -/
def strlen (s : CStr) : Nat := s.bytes.length

/-- The bytes in memory: the string with its NUL. -/
def buf (s : CStr) : List UInt8 := s.bytes ++ [0]

/-- The string at a buffer: the bytes before the first NUL. -/
def ofBytes (l : List UInt8) : CStr :=
  ⟨l.takeWhile (· ≠ 0), fun h => by simpa using List.mem_takeWhile_imp h⟩

/-- A string constant of ASCII characters. -/
def ofChars (l : List Char) : CStr := ofBytes (l.map fun c => c.toNat.toUInt8)

/-- `"%s%s"` -/
def append (s t : CStr) : CStr :=
  ⟨s.bytes ++ t.bytes, fun h => (List.mem_append.mp h).elim s.noNul t.noNul⟩

instance : Append CStr := ⟨append⟩

/-- The first `n` bytes: what `strncpy` leaves in a buffer of `n + 1` zeroed bytes. -/
def take (n : Nat) (s : CStr) : CStr := ⟨s.bytes.take n, fun h => s.noNul (List.mem_of_mem_take h)⟩

/-- `s + n` -/
def drop (n : Nat) (s : CStr) : CStr := ⟨s.bytes.drop n, fun h => s.noNul (List.mem_of_mem_drop h)⟩

/-- A string written to a buffer of `n` bytes. -/
def store (n : Nat) (s : CStr) : Exec CStr :=
  if s.strlen < n then .ok s else .error (.undefined .overflow)

@[simp] theorem append_bytes (s t : CStr) : (s ++ t).bytes = s.bytes ++ t.bytes := rfl

@[simp] theorem strlen_append (s t : CStr) : (s ++ t).strlen = s.strlen + t.strlen :=
  List.length_append

@[simp] theorem default_append (s : CStr) : (default : CStr) ++ s = s := rfl

@[simp] theorem append_default (s : CStr) : s ++ (default : CStr) = s :=
  CStr.ext (List.append_nil _)

theorem append_assoc (s t u : CStr) : s ++ t ++ u = s ++ (t ++ u) :=
  CStr.ext (List.append_assoc _ _ _)

theorem append_right_inj : s ++ t = s ++ u ↔ t = u := by
  simp [CStr.ext_iff]

theorem append_left_inj : t ++ s = u ++ s ↔ t = u := by
  simp [CStr.ext_iff]

theorem store_ok : store n s = .ok t ↔ s.strlen < n ∧ s = t := by
  unfold store
  split
  · next h => simp [h]
  · next h => simp [h]

theorem store_error {h : Halt} (hs : store n s = .error h) : h = .undefined .overflow := by
  unfold store at hs
  split_ifs at hs
  cases hs
  rfl

theorem store_of_lt (h : s.strlen < n) : store n s = .ok s := if_pos h

/-- A string read back from its bytes in memory, whatever comes after them. -/
theorem ofBytes_buf_append (s : CStr) (l : List UInt8) : ofBytes (s.buf ++ l) = s := by
  have h : ∀ b ∈ s.bytes, decide (b ≠ 0) = true := fun b hb => by
    simpa using ne_of_mem_of_not_mem hb s.noNul
  refine CStr.ext ?_
  show (s.bytes ++ [0] ++ l).takeWhile (· ≠ 0) = s.bytes
  rw [List.append_assoc, List.takeWhile_append_of_pos h]
  simp

@[simp] theorem ofBytes_buf (s : CStr) : ofBytes s.buf = s := by
  simpa using ofBytes_buf_append s []

theorem buf_inj : s.buf = t.buf ↔ s = t := by
  rw [buf, buf, List.append_left_inj, ← CStr.ext_iff]

theorem take_of_le (h : s.strlen ≤ n) : s.take n = s := CStr.ext (List.take_of_length_le h)

end CStr

/-- `strstr`: the rest of `s` from the first place where `t` occurs. -/
def strstr : List UInt8 → List UInt8 → Option (List UInt8)
  | [], t => if t = [] then some [] else none
  | b :: s, t => if t <+: b :: s then some (b :: s) else strstr s t

theorem strstr_isSome {s t : List UInt8} : (strstr s t).isSome ↔ t <:+: s := by
  induction s with
  | nil => simp only [strstr]; split <;> simp_all
  | cons b s ih =>
    rw [strstr, List.infix_cons_iff]
    split
    · next h => simp [h]
    · next h => simp [h, ih]

/-- `strstr` for one character. -/
theorem strstr_singleton {s : List UInt8} {b : UInt8} : (strstr s [b]).isSome ↔ b ∈ s := by
  rw [strstr_isSome]
  constructor
  · rintro ⟨l₁, l₂, rfl⟩
    simp
  · intro h
    obtain ⟨l₁, l₂, rfl⟩ := List.append_of_mem h
    exact ⟨l₁, l₂, by simp⟩

end CLib
