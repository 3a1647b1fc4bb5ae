import Cnpv.Config.Model
import Cnpv.Hashmap.Refine

/-!
# The map of the rules (`user_hash`, `user_compare`)

The agent and the kernel module make their maps with the same two callbacks: SipHash-2-4 of the
pathname, and `strcmp`. So the key of a rule is its pathname (`userKeyed`). The words of the hash are
read as on a little-endian machine.
-/

namespace CLib

/-! ## `strcmp` -/

/-- The difference of the first bytes that differ; the end of a string is its NUL. -/
def compareBytes : List UInt8 → List UInt8 → Int
  | [], [] => 0
  | [], b :: _ => -b.toNat
  | a :: _, [] => a.toNat
  | a :: s, b :: t => if a = b then compareBytes s t else a.toNat - b.toNat

/-- `strcmp` -/
def strcmp (s t : CStr) : Int := compareBytes s.bytes t.bytes

theorem compareBytes_eq_zero {s t : List UInt8} (hs : 0 ∉ s) (ht : 0 ∉ t) :
    compareBytes s t = 0 ↔ s = t := by
  induction s generalizing t with
  | nil =>
    cases t with
    | nil => exact iff_of_true rfl rfl
    | cons b t =>
      have hb : b.toNat ≠ 0 := fun h => ht (List.mem_cons.mpr (.inl (UInt8.toNat_inj.mp h).symm))
      refine iff_of_false (fun h => hb ?_) (by simp)
      exact Int.natCast_eq_zero.mp (Int.neg_eq_zero.mp h)
  | cons a s ih =>
    cases t with
    | nil =>
      have ha : a.toNat ≠ 0 := fun h => hs (List.mem_cons.mpr (.inl (UInt8.toNat_inj.mp h).symm))
      exact iff_of_false (fun h => ha (Int.natCast_eq_zero.mp h)) (by simp)
    | cons b t =>
      rw [compareBytes, List.cons.injEq]
      by_cases hab : a = b
      · rw [if_pos hab, ih (fun h => hs (.tail _ h)) fun h => ht (.tail _ h)]
        simp [hab]
      · rw [if_neg hab]
        refine iff_of_false (fun h => hab ?_) fun h => hab h.1
        exact UInt8.toNat_inj.mp (Int.natCast_inj.mp (Int.sub_eq_zero.mp h))

theorem strcmp_eq_zero {s t : CStr} : strcmp s t = 0 ↔ s = t :=
  (compareBytes_eq_zero s.noNul t.noNul).trans CStr.ext_iff.symm

end CLib

namespace Cnpv

open CLib

/-! ## SipHash -/

/-- The words `v0` to `v3`. -/
structure Sip where
  v0 : UInt64
  v1 : UInt64
  v2 : UInt64
  v3 : UInt64

/-- `ROTL` -/
def rotl (x b : UInt64) : UInt64 := x <<< b ||| x >>> (64 - b)

namespace Sip

/-- `SIPROUND` -/
def sipround (v : Sip) : Sip :=
  let v := { v with v0 := v.v0 + v.v1 }
  let v := { v with v1 := rotl v.v1 13 }
  let v := { v with v1 := v.v1 ^^^ v.v0 }
  let v := { v with v0 := rotl v.v0 32 }
  let v := { v with v2 := v.v2 + v.v3 }
  let v := { v with v3 := rotl v.v3 16 }
  let v := { v with v3 := v.v3 ^^^ v.v2 }
  let v := { v with v0 := v.v0 + v.v3 }
  let v := { v with v3 := rotl v.v3 21 }
  let v := { v with v3 := v.v3 ^^^ v.v0 }
  let v := { v with v2 := v.v2 + v.v1 }
  let v := { v with v1 := rotl v.v1 17 }
  let v := { v with v1 := v.v1 ^^^ v.v2 }
  { v with v2 := rotl v.v2 32 }

/-- The word `m` of the data. -/
def word (v : Sip) (m : UInt64) : Sip :=
  let v := sipround (sipround { v with v3 := v.v3 ^^^ m })
  { v with v0 := v.v0 ^^^ m }

end Sip

/-- `U8TO64_LE`, and the bytes that are left. -/
def u8to64 (bytes : List UInt8) : UInt64 := bytes.foldr (fun p m => p.toUInt64 ||| m <<< 8) 0

/-- The loop over the words; what is left has less than 8 bytes. -/
def sipWords : Sip → List UInt8 → Sip × List UInt8
  | v, b₀ :: b₁ :: b₂ :: b₃ :: b₄ :: b₅ :: b₆ :: b₇ :: rest =>
    sipWords (v.word (u8to64 [b₀, b₁, b₂, b₃, b₄, b₅, b₆, b₇])) rest
  | v, left => (v, left)

/-- `SIP64` -/
def sip64 (bytes : List UInt8) (seed0 seed1 : UInt64) : UInt64 :=
  let start : Sip := {
    v0 := 0x736f6d6570736575 ^^^ seed0
    v1 := 0x646f72616e646f6d ^^^ seed1
    v2 := 0x6c7967656e657261 ^^^ seed0
    v3 := 0x7465646279746573 ^^^ seed1 }
  let r := sipWords start bytes
  let v := r.1.word (bytes.length.toUInt64 <<< 56 ||| u8to64 r.2)
  let v := Sip.sipround <| Sip.sipround <| Sip.sipround <| Sip.sipround { v with v2 := v.v2 ^^^ 0xff }
  v.v0 ^^^ v.v1 ^^^ v.v2 ^^^ v.v3

example : sip64 (CStr.ofChars ['h', 'e', 'l', 'l', 'o']).bytes 1 2 = 2957200328589801622 := by
  decide +kernel

/-! ## The callbacks -/

/-- `user_hash` -/
def userHash (user : User) (seed0 seed1 : UInt64) : UInt64 := sip64 user.pathname.bytes seed0 seed1

/-- `user_compare` -/
def userCompare (a b : User) : Int := strcmp a.pathname b.pathname

/-- The callbacks of the map, which are about the pathname. -/
def userKeyed : Keyed User CStr where
  hash := userHash
  compare := userCompare
  zero := { pathname := default, permission := 0 }
  key := User.pathname
  compare_iff := fun _ _ => strcmp_eq_zero
  hash_eq := fun _ _ _ _ h => congrArg (fun p : CStr => sip64 p.bytes _ _) h

end Cnpv
