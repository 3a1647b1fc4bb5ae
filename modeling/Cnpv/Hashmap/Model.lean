import Cnpv.CLib.Exec
import Mathlib.Logic.Function.Basic

/-!
# The hash map (`ns_agent/src/hashmap.c`, `kernel_module/map.c`)

An open addressed table with Robin Hood hashing, as the code keeps it: buckets in one block of
memory, whose number is a power of two, so that `mask` takes an index into the block. The hash has
48 bits and `dib` has 16, with the arithmetic of these widths. Sizes are natural numbers.

The two copies of the file differ in their spelling of three quarters and of a tenth of the number of
buckets, which is the same for a power of two. Each call that allocates has an argument `memory`:
the allocations that it makes succeed. The loops have fuel; the index of a bucket is checked
against the block (`Hashmap.bucketAt`).
-/

namespace Cnpv

open CLib

/-- The functions that a map is made with, and the item that zeroed memory is. -/
structure Callbacks (α : Type) where
  hash : α → UInt64 → UInt64 → UInt64
  compare : α → α → Int
  zero : α

/-- `struct bucket` and the item after it; `dib` is 0 if the bucket is empty. -/
structure Bucket (α : Type) where
  hash : UInt64
  dib : UInt16
  item : α

/-- `struct hashmap` -/
structure Hashmap (α : Type) where
  oom : Bool := false
  cap : Nat
  seed0 : UInt64
  seed1 : UInt64
  nbuckets : Nat
  count : Nat := 0
  mask : Nat
  growat : Nat
  shrinkat : Nat
  buckets : Nat → Bucket α
  /-- How many buckets the block at `buckets` has. -/
  room : Nat

namespace Hashmap

variable {α : Type}

/-- `bucket_at` -/
def bucketAt (map : Hashmap α) (index : Nat) : Exec (Bucket α) :=
  if index < map.room then .ok (map.buckets index) else .error (.undefined .outOfBounds)

/-- `memcpy` to a bucket. -/
def store (map : Hashmap α) (index : Nat) (entry : Bucket α) : Hashmap α :=
  { map with buckets := Function.update map.buckets index entry }

/-- The index after `i`. -/
def after (map : Hashmap α) (i : Nat) : Nat := (i + 1) &&& map.mask

end Hashmap

section Calls

variable {α : Type} (cb : Callbacks α)

/-- `get_hash` -/
def getHash (map : Hashmap α) (key : α) : UInt64 := cb.hash key map.seed0 map.seed1 <<< 16 >>> 16

/-- The bytes of a bucket after `memset`. -/
def zeroBucket : Bucket α := { hash := 0, dib := 0, item := cb.zero }

/-- The capacity that `hashmap_new` takes: 16 doubled up to `cap`. The fuel is for the doublings
that an `int` holds. -/
def roundCap (cap : Nat) : Exec Nat :=
  if cap < 16 then .ok 16 else whileLoop (fun ncap => ncap < cap) (fun ncap => .ok (ncap * 2)) 27 16

/-- `hashmap_new` -/
def hashmapNew (memory : Bool) (cap : Nat) (seed0 seed1 : UInt64) : Exec (Option (Hashmap α)) := do
  let cap ← roundCap cap
  if memory then
    .ok (some {
      cap, seed0, seed1
      nbuckets := cap
      mask := cap - 1
      growat := cap * 3 / 4
      shrinkat := cap / 10
      buckets := fun _ => zeroBucket cb
      room := cap })
  else .ok none

/-- `hashmap_clear`: the buckets past `nbuckets` are not written. -/
def hashmapClear (memory updateCap : Bool) (map : Hashmap α) : Exec (Hashmap α) :=
  let map := { map with count := 0 }
  let map :=
    if updateCap then { map with cap := map.nbuckets }
    else if map.nbuckets ≠ map.cap then
      { map with room := if memory then map.cap else map.room, nbuckets := map.cap }
    else map
  if map.nbuckets ≤ map.room then
    .ok { map with
      buckets := fun i => if i < map.nbuckets then zeroBucket cb else map.buckets i
      mask := map.nbuckets - 1
      growat := map.nbuckets * 3 / 4
      shrinkat := map.nbuckets / 10 }
  else .error (.undefined .overflow)

/-- `resize`: the loop that puts `entry` in the map, from the bucket `j`. -/
def rehashLoop : Nat → Hashmap α → Bucket α → Nat → Exec (Hashmap α)
  | 0, _, _, _ => .error .outOfFuel
  | fuel + 1, map2, entry, j => do
    let bucket ← map2.bucketAt j
    if bucket.dib = 0 then .ok (map2.store j entry)
    else if bucket.dib < entry.dib then
      rehashLoop fuel (map2.store j entry) { bucket with dib := bucket.dib + 1 } (map2.after j)
    else rehashLoop fuel map2 { entry with dib := entry.dib + 1 } (map2.after j)

/-- `resize`: the bucket `i` of the old block. -/
def rehash (fuel : Nat) (map map2 : Hashmap α) (i : Nat) : Exec (Hashmap α) := do
  let entry ← map.bucketAt i
  if entry.dib = 0 then .ok map2
  else rehashLoop fuel map2 { entry with dib := 1 } (entry.hash.toNat &&& map2.mask)

/-- `resize`; `none` if there is no memory for the new block. -/
def resize (fuel : Nat) (memory : Bool) (map : Hashmap α) (newCap : Nat) :
    Exec (Option (Hashmap α)) := do
  let map2 ← hashmapNew cb memory newCap map.seed1 map.seed1
  map2.elim (.ok none) fun map2 => do
    let map2 ← runFrom (rehash fuel map) map2 (List.range map.nbuckets)
    .ok (some { map with
      buckets := map2.buckets
      room := map2.room
      nbuckets := map2.nbuckets
      mask := map2.mask
      growat := map2.growat
      shrinkat := map2.shrinkat })

/-- `hashmap_set`: the loop, with `entry` at the bucket `i`. -/
def setLoop : Nat → Hashmap α → Bucket α → Nat → Exec (Option α × Hashmap α)
  | 0, _, _, _ => .error .outOfFuel
  | fuel + 1, map, entry, i => do
    let bucket ← map.bucketAt i
    if bucket.dib = 0 then .ok (none, { map.store i entry with count := map.count + 1 })
    else if entry.hash = bucket.hash ∧ cb.compare entry.item bucket.item = 0 then
      .ok (some bucket.item, map.store i { bucket with item := entry.item })
    else if bucket.dib < entry.dib then
      setLoop fuel (map.store i entry) { bucket with dib := bucket.dib + 1 } (map.after i)
    else setLoop fuel map { entry with dib := entry.dib + 1 } (map.after i)

/-- `hashmap_set`: the item that was replaced, and the map. -/
def hashmapSet (fuel : Nat) (memory : Bool) (map : Hashmap α) (item : α) :
    Exec (Option α × Hashmap α) := do
  let map := { map with oom := false }
  let grown ←
    if map.count = map.growat then resize cb fuel memory map (map.nbuckets * 2) else .ok (some map)
  grown.elim (.ok (none, { map with oom := true })) fun map =>
    let hash := getHash cb map item
    setLoop cb fuel map { hash, dib := 1, item } (hash.toNat &&& map.mask)

/-- The search of `hashmap_get` and `hashmap_delete`, from the bucket `i`: where the key is. -/
def findLoop (map : Hashmap α) (hash : UInt64) (key : α) : Nat → Nat → Exec (Option Nat)
  | 0, _ => .error .outOfFuel
  | fuel + 1, i => do
    let bucket ← map.bucketAt i
    if bucket.dib = 0 then .ok none
    else if bucket.hash = hash ∧ cb.compare key bucket.item = 0 then .ok (some i)
    else findLoop map hash key fuel (map.after i)

def find (fuel : Nat) (map : Hashmap α) (key : α) : Exec (Option Nat) :=
  findLoop cb map (getHash cb map key) key fuel ((getHash cb map key).toNat &&& map.mask)

/-- `hashmap_get` -/
def hashmapGet (fuel : Nat) (map : Hashmap α) (key : α) : Exec (Option α) :=
  Option.map (fun i => (map.buckets i).item) <$> find cb fuel map key

/-- `hashmap_delete`: the loop that moves the items after `prev` back. -/
def shiftLoop : Nat → Hashmap α → Nat → Exec (Hashmap α)
  | 0, _, _ => .error .outOfFuel
  | fuel + 1, map, prev => do
    let bucket ← map.bucketAt (map.after prev)
    if bucket.dib ≤ 1 then .ok (map.store prev { map.buckets prev with dib := 0 })
    else shiftLoop fuel (map.store prev { bucket with dib := bucket.dib - 1 }) (map.after prev)

/-- `hashmap_delete`: the item that was removed, and the map. -/
def hashmapDelete (fuel : Nat) (memory : Bool) (map : Hashmap α) (key : α) :
    Exec (Option α × Hashmap α) := do
  let map := { map with oom := false }
  let found ← find cb fuel map key
  found.elim (.ok (none, map)) fun i => do
    let bucket := map.buckets i
    let map ← shiftLoop fuel (map.store i { bucket with dib := 0 }) i
    let map := { map with count := map.count - 1 }
    if map.cap < map.nbuckets ∧ map.count ≤ map.shrinkat then do
      -- A failed allocation leaves the map as it is.
      let shrunk ← resize cb fuel memory map (map.nbuckets / 2)
      .ok (some bucket.item, shrunk.getD map)
    else .ok (some bucket.item, map)

/-- `hashmap_scan`, over the buckets `is`: `iter` tells whether to go on. -/
def scanFrom {σ : Type} (iter : σ → α → Bool × σ) (map : Hashmap α) :
    σ → List Nat → Exec (Bool × σ)
  | s, [] => .ok (true, s)
  | s, i :: is => do
    let bucket ← map.bucketAt i
    if bucket.dib = 0 then scanFrom iter map s is
    else if (iter s bucket.item).1 then scanFrom iter map (iter s bucket.item).2 is
    else .ok (false, (iter s bucket.item).2)

/-- `hashmap_scan` -/
def hashmapScan {σ : Type} (iter : σ → α → Bool × σ) (map : Hashmap α) (s : σ) : Exec (Bool × σ) :=
  scanFrom iter map s (List.range map.nbuckets)

end Calls

end Cnpv
