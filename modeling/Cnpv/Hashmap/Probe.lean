import Cnpv.CLib.RobinHood
import Cnpv.Hashmap.Model

/-!
# The loops of the hash map

The loops of `hashmap.c` are walks of a Robin Hood table: the one of `resize` and of `hashmap_set`
carries an entry to its place (`rehashLoop_added`, `setLoop_of_fresh`), unless `hashmap_set` meets
its key, which is before the entry would be put down (`setLoop_of_found`). The search meets a key
that is in the map before an empty bucket (`find_some`, `find_none`), and `hashmap_delete` closes the
hole (`shiftLoop_table`). `dib` has 16 bits, which is enough for fewer than 65536 items.
-/

namespace Cnpv

open CLib CLib.RobinHood

/-- Callbacks that are about keys: items with the same key compare as equal, and have the same
hash. -/
structure Keyed (α κ : Type) extends Callbacks α where
  key : α → κ
  compare_iff : ∀ a b, compare a b = 0 ↔ key a = key b
  hash_eq : ∀ a b s t, key a = key b → hash a s t = hash b s t

/-- A bucket as a slot of a table. -/
def Bucket.slot {α : Type} (b : Bucket α) : Slot (UInt64 × α) := ⟨b.dib.toNat, (b.hash, b.item)⟩

/-- The bucket at which the walk of an entry starts, among `n`. -/
def homeOf {α : Type} (n : Nat) (e : UInt64 × α) : Nat := e.1.toNat % n

namespace Hashmap

variable {α κ : Type} {K : Keyed α κ} {map : Hashmap α} {b entry : Bucket α} {i t fuel : Nat}
  {item : α}

def slots (map : Hashmap α) (i : Nat) : Slot (UInt64 × α) := (map.buckets i).slot

/-- The sizes that belong together. -/
structure Shape (map : Hashmap α) : Prop where
  pow : ∃ k, 4 ≤ k ∧ k ≤ 30 ∧ map.nbuckets = 2 ^ k
  mask : map.mask = map.nbuckets - 1
  growat : map.growat = map.nbuckets * 3 / 4
  shrinkat : map.shrinkat = map.nbuckets / 10
  room : map.nbuckets ≤ map.room

/-- The buckets of the map are a table with the keys of its items. -/
def Robin (K : Keyed α κ) (map : Hashmap α) : Prop :=
  Table map.nbuckets (homeOf map.nbuckets) (fun e => K.key e.2) map.slots

/-- The hash in a bucket is the one of its item. -/
def Hashed (K : Keyed α κ) (map : Hashmap α) : Prop :=
  ∀ e, Has map.nbuckets map.slots e → e.1 = getHash K.toCallbacks map e.2

/-- The number of items in the buckets. -/
def size (map : Hashmap α) : Nat := RobinHood.size map.nbuckets map.slots

/-! ## Indices -/

theorem slots_store (map : Hashmap α) (i : Nat) (b : Bucket α) :
    (map.store i b).slots = Function.update map.slots i b.slot := by
  funext j
  show (Function.update map.buckets i b j).slot = _
  rw [Function.update_apply, Function.update_apply]
  split <;> rfl

theorem Shape.store (hs : map.Shape) (i : Nat) (b : Bucket α) : (map.store i b).Shape :=
  ⟨hs.pow, hs.mask, hs.growat, hs.shrinkat, hs.room⟩

theorem Shape.and_mask (hs : map.Shape) (x : Nat) : x &&& map.mask = x % map.nbuckets := by
  obtain ⟨k, -, -, hk⟩ := hs.pow
  rw [hs.mask, hk, Nat.and_two_pow_sub_one_eq_mod]

theorem Shape.after (hs : map.Shape) (i : Nat) : map.after i = walk map.nbuckets i 1 := hs.and_mask _

theorem Shape.ge (hs : map.Shape) : 16 ≤ map.nbuckets := by
  obtain ⟨k, hle, -, hk⟩ := hs.pow
  rw [hk]
  exact Nat.pow_le_pow_right Nat.zero_lt_two hle

theorem Shape.pos (hs : map.Shape) : 0 < map.nbuckets :=
  Nat.lt_of_lt_of_le (Nat.zero_lt_succ 15) hs.ge

theorem Shape.bucketAt (hs : map.Shape) (hi : i < map.nbuckets) :
    map.bucketAt i = .ok (map.buckets i) := if_pos (Nat.lt_of_lt_of_le hi hs.room)

theorem dib_eq_zero_iff : b.dib = 0 ↔ ¬ b.slot.Full := by
  rw [Slot.Full, not_not]
  exact ⟨fun h => by rw [Bucket.slot, h]; rfl, fun h => UInt16.toNat_inj.mp h⟩

theorem toNat_dib_succ {d : UInt16} (h : d.toNat + 1 < 2 ^ 16) : (d + 1).toNat = d.toNat + 1 := by
  rw [UInt16.toNat_add]
  exact Nat.mod_eq_of_lt h

/-! ## An entry that is put in its place -/

/-- The entry of a bucket carried at the bucket `i`. -/
def Carried (K : Keyed α κ) (map : Hashmap α) (i : Nat) (entry : Bucket α) : Prop :=
  Carries map.nbuckets (homeOf map.nbuckets) (fun e => K.key e.2) map.slots i entry.dib.toNat
    (entry.hash, entry.item)

/-- **The walk of an entry** puts it in the table, in `resize` and in `hashmap_set`: no bucket has its
key. -/
theorem loops_added (hs : map.Shape) (h : map.Carried K i entry) (hi : i < map.nbuckets)
    (hsize : map.size + 1 < 2 ^ 16) (hempty : ¬ (map.slots (walk map.nbuckets i t)).Full)
    (ht : t < fuel) :
    ∃ B, rehashLoop fuel map entry i = .ok { map with buckets := B } ∧
      setLoop K.toCallbacks fuel map entry i =
        .ok (none, { map with buckets := B, count := map.count + 1 }) ∧
      Added map.nbuckets (homeOf map.nbuckets) (fun e => K.key e.2) map.slots
        (entry.hash, entry.item) { map with buckets := B }.slots := by
  have hplace : ∀ {fuel : Nat} {map : Hashmap α} {i : Nat} {entry : Bucket α}, map.Shape →
      map.Carried K i entry → i < map.nbuckets → ¬ (map.slots i).Full →
      ∃ B, rehashLoop (fuel + 1) map entry i = .ok { map with buckets := B } ∧
        setLoop K.toCallbacks (fuel + 1) map entry i =
          .ok (none, { map with buckets := B, count := map.count + 1 }) ∧
        Added map.nbuckets (homeOf map.nbuckets) (fun e => K.key e.2) map.slots
          (entry.hash, entry.item) { map with buckets := B }.slots := by
    intro fuel map i entry hs h hi hempty
    refine ⟨(map.store i entry).buckets, ?_, ?_, ?_⟩
    · rw [rehashLoop, hs.bucketAt hi, Exec.ok_bind, if_pos (dib_eq_zero_iff.mpr hempty)]
      rfl
    · rw [setLoop, hs.bucketAt hi, Exec.ok_bind, if_pos (dib_eq_zero_iff.mpr hempty)]
      rfl
    · show Added _ _ _ _ _ (map.store i entry).slots
      rw [slots_store]
      exact h.added hi hempty
  induction t generalizing fuel map entry i with
  | zero =>
    obtain ⟨fuel, rfl⟩ : ∃ k, fuel = k + 1 := ⟨fuel - 1, by omega⟩
    rw [walk_zero hi] at hempty
    exact hplace hs h hi hempty
  | succ t ih =>
    obtain ⟨fuel, rfl⟩ : ∃ k, fuel = k + 1 := ⟨fuel - 1, by omega⟩
    have hfuel : t < fuel := Nat.lt_of_succ_lt_succ ht
    have hex : ∃ z < map.nbuckets, ¬ (map.slots z).Full := ⟨_, walk_lt hs.pos, hempty⟩
    by_cases hfull : (map.slots i).Full
    · have hdib : (map.buckets i).dib ≠ 0 := fun e => dib_eq_zero_iff.mp e hfull
      have hkey : ¬ (entry.hash = (map.buckets i).hash ∧
          K.compare entry.item (map.buckets i).item = 0) := fun e =>
        h.fresh i hi hfull ((K.compare_iff _ _).mp e.2).symm
      have hnext : walk map.nbuckets i 1 < map.nbuckets := walk_lt hs.pos
      rw [Nat.add_comm t 1, ← walk_walk] at hempty
      rw [rehashLoop, setLoop, hs.bucketAt hi, Exec.ok_bind, Exec.ok_bind, if_neg hdib, if_neg hdib,
        if_neg hkey, hs.after]
      by_cases hlt : (map.buckets i).dib < entry.dib
      · -- The walk goes on with the entry of the bucket.
        rw [if_pos hlt, if_pos hlt]
        have hlt' : (map.slots i).dib < entry.dib.toNat := UInt16.lt_iff_toNat_lt.mp hlt
        have hswap := h.swap hi hfull hlt'
        have hcarried : (map.store i entry).Carried K (walk map.nbuckets i 1)
            { map.buckets i with dib := (map.buckets i).dib + 1 } := by
          rw [Carried, slots_store]
          show Carries _ _ _ _ _ ((map.buckets i).dib + 1).toNat _
          rw [toNat_dib_succ (Nat.lt_of_le_of_lt hlt' entry.dib.toNat_lt)]
          exact hswap
        have hsize' : (map.store i entry).size = map.size := by
          rw [size, slots_store]
          exact size_update_full hfull h.pos
        have hempty' : ¬ ((map.store i entry).slots
            (walk map.nbuckets (walk map.nbuckets i 1) t)).Full := by
          have hne : walk map.nbuckets (walk map.nbuckets i 1) t ≠ i := fun e =>
            hempty (by rw [e]; exact hfull)
          rw [slots_store, Function.update_of_ne hne]
          exact hempty
        obtain ⟨B, hre, hset, hadded⟩ := ih (hs.store i entry) hcarried hnext (hsize' ▸ hsize)
          hempty' hfuel
        rw [slots_store] at hadded
        exact ⟨B, hre, hset, h.added_of_swap hi hfull hadded⟩
      · rw [if_neg hlt, if_neg hlt]
        have hle : entry.dib.toNat ≤ (map.slots i).dib :=
          Nat.le_of_not_lt fun hlt' => hlt (UInt16.lt_iff_toNat_lt.mpr hlt')
        have hpass := h.pass hi hle
        have hbound := hpass.dib_le hex hnext
        have hcarried : map.Carried K (walk map.nbuckets i 1) { entry with dib := entry.dib + 1 } := by
          show Carries _ _ _ _ _ (entry.dib + 1).toNat _
          rw [toNat_dib_succ (Nat.lt_of_le_of_lt hbound hsize)]
          exact hpass
        exact ih hs hcarried hnext hsize hempty hfuel
    · exact hplace hs h hi hfull

/-! ## The search -/

/-- A bucket with this hash and an item that compares as equal has the key. -/
theorem Hashed.match_iff (hh : map.Hashed K) (hi : i < map.nbuckets) (hfull : (map.slots i).Full) :
    ((map.buckets i).hash = getHash K.toCallbacks map item ∧
      K.compare item (map.buckets i).item = 0) ↔ K.key (map.buckets i).item = K.key item := by
  rw [K.compare_iff]
  refine ⟨fun h => h.2.symm, fun h => ⟨?_, h.symm⟩⟩
  rw [show (map.buckets i).hash = getHash K.toCallbacks map (map.buckets i).item from
    hh _ ⟨i, hi, hfull, rfl⟩, getHash, getHash, K.hash_eq _ _ _ _ h]

/-- The bucket `t` places after the home of the item. -/
def probe (K : Keyed α κ) (map : Hashmap α) (item : α) (t : Nat) : Nat :=
  walk map.nbuckets ((getHash K.toCallbacks map item).toNat % map.nbuckets) t

/-- Where an item with the key is. -/
theorem Robin.probe_eq (hT : map.Robin K) (hh : map.Hashed K) (hi : i < map.nbuckets)
    (hfull : (map.slots i).Full) (hkey : K.key (map.buckets i).item = K.key item) :
    i = map.probe K item ((map.slots i).dib - 1) ∧
      ∀ t < (map.slots i).dib, t + 1 ≤ (map.slots (map.probe K item t)).dib := by
  have hhome : homeOf map.nbuckets (map.slots i).entry =
      (getHash K.toCallbacks map item).toNat % map.nbuckets := by
    have hhash : (map.buckets i).hash = getHash K.toCallbacks map (map.buckets i).item :=
      hh _ ⟨i, hi, hfull, rfl⟩
    show (map.buckets i).hash.toNat % map.nbuckets = _
    rw [hhash, getHash, getHash, K.hash_eq _ _ _ _ hkey]
  constructor
  · have hplace := hT.ordered.home i hi hfull
    rwa [hhome] at hplace
  · intro t ht
    have hreach := hT.ordered.reach hi hfull ht
    rwa [hhome] at hreach

/-- **A key that is in the map is found.** -/
theorem find_some (hs : map.Shape) (hT : map.Robin K) (hh : map.Hashed K) (hi : i < map.nbuckets)
    (hfull : (map.slots i).Full) (hkey : K.key (map.buckets i).item = K.key item)
    (hfuel : (map.slots i).dib ≤ fuel) : find K.toCallbacks fuel map item = .ok (some i) := by
  obtain ⟨hplace, hreach⟩ := hT.probe_eq hh hi hfull hkey
  have hpos := Nat.pos_of_ne_zero hfull
  -- Backwards, from the bucket of the key.
  have hloop : ∀ k fuel t, t + k + 1 = (map.slots i).dib → k < fuel →
      findLoop K.toCallbacks map (getHash K.toCallbacks map item) item fuel (map.probe K item t) =
        .ok (some i) := by
    intro k
    induction k with
    | zero =>
      intro fuel t ht hk
      obtain ⟨fuel, rfl⟩ : ∃ k, fuel = k + 1 := ⟨fuel - 1, by omega⟩
      rw [show t = (map.slots i).dib - 1 by omega, ← hplace, findLoop, hs.bucketAt hi, Exec.ok_bind,
        if_neg fun e => dib_eq_zero_iff.mp e hfull, if_pos ((hh.match_iff hi hfull).mpr hkey)]
    | succ k ih =>
      intro fuel t ht hk
      obtain ⟨fuel, rfl⟩ : ∃ k, fuel = k + 1 := ⟨fuel - 1, by omega⟩
      have hlt : map.probe K item t < map.nbuckets := walk_lt hs.pos
      have hpath : (map.slots (map.probe K item t)).Full := fun e => by
        have := hreach t (by omega)
        omega
      rw [findLoop, hs.bucketAt hlt, Exec.ok_bind, if_neg fun e => dib_eq_zero_iff.mp e hpath]
      by_cases hmatch : K.key (map.buckets (map.probe K item t)).item = K.key item
      · rw [if_pos ((hh.match_iff hlt hpath).mpr hmatch)]
        rw [hT.distinct _ hlt _ hi hpath hfull (hmatch.trans hkey.symm)]
      · rw [if_neg fun e => hmatch ((hh.match_iff hlt hpath).mp e), hs.after, probe, walk_walk]
        exact ih fuel (t + 1) (by omega) (by omega)
  have hstart := hloop ((map.slots i).dib - 1) fuel 0 (by omega) (by omega)
  rw [probe, walk_zero (Nat.mod_lt _ hs.pos)] at hstart
  rw [find, hs.and_mask]
  exact hstart

/-- **A key that is not in the map is not found.** -/
theorem find_none (hs : map.Shape) (hh : map.Hashed K)
    (hno : ∀ i < map.nbuckets, (map.slots i).Full → K.key (map.buckets i).item ≠ K.key item)
    (hempty : ∃ z < map.nbuckets, ¬ (map.slots z).Full) (hfuel : map.nbuckets ≤ fuel) :
    find K.toCallbacks fuel map item = .ok none := by
  obtain ⟨z, hz, hzero⟩ := hempty
  obtain ⟨t, ht, rfl⟩ := exists_walk (Nat.mod_lt (getHash K.toCallbacks map item).toNat hs.pos) hz
  have hloop : ∀ t fuel i, i < map.nbuckets → ¬ (map.slots (walk map.nbuckets i t)).Full → t < fuel →
      findLoop K.toCallbacks map (getHash K.toCallbacks map item) item fuel i = .ok none := by
    intro t
    induction t with
    | zero =>
      intro fuel i hi hempty ht
      obtain ⟨fuel, rfl⟩ : ∃ k, fuel = k + 1 := ⟨fuel - 1, by omega⟩
      rw [walk_zero hi] at hempty
      rw [findLoop, hs.bucketAt hi, Exec.ok_bind, if_pos (dib_eq_zero_iff.mpr hempty)]
    | succ t ih =>
      intro fuel i hi hempty ht
      obtain ⟨fuel, rfl⟩ : ∃ k, fuel = k + 1 := ⟨fuel - 1, by omega⟩
      rw [findLoop, hs.bucketAt hi, Exec.ok_bind]
      by_cases hfull : (map.slots i).Full
      · rw [if_neg fun e => dib_eq_zero_iff.mp e hfull,
          if_neg fun e => hno i hi hfull ((hh.match_iff hi hfull).mp e), hs.after]
        rw [Nat.add_comm t 1, ← walk_walk] at hempty
        exact ih fuel _ (walk_lt hs.pos) hempty (Nat.lt_of_succ_lt_succ ht)
      · rw [if_pos (dib_eq_zero_iff.mpr hfull)]
  rw [find, hs.and_mask]
  exact hloop t fuel _ (Nat.mod_lt _ hs.pos) hzero (Nat.lt_of_lt_of_le ht hfuel)

/-- **A key that is in the map is replaced**: `hashmap_set` meets it before it would put its entry
down. -/
theorem setLoop_of_found (hs : map.Shape) (hT : map.Robin K) (hh : map.Hashed K)
    (hi : i < map.nbuckets) (hfull : (map.slots i).Full)
    (hkey : K.key (map.buckets i).item = K.key item) (hfuel : (map.slots i).dib ≤ fuel) :
    setLoop K.toCallbacks fuel map { hash := getHash K.toCallbacks map item, dib := 1, item }
        ((getHash K.toCallbacks map item).toNat &&& map.mask) =
      .ok (some (map.buckets i).item, map.store i { map.buckets i with item }) := by
  obtain ⟨hplace, hreach⟩ := hT.probe_eq hh hi hfull hkey
  have hpos := Nat.pos_of_ne_zero hfull
  have hloop : ∀ k fuel t (d : UInt16), t + k + 1 = (map.slots i).dib → k < fuel → d.toNat = t + 1 →
      setLoop K.toCallbacks fuel map { hash := getHash K.toCallbacks map item, dib := d, item }
        (map.probe K item t) =
        .ok (some (map.buckets i).item, map.store i { map.buckets i with item }) := by
    intro k
    induction k with
    | zero =>
      intro fuel t d ht hk _
      obtain ⟨fuel, rfl⟩ : ∃ k, fuel = k + 1 := ⟨fuel - 1, by omega⟩
      have hmatch := (hh.match_iff hi hfull).mpr hkey
      rw [show t = (map.slots i).dib - 1 by omega, ← hplace, setLoop, hs.bucketAt hi, Exec.ok_bind,
        if_neg fun e => dib_eq_zero_iff.mp e hfull, if_pos ⟨hmatch.1.symm, hmatch.2⟩]
    | succ k ih =>
      intro fuel t d ht hk hd
      obtain ⟨fuel, rfl⟩ : ∃ k, fuel = k + 1 := ⟨fuel - 1, by omega⟩
      have hlt : map.probe K item t < map.nbuckets := walk_lt hs.pos
      have hdib := hreach t (by omega)
      have hpath : (map.slots (map.probe K item t)).Full := fun e => by omega
      rw [setLoop, hs.bucketAt hlt, Exec.ok_bind, if_neg fun e => dib_eq_zero_iff.mp e hpath]
      by_cases hmatch : K.key (map.buckets (map.probe K item t)).item = K.key item
      · have hboth := (hh.match_iff hlt hpath).mpr hmatch
        rw [if_pos ⟨hboth.1.symm, hboth.2⟩]
        rw [hT.distinct _ hlt _ hi hpath hfull (hmatch.trans hkey.symm)]
      · -- The bucket is at least as far from home as the entry: no swap.
        have hfar : ¬ (map.buckets (map.probe K item t)).dib < d := fun hlt =>
          Nat.not_le_of_lt (UInt16.lt_iff_toNat_lt.mp hlt) (hd ▸ hdib)
        have hd' : (d + 1).toNat = t + 1 + 1 := by
          have hbound := (map.buckets i).dib.toNat_lt
          have hslot : (map.slots i).dib = (map.buckets i).dib.toNat := rfl
          rw [toNat_dib_succ (by omega), hd]
        rw [if_neg fun e => hmatch ((hh.match_iff hlt hpath).mp ⟨e.1.symm, e.2⟩), if_neg hfar,
          hs.after, probe, walk_walk]
        exact ih fuel (t + 1) (d + 1) (by omega) (by omega) hd'
  have hstart := hloop ((map.slots i).dib - 1) fuel 0 1 (by omega) (by omega) rfl
  rw [probe, walk_zero (Nat.mod_lt _ hs.pos)] at hstart
  rw [hs.and_mask]
  exact hstart

/-! ## An item that is removed -/

/-- The buckets, with the one at `prev` empty. -/
def opened (map : Hashmap α) (prev : Nat) : Nat → Slot (UInt64 × α) :=
  Function.update map.slots prev (map.slots prev).clear

theorem slots_empty (map : Hashmap α) (i : Nat) :
    (map.store i { map.buckets i with dib := 0 }).slots = map.opened i := slots_store _ _ _

/-- **The loop of `hashmap_delete`** closes the hole. The bucket `prev` may still have the entry that
was moved from it. -/
theorem shiftLoop_table (hs : map.Shape) {prev : Nat}
    (h : Hole map.nbuckets (homeOf map.nbuckets) (fun e => K.key e.2) (map.opened prev) prev)
    (hprev : prev < map.nbuckets) (ht : 1 ≤ t) (htn : t < map.nbuckets)
    (hstop : (map.slots (walk map.nbuckets prev t)).dib ≤ 1) (hfuel : t ≤ fuel) :
    ∃ B, shiftLoop fuel map prev = .ok { map with buckets := B } ∧
      { map with buckets := B }.Robin K ∧ { map with buckets := B }.size =
        RobinHood.size map.nbuckets (map.opened prev) ∧
      ∀ e, Has map.nbuckets { map with buckets := B }.slots e ↔
        Has map.nbuckets (map.opened prev) e := by
  induction fuel generalizing map prev t with
  | zero => omega
  | succ fuel ih =>
    have hn : 1 < map.nbuckets := Nat.lt_of_le_of_lt ht htn
    have hnext : walk map.nbuckets prev 1 < map.nbuckets := walk_lt hs.pos
    have hne : walk map.nbuckets prev 1 ≠ prev := fun e => by
      have := walk_inj hn hs.pos (e.trans (walk_zero hprev).symm)
      omega
    have hkeep : map.opened prev (walk map.nbuckets prev 1) = map.slots (walk map.nbuckets prev 1) :=
      Function.update_of_ne hne _ _
    rw [shiftLoop, hs.after, hs.bucketAt hnext, Exec.ok_bind]
    by_cases hle : (map.buckets (walk map.nbuckets prev 1)).dib ≤ 1
    · rw [if_pos hle]
      refine ⟨(map.store prev { map.buckets prev with dib := 0 }).buckets, rfl, ?_⟩
      have hslots : { map with buckets := (map.store prev { map.buckets prev with dib := 0 }).buckets
          }.slots = map.opened prev := slots_empty map prev
      rw [Robin, size, hslots]
      exact ⟨h.close (by rw [hkeep]; exact UInt16.le_iff_toNat_le.mp hle), rfl, fun _ => Iff.rfl⟩
    · rw [if_neg hle]
      have hlt : 1 < (map.slots (walk map.nbuckets prev 1)).dib :=
        Nat.lt_of_not_le fun e => hle (UInt16.le_iff_toNat_le.mpr e)
      have hlt' : 1 < (map.opened prev (walk map.nbuckets prev 1)).dib := hkeep ▸ hlt
      have hhole := h.shift hprev hlt'
      have hhas := fun e => h.has_shift (e := e) hprev hlt'
      have hsize := h.size_shift hprev hlt'
      -- The stop is not the bucket that moves.
      obtain ⟨t, rfl⟩ : ∃ k, t = k + 1 := ⟨t - 1, by omega⟩
      have ht : 1 ≤ t := by
        by_contra hzero
        rw [show t = 0 by omega, Nat.zero_add] at hstop
        omega
      have hne' : walk map.nbuckets prev (t + 1) ≠ prev := fun e => by
        have := walk_inj htn hs.pos (e.trans (walk_zero hprev).symm)
        omega
      rw [Nat.add_comm t 1, ← walk_walk] at hstop hne'
      generalize walk map.nbuckets prev 1 = k at *
      have hone : (1 : UInt16) ≤ (map.buckets k).dib := UInt16.le_iff_toNat_le.mpr hlt.le
      let map' := map.store prev { map.buckets k with dib := (map.buckets k).dib - 1 }
      have hslots : map'.slots = Function.update map.slots prev
          ⟨(map.slots k).dib - 1, (map.slots k).entry⟩ := by
        rw [slots_store, Bucket.slot, UInt16.toNat_sub_of_le _ _ hone]
        rfl
      have hopened : map'.opened k = Function.update (Function.update (map.opened prev) prev
          ⟨(map.opened prev k).dib - 1, (map.opened prev k).entry⟩) k (map.opened prev k).clear := by
        rw [opened, hslots, Function.update_of_ne hne, hkeep, opened, Function.update_idem]
      rw [← hopened] at hhole hhas hsize
      have hstop' : (map'.slots (walk map'.nbuckets k t)).dib ≤ 1 := by
        rw [hslots]
        exact (congrArg Slot.dib (Function.update_of_ne hne' _ _)).trans_le hstop
      obtain ⟨B, hB, hT, hsizeB, hhasB⟩ := ih (hs.store _ _) hhole hnext ht (Nat.lt_of_succ_lt htn)
        hstop' (by omega)
      exact ⟨B, hB, hT, hsizeB.trans hsize, fun e => (hhasB e).trans (hhas e)⟩

end Hashmap

end Cnpv
