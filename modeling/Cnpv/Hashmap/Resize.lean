import Cnpv.Hashmap.Probe

/-!
# A hash map that changes its size

`hashmap_new` takes the next power of two (`roundCap_ok`). `resize` puts the items into the buckets
of a new map one after the other, without a look at their keys, which are distinct already
(`resize_some`).
-/

namespace Cnpv

open CLib CLib.RobinHood

/-- The capacity of a new map. -/
theorem roundCap_ok {cap : Nat} (h : cap ≤ 2 ^ 30) :
    ∃ k, 4 ≤ k ∧ k ≤ 30 ∧ roundCap cap = .ok (2 ^ k) ∧ cap ≤ 2 ^ k ∧ (2 ^ k = 16 ∨ 2 ^ k < 2 * cap) := by
  rw [roundCap]
  split
  · next hlt => exact ⟨4, Nat.le_refl 4, by omega, rfl, by omega, .inl rfl⟩
  · next hge =>
    -- `k` doublings are left.
    have hstep : ∀ k s, (∃ a, 4 ≤ a ∧ a + k = 30 ∧ s = 2 ^ a ∧ (s = 16 ∨ s < 2 * cap)) →
        decide (s < cap) = true → ∃ s', (Except.ok (s * 2) : Exec Nat) = .ok s' ∧
          ∃ k' < k, ∃ a, 4 ≤ a ∧ a + k' = 30 ∧ s' = 2 ^ a ∧ (s' = 16 ∨ s' < 2 * cap) := by
      rintro k s ⟨a, ha, hk, rfl, -⟩ hlt
      have hlt : 2 ^ a < cap := of_decide_eq_true hlt
      have ha30 : a < 30 := by
        by_contra hge
        have := Nat.pow_le_pow_right Nat.zero_lt_two (Nat.le_of_not_lt hge)
        omega
      refine ⟨_, rfl, k - 1, by omega, a + 1, by omega, by omega, (Nat.pow_succ 2 a).symm, .inr ?_⟩
      omega
    obtain ⟨r, hr, ⟨k, a, ha, hk, rfl, hbound⟩, hend⟩ := whileLoop_total
      (fun k s => ∃ a, 4 ≤ a ∧ a + k = 30 ∧ s = 2 ^ a ∧ (s = 16 ∨ s < 2 * cap)) hstep 27 26 16
      ⟨4, Nat.le_refl 4, rfl, rfl, .inl rfl⟩ (Nat.lt_succ_self 26)
    exact ⟨a, ha, by omega, hr, Nat.le_of_not_lt (of_decide_eq_false hend), hbound⟩

/-- A power of two is kept. -/
theorem roundCap_pow {k : Nat} (hk : 4 ≤ k) (hk' : k ≤ 30) : roundCap (2 ^ k) = .ok (2 ^ k) := by
  have hle := Nat.pow_le_pow_right Nat.zero_lt_two hk'
  obtain ⟨a, -, -, hr, hge, hlt⟩ := roundCap_ok hle
  have hka : k ≤ a := (Nat.pow_le_pow_iff_right (Nat.lt_succ_self 1)).mp hge
  have hak : a ≤ k := by
    rcases hlt with h16 | hlt
    · have ha : a = 4 := Nat.pow_right_injective (Nat.le_refl 2) h16
      omega
    · rw [← Nat.pow_succ', Nat.pow_lt_pow_iff_right (Nat.lt_succ_self 1)] at hlt
      omega
  rw [hr, Nat.le_antisymm hka hak]

namespace Hashmap

variable {α κ : Type} {K : Keyed α κ} {map map2 : Hashmap α} {fuel i k m : Nat} {seed0 seed1 : UInt64}

/-- A new map. -/
def fresh (cb : Callbacks α) (cap : Nat) (seed0 seed1 : UInt64) : Hashmap α where
  cap := cap
  seed0 := seed0
  seed1 := seed1
  nbuckets := cap
  mask := cap - 1
  growat := cap * 3 / 4
  shrinkat := cap / 10
  buckets := fun _ => zeroBucket cb
  room := cap

theorem hashmapNew_ok {cap : Nat} {cb : Callbacks α} (h : roundCap cap = .ok (2 ^ k)) :
    hashmapNew cb true cap seed0 seed1 = .ok (some (fresh cb (2 ^ k) seed0 seed1)) := by
  rw [hashmapNew, h]
  rfl

theorem shape_fresh (cb : Callbacks α) (hk : 4 ≤ k) (hk' : k ≤ 30) (seed0 seed1 : UInt64) :
    (fresh cb (2 ^ k) seed0 seed1).Shape :=
  ⟨⟨k, hk, hk', rfl⟩, rfl, rfl, rfl, Nat.le_refl _⟩

theorem not_full_zero (cb : Callbacks α) : ¬ (zeroBucket cb).slot.Full := fun h => h rfl

/-- What the map of `resize` has after the first `m` buckets. -/
structure Rehashed (K : Keyed α κ) (map map2 : Hashmap α) (m : Nat) : Prop where
  shape : map2.Shape
  robin : map2.Robin K
  size : map2.size = RobinHood.size m map.slots
  has : ∀ e, Has map2.nbuckets map2.slots e ↔ Has m map.slots e

/-- One bucket. -/
theorem Rehashed.step (h : Rehashed K map map2 m) (hs : map.Shape) (hT : map.Robin K)
    (hm : m < map.nbuckets) (hsize : map.size < 2 ^ 16) (hroom : map.size < map2.nbuckets)
    (hfuel : map2.nbuckets ≤ fuel) :
    ∃ B, rehash fuel map map2 m = .ok { map2 with buckets := B } ∧
      Rehashed K map { map2 with buckets := B } (m + 1) := by
  rw [rehash, hs.bucketAt hm, Exec.ok_bind]
  by_cases hfull : (map.slots m).Full
  · rw [if_neg fun e => dib_eq_zero_iff.mp e hfull, h.shape.and_mask]
    have hle : RobinHood.size (m + 1) map.slots ≤ map.size := size_mono hm
    rw [size_succ, if_pos hfull, ← h.size] at hle
    obtain ⟨z, hz, hempty⟩ := exists_empty (n := map2.nbuckets) (T := map2.slots)
      (show map2.size < _ by omega)
    have hhome : homeOf map2.nbuckets (map.slots m).entry < map2.nbuckets :=
      Nat.mod_lt _ h.shape.pos
    obtain ⟨t, ht, rfl⟩ := exists_walk hhome hz
    have hfresh : ∀ j < map2.nbuckets, (map2.slots j).Full →
        K.key (map2.slots j).entry.2 ≠ K.key (map.slots m).entry.2 := by
      intro j hj hjfull hkey
      obtain ⟨i, hi, hifull, he⟩ := (h.has _).mp ⟨j, hj, hjfull, rfl⟩
      rw [← he] at hkey
      exact Nat.ne_of_lt hi (hT.distinct i (hi.trans hm) m hm hifull hfull hkey)
    have hcarried : map2.Carried K (homeOf map2.nbuckets (map.slots m).entry)
        { map.buckets m with dib := 1 } := carries_home h.robin hhome hfresh
    obtain ⟨B, hB, -, hadded⟩ := loops_added h.shape hcarried hhome (by omega) hempty
      (Nat.lt_of_lt_of_le ht hfuel)
    refine ⟨B, hB, ?_⟩
    exact {
      shape := ⟨h.shape.pow, h.shape.mask, h.shape.growat, h.shape.shrinkat, h.shape.room⟩
      robin := hadded.table
      size := by
        rw [size_succ, if_pos hfull, ← h.size]
        exact hadded.size
      has := fun e => by
        rw [has_succ, ← h.has e]
        refine (hadded.has e).trans (or_comm.trans (or_congr_right ?_))
        exact ⟨fun he => ⟨hfull, he⟩, fun he => he.2⟩ }
  · rw [if_pos (dib_eq_zero_iff.mpr hfull)]
    refine ⟨map2.buckets, rfl, ?_⟩
    exact {
      shape := h.shape
      robin := h.robin
      size := by
        rw [size_succ, if_neg hfull]
        exact h.size
      has := fun e => by
        rw [has_succ]
        exact (h.has e).trans ⟨.inl, fun he => he.elim id fun he => absurd he.1 hfull⟩ }

/-- **`resize`** keeps the items. -/
theorem resize_some (hs : map.Shape) (hT : map.Robin K) (hsize : map.size < 2 ^ 16) (hk : 4 ≤ k)
    (hk' : k ≤ 30) (hroom : map.size < 2 ^ k) (hfuel : 2 ^ k ≤ fuel) :
    ∃ B, resize K.toCallbacks fuel true map (2 ^ k) = .ok (some { map with
        buckets := B, room := 2 ^ k, nbuckets := 2 ^ k, mask := 2 ^ k - 1, growat := 2 ^ k * 3 / 4,
        shrinkat := 2 ^ k / 10 }) ∧
      Rehashed K map { map with
        buckets := B, room := 2 ^ k, nbuckets := 2 ^ k, mask := 2 ^ k - 1, growat := 2 ^ k * 3 / 4,
        shrinkat := 2 ^ k / 10 } map.nbuckets := by
  have hempty : ∀ i < 2 ^ k, ¬ ((fresh K.toCallbacks (2 ^ k) map.seed1 map.seed1).slots i).Full :=
    fun _ _ => not_full_zero _
  have hstart : Rehashed K map (fresh K.toCallbacks (2 ^ k) map.seed1 map.seed1) 0 := {
    shape := shape_fresh _ hk hk' _ _
    robin := table_empty hempty
    size := size_empty hempty
    has := fun e => iff_of_false (fun ⟨i, hi, hfull, _⟩ => hempty i hi hfull)
      fun ⟨i, hi, _⟩ => Nat.not_lt_zero i hi }
  have hrun : ∀ m ≤ map.nbuckets, ∃ B,
      runFrom (rehash fuel map) (fresh K.toCallbacks (2 ^ k) map.seed1 map.seed1) (List.range m) =
        .ok { fresh K.toCallbacks (2 ^ k) map.seed1 map.seed1 with buckets := B } ∧
      Rehashed K map { fresh K.toCallbacks (2 ^ k) map.seed1 map.seed1 with buckets := B } m := by
    intro m
    induction m with
    | zero => exact fun _ => ⟨_, rfl, hstart⟩
    | succ m ih =>
      intro hm
      obtain ⟨B, hB, h⟩ := ih (Nat.le_of_succ_le hm)
      obtain ⟨B', hB', h'⟩ := h.step hs hT hm hsize hroom hfuel
      refine ⟨B', ?_, h'⟩
      rw [List.range_succ, runFrom_append, hB, Exec.ok_bind, runFrom_cons, hB']
      rfl
  obtain ⟨B, hB, h⟩ := hrun map.nbuckets (Nat.le_refl _)
  refine ⟨B, ?_, ?_⟩
  · rw [resize, hashmapNew_ok (roundCap_pow hk hk'), Exec.ok_bind, Option.elim_some, hB]
    rfl
  · exact ⟨⟨⟨k, hk, hk', rfl⟩, rfl, rfl, rfl, Nat.le_refl _⟩, h.robin, h.size, h.has⟩

theorem resize_none (hk : 4 ≤ k) (hk' : k ≤ 30) :
    resize K.toCallbacks fuel false map (2 ^ k) = .ok none := by
  rw [resize, hashmapNew, roundCap_pow hk hk']
  rfl

end Hashmap

end Cnpv
