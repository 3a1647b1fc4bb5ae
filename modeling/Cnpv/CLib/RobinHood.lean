import Mathlib.Data.Finset.Card
import Mathlib.Data.Nat.ModEq
import Mathlib.Logic.Function.Basic

/-!
# Robin Hood tables

A table of `n` slots in a ring. Each entry has a home slot, and is in the first slots after it: its
`dib` (distance to its initial bucket, from 1) is the number of slots from its home to its place. The
walk from a home meets entries with ever larger `dib`s, or leaves them where they are:

* `Table.Ordered`: `dib` grows by at most one from a slot to the next, so that there is no empty slot
  between an entry and its home (`Ordered.reach`), and the `dib` of an entry is at most the number
  of entries (`Ordered.dib_le`).
* `Carries`: a walk that carries an entry to its place. It goes past a slot whose entry is at least
  as far from home (`Carries.pass`), swaps with one that is closer (`Carries.swap`), and ends at an
  empty slot (`Carries.place`).
* `Hole`: the removal of an entry moves the entries after it back by one slot (`Hole.shift`), up to
  one that is at its home or to an empty slot (`Hole.close`).
-/

namespace CLib

/-- A slot; `dib` is 0 if it is empty. -/
structure Slot (ε : Type) where
  dib : Nat
  entry : ε

namespace Slot

variable {ε : Type}

/-- The slot has an entry. -/
def Full (s : Slot ε) : Prop := s.dib ≠ 0

instance (s : Slot ε) : Decidable s.Full := inferInstanceAs (Decidable (_ ≠ _))

/-- The slot emptied. -/
def clear (s : Slot ε) : Slot ε := { s with dib := 0 }

theorem not_full_clear (s : Slot ε) : ¬ s.clear.Full := fun h => h rfl

end Slot

/-! ## The ring -/

/-- The slot `t` places after `h`. -/
def walk (n h t : Nat) : Nat := (h + t) % n

section Walk

variable {n h i j s t : Nat}

theorem walk_lt (hn : 0 < n) : walk n h t < n := Nat.mod_lt _ hn

theorem walk_zero (hi : i < n) : walk n i 0 = i := Nat.mod_eq_of_lt hi

theorem walk_walk (n h s t : Nat) : walk n (walk n h s) t = walk n h (s + t) := by
  rw [walk, walk, Nat.mod_add_mod, Nat.add_assoc, walk]

/-- Two slots with the same next one. -/
theorem walk_one_inj (hi : i < n) (hj : j < n) (h : walk n i 1 = walk n j 1) : i = j :=
  Nat.ModEq.eq_of_lt_of_lt (Nat.ModEq.add_right_cancel' 1 h) hi hj

theorem walk_inj (hs : s < n) (ht : t < n) (e : walk n h s = walk n h t) : s = t :=
  Nat.ModEq.eq_of_lt_of_lt (Nat.ModEq.add_left_cancel' h e) hs ht

theorem walk_self (hi : i < n) : walk n i n = i := by
  rw [walk, Nat.add_mod_right, Nat.mod_eq_of_lt hi]

/-- The slot before `i`. -/
theorem exists_walk_one (hi : i < n) : ∃ j < n, walk n j 1 = i := by
  refine ⟨walk n i (n - 1), walk_lt (Nat.zero_lt_of_lt hi), ?_⟩
  rw [walk_walk, Nat.sub_add_cancel (Nat.zero_lt_of_lt hi), walk_self hi]

/-- Every slot is on the walk from every other one. -/
theorem exists_walk (hi : i < n) (hj : j < n) : ∃ t < n, walk n i t = j := by
  refine ⟨(j + (n - i)) % n, Nat.mod_lt _ (Nat.zero_lt_of_lt hi), ?_⟩
  have hsum : i + (j + (n - i)) = j + n := by omega
  rw [walk, Nat.add_mod_mod, hsum, Nat.add_mod_right, Nat.mod_eq_of_lt hj]

end Walk

namespace RobinHood

variable {ε κ : Type} {n : Nat} {home : ε → Nat} {key : ε → κ} {T : Nat → Slot ε} {s : Slot ε}
  {e e' : ε} {d i j t : Nat}

/-- The table has the entry `e`. -/
def Has (n : Nat) (T : Nat → Slot ε) (e : ε) : Prop := ∃ i < n, (T i).Full ∧ (T i).entry = e

/-- The number of entries. -/
def size (n : Nat) (T : Nat → Slot ε) : Nat := ((Finset.range n).filter fun i => (T i).Full).card

/-- `dib` is the distance from home, and grows by at most one from a slot to the next. -/
structure Ordered (n : Nat) (home : ε → Nat) (T : Nat → Slot ε) : Prop where
  step : ∀ i < n, (T (walk n i 1)).dib ≤ (T i).dib + 1
  home : ∀ i < n, (T i).Full → i = walk n (home (T i).entry) ((T i).dib - 1)

/-- At most one entry has a key. -/
def Distinct (n : Nat) (key : ε → κ) (T : Nat → Slot ε) : Prop :=
  ∀ i < n, ∀ j < n, (T i).Full → (T j).Full → key (T i).entry = key (T j).entry → i = j

/-- The table is ordered, and its keys are distinct. -/
structure Table (n : Nat) (home : ε → Nat) (key : ε → κ) (T : Nat → Slot ε) : Prop where
  ordered : Ordered n home T
  distinct : Distinct n key T

/-! ## Slots that are written -/

theorem update_dib (T : Nat → Slot ε) (i : Nat) (s : Slot ε) (j : Nat) :
    (Function.update T i s j).dib = if j = i then s.dib else (T j).dib := by
  rw [Function.update_apply]
  split <;> rfl

theorem has_update (hi : i < n) (hs : s.Full) :
    Has n (Function.update T i s) e ↔
      s.entry = e ∨ ∃ j < n, j ≠ i ∧ (T j).Full ∧ (T j).entry = e := by
  constructor
  · rintro ⟨j, hj, hfull, he⟩
    by_cases hji : j = i
    · subst hji
      rw [Function.update_self] at he
      exact .inl he
    · rw [Function.update_of_ne hji] at hfull he
      exact .inr ⟨j, hj, hji, hfull, he⟩
  · rintro (he | ⟨j, hj, hji, hfull, he⟩)
    · exact ⟨i, hi, by rwa [Function.update_self], by rwa [Function.update_self]⟩
    · exact ⟨j, hj, by rwa [Function.update_of_ne hji], by rwa [Function.update_of_ne hji]⟩

theorem has_clear : Has n (Function.update T i (T i).clear) e ↔
    ∃ j < n, j ≠ i ∧ (T j).Full ∧ (T j).entry = e := by
  constructor
  · rintro ⟨j, hj, hfull, he⟩
    by_cases hji : j = i
    · subst hji
      rw [Function.update_self] at hfull
      exact absurd hfull (Slot.not_full_clear _)
    · rw [Function.update_of_ne hji] at hfull he
      exact ⟨j, hj, hji, hfull, he⟩
  · rintro ⟨j, hj, hji, hfull, he⟩
    exact ⟨j, hj, by rwa [Function.update_of_ne hji], by rwa [Function.update_of_ne hji]⟩

/-- The entries, once the slot `i` was full and is left out. -/
theorem has_iff (hi : i < n) (hfull : (T i).Full) :
    Has n T e ↔ (T i).entry = e ∨ ∃ j < n, j ≠ i ∧ (T j).Full ∧ (T j).entry = e := by
  rw [← has_update hi hfull, Function.update_eq_self]

theorem size_update_empty (hi : i < n) (hempty : ¬ (T i).Full) (hs : s.Full) :
    size n (Function.update T i s) = size n T + 1 := by
  have hset : (Finset.range n).filter (fun j => (Function.update T i s j).Full) =
      insert i ((Finset.range n).filter fun j => (T j).Full) := by
    ext j
    by_cases hji : j = i
    · subst hji
      simp [hi, hs]
    · simp [hji]
  rw [size, hset, Finset.card_insert_of_notMem (by simp [hempty])]
  rfl

theorem size_update_full (hfull : (T i).Full) (hs : s.Full) :
    size n (Function.update T i s) = size n T := by
  refine congrArg Finset.card (Finset.filter_congr fun j _ => ?_)
  by_cases hji : j = i
  · subst hji
    simp [hs, hfull]
  · simp [hji]

theorem size_clear (hi : i < n) (hfull : (T i).Full) :
    size n (Function.update T i (T i).clear) + 1 = size n T := by
  have hback := size_update_empty (T := Function.update T i (T i).clear) hi
    (by rw [Function.update_self]; exact Slot.not_full_clear _) hfull
  rw [Function.update_idem, Function.update_eq_self] at hback
  exact hback.symm

/-! The entries of the first slots. -/

theorem has_succ (m : Nat) : Has (m + 1) T e ↔ Has m T e ∨ (T m).Full ∧ (T m).entry = e := by
  constructor
  · rintro ⟨i, hi, hfull, he⟩
    rcases Nat.lt_succ_iff_lt_or_eq.mp hi with hlt | rfl
    · exact .inl ⟨i, hlt, hfull, he⟩
    · exact .inr ⟨hfull, he⟩
  · rintro (⟨i, hi, hfull, he⟩ | ⟨hfull, he⟩)
    · exact ⟨i, Nat.lt_succ_of_lt hi, hfull, he⟩
    · exact ⟨m, Nat.lt_succ_self m, hfull, he⟩

theorem size_succ (m : Nat) : size (m + 1) T = size m T + if (T m).Full then 1 else 0 := by
  rw [size, Finset.range_add_one, Finset.filter_insert]
  split
  · rw [Finset.card_insert_of_notMem (by simp)]
    rfl
  · rfl

theorem size_mono {m : Nat} (h : m ≤ n) : size m T ≤ size n T :=
  Finset.card_le_card (Finset.filter_subset_filter _ (Finset.range_subset_range.mpr h))

/-- A table that is not full has an empty slot. -/
theorem exists_empty (h : size n T < n) : ∃ i < n, ¬ (T i).Full := by
  by_contra hall
  have hset : (Finset.range n).filter (fun i => (T i).Full) = Finset.range n :=
    Finset.filter_true_of_mem fun i hi => by_contra fun hne =>
      hall ⟨i, Finset.mem_range.mp hi, hne⟩
  rw [size, hset, Finset.card_range] at h
  exact Nat.lt_irrefl n h

/-! ## Ordered tables -/

/-- On the way from the home of an entry to its place, `dib` is at least the number of slots. -/
theorem Ordered.reach (hT : Ordered n home T) (hi : i < n) (hfull : (T i).Full)
    (ht : t < (T i).dib) : t + 1 ≤ (T (walk n (home (T i).entry) t)).dib := by
  have hn := Nat.zero_lt_of_lt hi
  have hplace := hT.home i hi hfull
  -- Backwards, from the place of the entry.
  have hback : ∀ k < (T i).dib,
      (T i).dib - k ≤ (T (walk n (home (T i).entry) ((T i).dib - 1 - k))).dib := by
    intro k
    induction k with
    | zero =>
      intro _
      rw [Nat.sub_zero, Nat.sub_zero, ← hplace]
    | succ k ih =>
      intro hk
      have hstep := hT.step (walk n (home (T i).entry) ((T i).dib - 1 - (k + 1))) (walk_lt hn)
      rw [walk_walk, show (T i).dib - 1 - (k + 1) + 1 = (T i).dib - 1 - k by omega] at hstep
      have := ih (by omega)
      omega
  have := hback ((T i).dib - 1 - t) (by omega)
  rw [show (T i).dib - 1 - ((T i).dib - 1 - t) = t by omega] at this
  omega

/-- An entry is not more than `n` slots from home. -/
theorem Ordered.dib_lt (hT : Ordered n home T) (hempty : ∃ z < n, ¬ (T z).Full) (hi : i < n)
    (hfull : (T i).Full) : (T i).dib < n := by
  obtain ⟨z, hz, hzero⟩ := hempty
  obtain ⟨t, ht, hwalk⟩ := exists_walk
    (walk_lt (Nat.zero_lt_of_lt hi) (h := home (T i).entry) (t := 0)) hz
  rw [walk_walk, Nat.zero_add] at hwalk
  by_contra hle
  have hreach := hT.reach hi hfull (t := t) (by omega)
  rw [hwalk] at hreach
  exact hzero fun h => by omega

/-- The entries on the way to an entry are all different. -/
theorem Ordered.dib_le (hT : Ordered n home T) (hempty : ∃ z < n, ¬ (T z).Full) (hi : i < n) :
    (T i).dib ≤ size n T := by
  by_cases hfull : (T i).Full
  · have hn := Nat.zero_lt_of_lt hi
    have hlt := hT.dib_lt hempty hi hfull
    have hmaps : ∀ t ∈ Finset.range (T i).dib, walk n (home (T i).entry) t ∈
        (Finset.range n).filter fun j => (T j).Full := by
      intro t ht
      have hreach := hT.reach hi hfull (Finset.mem_range.mp ht)
      exact Finset.mem_filter.mpr ⟨Finset.mem_range.mpr (walk_lt hn), fun h => by omega⟩
    have hinj : ∀ s ∈ Finset.range (T i).dib, ∀ t ∈ Finset.range (T i).dib,
        walk n (home (T i).entry) s = walk n (home (T i).entry) t → s = t := fun s hs t ht e =>
      walk_inj ((Finset.mem_range.mp hs).trans hlt) ((Finset.mem_range.mp ht).trans hlt) e
    have hcard := Finset.card_le_card_of_injOn _ hmaps hinj
    rwa [Finset.card_range] at hcard
  · rw [Slot.Full, not_not] at hfull
    rw [hfull]
    exact Nat.zero_le _

/-- One slot rewritten, with a larger `dib`. -/
theorem Ordered.raise (hT : Ordered n home T) (hle : (T i).dib ≤ s.dib)
    (hhome : i = walk n (home s.entry) (s.dib - 1))
    (hpred : ∀ j < n, walk n j 1 = i → s.dib ≤ (T j).dib + 1) :
    Ordered n home (Function.update T i s) where
  step j hj := by
    have hstep := hT.step j hj
    rw [update_dib, update_dib]
    split_ifs with hnext hji hji
    · omega
    · exact hpred j hj hnext
    · subst hji
      omega
    · exact hstep
  home j hj hfull := by
    by_cases hji : j = i
    · subst hji
      rw [Function.update_self]
      exact hhome
    · rw [Function.update_of_ne hji] at hfull ⊢
      exact hT.home j hj hfull

/-- An entry rewritten in its place. -/
theorem Ordered.replace (hT : Ordered n home T) (hi : i < n) (hfull : (T i).Full)
    (hhome : home e = home (T i).entry) :
    Ordered n home (Function.update T i { T i with entry := e }) :=
  hT.raise (Nat.le_refl _) (by rw [hhome]; exact hT.home i hi hfull)
    (fun j hj hnext => hnext ▸ hT.step j hj)

theorem ordered_empty (hT : ∀ i < n, ¬ (T i).Full) : Ordered n home T where
  step i hi := by
    have hzero : (T (walk n i 1)).dib = 0 := not_not.mp (hT _ (walk_lt (Nat.zero_lt_of_lt hi)))
    rw [hzero]
    exact Nat.zero_le _
  home i hi hfull := absurd hfull (hT i hi)

theorem table_empty (hT : ∀ i < n, ¬ (T i).Full) : Table n home key T :=
  ⟨ordered_empty hT, fun i hi _ _ hfull => absurd hfull (hT i hi)⟩

theorem size_empty (hT : ∀ i < n, ¬ (T i).Full) : size n T = 0 :=
  Finset.card_eq_zero.mpr (Finset.filter_false_of_mem fun i hi => hT i (Finset.mem_range.mp hi))

/-! ## An entry that is inserted -/

/-- A walk carries the entry `e` with distance `d` at the slot `i`; the other entries are the table. -/
structure Carries (n : Nat) (home : ε → Nat) (key : ε → κ) (T : Nat → Slot ε) (i : Nat) (d : Nat)
    (e : ε) : Prop where
  table : Table n home key T
  fresh : ∀ j < n, (T j).Full → key (T j).entry ≠ key e
  pos : d ≠ 0
  place : i = walk n (home e) (d - 1)
  le : ∀ j < n, walk n j 1 = i → d ≤ (T j).dib + 1

/-- A walk starts at the home of its entry. -/
theorem carries_home (hT : Table n home key T) (hhome : home e < n)
    (hfresh : ∀ j < n, (T j).Full → key (T j).entry ≠ key e) :
    Carries n home key T (home e) 1 e where
  table := hT
  fresh := hfresh
  pos := Nat.one_ne_zero
  place := (walk_zero hhome).symm
  le _ _ _ := Nat.le_add_left 1 _

namespace Carries

variable (h : Carries n home key T i d e)

include h

/-- The carried entry is not further from home than there are entries. -/
theorem dib_le (hempty : ∃ z < n, ¬ (T z).Full) (hi : i < n) : d ≤ size n T + 1 := by
  obtain ⟨j, hj, hnext⟩ := exists_walk_one hi
  have hle := h.le j hj hnext
  have hsize := h.table.ordered.dib_le hempty hj
  omega

/-- The slot gets the carried entry, and gives up one that is closer to its home. -/
theorem put (hi : i < n) (hlt : (T i).dib < d) : Table n home key (Function.update T i ⟨d, e⟩) where
  ordered := h.table.ordered.raise (Nat.le_of_lt hlt) h.place h.le
  distinct j hj k hk hjfull hkfull hkey := by
    by_cases hji : j = i <;> by_cases hki : k = i
    · rw [hji, hki]
    · subst hji
      rw [Function.update_of_ne hki] at hkfull hkey
      rw [Function.update_self] at hkey
      exact absurd hkey.symm (h.fresh k hk hkfull)
    · subst hki
      rw [Function.update_of_ne hji] at hjfull hkey
      rw [Function.update_self] at hkey
      exact absurd hkey (h.fresh j hj hjfull)
    · rw [Function.update_of_ne hji] at hjfull hkey
      rw [Function.update_of_ne hki] at hkfull hkey
      exact h.table.distinct j hj k hk hjfull hkfull hkey

/-- The walk goes past an entry that is not closer to its home. -/
theorem pass (hi : i < n) (hle : d ≤ (T i).dib) : Carries n home key T (walk n i 1) (d + 1) e where
  table := h.table
  fresh := h.fresh
  pos := Nat.succ_ne_zero d
  place := by
    have hpos := Nat.pos_of_ne_zero h.pos
    rw [h.place, walk_walk, Nat.add_sub_cancel, Nat.sub_add_cancel hpos]
  le j hj hnext := by
    rw [walk_one_inj hj hi hnext]
    exact Nat.succ_le_succ hle

/-- The walk goes on with the entry that was in the slot. -/
theorem swap (hi : i < n) (hfull : (T i).Full) (hlt : (T i).dib < d) :
    Carries n home key (Function.update T i ⟨d, e⟩) (walk n i 1) ((T i).dib + 1) (T i).entry where
  table := h.put hi hlt
  fresh j hj hjfull := by
    by_cases hji : j = i
    · subst hji
      rw [Function.update_self]
      exact (h.fresh j hj hfull).symm
    · rw [Function.update_of_ne hji] at hjfull ⊢
      exact fun hkey => hji (h.table.distinct j hj i hi hjfull hfull hkey)
  pos := Nat.succ_ne_zero _
  place := by
    have hpos := Nat.pos_of_ne_zero hfull
    conv_lhs => rw [h.table.ordered.home i hi hfull]
    rw [walk_walk, Nat.add_sub_cancel, Nat.sub_add_cancel hpos]
  le j hj hnext := by
    rw [walk_one_inj hj hi hnext, Function.update_self]
    exact Nat.succ_le_succ (Nat.le_of_lt hlt)

/-- With the carried entry in an empty slot, the table has it and the entries from before. -/
theorem has_place (hi : i < n) (hempty : ¬ (T i).Full) :
    Has n (Function.update T i ⟨d, e⟩) e' ↔ e = e' ∨ Has n T e' := by
  have hcarried : (⟨d, e⟩ : Slot ε).Full := h.pos
  rw [has_update hi hcarried]
  refine or_congr Iff.rfl ⟨?_, ?_⟩
  · rintro ⟨j, hj, -, hfull, he⟩
    exact ⟨j, hj, hfull, he⟩
  · rintro ⟨j, hj, hfull, he⟩
    exact ⟨j, hj, fun hji => hempty (hji ▸ hfull), hfull, he⟩

/-- A swap keeps the entries, with the carried one. -/
theorem has_swap (hi : i < n) (hfull : (T i).Full) :
    ((T i).entry = e' ∨ Has n (Function.update T i ⟨d, e⟩) e') ↔ (e = e' ∨ Has n T e') := by
  have hcarried : (⟨d, e⟩ : Slot ε).Full := h.pos
  rw [has_update hi hcarried, has_iff hi hfull]
  exact or_left_comm

end Carries

/-- The table `T'` is `T` with the entry `e`. -/
structure Added (n : Nat) (home : ε → Nat) (key : ε → κ) (T : Nat → Slot ε) (e : ε)
    (T' : Nat → Slot ε) : Prop where
  table : Table n home key T'
  size : size n T' = size n T + 1
  has : ∀ e', Has n T' e' ↔ e = e' ∨ Has n T e'

/-- The walk ends at an empty slot. -/
theorem Carries.added (h : Carries n home key T i d e) (hi : i < n) (hempty : ¬ (T i).Full) :
    Added n home key T e (Function.update T i ⟨d, e⟩) where
  table := h.put hi (by rw [not_not.mp hempty]; exact Nat.pos_of_ne_zero h.pos)
  size := size_update_empty hi hempty h.pos
  has _ := h.has_place hi hempty

/-- The walk after a swap adds the carried entry. -/
theorem Carries.added_of_swap {T' : Nat → Slot ε} (h : Carries n home key T i d e) (hi : i < n)
    (hfull : (T i).Full) (ha : Added n home key (Function.update T i ⟨d, e⟩) (T i).entry T') :
    Added n home key T e T' where
  table := ha.table
  size := by
    have hcarried : (⟨d, e⟩ : Slot ε).Full := h.pos
    rw [ha.size, size_update_full hfull hcarried]
  has e' := (ha.has e').trans (h.has_swap hi hfull)

/-! ## An entry that is removed -/

/-- The slot `i` is empty, and the entry after it may have to move to it. -/
structure Hole (n : Nat) (home : ε → Nat) (key : ε → κ) (T : Nat → Slot ε) (i : Nat) : Prop where
  step : ∀ j < n, j ≠ i → (T (walk n j 1)).dib ≤ (T j).dib + 1
  home : ∀ j < n, (T j).Full → j = walk n (home (T j).entry) ((T j).dib - 1)
  distinct : Distinct n key T
  empty : ¬ (T i).Full
  next : ∀ j < n, walk n j 1 = i → (T (walk n i 1)).dib ≤ (T j).dib + 2

/-- The removal of an entry. -/
theorem Table.hole (hT : Table n home key T) (hi : i < n) (hn : 1 < n) :
    Hole n home key (Function.update T i (T i).clear) i where
  step j hj hji := by
    rw [update_dib, update_dib, if_neg hji]
    split
    · exact Nat.zero_le _
    · exact hT.ordered.step j hj
  home j hj hfull := by
    by_cases hji : j = i
    · subst hji
      rw [Function.update_self] at hfull
      exact absurd hfull (Slot.not_full_clear _)
    · rw [Function.update_of_ne hji] at hfull ⊢
      exact hT.ordered.home j hj hfull
  distinct j hj k hk hjfull hkfull hkey := by
    have hne : ∀ m, (Function.update T i (T i).clear m).Full → m ≠ i := by
      rintro m hm rfl
      rw [Function.update_self] at hm
      exact Slot.not_full_clear _ hm
    have hji := hne j hjfull
    have hki := hne k hkfull
    rw [Function.update_of_ne hji] at hjfull hkey
    rw [Function.update_of_ne hki] at hkfull hkey
    exact hT.distinct j hj k hk hjfull hkfull hkey
  empty := by
    rw [Function.update_self]
    exact Slot.not_full_clear _
  next j hj hnext := by
    have hji : j ≠ i := by
      rintro rfl
      have hone := walk_inj (h := j) (Nat.zero_lt_of_lt hn) hn
        ((walk_zero hj).trans hnext.symm)
      cases hone
    have h₁ := hT.ordered.step j hj
    have h₂ := hT.ordered.step i hi
    rw [hnext] at h₁
    rw [update_dib, update_dib, if_neg hji]
    split
    · exact Nat.zero_le _
    · omega

namespace Hole

variable (h : Hole n home key T i)

include h

/-- Nothing has to move to the hole. -/
theorem close (hle : (T (walk n i 1)).dib ≤ 1) : Table n home key T where
  ordered := {
    step := fun j hj => by
      by_cases hji : j = i
      · rw [hji]
        exact hle.trans (Nat.le_add_left 1 _)
      · exact h.step j hj hji
    home := h.home }
  distinct := h.distinct

/-- The entry after the hole moves to it, and leaves a hole. -/
theorem shift (hi : i < n) (hlt : 1 < (T (walk n i 1)).dib) :
    Hole n home key (Function.update (Function.update T i
      ⟨(T (walk n i 1)).dib - 1, (T (walk n i 1)).entry⟩) (walk n i 1) (T (walk n i 1)).clear)
      (walk n i 1) := by
  have hn := Nat.zero_lt_of_lt hi
  have hfull : (T (walk n i 1)).Full := fun e => by omega
  have hne : walk n i 1 ≠ i := fun e => h.empty (e ▸ hfull)
  generalize hk : walk n i 1 = k at *
  have hkn : k < n := hk ▸ walk_lt hn
  have hmoved : ∀ m, (Function.update (Function.update T i ⟨(T k).dib - 1, (T k).entry⟩) k
      (T k).clear m).dib = if m = k then 0 else if m = i then (T k).dib - 1 else (T m).dib := by
    intro m
    rw [update_dib, update_dib]
    rfl
  -- The entry in a slot is the one that was there, or the one that moved.
  have hentry : ∀ m, (Function.update (Function.update T i ⟨(T k).dib - 1, (T k).entry⟩) k
      (T k).clear m).Full → m = i ∧ m ≠ k ∨ m ≠ i ∧ m ≠ k ∧ (T m).Full := by
    intro m hm
    rw [Slot.Full, hmoved] at hm
    split_ifs at hm with hmk hmi
    · exact absurd rfl hm
    · exact .inl ⟨hmi, hmk⟩
    · exact .inr ⟨hmi, hmk, hm⟩
  exact {
    step := fun j hj hjk => by
      rw [hmoved, hmoved, if_neg hjk]
      by_cases hji : j = i
      · rw [hji, hk, if_pos rfl]
        exact Nat.zero_le _
      · rw [if_neg hji]
        have hstep := h.step j hj hji
        split_ifs with hmk hmi
        · exact Nat.zero_le _
        · have hle := h.next j hj hmi
          rw [hk] at hle
          omega
        · exact hstep
    home := fun j hj hjfull => by
      rcases hentry j hjfull with ⟨rfl, hjk⟩ | ⟨hji, hjk, hfull'⟩
      · rw [Function.update_of_ne hjk, Function.update_self]
        refine walk_one_inj hj (walk_lt hn) ?_
        rw [hk, walk_walk, show (T k).dib - 1 - 1 + 1 = (T k).dib - 1 by omega]
        exact h.home k hkn hfull
      · rw [Function.update_of_ne hjk, Function.update_of_ne hji]
        exact h.home j hj hfull'
    distinct := fun j hj m hm hjfull hmfull hkey => by
      rcases hentry j hjfull with ⟨rfl, hjk⟩ | ⟨hji, hjk, hjfull'⟩ <;>
        rcases hentry m hmfull with ⟨rfl, hmk⟩ | ⟨hmi, hmk, hmfull'⟩
      · rfl
      · rw [Function.update_of_ne hjk, Function.update_self, Function.update_of_ne hmk,
          Function.update_of_ne hmi] at hkey
        exact absurd (h.distinct k hkn m hm hfull hmfull' hkey) (Ne.symm hmk)
      · rw [Function.update_of_ne hmk, Function.update_self, Function.update_of_ne hjk,
          Function.update_of_ne hji] at hkey
        exact absurd (h.distinct j hj k hkn hjfull' hfull hkey) hjk
      · rw [Function.update_of_ne hjk, Function.update_of_ne hji, Function.update_of_ne hmk,
          Function.update_of_ne hmi] at hkey
        exact h.distinct j hj m hm hjfull' hmfull' hkey
    empty := by
      rw [Function.update_self]
      exact Slot.not_full_clear _
    next := fun j hj hnext => by
      have hji : j = i := walk_one_inj hj hi (hnext.trans hk.symm)
      have hstep := h.step k hkn hne
      rw [hmoved, hmoved, hji, if_neg (Ne.symm hne), if_pos rfl]
      split_ifs <;> omega }

/-- The entries after the move are those from before. -/
theorem has_shift (hi : i < n) (hlt : 1 < (T (walk n i 1)).dib) :
    Has n (Function.update (Function.update T i
      ⟨(T (walk n i 1)).dib - 1, (T (walk n i 1)).entry⟩) (walk n i 1) (T (walk n i 1)).clear) e ↔
      Has n T e := by
  have hkn : walk n i 1 < n := walk_lt (Nat.zero_lt_of_lt hi)
  have hfull : (T (walk n i 1)).Full := fun e => by omega
  have hne : walk n i 1 ≠ i := fun e => h.empty (e ▸ hfull)
  generalize walk n i 1 = k at *
  have hmoved : (⟨(T k).dib - 1, (T k).entry⟩ : Slot ε).Full := fun e : (T k).dib - 1 = 0 => by omega
  rw [has_iff hkn hfull]
  constructor
  · rintro ⟨m, hm, hmfull, he⟩
    by_cases hmk : m = k
    · rw [hmk, Function.update_self] at hmfull
      exact absurd hmfull (Slot.not_full_clear _)
    · rw [Function.update_of_ne hmk] at hmfull he
      by_cases hmi : m = i
      · rw [hmi, Function.update_self] at he
        exact .inl he
      · rw [Function.update_of_ne hmi] at hmfull he
        exact .inr ⟨m, hm, hmk, hmfull, he⟩
  · rintro (he | ⟨m, hm, hmk, hmfull, he⟩)
    · refine ⟨i, hi, ?_⟩
      rw [Function.update_of_ne (Ne.symm hne), Function.update_self]
      exact ⟨hmoved, he⟩
    · have hmi : m ≠ i := fun e => h.empty (e ▸ hmfull)
      refine ⟨m, hm, ?_⟩
      rw [Function.update_of_ne hmk, Function.update_of_ne hmi]
      exact ⟨hmfull, he⟩

theorem size_shift (hi : i < n) (hlt : 1 < (T (walk n i 1)).dib) :
    size n (Function.update (Function.update T i
      ⟨(T (walk n i 1)).dib - 1, (T (walk n i 1)).entry⟩) (walk n i 1) (T (walk n i 1)).clear) =
      size n T := by
  have hkn : walk n i 1 < n := walk_lt (Nat.zero_lt_of_lt hi)
  have hfull : (T (walk n i 1)).Full := fun e => by omega
  have hne : walk n i 1 ≠ i := fun e => h.empty (e ▸ hfull)
  generalize walk n i 1 = k at *
  have hmoved : (⟨(T k).dib - 1, (T k).entry⟩ : Slot ε).Full := fun e : (T k).dib - 1 = 0 => by omega
  have hstay : Function.update T i ⟨(T k).dib - 1, (T k).entry⟩ k = T k :=
    Function.update_of_ne hne _ _
  have hput := size_update_empty hi h.empty hmoved
  have hclear := size_clear (T := Function.update T i ⟨(T k).dib - 1, (T k).entry⟩) hkn
    (by rw [hstay]; exact hfull)
  rw [hstay] at hclear
  omega

end Hole

end RobinHood

end CLib
