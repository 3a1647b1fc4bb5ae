import Mathlib.Data.List.Nodup
import Mathlib.Data.List.TakeDrop
import Mathlib.Logic.Function.Basic

/-!
# The most recently used keys

`Recency κ ν` is what a cache that evicts the least recently used key is for: it records the keys
in the order of their last use, and the latest value of each. A cache of `n` keys answers for the
`n` most recently used keys (`Recency.get n`).

`take_use_of_mem` and `take_use_of_notMem` say how the first `n` keys change with a use: a cache
of `n` keys need not know the others.
-/

namespace CLib

/-- The uses of a map, up to now. -/
structure Recency (κ ν : Type) where
  /-- Each key that was used, the most recently used one first. -/
  recent : List κ := []
  nodup : recent.Nodup := by simp
  latest : κ → Option ν := fun _ => none
  /-- The number of uses. -/
  uses : Nat := 0

namespace Recency

variable {κ ν : Type} [DecidableEq κ]

/-- The key `k` used. -/
def use (r : Recency κ ν) (k : κ) : Recency κ ν :=
  { r with
    recent := k :: r.recent.erase k
    nodup := List.nodup_cons.mpr ⟨r.nodup.not_mem_erase, r.nodup.erase k⟩
    uses := r.uses + 1 }

/-- The key `k` set to `v`. This is a use. -/
def insert (r : Recency κ ν) (k : κ) (v : ν) : Recency κ ν :=
  { r.use k with latest := Function.update r.latest k (some v) }

/-- The key `k` looked up, when the map has `n` keys. A hit is a use. -/
def get (n : Nat) (r : Recency κ ν) (k : κ) : Option ν × Recency κ ν :=
  if k ∈ r.recent.take n then (r.latest k, r.use k) else (none, r)

variable {l : List κ} {k : κ} {n : Nat}

/-- A use of one of the first `n` keys. -/
theorem take_use_of_mem (h : k ∈ l.take n) :
    (k :: l.erase k).take n = k :: (l.take n).erase k := by
  obtain ⟨n, rfl⟩ : ∃ m, n = m + 1 := ⟨n - 1, by cases n <;> simp at h ⊢⟩
  have hlen : ((l.take (n + 1)).erase k).length = min n (l.length - 1) := by
    have hpos := List.length_pos_of_mem h
    rw [List.length_erase_of_mem h, List.length_take]
    omega
  have he : l.erase k = (l.take (n + 1)).erase k ++ l.drop (n + 1) := by
    rw [← List.erase_append_left _ h, List.take_append_drop]
  rw [List.take_succ_cons, he, List.take_append, hlen]
  have htake : ((l.take (n + 1)).erase k).take n = (l.take (n + 1)).erase k :=
    List.take_of_length_le (by omega)
  have hdrop : (l.drop (n + 1)).take (n - min n (l.length - 1)) = [] := by
    rw [List.take_eq_nil_iff, List.drop_eq_nil_iff]
    omega
  rw [htake, hdrop, List.append_nil]

/-- A use of another key: the last of `n` keys leaves. -/
theorem take_use_of_notMem (h : k ∉ l.take n) :
    (k :: l.erase k).take n = (k :: l.take n).take n := by
  cases n with
  | zero => rfl
  | succ n =>
    have he : l.erase k = l.take (n + 1) ++ (l.drop (n + 1)).erase k := by
      rw [← List.erase_append_right _ h, List.take_append_drop]
    rw [List.take_succ_cons, List.take_succ_cons, he]
    by_cases hn : n + 1 ≤ l.length
    · rw [List.take_append_of_le_length (by rw [List.length_take]; omega)]
    · rw [List.drop_eq_nil_of_le (by omega), List.erase_nil, List.append_nil]

/-- Erasing commutes with a map that separates the erased element from the others. -/
theorem map_erase {α β : Type} [DecidableEq α] [DecidableEq β] {f : α → β} {a : α} {l : List α}
    (h : ∀ b ∈ l, f b = f a → b = a) : (l.erase a).map f = (l.map f).erase (f a) := by
  induction l with
  | nil => rfl
  | cons b l ih =>
    by_cases hb : b = a
    · subst hb; simp
    · have hf : f b ≠ f a := fun e => hb (h b (by simp) e)
      rw [List.erase_cons_tail (by simpa using hb), List.map_cons, List.map_cons,
        List.erase_cons_tail (by simpa using hf), ih fun b hb => h b (by simp [hb])]

end Recency

end CLib
