import Mathlib.Data.List.Nodup
import Mathlib.Logic.Function.Basic

/-!
# Linked chains

A node of type `α` has a link `next a : Option α` (`none` is `NULL`). `Seg next p l q`: the links
from `p` pass the nodes `l` and then reach `q`. `Chain next p l` is a segment that ends in `NULL`,
so a chain is finite; it has no cycle (`Chain.nodup`), and its nodes are determined by its first
link (`Chain.unique`).

The edits of a chain are stated with `Function.update` on the links: `Chain.push` (a new first
node), `Chain.append` (a new last node), `Chain.unlink_tail` (a node after the first one
removed). `Seg.congr` is the frame rule: links of other nodes do not matter.
-/

namespace CLib

variable {α : Type} {next next' : α → Option α} {p q : Option α} {l l₁ l₂ : List α} {a b : α}

/-- The links from `p` pass the nodes `l` and then reach `q`. -/
def Seg (next : α → Option α) : Option α → List α → Option α → Prop
  | p, [], q => p = q
  | p, a :: l, q => p = some a ∧ Seg next (next a) l q

/-- The links from `p` pass the nodes `l` and end in `NULL`. -/
abbrev Chain (next : α → Option α) (p : Option α) (l : List α) : Prop := Seg next p l none

@[simp] theorem Seg.nil_iff : Seg next p [] q ↔ p = q := Iff.rfl

@[simp] theorem Seg.cons_iff : Seg next p (a :: l) q ↔ p = some a ∧ Seg next (next a) l q := Iff.rfl

theorem Seg.append_iff :
    Seg next p (l₁ ++ l₂) q ↔ ∃ r, Seg next p l₁ r ∧ Seg next r l₂ q := by
  induction l₁ generalizing p with
  | nil => simp
  | cons a l ih => simp [ih, and_assoc]

/-- The frame rule: only the links of the nodes passed matter. -/
theorem Seg.congr (h : Seg next p l q) (e : ∀ a ∈ l, next' a = next a) : Seg next' p l q := by
  induction l generalizing p with
  | nil => exact h
  | cons a l ih =>
    refine ⟨h.1, ?_⟩
    rw [e a (by simp)]
    exact ih h.2 fun b hb => e b (by simp [hb])

theorem Chain.unique {l' : List α} (h : Chain next p l) (h' : Chain next p l') : l = l' := by
  induction l generalizing p l' with
  | nil =>
    cases l' with
    | nil => rfl
    | cons b l' => rw [Seg.nil_iff.mp h] at h'; cases h'.1
  | cons a l ih =>
    cases l' with
    | nil => rw [Seg.nil_iff.mp h'] at h; cases h.1
    | cons b l' =>
      obtain rfl : a = b := by simpa [h.1] using h'.1
      rw [ih h.2 h'.2]

/-- A node of a chain starts a chain: the rest of the first one. -/
theorem Chain.suffix (h : Chain next p (l₁ ++ a :: l₂)) : Chain next (some a) (a :: l₂) := by
  obtain ⟨r, -, h₂⟩ := Seg.append_iff.mp h
  exact ⟨rfl, h₂.2⟩

/-- A chain that ends in `NULL` has no cycle: a node that came twice would start two chains of
different lengths. -/
theorem Chain.nodup (h : Chain next p l) : l.Nodup := by
  induction l generalizing p with
  | nil => exact List.nodup_nil
  | cons a l ih =>
    refine List.nodup_cons.mpr ⟨fun ha => ?_, ih h.2⟩
    obtain ⟨l₁, l₂, rfl⟩ := List.append_of_mem ha
    have hs : Chain next (some a) (a :: (l₁ ++ a :: l₂)) := ⟨rfl, h.2⟩
    have := congrArg List.length (hs.unique (Chain.suffix h.2))
    simp at this
    omega

@[simp] theorem Chain.none_iff : Chain next none l ↔ l = [] := by
  cases l <;> simp

theorem Chain.head_mem (h : Chain next p l) (hp : p = some a) : a ∈ l := by
  subst hp
  cases l with
  | nil => cases h
  | cons b l =>
    cases h.1
    exact List.mem_cons_self

/-- The link of a node of a chain goes to a node of it. -/
theorem Chain.next_mem (h : Chain next p l) (ha : a ∈ l) (hn : next a = some b) : b ∈ l := by
  obtain ⟨l₁, l₂, rfl⟩ := List.append_of_mem ha
  have hrest := (Chain.suffix h).2
  cases l₂ with
  | nil => cases hn.symm.trans hrest
  | cons c l₂ =>
    cases hn.symm.trans hrest.1
    simp

/-- The node of a chain without a link is the last one. -/
theorem Chain.last (h : Chain next p l) (ha : a ∈ l) (hn : next a = none) : ∃ l', l = l' ++ [a] := by
  obtain ⟨l₁, l₂, rfl⟩ := List.append_of_mem ha
  have hrest := (Chain.suffix h).2
  rw [hn] at hrest
  exact ⟨l₁, by rw [Chain.none_iff.mp hrest]⟩

section Edit

variable [DecidableEq α]

/-- A link set at a node outside of a segment does not change the segment. -/
theorem Seg.update {x : Option α} (h : Seg next p l q) (hb : b ∉ l) :
    Seg (Function.update next b x) p l q :=
  h.congr fun _ ha => Function.update_of_ne (ne_of_mem_of_not_mem ha hb) _ _

/-- A new first node. -/
theorem Chain.push (h : Chain next p l) (ha : a ∉ l) :
    Chain (Function.update next a p) (some a) (a :: l) :=
  ⟨rfl, by rw [Function.update_self]; exact Seg.update h ha⟩

/-- Setting the link of the last node redirects the end of a segment. -/
theorem Seg.set_last {x : Option α} (h : Seg next p (l ++ [b]) q) (hb : b ∉ l) :
    Seg (Function.update next b x) p (l ++ [b]) x := by
  obtain ⟨r, h₁, h₂⟩ := Seg.append_iff.mp h
  exact Seg.append_iff.mpr ⟨r, h₁.update hb, h₂.1, by simp⟩

/-- A new last node `a` after the last node `b`. -/
theorem Chain.append (h : Chain next p (l ++ [b])) (ha : a ∉ l ++ [b]) (hn : next a = none) :
    Chain (Function.update next b (some a)) p (l ++ [b] ++ [a]) := by
  have hab : a ≠ b := fun e => ha (by simp [e])
  refine Seg.append_iff.mpr ⟨some a, h.set_last ?_, rfl, ?_⟩
  · have := Chain.nodup h
    rw [List.nodup_append] at this
    exact fun hb => this.2.2 b hb b (by simp) rfl
  · rw [Function.update_of_ne hab, hn]; rfl

/-- The node `a` after `b` removed: `b` gets the link of `a`. -/
theorem Chain.unlink_tail (h : Chain next p (l₁ ++ [b] ++ a :: l₂)) :
    Chain (Function.update next b (next a)) p (l₁ ++ [b] ++ l₂) := by
  have hnd := Chain.nodup h
  obtain ⟨r, h₁, h₂⟩ := Seg.append_iff.mp h
  have hb₁ : b ∉ l₁ := by
    intro hb
    rw [List.append_assoc, List.nodup_append] at hnd
    exact hnd.2.2 b hb b (by simp) rfl
  have hb₂ : b ∉ l₂ := by
    intro hb
    rw [List.nodup_append] at hnd
    exact hnd.2.2 b (by simp) b (by simp [hb]) rfl
  exact Seg.append_iff.mpr ⟨next a, h₁.set_last hb₁, h₂.2.update hb₂⟩

end Edit

end CLib
