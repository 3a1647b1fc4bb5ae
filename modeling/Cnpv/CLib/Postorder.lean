import Cnpv.CLib.Exec
import Mathlib.Data.List.Nodup
import Mathlib.Logic.Relation
import Mathlib.Order.Basic

/-!
# Walks over a tree without a stack

A node `v : α` has the children `kids v` and a link `parent v`. A walk goes to the last child that is
left and takes it off; when none is left the node is done, and the walk goes back to the parent
(`Walk.step`). It must not come to a node that is done, since that one may be freed.

`Posts kids vs l`: the nodes `l` are those of the trees at `vs`, each one after the nodes below it.
In a tree (`Tree`) each of them comes once (`Posts.nodup`), and a node with `root` above it is one of
the tree at `root` (`Posts.mem_of_above`). `walk_tree`: the walk from `root` is done with these nodes
in this order, and then ends.
-/

namespace CLib

variable {α : Type} {kids : α → List α} {parent : α → Option α} {vs l : List α} {v u a b : α}

/-! ## The order of the nodes -/

/-- The nodes of the trees at `vs`: in each tree the last child comes first, and the root at last. -/
inductive Posts (kids : α → List α) : List α → List α → Prop
  | nil : Posts kids [] []
  | cons {v : α} {vs l l' : List α} (hkids : Posts kids (kids v).reverse l)
    (hrest : Posts kids vs l') : Posts kids (v :: vs) (l ++ v :: l')

theorem Posts.subset (h : Posts kids vs l) : vs ⊆ l := by
  induction h with
  | nil => exact List.Subset.refl _
  | cons _ _ _ ih =>
    refine List.cons_subset.mpr ⟨by simp, fun u hu => ?_⟩
    simp [ih hu]

theorem Posts.kids_mem (h : Posts kids vs l) (hv : v ∈ l) (hu : u ∈ kids v) : u ∈ l := by
  induction h with
  | nil => cases hv
  | @cons w vs l l' hkids hrest ih ih' =>
    rcases List.mem_append.mp hv with hv | hv
    · exact List.mem_append_left _ (ih hv)
    · rcases List.mem_cons.mp hv with rfl | hv
      · exact List.mem_append_left _ (hkids.subset (List.mem_reverse.mpr hu))
      · exact List.mem_append_right _ (List.mem_cons_of_mem _ (ih' hv))

/-- Trees that are finite have such a list. -/
theorem exists_posts (hwf : WellFounded fun c v => c ∈ kids v) (vs : List α) :
    ∃ l, Posts kids vs l := by
  have htree : ∀ v, ∃ l, Posts kids (kids v).reverse l := by
    intro v
    induction v using hwf.induction with
    | _ v ih =>
      suffices ∀ us : List α, (∀ c ∈ us, c ∈ kids v) → ∃ l, Posts kids us l from
        this _ fun c hc => List.mem_reverse.mp hc
      intro us hus
      induction us with
      | nil => exact ⟨[], .nil⟩
      | cons c us ihus =>
        obtain ⟨l, hl⟩ := ih c (hus c (by simp))
        obtain ⟨l', hl'⟩ := ihus fun u hu => hus u (by simp [hu])
        exact ⟨_, .cons hl hl'⟩
  induction vs with
  | nil => exact ⟨[], .nil⟩
  | cons v vs ih =>
    obtain ⟨l, hl⟩ := htree v
    obtain ⟨l', hl'⟩ := ih
    exact ⟨_, .cons hl hl'⟩

/-! ## Trees -/

/-- The children of a node are the nodes with the link to it, and come after it. -/
structure Tree [Preorder α] (kids : α → List α) (parent : α → Option α) : Prop where
  mem_kids : ∀ v c, c ∈ kids v ↔ parent c = some v
  nodup : ∀ v, (kids v).Nodup
  lt : ∀ v c, parent c = some v → v < c

/-- `a` is `u`, or above it. -/
def Above (parent : α → Option α) : α → α → Prop :=
  Relation.ReflTransGen fun c v => parent c = some v

/-- Nodes above one node are above each other. -/
theorem Above.total (ha : Above parent u a) (hb : Above parent u b) :
    Above parent a b ∨ Above parent b a :=
  Relation.ReflTransGen.total_of_right_unique
    (fun _ _ _ h h' => Option.some.inj (h.symm.trans h')) ha hb

section Tree

variable [Preorder α]

theorem Above.le (htree : Tree kids parent) (h : Above parent u a) : a ≤ u := by
  induction h with
  | refl => exact le_refl u
  | tail _ hp ih => exact (htree.lt _ _ hp).le.trans ih

/-- Children of one node are not above each other. -/
theorem Tree.not_above (htree : Tree kids parent) (ha : a ∈ kids v) (hb : b ∈ kids v) (hne : a ≠ b) :
    ¬ Above parent a b := by
  intro h
  rcases Relation.ReflTransGen.cases_head h with rfl | ⟨p, hp, hpb⟩
  · exact hne rfl
  · obtain rfl := Option.some.inj (((htree.mem_kids v a).mp ha).symm.trans hp)
    exact absurd (htree.lt v b ((htree.mem_kids v b).mp hb)) (not_lt_of_ge (Above.le htree hpb))

theorem Posts.above (htree : Tree kids parent) (h : Posts kids vs l) (hu : u ∈ l) :
    ∃ v ∈ vs, Above parent u v := by
  induction h with
  | nil => cases hu
  | @cons v vs l l' _ _ ih ih' =>
    rcases List.mem_append.mp hu with hu | hu
    · obtain ⟨c, hc, habove⟩ := ih hu
      exact ⟨v, by simp, habove.tail ((htree.mem_kids v c).mp (List.mem_reverse.mp hc))⟩
    · rcases List.mem_cons.mp hu with rfl | hu
      · exact ⟨u, by simp, .refl⟩
      · obtain ⟨c, hc, habove⟩ := ih' hu
        exact ⟨c, by simp [hc], habove⟩

/-- The nodes below `v` are after it. -/
theorem Posts.lt (htree : Tree kids parent) (h : Posts kids (kids v).reverse l) (hu : u ∈ l) :
    v < u := by
  obtain ⟨c, hc, habove⟩ := h.above htree hu
  exact (htree.lt v c ((htree.mem_kids v c).mp (List.mem_reverse.mp hc))).trans_le
    (Above.le htree habove)

/-- **No node comes twice**, when no two of the roots are above each other. -/
theorem Posts.nodup (htree : Tree kids parent) (h : Posts kids vs l)
    (hvs : vs.Pairwise fun a b => ¬ Above parent a b ∧ ¬ Above parent b a) : l.Nodup := by
  induction h with
  | nil => exact List.nodup_nil
  | @cons v vs l l' hkids hrest ih ih' =>
    obtain ⟨hv, hvs⟩ := List.pairwise_cons.mp hvs
    have hsiblings : (kids v).reverse.Pairwise
        fun a b => ¬ Above parent a b ∧ ¬ Above parent b a := by
      refine (List.nodup_reverse.mpr (htree.nodup v)).imp_of_mem fun ha hb hne => ?_
      rw [List.mem_reverse] at ha hb
      exact ⟨htree.not_above ha hb hne, htree.not_above hb ha (Ne.symm hne)⟩
    -- A node of both trees would have both roots above it.
    have hdisjoint : ∀ u, Above parent u v → u ∉ l' := by
      intro u hu hu'
      obtain ⟨b, hb, hbu⟩ := hrest.above htree hu'
      exact (hu.total hbu).elim (hv b hb).1 (hv b hb).2
    have hbelow : ∀ u ∈ l, Above parent u v := by
      intro u hu
      obtain ⟨c, hc, habove⟩ := hkids.above htree hu
      exact habove.tail ((htree.mem_kids v c).mp (List.mem_reverse.mp hc))
    refine List.nodup_append.mpr ⟨ih hsiblings,
      List.nodup_cons.mpr ⟨hdisjoint v .refl, ih' hvs⟩, fun u hu u' hu' => ?_⟩
    rintro rfl
    rcases List.mem_cons.mp hu' with rfl | hu'
    · exact lt_irrefl _ (hkids.lt htree hu)
    · exact hdisjoint u (hbelow u hu) hu'

theorem Posts.mem_of_above (htree : Tree kids parent) (h : Posts kids vs l) (hv : v ∈ vs)
    (hu : Above parent u v) : u ∈ l := by
  induction hu using Relation.ReflTransGen.head_induction_on with
  | refl => exact h.subset hv
  | head hp _ ih => exact h.kids_mem ih ((htree.mem_kids _ _).mpr hp)

end Tree

/-! ## The walk -/

/-- A walk: how many children are left of each node, where it is, and the nodes that are done. -/
structure Walk (α : Type) where
  left : α → Nat
  pos : Option α
  done : List α

/-- The walk is at `v`, before the children `vs`, and has not been at the nodes `l` of their trees. -/
structure Walk.Before (kids : α → List α) (w : Walk α) (v : α) (vs l : List α) : Prop where
  pos : w.pos = some v
  children : vs = ((kids v).take (w.left v)).reverse
  le : w.left v ≤ (kids v).length
  notDone : v ∉ w.done
  notMem : v ∉ l
  nodup : l.Nodup
  fresh : ∀ u ∈ l, u ∉ w.done ∧ w.left u = (kids u).length

namespace Walk.Before

variable {w : Walk α} {c : α}

theorem left_eq_zero (h : Before kids w v [] l) : w.left v = 0 := by
  have := congrArg List.length h.children
  rw [List.length_reverse, List.length_take, Nat.min_eq_left h.le] at this
  exact this.symm

/-- The next child is the last one that is left. -/
theorem left_eq_succ (h : Before kids w v (c :: vs) l) : ∃ k, w.left v = k + 1 ∧
    (kids v)[k]? = some c ∧ vs = ((kids v).take k).reverse := by
  have hvs := h.children
  obtain ⟨k, hk⟩ : ∃ k, w.left v = k + 1 := by
    refine Nat.exists_eq_succ_of_ne_zero fun hzero => ?_
    rw [hzero] at hvs
    cases hvs
  have hklt : k < (kids v).length := by
    have := h.le
    omega
  rw [hk, List.take_succ_eq_append_getElem hklt, List.reverse_append, List.reverse_singleton,
    List.singleton_append, List.cons.injEq] at hvs
  exact ⟨k, hk, by rw [List.getElem?_eq_getElem hklt, hvs.1], hvs.2⟩

theorem ne (h : Before kids w v vs l) (hu : u ∈ l) : u ≠ v := fun e => h.notMem (e ▸ hu)

end Walk.Before

section Walk

variable [DecidableEq α]

/-- A step of the walk. -/
def Walk.step (kids : α → List α) (parent : α → Option α) (w : Walk α) : Exec (Walk α) :=
  w.pos.elim (.error (.undefined .nullPointer)) fun v =>
    if v ∈ w.done then .error (.undefined .useAfterFree)
    else if w.left v = 0 then .ok { w with pos := parent v, done := w.done ++ [v] }
    else (kids v)[w.left v - 1]?.elim (.error (.undefined .outOfBounds)) fun c =>
      .ok { w with left := Function.update w.left v (w.left v - 1), pos := some c }

/-- The walk ends when there is no parent. -/
abbrev Walk.loop (kids : α → List α) (parent : α → Option α) : Nat → Walk α → Exec (Walk α) :=
  whileLoop (fun w => w.pos.isSome) (Walk.step kids parent)

/-- No child is left. -/
theorem Walk.loop_done {w : Walk α} (hpos : w.pos = some v) (hdone : v ∉ w.done)
    (hleft : w.left v = 0) (fuel : Nat) : Walk.loop kids parent (fuel + 1) w =
      Walk.loop kids parent fuel { w with pos := parent v, done := w.done ++ [v] } := by
  refine whileLoop_step (by rw [hpos]; rfl) ?_
  rw [Walk.step, hpos, Option.elim_some, if_neg hdone, if_pos hleft]

/-- A child is left. -/
theorem Walk.loop_child {w : Walk α} {k : Nat} (hpos : w.pos = some v) (hdone : v ∉ w.done)
    (hleft : w.left v = k + 1) (hkids : (kids v)[k]? = some u) (fuel : Nat) :
    Walk.loop kids parent (fuel + 1) w =
      Walk.loop kids parent fuel { w with left := Function.update w.left v k, pos := some u } := by
  refine whileLoop_step (by rw [hpos]; rfl) ?_
  rw [Walk.step, hpos, Option.elim_some, if_neg hdone, if_neg (by omega), hleft, Nat.add_sub_cancel,
    hkids]
  rfl

namespace Walk.Before

variable {w : Walk α} {c : α} {l' : List α} {k : Nat}

/-- Down to the child `c`. -/
theorem down (h : Before kids w v (c :: vs) (l ++ c :: l')) :
    Before kids { w with left := Function.update w.left v k, pos := some c } c (kids c).reverse l := by
  have hleft : ∀ u ∈ l ++ c :: l', Function.update w.left v k u = (kids u).length := fun u hu => by
    rw [Function.update_of_ne (h.ne hu), (h.fresh u hu).2]
  have hc : c ∈ l ++ c :: l' := by simp
  obtain ⟨hnodup, -, hapart⟩ := List.nodup_append.mp h.nodup
  exact {
    pos := rfl
    children := by
      show _ = ((kids c).take (Function.update w.left v k c)).reverse
      rw [hleft c hc, List.take_length]
    le := Nat.le_of_eq (hleft c hc)
    notDone := (h.fresh c hc).1
    notMem := fun hcl => hapart c hcl c (by simp) rfl
    nodup := hnodup
    fresh := fun u hu => by
      have hu' : u ∈ l ++ c :: l' := by simp [hu]
      exact ⟨(h.fresh u hu').1, hleft u hu'⟩ }

/-- Back from the child `c`, whose tree is done. -/
theorem up (h : Before kids w v (c :: vs) (l ++ c :: l')) (hvs : vs = ((kids v).take k).reverse)
    (hk : w.left v = k + 1) {left : α → Nat}
    (hleft : ∀ u, u ∉ l → u ≠ c → left u = Function.update w.left v k u) :
    Before kids { left, pos := some v, done := w.done ++ l ++ [c] } v vs l' := by
  have hvl : v ∉ l := fun hv => h.notMem (by simp [hv])
  have hcv : c ≠ v := h.ne (by simp)
  have hv : left v = k := (hleft v hvl (Ne.symm hcv)).trans (Function.update_self _ _ _)
  obtain ⟨-, hnodup, hapart⟩ := List.nodup_append.mp h.nodup
  obtain ⟨hcl', hnodup⟩ := List.nodup_cons.mp hnodup
  exact {
    pos := rfl
    children := by
      show _ = ((kids v).take (left v)).reverse
      rw [hv, hvs]
    le := by
      have := h.le
      show left v ≤ _
      omega
    notDone := by
      simp only [List.mem_append, List.mem_singleton, not_or]
      exact ⟨⟨h.notDone, hvl⟩, Ne.symm hcv⟩
    notMem := fun hv => h.notMem (by simp [hv])
    nodup := hnodup
    fresh := fun u hu => by
      have hu' : u ∈ l ++ c :: l' := by simp [hu]
      have hul : u ∉ l := fun hul => hapart u hul u (by simp [hu]) rfl
      have huc : u ≠ c := fun e => hcl' (e ▸ hu)
      refine ⟨?_, (hleft u hul huc).trans ?_⟩
      · simp only [List.mem_append, List.mem_singleton, not_or]
        exact ⟨⟨(h.fresh u hu').1, hul⟩, huc⟩
      · rw [Function.update_of_ne (h.ne hu'), (h.fresh u hu').2] }

end Walk.Before

/-- **The walk through the children that are left** of `v` comes back to `v`. -/
theorem Posts.loop (hmem : ∀ v c, c ∈ kids v → parent c = some v) (h : Posts kids vs l) {w : Walk α}
    (hw : w.Before kids v vs l) (fuel : Nat) :
    ∃ left, Walk.loop kids parent (2 * l.length + fuel) w =
        Walk.loop kids parent fuel { left, pos := some v, done := w.done ++ l } ∧
      left v = 0 ∧ ∀ u ∉ l, u ≠ v → left u = w.left u := by
  induction h generalizing v w fuel with
  | nil =>
    refine ⟨w.left, ?_, hw.left_eq_zero, fun _ _ _ => rfl⟩
    rw [List.append_nil, ← hw.pos, List.length_nil, Nat.mul_zero, Nat.zero_add]
  | @cons c vs l l' _ _ ih ih' =>
    obtain ⟨k, hk, hget, hvs⟩ := hw.left_eq_succ
    -- Down to `c`, through its tree, and back to `v`.
    have hdown := hw.down (k := k)
    obtain ⟨left₁, hrun₁, hzero₁, hkeep₁⟩ := ih hdown (2 * l'.length + fuel + 1)
    have hdone : c ∉ w.done ++ l := by
      simp only [List.mem_append, not_or]
      exact ⟨hdown.notDone, hdown.notMem⟩
    obtain ⟨left, hrun, hzero, hkeep⟩ := ih' (hw.up hvs hk hkeep₁) fuel
    refine ⟨left, ?_, hzero, fun u hu huv => ?_⟩
    · have hfuel : 2 * (l ++ c :: l').length + fuel =
          2 * l.length + (2 * l'.length + fuel + 1) + 1 := by
        rw [List.length_append, List.length_cons]
        omega
      rw [hfuel, Walk.loop_child hw.pos hw.notDone hk hget, hrun₁, Walk.loop_done rfl hdone hzero₁,
        hmem v c (List.mem_of_getElem? hget), hrun, List.append_assoc, List.append_assoc]
      rfl
    · simp only [List.mem_append, List.mem_cons, not_or] at hu
      calc left u = left₁ u := hkeep u hu.2.2 huv
        _ = Function.update w.left v k u := hkeep₁ u hu.1 hu.2.1
        _ = w.left u := Function.update_of_ne huv _ _

/-- **The walk from the root** is done with each node of the tree once. -/
theorem walk_tree [Preorder α] (htree : Tree kids parent) {root : α} (hroot : parent root = none)
    (h : Posts kids (kids root).reverse l) :
    ∃ w, Walk.loop kids parent (2 * (l.length + 1))
        { left := fun v => (kids v).length, pos := some root, done := [] } = .ok w ∧
      w.pos = none ∧ w.done = l ++ [root] := by
  have hrootl : root ∉ l := fun hr => lt_irrefl _ (h.lt htree hr)
  have hnodup : l.Nodup := by
    have hposts : Posts kids [root] (l ++ [root]) := .cons h .nil
    exact (List.nodup_append.mp (hposts.nodup htree (List.pairwise_singleton _ _))).1
  have hstart : Walk.Before kids { left := fun v => (kids v).length, pos := some root, done := [] }
      root (kids root).reverse l := {
    pos := rfl
    children := by rw [List.take_length]
    le := Nat.le_refl _
    notDone := by simp
    notMem := hrootl
    nodup := hnodup
    fresh := fun u _ => ⟨by simp, rfl⟩ }
  obtain ⟨left, hrun, hzero, -⟩ := h.loop (fun v c => (htree.mem_kids v c).mp) hstart 2
  refine ⟨{ left, pos := parent root, done := l ++ [root] }, ?_, hroot, rfl⟩
  rw [Nat.mul_add, Nat.mul_one, hrun, Walk.loop_done rfl (by simpa using hrootl) hzero]
  exact if_neg (by simp [hroot])

end Walk

end CLib
