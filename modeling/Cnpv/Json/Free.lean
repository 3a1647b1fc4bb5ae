import Cnpv.CLib.Postorder
import Cnpv.Json.Parse

/-!
# `json_value_free`

The parser allocates a block for each value, and one for what an array, an object or a string points
to (`allocated`). `json_value_free` has no stack: it counts the lengths down to go to the last element
that is left, and goes back through `parent` (`Freeing.step`). On what `json_parse` returned it is the
walk of `Cnpv.CLib.Postorder` (`Frees`), because the elements of a container are the values with a
`parent` link to it (`Finished.tree`), so it frees each block once and uses none after its `free`
(`jsonValueFree_parse`).
-/

namespace Cnpv

open CLib

namespace Json

/-! ## The code -/

/-- A block of memory: the value `i`, or what it points to. -/
inductive Block
  | value (i : Nat)
  | contents (i : Nat)
  deriving DecidableEq, Repr

/-- The value that the block belongs to. -/
def Block.index : Block → Nat
  | value i => i
  | contents i => i

/-- `new_value` allocates memory for the contents. -/
def Node.hasContents (n : Node) : Bool :=
  match n.cell.type with
  | .array => decide (0 < n.room)
  | .object => decide (0 < n.room)
  | .string => true
  | _ => false

/-- The contents of the value `i`. -/
def contentsAt (nodes : List Node) (i : Nat) : List Block :=
  if nodes[i]?.any Node.hasContents then [.contents i] else []

/-- The blocks of the value `i`. -/
def blocksAt (nodes : List Node) (i : Nat) : List Block := contentsAt nodes i ++ [.value i]

/-- The blocks that the parser allocated. -/
def allocated (nodes : List Node) : List Block := (List.range nodes.length).flatMap (blocksAt nodes)

/-- The variables of `json_value_free_ex`, and the blocks that were freed. -/
structure Freeing where
  nodes : List Node
  value : Option Nat
  freed : List Block := []

namespace Freeing

/-- `mem_free` -/
def free (s : Freeing) (b : Block) : Exec Freeing :=
  if b ∈ s.freed then .error (.undefined .useAfterFree) else .ok { s with freed := s.freed ++ [b] }

/-- `mem_free` of the contents, if their pointer is not `NULL`. Where nothing was allocated the first
pass may have left a number in its place. -/
def freeContents (s : Freeing) (i : Nat) (n : Node) : Exec Freeing :=
  if n.hasContents then s.free (.contents i)
  else if n.cell.names = 0 then .ok s
  else .error (.undefined .wrongMember)

/-- `value = value->u.array.values [-- value->u.array.length]` -/
def descend (s : Freeing) (i : Nat) (n : Node) : Exec Freeing :=
  if Block.contents i ∈ s.freed then .error (.undefined .useAfterFree)
  else if n.cell.length - 1 < n.room then
    .ok { s with
      nodes := s.nodes.set i { n with cell := { n.cell with length := n.cell.length - 1 } }
      value := some (n.values (n.cell.length - 1)) }
  else .error (.undefined .outOfBounds)

/-- `value = value->parent`, and `mem_free` of the value. -/
def leave (s : Freeing) (i : Nat) (n : Node) : Exec Freeing :=
  { s with value := n.cell.parent }.free (.value i)

/-- An array or an object. -/
def container (s : Freeing) (i : Nat) (n : Node) : Exec Freeing :=
  if n.cell.length = 0 then do
    let s ← s.freeContents i n
    s.leave i n
  else s.descend i n

/-- `switch (value->type)` -/
def visit (s : Freeing) (i : Nat) (n : Node) : Exec Freeing :=
  match n.cell.type with
  | .array => s.container i n
  | .object => s.container i n
  | .string => do
    let s ← s.freeContents i n
    s.leave i n
  | _ => s.leave i n

/-- The loop. -/
def step (s : Freeing) : Exec Freeing :=
  s.value.elim (.error (.undefined .nullPointer)) fun i =>
    if Block.value i ∈ s.freed then .error (.undefined .useAfterFree)
    else s.nodes[i]?.elim (.error (.undefined .nullPointer)) fun n => s.visit i n

end Freeing

/-- `json_value_free` of the root: the blocks that it frees. Each value is entered from its parent and
left once. -/
def jsonValueFree (nodes : List Node) : Exec (List Block) :=
  nodes[0]?.elim (.ok []) fun n => do
    let s ← whileLoop (fun s => s.value.isSome) Freeing.step (2 * nodes.length)
      { nodes := nodes.set 0 { n with cell := { n.cell with parent := none } }, value := some 0 }
    .ok s.freed

/-- The memory of the values after the two passes. -/
def parsedNodes (D : Doubles) (text : List UInt8) : Exec (Option (List Node)) := do
  let first ← Json.pass (firstPass D) {} text
  first.elim (.ok none) fun x => do
    let second ← Json.pass secondPass { nodes := x.cells.map fun cell => { cell } } text
    .ok (second.map Second.nodes)

/-! ## The tree of the values -/

variable {D : Doubles} {nodes : List Node} {y : Second} {v : JsonValue} {i : Nat} {b : Block}

/-- The elements of the value `i`. -/
def kids (nodes : List Node) (i : Nat) : List Nat := nodes[i]?.elim [] Node.children

/-- The container of the value `i`. -/
def parent (nodes : List Node) (i : Nat) : Option Nat := nodes[i]?.bind fun n => n.cell.parent

theorem lt_of_kids {c : Nat} (h : c ∈ kids nodes i) : i < nodes.length := by
  by_contra hge
  rw [kids, List.getElem?_eq_none (Nat.le_of_not_lt hge)] at h
  cases h

theorem lt_of_parent {p : Nat} (h : parent nodes i = some p) : i < nodes.length := by
  by_contra hge
  rw [parent, List.getElem?_eq_none (Nat.le_of_not_lt hge)] at h
  cases h

/-- An element links to its container and is after it. -/
theorem Linked.kid (h : Linked nodes nodes.length [0]) {c : Nat} (hc : c ∈ kids nodes i) :
    parent nodes c = some i ∧ i < c := by
  have hi := lt_of_kids hc
  rw [kids, List.getElem?_eq_getElem hi, Option.elim_some] at hc
  obtain ⟨hlt, -, n, hn, hp⟩ := (h.node i _ hi (List.getElem?_eq_getElem hi)).child c hc
  exact ⟨by rw [parent, hn]; exact hp, hlt⟩

/-- **What the parser returns is a tree.** -/
theorem Finished.tree (h : Finished y v) : Tree (kids y.nodes) (parent y.nodes) := by
  have hmem : ∀ p c, c ∈ kids y.nodes p ↔ parent y.nodes c = some p := by
    intro p c
    refine ⟨fun hc => (h.linked.kid hc).1, fun hp => ?_⟩
    have hc0 : c ≠ 0 := by
      rintro rfl
      obtain ⟨n, hn, hnone⟩ := h.root
      rw [parent, hn, Option.bind_some, hnone] at hp
      cases hp
    obtain ⟨q, n, -, hn, hc⟩ := h.linked.attached c ⟨lt_of_parent hp, by simpa using hc0⟩
    have hc : c ∈ kids y.nodes q := by
      rw [kids, hn]
      exact hc
    obtain rfl := Option.some.inj ((h.linked.kid hc).1.symm.trans hp)
    exact hc
  refine ⟨hmem, fun p => ?_, fun p c hp => (h.linked.kid ((hmem p c).mpr hp)).2⟩
  rcases Nat.lt_or_ge p y.nodes.length with hp | hp
  · rw [kids, List.getElem?_eq_getElem hp]
    exact (h.linked.node p _ hp (List.getElem?_eq_getElem hp)).nodup
  · rw [kids, List.getElem?_eq_none hp]
    exact List.nodup_nil

/-- All values are below the root. -/
theorem Finished.above (h : Finished y v) (hi : i < y.nodes.length) : Above (parent y.nodes) i 0 := by
  induction i using Nat.strongRecOn with
  | _ i ih =>
    by_cases hi0 : i = 0
    · exact hi0 ▸ .refl
    · obtain ⟨p, n, hp, hn, hc⟩ := h.linked.attached i ⟨hi, by simpa using hi0⟩
      have hkid := h.linked.kid (show i ∈ kids y.nodes p by rw [kids, hn]; exact hc)
      exact .head hkid.1 (ih p hkid.2 hp)

/-- The order in which the values are freed. -/
theorem Finished.posts (h : Finished y v) :
    ∃ l, Posts (kids y.nodes) (kids y.nodes 0).reverse l ∧
      (l ++ [0]).Perm (List.range y.nodes.length) := by
  have hwf : WellFounded fun c p => c ∈ kids y.nodes p := by
    refine Subrelation.wf (fun {c p} hc => ?_) (measure fun i => y.nodes.length - i).wf
    have hlt := (h.linked.kid hc).2
    have := lt_of_kids hc
    show y.nodes.length - c < y.nodes.length - p
    omega
  obtain ⟨l, hl⟩ := exists_posts hwf (kids y.nodes 0).reverse
  have hposts : Posts (kids y.nodes) [0] (l ++ [0]) := .cons hl .nil
  refine ⟨l, hl, (List.perm_ext_iff_of_nodup
    (hposts.nodup h.tree (List.pairwise_singleton _ _)) List.nodup_range).mpr fun i => ?_⟩
  rw [List.mem_range]
  refine ⟨fun hi => ?_, fun hi => hposts.mem_of_above h.tree (by simp) (h.above hi)⟩
  obtain ⟨j, hj, habove⟩ := hposts.above h.tree hi
  obtain rfl := List.mem_singleton.mp hj
  rcases Relation.ReflTransGen.cases_head habove with rfl | ⟨p, hp, -⟩
  · obtain ⟨n, hn, -⟩ := h.root
    exact (List.getElem?_eq_some_iff.mp hn).1
  · exact lt_of_parent hp

/-! ## The loop -/

theorem mem_contentsAt (h : b ∈ contentsAt nodes i) : b = .contents i := by
  rw [contentsAt] at h
  split_ifs at h
  · exact List.mem_singleton.mp h
  · cases h

theorem index_of_mem_blocksAt (h : b ∈ blocksAt nodes i) : b.index = i := by
  rcases List.mem_append.mp h with h | h
  · rw [mem_contentsAt h]
    rfl
  · rw [List.mem_singleton.mp h]
    rfl

theorem index_mem_of_freed {l : List Nat} (h : b ∈ l.flatMap (blocksAt nodes)) : b.index ∈ l := by
  obtain ⟨j, hj, hmem⟩ := List.mem_flatMap.mp h
  exact index_of_mem_blocksAt hmem ▸ hj

/-- The node `n'` is what is left of `n`. -/
structure Node.Left (n n' : Node) (left : Nat) : Prop where
  type : n'.cell.type = n.cell.type
  parent : n'.cell.parent = n.cell.parent
  names : n'.cell.names = n.cell.names
  values : n'.values = n.values
  room : n'.room = n.room
  length : n.cell.type = .array ∨ n.cell.type = .object → n'.cell.length = left

theorem Node.Left.hasContents {n n' : Node} {left : Nat} (h : n.Left n' left) :
    n'.hasContents = n.hasContents := by
  rw [Node.hasContents, Node.hasContents, h.type, h.room]

theorem Node.Left.visit {n n' : Node} {left : Nat} (h : n.Left n' left)
    (htype : n.cell.type = .array ∨ n.cell.type = .object) (s : Freeing) :
    s.visit i n' = s.container i n' := by
  rw [Freeing.visit, h.type]
  rcases htype with htype | htype <;> rw [htype]

theorem Node.room_of_empty {n : Node} (htype : n.cell.type = .array ∨ n.cell.type = .object)
    (h : n.hasContents = false) : n.room = 0 := by
  rw [hasContents] at h
  rcases htype with htype | htype <;> simpa [htype] using h

/-- The loop and the walk over the tree. -/
structure Frees (nodes : List Node) (s : Freeing) (w : Walk Nat) : Prop where
  value : s.value = w.pos
  lt : ∀ i ∈ w.pos, i < nodes.length
  freed : s.freed = w.done.flatMap (blocksAt nodes)
  node : ∀ (i : Nat) n, nodes[i]? = some n → ∃ n', s.nodes[i]? = some n' ∧ n.Left n' (w.left i)

namespace Frees

variable {s s₁ : Freeing} {w : Walk Nat} {n n' : Node}

/-- A value that is done, when its contents are freed. -/
theorem leave (h : Frees nodes s w) (hleft : n.Left n' (w.left i)) (hn : nodes[i]? = some n)
    (hdone : i ∉ w.done) (hp : ∀ p ∈ parent nodes i, p < nodes.length) (hnodes : s₁.nodes = s.nodes)
    (hfreed : s₁.freed = s.freed ++ contentsAt nodes i) :
    ∃ s', s₁.leave i n' = .ok s' ∧
      Frees nodes s' { w with pos := parent nodes i, done := w.done ++ [i] } := by
  have hnot : Block.value i ∉ s₁.freed := by
    rw [hfreed, h.freed]
    intro hmem
    rcases List.mem_append.mp hmem with hmem | hmem
    · exact hdone (index_mem_of_freed hmem)
    · cases mem_contentsAt hmem
  refine ⟨_, if_neg hnot, ?_⟩
  exact {
    value := by
      show n'.cell.parent = parent nodes i
      rw [parent, hn, hleft.parent]
      rfl
    lt := hp
    freed := by
      show s₁.freed ++ [Block.value i] = (w.done ++ [i]).flatMap (blocksAt nodes)
      rw [hfreed, h.freed, List.flatMap_append, List.flatMap_singleton, blocksAt, List.append_assoc]
    node := by
      show ∀ (j : Nat) m, nodes[j]? = some m → ∃ m', s₁.nodes[j]? = some m' ∧ _
      rw [hnodes]
      exact h.node }

/-- The contents of a value. -/
theorem freeContents (h : Frees nodes s w) (hleft : n.Left n' (w.left i)) (hn : nodes[i]? = some n)
    (hdone : i ∉ w.done) (hblank : n.hasContents = false → n.cell.names = 0) :
    ∃ s₁, s.freeContents i n' = .ok s₁ ∧ s₁.nodes = s.nodes ∧
      s₁.freed = s.freed ++ contentsAt nodes i := by
  rw [Freeing.freeContents, hleft.hasContents, hleft.names, contentsAt, hn, Option.any_some]
  cases hcontents : n.hasContents with
  | true =>
    have hnot : Block.contents i ∉ s.freed := by
      rw [h.freed]
      exact fun hmem => hdone (index_mem_of_freed hmem)
    exact ⟨{ s with freed := s.freed ++ [.contents i] }, if_neg hnot, rfl, rfl⟩
  | false => exact ⟨s, if_pos (hblank hcontents), rfl, (List.append_nil _).symm⟩

/-- A value with contents that is done. -/
theorem closes (h : Frees nodes s w) (hleft : n.Left n' (w.left i)) (hn : nodes[i]? = some n)
    (hdone : i ∉ w.done) (hp : ∀ p ∈ parent nodes i, p < nodes.length)
    (hblank : n.hasContents = false → n.cell.names = 0) :
    ∃ s', (s.freeContents i n' >>= fun s => s.leave i n') = .ok s' ∧
      Frees nodes s' { w with pos := parent nodes i, done := w.done ++ [i] } := by
  obtain ⟨s₁, hs₁, hnodes, hfreed⟩ := h.freeContents hleft hn hdone hblank
  rw [hs₁]
  exact h.leave hleft hn hdone hp hnodes hfreed

/-- The last element that is left. -/
theorem descend (h : Frees nodes s w) (hlinked : Linked nodes nodes.length [0])
    (hleft : n.Left n' (w.left i)) (hn : nodes[i]? = some n) (hs : s.nodes[i]? = some n')
    (htype : n.cell.type = .array ∨ n.cell.type = .object) (hdone : i ∉ w.done) {k c : Nat}
    (hk : w.left i = k + 1) (hc : (kids nodes i)[k]? = some c) :
    ∃ s', s.descend i n' = .ok s' ∧
      Frees nodes s' { w with left := Function.update w.left i k, pos := some c } := by
  have hi : i < nodes.length := (List.getElem?_eq_some_iff.mp hn).1
  have hilen : i < s.nodes.length := (List.getElem?_eq_some_iff.mp hs).1
  have hlength : n'.cell.length = k + 1 := (hleft.length htype).trans hk
  have hkids : kids nodes i = n.children := by rw [kids, hn, Option.elim_some]
  rw [hkids] at hc
  have hroom : k < n'.room := by
    have := (hlinked.node i n hi hn).room
    have := (List.getElem?_eq_some_iff.mp hc).1
    rw [hleft.room]
    omega
  have hvalue : n'.values k = c := by
    have hget := hc
    rw [Node.children, if_pos htype, List.getElem?_map] at hget
    obtain ⟨j, hj, rfl⟩ := Option.map_eq_some_iff.mp hget
    obtain ⟨hlt, hj⟩ := List.getElem?_eq_some_iff.mp hj
    rw [List.getElem_range] at hj
    rw [hleft.values, hj]
  have hcontents : Block.contents i ∉ s.freed := by
    rw [h.freed]
    exact fun hmem => hdone (index_mem_of_freed hmem)
  have hparent := (hlinked.kid (show c ∈ kids nodes i from hkids ▸ List.mem_of_getElem? hc)).1
  have hdescend : s.descend i n' = .ok { s with
      nodes := s.nodes.set i { n' with cell := { n'.cell with length := k } }
      value := some c } := by
    rw [Freeing.descend, if_neg hcontents, hlength, Nat.add_sub_cancel, if_pos hroom, hvalue]
  refine ⟨_, hdescend, ?_⟩
  exact {
    value := rfl
    lt := fun j hj => Option.some.inj hj ▸ lt_of_parent hparent
    freed := h.freed
    node := by
      intro j m hm
      show ∃ m', (s.nodes.set i _)[j]? = some m' ∧ m.Left m' (Function.update w.left i k j)
      by_cases hj : j = i
      · subst hj
        obtain rfl := Option.some.inj (hn.symm.trans hm)
        rw [Function.update_self]
        exact ⟨_, List.getElem?_set_self hilen, hleft.type, hleft.parent, hleft.names,
          hleft.values, hleft.room, fun _ => rfl⟩
      · rw [Function.update_of_ne hj]
        obtain ⟨m', hm', hleft'⟩ := h.node j m hm
        exact ⟨m', (List.getElem?_set_ne (Ne.symm hj)).trans hm', hleft'⟩ }

/-- The visit of a value whose elements are freed. -/
theorem visit_done (h : Frees nodes s w) (hlinked : Linked nodes nodes.length [0])
    (hleft : n.Left n' (w.left i)) (hn : nodes[i]? = some n) (hdone : i ∉ w.done)
    (hp : ∀ p ∈ parent nodes i, p < nodes.length) (hzero : w.left i = 0) :
    ∃ s', s.visit i n' = .ok s' ∧
      Frees nodes s' { w with pos := parent nodes i, done := w.done ++ [i] } := by
  by_cases htype : n.cell.type = .array ∨ n.cell.type = .object
  · rw [hleft.visit htype, Freeing.container, if_pos ((hleft.length htype).trans hzero)]
    refine h.closes hleft hn hdone hp fun hcontents => ?_
    have hlt : i < nodes.length := (List.getElem?_eq_some_iff.mp hn).1
    exact (hlinked.node i n hlt hn).blank htype (Node.room_of_empty htype hcontents)
  · rw [Freeing.visit, hleft.type]
    cases hcase : n.cell.type with
    | array => exact absurd (.inl hcase) htype
    | object => exact absurd (.inr hcase) htype
    | string =>
      refine h.closes hleft hn hdone hp fun hcontents => ?_
      rw [Node.hasContents, hcase] at hcontents
      cases hcontents
    | _ =>
      refine h.leave hleft hn hdone hp rfl ?_
      rw [contentsAt, hn, Option.any_some, Node.hasContents, hcase]
      exact (List.append_nil _).symm

/-- The visit of a value with an element that is left. -/
theorem visit_left (h : Frees nodes s w) (hlinked : Linked nodes nodes.length [0])
    (hleft : n.Left n' (w.left i)) (hn : nodes[i]? = some n) (hs : s.nodes[i]? = some n')
    (hdone : i ∉ w.done) (hnonzero : w.left i ≠ 0) {c : Nat}
    (hc : (kids nodes i)[w.left i - 1]? = some c) :
    ∃ s', s.visit i n' = .ok s' ∧
      Frees nodes s' { w with left := Function.update w.left i (w.left i - 1), pos := some c } := by
  have htype : n.cell.type = .array ∨ n.cell.type = .object := by
    by_contra htype
    rw [kids, hn, Option.elim_some, Node.children, if_neg htype] at hc
    cases hc
  have hlength : n'.cell.length ≠ 0 := by
    rw [hleft.length htype]
    exact hnonzero
  rw [hleft.visit htype, Freeing.container, if_neg hlength]
  exact h.descend hlinked hleft hn hs htype hdone (Nat.succ_pred_eq_of_ne_zero hnonzero).symm hc

/-- **A step of the loop** is a step of the walk. -/
theorem step (h : Frees nodes s w) (hlinked : Linked nodes nodes.length [0])
    (htree : Tree (kids nodes) (parent nodes)) {w' : Walk Nat} (hpos : w.pos.isSome = true)
    (hw : w.step (kids nodes) (parent nodes) = .ok w') :
    ∃ s', s.step = .ok s' ∧ Frees nodes s' w' := by
  obtain ⟨i, hi⟩ := Option.isSome_iff_exists.mp hpos
  have hlt := h.lt i hi
  have hn := List.getElem?_eq_getElem hlt
  obtain ⟨n', hn', hleft⟩ := h.node i _ hn
  generalize nodes[i] = n at hn hleft
  have hp : ∀ p ∈ parent nodes i, p < nodes.length := fun p hp =>
    lt_of_kids ((htree.mem_kids p i).mpr hp)
  rw [Walk.step, hi, Option.elim_some] at hw
  split_ifs at hw with hdone hzero
  all_goals
    have hvalue : Block.value i ∉ s.freed := by
      rw [h.freed]
      exact fun hmem => hdone (index_mem_of_freed hmem)
    have hstep : s.step = s.visit i n' := by
      rw [Freeing.step, h.value, hi, Option.elim_some, if_neg hvalue, hn', Option.elim_some]
    rw [hstep]
  · obtain rfl := Except.ok.inj hw
    exact h.visit_done hlinked hleft hn hdone hp hzero
  · cases hc : (kids nodes i)[w.left i - 1]? with
    | none =>
      rw [hc] at hw
      cases hw
    | some c =>
      rw [hc] at hw
      obtain rfl := Except.ok.inj hw
      exact h.visit_left hlinked hleft hn hn' hdone hzero hc

end Frees

/-- The start of the loop. -/
theorem Frees.init {n : Node} (hn : nodes[0]? = some n) (hparent : n.cell.parent = none) :
    Frees nodes { nodes := nodes.set 0 { n with cell := { n.cell with parent := none } }, value := some 0 }
      { left := fun i => (kids nodes i).length, pos := some 0, done := [] } where
  value := rfl
  lt := fun i hi => Option.some.inj hi ▸ (List.getElem?_eq_some_iff.mp hn).1
  freed := rfl
  node := by
    intro i m hm
    have hlength : m.cell.type = .array ∨ m.cell.type = .object →
        m.cell.length = (kids nodes i).length := by
      intro htype
      rw [kids, hm, Option.elim_some, Node.children, if_pos htype, List.length_map, List.length_range]
    show ∃ m', (nodes.set 0 _)[i]? = some m' ∧ m.Left m' _
    by_cases hi : i = 0
    · subst hi
      obtain rfl := Option.some.inj (hn.symm.trans hm)
      exact ⟨_, List.getElem?_set_self (List.getElem?_eq_some_iff.mp hn).1, rfl, hparent.symm, rfl,
        rfl, rfl, hlength⟩
    · exact ⟨m, (List.getElem?_set_ne (Ne.symm hi)).trans hm, rfl, rfl, rfl, rfl, rfl, hlength⟩

/-- **`json_value_free`** frees what the parser allocated. -/
theorem Finished.free (h : Finished y v) :
    ∃ freed, jsonValueFree y.nodes = .ok freed ∧ freed.Perm (allocated y.nodes) := by
  obtain ⟨n, hn, hparent⟩ := h.root
  obtain ⟨l, hl, hperm⟩ := h.posts
  have hroot : parent y.nodes 0 = none := by rw [parent, hn, Option.bind_some, hparent]
  obtain ⟨w, hw, -, hdone⟩ := walk_tree h.tree hroot hl
  have hlength : l.length + 1 = y.nodes.length := by simpa using hperm.length_eq
  rw [hlength] at hw
  have hcond : ∀ s w, Frees y.nodes s w → s.value.isSome = w.pos.isSome := fun s w hsw =>
    congrArg Option.isSome hsw.value
  obtain ⟨s, hs, hfrees⟩ := whileLoop_refines (Frees y.nodes) hcond
    (fun s w w' hsw hpos hw' => hsw.step h.linked h.tree hpos hw') (.init hn hparent) hw
  refine ⟨s.freed, ?_, ?_⟩
  · rw [jsonValueFree, hn, Option.elim_some, hs]
    rfl
  · rw [hfrees.freed, hdone]
    exact hperm.flatMap_right _

/-- A block is allocated once. -/
theorem nodup_allocated (nodes : List Node) : (allocated nodes).Nodup := by
  refine List.nodup_flatMap.mpr ⟨fun i _ => ?_, List.nodup_range.imp fun {i j} hne b hb hb' => hne ?_⟩
  · rw [blocksAt, contentsAt]
    split_ifs <;> simp
  · exact (index_of_mem_blocksAt hb).symm.trans (index_of_mem_blocksAt hb')

/-- The passes, and the value that is read from the memory that they leave. -/
theorem passes_nodes (D : Doubles) (text : List UInt8) : passes D text =
    parsedNodes D text >>= fun o => o.elim (.ok none) fun nodes =>
      some <$> readValue nodes nodes.length 0 := by
  rw [passes, parsedNodes]
  cases Json.pass (firstPass D) {} text with
  | error e => rfl
  | ok first =>
    cases first with
    | none => rfl
    | some x =>
      rw [Exec.ok_bind, Exec.ok_bind, Option.elim_some, Option.elim_some]
      cases Json.pass secondPass { nodes := x.cells.map fun cell => { cell } } text with
      | error e => rfl
      | ok second => cases second <;> rfl

end Json

/-- `[7,{"a":[]}]` -/
def freeText : List UInt8 :=
  ['['.toUInt8, '7'.toUInt8, ','.toUInt8, '\x7b'.toUInt8, '\"'.toUInt8, 'a'.toUInt8, '\"'.toUInt8,
    ':'.toUInt8, '['.toUInt8, ']'.toUInt8, '\x7d'.toUInt8, ']'.toUInt8]

open Json in
/-- **Parsing and freeing**: after a text that `json_parse` accepts, `json_value_free` frees each block
that the parser allocated, and each of them once. -/
theorem jsonValueFree_parse (D : Doubles) (json : List UInt8) (h : 24 * json.length < 2 ^ 31)
    {v : JsonValue} (hv : jsonParse D json = .ok (some v)) :
    ∃ nodes freed, parsedNodes D (skipBom json) = .ok (some nodes) ∧
      readValue nodes nodes.length 0 = .ok v ∧ jsonValueFree nodes = .ok freed ∧
      freed.Nodup ∧ freed.Perm (allocated nodes) := by
  rcases pass_cases D (length_skipBom h) with ⟨e, hx, -⟩ | ⟨hx, -⟩ |
    ⟨x, y, z, v', hx, hy, -, -, hfinished⟩
  · rw [jsonParse, passes, hx] at hv
    cases hv
  · rw [jsonParse, passes, hx] at hv
    cases hv
  · have hnodes : parsedNodes D (skipBom json) = .ok (some y.nodes) := by
      rw [parsedNodes, hx, Exec.ok_bind, Option.elim_some, hy]
      rfl
    rw [jsonParse, passes_nodes, hnodes] at hv
    obtain ⟨w, hread, hw⟩ := Exec.map_ok.mp hv
    obtain rfl := Option.some.inj hw
    obtain ⟨freed, hfreed, hperm⟩ := hfinished.free
    exact ⟨y.nodes, freed, hnodes, hread, hfreed, hperm.nodup_iff.mpr (nodup_allocated _), hperm⟩

open Json in
theorem jsonValueFree_parse_list : ∃ nodes freed,
    parsedNodes noDoubles (skipBom freeText) = .ok (some nodes) ∧
      readValue nodes nodes.length 0 = .ok (.array [.integer 7, .object [(['a'.toUInt8, 0], .array [])]]) ∧
      jsonValueFree nodes = .ok freed ∧ freed.Nodup ∧ freed.Perm (allocated nodes) :=
  jsonValueFree_parse noDoubles _ (by decide) (by rfl)

end Cnpv
