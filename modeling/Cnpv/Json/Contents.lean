import Cnpv.Json.Passes
import Mathlib.Data.List.GetD

/-!
# The second pass of the JSON parser

The second pass takes the steps of the first one again, with the final lengths of all values, and
fills their contents. It stays in the memory that it allocates, because the lengths of the first pass
only grow (`Grows`), and it does what the parser with one pass does: the values that are complete are
in its memory (`Stored`), and the open containers have what was read so far (`Holding`).
-/

namespace Cnpv

open CLib

namespace Json

variable {D : Doubles} {nodes nodes' : List Node} {C C' : Nat → Prop} {i : Nat} {v : JsonValue}
  {ids : List Nat} {frames : List Frame} {F cells cells' : List Cell} {f : Frame}

/-! ## Values in memory -/

/-- The node `i` and those below it have the value `v`; all of them are in `C`. -/
inductive Stored (nodes : List Node) (C : Nat → Prop) : Nat → JsonValue → Prop
  | array {i : Nat} {n : Node} {vs : List JsonValue} (hC : C i) (hnode : nodes[i]? = some n)
    (htype : n.cell.type = .array) (hlength : n.cell.length = vs.length)
    (hlt : ∀ (k : Nat) v, vs[k]? = some v → i < n.values k)
    (hvalues : ∀ (k : Nat) v, vs[k]? = some v → Stored nodes C (n.values k) v) :
    Stored nodes C i (.array vs)
  | object {i : Nat} {n : Node} {ms : List (List UInt8 × JsonValue)} (hC : C i)
    (hnode : nodes[i]? = some n) (htype : n.cell.type = .object)
    (hlength : n.cell.length = ms.length)
    (hnames : ∀ (k : Nat) m, ms[k]? = some m → n.charsAt (n.names k).1 (n.names k).2 = m.1)
    (hlt : ∀ (k : Nat) m, ms[k]? = some m → i < n.values k)
    (hvalues : ∀ (k : Nat) m, ms[k]? = some m → Stored nodes C (n.values k) m.2) :
    Stored nodes C i (.object ms)
  | string {i : Nat} {n : Node} {ptr : List UInt8} (hC : C i) (hnode : nodes[i]? = some n)
    (htype : n.cell.type = .string) (hptr : n.charsAt 0 n.cell.length = ptr) :
    Stored nodes C i (.string ptr)
  | integer {i : Nat} {n : Node} (hC : C i) (hnode : nodes[i]? = some n)
    (htype : n.cell.type = .integer) : Stored nodes C i (.integer n.cell.integer)
  | double {i : Nat} {n : Node} (hC : C i) (hnode : nodes[i]? = some n)
    (htype : n.cell.type = .double) : Stored nodes C i (.double n.cell.dbl)
  | boolean {i : Nat} {n : Node} (hC : C i) (hnode : nodes[i]? = some n)
    (htype : n.cell.type = .boolean) : Stored nodes C i (.boolean n.cell.boolean)
  | null {i : Nat} {n : Node} (hC : C i) (hnode : nodes[i]? = some n) (htype : n.cell.type = .null) :
    Stored nodes C i .null

/-- Nodes outside of `C` do not matter. -/
theorem Stored.mono (h : Stored nodes C i v) (heq : ∀ j, C j → C' j ∧ nodes'[j]? = nodes[j]?) :
    Stored nodes' C' i v := by
  induction h with
  | array hC hnode htype hlength hlt _ ih =>
    exact .array (heq _ hC).1 ((heq _ hC).2.trans hnode) htype hlength hlt ih
  | object hC hnode htype hlength hnames hlt _ ih =>
    exact .object (heq _ hC).1 ((heq _ hC).2.trans hnode) htype hlength hnames hlt ih
  | string hC hnode htype hptr => exact .string (heq _ hC).1 ((heq _ hC).2.trans hnode) htype hptr
  | integer hC hnode htype => exact .integer (heq _ hC).1 ((heq _ hC).2.trans hnode) htype
  | double hC hnode htype => exact .double (heq _ hC).1 ((heq _ hC).2.trans hnode) htype
  | boolean hC hnode htype => exact .boolean (heq _ hC).1 ((heq _ hC).2.trans hnode) htype
  | null hC hnode htype => exact .null (heq _ hC).1 ((heq _ hC).2.trans hnode) htype

theorem mapM_ok {α β : Type} {l : List α} {g : α → Exec β} {r : α → β}
    (h : ∀ a ∈ l, g a = .ok (r a)) : l.mapM g = .ok (l.map r) := by
  induction l with
  | nil => rfl
  | cons a l ih =>
    rw [List.mapM_cons, h a (by simp), ih fun b hb => h b (by simp [hb])]
    rfl

/-- Elements read by their index. -/
theorem mapM_range {α : Type} {l : List α} {g : Nat → Exec α}
    (h : ∀ (k : Nat) a, l[k]? = some a → g k = .ok a) : (List.range l.length).mapM g = .ok l := by
  cases l with
  | nil => rfl
  | cons a l =>
    have hget : ∀ k ∈ List.range (a :: l).length, g k = .ok ((a :: l).getD k a) := by
      intro k hk
      refine h k _ ?_
      rw [List.getD_eq_getElem?_getD, List.getElem?_eq_getElem (List.mem_range.mp hk)]
      rfl
    rw [mapM_ok hget]
    refine congrArg Except.ok (List.ext_getElem (by simp) fun k hk hk' => ?_)
    rw [List.getElem_map, List.getElem_range, List.getD_eq_getElem _ _ hk']

/-- **The value is read back.** The nodes of its elements are after its own. -/
theorem Stored.read (h : Stored nodes C i v) {fuel : Nat} (hfuel : nodes.length ≤ fuel + i) :
    readValue nodes fuel i = .ok v := by
  have hlt : ∀ {i : Nat} {n : Node}, nodes[i]? = some n → i < nodes.length := fun hn =>
    (List.getElem?_eq_some_iff.mp hn).1
  induction h generalizing fuel with
  | @array i n vs _ hnode htype hlength hchild _ ih =>
    obtain ⟨fuel, rfl⟩ : ∃ k, fuel = k + 1 := ⟨fuel - 1, by have := hlt hnode; omega⟩
    rw [readValue, hnode, Option.elim_some]
    simp only [htype, hlength]
    rw [mapM_range fun k v hv => ih k v hv (by have := hchild k v hv; omega)]
    rfl
  | @object i n ms _ hnode htype hlength hnames hchild _ ih =>
    obtain ⟨fuel, rfl⟩ : ∃ k, fuel = k + 1 := ⟨fuel - 1, by have := hlt hnode; omega⟩
    rw [readValue, hnode, Option.elim_some]
    simp only [htype, hlength]
    rw [mapM_range fun k m hm => by
      rw [ih k m hm (by have := hchild k m hm; omega), Exec.ok_bind, hnames k m hm]]
    rfl
  | string _ hnode htype hptr =>
    obtain ⟨fuel, rfl⟩ : ∃ k, fuel = k + 1 := ⟨fuel - 1, by have := hlt hnode; omega⟩
    rw [readValue, hnode, Option.elim_some]
    simp only [htype, hptr]
  | integer _ hnode htype =>
    obtain ⟨fuel, rfl⟩ : ∃ k, fuel = k + 1 := ⟨fuel - 1, by have := hlt hnode; omega⟩
    rw [readValue, hnode, Option.elim_some]
    simp only [htype]
  | double _ hnode htype =>
    obtain ⟨fuel, rfl⟩ : ∃ k, fuel = k + 1 := ⟨fuel - 1, by have := hlt hnode; omega⟩
    rw [readValue, hnode, Option.elim_some]
    simp only [htype]
  | boolean _ hnode htype =>
    obtain ⟨fuel, rfl⟩ : ∃ k, fuel = k + 1 := ⟨fuel - 1, by have := hlt hnode; omega⟩
    rw [readValue, hnode, Option.elim_some]
    simp only [htype]
  | null _ hnode htype =>
    obtain ⟨fuel, rfl⟩ : ∃ k, fuel = k + 1 := ⟨fuel - 1, by have := hlt hnode; omega⟩
    rw [readValue, hnode, Option.elim_some]
    simp only [htype]

/-! ## Characters -/

/-- Characters that are written one after the other. -/
theorem putChars_loop (start : Nat) (l : List UInt8) (k : Nat) (n : Node)
    (h : start + k + l.length ≤ n.charsRoom) :
    runFrom (fun n e => Node.putChar n (start + e.2) e.1) n (l.zipIdx k) = .ok { n with
      chars := fun j => if start + k ≤ j ∧ j < start + k + l.length then l.getD (j - (start + k)) 0
        else n.chars j } := by
  induction l generalizing k n with
  | nil =>
    refine congrArg Except.ok (congrArg (fun chars => { n with chars }) (funext fun j => ?_))
    rw [if_neg fun hj => Nat.not_lt.mpr hj.1 hj.2]
  | cons b l ih =>
    have hlt : start + k < n.charsRoom := by
      rw [List.length_cons] at h
      omega
    rw [List.zipIdx_cons, runFrom_cons, Node.putChar, if_pos hlt, Exec.ok_bind,
      ih (k + 1) _ (by rw [List.length_cons] at h; show _ ≤ n.charsRoom; omega)]
    refine congrArg Except.ok (congrArg (fun chars => { n with chars }) (funext fun j => ?_))
    rw [List.length_cons]
    by_cases hj : j = start + k
    · subst hj
      rw [if_neg (by omega), if_pos (by omega), Nat.sub_self]
      exact Function.update_self _ _ _
    · by_cases hin : start + (k + 1) ≤ j ∧ j < start + (k + 1) + l.length
      · rw [if_pos hin, if_pos (by omega), show j - (start + k) = j - (start + (k + 1)) + 1 by omega]
        rfl
      · rw [if_neg hin, if_neg (by omega)]
        exact Function.update_of_ne hj _ _

/-- The characters of a string that fits. -/
theorem putChars_ok (n : Node) (start : Nat) (bytes : List UInt8)
    (h : start + (bytes.length + 1) ≤ n.charsRoom) :
    ∃ chars, n.putChars start bytes = .ok { n with chars } ∧
      (∀ j < start, chars j = n.chars j) ∧
      (List.range (bytes.length + 1)).map (fun k => chars (start + k)) = bytes ++ [0] := by
  have hlen : (bytes ++ [0]).length = bytes.length + 1 := by simp
  refine ⟨_, putChars_loop start (bytes ++ [0]) 0 n (by rw [hlen]; exact h), fun j hj => ?_, ?_⟩
  · exact if_neg (by omega)
  · refine List.ext_getElem (by simp) fun k hk hk' => ?_
    rw [List.getElem_map, List.getElem_range, if_pos (by omega), Nat.add_zero, Nat.add_sub_cancel_left,
      List.getD_eq_getElem _ _ hk']

/-! ## The lengths grow -/

/-- A value later in the first pass. -/
structure Cell.Grown (c c' : Cell) : Prop where
  type : c'.type = c.type
  parent : c'.parent = c.parent
  integer : c'.integer = c.integer
  dbl : c'.dbl = c.dbl
  boolean : c'.boolean = c.boolean
  names : c.names ≤ c'.names
  length : c.length ≤ c'.length
  fixed : c.type ≠ .array → c.type ≠ .object → c'.length = c.length

theorem Cell.Grown.refl (c : Cell) : c.Grown c :=
  ⟨rfl, rfl, rfl, rfl, rfl, Nat.le_refl _, Nat.le_refl _, fun _ _ => rfl⟩

theorem Cell.Grown.trans {c c' c'' : Cell} (h : c.Grown c') (h' : c'.Grown c'') : c.Grown c'' where
  type := h'.type.trans h.type
  parent := h'.parent.trans h.parent
  integer := h'.integer.trans h.integer
  dbl := h'.dbl.trans h.dbl
  boolean := h'.boolean.trans h.boolean
  names := h.names.trans h'.names
  length := h.length.trans h'.length
  fixed := fun harray hobject =>
    (h'.fixed (h.type ▸ harray) (h.type ▸ hobject)).trans (h.fixed harray hobject)

/-- The values later in the first pass. -/
def Grows (cells cells' : List Cell) : Prop :=
  ∀ (i : Nat) c, cells[i]? = some c → ∃ c', cells'[i]? = some c' ∧ c.Grown c'

theorem Grows.refl (cells : List Cell) : Grows cells cells := fun _ c hc => ⟨c, hc, .refl c⟩

theorem Grows.trans {cells'' : List Cell} (h : Grows cells cells') (h' : Grows cells' cells'') :
    Grows cells cells'' := by
  intro i c hc
  obtain ⟨c', hc', hgrown⟩ := h i c hc
  obtain ⟨c'', hc'', hgrown'⟩ := h' i c' hc'
  exact ⟨c'', hc'', hgrown.trans hgrown'⟩

theorem Grows.append (cells : List Cell) (c : Cell) : Grows cells (cells ++ [c]) := by
  intro i c' hc'
  have hlt := (List.getElem?_eq_some_iff.mp hc').1
  exact ⟨c', (List.getElem?_append_left hlt).trans hc', .refl c'⟩

theorem Grows.set {c c' : Cell} (hc : cells[i]? = some c) (h : c.Grown c') :
    Grows cells (cells.set i c') := by
  intro j d hd
  by_cases hj : j = i
  · subst hj
    obtain rfl := Option.some.inj (hc.symm.trans hd)
    exact ⟨c', List.getElem?_set_self (List.getElem?_eq_some_iff.mp hc).1, h⟩
  · exact ⟨d, (List.getElem?_set_ne (Ne.symm hj)).trans hd, .refl d⟩

section Moves

variable {x : First} {z : Stack} {flags : Flags} {rest : List UInt8} {s s' : Parse First}
  {t t' : Parse Stack} {ids' : List Nat} {a : Action}

theorem Attaches.grows (h : Attaches x z v flags rest ids frames s' t' ids') :
    Grows x.cells s'.values.cells := by
  cases h with
  | root => exact .refl _
  | child hp htype hlength hname =>
    refine .set hp ⟨rfl, rfl, rfl, rfl, rfl, Nat.le_refl _, Nat.le_succ _, fun harray hobject => ?_⟩
    rcases Frame.type_cases _ with hf | hf
    · exact absurd (htype.trans hf) harray
    · exact absurd (htype.trans hf) hobject

theorem Moves.grows (h : Moves D s t ids a s' t' ids') : Grows s.values.cells s'.values.cells := by
  cases h with
  | skip => exact .refl _
  | opens htype => exact .append _ _
  | value h => exact (Grows.append _ _).trans h.grows
  | number hnumber h => exact (Grows.append _ _).trans h.grows
  | name hids hframes hcell htype hnames =>
    exact .set hcell ⟨rfl, rfl, rfl, rfl, rfl, Nat.le_add_right _ _, Nat.le_refl _, fun _ _ => rfl⟩
  | closes hids hframes hname h => exact h.grows

/-- A value without elements has no names, so that its pointer is `NULL`; for those that are not
open. -/
def Blank (cells : List Cell) (ids : List Nat) : Prop :=
  ∀ (j : Nat) c, cells[j]? = some c → j ∉ ids → c.length = 0 → c.names = 0

theorem Blank.append (h : Blank cells ids) {c : Cell} (hc : c.names = 0) :
    Blank (cells ++ [c]) ids := by
  intro j c' hc' hj hzero
  rcases Nat.lt_or_ge j cells.length with hlt | hge
  · exact h j c' ((List.getElem?_append_left hlt).symm.trans hc') hj hzero
  · rw [List.getElem?_append_right hge] at hc'
    obtain rfl := List.mem_singleton.mp (List.mem_of_getElem? hc')
    exact hc

theorem Blank.set (h : Blank cells ids) (hi : i ∈ ids) (c : Cell) : Blank (cells.set i c) ids :=
  fun j c' hc' hj =>
    h j c' ((List.getElem?_set_ne (ne_of_mem_of_not_mem hi hj)).symm.trans hc') hj

theorem Frame.namesSize_of_empty (hlength : f.length = 0) (hpending : f.pending = false) :
    f.namesSize = 0 := by
  cases f with
  | array vs => rfl
  | object ms name =>
    obtain rfl := List.length_eq_zero_iff.mp hlength
    obtain rfl : name = none := Option.not_isSome_iff_eq_none.mp (by simpa [pending] using hpending)
    rfl

theorem Attaches.blank (h : Attaches x z v flags rest ids frames s' t' ids')
    (hx : Blank x.cells ids) : Blank s'.values.cells ids' := by
  cases h with
  | root => exact hx
  | child => exact hx.set (by simp) _

theorem Moves.blank (h : Moves D s t ids a s' t' ids')
    (hopened : Opened s.values.cells ids t.values.frames) (hs : Blank s.values.cells ids) :
    Blank s'.values.cells ids' := by
  cases h with
  | skip => exact hs
  | opens htype =>
    exact fun j c hc hj => hs.append rfl j c hc fun hmem => hj (List.mem_cons_of_mem _ hmem)
  | @value l _ _ _ _ _ h => exact h.blank (hs.append (by cases l <;> rfl))
  | number hnumber h => exact h.blank (hs.append rfl)
  | name hids hframes hcell htype hnames => exact hs.set (by simp [hids]) _
  | @closes _ _ i ids' _ f frames _ _ hids hframes hname h =>
    refine h.blank fun j c hc hj hzero => ?_
    rw [hids, hframes] at hopened
    cases hopened with
    | @cons _ _ _ _ c' hcell _ _ hlength hnames =>
      by_cases hji : j = i
      · subst hji
        obtain rfl : c = c' := Option.some.inj (hc.symm.trans hcell)
        exact hnames.trans (Frame.namesSize_of_empty (hlength.symm.trans hzero) hname)
      · exact hs j c hc (by simp [hids, hji, hj]) hzero

/-- The containers that are open get more elements. -/
def AwaitsAll (F : List Cell) (ids : List Nat) (frames : List Frame) : Prop :=
  ∀ (k : Nat) i f, ids[k]? = some i → frames[k]? = some f → ∃ c, F[i]? = some c ∧ f.length < c.length

/-- The containers that wait for a value get it: those with an open container in them, and the
innermost one when it has a name. -/
def Awaits (F : List Cell) (ids : List Nat) (frames : List Frame) : Prop :=
  ∀ (k : Nat) i f, ids[k]? = some i → frames[k]? = some f → 0 < k ∨ f.pending = true →
    ∃ c, F[i]? = some c ∧ f.length < c.length

/-- Backwards over `flag_next`. -/
theorem Attaches.awaits (h : Attaches x z v flags rest ids frames s' t' ids')
    (hgrow : Grows s'.values.cells F) (hawait : Awaits F ids' t'.values.frames) :
    AwaitsAll F ids frames := by
  cases h with
  | root => exact fun k i f hi => by cases hi
  | @child p ids f frames q hp htype hlength hname =>
    intro k i g hi hg
    cases k with
    | zero =>
      obtain rfl := Option.some.inj hi
      obtain rfl := Option.some.inj hg
      obtain ⟨c, hc, hgrown⟩ := hgrow p _ (List.getElem?_set_self (List.getElem?_eq_some_iff.mp hp).1)
      refine ⟨c, hc, ?_⟩
      rw [← hlength]
      exact hgrown.length
    | succ k => exact hawait (k + 1) i g hi hg (.inl (Nat.succ_pos k))

/-- Backwards over a step. -/
theorem Moves.awaits (h : Moves D s t ids a s' t' ids') (hgrow : Grows s'.values.cells F)
    (hawait : Awaits F ids' t'.values.frames) : Awaits F ids t.values.frames := by
  cases h with
  | skip => exact hawait
  | opens htype => exact fun k i f hi hf _ => hawait (k + 1) i f hi hf (.inl (Nat.succ_pos k))
  | value h => exact fun k i f hi hf _ => h.awaits hgrow hawait k i f hi hf
  | number hnumber h => exact fun k i f hi hf _ => h.awaits hgrow hawait k i f hi hf
  | name hids hframes hcell htype hnames =>
    intro k i f hi hf hk
    rw [hframes] at hf
    cases k with
    | zero =>
      obtain rfl := Option.some.inj hf
      exact absurd (hk.resolve_left (Nat.lt_irrefl 0)) (by simp [Frame.pending])
    | succ k => exact hawait (k + 1) i f hi hf hk
  | closes hids hframes hname h =>
    intro k i f hi hf hk
    rw [hframes] at hf
    rw [hids] at hi
    cases k with
    | zero =>
      obtain rfl := Option.some.inj hf
      exact absurd (hk.resolve_left (Nat.lt_irrefl 0)) (by simp [hname])
    | succ k => exact h.awaits hgrow hawait k i f hi hf

end Moves

/-! ## What the second pass has -/

namespace Frame

/-- The values read so far. -/
def values : Frame → List JsonValue
  | array vs => vs
  | object ms _ => ms.map Prod.snd

/-- The names read so far. -/
def names : Frame → List (List UInt8)
  | array _ => []
  | object ms name => ms.map Prod.fst ++ name.toList

@[simp] theorem length_values (f : Frame) : f.values.length = f.length := by
  cases f with
  | array vs => rfl
  | object ms name => exact List.length_map _

theorem values_add (f : Frame) (v : JsonValue) : (f.add v).values = f.values ++ [v] := by
  cases f with
  | array vs => rfl
  | object ms name => exact List.map_append

theorem names_add {f : Frame} (h : f.hasName = true) (v : JsonValue) : (f.add v).names = f.names := by
  cases f with
  | array vs => rfl
  | object ms name =>
    obtain ⟨bytes, rfl⟩ := Option.isSome_iff_exists.mp h
    simp [add, names]

end Frame

/-- The node `n` has what the open container `f` has; `c` is its cell after the first pass. -/
structure Holds (nodes : List Node) (C : Nat → Prop) (i : Nat) (n : Node) (c : Cell) (f : Frame) :
    Prop where
  type : n.cell.type = f.type
  length : n.cell.length = f.length
  room : n.room = c.length
  values : ∀ (k : Nat) v, f.values[k]? = some v → i < n.values k ∧ Stored nodes C (n.values k) v
  names : ∀ (k : Nat) m, f.names[k]? = some m → n.charsAt (n.names k).1 (n.names k).2 = m ∧
    (n.names k).1 + (n.names k).2 < n.object_mem
  mem : n.object_mem = f.namesSize
  chars : f.type = .object → c.length ≠ 0 → n.charsRoom = c.names

/-- The nodes `ids` have what the open containers have. -/
inductive Holding (F : List Cell) (nodes : List Node) (C : Nat → Prop) :
    List Nat → List Frame → Prop
  | nil : Holding F nodes C [] []
  | cons {i : Nat} {ids : List Nat} {f : Frame} {frames : List Frame} {n : Node} {c : Cell}
    (hcell : F[i]? = some c) (hnode : nodes[i]? = some n) (hparent : n.cell.parent = ids.head?)
    (hholds : Holds nodes C i n c f) (hlt : ∀ j ∈ ids, j < i) (hrest : Holding F nodes C ids frames) :
    Holding F nodes C (i :: ids) (f :: frames)

theorem Holds.mono {n : Node} {c : Cell} (h : Holds nodes C i n c f)
    (heq : ∀ j, C j → C' j ∧ nodes'[j]? = nodes[j]?) : Holds nodes' C' i n c f where
  type := h.type
  length := h.length
  room := h.room
  values := fun k v hv => ⟨(h.values k v hv).1, (h.values k v hv).2.mono heq⟩
  names := h.names
  mem := h.mem
  chars := h.chars

theorem Holding.mono (h : Holding F nodes C ids frames)
    (heq : ∀ j, C j → C' j ∧ nodes'[j]? = nodes[j]?) (hids : ∀ i ∈ ids, nodes'[i]? = nodes[i]?) :
    Holding F nodes' C' ids frames := by
  induction h with
  | nil => exact .nil
  | cons hcell hnode hparent hholds hlt _ ih =>
    exact .cons hcell ((hids _ (by simp)).trans hnode) hparent (hholds.mono heq) hlt
      (ih fun i hi => hids i (by simp [hi]))

/-- The nodes that have complete values, when `m` values were made. -/
def Closed (m : Nat) (ids : List Nat) (i : Nat) : Prop := i < m ∧ i ∉ ids

/-! ## Who has which value -/

/-- The elements of a container. -/
def Node.children (n : Node) : List Nat :=
  if n.cell.type = .array ∨ n.cell.type = .object then (List.range n.cell.length).map n.values else []

/-- The node `n` at `p` has its elements, which are in `C` and after it, in its memory. -/
structure Links (nodes : List Node) (C : Nat → Prop) (p : Nat) (n : Node) : Prop where
  child : ∀ c ∈ n.children, p < c ∧ C c ∧ ∃ n', nodes[c]? = some n' ∧ n'.cell.parent = some p
  nodup : n.children.Nodup
  room : n.children.length ≤ n.room
  /-- The pointer of a container without elements is `NULL`. -/
  blank : n.cell.type = .array ∨ n.cell.type = .object → n.room = 0 → n.cell.names = 0

/-- Of the `m` values that were made all but `ids` are elements of one of them. -/
structure Linked (nodes : List Node) (m : Nat) (ids : List Nat) : Prop where
  node : ∀ (p : Nat) n, p < m → nodes[p]? = some n → Links nodes (Closed m ids) p n
  attached : ∀ c, Closed m ids c → ∃ p n, p < m ∧ nodes[p]? = some n ∧ c ∈ n.children

section Linked

variable {m p : Nat} {n n' : Node}

theorem Node.children_of_leaf (h : n.cell.type ≠ .array) (h' : n.cell.type ≠ .object) :
    n.children = [] := if_neg (not_or.mpr ⟨h, h'⟩)

theorem Links.mono (h : Links nodes C p n) (heq : ∀ c ∈ n.children, C c → C' c)
    (hparent : ∀ c n', C c → nodes[c]? = some n' →
      ∃ n'', nodes'[c]? = some n'' ∧ n''.cell.parent = n'.cell.parent) : Links nodes' C' p n where
  child c hc := by
    obtain ⟨hlt, hC, n', hn', hp⟩ := h.child c hc
    obtain ⟨n'', hn'', hp'⟩ := hparent c n' hC hn'
    exact ⟨hlt, heq c hc hC, n'', hn'', hp'.trans hp⟩
  nodup := h.nodup
  room := h.room
  blank := h.blank

/-- A new value, which is no element yet and has none. -/
theorem Linked.grow (h : Linked nodes m ids) (hm : m < nodes.length) (hids : ∀ j ∈ ids, j < m)
    (hchildren : n.children = [])
    (hblank : n.cell.type = .array ∨ n.cell.type = .object → n.room = 0 → n.cell.names = 0) :
    Linked (nodes.set m n) (m + 1) (m :: ids) := by
  have hkeep : ∀ j ≠ m, (nodes.set m n)[j]? = nodes[j]? := fun j hj =>
    List.getElem?_set_ne (Ne.symm hj)
  have hclosed : ∀ c, Closed (m + 1) (m :: ids) c ↔ Closed m ids c := by
    intro c
    simp only [Closed, List.mem_cons, not_or]
    exact ⟨fun ⟨hlt, hne, hc⟩ => ⟨by omega, hc⟩, fun ⟨hlt, hc⟩ => ⟨by omega, by omega, hc⟩⟩
  constructor
  · intro p n' hp hn'
    rcases Nat.lt_or_eq_of_le (Nat.le_of_lt_succ hp) with hp | rfl
    · rw [hkeep p (Nat.ne_of_lt hp)] at hn'
      refine (h.node p n' hp hn').mono (fun c _ hc => (hclosed c).mpr hc) fun c n'' hc hn'' => ?_
      exact ⟨n'', (hkeep c (Nat.ne_of_lt hc.1)).trans hn'', rfl⟩
    · rw [List.getElem?_set_self hm] at hn'
      obtain rfl := Option.some.inj hn'
      exact {
        child := fun c hc => by
          rw [hchildren] at hc
          cases hc
        nodup := by
          rw [hchildren]
          exact List.nodup_nil
        room := by
          rw [hchildren]
          exact Nat.zero_le _
        blank := hblank }
  · intro c hc
    obtain ⟨p, n', hp, hn', hmem⟩ := h.attached c ((hclosed c).mp hc)
    exact ⟨p, n', Nat.lt_succ_of_lt hp, (hkeep p (Nat.ne_of_lt hp)).trans hn', hmem⟩

/-- A store that keeps the elements. -/
theorem Linked.store (h : Linked nodes m ids) (hn : nodes[p]? = some n) (hcell : n'.cell = n.cell)
    (hvalues : n'.values = n.values) (hroom : n'.room = n.room) : Linked (nodes.set p n') m ids := by
  have hchildren : n'.children = n.children := by rw [Node.children, Node.children, hcell, hvalues]
  have hplen : p < nodes.length := (List.getElem?_eq_some_iff.mp hn).1
  have hparent : ∀ (c : Nat) n₁, nodes[c]? = some n₁ →
      ∃ n₂, (nodes.set p n')[c]? = some n₂ ∧ n₂.cell.parent = n₁.cell.parent := by
    intro c n₁ hn₁
    by_cases hc : c = p
    · subst hc
      obtain rfl := Option.some.inj (hn.symm.trans hn₁)
      exact ⟨n', List.getElem?_set_self hplen, by rw [hcell]⟩
    · exact ⟨n₁, (List.getElem?_set_ne (Ne.symm hc)).trans hn₁, rfl⟩
  constructor
  · intro q n₁ hq hn₁
    by_cases hqp : q = p
    · subst hqp
      rw [List.getElem?_set_self hplen] at hn₁
      obtain rfl := Option.some.inj hn₁
      have hlinks := (h.node q n hq hn).mono (fun c _ hc => hc) fun c n' _ hn' => hparent c n' hn'
      exact {
        child := hchildren ▸ hlinks.child
        nodup := hchildren ▸ hlinks.nodup
        room := by
          rw [hchildren, hroom]
          exact hlinks.room
        blank := by
          rw [hcell, hroom]
          exact hlinks.blank }
    · rw [List.getElem?_set_ne (Ne.symm hqp)] at hn₁
      exact (h.node q n₁ hq hn₁).mono (fun c _ hc => hc) fun c n' _ hn' => hparent c n' hn'
  · intro c hc
    obtain ⟨q, n₁, hq, hn₁, hmem⟩ := h.attached c hc
    by_cases hqp : q = p
    · subst hqp
      obtain rfl := Option.some.inj (hn.symm.trans hn₁)
      exact ⟨q, n', hq, List.getElem?_set_self hplen, hchildren.symm ▸ hmem⟩
    · exact ⟨q, n₁, hq, (List.getElem?_set_ne (Ne.symm hqp)).trans hn₁, hmem⟩

/-- The complete value `i` is one more element of `p`. -/
theorem Linked.attach (h : Linked nodes m (i :: p :: ids)) (hn : nodes[p]? = some n)
    (htype : n.cell.type = .array ∨ n.cell.type = .object) (hlt : p < i) (him : i < m)
    (hids : i ∉ p :: ids) (hi : ∃ n', nodes[i]? = some n' ∧ n'.cell.parent = some p)
    (hroom : n.cell.length < n.room) :
    Linked (nodes.set p { n with
      values := Function.update n.values n.cell.length i
      cell := { n.cell with length := n.cell.length + 1 } }) m (p :: ids) := by
  generalize hn' : ({ n with
    values := Function.update n.values n.cell.length i
    cell := { n.cell with length := n.cell.length + 1 } } : Node) = n'
  have hparent' : n'.cell.parent = n.cell.parent := by rw [← hn']
  have hlength : n.children.length = n.cell.length := by
    rw [Node.children, if_pos htype, List.length_map, List.length_range]
  have hvalues : n'.values = Function.update n.values n.cell.length i := by rw [← hn']
  have hlength' : n'.cell.length = n.cell.length + 1 := by rw [← hn']
  have htype' : n'.cell.type = n.cell.type := by rw [← hn']
  have hchildren : n'.children = n.children ++ [i] := by
    rw [Node.children, Node.children, htype', if_pos htype, if_pos htype, hlength', hvalues,
      List.range_succ, List.map_append, List.map_singleton, Function.update_self]
    refine congrArg (· ++ [i]) (List.map_congr_left fun k hk => Function.update_of_ne ?_ _ _)
    exact Nat.ne_of_lt (List.mem_range.mp hk)
  have hplen : p < nodes.length := (List.getElem?_eq_some_iff.mp hn).1
  have hclosed : ∀ c, Closed m (i :: p :: ids) c → Closed m (p :: ids) c := fun c hc =>
    ⟨hc.1, fun hmem => hc.2 (List.mem_cons_of_mem _ hmem)⟩
  have hparent : ∀ (c : Nat) n₁, nodes[c]? = some n₁ →
      ∃ n₂, (nodes.set p n')[c]? = some n₂ ∧ n₂.cell.parent = n₁.cell.parent := by
    intro c n₁ hn₁
    by_cases hc : c = p
    · subst hc
      obtain rfl := Option.some.inj (hn.symm.trans hn₁)
      exact ⟨n', List.getElem?_set_self hplen, hparent'⟩
    · exact ⟨n₁, (List.getElem?_set_ne (Ne.symm hc)).trans hn₁, rfl⟩
  constructor
  · intro q n₁ hq hn₁
    by_cases hqp : q = p
    · subst hqp
      rw [List.getElem?_set_self hplen] at hn₁
      obtain rfl := Option.some.inj hn₁
      have hlinks := h.node q n hq hn
      exact {
        child := by
          intro c hc
          rw [hchildren] at hc
          rcases List.mem_append.mp hc with hc | hc
          · obtain ⟨hlt, hC, n₁, hn₁, hp⟩ := hlinks.child c hc
            obtain ⟨n₂, hn₂, hp'⟩ := hparent c n₁ hn₁
            exact ⟨hlt, hclosed c hC, n₂, hn₂, hp'.trans hp⟩
          · obtain rfl := List.mem_singleton.mp hc
            obtain ⟨n₁, hn₁, hp⟩ := hi
            obtain ⟨n₂, hn₂, hp'⟩ := hparent c n₁ hn₁
            exact ⟨hlt, ⟨him, hids⟩, n₂, hn₂, hp'.trans hp⟩
        nodup := by
          rw [hchildren, List.nodup_append]
          refine ⟨hlinks.nodup, List.nodup_singleton i, fun c hc c' hc' => ?_⟩
          rintro rfl
          exact (hlinks.child c hc).2.1.2 (by simp [List.mem_singleton.mp hc'])
        room := by
          rw [hchildren, List.length_append, hlength, ← hn']
          exact hroom
        blank := fun _ hzero => by
          rw [← hn'] at hzero
          exact absurd (show n.room = 0 from hzero) (Nat.ne_of_gt (Nat.zero_lt_of_lt hroom)) }
    · rw [List.getElem?_set_ne (Ne.symm hqp)] at hn₁
      exact (h.node q n₁ hq hn₁).mono (fun c _ hc => hclosed c hc) fun c n' _ hn' => hparent c n' hn'
  · intro c hc
    by_cases hci : c = i
    · subst hci
      exact ⟨p, n', Nat.lt_trans hlt him, List.getElem?_set_self hplen, by simp [hchildren]⟩
    · have hc' : Closed m (i :: p :: ids) c := ⟨hc.1, fun hmem =>
        (List.mem_cons.mp hmem).elim hci hc.2⟩
      obtain ⟨q, n₁, hq, hn₁, hmem⟩ := h.attached c hc'
      by_cases hqp : q = p
      · subst hqp
        obtain rfl := Option.some.inj (hn.symm.trans hn₁)
        exact ⟨q, n', hq, List.getElem?_set_self hplen, by simp [hchildren, hmem]⟩
      · exact ⟨q, n₁, hq, (List.getElem?_set_ne (Ne.symm hqp)).trans hn₁, hmem⟩

end Linked

/-- The second pass, when `m` values were made and `ids` are open. -/
structure Filling (F : List Cell) (m : Nat) (y : Second) (ids : List Nat) (frames : List Frame) :
    Prop where
  nodes : y.nodes.length = F.length
  alloc : y.alloc = m
  top : y.top = ids.head?
  fresh : ∀ j, m ≤ j → y.nodes[j]? = F[j]?.map fun cell => { cell }
  lt : ∀ j ∈ ids, j < m
  root : ∀ j ∈ ids.getLast?, j = 0
  start : ids = [] → m = 0
  holding : Holding F y.nodes (Closed m ids) ids frames
  linked : Linked y.nodes m ids

/-- The second pass with the complete value `v` in the node `i`, which is for `frames`. -/
structure Filled (F : List Cell) (m : Nat) (y : Second) (i : Nat) (ids : List Nat)
    (frames : List Frame) (v : JsonValue) : Prop where
  nodes : y.nodes.length = F.length
  alloc : y.alloc = m
  top : y.top = some i
  fresh : ∀ j, m ≤ j → y.nodes[j]? = F[j]?.map fun cell => { cell }
  lt : ∀ j ∈ ids, j < m
  root : ∀ j ∈ (i :: ids).getLast?, j = 0
  above : ∀ j ∈ ids, j < i
  holding : Holding F y.nodes (Closed m ids) ids frames
  stored : Stored y.nodes (Closed m ids) i v
  parent : ∃ n, y.nodes[i]? = some n ∧ n.cell.parent = ids.head?
  lt_made : i < m
  linked : Linked y.nodes m (i :: ids)

/-- The second pass after the root, which has the value `v`. -/
structure Finished (y : Second) (v : JsonValue) : Prop where
  stored : Stored y.nodes (Closed y.nodes.length []) 0 v
  linked : Linked y.nodes y.nodes.length [0]
  root : ∃ n, y.nodes[0]? = some n ∧ n.cell.parent = none

theorem Second.modify_ok {y : Second} {n n' : Node} {g : Node → Exec Node}
    (h : y.nodes[i]? = some n) (hg : g n = .ok n') :
    y.modify (some i) g = .ok { y with nodes := y.nodes.set i n' } := by
  rw [modify, Option.bind_some, h, Option.map_some, hg]
  rfl

/-! ## `flag_next` -/

section Attach

variable {m : Nat} {y : Second} {x : First} {z : Stack} {flags : Flags} {rest : List UInt8}
  {s : Parse First} {t : Parse Stack} {ids' : List Nat}

/-- The value is in its container. -/
theorem Holds.add {n : Node} {c : Cell} {p : Nat} (h : Holds nodes C p n c f)
    (hv : Stored nodes C i v) (hi : p < i) (hname : f.hasName = true) :
    Holds nodes C p { n with
      values := Function.update n.values n.cell.length i
      cell := { n.cell with length := n.cell.length + 1 } } c (f.add v) where
  type := h.type.trans Frame.type_add.symm
  length := by
    rw [Frame.length_add, ← h.length]
  room := h.room
  values := by
    intro k w hw
    rw [Frame.values_add, List.getElem?_append] at hw
    show p < Function.update n.values n.cell.length i k ∧
      Stored nodes C (Function.update n.values n.cell.length i k) w
    rw [h.length]
    split at hw
    · next hk =>
      rw [Frame.length_values] at hk
      rw [Function.update_of_ne (Nat.ne_of_lt hk)]
      exact h.values k w hw
    · next hk =>
      rw [Frame.length_values] at hk hw
      have hlt := (List.getElem?_eq_some_iff.mp hw).1
      rw [List.length_singleton] at hlt
      obtain rfl : k = f.length := by omega
      rw [Nat.sub_self] at hw
      obtain rfl := Option.some.inj hw
      rw [Function.update_self]
      exact ⟨hi, hv⟩
  names := by
    rw [Frame.names_add hname]
    exact h.names
  mem := h.mem.trans Frame.namesSize_add.symm
  chars := fun hf => h.chars (Frame.type_add.symm.trans hf)

/-- What the second pass has after `flag_next`. -/
def AfterNext (F : List Cell) (m : Nat) (y : Second) (ids : List Nat) (flags : Flags) (z : Stack) :
    Prop :=
  (flags.done = false ∧ Filling F m y ids z.frames) ∨
    (flags.done = true ∧ (m = F.length → ∃ v, z.value = some v ∧ Finished y v))

/-- **`flag_next`** in the second pass: the store is in the memory of the container. -/
theorem Filled.next (h : Filled F m y i ids frames v)
    (hattach : Attaches x z v flags rest ids frames s t ids') (hdone : flags.done = false)
    (hawait : AwaitsAll F ids frames) (hbound : ∀ c ∈ F, c.length ≤ UINT_LIMIT) :
    ∃ y', flagNext secondPass flags rest y = .ok (.go ⟨s.flags, y', s.rest⟩) ∧
      AfterNext F m y' ids' s.flags t.values := by
  obtain ⟨n, hnode, hparent⟩ := h.parent
  have htop : y.topNode = some n := by rw [Second.topNode, h.top]; exact hnode
  have hy : flagNext secondPass flags rest y = Second.next y >>= _ := rfl
  rw [hy]
  cases hattach with
  | root =>
    have hroot : i = 0 := h.root i rfl
    have hnext : y.next = .ok (.root y) := by
      rw [Second.next, htop, Option.elim_some, hparent]
      rfl
    rw [hnext]
    subst hroot
    refine ⟨y, rfl, .inr ⟨rfl, fun hm => ⟨v, rfl, ?_⟩⟩⟩
    obtain rfl : m = y.nodes.length := hm.trans h.nodes.symm
    exact ⟨h.stored, h.linked, n, hnode, hparent⟩
  | @child p ids f frames q hp htype hlength hname =>
    have hholding := h.holding
    cases hholding with
    | @cons _ _ _ _ np c hcell hpnode hpparent hholds hlt hrest =>
      obtain ⟨c', hc', hless⟩ := hawait 0 p f rfl rfl
      obtain rfl : c = c' := Option.some.inj (hcell.symm.trans hc')
      have hfits : np.cell.length < np.room := by rw [hholds.length, hholds.room]; exact hless
      have hput : np.putValue (y.top.getD 0) = .ok { np with
          values := Function.update np.values np.cell.length i
          cell := { np.cell with length := np.cell.length + 1 } } := by
        rw [Node.putValue, if_pos hfits, h.top]
        rfl
      have hplen : p < y.nodes.length := (List.getElem?_eq_some_iff.mp hpnode).1
      have hset := fun n' : Node => List.getElem?_set_self (a := n') hplen
      have hkeep : ∀ n', ∀ j ≠ p, (y.nodes.set p n')[j]? = y.nodes[j]? :=
        fun n' j hj => List.getElem?_set_ne (Ne.symm hj)
      have hclosed : ∀ n' : Node, ∀ j, Closed m (p :: ids) j →
          Closed m (p :: ids) j ∧ (y.nodes.set p n')[j]? = y.nodes[j]? :=
        fun n' j hj => ⟨hj, hkeep n' j fun e => hj.2 (by simp [e])⟩
      have hsmall : ¬ UINT_LIMIT < np.cell.length + 1 := by
        have := hbound c (List.mem_of_getElem? hcell)
        rw [hholds.length]
        omega
      have hnext : y.next = .ok (.child q.type { y with
          nodes := y.nodes.set p { np with
            values := Function.update np.values np.cell.length i
            cell := { np.cell with length := np.cell.length + 1 } }
          top := some p }) := by
        rw [Second.next, htop, Option.elim_some, hparent, List.head?_cons,
          if_neg (Option.some_ne_none p), Second.modify_ok hpnode hput, Exec.ok_bind]
        show Option.elim ((y.nodes.set p _)[p]?) _ _ = _
        rw [hset, Option.elim_some, if_neg hsmall, htype, ← hholds.type]
      rw [hnext]
      refine ⟨_, rfl, .inl ⟨hdone, ?_⟩⟩
      exact {
        nodes := (List.length_set ..).trans h.nodes
        alloc := h.alloc
        top := rfl
        fresh := fun j hj => (hkeep _ j fun e => by
          have := h.lt p (by simp)
          omega).trans (h.fresh j hj)
        lt := h.lt
        root := fun j hj => h.root j (by rw [List.getLast?_cons_cons]; exact hj)
        start := fun e => by cases e
        holding := .cons hcell (hset _) hpparent
          ((hholds.add h.stored (h.above p (by simp)) hname).mono (hclosed _)) hlt
          (hrest.mono (hclosed _) fun j hj => hkeep _ j (Nat.ne_of_lt (hlt j hj)))
        linked := h.linked.attach hpnode (hholds.type ▸ f.type_cases) (h.above p (by simp)) h.lt_made
          (fun hi => Nat.lt_irrefl i (h.above i hi)) h.parent hfits }

end Attach

/-! ## The actions -/

section Actions

variable {m : Nat} {y : Second} {c : Cell}

/-- The value `m` in the second pass, with its memory. -/
theorem Filling.newValue (h : Filling F m y ids frames) (hc : F[m]? = some c) {n : Node}
    (hn : Node.allocated { cell := c } = .ok n) :
    y.newValue = .ok { nodes := y.nodes.set m n, alloc := m + 1, top := some m } := by
  have hnode : y.nodes[m]? = some { cell := c } := by rw [h.fresh m (Nat.le_refl m), hc]; rfl
  have hmodify : Second.modify { y with alloc := y.alloc + 1, top := some y.alloc } (some m)
      Node.allocated = _ := Second.modify_ok hnode hn
  rw [Second.newValue, h.alloc]
  rw [h.alloc] at hmodify
  exact hmodify

/-- The new value in its node. -/
theorem Filling.put (h : Filling F m y ids frames) (hc : F[m]? = some c) {n : Node}
    (hparent : n.cell.parent = ids.head?) {type : JsonType} (htype : n.cell.type = type)
    (hleaf : type ≠ .array ∧ type ≠ .object)
    (hv : Stored (y.nodes.set m n) (Closed (m + 1) ids) m v) :
    Filled F (m + 1) { nodes := y.nodes.set m n, alloc := m + 1, top := some m } m ids frames v := by
  have hlt : m < y.nodes.length := by
    rw [h.nodes]
    exact (List.getElem?_eq_some_iff.mp hc).1
  have hkeep : ∀ j ≠ m, (y.nodes.set m n)[j]? = y.nodes[j]? := fun j hj =>
    List.getElem?_set_ne (Ne.symm hj)
  exact {
    nodes := (List.length_set ..).trans h.nodes
    alloc := rfl
    top := rfl
    fresh := fun j hj => (hkeep j (by omega)).trans (h.fresh j (by omega))
    lt := fun j hj => Nat.lt_succ_of_lt (h.lt j hj)
    root := by
      cases ids with
      | nil =>
        intro j hj
        obtain rfl := Option.some.inj hj
        exact h.start rfl
      | cons p ids =>
        intro j hj
        rw [List.getLast?_cons_cons] at hj
        exact h.root j hj
    above := h.lt
    holding := h.holding.mono
      (fun j hj => ⟨⟨Nat.lt_succ_of_lt hj.1, hj.2⟩, hkeep j (Nat.ne_of_lt hj.1)⟩)
      fun j hj => hkeep j (Nat.ne_of_lt (h.lt j hj))
    stored := hv
    parent := ⟨n, List.getElem?_set_self hlt, hparent⟩
    lt_made := Nat.lt_succ_self m
    linked := h.linked.grow hlt h.lt (Node.children_of_leaf (htype ▸ hleaf.1) (htype ▸ hleaf.2))
      fun hf => absurd hf (not_or.mpr (htype ▸ hleaf)) }

/-- A value that is no container. -/
theorem Filling.leaf (h : Filling F m y ids frames) (l : Leaf) (hc : F[m]? = some c)
    (hgrown : (l.cell ids.head?).Grown c) :
    ∃ y', y.leaf l = .ok y' ∧ Filled F (m + 1) y' m ids frames l.toValue := by
  have hlt : m < y.nodes.length := by
    rw [h.nodes]
    exact (List.getElem?_eq_some_iff.mp hc).1
  have hclosed : Closed (m + 1) ids m :=
    ⟨Nat.lt_succ_self m, fun hm => Nat.lt_irrefl m (h.lt m hm)⟩
  have hset := fun n : Node => List.getElem?_set_self (a := n) hlt
  have hparent : c.parent = ids.head? := by cases l <;> exact hgrown.parent
  have hleaf : c.type ≠ .array ∧ c.type ≠ .object := by
    rw [hgrown.type]
    cases l <;> simp [Leaf.cell]
  cases l with
  | boolean value =>
    have hnew : Node.allocated { cell := c } = .ok { cell := c } := by
      simp only [Node.allocated, show c.type = .boolean from hgrown.type]
    have hstore : Second.modify { nodes := y.nodes.set m { cell := c }, alloc := m + 1, top := some m }
        (some m) (fun n => .ok { n with cell := { n.cell with boolean := true } }) = _ :=
      Second.modify_ok (hset _) rfl
    rw [Second.leaf, h.newValue hc hnew, Exec.ok_bind]
    cases value with
    | false =>
      refine ⟨_, rfl, h.put hc hparent rfl hleaf ?_⟩
      have hstored := Stored.boolean hclosed (hset { cell := c }) hgrown.type
      rwa [show c.boolean = false from hgrown.boolean] at hstored
    | true =>
      refine ⟨_, hstore, ?_⟩
      rw [List.set_set]
      exact h.put hc hparent rfl hleaf (.boolean hclosed (hset _) hgrown.type)
  | null =>
    have hnew : Node.allocated { cell := c } = .ok { cell := c } := by
      simp only [Node.allocated, show c.type = .null from hgrown.type]
    rw [Second.leaf, h.newValue hc hnew, Exec.ok_bind]
    exact ⟨_, rfl, h.put hc hparent rfl hleaf (.null hclosed (hset _) hgrown.type)⟩
  | string bytes =>
    have hlength : c.length = bytes.length :=
      hgrown.fixed (show JsonType.string ≠ .array by decide) (show JsonType.string ≠ .object by decide)
    have hnew : Node.allocated { cell := c } =
        .ok { cell := { c with length := 0 }, charsRoom := c.length + 1 } := by
      simp only [Node.allocated, show c.type = .string from hgrown.type]
    obtain ⟨chars, hchars, -, hread⟩ := putChars_ok
      { cell := { c with length := 0 }, charsRoom := c.length + 1 } 0 bytes
      (by rw [hlength, Nat.zero_add])
    have hput : Node.putString { cell := { c with length := 0 }, charsRoom := c.length + 1 } bytes =
        .ok { cell := { c with length := bytes.length }, chars, charsRoom := c.length + 1 } := by
      rw [Node.putString, hchars]
      rfl
    rw [Second.leaf, h.newValue hc hnew, Exec.ok_bind]
    refine ⟨_, Second.modify_ok (hset _) hput, ?_⟩
    rw [List.set_set]
    exact h.put hc hparent rfl hleaf (.string hclosed (hset _) hgrown.type hread)

/-- A number, which has its value already. -/
theorem Filling.number (h : Filling F m y ids frames) (r : Num) (hc : F[m]? = some c)
    (hgrown : (r.cell ids.head?).Grown c) (rest : List UInt8) :
    ∃ y', y.number rest = .ok (some (y', rest.dropWhile Second.isNumChar)) ∧
      Filled F (m + 1) y' m ids frames r.toValue := by
  have hlt : m < y.nodes.length := by
    rw [h.nodes]
    exact (List.getElem?_eq_some_iff.mp hc).1
  have hclosed : Closed (m + 1) ids m :=
    ⟨Nat.lt_succ_self m, fun hm => Nat.lt_irrefl m (h.lt m hm)⟩
  have hset := List.getElem?_set_self (a := ({ cell := c } : Node)) hlt
  have htype : c.type = if r.isDouble then .double else .integer := hgrown.type
  have hnew : Node.allocated { cell := c } = .ok { cell := c } := by
    simp only [Node.allocated, htype]
    cases r.isDouble <;> rfl
  rw [Second.number, h.newValue hc hnew, Exec.ok_bind]
  refine ⟨_, rfl, h.put hc hgrown.parent htype (by cases r.isDouble <;> decide) ?_⟩
  rw [Num.toValue]
  cases hdouble : r.isDouble with
  | true =>
    rw [hdouble] at htype
    have hstored := Stored.double hclosed hset htype
    rwa [show c.dbl = r.dbl from hgrown.dbl] at hstored
  | false =>
    rw [hdouble] at htype
    have hstored := Stored.integer hclosed hset htype
    rwa [show c.integer = r.integer from hgrown.integer] at hstored

/-- A container that is opened. -/
theorem Filling.opens (h : Filling F m y ids frames) {type : JsonType}
    (htype : type = .object ∨ type = .array) (hc : F[m]? = some c)
    (hgrown : Cell.Grown { type, parent := ids.head? } c) (hbound : 24 * c.length < 2 ^ 31)
    (hblank : c.length = 0 → c.names = 0) :
    ∃ y', y.newValue = .ok y' ∧ Filling F (m + 1) y' (m :: ids) (Frame.new type :: frames) := by
  have hlt : m < y.nodes.length := by
    rw [h.nodes]
    exact (List.getElem?_eq_some_iff.mp hc).1
  have hnew : ∃ n, Node.allocated { cell := c } = .ok n ∧ n.cell.parent = ids.head? ∧
      n.cell.length = 0 ∧ n.room = c.length ∧ n.cell.names = c.names ∧
      ∀ nodes C, Holds nodes C m n c (Frame.new type) := by
    rcases htype with rfl | rfl
    · have hobject : c.type = .object := hgrown.type
      by_cases hzero : c.length = 0
      · refine ⟨{ cell := c }, ?_, hgrown.parent, hzero, hzero.symm, rfl, fun nodes C => ?_⟩
        · simp only [Node.allocated, hobject, if_pos hzero]
        · exact {
            type := hobject
            length := hzero
            room := hzero.symm
            values := fun k v hv => by cases hv
            names := fun k m hm => by cases hm
            mem := rfl
            chars := fun _ hne => absurd hzero hne }
      · refine ⟨{ cell := { c with length := 0 }, room := c.length, charsRoom := c.names }, ?_,
          hgrown.parent, rfl, rfl, rfl, fun nodes C => ?_⟩
        · simp only [Node.allocated, hobject, if_neg hzero, if_pos hbound]
        · exact {
            type := hobject
            length := rfl
            room := rfl
            values := fun k v hv => by cases hv
            names := fun k m hm => by cases hm
            mem := rfl
            chars := fun _ _ => rfl }
    · have harray : c.type = .array := hgrown.type
      refine ⟨{ cell := { c with length := 0 }, room := c.length }, ?_, hgrown.parent, rfl, rfl, rfl,
        fun nodes C => ?_⟩
      · simp only [Node.allocated, harray]
      · exact {
          type := harray
          length := rfl
          room := rfl
          values := fun k v hv => by cases hv
          names := fun k m hm => by cases hm
          mem := rfl
          chars := fun hf => by cases hf }
  obtain ⟨n, hn, hparent, hnlength, hnroom, hnnames, hholds⟩ := hnew
  have hkeep : ∀ j ≠ m, (y.nodes.set m n)[j]? = y.nodes[j]? := fun j hj =>
    List.getElem?_set_ne (Ne.symm hj)
  refine ⟨_, h.newValue hc hn, ?_⟩
  exact {
    nodes := (List.length_set ..).trans h.nodes
    alloc := rfl
    top := rfl
    fresh := fun j hj => (hkeep j (by omega)).trans (h.fresh j (by omega))
    lt := by
      intro j hj
      rcases List.mem_cons.mp hj with rfl | hj
      · exact Nat.lt_succ_self _
      · exact Nat.lt_succ_of_lt (h.lt j hj)
    root := by
      cases ids with
      | nil =>
        intro j hj
        obtain rfl := Option.some.inj hj
        exact h.start rfl
      | cons p ids =>
        intro j hj
        rw [List.getLast?_cons_cons] at hj
        exact h.root j hj
    start := fun e => by cases e
    linked := h.linked.grow hlt h.lt
      (by rw [Node.children, hnlength, List.range_zero, List.map_nil, ite_self])
      fun _ hzero => hnnames.trans (hblank (hnroom.symm.trans hzero))
    holding := by
      refine .cons hc (List.getElem?_set_self hlt) hparent (hholds _ _) h.lt ?_
      refine h.holding.mono (fun j hj => ⟨⟨Nat.lt_succ_of_lt hj.1, ?_⟩, hkeep j (Nat.ne_of_lt hj.1)⟩)
        fun j hj => hkeep j (Nat.ne_of_lt (h.lt j hj))
      intro hmem
      rcases List.mem_cons.mp hmem with rfl | hmem
      · exact Nat.lt_irrefl _ hj.1
      · exact hj.2 hmem }

/-- A container that is closed. -/
theorem Filling.closes (h : Filling F m y (i :: ids) (f :: frames)) :
    Filled F m y i ids frames f.close := by
  have hholding := h.holding
  cases hholding with
  | @cons _ _ _ _ n c hcell hnode hparent hholds hlt hrest =>
    have hopen : ∀ j, Closed m (i :: ids) j → Closed m ids j ∧ y.nodes[j]? = y.nodes[j]? :=
      fun j hj => ⟨⟨hj.1, fun hmem => hj.2 (by simp [hmem])⟩, rfl⟩
    have hclosed : Closed m ids i :=
      ⟨h.lt i (by simp), fun hmem => Nat.lt_irrefl i (hlt i hmem)⟩
    exact {
      nodes := h.nodes
      alloc := h.alloc
      top := h.top
      fresh := h.fresh
      lt := fun j hj => h.lt j (by simp [hj])
      root := h.root
      above := hlt
      holding := hrest.mono hopen fun _ _ => rfl
      parent := ⟨n, hnode, hparent⟩
      lt_made := h.lt i (by simp)
      linked := h.linked
      stored := by
        cases f with
        | array vs =>
          exact .array hclosed hnode hholds.type hholds.length (fun k v hv => (hholds.values k v hv).1)
            fun k v hv => (hholds.values k v hv).2.mono hopen
        | object ms name =>
          have hvalue : ∀ (k : Nat) m, ms[k]? = some m →
              (Frame.object ms name).values[k]? = some m.2 := by
            intro k m hm
            show (ms.map Prod.snd)[k]? = some m.2
            rw [List.getElem?_map, hm]
            rfl
          have hname : ∀ (k : Nat) m, ms[k]? = some m →
              (Frame.object ms name).names[k]? = some m.1 := by
            intro k m hm
            have hk := (List.getElem?_eq_some_iff.mp hm).1
            show (ms.map Prod.fst ++ name.toList)[k]? = some m.1
            rw [List.getElem?_append_left (by rwa [List.length_map]), List.getElem?_map, hm]
            rfl
          exact .object hclosed hnode hholds.type hholds.length
            (fun k m hm => (hholds.names k _ (hname k m hm)).1)
            (fun k m hm => (hholds.values k _ (hvalue k m hm)).1)
            fun k m hm => (hholds.values k _ (hvalue k m hm)).2.mono hopen }

/-- The name of a member. -/
theorem Filling.name {ms : List (List UInt8 × JsonValue)} {bytes : List UInt8}
    (h : Filling F m y (i :: ids) (.object ms none :: frames)) (hc : F[i]? = some c)
    (hless : ms.length < c.length)
    (hnames : (Frame.object ms none).namesSize + (bytes.length + 1) ≤ c.names) :
    ∃ y', y.name bytes = .ok y' ∧
      Filling F m y' (i :: ids) (.object ms (some (bytes ++ [0])) :: frames) := by
  have hholding := h.holding
  cases hholding with
  | @cons _ _ _ _ n c' hcell hnode hparent hholds hlt hrest =>
    obtain rfl : c' = c := Option.some.inj (hcell.symm.trans hc)
    have hroom : n.charsRoom = c'.names := hholds.chars rfl (Nat.ne_of_gt (Nat.zero_lt_of_lt hless))
    obtain ⟨chars, hchars, hold, hread⟩ := putChars_ok n n.object_mem bytes
      (by rw [hroom, hholds.mem]; exact hnames)
    have hlength : n.cell.length = ms.length := hholds.length
    have hput : n.putName bytes = .ok { n with
        chars
        names := Function.update n.names n.cell.length (n.object_mem, bytes.length)
        object_mem := n.object_mem + (bytes.length + 1) } := by
      rw [Node.putName, hchars]
      exact if_pos (by rw [hholds.room, hlength]; exact hless)
    have hilen : i < y.nodes.length := (List.getElem?_eq_some_iff.mp hnode).1
    have hkeep : ∀ n', ∀ j ≠ i, (y.nodes.set i n')[j]? = y.nodes[j]? :=
      fun n' j hj => List.getElem?_set_ne (Ne.symm hj)
    have hclosed : ∀ n' : Node, ∀ j, Closed m (i :: ids) j →
        Closed m (i :: ids) j ∧ (y.nodes.set i n')[j]? = y.nodes[j]? :=
      fun n' j hj => ⟨hj, hkeep n' j fun e => hj.2 (by simp [e])⟩
    refine ⟨_, Eq.trans ?_ (Second.modify_ok (g := fun n => n.putName bytes) hnode hput), ?_⟩
    · rw [Second.name, h.top, List.head?_cons]
    · refine {
        nodes := (List.length_set ..).trans h.nodes
        alloc := h.alloc
        top := h.top
        fresh := fun j hj => (hkeep _ j fun e => by
          have := h.lt i (by simp)
          omega).trans (h.fresh j hj)
        lt := h.lt
        root := h.root
        start := fun e => by cases e
        linked := h.linked.store hnode rfl rfl rfl
        holding := .cons hcell (List.getElem?_set_self hilen) hparent (.mono ?_ (hclosed _)) hlt
          (hrest.mono (hclosed _) fun j hj => hkeep _ j (Nat.ne_of_lt (hlt j hj))) }
      exact {
        type := hholds.type
        length := hholds.length
        room := hholds.room
        values := hholds.values
        names := by
          intro k nm hnm
          have hnm : (ms.map Prod.fst ++ [bytes ++ [0]])[k]? = some nm := hnm
          suffices ∀ e, Function.update n.names n.cell.length (n.object_mem, bytes.length) k = e →
              (List.range (e.2 + 1)).map (fun j => chars (e.1 + j)) = nm ∧
                e.1 + e.2 < n.object_mem + (bytes.length + 1) from this _ rfl
          rw [hlength]
          rintro _ rfl
          rw [List.getElem?_append, List.length_map] at hnm
          split at hnm
          · next hk =>
            -- A name before: its characters stay.
            rw [Function.update_of_ne (Nat.ne_of_lt hk)]
            have hnm' : (Frame.object ms none).names[k]? = some nm := by
              show (ms.map Prod.fst ++ [])[k]? = some nm
              rw [List.append_nil]
              exact hnm
            obtain ⟨hat, hbelow⟩ := hholds.names k nm hnm'
            refine ⟨?_, by omega⟩
            rw [← hat, Node.charsAt]
            refine List.map_congr_left fun j hj => hold _ ?_
            have := List.mem_range.mp hj
            omega
          · next hk =>
            have hlt := (List.getElem?_eq_some_iff.mp hnm).1
            rw [List.length_singleton] at hlt
            obtain rfl : k = ms.length := by omega
            rw [Nat.sub_self] at hnm
            obtain rfl := Option.some.inj hnm
            rw [Function.update_self]
            exact ⟨hread, Nat.lt_succ_self _⟩
        mem := by
          show n.object_mem + (bytes.length + 1) = _
          rw [hholds.mem]
          simp [Frame.namesSize]
        chars := hholds.chars }

end Actions

end Json

end Cnpv
