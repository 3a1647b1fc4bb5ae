import Cnpv.Json.Stack

/-!
# The first pass of the JSON parser

The first pass takes the same steps as the parser with one pass (`firstPass_simulates`): the values
from `top` over their parents are the containers that are open (`Opened`), with the numbers of their
elements and the size of their names. No length is larger than the text, so none is too large for
its `int`.
-/

namespace Cnpv

open CLib

namespace Json

namespace Frame

/-- The number of elements. -/
def length : Frame → Nat
  | array vs => vs.length
  | object ms _ => ms.length

/-- The bytes of the names, each with its NUL. -/
def namesSize : Frame → Nat
  | array _ => 0
  | object ms name => (ms.map fun m => m.1.length).sum + name.elim 0 List.length

/-- Whether a value can follow: in an object there must be a name for it. -/
def hasName : Frame → Bool
  | array _ => true
  | object _ name => name.isSome

/-- There is a name without its value. -/
def pending : Frame → Bool
  | array _ => false
  | object _ name => name.isSome

variable {f : Frame} {v : JsonValue}

@[simp] theorem length_add : (f.add v).length = f.length + 1 := by
  cases f <;> exact List.length_append

@[simp] theorem namesSize_add : (f.add v).namesSize = f.namesSize := by
  cases f with
  | array vs => rfl
  | object ms name =>
    simp only [add, namesSize, List.map_append, List.map_cons, List.map_nil, List.sum_append,
      List.sum_cons, List.sum_nil, Option.elim_none]
    cases name <;> rfl

@[simp] theorem hasName_add : (f.add v).hasName = decide (f.type = .array) := by cases f <;> rfl

end Frame

/-- The cells `ids` are the open containers, from the innermost one to the root. -/
inductive Opened (cells : List Cell) : List Nat → List Frame → Prop
  | nil : Opened cells [] []
  | cons {i : Nat} {ids : List Nat} {f : Frame} {frames : List Frame} {c : Cell}
    (hcell : cells[i]? = some c) (hparent : c.parent = ids.head?) (htype : c.type = f.type)
    (hlength : c.length = f.length) (hnames : c.names = f.namesSize) (hlt : ∀ j ∈ ids, j < i)
    (hroot : ids = [] → i = 0) (hopened : Opened cells ids frames) :
    Opened cells (i :: ids) (f :: frames)

variable {cells cells' : List Cell} {ids : List Nat} {frames : List Frame} {total i : Nat}
  {D : Doubles} {x : First} {z : Stack} {flags : Flags} {rest : List UInt8} {f : Frame} {v : JsonValue}

theorem Opened.congr (h : Opened cells ids frames) (heq : ∀ i ∈ ids, cells'[i]? = cells[i]?) :
    Opened cells' ids frames := by
  induction h with
  | nil => exact .nil
  | cons hcell hparent htype hlength hnames hlt hroot _ ih =>
    exact .cons ((heq _ (by simp)).trans hcell) hparent htype hlength hnames hlt hroot
      (ih fun i hi => heq i (by simp [hi]))

theorem Opened.lt (h : Opened cells ids frames) : ∀ i ∈ ids, i < cells.length := by
  induction h with
  | nil => simp
  | cons hcell _ _ _ _ _ _ _ ih =>
    exact List.forall_mem_cons.mpr ⟨(List.getElem?_eq_some_iff.mp hcell).1, ih⟩

theorem Opened.append (h : Opened cells ids frames) (c : Cell) : Opened (cells ++ [c]) ids frames :=
  h.congr fun i hi => List.getElem?_append_left (h.lt i hi)

/-! ## A value that is complete -/

theorem First.modify_ok {c : Cell} (h : x.cells[i]? = some c) (g : Cell → Cell) :
    x.modify (some i) g = .ok { x with cells := x.cells.set i (g c) } := by
  rw [modify, Option.bind_some, h]
  rfl

/-- The cell `i` has a complete value, which is for the containers `frames`. -/
structure Complete (total : Nat) (rest : List UInt8) (x : First) (i : Nat) (ids : List Nat)
    (frames : List Frame) : Prop where
  top : x.top = some i
  cell : ∃ c, x.cells[i]? = some c ∧ c.parent = ids.head?
  lt : ∀ j ∈ ids, j < i
  root : ids = [] → i = 0
  opened : Opened x.cells ids frames
  named : ∀ f ∈ frames, f.hasName = true
  bound : ∀ c ∈ x.cells, c.length + rest.length < total

/-- The first pass and the parser with one pass, with the containers `ids` open. -/
structure Tracking (total : Nat) (s : Parse First) (t : Parse Stack) (ids : List Nat) : Prop where
  flags : s.flags = t.flags
  rest : s.rest = t.rest
  le : s.rest.length ≤ total
  done : s.flags.done = false
  decimal : s.values.decimal = t.values.decimal
  value : t.values.value = none
  top : s.values.top = ids.head?
  opened : Opened s.values.cells ids t.values.frames
  seek : ∀ f ∈ t.values.frames.head?, f.hasName = s.flags.seekValue
  named : ∀ f ∈ t.values.frames.tail, f.hasName = true
  start : ids = [] → s.values.cells = []
  bound : ∀ c ∈ s.values.cells, c.length + s.rest.length ≤ total

/-- The two parsers after the root. -/
structure Tracked (total : Nat) (s : Parse First) (t : Parse Stack) : Prop where
  flags : s.flags = t.flags
  rest : s.rest = t.rest
  done : s.flags.done = true
  bound : ∀ c ∈ s.values.cells, c.length ≤ total

/-- The state after `flag_next`: the value is the root, or one more element of its container. -/
inductive Attaches (x : First) (z : Stack) (v : JsonValue) (flags : Flags) (rest : List UInt8) :
    List Nat → List Frame → Parse First → Parse Stack → List Nat → Prop
  | root : Attaches x z v flags rest [] []
      ⟨{ flags with needComma := true, done := true }, x, rest⟩
      ⟨{ flags with needComma := true, done := true }, { z with frames := [], value := some v }, rest⟩ []
  | child {p : Nat} {ids : List Nat} {f : Frame} {frames : List Frame} {q : Cell}
    (hp : x.cells[p]? = some q) (htype : q.type = f.type) (hlength : q.length = f.length)
    (hname : f.hasName = true) :
    Attaches x z v flags rest (p :: ids) (f :: frames)
      ⟨{ flags with needComma := true, seekValue := flags.seekValue || q.type = JsonType.array },
        { x with cells := x.cells.set p { q with length := q.length + 1 }, top := some p }, rest⟩
      ⟨{ flags with needComma := true, seekValue := flags.seekValue || f.type = JsonType.array },
        { z with frames := f.add v :: frames, value := none }, rest⟩ (p :: ids)

/-- **`flag_next`** in the first pass. -/
theorem Complete.next (h : Complete total rest x i ids frames) (htotal : total ≤ UINT_LIMIT)
    (hdone : flags.done = false) (hseek : flags.seekValue = false) (hle : rest.length ≤ total)
    (hdecimal : x.decimal = z.decimal) (hz : z.next = .ok (z.attach v frames)) :
    ∃ s t ids', flagNext (firstPass D) flags rest x = .ok (.go s) ∧
      flagNext (stackPass D) flags rest z = .ok (.go t) ∧
      Attaches x z v flags rest ids frames s t ids' ∧
      (Tracking total s t ids' ∨ ids' = [] ∧ Tracked total s t) := by
  obtain ⟨c, hcell, hparent⟩ := h.cell
  have htop : x.topCell = some c := by rw [First.topCell, h.top]; exact hcell
  have hopened := h.opened
  have hx : flagNext (firstPass D) flags rest x = First.next x >>= _ := rfl
  have hz' : flagNext (stackPass D) flags rest z = z.next >>= _ := rfl
  rw [hx, hz', hz, First.next, htop, Option.elim_some, hparent]
  cases hopened with
  | nil =>
    exact ⟨_, _, _, rfl, rfl, .root, .inr ⟨rfl, rfl, rfl, rfl, fun c hc =>
      Nat.le_of_lt (Nat.lt_of_le_of_lt (Nat.le_add_right _ _) (h.bound c hc))⟩⟩
  | @cons p ids f frames q hp hpparent hptype hplength hpnames hplt hproot hpopened =>
    have hpi : p < i := h.lt p (by simp)
    have hq : q ∈ x.cells := List.mem_of_getElem? hp
    have hplen : p < x.cells.length := (List.getElem?_eq_some_iff.mp hp).1
    have hset : (x.cells.set p { q with length := q.length + 1 })[p]? =
        some { q with length := q.length + 1 } := List.getElem?_set_self hplen
    have hkeep : ∀ j ≠ p, (x.cells.set p { q with length := q.length + 1 })[j]? = x.cells[j]? :=
      fun j hj => List.getElem?_set_ne (Ne.symm hj)
    have hmodify := First.modify_ok hp fun q => { q with length := q.length + 1 }
    have hsmall : ¬ UINT_LIMIT < q.length + 1 := by
      have := h.bound q hq
      omega
    simp only [List.head?_cons, Option.some_ne_none, if_false, hmodify, Exec.ok_bind,
      First.topCell, Option.bind_some, hset, Option.elim_some, if_neg hsmall, Stack.attach]
    refine ⟨_, _, _, rfl, rfl, .child hp hptype hplength (h.named f (by simp)), .inl ?_⟩
    exact {
      flags := congrArg (fun type => ({ flags with
        needComma := true, seekValue := flags.seekValue || type = JsonType.array } : Flags)) hptype
      rest := rfl
      le := hle
      done := hdone
      decimal := hdecimal
      value := rfl
      top := rfl
      opened := .cons hset hpparent (hptype.trans Frame.type_add.symm)
        ((congrArg (· + 1) hplength).trans Frame.length_add.symm)
        (hpnames.trans Frame.namesSize_add.symm) hplt hproot
        (hpopened.congr fun j hj => hkeep j (Nat.ne_of_lt (hplt j hj)))
      seek := by
        intro g hg
        obtain rfl := Option.some.inj hg
        simp [hseek, hptype]
      named := fun g hg => h.named g (by simp [show g ∈ frames from hg])
      start := fun e => by cases e
      bound := by
        intro c hc
        rcases List.mem_or_eq_of_mem_set hc with hc | rfl
        · exact Nat.le_of_lt (h.bound c hc)
        · have := h.bound q hq
          show q.length + 1 + rest.length ≤ total
          omega }

/-! ## The actions -/

/-- The cell that the first pass makes for a value. -/
def Leaf.cell (parent : Option Nat) : Leaf → Cell
  | boolean value => { type := .boolean, parent, boolean := value }
  | null => { type := .null, parent }
  | string bytes => { type := .string, parent, length := bytes.length }

/-- The cell that the first pass makes for a number. -/
def Num.cell (parent : Option Nat) (n : Num) : Cell where
  type := if n.isDouble then .double else .integer
  parent := parent
  integer := n.integer
  dbl := n.dbl

/-- A new cell. -/
def First.grow (x : First) (c : Cell) : First :=
  { x with cells := x.cells ++ [c], top := some x.cells.length }

/-- A store to the newest cell. -/
theorem First.modify_newValue (x : First) (type : JsonType) (g : Cell → Cell) :
    (x.newValue type).modify (some x.cells.length) g = .ok (x.grow (g { type, parent := x.top })) := by
  have hget : (x.newValue type).cells[x.cells.length]? = some { type, parent := x.top } := by
    rw [newValue, List.getElem?_append_right (Nat.le_refl _), Nat.sub_self]
    rfl
  have hset : ∀ c, (x.newValue type).cells.set x.cells.length c = x.cells ++ [c] := by
    intro c
    rw [newValue, List.set_append_right _ _ (Nat.le_refl _), Nat.sub_self]
    rfl
  rw [modify, Option.bind_some, hget, Option.map_some, Option.elim_some, hset]
  rfl

theorem First.leaf_eq (x : First) (l : Leaf) : x.leaf l = .ok (x.grow (l.cell x.top)) := by
  cases l with
  | boolean value => exact x.modify_newValue _ _
  | null => rfl
  | string bytes => exact x.modify_newValue _ _

theorem First.number_eq (x : First) (rest : List UInt8) :
    x.number D rest = .ok ((Json.number D x.decimal rest).map fun r =>
      ({ x.grow (r.1.cell x.top) with decimal := r.1.flag_num_got_decimal }, r.2)) := by
  rw [number]
  cases Json.number D x.decimal rest with
  | none => rfl
  | some r =>
    simp only [Option.elim_some, x.modify_newValue, Exec.ok_bind, Option.map_some]
    rfl

/-- What a step does, in both parsers. -/
inductive Moves (D : Doubles) (s : Parse First) (t : Parse Stack) (ids : List Nat) :
    Action → Parse First → Parse Stack → List Nat → Prop
  | skip {flags : Flags} {rest : List UInt8} :
    Moves D s t ids (.skip flags rest) ⟨flags, s.values, rest⟩ ⟨flags, t.values, rest⟩ ids
  | opens {type : JsonType} {flags : Flags} {rest : List UInt8}
    (htype : type = .object ∨ type = .array) :
    Moves D s t ids (.opens type flags rest) ⟨flags, s.values.newValue type, rest⟩
      ⟨flags, { t.values with frames := Frame.new type :: t.values.frames }, rest⟩
      (s.values.cells.length :: ids)
  | value {l : Leaf} {flags : Flags} {rest : List UInt8} {s' : Parse First} {t' : Parse Stack}
    {ids' : List Nat}
    (h : Attaches (s.values.grow (l.cell s.values.top)) { t.values with value := some l.toValue }
      l.toValue flags rest ids t.values.frames s' t' ids') :
    Moves D s t ids (.value l flags rest) s' t' ids'
  | number {r : Num × List UInt8} {flags : Flags} {s' : Parse First} {t' : Parse Stack}
    {ids' : List Nat} (hnumber : number D t.values.decimal s.rest = some r)
    (h : Attaches
      { s.values.grow (r.1.cell s.values.top) with decimal := r.1.flag_num_got_decimal }
      { t.values with value := some r.1.toValue, decimal := r.1.flag_num_got_decimal } r.1.toValue
      flags r.2 ids t.values.frames s' t' ids') :
    Moves D s t ids (.number flags s.rest) s' t' ids'
  | name {bytes : List UInt8} {flags : Flags} {rest : List UInt8} {i : Nat} {ids' : List Nat}
    {c : Cell} {ms : List (List UInt8 × JsonValue)} {frames : List Frame} (hids : ids = i :: ids')
    (hframes : t.values.frames = .object ms none :: frames) (hcell : s.values.cells[i]? = some c)
    (htype : c.type = .object) (hnames : c.names = (Frame.object ms none).namesSize) :
    Moves D s t ids (.name bytes flags rest)
      ⟨flags, { s.values with
        cells := s.values.cells.set i { c with names := c.names + (bytes.length + 1) } }, rest⟩
      ⟨flags, { t.values with frames := .object ms (some (bytes ++ [0])) :: frames }, rest⟩ ids
  | closes {flags : Flags} {rest : List UInt8} {i : Nat} {ids' ids'' : List Nat} {f : Frame}
    {frames : List Frame} {s' : Parse First} {t' : Parse Stack} (hids : ids = i :: ids')
    (hframes : t.values.frames = f :: frames) (hname : f.pending = false)
    (h : Attaches s.values t.values f.close flags rest ids' frames s' t' ids'') :
    Moves D s t ids (.closes flags rest) s' t' ids''

namespace Tracking

variable {s : Parse First} {t : Parse Stack} {rest' : List UInt8}

/-- When a value can follow, every container has the name for its next value. -/
theorem allNamed (h : Tracking total s t ids) (hseek : s.flags.seekValue = true) :
    ∀ f ∈ t.values.frames, f.hasName = true := by
  have hhead := h.seek
  have htail := h.named
  cases hf : t.values.frames with
  | nil => simp
  | cons f frames =>
    rw [hf] at hhead htail
    exact List.forall_mem_cons.mpr ⟨(hhead f rfl).trans hseek, htail⟩

/-- A new value that is complete. -/
theorem complete (h : Tracking total s t ids) (hseek : s.flags.seekValue = true) {c : Cell}
    (hparent : c.parent = s.values.top)
    (hbound : c.length + rest'.length < total) (hrest : rest'.length < s.rest.length)
    (decimal : Bool) :
    Complete total rest' { s.values.grow c with decimal } s.values.cells.length ids
      t.values.frames where
  top := rfl
  cell := by
    refine ⟨c, ?_, hparent.trans h.top⟩
    show (s.values.cells ++ [c])[s.values.cells.length]? = some c
    rw [List.getElem?_append_right (Nat.le_refl _), Nat.sub_self]
    rfl
  lt := h.opened.lt
  root := fun hids => by rw [h.start hids]; rfl
  opened := h.opened.append c
  named := h.allNamed hseek
  bound := by
    intro c' hc'
    rcases List.mem_append.mp hc' with hc' | hc'
    · have := h.bound c' hc'
      omega
    · obtain rfl := List.mem_singleton.mp hc'
      exact hbound

/-- A container that is opened. -/
theorem opens (h : Tracking total s t ids) (hseek : s.flags.seekValue = true)
    (hdone : flags.done = false) {type : JsonType}
    (htype : type = .object ∧ flags.seekValue = false ∨ type = .array ∧ flags.seekValue = true)
    (hrest : rest'.length < s.rest.length) :
    Tracking total ⟨flags, s.values.newValue type, rest'⟩
      ⟨flags, { t.values with frames := Frame.new type :: t.values.frames }, rest'⟩
      (s.values.cells.length :: ids) where
  flags := rfl
  rest := rfl
  le := hrest.le.trans h.le
  done := hdone
  decimal := h.decimal
  value := h.value
  top := rfl
  opened := by
    refine .cons (c := { type, parent := s.values.top }) ?_ h.top ?_ ?_ ?_ h.opened.lt ?_
      (h.opened.append _)
    · show (s.values.cells ++ [_])[s.values.cells.length]? = _
      rw [List.getElem?_append_right (Nat.le_refl _), Nat.sub_self]
      rfl
    · rcases htype with ⟨rfl, -⟩ | ⟨rfl, -⟩ <;> rfl
    · rcases htype with ⟨rfl, -⟩ | ⟨rfl, -⟩ <;> rfl
    · rcases htype with ⟨rfl, -⟩ | ⟨rfl, -⟩ <;> rfl
    · intro hids
      rw [h.start hids]
      rfl
  seek := by
    intro f hf
    obtain rfl := Option.some.inj hf
    rcases htype with ⟨rfl, hflag⟩ | ⟨rfl, hflag⟩ <;> exact hflag.symm
  named := h.allNamed hseek
  start := fun e => by cases e
  bound := by
    intro c hc
    rcases List.mem_append.mp hc with hc | hc
    · have := h.bound c hc
      show c.length + rest'.length ≤ total
      omega
    · obtain rfl := List.mem_singleton.mp hc
      have := h.le
      show 0 + rest'.length ≤ total
      omega

/-- A container that is closed. -/
theorem closes (h : Tracking total s t ids)
    (htop : s.values.topCell.map Cell.type = some .array ∨
      s.values.topCell.map Cell.type = some .object ∧ s.flags.seekValue = false)
    (hrest : rest'.length < s.rest.length) :
    ∃ i ids' f frames, ids = i :: ids' ∧ t.values.frames = f :: frames ∧ f.pending = false ∧
      Complete total rest' s.values i ids' frames := by
  have hopened := h.opened
  have htop' := h.top
  have hseek := h.seek
  have hnamed := h.named
  generalize hframes : t.values.frames = frames at *
  cases hopened with
  | nil =>
    rw [First.topCell, htop'] at htop
    simp at htop
  | @cons i ids f frames c hcell hparent htype hlength hnames hlt hroot hopened =>
    rw [First.topCell, htop', List.head?_cons, Option.bind_some, hcell, Option.map_some,
      htype] at htop
    have hname := hseek f rfl
    have hpending : f.pending = false := by
      cases f with
      | array vs => rfl
      | object ms name => exact hname.trans (htop.resolve_left (by simp [Frame.type])).2
    refine ⟨i, ids, f, frames, rfl, rfl, hpending, ?_⟩
    exact {
      top := htop'
      cell := ⟨c, hcell, hparent⟩
      lt := hlt
      root := hroot
      opened := hopened
      named := hnamed
      bound := fun c hc => by
        have := h.bound c hc
        omega }

/-- The name of a member. -/
theorem name (h : Tracking total s t ids) (hseek : s.flags.seekValue = false)
    (htop : s.values.topCell.map Cell.type = some .object) (hdone : flags.done = false)
    (hseek' : flags.seekValue = true) (hrest : rest'.length < s.rest.length) (bytes : List UInt8) :
    ∃ x z, s.values.name bytes = .ok x ∧ t.values.name bytes = .ok z ∧
      Moves D s t ids (.name bytes flags rest') ⟨flags, x, rest'⟩ ⟨flags, z, rest'⟩ ids ∧
      Tracking total ⟨flags, x, rest'⟩ ⟨flags, z, rest'⟩ ids := by
  have hopened := h.opened
  have htop' := h.top
  have hseek₀ := h.seek
  have hnamed := h.named
  generalize hframes : t.values.frames = frames at *
  cases hopened with
  | nil =>
    rw [First.topCell, htop'] at htop
    simp at htop
  | @cons i ids f frames c hcell hparent htype hlength hnames hlt hroot hopened =>
    rw [First.topCell, htop', List.head?_cons, Option.bind_some, hcell, Option.map_some] at htop
    have htype' : c.type = .object := Option.some.inj htop
    have hi : i < s.values.cells.length := (List.getElem?_eq_some_iff.mp hcell).1
    have hkeep : ∀ c', ∀ j ≠ i, (s.values.cells.set i c')[j]? = s.values.cells[j]? :=
      fun c' j hj => List.getElem?_set_ne (Ne.symm hj)
    cases f with
    | array vs => exact absurd (htype.symm.trans htype') (by simp [Frame.type])
    | object ms name =>
      have hname : name.isSome = false := (hseek₀ _ rfl).trans hseek
      obtain rfl : name = none := Option.not_isSome_iff_eq_none.mp (by simp [hname])
      refine ⟨_, _, ?_, ?_, .name rfl hframes hcell htype' hnames, ?_⟩
      · rw [First.name, htop', List.head?_cons]
        exact First.modify_ok hcell _
      · rw [Stack.name, hframes]
        rfl
      · exact {
          flags := rfl
          rest := rfl
          le := hrest.le.trans h.le
          done := hdone
          decimal := h.decimal
          value := h.value
          top := htop'
          opened := by
            refine .cons (List.getElem?_set_self hi) hparent htype hlength ?_ hlt hroot
              (hopened.congr fun j hj => hkeep _ j (Nat.ne_of_lt (hlt j hj)))
            show c.names + (bytes.length + 1) = _
            rw [hnames]
            simp [Frame.namesSize]
          seek := by
            intro g hg
            obtain rfl := Option.some.inj hg
            exact hseek'.symm
          named := hnamed
          start := fun e => by cases e
          bound := by
            intro c' hc'
            have hle : c'.length + s.rest.length ≤ total := by
              rcases List.mem_or_eq_of_mem_set hc' with hc' | rfl
              · exact h.bound c' hc'
              · exact h.bound c (List.mem_of_getElem? hcell)
            show c'.length + rest'.length ≤ total
            omega }

/-- A step that leaves the values. -/
theorem skip (h : Tracking total s t ids) (hdone : flags.done = s.flags.done)
    (hseek : flags.seekValue = s.flags.seekValue) (hrest : rest'.length < s.rest.length) :
    Tracking total ⟨flags, s.values, rest'⟩ ⟨flags, t.values, rest'⟩ ids where
  flags := rfl
  rest := rfl
  le := hrest.le.trans h.le
  done := hdone.trans h.done
  decimal := h.decimal
  value := h.value
  top := h.top
  opened := h.opened
  seek := fun f hf => (h.seek f hf).trans hseek.symm
  named := h.named
  start := h.start
  bound := fun c hc => by
    have := h.bound c hc
    show c.length + rest'.length ≤ total
    omega

/-- The type of the value at `top`. -/
theorem topType (h : Tracking total s t ids) :
    (firstPass D).topType s.values = (stackPass D).topType t.values := by
  have hopened := h.opened
  show (s.values.top.bind fun i => s.values.cells[i]?).map Cell.type = _
  rw [h.top]
  show _ = t.values.frames.head?.map Frame.type
  generalize t.values.frames = frames at hopened
  cases hopened with
  | nil => rfl
  | cons hcell _ htype => simp [hcell, htype]

end Tracking

/-- **A step of both parsers**: it ends in the same way, and what it does is one of `Moves`. -/
theorem Tracking.turn {s : Parse First} {t : Parse Stack} (h : Tracking total s t ids)
    (htotal : total ≤ UINT_LIMIT) :
    (∃ e, Json.turn (firstPass D) s = .error e ∧ Json.turn (stackPass D) t = .error e) ∨
    (Json.turn (firstPass D) s = .ok .fail ∧ Json.turn (stackPass D) t = .ok .fail) ∨
    ∃ a s' t' ids', control s.flags ((firstPass D).topType s.values) s.rest = .ok a ∧
      Json.turn (firstPass D) s = .ok (.go s') ∧ Json.turn (stackPass D) t = .ok (.go t') ∧
      Moves D s t ids a s' t' ids' ∧
      (Tracking total s' t' ids' ∨ ids' = [] ∧ Tracked total s' t') := by
  have hturn : Json.turn (stackPass D) t = control s.flags ((firstPass D).topType s.values) s.rest >>=
      perform (stackPass D) t.values := by
    rw [Json.turn, h.topType, h.flags, h.rest]
  have hturn' : Json.turn (firstPass D) s = control s.flags ((firstPass D).topType s.values) s.rest >>=
      perform (firstPass D) s.values := rfl
  rw [hturn, hturn']
  cases hcontrol : control s.flags ((firstPass D).topType s.values) s.rest with
  | error e => exact .inl ⟨e, rfl, rfl⟩
  | ok a =>
    have hle := h.le
    have hstep := control_cases hcontrol
    rw [Exec.ok_bind, Exec.ok_bind]
    refine .inr ?_
    cases hstep with
    | fail => exact .inl ⟨rfl, rfl⟩
    | finished hdone => exact absurd (h.done.symm.trans hdone) (by decide)
    | skip hdone hseek hrest =>
      exact .inr ⟨_, _, _, _, rfl, rfl, rfl, .skip, .inl (h.skip hdone hseek hrest)⟩
    | opens hdone hdone' hseek htype hrest =>
      exact .inr ⟨_, _, _, _, rfl, rfl, rfl, .opens (htype.imp And.left And.left),
        .inl (h.opens hseek hdone' htype hrest)⟩
    | @value l flags' rest' hdone hdone' hseek hseek' hrest =>
      have hcomplete := h.complete (c := l.cell s.values.top) hseek (by cases l <;> rfl)
        (by cases l <;> simp [Leaf.cell, Leaf.size] at * <;> omega)
        (show rest'.length < s.rest.length by omega) s.values.decimal
      obtain ⟨s', t', ids', hs', ht', hattach, hinv⟩ := hcomplete.next (D := D)
        (z := { t.values with value := some l.toValue }) htotal hdone' hseek' (by omega) h.decimal rfl
      refine .inr ⟨_, s', t', ids', rfl, ?_, ht', .value hattach, hinv⟩
      show First.leaf s.values l >>= _ = _
      rw [First.leaf_eq]
      exact hs'
    | @number flags' hdone hdone' hseek hseek' hb =>
      have hfirst : perform (firstPass D) s.values (.number flags' s.rest) =
          First.number D s.values s.rest >>= _ := rfl
      have hstack : perform (stackPass D) t.values (.number flags' s.rest) =
        Option.elim (Option.map _ (number D t.values.decimal s.rest)) _ _ := rfl
      rw [hfirst, hstack, First.number_eq, Exec.ok_bind, h.decimal]
      cases hnumber : number D t.values.decimal s.rest with
      | none => exact .inl ⟨rfl, rfl⟩
      | some r =>
        have hrest := length_number hb hnumber
        have hcomplete := h.complete (c := r.1.cell s.values.top) hseek rfl
          (show 0 + r.2.length < total by omega) hrest r.1.flag_num_got_decimal
        obtain ⟨s', t', ids', hs', ht', hattach, hinv⟩ := hcomplete.next (D := D) (z := { t.values with
          value := some r.1.toValue, decimal := r.1.flag_num_got_decimal }) htotal hdone' hseek'
          (by omega) rfl rfl
        exact .inr ⟨_, s', t', ids', rfl, hs', ht', .number hnumber hattach, hinv⟩
    | @name bytes flags' rest' hdone hdone' hseek hseek' htop hrest =>
      obtain ⟨x, z, hx, hz, hmoves, hinv⟩ := h.name (D := D) hseek htop hdone' hseek'
        (Nat.lt_of_le_of_lt (Nat.le_add_left _ _) hrest) bytes
      refine .inr ⟨_, _, _, ids, rfl, ?_, ?_, hmoves, .inl hinv⟩
      · show s.values.name bytes >>= _ = _
        rw [hx]
        rfl
      · show t.values.name bytes >>= _ = _
        rw [hz]
        rfl
    | closes hdone hdone' hseek' htop hrest =>
      obtain ⟨i, ids', f, frames, hids, hframes, hname, hcomplete⟩ := h.closes htop hrest
      obtain ⟨s', t', ids'', hs', ht', hattach, hinv⟩ := hcomplete.next (D := D) (v := f.close) htotal
        hdone' hseek' (by omega) h.decimal (by rw [Stack.next, h.value, hframes]; rfl)
      exact .inr ⟨_, s', t', ids'', rfl, hs', ht', .closes hids hframes hname hattach, hinv⟩

/-- After the root no value changes. -/
theorem control_done (hdone : flags.done = true) (top : Option JsonType) (rest : List UInt8) :
    control flags top rest = .ok (if rest.headD 0 = 0 then .finished
      else if isSpace (rest.headD 0) then .skip flags rest.tail else .fail) := by
  simp only [control, hdone, if_true]

theorem Tracked.skip {s : Parse First} {t : Parse Stack} (h : Tracked total s t) :
    Tracked total ⟨s.flags, s.values, s.rest.tail⟩ ⟨s.flags, t.values, s.rest.tail⟩ :=
  ⟨rfl, rfl, h.done, h.bound⟩

/-- The first pass and the parser with one pass, at a step. -/
def Follows (total : Nat) (s : Parse First) (t : Parse Stack) : Prop :=
  (∃ ids, Tracking total s t ids) ∨ Tracked total s t

/-- **The first pass** takes the steps of the parser with one pass. -/
theorem firstPass_simulates (htotal : total ≤ UINT_LIMIT) (s : Parse First) (t : Parse Stack)
    (h : Follows total s t) :
    Simulates (Follows total) (turn (firstPass D) s) (turn (stackPass D) t) := by
  rcases h with ⟨ids, h⟩ | h
  · rcases h.turn htotal with ⟨e, hs, ht⟩ | ⟨hs, ht⟩ | ⟨a, s', t', ids', -, hs, ht, -, hinv⟩
    · rw [hs, ht]
      exact .error e
    · rw [hs, ht]
      exact .fail
    · rw [hs, ht]
      exact .go (hinv.imp (fun h => ⟨ids', h⟩) And.right)
  · have hs := control_done h.done ((firstPass D).topType s.values) s.rest
    have ht := control_done h.done ((stackPass D).topType t.values) s.rest
    show Simulates _ (control _ _ _ >>= _) (control _ _ _ >>= _)
    rw [← h.flags, ← h.rest, hs, ht, Exec.ok_bind, Exec.ok_bind]
    split_ifs
    · exact .finished
    · exact .go (.inr h.skip)
    · exact .fail

end Json

end Cnpv
