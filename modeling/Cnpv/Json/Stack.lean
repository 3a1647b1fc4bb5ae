import Cnpv.Json.Model

/-!
# A parser with one pass

What `json_parse` is for: the same loop, with the values themselves in place of the memory for them.
The containers that are open are a stack (`Stack`), and the value that is complete goes to the one on
top, or is the result.

`control_cases` says once what a step of the loop can do, and `loop_simulates` is the rule for two
loops that take the same steps.
-/

namespace Cnpv

open CLib

namespace Json

/-- An array or an object that is open, with the name of the member that is read. -/
inductive Frame
  | array (values : List JsonValue)
  | object (members : List (List UInt8 × JsonValue)) (name : Option (List UInt8))

namespace Frame

def type : Frame → JsonType
  | array _ => .array
  | object _ _ => .object

/-- The container when it is closed. -/
def close : Frame → JsonValue
  | array vs => .array vs
  | object ms _ => .object ms

/-- One value more. -/
def add (v : JsonValue) : Frame → Frame
  | array vs => .array (vs ++ [v])
  | object ms name => .object (ms ++ [(name.getD [], v)]) none

/-- The name of the next member. -/
def setName (bytes : List UInt8) : Frame → Frame
  | array vs => .array vs
  | object ms _ => .object ms (some (bytes ++ [0]))

/-- A new container. -/
def new (type : JsonType) : Frame := if type = .object then .object [] none else .array []

@[simp] theorem type_add {f : Frame} {v : JsonValue} : (f.add v).type = f.type := by cases f <;> rfl

theorem type_cases (f : Frame) : f.type = .array ∨ f.type = .object := by
  cases f <;> simp [type]

end Frame

/-- The containers that are open, and the value that is complete. -/
structure Stack where
  frames : List Frame := []
  value : Option JsonValue := none
  decimal : Bool := false

def Leaf.toValue : Leaf → JsonValue
  | boolean value => .boolean value
  | null => .null
  | string bytes => .string (bytes ++ [0])

def Num.toValue (n : Num) : JsonValue := if n.isDouble then .double n.dbl else .integer n.integer

namespace Stack

/-- A value that is complete, in the containers `frames`. -/
def attach (z : Stack) (v : JsonValue) : List Frame → Attached Stack
  | [] => .root { z with frames := [], value := some v }
  | f :: frames => .child f.type { z with frames := f.add v :: frames, value := none }

/-- The value on top is complete: one that was read, or the container. -/
def next (z : Stack) : Exec (Attached Stack) :=
  z.value.elim
    (z.frames.head?.elim (.error (.undefined .nullPointer)) fun f =>
      .ok (z.attach f.close z.frames.tail))
    fun v => .ok (z.attach v z.frames)

def name (z : Stack) (bytes : List UInt8) : Exec Stack :=
  z.frames.head?.elim (.error (.undefined .nullPointer)) fun f =>
    .ok { z with frames := f.setName bytes :: z.frames.tail }

end Stack

/-- The pass that has the values. -/
def stackPass (D : Doubles) : Pass Stack where
  topType := fun z => z.frames.head?.map Frame.type
  opens := fun z type => .ok { z with frames := Frame.new type :: z.frames }
  leaf := fun z l => .ok { z with value := some l.toValue }
  number := fun z rest => .ok ((number D z.decimal rest).map fun r =>
    ({ z with value := some r.1.toValue, decimal := r.1.flag_num_got_decimal }, r.2))
  name := Stack.name
  next := Stack.next

/-- The parser with one pass. -/
def stackParse (D : Doubles) (text : List UInt8) : Exec (Option JsonValue) :=
  (fun z => z.bind Stack.value) <$> pass (stackPass D) {} text

/-! ## What a step takes -/

variable {D : Doubles} {flags flags' : Flags} {top : Option JsonType} {rest rest' : List UInt8}
  {a : Action} {n n' : Num} {b : UInt8}

/-- A string is longer than the bytes that it adds. -/
theorem length_escape {added : List UInt8 × Nat} (h : escape b rest = some added) :
    added.1.length ≤ added.2 + 1 := by
  have hutf8 : ∀ u : UInt32, (utf8 u).length ≤ 4 := by
    intro u
    unfold utf8
    split_ifs <;> simp
  unfold escape at h
  split_ifs at h
  all_goals try (cases h; simp)
  unfold unicode at h
  obtain ⟨u, hu, h⟩ := Option.bind_eq_some_iff.mp h
  split_ifs at h
  · obtain ⟨u', -, rfl⟩ := Option.map_eq_some_iff.mp h
    exact (hutf8 _).trans (Nat.le_add_right 4 7)
  · cases h
    exact (hutf8 _).trans (Nat.le_succ 4)

theorem length_scanString {skip len : Nat} {escaped : Bool} {r : List UInt8 × List UInt8}
    (h : scanString skip escaped len rest = some r) :
    r.1.length + r.2.length + skip < rest.length + if escaped then 1 else 0 := by
  induction rest generalizing skip escaped len r with
  | nil => cases h
  | cons b rest ih =>
    rw [scanString] at h
    split_ifs at h with hskip hend hescaped hslash hquote
    · have := ih h
      simp only [List.length_cons]
      omega
    · obtain ⟨added, hadded, h⟩ := Option.bind_eq_some_iff.mp h
      obtain ⟨r', hr', rfl⟩ := Option.map_eq_some_iff.mp h
      have := ih hr'
      have := length_escape hadded
      simp only [List.length_append, List.length_cons, hescaped, if_true, Bool.false_eq_true,
        if_false] at *
      omega
    · have := ih h
      simp only [List.length_cons, if_true] at *
      omega
    · cases h
      simp only [List.length_nil, List.length_cons]
      omega
    · obtain ⟨r', hr', rfl⟩ := Option.map_eq_some_iff.mp h
      have := ih hr'
      simp only [List.length_cons, Bool.false_eq_true, if_false] at *
      omega

/-- A number takes at least one character. -/
theorem length_numLoop {r : Num × List UInt8} (h : numLoop D n rest = some r) :
    r.2.length ≤ rest.length := by
  induction rest generalizing n with
  | nil =>
    rw [numLoop] at h
    cases hstep : numStep D n 0 with
    | stop n' =>
      rw [hstep] at h
      cases h
      exact Nat.le_refl _
    | fail =>
      rw [hstep] at h
      cases h
    | more n' =>
      rw [hstep] at h
      cases h
  | cons b rest ih =>
    rw [numLoop] at h
    cases hstep : numStep D n b with
    | stop n' =>
      rw [hstep] at h
      cases h
      exact Nat.le_refl _
    | fail =>
      rw [hstep] at h
      cases h
    | more n' =>
      rw [hstep] at h
      exact (ih h).trans (Nat.le_succ _)

/-- A digit does not end a number. -/
theorem numStep_digit (hb : isDigit b) (n : Num) : numStep D n b = numDigit D n b := if_pos hb

theorem numDigit_ne_stop (n n' : Num) (b : UInt8) : numDigit D n b ≠ .stop n' := by
  simp only [numDigit]
  split_ifs <;> simp

theorem length_number {decimal : Bool} {r : Num × List UInt8} (hb : isDigit (rest.headD 0) ∨
    rest.headD 0 = '-'.toUInt8) (h : number D decimal rest = some r) :
    r.2.length < rest.length := by
  cases rest with
  | nil => exact absurd hb (by decide)
  | cons b rest =>
    rw [List.headD_cons] at hb
    rw [number, List.headD_cons, List.tail_cons] at h
    split_ifs at h with hminus
    · exact Nat.lt_succ_of_le (length_numLoop h)
    · have hdigit := hb.resolve_right hminus
      rw [numLoop, numStep_digit hdigit] at h
      cases hstep : numDigit D { flag_num_got_decimal := decimal } b with
      | stop n' => exact absurd hstep (numDigit_ne_stop _ _ _)
      | fail =>
        rw [hstep] at h
        cases h
      | more n' =>
        rw [hstep] at h
        exact Nat.lt_succ_of_le (length_numLoop h)

/-- How many bytes a value has. -/
def Leaf.size : Leaf → Nat
  | string bytes => bytes.length
  | _ => 0

/-- What a step of the loop can do. -/
inductive Step (flags : Flags) (top : Option JsonType) (rest : List UInt8) : Action → Prop
  | fail : Step flags top rest .fail
  | finished (hdone : flags.done = true) : Step flags top rest .finished
  | skip {flags' : Flags} {rest' : List UInt8} (hdone : flags'.done = flags.done)
    (hseek : flags'.seekValue = flags.seekValue) (hrest : rest'.length < rest.length) :
    Step flags top rest (.skip flags' rest')
  | opens {type : JsonType} {flags' : Flags} {rest' : List UInt8} (hdone : flags.done = false)
    (hdone' : flags'.done = false) (hseek : flags.seekValue = true)
    (htype : type = .object ∧ flags'.seekValue = false ∨ type = .array ∧ flags'.seekValue = true)
    (hrest : rest'.length < rest.length) : Step flags top rest (.opens type flags' rest')
  | value {leaf : Leaf} {flags' : Flags} {rest' : List UInt8} (hdone : flags.done = false)
    (hdone' : flags'.done = false) (hseek : flags.seekValue = true)
    (hseek' : flags'.seekValue = false) (hrest : leaf.size + rest'.length < rest.length) :
    Step flags top rest (.value leaf flags' rest')
  | number {flags' : Flags} (hdone : flags.done = false) (hdone' : flags'.done = false)
    (hseek : flags.seekValue = true) (hseek' : flags'.seekValue = false)
    (hb : isDigit (rest.headD 0) ∨ rest.headD 0 = '-'.toUInt8) :
    Step flags top rest (.number flags' rest)
  | name {bytes : List UInt8} {flags' : Flags} {rest' : List UInt8} (hdone : flags.done = false)
    (hdone' : flags'.done = false) (hseek : flags.seekValue = false)
    (hseek' : flags'.seekValue = true) (htop : top = some .object)
    (hrest : bytes.length + rest'.length < rest.length) :
    Step flags top rest (.name bytes flags' rest')
  | closes {flags' : Flags} {rest' : List UInt8} (hdone : flags.done = false)
    (hdone' : flags'.done = false) (hseek' : flags'.seekValue = false)
    (htop : top = some .array ∨ top = some .object ∧ flags.seekValue = false)
    (hrest : rest'.length < rest.length) : Step flags top rest (.closes flags' rest')

theorem tail_lt (h : rest.headD 0 = b) (hb : b ≠ 0) : rest.tail.length < rest.length := by
  cases rest with
  | nil => exact absurd h.symm hb
  | cons c rest => exact Nat.lt_succ_self _

theorem isSpace_ne (h : isSpace b = true) : b ≠ 0 := by
  rintro rfl
  exact absurd h (by decide)

theorem goesOn_length {cs : List Char} (h : goesOn cs rest = .ok true) : cs.length ≤ rest.length := by
  induction cs generalizing rest with
  | nil => exact Nat.zero_le _
  | cons c cs ih =>
    cases rest with
    | nil => cases h
    | cons b rest =>
      rw [goesOn] at h
      by_cases hb : b = c.toUInt8
      · rw [if_pos hb] at h
        exact Nat.succ_le_succ (ih h)
      · rw [if_neg hb] at h
        cases h

theorem literal_cases {least : Nat} {cs : List Char} {leaf : Leaf}
    (h : literal least cs leaf flags rest = .ok a) :
    a = .fail ∨ a = .value leaf flags (rest.drop (cs.length + 1)) ∧ goesOn cs rest.tail = .ok true := by
  rw [literal] at h
  split_ifs at h
  · exact .inl (Except.ok.inj h).symm
  · obtain ⟨same, hsame, h⟩ := Exec.bind_ok.mp h
    cases same with
    | false => exact .inl (Except.ok.inj h).symm
    | true => exact .inr ⟨(Except.ok.inj h).symm, hsame⟩

theorem literal_step {least : Nat} {cs : List Char} {leaf : Leaf} (hleaf : leaf.size = 0)
    (hb : rest.headD 0 = b) (hb' : b ≠ 0) (hdone : flags.done = false) (hseek : flags.seekValue = true)
    (h : literal least cs leaf { flags with seekValue := false } rest = .ok a) :
    Step flags top rest a := by
  rcases literal_cases h with rfl | ⟨rfl, hgoes⟩
  · exact .fail
  · have hlt := tail_lt hb hb'
    have hle := goesOn_length hgoes
    refine .value hdone hdone hseek rfl ?_
    rw [hleaf, List.length_drop]
    omega

theorem seek_step (hdone : flags.done = false) (hseek : flags.seekValue = true)
    (h : seek { flags with seekValue := false } rest = .ok a) : Step flags top rest a := by
  simp only [seek] at h
  split_ifs at h with hobject harray hstring htrue hfalse hnull hnumber
  · cases h
    exact .opens hdone hdone hseek (.inl ⟨rfl, rfl⟩) (tail_lt hobject (by decide))
  · cases h
    exact .opens hdone hdone hseek (.inr ⟨rfl, rfl⟩) (tail_lt harray (by decide))
  · cases h
    cases hscan : scanString 0 false 0 rest.tail with
    | none => exact .fail
    | some r =>
      have hlt := tail_lt hstring (by decide)
      have hlen := length_scanString hscan
      refine .value hdone hdone hseek rfl ?_
      simp only [Bool.false_eq_true, if_false] at hlen
      show r.1.length + r.2.length < rest.length
      omega
  · exact literal_step rfl htrue (by decide) hdone hseek h
  · exact literal_step rfl hfalse (by decide) hdone hseek h
  · exact literal_step rfl hnull (by decide) hdone hseek h
  · cases h
    exact .number hdone hdone hseek rfl hnumber
  · cases h
    exact .fail

theorem inObject_step (hdone : flags.done = false) (hseek : flags.seekValue = false)
    (htop : top = some .object) : Step flags top rest (inObject flags rest) := by
  simp only [inObject]
  split_ifs with hspace hquote hcomma hbrace hcomma'
  · exact .skip rfl rfl (tail_lt rfl (isSpace_ne hspace))
  · exact .fail
  · cases hscan : scanString 0 false 0 rest.tail with
    | none => exact .fail
    | some r =>
      have hlt := tail_lt hquote (by decide)
      have hlen := length_scanString hscan
      simp only [Bool.false_eq_true, if_false] at hlen
      exact .name hdone hdone hseek rfl htop (by omega)
  · exact .closes hdone hdone hseek (.inr ⟨htop, hseek⟩) (tail_lt hbrace (by decide))
  · exact .skip rfl rfl (tail_lt hcomma'.1 (by decide))
  · exact .fail

/-- **What a step of the loop can do.** -/
theorem control_cases (h : control flags top rest = .ok a) : Step flags top rest a := by
  simp only [control] at h
  split_ifs at h with hdone hend hspace hseek hspace' hbracket htop hcomma hcomma' hcolon hcolon'
    hobject htop' hrest
  · cases h
    exact .finished hdone
  · cases h
    exact .skip rfl rfl (tail_lt rfl (isSpace_ne hspace))
  · cases h
    exact .fail
  · cases h
    exact .skip rfl rfl (tail_lt rfl (isSpace_ne hspace'))
  · cases h
    exact .closes (by simpa using hdone) (by simpa using hdone) rfl (.inl htop)
      (tail_lt hbracket (by decide))
  · cases h
    exact .fail
  · cases h
    exact .skip rfl rfl (tail_lt hcomma' (by decide))
  · cases h
    exact .fail
  · cases h
    exact .skip rfl rfl (tail_lt hcolon' (by decide))
  · cases h
    exact .fail
  · exact seek_step (by simpa using hdone) hseek h
  · cases h
    exact inObject_step (by simpa using hdone) (by simpa using hseek) hobject
  · cases h
    exact .skip rfl rfl (List.length_tail.trans_lt (Nat.sub_lt (List.length_pos_iff.mpr hrest) one_pos))

/-! ## Two loops -/

section Simulation

variable {μ ν : Type} {P : Pass μ} {Q : Pass ν} {S : Parse μ → Parse ν → Prop}

/-- Two steps that end in the same way, with states that `S` relates. -/
inductive Simulates (S : Parse μ → Parse ν → Prop) : Exec (Turn μ) → Exec (Turn ν) → Prop
  | error (e : Halt) : Simulates S (.error e) (.error e)
  | fail : Simulates S (.ok .fail) (.ok .fail)
  | finished : Simulates S (.ok .finished) (.ok .finished)
  | go {s : Parse μ} {t : Parse ν} (h : S s t) : Simulates S (.ok (.go s)) (.ok (.go t))

/-- Two loops whose steps end in the same way: so do the loops. -/
theorem loop_simulates (hstep : ∀ s t, S s t → Simulates S (turn P s) (turn Q t)) (fuel : Nat)
    {s : Parse μ} {t : Parse ν} (h : S s t) :
    (∃ e, loop P fuel s = .error e ∧ loop Q fuel t = .error e) ∨
    (loop P fuel s = .ok none ∧ loop Q fuel t = .ok none) ∨
    ∃ s' t', S s' t' ∧ turn P s' = .ok .finished ∧ loop P fuel s = .ok (some s'.values) ∧
      loop Q fuel t = .ok (some t'.values) := by
  induction fuel generalizing s t with
  | zero => exact .inl ⟨.outOfFuel, rfl, rfl⟩
  | succ fuel ih =>
    have hturn := hstep s t h
    rw [loop, loop]
    generalize hx : turn P s = x at *
    generalize turn Q t = y at *
    cases hturn with
    | error e => exact .inl ⟨e, rfl, rfl⟩
    | fail => exact .inr (.inl ⟨rfl, rfl⟩)
    | finished => exact .inr (.inr ⟨s, t, h, hx, rfl, rfl⟩)
    | go h' => exact ih h'

end Simulation

end Json

end Cnpv
