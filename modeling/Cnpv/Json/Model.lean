import Cnpv.Config.Model

/-!
# The JSON parser (`ns_agent/src/json.c`, `kernel_module/json.c`)

`json_parse` goes over the text twice. The first pass makes the values, without their contents: it
counts the elements of each array, the members of each object and the bytes of their names. The
second pass allocates these contents and fills them, and takes the values in the order in which the
first one made them.

The loop is one for both passes: `control` is what it does with the flags and the text, and a `Pass`
what it does with the values. The iterations that read one string are one step here, and so are those
of a number. There are no settings (`json_parse` passes zeroed ones), so there are no comments and
there is no limit for the memory; allocations succeed. The bytes at `state.ptr` are the rest of the
text. A `double` is its bits, with its arithmetic as a parameter.
-/

namespace Cnpv

open CLib

/-- `json_type` -/
inductive JsonType
  | object | array | integer | double | string | boolean | null
  deriving DecidableEq

/-- The arithmetic of `double`; `pow x` is `pow (10.0, x)`. -/
structure Doubles where
  ofInt : Int → UInt64
  add : UInt64 → UInt64 → UInt64
  mul : UInt64 → UInt64 → UInt64
  div : UInt64 → UInt64 → UInt64
  neg : UInt64 → UInt64
  pow : UInt64 → UInt64

namespace Json

/-- `state.uint_max` -/
def UINT_LIMIT : Nat := 2 ^ 32 - 1 - 8

/-- `JSON_INT_MAX` -/
def JSON_INT_MAX : Int := 2 ^ 63 - 1

def isDigit (b : UInt8) : Bool := '0'.toUInt8 ≤ b && b ≤ '9'.toUInt8

/-- `whitespace` -/
def isSpace (b : UInt8) : Bool :=
  b = '\n'.toUInt8 || b = ' '.toUInt8 || b = '\t'.toUInt8 || b = '\r'.toUInt8

/-- `b - '0'` -/
def digitOf (b : UInt8) : Int := b.toNat - 48

/-! ## Strings -/

/-- `hex_value` -/
def hexValue (c : UInt8) : UInt8 :=
  if isDigit c then c - '0'.toUInt8
  else if 'a'.toUInt8 ≤ c ∧ c ≤ 'f'.toUInt8 then c - 'a'.toUInt8 + 0x0A
  else if 'A'.toUInt8 ≤ c ∧ c ≤ 'F'.toUInt8 then c - 'A'.toUInt8 + 0x0A
  else 0xFF

/-- `uc_b1` to `uc_b4`, and the number that they give. -/
def hex4 : List UInt8 → Option UInt32
  | c₁ :: c₂ :: c₃ :: c₄ :: _ =>
    let uc_b1 := hexValue c₁
    let uc_b2 := hexValue c₂
    let uc_b3 := hexValue c₃
    let uc_b4 := hexValue c₄
    if uc_b1 = 0xFF ∨ uc_b2 = 0xFF ∨ uc_b3 = 0xFF ∨ uc_b4 = 0xFF then none
    else
      let uc_b1 := (uc_b1 <<< 4) ||| uc_b2
      let uc_b2 := (uc_b3 <<< 4) ||| uc_b4
      some ((uc_b1.toUInt32 <<< 8) ||| uc_b2.toUInt32)
  | _ => none

/-- `string [i] = mark | uchar` -/
def byte (mark uchar : UInt32) : UInt8 := (mark ||| uchar).toUInt8

/-- The bytes that are added for `uchar`. -/
def utf8 (uchar : UInt32) : List UInt8 :=
  if uchar ≤ 0x7F then [uchar.toUInt8]
  else if uchar ≤ 0x7FF then [byte 0xC0 (uchar >>> 6), byte 0x80 (uchar &&& 0x3F)]
  else if uchar ≤ 0xFFFF then
    [byte 0xE0 (uchar >>> 12), byte 0x80 ((uchar >>> 6) &&& 0x3F), byte 0x80 (uchar &&& 0x3F)]
  else
    [byte 0xF0 (uchar >>> 18), byte 0x80 ((uchar >>> 12) &&& 0x3F),
      byte 0x80 ((uchar >>> 6) &&& 0x3F), byte 0x80 (uchar &&& 0x3F)]

/-- The bytes that `\u` adds, with `rest` after it, and how much of `rest` it takes. -/
def unicode (rest : List UInt8) : Option (List UInt8 × Nat) :=
  (hex4 rest).bind fun uchar =>
    if uchar &&& 0xF800 = 0xD800 then
      if (rest.drop 4).take 2 = ['\\'.toUInt8, 'u'.toUInt8] then
        (hex4 (rest.drop 6)).map fun uchar2 =>
          (utf8 ((0x010000 : UInt32) ||| ((uchar &&& 0x3FF) <<< 10) ||| (uchar2 &&& 0x3FF)), 10)
      else none
    else some (utf8 uchar, 4)

/-- The bytes that the escape sequence of `b` adds, and how much of `rest` it takes. -/
def escape (b : UInt8) (rest : List UInt8) : Option (List UInt8 × Nat) :=
  if b = 'b'.toUInt8 then some ([8], 0)
  else if b = 'f'.toUInt8 then some ([12], 0)
  else if b = 'n'.toUInt8 then some ([10], 0)
  else if b = 'r'.toUInt8 then some ([13], 0)
  else if b = 't'.toUInt8 then some ([9], 0)
  else if b = 'u'.toUInt8 then unicode rest
  else some ([b], 0)

/-- The iterations with `flag_string`: the bytes that they add, and what is after the closing quote.
`skip` characters were read by an escape sequence, and `len` is `string_length`. -/
def scanString (skip : Nat) (escaped : Bool) (len : Nat) :
    List UInt8 → Option (List UInt8 × List UInt8)
  | [] => none
  | b :: rest =>
    if skip ≠ 0 then scanString (skip - 1) escaped len rest
    else if b = 0 ∨ UINT_LIMIT < len then none
    else if escaped then
      (escape b rest).bind fun added =>
        (scanString added.2 false (len + added.1.length) rest).map fun r => (added.1 ++ r.1, r.2)
    else if b = '\\'.toUInt8 then scanString 0 true len rest
    else if b = '\"'.toUInt8 then some ([], rest)
    else (scanString 0 false (len + 1) rest).map fun r => (b :: r.1, r.2)

/-! ## Numbers -/

/-- A number while it is read: the value at `top`, and the flags and variables of numbers. -/
structure Num where
  /-- `top->type == json_double` -/
  isDouble : Bool := false
  integer : Int := 0
  dbl : UInt64 := 0
  num_digits : Nat := 0
  num_fraction : UInt64 := 0
  num_e : UInt64 := 0
  flag_num_negative : Bool := false
  flag_num_zero : Bool := false
  flag_num_e : Bool := false
  flag_num_e_got_sign : Bool := false
  flag_num_e_negative : Bool := false
  /-- Nothing clears this flag, so it can be from a number before. -/
  flag_num_got_decimal : Bool := false

/-- What the loop does at a character of a number. -/
inductive NumTurn
  | fail
  | more (n : Num)
  | stop (n : Num)

section Number

variable (D : Doubles)

/-- `would_overflow` -/
def wouldOverflow (value : Int) (b : UInt8) : Bool := (JSON_INT_MAX - digitOf b) / 10 < value

/-- `x * 10 + (b - '0')` -/
def push (x : UInt64) (b : UInt8) : UInt64 := D.add (D.mul x (D.ofInt 10)) (D.ofInt (digitOf b))

/-- A digit of a double, before its exponent. -/
def doubleDigit (n : Num) (b : UInt8) : Num :=
  if n.flag_num_got_decimal then { n with num_fraction := push D n.num_fraction b }
  else { n with dbl := push D n.dbl b }

/-- A digit. One that does not fit the integer is read again, as that of a double. -/
def numDigit (n : Num) (b : UInt8) : NumTurn :=
  let n := { n with num_digits := n.num_digits + 1 }
  if n.flag_num_e then .more { n with flag_num_e_got_sign := true, num_e := push D n.num_e b }
  else if n.isDouble then .more (doubleDigit D n b)
  else if n.flag_num_zero then .fail
  else
    let n := { n with flag_num_zero := n.num_digits = 1 ∧ b = '0'.toUInt8 }
    if wouldOverflow n.integer b then
      .more (doubleDigit D { n with isDouble := true, dbl := D.ofInt n.integer } b)
    else .more { n with integer := n.integer * 10 + digitOf b }

/-- The sign of a number that was read. -/
def numSign (n : Num) : Num :=
  if n.flag_num_negative then
    if n.isDouble then { n with dbl := D.neg n.dbl } else { n with integer := -n.integer }
  else n

/-- The iteration at `b`, with a number at `top`. -/
def numStep (n : Num) (b : UInt8) : NumTurn :=
  if isDigit b then numDigit D n b
  else if (b = '+'.toUInt8 ∨ b = '-'.toUInt8) ∧ n.flag_num_e ∧ ¬ n.flag_num_e_got_sign then
    .more { n with
      flag_num_e_got_sign := true
      flag_num_e_negative := n.flag_num_e_negative || b = '-'.toUInt8 }
  else if b = '.'.toUInt8 ∧ ¬ n.isDouble then
    if n.num_digits = 0 then .fail
    else .more { n with
      isDouble := true, dbl := D.ofInt n.integer, flag_num_got_decimal := true, num_digits := 0 }
  else if n.flag_num_e then
    if n.num_digits = 0 then .fail
    else .stop (numSign D { n with
      dbl := D.mul n.dbl (D.pow (if n.flag_num_e_negative then D.neg n.num_e else n.num_e)) })
  else if n.isDouble ∧ n.num_digits = 0 then .fail
  else
    let n := if n.isDouble then
      { n with dbl := D.add n.dbl (D.div n.num_fraction (D.pow (D.ofInt n.num_digits))) } else n
    if b = 'e'.toUInt8 ∨ b = 'E'.toUInt8 then
      .more { n with
        flag_num_e := true
        isDouble := true
        dbl := if n.isDouble then n.dbl else D.ofInt n.integer
        num_digits := 0
        flag_num_zero := false }
    else .stop (numSign D n)

/-- The iterations of a number: it ends before the first character that is none of it. -/
def numLoop (n : Num) : List UInt8 → Option (Num × List UInt8)
  | [] =>
    match numStep D n 0 with
    | .stop n => some (n, [])
    | _ => none
  | b :: rest =>
    match numStep D n b with
    | .fail => none
    | .more n => numLoop n rest
    | .stop n => some (n, b :: rest)

/-- A number from its first character on. -/
def number (decimal : Bool) (rest : List UInt8) : Option (Num × List UInt8) :=
  if rest.headD 0 = '-'.toUInt8 then
    numLoop D { flag_num_negative := true, flag_num_got_decimal := decimal } rest.tail
  else numLoop D { flag_num_got_decimal := decimal } rest

end Number

/-! ## The flags and the text -/

/-- `flags`, between the values. -/
structure Flags where
  needComma : Bool := false
  seekValue : Bool := false
  needColon : Bool := false
  done : Bool := false

/-- A value that is no array, no object and no number. -/
inductive Leaf
  | boolean (value : Bool)
  | null
  | string (bytes : List UInt8)

/-- What the loop does with the values in one step. -/
inductive Action
  | fail
  | finished
  | skip (flags : Flags) (rest : List UInt8)
  /-- `new_value` of an array or an object. -/
  | opens (type : JsonType) (flags : Flags) (rest : List UInt8)
  /-- `new_value` and `flag_next`. -/
  | value (leaf : Leaf) (flags : Flags) (rest : List UInt8)
  | number (flags : Flags) (rest : List UInt8)
  | name (bytes : List UInt8) (flags : Flags) (rest : List UInt8)
  /-- `flag_next`, with an array or an object at `top`. -/
  | closes (flags : Flags) (rest : List UInt8)

/-- Whether the text goes on with the characters; the byte at its end is not in the buffer. -/
def goesOn : List Char → List UInt8 → Exec Bool
  | [], _ => .ok true
  | _ :: _, [] => .error (.undefined .outOfBounds)
  | c :: cs, b :: rest => if b = c.toUInt8 then goesOn cs rest else .ok false

/-- `true`, `false` and `null`, which are not looked at if less than `least` bytes are left. -/
def literal (least : Nat) (cs : List Char) (leaf : Leaf) (flags : Flags) (rest : List UInt8) :
    Exec Action :=
  if rest.length < least then .ok .fail
  else do
    let same ← goesOn cs rest.tail
    .ok (if same then .value leaf flags (rest.drop (cs.length + 1)) else .fail)

/-- The first character of a value. -/
def seek (flags : Flags) (rest : List UInt8) : Exec Action :=
  let b := rest.headD 0
  if b = '\x7b'.toUInt8 then .ok (.opens .object flags rest.tail)
  else if b = '['.toUInt8 then .ok (.opens .array { flags with seekValue := true } rest.tail)
  else if b = '\"'.toUInt8 then
    .ok ((scanString 0 false 0 rest.tail).elim .fail fun r => .value (.string r.1) flags r.2)
  else if b = 't'.toUInt8 then literal 3 ['r', 'u', 'e'] (.boolean true) flags rest
  else if b = 'f'.toUInt8 then literal 4 ['a', 'l', 's', 'e'] (.boolean false) flags rest
  else if b = 'n'.toUInt8 then literal 3 ['u', 'l', 'l'] .null flags rest
  else if isDigit b ∨ b = '-'.toUInt8 then .ok (.number flags rest)
  else .ok .fail

/-- A character in an object, where no value is expected. -/
def inObject (flags : Flags) (rest : List UInt8) : Action :=
  let b := rest.headD 0
  if isSpace b then .skip flags rest.tail
  else if b = '\"'.toUInt8 then
    if flags.needComma then .fail
    else (scanString 0 false 0 rest.tail).elim .fail fun r =>
      .name r.1 { flags with seekValue := true, needColon := true } r.2
  else if b = '\x7d'.toUInt8 then .closes { flags with needComma := false } rest.tail
  else if b = ','.toUInt8 ∧ flags.needComma then .skip { flags with needComma := false } rest.tail
  else .fail

/-- The body of the loop, up to what it does with the values; `top` is `top->type`. -/
def control (flags : Flags) (top : Option JsonType) (rest : List UInt8) : Exec Action :=
  let b := rest.headD 0
  if flags.done then
    .ok (if b = 0 then .finished else if isSpace b then .skip flags rest.tail else .fail)
  else if flags.seekValue then
    if isSpace b then .ok (.skip flags rest.tail)
    else if b = ']'.toUInt8 then
      .ok (if top = some .array then
        .closes { flags with needComma := false, seekValue := false } rest.tail else .fail)
    else if flags.needComma then
      .ok (if b = ','.toUInt8 then .skip { flags with needComma := false } rest.tail else .fail)
    else if flags.needColon then
      .ok (if b = ':'.toUInt8 then .skip { flags with needColon := false } rest.tail else .fail)
    else seek { flags with seekValue := false } rest
  else if top = some .object then .ok (inObject flags rest)
  else if top = none then .error (.undefined .nullPointer)
  else if rest = [] then .error (.undefined .outOfBounds)
  else .ok (.skip flags rest.tail)

/-! ## The loop -/

/-- After `flag_next`: the root is done, or the value is in its parent, or there are too many. -/
inductive Attached (μ : Type)
  | root (values : μ)
  | child (parent : JsonType) (values : μ)
  | overflow

/-- What a pass does with the values. -/
structure Pass (μ : Type) where
  /-- `top->type` -/
  topType : μ → Option JsonType
  /-- `new_value` of an array or an object -/
  opens : μ → JsonType → Exec μ
  /-- `new_value`, and what the value is. -/
  leaf : μ → Leaf → Exec μ
  /-- `new_value`, and the number; `none` if it is not well-formed. -/
  number : μ → List UInt8 → Exec (Option (μ × List UInt8))
  /-- The name of a member. -/
  name : μ → List UInt8 → Exec μ
  /-- What `flag_next` does. -/
  next : μ → Exec (Attached μ)

/-- The variables of the loop. -/
structure Parse (μ : Type) where
  flags : Flags
  values : μ
  rest : List UInt8

inductive Turn (μ : Type)
  | fail
  | finished
  | go (s : Parse μ)

section Loop

variable {μ : Type} (P : Pass μ)

/-- `flag_next` -/
def flagNext (flags : Flags) (rest : List UInt8) (values : μ) : Exec (Turn μ) := do
  let attached ← P.next values
  match attached with
  | .overflow => .ok .fail
  | .root values =>
    .ok (.go { flags := { flags with needComma := true, done := true }, values, rest })
  | .child parent values =>
    .ok (.go {
      flags := { flags with
        needComma := true
        seekValue := flags.seekValue || parent = JsonType.array }
      values, rest })

/-- What an action does. -/
def perform (values : μ) : Action → Exec (Turn μ)
  | .fail => .ok .fail
  | .finished => .ok .finished
  | .skip flags rest => .ok (.go { flags, values, rest })
  | .opens type flags rest => do
    let values ← P.opens values type
    .ok (.go { flags, values, rest })
  | .value leaf flags rest => do
    let values ← P.leaf values leaf
    flagNext P flags rest values
  | .number flags rest => do
    let read ← P.number values rest
    read.elim (.ok .fail) fun r => flagNext P flags r.2 r.1
  | .name bytes flags rest => do
    let values ← P.name values bytes
    .ok (.go { flags, values, rest })
  | .closes flags rest => flagNext P flags rest values

/-- One step of the loop. -/
def turn (s : Parse μ) : Exec (Turn μ) := do
  let action ← control s.flags (P.topType s.values) s.rest
  perform P s.values action

/-- The loop; `none` for `e_failed`. -/
def loop : Nat → Parse μ → Exec (Option μ)
  | 0, _ => .error .outOfFuel
  | fuel + 1, s => do
    let t ← turn P s
    match t with
    | .fail => .ok none
    | .finished => .ok (some s.values)
    | .go s => loop fuel s

/-- One pass over the text. -/
def pass (values : μ) (text : List UInt8) : Exec (Option μ) :=
  loop P (text.length + 1) { flags := { seekValue := true }, values, rest := text }

end Loop

/-! ## The first pass -/

/-- `struct _json_value`, as the first pass leaves it. -/
structure Cell where
  type : JsonType
  parent : Option Nat
  /-- `u.array.length`, `u.object.length` or `u.string.length` -/
  length : Nat := 0
  /-- `u.object.values`, which has the number of bytes of the names. -/
  names : Nat := 0
  integer : Int := 0
  dbl : UInt64 := 0
  boolean : Bool := false

/-- The values of the first pass, in the order of `next_alloc`. -/
structure First where
  cells : List Cell := []
  top : Option Nat := none
  decimal : Bool := false

namespace First

/-- `new_value` -/
def newValue (x : First) (type : JsonType) : First :=
  { x with cells := x.cells ++ [{ type, parent := x.top }], top := some x.cells.length }

/-- A store to the value `i`. -/
def modify (x : First) (i : Option Nat) (f : Cell → Cell) : Exec First :=
  (i.bind fun i => x.cells[i]?.map fun c => { x with cells := x.cells.set i (f c) }).elim
    (.error (.undefined .nullPointer)) .ok

/-- The value at `top`. -/
def topCell (x : First) : Option Cell := x.top.bind fun i => x.cells[i]?

def leaf (x : First) : Leaf → Exec First
  | .boolean value => (x.newValue .boolean).modify (some x.cells.length) fun c => { c with boolean := value }
  | .null => .ok (x.newValue .null)
  | .string bytes =>
    (x.newValue .string).modify (some x.cells.length) fun c => { c with length := bytes.length }

def number (D : Doubles) (x : First) (rest : List UInt8) : Exec (Option (First × List UInt8)) :=
  (Json.number D x.decimal rest).elim (.ok none) fun r => do
    let x ← (x.newValue .integer).modify (some x.cells.length) fun c => { c with
      type := if r.1.isDouble then .double else .integer
      integer := r.1.integer
      dbl := r.1.dbl }
    .ok (some ({ x with decimal := r.1.flag_num_got_decimal }, r.2))

def name (x : First) (bytes : List UInt8) : Exec First :=
  x.modify x.top fun c => { c with names := c.names + (bytes.length + 1) }

/-- `flag_next` -/
def next (x : First) : Exec (Attached First) :=
  x.topCell.elim (.error (.undefined .nullPointer)) fun c =>
    if c.parent = none then .ok (.root x)
    else do
      let x ← x.modify c.parent fun p => { p with length := p.length + 1 }
      let x := { x with top := c.parent }
      x.topCell.elim (.error (.undefined .nullPointer)) fun p =>
        .ok (if UINT_LIMIT < p.length then .overflow else .child p.type x)

end First

/-- The first pass. -/
def firstPass (D : Doubles) : Pass First where
  topType := fun x => x.topCell.map Cell.type
  opens := fun x type => .ok (x.newValue type)
  leaf := First.leaf
  number := First.number D
  name := First.name
  next := First.next

/-! ## The second pass -/

/-- `struct _json_value` in the second pass, with the memory that it points to. -/
structure Node where
  /-- `length` counts again from 0. -/
  cell : Cell
  /-- `u.array.values`, or the `value` of `u.object.values`, with their number. -/
  values : Nat → Nat := fun _ => 0
  room : Nat := 0
  /-- The `name` and the `name_length` of `u.object.values`. -/
  names : Nat → Nat × Nat := fun _ => (0, 0)
  /-- `u.string.ptr`, or the names after `u.object.values`, with the number of bytes. -/
  chars : Nat → UInt8 := fun _ => 0
  charsRoom : Nat := 0
  object_mem : Nat := 0

/-- The values of the second pass; `alloc` is the next one. -/
structure Second where
  nodes : List Node
  alloc : Nat := 0
  top : Option Nat := none

namespace Node

/-- `new_value`: the memory for the contents. The size of the members is an `int`. -/
def allocated (n : Node) : Exec Node :=
  match n.cell.type with
  | .array => .ok { n with room := n.cell.length, cell := { n.cell with length := 0 } }
  | .object =>
    if n.cell.length = 0 then .ok n
    else if 24 * n.cell.length < 2 ^ 31 then
      .ok { n with
        room := n.cell.length, charsRoom := n.cell.names, cell := { n.cell with length := 0 } }
    else .error (.undefined .overflow)
  | .string => .ok { n with charsRoom := n.cell.length + 1, cell := { n.cell with length := 0 } }
  | _ => .ok n

/-- `string [i] = b` -/
def putChar (n : Node) (i : Nat) (b : UInt8) : Exec Node :=
  if i < n.charsRoom then .ok { n with chars := Function.update n.chars i b }
  else .error (.undefined .overflow)

/-- The bytes of a string, and its NUL. -/
def putChars (n : Node) (start : Nat) (bytes : List UInt8) : Exec Node :=
  runFrom (fun n e => n.putChar (start + e.2) e.1) n (bytes ++ [0]).zipIdx

def putString (n : Node) (bytes : List UInt8) : Exec Node := do
  let n ← n.putChars 0 bytes
  .ok { n with cell := { n.cell with length := bytes.length } }

def putName (n : Node) (bytes : List UInt8) : Exec Node := do
  let n ← n.putChars n.object_mem bytes
  if n.cell.length < n.room then
    .ok { n with
      names := Function.update n.names n.cell.length (n.object_mem, bytes.length)
      object_mem := n.object_mem + (bytes.length + 1) }
  else .error (.undefined .overflow)

/-- `flag_next`, in the parent. -/
def putValue (n : Node) (i : Nat) : Exec Node :=
  if n.cell.length < n.room then
    .ok { n with
      values := Function.update n.values n.cell.length i
      cell := { n.cell with length := n.cell.length + 1 } }
  else .error (.undefined .overflow)

end Node

namespace Second

/-- A store to the value `i`. -/
def modify (y : Second) (i : Option Nat) (f : Node → Exec Node) : Exec Second :=
  (i.bind fun i => y.nodes[i]?.map fun n => do
    let n ← f n
    .ok { y with nodes := y.nodes.set i n }).getD (.error (.undefined .nullPointer))

/-- The value at `top`. -/
def topNode (y : Second) : Option Node := y.top.bind fun i => y.nodes[i]?

/-- `new_value` -/
def newValue (y : Second) : Exec Second :=
  { y with alloc := y.alloc + 1, top := some y.alloc }.modify (some y.alloc) Node.allocated

def leaf (y : Second) (l : Leaf) : Exec Second := do
  let y ← y.newValue
  match l with
  | .boolean true => y.modify y.top fun n => .ok { n with cell := { n.cell with boolean := true } }
  | .string bytes => y.modify y.top fun n => n.putString bytes
  | _ => .ok y

/-- The characters that the second pass skips. -/
def isNumChar (b : UInt8) : Bool :=
  isDigit b || b = '+'.toUInt8 || b = '-'.toUInt8 || b = 'e'.toUInt8 || b = 'E'.toUInt8 ||
    b = '.'.toUInt8

def number (y : Second) (rest : List UInt8) : Exec (Option (Second × List UInt8)) := do
  let y ← y.newValue
  .ok (some (y, rest.dropWhile isNumChar))

def name (y : Second) (bytes : List UInt8) : Exec Second := y.modify y.top fun n => n.putName bytes

/-- `flag_next` -/
def next (y : Second) : Exec (Attached Second) :=
  y.topNode.elim (.error (.undefined .nullPointer)) fun n =>
    if n.cell.parent = none then .ok (.root y)
    else do
      let y ← y.modify n.cell.parent fun p => p.putValue (y.top.getD 0)
      let y := { y with top := n.cell.parent }
      y.topNode.elim (.error (.undefined .nullPointer)) fun p =>
        .ok (if UINT_LIMIT < p.cell.length then .overflow else .child p.cell.type y)

end Second

/-- The second pass. -/
def secondPass : Pass Second where
  topType := fun y => y.topNode.map fun n => n.cell.type
  opens := fun y _ => y.newValue
  leaf := Second.leaf
  number := Second.number
  name := Second.name
  next := Second.next

/-! ## The result -/

namespace Node

/-- The bytes from `start` on, with their NUL. -/
def charsAt (n : Node) (start len : Nat) : List UInt8 :=
  (List.range (len + 1)).map fun i => n.chars (start + i)

end Node

/-- The value at the node `i`, as it is read through its pointers. -/
def readValue (nodes : List Node) : Nat → Nat → Exec JsonValue
  | 0, _ => .error .outOfFuel
  | fuel + 1, i =>
    nodes[i]?.elim (.error (.undefined .nullPointer)) fun n =>
      match n.cell.type with
      | .array =>
        JsonValue.array <$> (List.range n.cell.length).mapM fun k => readValue nodes fuel (n.values k)
      | .object =>
        JsonValue.object <$> (List.range n.cell.length).mapM fun k => do
          let v ← readValue nodes fuel (n.values k)
          .ok (n.charsAt (n.names k).1 (n.names k).2, v)
      | .string => .ok (.string (n.charsAt 0 n.cell.length))
      | .integer => .ok (.integer n.cell.integer)
      | .double => .ok (.double n.cell.dbl)
      | .boolean => .ok (.boolean n.cell.boolean)
      | .null => .ok .null

/-- The text after a byte order mark. -/
def skipBom (text : List UInt8) : List UInt8 :=
  if text.take 3 = [0xEF, 0xBB, 0xBF] then text.drop 3 else text

/-- The two passes of `json_parse_ex`: the value at the root, or `none` for `NULL`. -/
def passes (D : Doubles) (text : List UInt8) : Exec (Option JsonValue) := do
  let first ← pass (firstPass D) {} text
  first.elim (.ok none) fun x => do
    let second ← pass secondPass { nodes := x.cells.map fun cell => { cell } } text
    second.elim (.ok none) fun y => some <$> readValue y.nodes y.nodes.length 0

end Json

open Json in
/-- `json_parse` -/
def jsonParse (D : Doubles) (json : List UInt8) : Exec (Option JsonValue) :=
  passes D (skipBom json)

end Cnpv
