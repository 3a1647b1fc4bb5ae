import Cnpv.Config.Reference
import Cnpv.Json.Standard

/-!
# Policies

What a configuration is for, apart from JSON, buffers and hash tables: sections for programs, with
rules that give files an authority. A rule is for one file, or for the files of a directory if its
path ends in `/`. The last rule for a file decides (`Policy.permits`), and a file without a rule is
permitted.

A document states a policy if its value is `Policy.json`.
-/

namespace Cnpv

open CLib

/-- Characters without a NUL. -/
structure Name where
  chars : List Char
  noNul : ∀ c ∈ chars, c.val ≠ 0

/-- Its UTF-8 has no NUL either. -/
def Name.cstr (s : Name) : CStr where
  bytes := Json.encoded s.chars
  noNul h := by
    obtain ⟨c, hc, hb⟩ := List.mem_flatMap.mp h
    rcases Json.mem_utf8EncodeChar hb with ⟨-, hval⟩ | hle
    · exact s.noNul c hc (UInt32.toNat_inj.mp hval.symm)
    · exact absurd hle (by decide)

/-- What a call asks for. -/
inductive Access
  | read | write | readWrite
  deriving DecidableEq

/-- The access mode of a flag word. -/
def Access.asked (oflag : CInt) : Option Access :=
  if oflag &&& 0x03 = O_RDONLY then some .read
  else if oflag &&& 0x03 = O_WRONLY then some .write
  else if oflag &&& 0x03 = O_RDWR then some .readWrite
  else none

/-! ## Rules -/

structure Rule where
  path : Name
  authority : Name
  ne : path.chars ≠ []

namespace Rule

/-- The authority has the letter, in one of its cases. -/
def has (r : Rule) (upper lower : Char) : Bool :=
  upper ∈ r.authority.chars ∨ lower ∈ r.authority.chars

def grants (r : Rule) (a : Access) : Bool :=
  !r.has 'F' 'f' && match a with
    | .read => r.has 'R' 'r'
    | .write => r.has 'W' 'w'
    | .readWrite => r.has 'R' 'r' && r.has 'W' 'w'

/-- The path of a directory. -/
def IsDir (r : Rule) : Prop := r.path.chars.getLast? = some '/'

instance (r : Rule) : Decidable r.IsDir := inferInstanceAs (Decidable (_ = _))

/-- The files that the rule is for. -/
def covers (opendir : CStr → Option (List Dirent)) (r : Rule) : List CStr :=
  if r.IsDir then
    (((opendir r.path.cstr).getD []).filter fun d => !d.isDir).map fun d => r.path.cstr ++ d.name
  else [r.path.cstr]

/-- The paths of the rule fit a buffer of `size` bytes, and its directory has no directories. -/
structure Fits (opendir : CStr → Option (List Dirent)) (size : Nat) (r : Rule) : Prop where
  path : r.path.cstr.strlen < size
  covers : ∀ q ∈ r.covers opendir, q.strlen < size
  flat : r.IsDir → ∀ entries, opendir r.path.cstr = some entries → ∀ d ∈ entries, d.isDir = true →
    d.name = dot ∨ d.name = dotDot

/-- The object of the rule. -/
def json (r : Rule) : JsonValue :=
  .object [(PATH.buf, .string r.path.cstr.buf), (AUTHORITY.buf, .string r.authority.cstr.buf)]

end Rule

/-! ## Policies -/

structure PolicySection where
  program : Name
  rules : List Rule

abbrev Policy := List PolicySection

namespace Policy

/-- The rules for a program: those of its sections. -/
def rules (P : Policy) (program : CStr) : List Rule :=
  P.flatMap fun s => if s.program.cstr = program then s.rules else []

/-- No section of another program has a name that contains the name of the program. The loaders take
such a section for one of the program. -/
def Apart (P : Policy) (program : CStr) : Prop :=
  ∀ s ∈ P, program.bytes <:+: s.program.cstr.bytes → s.program.cstr = program

instance (P : Policy) (program : CStr) : Decidable (P.Apart program) :=
  inferInstanceAs (Decidable (∀ s ∈ P, _))

/-- The program may open the file `q`. -/
def permits (opendir : CStr → Option (List Dirent)) (P : Policy) (program q : CStr) (a : Access) : Bool :=
  ((P.rules program).reverse.find? fun r => q ∈ r.covers opendir).elim true fun r => r.grants a

/-- The verdict on a flag word. Those with an access mode ask the policy. Of the others the policy says
nothing: that of `fopen` is let through, and the rest is refused where there is a rule. -/
def verdict (opendir : CStr → Option (List Dirent)) (P : Policy) (program q : CStr) (oflag : CInt) :
    Bool :=
  match Access.asked oflag with
  | some a => P.permits opendir program q a
  | none => oflag = FOPEN_MODE_FLAG ∨ ∀ r ∈ P.rules program, q ∉ r.covers opendir

/-- How many files have rules. -/
def size (opendir : CStr → Option (List Dirent)) (P : Policy) (program : CStr) : Nat :=
  ((P.rules program).flatMap (Rule.covers opendir)).length

def json (P : Policy) : JsonValue :=
  .object (P.map fun s => (s.program.cstr.buf, .array (s.rules.map Rule.json)))

end Policy

end Cnpv
