import Cnpv.Json.Parse

/-!
# The texts of the JSON parser

`Reads` is the grammar: the JSON values, with a comma that may stand after the last element, and the
strings and numbers of `scanString` and `number`. The parser with one pass accepts its texts and no
others (`stackParse_iff`), with the values that it gives them. One flag of a number is not cleared
before the next one, so `Reads` has it before and after each value.
-/

namespace Cnpv

open CLib

namespace Json

/-! ## Runs -/

section Run

variable {D : Doubles} {s s' : Parse Stack} {flags : Flags} {z z' : Stack} {rest : List UInt8}
  {a : Action}

theorem flagNext_rest {μ : Type} {P : Pass μ} {values : μ} {s' : Parse μ}
    (h : flagNext P flags rest values = .ok (.go s')) : s'.rest = rest := by
  rw [flagNext] at h
  obtain ⟨attached, -, h⟩ := Exec.bind_ok.mp h
  cases attached with
  | root values =>
    cases h
    rfl
  | child parent values =>
    cases h
    rfl
  | overflow => cases h

/-- A step takes at least one character. -/
theorem turn_lt (h : turn (stackPass D) s = .ok (.go s')) : s'.rest.length < s.rest.length := by
  rw [turn] at h
  obtain ⟨a, ha, h⟩ := Exec.bind_ok.mp h
  cases control_cases ha with
  | fail => cases h
  | finished hdone => cases h
  | skip hdone hseek hrest =>
    cases h
    exact hrest
  | opens hdone hdone' hseek htype hrest =>
    cases h
    exact hrest
  | @value leaf flags' rest' hdone hdone' hseek hseek' hrest =>
    have hnext : flagNext (stackPass D) flags' rest' { s.values with value := some leaf.toValue } =
      .ok (.go s') := h
    rw [flagNext_rest hnext]
    omega
  | number hdone hdone' hseek hseek' hb =>
    have hperform : (Option.map _ (number D s.values.decimal s.rest)).elim _ _ =
      Except.ok (Turn.go s') := h
    cases hnumber : number D s.values.decimal s.rest with
    | none =>
      rw [hnumber] at hperform
      cases hperform
    | some r =>
      rw [hnumber] at hperform
      rw [flagNext_rest (P := stackPass D) hperform]
      exact length_number hb hnumber
  | name hdone hdone' hseek hseek' htop hrest =>
    obtain ⟨z, -, h⟩ := Exec.bind_ok.mp h
    cases h
    exact Nat.lt_of_le_of_lt (Nat.le_add_left _ _) hrest
  | closes hdone hdone' hseek' htop hrest =>
    rw [flagNext_rest (P := stackPass D) h]
    exact hrest

/-- The loop to its end. -/
def run (D : Doubles) (s : Parse Stack) : Exec (Option Stack) :=
  loop (stackPass D) (s.rest.length + 1) s

/-- More fuel than characters does not matter. -/
theorem loop_eq_run (fuel : Nat) (h : s.rest.length < fuel) : loop (stackPass D) fuel s = run D s := by
  rw [run]
  generalize hn : s.rest.length + 1 = n
  have hle : s.rest.length < n := by omega
  clear hn
  induction fuel generalizing s n with
  | zero => omega
  | succ fuel ih =>
    obtain ⟨n, rfl⟩ : ∃ m, n = m + 1 := ⟨n - 1, by omega⟩
    rw [loop, loop]
    cases hturn : turn (stackPass D) s with
    | error e => rfl
    | ok t =>
      cases t with
      | fail => rfl
      | finished => rfl
      | go s' =>
        have hlt := turn_lt hturn
        exact ih (by omega) n (by omega)

theorem run_eq (D : Doubles) (s : Parse Stack) : run D s = turn (stackPass D) s >>= fun t =>
    match t with
    | .fail => .ok none
    | .finished => .ok (some s.values)
    | .go s => run D s := by
  rw [run, loop]
  cases hturn : turn (stackPass D) s with
  | error e => rfl
  | ok t =>
    cases t with
    | fail => rfl
    | finished => rfl
    | go s' => exact loop_eq_run _ (turn_lt hturn)

/-- A step of a run. -/
theorem run_go {t : Parse Stack} (h : turn (stackPass D) s = .ok (.go t)) : run D s = run D t := by
  rw [run_eq, h]
  rfl

end Run

/-! ## The states between the values -/

/-- The text after white space. -/
def trim (s : List UInt8) : List UInt8 := s.dropWhile isSpace

/-- A value of the containers `frames` is next. -/
def seeking (frames : List Frame) (d : Bool) (s : List UInt8) : Parse Stack :=
  ⟨{ seekValue := true }, { frames, decimal := d }, s⟩

/-- The name of a member is next. -/
def naming (ms : List (List UInt8 × JsonValue)) (frames : List Frame) (d : Bool) (s : List UInt8) :
    Parse Stack :=
  ⟨{}, { frames := .object ms none :: frames, decimal := d }, s⟩

/-- The value `v` is complete, in the containers `frames`. -/
def after (frames : List Frame) (v : JsonValue) (d : Bool) (s : List UInt8) : Parse Stack :=
  match frames with
  | [] => ⟨{ needComma := true, done := true }, { frames := [], value := some v, decimal := d }, s⟩
  | f :: frames =>
    ⟨{ needComma := true, seekValue := f.type = JsonType.array },
      { frames := f.add v :: frames, decimal := d }, s⟩

/-! ## The grammar -/

def text (cs : List Char) : List UInt8 := cs.map Char.toUInt8

/-- The words and the strings. -/
inductive Word : List UInt8 → Leaf → List UInt8 → Prop
  | true' (r : List UInt8) : Word (text ['t', 'r', 'u', 'e'] ++ r) (.boolean true) r
  | false' (r : List UInt8) : Word (text ['f', 'a', 'l', 's', 'e'] ++ r) (.boolean false) r
  | null (r : List UInt8) : Word (text ['n', 'u', 'l', 'l'] ++ r) .null r
  | string {s bytes r : List UInt8} (h : scanString 0 false 0 s = some (bytes, r)) :
    Word ('\"'.toUInt8 :: s) (.string bytes) r

/-- What is read: a value, or the rest of an array or of an object. -/
inductive Part
  | value (v : JsonValue)
  | elements (vs : List JsonValue)
  | members (ms : List (List UInt8 × JsonValue))

/-- The text `s` begins with the part, and `r` is after it. -/
inductive Reads (D : Doubles) : Bool → List UInt8 → Part → Bool → List UInt8 → Prop
  | word {d : Bool} {s r : List UInt8} {l : Leaf} (h : Word s l r) :
    Reads D d s (.value l.toValue) d r
  | number {d : Bool} {s r : List UInt8} {n : Num}
    (hb : isDigit (s.headD 0) ∨ s.headD 0 = '-'.toUInt8) (h : number D d s = some (n, r)) :
    Reads D d s (.value n.toValue) n.flag_num_got_decimal r
  | array {d d' : Bool} {s r : List UInt8} {vs : List JsonValue}
    (h : Reads D d (trim s) (.elements vs) d' r) :
    Reads D d ('['.toUInt8 :: s) (.value (.array vs)) d' r
  | object {d d' : Bool} {s r : List UInt8} {ms : List (List UInt8 × JsonValue)}
    (h : Reads D d (trim s) (.members ms) d' r) :
    Reads D d ('\x7b'.toUInt8 :: s) (.value (.object ms)) d' r
  | noElement {d : Bool} {r : List UInt8} : Reads D d (']'.toUInt8 :: r) (.elements []) d r
  | lastElement {d d' : Bool} {s s' r : List UInt8} {v : JsonValue}
    (hv : Reads D d s (.value v) d' s') (hend : trim s' = ']'.toUInt8 :: r) :
    Reads D d s (.elements [v]) d' r
  | element {d d' d'' : Bool} {s s' s'' r : List UInt8} {v : JsonValue} {vs : List JsonValue}
    (hv : Reads D d s (.value v) d' s') (hcomma : trim s' = ','.toUInt8 :: s'')
    (h : Reads D d' (trim s'') (.elements vs) d'' r) : Reads D d s (.elements (v :: vs)) d'' r
  | noMember {d : Bool} {r : List UInt8} : Reads D d ('\x7d'.toUInt8 :: r) (.members []) d r
  | lastMember {d d' : Bool} {s s₁ s₂ s₃ r name : List UInt8} {v : JsonValue}
    (hname : scanString 0 false 0 s = some (name, s₁)) (hcolon : trim s₁ = ':'.toUInt8 :: s₂)
    (hv : Reads D d (trim s₂) (.value v) d' s₃) (hend : trim s₃ = '\x7d'.toUInt8 :: r) :
    Reads D d ('\"'.toUInt8 :: s) (.members [(name ++ [0], v)]) d' r
  | member {d d' d'' : Bool} {s s₁ s₂ s₃ s₄ r name : List UInt8} {v : JsonValue}
    {ms : List (List UInt8 × JsonValue)}
    (hname : scanString 0 false 0 s = some (name, s₁)) (hcolon : trim s₁ = ':'.toUInt8 :: s₂)
    (hv : Reads D d (trim s₂) (.value v) d' s₃) (hcomma : trim s₃ = ','.toUInt8 :: s₄)
    (h : Reads D d' (trim s₄) (.members ms) d'' r) :
    Reads D d ('\"'.toUInt8 :: s) (.members ((name ++ [0], v) :: ms)) d'' r

/-! ## Steps between the values -/

section Steps

variable {D : Doubles} {flags : Flags} {z z' : Stack} {frames : List Frame} {d d' : Bool}
  {s s' r : List UInt8} {v : JsonValue} {ms : List (List UInt8 × JsonValue)} {f : Frame}

/-- The loop is at a place where white space can stand. -/
def Free (flags : Flags) (z : Stack) : Prop :=
  flags.done = true ∨ flags.seekValue = true ∨ z.frames.head?.map Frame.type = some .object

theorem Free.space (h : Free flags z) {b : UInt8} (hb : isSpace b = true) (s : List UInt8) :
    turn (stackPass D) ⟨flags, z, b :: s⟩ = .ok (.go ⟨flags, z, s⟩) := by
  have hcontrol : control flags (z.frames.head?.map Frame.type) (b :: s) = .ok (.skip flags s) := by
    rcases h with h | h | h
    · simp [control, h, hb, isSpace_ne hb]
    · by_cases hdone : flags.done = true
      · simp [control, hdone, hb, isSpace_ne hb]
      · simp [control, hdone, h, hb]
    · by_cases hdone : flags.done = true
      · simp [control, hdone, hb, isSpace_ne hb]
      · by_cases hseek : flags.seekValue = true
        · simp [control, hdone, hseek, hb]
        · simp [control, inObject, hdone, hseek, h, hb]
  show control _ (z.frames.head?.map Frame.type) _ >>= _ = _
  rw [hcontrol]
  rfl

/-- White space is skipped. -/
theorem Free.run_trim (h : Free flags z) (s : List UInt8) :
    run D ⟨flags, z, s⟩ = run D ⟨flags, z, trim s⟩ := by
  induction s with
  | nil => rfl
  | cons b s ih =>
    by_cases hb : isSpace b = true
    · rw [run_go (h.space hb s), ih, trim, trim, List.dropWhile_cons_of_pos hb]
    · rw [trim, List.dropWhile_cons_of_neg hb]

theorem seeking_trim (frames : List Frame) (d : Bool) (s : List UInt8) :
    run D (seeking frames d s) = run D (seeking frames d (trim s)) :=
  Free.run_trim (.inr (.inl rfl)) s

theorem naming_trim (ms : List (List UInt8 × JsonValue)) (frames : List Frame) (d : Bool)
    (s : List UInt8) : run D (naming ms frames d s) = run D (naming ms frames d (trim s)) :=
  Free.run_trim (.inr (.inr rfl)) s

theorem after_trim (frames : List Frame) (v : JsonValue) (d : Bool) (s : List UInt8) :
    run D (after frames v d s) = run D (after frames v d (trim s)) := by
  cases frames with
  | nil => exact Free.run_trim (.inl rfl) s
  | cons f frames =>
    refine Free.run_trim ?_ s
    rcases Frame.type_cases f with hf | hf
    · exact .inr (.inl (by simp [hf]))
    · exact .inr (.inr (by simp [hf]))

theorem flagNext_value (frames : List Frame) (v : JsonValue) (d : Bool) (r : List UInt8) :
    flagNext (stackPass D) {} r { frames, value := some v, decimal := d } =
      .ok (.go (after frames v d r)) := by
  cases frames <;> rfl

theorem flagNext_closes (f : Frame) (frames : List Frame) (d : Bool) (r : List UInt8) :
    flagNext (stackPass D) {} r { frames := f :: frames, decimal := d } =
      .ok (.go (after frames f.close d r)) := by
  cases frames <;> rfl

/-- The first character of a value. -/
theorem seeking_turn (frames : List Frame) (d : Bool) (hspace : isSpace (s.headD 0) = false)
    (hbracket : s.headD 0 ≠ ']'.toUInt8) :
    turn (stackPass D) (seeking frames d s) =
      seek {} s >>= perform (stackPass D) { frames, decimal := d } := by
  have hcontrol : ∀ top, control { seekValue := true } top s = seek {} s := fun top => by
    simp only [control, Bool.false_eq_true, if_false, if_true, hspace, hbracket]
  exact congrArg (· >>= perform (stackPass D) { frames, decimal := d }) (hcontrol _)

/-- The end of an array. -/
theorem seeking_close (vs : List JsonValue) (frames : List Frame) (d : Bool) (r : List UInt8) :
    turn (stackPass D) (seeking (.array vs :: frames) d (']'.toUInt8 :: r)) =
      .ok (.go (after frames (.array vs) d r)) :=
  flagNext_closes (D := D) (.array vs) frames d r

/-- After an element. -/
theorem after_array (vs : List JsonValue) (frames : List Frame) (v : JsonValue) (d : Bool)
    (r : List UInt8) :
    turn (stackPass D) (after (.array vs :: frames) v d (']'.toUInt8 :: r)) =
        .ok (.go (after frames (.array (vs ++ [v])) d r)) ∧
      turn (stackPass D) (after (.array vs :: frames) v d (','.toUInt8 :: r)) =
        .ok (.go (seeking (.array (vs ++ [v]) :: frames) d r)) :=
  ⟨flagNext_closes (D := D) (.array (vs ++ [v])) frames d r, rfl⟩

/-- After a member. -/
theorem after_object (ms : List (List UInt8 × JsonValue)) (name : List UInt8) (frames : List Frame)
    (v : JsonValue) (d : Bool) (r : List UInt8) :
    turn (stackPass D) (after (.object ms (some name) :: frames) v d ('\x7d'.toUInt8 :: r)) =
        .ok (.go (after frames (.object (ms ++ [(name, v)])) d r)) ∧
      turn (stackPass D) (after (.object ms (some name) :: frames) v d (','.toUInt8 :: r)) =
        .ok (.go (naming (ms ++ [(name, v)]) frames d r)) :=
  ⟨flagNext_closes (D := D) (.object (ms ++ [(name, v)]) none) frames d r, rfl⟩

/-- The end of an object. -/
theorem naming_close (ms : List (List UInt8 × JsonValue)) (frames : List Frame) (d : Bool)
    (r : List UInt8) : turn (stackPass D) (naming ms frames d ('\x7d'.toUInt8 :: r)) =
      .ok (.go (after frames (.object ms) d r)) :=
  flagNext_closes (D := D) (.object ms none) frames d r

theorem naming_turn (ms : List (List UInt8 × JsonValue)) (frames : List Frame) (d : Bool)
    (s : List UInt8) : turn (stackPass D) (naming ms frames d s) =
      perform (stackPass D) { frames := .object ms none :: frames, decimal := d } (inObject {} s) :=
  rfl

theorem inObject_quote (s : List UInt8) : inObject {} ('\"'.toUInt8 :: s) =
    (scanString 0 false 0 s).elim .fail fun r =>
      .name r.1 { seekValue := true, needColon := true } r.2 :=
  rfl

/-- A name and its colon. -/
theorem naming_run {s₁ s₂ name : List UInt8} (ms : List (List UInt8 × JsonValue))
    (frames : List Frame) (d : Bool) (hname : scanString 0 false 0 s = some (name, s₁))
    (hcolon : trim s₁ = ':'.toUInt8 :: s₂) :
    run D (naming ms frames d ('\"'.toUInt8 :: s)) =
      run D (seeking (.object ms (some (name ++ [0])) :: frames) d (trim s₂)) := by
  have hquote : turn (stackPass D) (naming ms frames d ('\"'.toUInt8 :: s)) = .ok (.go
      ⟨{ seekValue := true, needColon := true },
        { frames := .object ms (some (name ++ [0])) :: frames, decimal := d }, s₁⟩) := by
    rw [naming_turn, inObject_quote, hname]
    rfl
  rw [run_go hquote, Free.run_trim (.inr (.inl rfl)), hcolon,
    run_go (t := seeking (.object ms (some (name ++ [0])) :: frames) d s₂) rfl, seeking_trim]

end Steps

/-! ## Every text of the grammar is accepted -/

section Completeness

variable {D : Doubles} {d d' : Bool} {s r : List UInt8} {p : Part}

/-- What the loop does at the part. -/
def Part.Runs (D : Doubles) (d : Bool) (s : List UInt8) (d' : Bool) (r : List UInt8) : Part → Prop
  | value v => ∀ frames, run D (seeking frames d s) = run D (after frames v d' r)
  | elements vs => ∀ vs₀ frames, run D (seeking (.array vs₀ :: frames) d s) =
      run D (after frames (.array (vs₀ ++ vs)) d' r)
  | members ms => ∀ ms₀ frames, run D (naming ms₀ frames d s) =
      run D (after frames (.object (ms₀ ++ ms)) d' r)

theorem Word.seek {l : Leaf} (h : Word s l r) : seek {} s = .ok (.value l {} r) ∧
    isSpace (s.headD 0) = false ∧ s.headD 0 ≠ ']'.toUInt8 := by
  cases h with
  | true' r => exact ⟨rfl, rfl, show 't'.toUInt8 ≠ _ by decide⟩
  | false' r => exact ⟨rfl, rfl, show 'f'.toUInt8 ≠ _ by decide⟩
  | null r => exact ⟨rfl, rfl, show 'n'.toUInt8 ≠ _ by decide⟩
  | @string s bytes r h =>
    refine ⟨?_, rfl, show '\"'.toUInt8 ≠ _ by decide⟩
    show Except.ok (Option.elim (scanString 0 false 0 s) _ _) = _
    rw [h]
    rfl

theorem number_head {b : UInt8} (h : isDigit b = true ∨ b = '-'.toUInt8) :
    isSpace b = false ∧ b ≠ ']'.toUInt8 ∧ b ≠ '\x7b'.toUInt8 ∧ b ≠ '['.toUInt8 ∧
      b ≠ '\"'.toUInt8 ∧ b ≠ 't'.toUInt8 ∧ b ≠ 'f'.toUInt8 ∧ b ≠ 'n'.toUInt8 := by
  have hall : ∀ k : Fin 256, (isDigit (UInt8.ofNat k) = true ∨ UInt8.ofNat k = '-'.toUInt8) →
      isSpace (UInt8.ofNat k) = false ∧ UInt8.ofNat k ≠ ']'.toUInt8 ∧
      UInt8.ofNat k ≠ '\x7b'.toUInt8 ∧ UInt8.ofNat k ≠ '['.toUInt8 ∧ UInt8.ofNat k ≠ '\"'.toUInt8 ∧
      UInt8.ofNat k ≠ 't'.toUInt8 ∧ UInt8.ofNat k ≠ 'f'.toUInt8 ∧ UInt8.ofNat k ≠ 'n'.toUInt8 := by
    decide +kernel
  have hb := hall ⟨b.toNat, b.toNat_lt⟩
  simp only [UInt8.ofNat_toNat] at hb
  exact hb h

theorem seek_number (h : isDigit (s.headD 0) ∨ s.headD 0 = '-'.toUInt8) :
    Json.seek {} s = .ok (.number {} s) := by
  obtain ⟨-, -, hbrace, hbracket, hquote, ht, hf, hn⟩ := number_head h
  simp only [Json.seek, hbrace, hbracket, hquote, ht, hf, hn, if_false, if_pos h]

/-- **The loop takes the texts of the grammar.** -/
theorem Reads.run (h : Reads D d s p d' r) : p.Runs D d s d' r := by
  induction h with
  | word h =>
    intro frames
    obtain ⟨hseek, hspace, hbracket⟩ := h.seek
    refine run_go ?_
    rw [seeking_turn frames _ hspace hbracket, hseek]
    exact flagNext_value (D := D) frames _ _ _
  | number hb h =>
    intro frames
    obtain ⟨hspace, hbracket, -⟩ := number_head hb
    refine run_go ?_
    rw [seeking_turn frames _ hspace hbracket, seek_number hb]
    show Option.elim (Option.map _ (Json.number D _ _)) _ _ = _
    rw [h]
    exact flagNext_value (D := D) frames _ _ _
  | @array d d' s r vs _ ih =>
    intro frames
    rw [run_go (t := seeking (.array [] :: frames) d s) rfl, seeking_trim, ih [] frames]
    rfl
  | @object d d' s r ms _ ih =>
    intro frames
    rw [run_go (t := naming [] frames d s) rfl, naming_trim, ih [] frames]
    rfl
  | noElement =>
    intro vs₀ frames
    rw [run_go (seeking_close vs₀ frames _ _), List.append_nil]
  | lastElement _ hend ih =>
    intro vs₀ frames
    rw [ih, after_trim, hend, run_go (after_array vs₀ frames _ _ _).1]
  | element _ hcomma _ ih ih' =>
    intro vs₀ frames
    rw [ih, after_trim, hcomma, run_go (after_array vs₀ frames _ _ _).2, seeking_trim, ih',
      List.append_assoc]
    rfl
  | noMember =>
    intro ms₀ frames
    rw [run_go (naming_close ms₀ frames _ _), List.append_nil]
  | lastMember hname hcolon _ hend ih =>
    intro ms₀ frames
    rw [naming_run ms₀ frames _ hname hcolon, ih, after_trim, hend,
      run_go (after_object ms₀ _ frames _ _ _).1]
  | member hname hcolon _ hcomma _ ih ih' =>
    intro ms₀ frames
    rw [naming_run ms₀ frames _ hname hcolon, ih, after_trim, hcomma,
      run_go (after_object ms₀ _ frames _ _ _).2, naming_trim, ih', List.append_assoc]
    rfl

end Completeness

/-! ## Every text that is accepted has the grammar -/

section Soundness

variable {D : Doubles} {d : Bool} {s r : List UInt8} {a : Action} {frames : List Frame} {z : Stack}
  {b : UInt8}

theorem cons_of_head (h : s.headD 0 = b) (hb : b ≠ 0) : s = b :: s.tail := by
  cases s with
  | nil => exact absurd h.symm hb
  | cons c s => exact congrArg (· :: s) h

theorem trim_head (s : List UInt8) : isSpace ((trim s).headD 0) = false := by
  induction s with
  | nil => rfl
  | cons b s ih =>
    by_cases hb : isSpace b = true
    · rwa [trim, List.dropWhile_cons_of_pos hb]
    · rw [trim, List.dropWhile_cons_of_neg hb]
      simpa using hb

theorem length_trim (s : List UInt8) : (trim s).length ≤ s.length :=
  (List.dropWhile_suffix _).length_le

theorem goesOn_eq {cs : List Char} (h : goesOn cs s = .ok true) :
    s = cs.map Char.toUInt8 ++ s.drop cs.length := by
  induction cs generalizing s with
  | nil => rfl
  | cons c cs ih =>
    cases s with
    | nil => cases h
    | cons b s =>
      rw [goesOn] at h
      by_cases hb : b = c.toUInt8
      · rw [if_pos hb] at h
        exact congrArg₂ List.cons hb (ih h)
      · rw [if_neg hb] at h
        cases h

/-- A word of the text, from its first character on. -/
theorem literal_word {least : Nat} {c : Char} {cs : List Char} {leaf : Leaf}
    (hhead : s.headD 0 = c.toUInt8) (hc : c.toUInt8 ≠ 0) (h : literal least cs leaf {} s = .ok a) :
    a = .fail ∨ ∃ r, s = (c :: cs).map Char.toUInt8 ++ r ∧ a = .value leaf {} r := by
  rcases literal_cases h with rfl | ⟨rfl, hgoes⟩
  · exact .inl rfl
  · refine .inr ⟨_, ?_, rfl⟩
    have hcons := cons_of_head hhead hc
    rw [← List.drop_tail, List.map_cons, List.cons_append, ← goesOn_eq hgoes]
    exact hcons

/-- What the first character of a value leads to. -/
inductive Seek (s : List UInt8) : Action → Prop
  | fail : Seek s .fail
  | object {s' : List UInt8} (hs : s = '\x7b'.toUInt8 :: s') : Seek s (.opens .object {} s')
  | array {s' : List UInt8} (hs : s = '['.toUInt8 :: s') :
    Seek s (.opens .array { seekValue := true } s')
  | word {l : Leaf} {r : List UInt8} (h : Word s l r) : Seek s (.value l {} r)
  | number (h : isDigit (s.headD 0) ∨ s.headD 0 = '-'.toUInt8) : Seek s (.number {} s)

theorem seek_cases (h : Json.seek {} s = .ok a) : Seek s a := by
  simp only [Json.seek] at h
  split_ifs at h with hobject harray hstring htrue hfalse hnull hnumber
  · cases h
    exact .object (cons_of_head hobject (by decide))
  · cases h
    exact .array (cons_of_head harray (by decide))
  · cases h
    cases hscan : scanString 0 false 0 s.tail with
    | none => exact .fail
    | some r =>
      refine .word ?_
      rw [cons_of_head hstring (by decide)]
      exact .string hscan
  · rcases literal_word htrue (by decide) h with rfl | ⟨r, rfl, rfl⟩
    · exact .fail
    · exact .word (.true' r)
  · rcases literal_word hfalse (by decide) h with rfl | ⟨r, rfl, rfl⟩
    · exact .fail
    · exact .word (.false' r)
  · rcases literal_word hnull (by decide) h with rfl | ⟨r, rfl, rfl⟩
    · exact .fail
    · exact .word (.null r)
  · cases h
    exact .number hnumber
  · cases h
    exact .fail

theorem Word.length {l : Leaf} (h : Word s l r) : r.length < s.length := by
  cases h with
  | true' r | false' r | null r =>
    simp only [text, List.map_cons, List.map_nil, List.cons_append,
      List.nil_append, List.length_cons]
    omega
  | string h =>
    have := length_scanString h
    simp only [Bool.false_eq_true, if_false] at this
    rw [List.length_cons]
    omega

/-- A run that comes to its end does not fail at once. -/
theorem run_fail {s : Parse Stack} (hturn : turn (stackPass D) s = .ok .fail)
    (h : run D s = .ok (some z)) : False := by
  rw [run_eq, hturn] at h
  cases h

/-- Outside of an array there is no end of one. -/
theorem seeking_bracket (hframes : frames.head?.all (·.type = .object) = true)
    (hb : s.headD 0 = ']'.toUInt8) : turn (stackPass D) (seeking frames d s) = .ok .fail := by
  rw [cons_of_head hb (by decide)]
  cases frames with
  | nil => rfl
  | cons f frames =>
    cases f with
    | array vs => cases hframes
    | object ms name => rfl

/-- After an element there is the end of the array or a comma. -/
theorem after_array_cases {vs : List JsonValue} {v : JsonValue} (hspace : isSpace (s.headD 0) = false)
    (h : run D (after (.array vs :: frames) v d s) = .ok (some z)) :
    (∃ r, s = ']'.toUInt8 :: r ∧ run D (after frames (.array (vs ++ [v])) d r) = .ok (some z)) ∨
    ∃ s', s = ','.toUInt8 :: s' ∧ run D (seeking (.array (vs ++ [v]) :: frames) d s') = .ok (some z) := by
  by_cases hend : s.headD 0 = ']'.toUInt8
  · have hcons := cons_of_head hend (by decide)
    rw [hcons, run_go (after_array vs frames v d s.tail).1] at h
    exact .inl ⟨_, hcons, h⟩
  · by_cases hcomma : s.headD 0 = ','.toUInt8
    · have hcons := cons_of_head hcomma (by decide)
      rw [hcons, run_go (after_array vs frames v d s.tail).2] at h
      exact .inr ⟨_, hcons, h⟩
    · refine (run_fail ?_ h).elim
      have hcontrol : ∀ top, control { needComma := true, seekValue := true } top s = .ok .fail :=
        fun top => by
          simp only [control, Bool.false_eq_true, if_false, if_true, hspace, hend, hcomma]
      exact congrArg (· >>= perform (stackPass D) _) (hcontrol _)

/-- After a member there is the end of the object or a comma. -/
theorem after_object_cases {ms : List (List UInt8 × JsonValue)} {name : List UInt8} {v : JsonValue}
    (hspace : isSpace (s.headD 0) = false)
    (h : run D (after (.object ms (some name) :: frames) v d s) = .ok (some z)) :
    (∃ r, s = '\x7d'.toUInt8 :: r ∧
      run D (after frames (.object (ms ++ [(name, v)])) d r) = .ok (some z)) ∨
    ∃ s', s = ','.toUInt8 :: s' ∧ run D (naming (ms ++ [(name, v)]) frames d s') = .ok (some z) := by
  by_cases hend : s.headD 0 = '\x7d'.toUInt8
  · have hcons := cons_of_head hend (by decide)
    rw [hcons, run_go (after_object ms name frames v d s.tail).1] at h
    exact .inl ⟨_, hcons, h⟩
  · by_cases hcomma : s.headD 0 = ','.toUInt8
    · have hcons := cons_of_head hcomma (by decide)
      rw [hcons, run_go (after_object ms name frames v d s.tail).2] at h
      exact .inr ⟨_, hcons, h⟩
    · refine (run_fail ?_ h).elim
      have hin : inObject { needComma := true } s = .fail := by
        simp only [inObject, hspace, hend, hcomma, Bool.false_eq_true, if_true, if_false, ite_self,
          false_and]
      exact congrArg (perform (stackPass D) _) hin

/-- In an object there is its end or a name with its colon. -/
theorem naming_cases {ms : List (List UInt8 × JsonValue)} (hspace : isSpace (s.headD 0) = false)
    (h : run D (naming ms frames d s) = .ok (some z)) :
    (∃ r, s = '\x7d'.toUInt8 :: r ∧ run D (after frames (.object ms) d r) = .ok (some z)) ∨
    ∃ s' name s₁ s₂, s = '\"'.toUInt8 :: s' ∧ scanString 0 false 0 s' = some (name, s₁) ∧
      trim s₁ = ':'.toUInt8 :: s₂ ∧
      run D (seeking (.object ms (some (name ++ [0])) :: frames) d (trim s₂)) = .ok (some z) := by
  by_cases hend : s.headD 0 = '\x7d'.toUInt8
  · have hcons := cons_of_head hend (by decide)
    rw [hcons, run_go (naming_close ms frames d s.tail)] at h
    exact .inl ⟨_, hcons, h⟩
  · by_cases hquote : s.headD 0 = '\"'.toUInt8
    · have hcons := cons_of_head hquote (by decide)
      cases hname : scanString 0 false 0 s.tail with
      | none =>
        refine (run_fail ?_ h).elim
        have hin : inObject {} s = .fail := by
          rw [hcons, inObject_quote, hname]
          rfl
        exact congrArg (perform (stackPass D) _) hin
      | some r =>
        -- The name is there; after white space it needs its colon.
        have hin : inObject {} s = .name r.1 { seekValue := true, needColon := true } r.2 := by
          rw [hcons, inObject_quote, hname]
          rfl
        have hturn : turn (stackPass D) (naming ms frames d s) = .ok (.go
            ⟨{ seekValue := true, needColon := true },
              { frames := .object ms (some (r.1 ++ [0])) :: frames, decimal := d }, r.2⟩) := by
          rw [naming_turn, hin]
          rfl
        have hrun := h
        rw [run_go hturn, Free.run_trim (.inr (.inl rfl))] at hrun
        have hhead := trim_head r.2
        by_cases hcolon : (trim r.2).headD 0 = ':'.toUInt8
        · have hcons' := cons_of_head hcolon (by decide)
          rw [hcons] at h
          rw [naming_run ms frames d hname hcons'] at h
          exact .inr ⟨_, _, _, _, hcons, hname, hcons', h⟩
        · refine (run_fail ?_ hrun).elim
          have hcontrol : control { seekValue := true, needColon := true } (some .object) (trim r.2) =
              .ok .fail := by
            simp only [control, Bool.false_eq_true, if_false, if_true, hhead, hcolon,
              Option.some.injEq, reduceCtorEq, ite_self]
          exact congrArg (· >>= perform (stackPass D) _) hcontrol
    · refine (run_fail ?_ h).elim
      have hin : inObject {} s = .fail := by
        simp only [inObject, hspace, hquote, hend, Bool.false_eq_true, if_false, and_false]
      exact congrArg (perform (stackPass D) _) hin

/-- What a run that comes to its end has read: the value `v`, whose last part is `p`. -/
def Found (D : Doubles) (d : Bool) (s : List UInt8) (frames : List Frame) (z : Stack)
    (p : JsonValue → Part → Prop) : Prop :=
  ∃ v q d' r, p v q ∧ Reads D d s q d' r ∧ r.length < s.length ∧
    run D (after frames v d' r) = .ok (some z)

/-- At a value. -/
def FoundValue (D : Doubles) (s : List UInt8) : Prop :=
  ∀ d frames z, isSpace (s.headD 0) = false → s.headD 0 ≠ ']'.toUInt8 →
    run D (seeking frames d s) = .ok (some z) → Found D d s frames z fun v q => q = .value v

/-- In an array. -/
def FoundElements (D : Doubles) (s : List UInt8) : Prop :=
  ∀ d vs₀ frames z, isSpace (s.headD 0) = false →
    run D (seeking (.array vs₀ :: frames) d s) = .ok (some z) →
    Found D d s frames z fun v q => ∃ vs, v = .array (vs₀ ++ vs) ∧ q = .elements vs

/-- In an object. -/
def FoundMembers (D : Doubles) (s : List UInt8) : Prop :=
  ∀ d ms₀ frames z, isSpace (s.headD 0) = false →
    run D (naming ms₀ frames d s) = .ok (some z) →
    Found D d s frames z fun v q => ∃ ms, v = .object (ms₀ ++ ms) ∧ q = .members ms

/-- A value, whose elements or members are in a shorter text. -/
theorem found_value (helements : ∀ s' : List UInt8, s'.length < s.length → FoundElements D s')
    (hmembers : ∀ s' : List UInt8, s'.length < s.length → FoundMembers D s') : FoundValue D s := by
  intro d frames z hspace hbracket h
  have hturn := seeking_turn (D := D) frames d hspace hbracket
  cases hseek : Json.seek {} s with
  | error e =>
    rw [run_eq, hturn, hseek] at h
    cases h
  | ok a =>
    rw [hseek] at hturn
    cases seek_cases hseek with
    | fail => exact (run_fail hturn h).elim
    | @object s' hs =>
      subst hs
      rw [run_go (t := naming [] frames d s') rfl, naming_trim] at h
      have hlt : (trim s').length < ('\x7b'.toUInt8 :: s').length :=
        Nat.lt_succ_of_le (length_trim s')
      obtain ⟨v, q, d', r, ⟨ms, rfl, rfl⟩, hreads, hr, hrun⟩ :=
        hmembers _ hlt d [] frames z (trim_head s') h
      exact ⟨_, _, d', r, rfl, .object hreads, hr.trans hlt, hrun⟩
    | @array s' hs =>
      subst hs
      rw [run_go (t := seeking (.array [] :: frames) d s') rfl, seeking_trim] at h
      have hlt : (trim s').length < ('['.toUInt8 :: s').length := Nat.lt_succ_of_le (length_trim s')
      obtain ⟨v, q, d', r, ⟨vs, rfl, rfl⟩, hreads, hr, hrun⟩ :=
        helements _ hlt d [] frames z (trim_head s') h
      exact ⟨_, _, d', r, rfl, .array hreads, hr.trans hlt, hrun⟩
    | word hw =>
      have hreads := Reads.word (D := D) (d := d) hw
      rw [hreads.run frames] at h
      exact ⟨_, _, d, _, rfl, hreads, hw.length, h⟩
    | number hb =>
      cases hnumber : Json.number D d s with
      | none =>
        refine (run_fail (hturn.trans ?_) h).elim
        show Option.elim (Option.map _ (Json.number D d s)) _ _ = _
        rw [hnumber]
        rfl
      | some r =>
        have hreads := Reads.number hb hnumber
        rw [hreads.run frames] at h
        exact ⟨_, _, _, _, rfl, hreads, length_number hb hnumber, h⟩

/-- The elements of an array: the first one, and those in the text after it. -/
theorem found_elements (hvalue : FoundValue D s)
    (helements : ∀ s' : List UInt8, s'.length < s.length → FoundElements D s') :
    FoundElements D s := by
  intro d vs₀ frames z hspace h
  by_cases hend : s.headD 0 = ']'.toUInt8
  · have hcons := cons_of_head hend (by decide)
    rw [hcons, run_go (seeking_close vs₀ frames d s.tail)] at h
    refine ⟨_, _, d, s.tail, ⟨[], rfl, rfl⟩, hcons ▸ .noElement, tail_lt hend (by decide), ?_⟩
    rwa [List.append_nil]
  · obtain ⟨v, q, d', s', rfl, hreads, hs', hrun⟩ := hvalue d _ z hspace hend h
    have htrim := length_trim s'
    rw [after_trim] at hrun
    rcases after_array_cases (trim_head s') hrun with ⟨r, hr, hrun⟩ | ⟨s'', hs'', hrun⟩
    · rw [hr, List.length_cons] at htrim
      exact ⟨_, _, d', r, ⟨[v], rfl, rfl⟩, .lastElement hreads hr, by omega, hrun⟩
    · rw [hs'', List.length_cons] at htrim
      have htrim' := length_trim s''
      rw [seeking_trim] at hrun
      obtain ⟨w, q, d'', r, ⟨vs, rfl, rfl⟩, hreads', hr, hrun⟩ :=
        helements (trim s'') (by omega) d' _ frames z (trim_head s'') hrun
      refine ⟨_, _, d'', r, ⟨v :: vs, rfl, rfl⟩, .element hreads hs'' hreads', by omega, ?_⟩
      rwa [List.append_assoc] at hrun

/-- The members of an object: the first one, and those in the text after it. -/
theorem found_members (hvalue : ∀ s' : List UInt8, s'.length < s.length → FoundValue D s')
    (hmembers : ∀ s' : List UInt8, s'.length < s.length → FoundMembers D s') : FoundMembers D s := by
  intro d ms₀ frames z hspace h
  rcases naming_cases hspace h with ⟨r, rfl, hrun⟩ | ⟨s', name, s₁, s₂, rfl, hname, hcolon, hrun⟩
  · refine ⟨_, _, d, r, ⟨[], rfl, rfl⟩, .noMember, Nat.lt_succ_self _, ?_⟩
    rwa [List.append_nil]
  · have hlen := length_scanString hname
    simp only [Bool.false_eq_true, if_false] at hlen
    have htrim₁ := length_trim s₁
    rw [hcolon, List.length_cons] at htrim₁
    have htrim₂ := length_trim s₂
    have hlt : (trim s₂).length < ('\"'.toUInt8 :: s').length := by
      rw [List.length_cons]
      omega
    have hbracket : (trim s₂).headD 0 ≠ ']'.toUInt8 := fun hb =>
      run_fail (seeking_bracket rfl hb) hrun
    obtain ⟨v, q, d', s₃, rfl, hreads, hs₃, hrun⟩ := hvalue _ hlt d _ z (trim_head s₂) hbracket hrun
    have htrim₃ := length_trim s₃
    rw [after_trim] at hrun
    rcases after_object_cases (trim_head s₃) hrun with ⟨r, hr, hrun⟩ | ⟨s₄, hs₄, hrun⟩
    · rw [hr, List.length_cons] at htrim₃
      exact ⟨_, _, d', r, ⟨[(name ++ [0], v)], rfl, rfl⟩, .lastMember hname hcolon hreads hr,
        by omega, hrun⟩
    · rw [hs₄, List.length_cons] at htrim₃
      have htrim₄ := length_trim s₄
      rw [naming_trim] at hrun
      obtain ⟨w, q, d'', r, ⟨ms, rfl, rfl⟩, hreads', hr, hrun⟩ :=
        hmembers (trim s₄) (by omega) d' _ frames z (trim_head s₄) hrun
      refine ⟨_, _, d'', r, ⟨(name ++ [0], v) :: ms, rfl, rfl⟩,
        .member hname hcolon hreads hs₄ hreads', by omega, ?_⟩
      rwa [List.append_assoc] at hrun

/-- **What a run has read.** -/
theorem found (D : Doubles) (s : List UInt8) :
    FoundValue D s ∧ FoundElements D s ∧ FoundMembers D s := by
  induction hn : s.length using Nat.strong_induction_on generalizing s with
  | _ n ih =>
    subst hn
    have hless := fun s' hlt => ih (List.length s') hlt s' rfl
    have hvalue := found_value (fun s' hlt => (hless s' hlt).2.1) fun s' hlt => (hless s' hlt).2.2
    exact ⟨hvalue, found_elements hvalue fun s' hlt => (hless s' hlt).2.1,
      found_members (fun s' hlt => (hless s' hlt).1) fun s' hlt => (hless s' hlt).2.2⟩

end Soundness

/-- After the root there is only white space. -/
theorem run_root (D : Doubles) (v : JsonValue) (d : Bool) (r : List UInt8) :
    run D (after [] v d r) = if (trim r).headD 0 = 0 then .ok (some (after [] v d r).values)
      else .ok none := by
  have hturn : turn (stackPass D) (after [] v d (trim r)) =
      .ok (if (trim r).headD 0 = 0 then .finished else .fail) := by
    show control { needComma := true, done := true } none (trim r) >>= _ = _
    simp only [control, if_true, trim_head, Bool.false_eq_true, if_false, Exec.ok_bind]
    split_ifs <;> rfl
  rw [after_trim, run_eq, hturn]
  split_ifs <;> rfl

/-- The text of one value, with white space around it; a NUL ends it. -/
def Document (D : Doubles) (text : List UInt8) (v : JsonValue) : Prop :=
  ∃ d r, Reads D false (trim text) (.value v) d r ∧ (trim r).headD 0 = 0

/-- **The texts that the parser with one pass accepts.** -/
theorem stackParse_iff (D : Doubles) (text : List UInt8) (v : JsonValue) :
    stackParse D text = .ok (some v) ↔ Document D text v := by
  have hstart : stackParse D text = (fun z => z.bind Stack.value) <$> run D (seeking [] false text) :=
    rfl
  constructor
  · intro h
    rw [hstart, Exec.map_ok] at h
    obtain ⟨o, ho, hv⟩ := h
    obtain ⟨z, rfl, hv⟩ := Option.bind_eq_some_iff.mp hv
    rw [seeking_trim] at ho
    have hbracket : (trim text).headD 0 ≠ ']'.toUInt8 := fun hb =>
      run_fail (seeking_bracket rfl hb) ho
    obtain ⟨w, q, d, r, rfl, hreads, -, hrun⟩ :=
      (found D (trim text)).1 false [] z (trim_head text) hbracket ho
    rw [run_root] at hrun
    split_ifs at hrun with hend
    · obtain rfl := Option.some.inj (Except.ok.inj hrun)
      obtain rfl := Option.some.inj hv
      exact ⟨d, r, hreads, hend⟩
    · cases hrun
  · rintro ⟨d, r, hreads, hend⟩
    rw [hstart, seeking_trim, hreads.run, run_root, if_pos hend]
    rfl

end Json

open Json in
/-- **The texts that `json_parse` accepts**, with their values. -/
theorem jsonParse_iff (D : Doubles) (json : List UInt8) (v : JsonValue)
    (h : 24 * json.length < 2 ^ 31) :
    jsonParse D json = .ok (some v) ↔ Document D (skipBom json) v := by
  rw [jsonParse, passes_eq D _ (length_skipBom h), stackParse_iff]

open Json in
/-- `[7,]` -/
theorem jsonParse_iff_list :
    Document noDoubles (text ['[', '7', ',', ']']) (.array [.integer 7]) :=
  (jsonParse_iff noDoubles (text ['[', '7', ',', ']']) (.array [.integer 7]) (by decide)).mp rfl

end Cnpv
