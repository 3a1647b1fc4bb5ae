import Cnpv.Json.Grammar

/-!
# The end of the text of the JSON parser

`json_parse` gets the length of the text, which has no NUL at its end. It returns on every text below
the limit of its `int` sizes, and the one place where it can read behind the text is a word without its
last letter (`jsonParse_safe`): the lengths that it asks for at `true`, `false` and `null` are too small
by one.
-/

namespace Cnpv

open CLib

namespace Json

section Unfinished

variable {D : Doubles} {flags : Flags} {top : Option JsonType} {s s' : List UInt8} {b : UInt8}
  {n : Num}

/-- The words whose last letter is looked for behind the text. -/
def Unfinished (s : List UInt8) : Prop :=
  s = text ['t', 'r', 'u'] ∨ s = text ['f', 'a', 'l', 's'] ∨ s = text ['n', 'u', 'l']

theorem scanString_suffix {skip len : Nat} {escaped : Bool} {r : List UInt8 × List UInt8}
    (h : scanString skip escaped len s = some r) : r.2 <:+ s := by
  induction s generalizing skip escaped len r with
  | nil => cases h
  | cons b s ih =>
    have hcons : s <:+ b :: s := List.suffix_cons b s
    rw [scanString] at h
    split_ifs at h with hskip hend hescaped hslash hquote
    · exact (ih h).trans hcons
    · obtain ⟨added, -, h⟩ := Option.bind_eq_some_iff.mp h
      obtain ⟨r', hr', rfl⟩ := Option.map_eq_some_iff.mp h
      exact (ih hr').trans hcons
    · exact (ih h).trans hcons
    · cases h
      exact hcons
    · obtain ⟨r', hr', rfl⟩ := Option.map_eq_some_iff.mp h
      exact (ih hr').trans hcons

theorem numLoop_suffix {r : Num × List UInt8} (h : numLoop D n s = some r) : r.2 <:+ s := by
  induction s generalizing n with
  | nil =>
    have := length_numLoop h
    exact List.eq_nil_of_length_eq_zero (Nat.le_zero.mp this) ▸ List.suffix_rfl
  | cons b s ih =>
    rw [numLoop] at h
    cases hstep : numStep D n b with
    | stop n' =>
      rw [hstep] at h
      cases h
      exact List.suffix_rfl
    | fail =>
      rw [hstep] at h
      cases h
    | more n' =>
      rw [hstep] at h
      exact (ih h).trans (List.suffix_cons b s)

theorem number_suffix {r : Num × List UInt8} {d : Bool} (h : number D d s = some r) : r.2 <:+ s := by
  rw [number] at h
  split_ifs at h
  · exact (numLoop_suffix h).trans (List.tail_suffix s)
  · exact numLoop_suffix h

theorem goesOn_error {cs : List Char} {e : Halt} (h : goesOn cs s = .error e) :
    e = .undefined .outOfBounds ∧ s.length < cs.length ∧
      s = (cs.take s.length).map Char.toUInt8 := by
  induction cs generalizing s with
  | nil => cases h
  | cons c cs ih =>
    cases s with
    | nil =>
      cases h
      exact ⟨rfl, Nat.succ_pos _, rfl⟩
    | cons b s =>
      rw [goesOn] at h
      by_cases hb : b = c.toUInt8
      · rw [if_pos hb] at h
        obtain ⟨he, hlt, hs⟩ := ih h
        exact ⟨he, Nat.succ_lt_succ hlt, congrArg₂ List.cons hb hs⟩
      · rw [if_neg hb] at h
        cases h

/-- A word is not complete only if its last letter is missing. -/
theorem literal_error {least : Nat} {c : Char} {cs : List Char} {leaf : Leaf} {e : Halt}
    (h : literal least cs leaf flags s = .error e) (hleast : least = cs.length)
    (hhead : s.headD 0 = c.toUInt8) (hc : c.toUInt8 ≠ 0) :
    e = .undefined .outOfBounds ∧ s = ((c :: cs).take least).map Char.toUInt8 := by
  have hcons := cons_of_head hhead hc
  rw [literal] at h
  split_ifs at h with hlen
  rcases Exec.bind_error.mp h with h | ⟨same, -, h⟩
  · obtain ⟨he, hlt, htail⟩ := goesOn_error h
    refine ⟨he, ?_⟩
    have hlength : s.length = s.tail.length + 1 := congrArg List.length hcons
    obtain rfl : least = s.tail.length + 1 := by omega
    rw [List.take_succ_cons, List.map_cons, ← htail]
    exact hcons
  · cases h

theorem seek_error {e : Halt} (h : Json.seek flags s = .error e) :
    e = .undefined .outOfBounds ∧ Unfinished s := by
  simp only [Json.seek] at h
  split_ifs at h with hobject harray hstring htrue hfalse hnull hnumber
  · exact (literal_error h rfl htrue (by decide)).imp_right .inl
  · exact (literal_error h rfl hfalse (by decide)).imp_right fun hs => .inr (.inl hs)
  · exact (literal_error h rfl hnull (by decide)).imp_right fun hs => .inr (.inr hs)

/-- The loop reads behind the text in an unfinished word and nowhere else. -/
theorem control_error {z : Stack} {e : Halt} (hfree : Free flags z)
    (h : control flags (z.frames.head?.map Frame.type) s = .error e) :
    e = .undefined .outOfBounds ∧ Unfinished s := by
  simp only [control] at h
  split_ifs at h with hdone hseek hspace hbracket hcomma hcolon hobject hnone hnil
  · exact seek_error h
  · rcases hfree with hfree | hfree | hfree
    · exact absurd hfree hdone
    · exact absurd hfree hseek
    · exact absurd hfree hobject
  · rcases hfree with hfree | hfree | hfree
    · exact absurd hfree hdone
    · exact absurd hfree hseek
    · exact absurd hfree hobject

/-- The text that an action leaves. -/
def Action.rest : Action → List UInt8
  | fail | finished => []
  | skip _ r | opens _ _ r | value _ _ r | number _ r | name _ _ r | closes _ r => r

theorem literal_suffix {least : Nat} {cs : List Char} {leaf : Leaf} {a : Action}
    (h : literal least cs leaf flags s = .ok a) : a.rest <:+ s := by
  rcases literal_cases h with rfl | ⟨rfl, -⟩
  · exact List.nil_suffix
  · exact List.drop_suffix _ _

theorem scan_suffix {g : List UInt8 × List UInt8 → Action} (hg : ∀ r, (g r).rest = r.2) :
    ((scanString 0 false 0 s.tail).elim .fail g).rest <:+ s := by
  cases hscan : scanString 0 false 0 s.tail with
  | none => exact List.nil_suffix
  | some r =>
    rw [Option.elim_some, hg]
    exact (scanString_suffix hscan).trans (List.tail_suffix s)

theorem seek_suffix {a : Action} (h : Json.seek flags s = .ok a) : a.rest <:+ s := by
  have htail := List.tail_suffix s
  simp only [Json.seek] at h
  split_ifs at h
  · cases h
    exact htail
  · cases h
    exact htail
  · cases h
    exact scan_suffix fun r => rfl
  · exact literal_suffix h
  · exact literal_suffix h
  · exact literal_suffix h
  · cases h
    exact List.suffix_rfl
  · cases h
    exact List.nil_suffix

theorem inObject_suffix (flags : Flags) (s : List UInt8) : (inObject flags s).rest <:+ s := by
  simp only [inObject]
  split_ifs
  · exact List.tail_suffix s
  · exact List.nil_suffix
  · exact scan_suffix fun r => rfl
  · exact List.tail_suffix s
  · exact List.tail_suffix s
  · exact List.nil_suffix

theorem control_suffix {a : Action} (h : control flags top s = .ok a) : a.rest <:+ s := by
  simp only [control] at h
  split_ifs at h
  all_goals first
    | exact seek_suffix h
    | cases h
  all_goals first
    | exact List.tail_suffix s
    | exact List.nil_suffix
    | exact inObject_suffix flags s

/-! ## The loop stays in its text -/

/-- `flag_next` has a value, or a container that is closed. -/
theorem flagNext_free (flags : Flags) (r : List UInt8) {z : Stack}
    (hz : z.value.isSome = true ∨ z.frames.head?.isSome = true) : ∃ t,
      flagNext (stackPass D) flags r z = .ok (.go t) ∧ Free t.flags t.values ∧ t.rest = r := by
  have hnext : ∃ v frames, z.next = .ok (z.attach v frames) := by
    rw [Stack.next]
    cases hv : z.value with
    | some v => exact ⟨v, z.frames, rfl⟩
    | none =>
      rw [hv] at hz
      cases hf : z.frames with
      | nil =>
        rw [hf] at hz
        exact absurd hz (by simp)
      | cons f frames => exact ⟨f.close, frames, rfl⟩
  obtain ⟨v, frames, hnext⟩ := hnext
  rw [flagNext, show (stackPass D).next z = _ from hnext]
  cases frames with
  | nil => exact ⟨_, rfl, .inl rfl, rfl⟩
  | cons f frames =>
    refine ⟨_, rfl, ?_, rfl⟩
    rcases Frame.type_cases f with hf | hf
    · exact .inr (.inl (by simp [hf]))
    · exact .inr (.inr (by simp [hf]))

/-- A container at `top`. -/
theorem head_of_type {z : Stack} {type : JsonType} (h : z.frames.head?.map Frame.type = some type) :
    z.frames.head?.isSome = true := by
  cases hf : z.frames.head? with
  | none =>
    rw [hf] at h
    cases h
  | some f => rfl

/-- **A step** stays in the text, or looks for the last letter of a word behind it. -/
theorem turn_safe {t : Parse Stack} (h : Free t.flags t.values) :
    (turn (stackPass D) t = .error (.undefined .outOfBounds) ∧ Unfinished t.rest) ∨
    turn (stackPass D) t = .ok .fail ∨ turn (stackPass D) t = .ok .finished ∨
    ∃ t', turn (stackPass D) t = .ok (.go t') ∧ Free t'.flags t'.values ∧ t'.rest <:+ t.rest := by
  have hturn : turn (stackPass D) t =
    control t.flags (t.values.frames.head?.map Frame.type) t.rest >>= perform (stackPass D) t.values :=
    rfl
  cases hcontrol : control t.flags (t.values.frames.head?.map Frame.type) t.rest with
  | error e =>
    obtain ⟨rfl, hs⟩ := control_error h hcontrol
    exact .inl ⟨by rw [hturn, hcontrol]; rfl, hs⟩
  | ok a =>
    have hsuffix := control_suffix hcontrol
    rw [hturn, hcontrol, Exec.ok_bind]
    refine .inr ?_
    cases control_cases hcontrol with
    | fail => exact .inl rfl
    | finished hdone => exact .inr (.inl rfl)
    | skip hdone hseek hrest =>
      refine .inr (.inr ⟨_, rfl, ?_, hsuffix⟩)
      rcases h with h | h | h
      · exact .inl (hdone.trans h)
      · exact .inr (.inl (hseek.trans h))
      · exact .inr (.inr h)
    | opens hdone hdone' hseek htype hrest =>
      refine .inr (.inr ⟨_, rfl, ?_, hsuffix⟩)
      rcases htype with ⟨rfl, -⟩ | ⟨-, hseek'⟩
      · exact .inr (.inr rfl)
      · exact .inr (.inl hseek')
    | @value l flags' rest' hdone hdone' hseek hseek' hrest =>
      obtain ⟨t', ht', hfree, hr⟩ := flagNext_free (D := D) flags' rest'
        (z := { t.values with value := some l.toValue }) (.inl rfl)
      exact .inr (.inr ⟨t', ht', hfree, hr ▸ hsuffix⟩)
    | @number flags' hdone hdone' hseek hseek' hb =>
      cases hnumber : number D t.values.decimal t.rest with
      | none =>
        refine .inl ?_
        show Option.elim (Option.map _ (number D t.values.decimal t.rest)) _ _ = _
        rw [hnumber]
        rfl
      | some r =>
        obtain ⟨t', ht', hfree, hr⟩ := flagNext_free (D := D) flags' r.2
          (z := { t.values with
            value := some r.1.toValue, decimal := r.1.flag_num_got_decimal }) (.inl rfl)
        refine .inr (.inr ⟨t', ?_, hfree, hr ▸ number_suffix hnumber⟩)
        show Option.elim (Option.map _ (number D t.values.decimal t.rest)) _ _ = _
        rw [hnumber]
        exact ht'
    | @name bytes flags' rest' hdone hdone' hseek hseek' htop hrest =>
      obtain ⟨f, hf⟩ := Option.isSome_iff_exists.mp (head_of_type htop)
      have hname : t.values.name bytes =
          .ok { t.values with frames := f.setName bytes :: t.values.frames.tail } := by
        rw [Stack.name, hf]
        rfl
      have hgo : perform (stackPass D) t.values (.name bytes flags' rest') = .ok (.go ⟨flags',
          { t.values with frames := f.setName bytes :: t.values.frames.tail }, rest'⟩) := by
        show t.values.name bytes >>= _ = _
        rw [hname]
        rfl
      exact .inr (.inr ⟨_, hgo, .inr (.inl hseek'), hsuffix⟩)
    | @closes flags' rest' hdone hdone' hseek' htop hrest =>
      have hhead := htop.elim head_of_type fun h => head_of_type h.1
      obtain ⟨t', ht', hfree, hr⟩ := flagNext_free (D := D) flags' rest'
        (z := t.values) (.inr hhead)
      exact .inr (.inr ⟨t', ht', hfree, hr ▸ hsuffix⟩)

/-- A run comes to its end, or reads behind its text there. -/
theorem run_safe {t : Parse Stack} (h : Free t.flags t.values) : (∃ o, run D t = .ok o) ∨
    (run D t = .error (.undefined .outOfBounds) ∧ ∃ w, Unfinished w ∧ w <:+ t.rest) := by
  induction hn : t.rest.length using Nat.strong_induction_on generalizing t with
  | _ n ih =>
    subst hn
    rcases turn_safe (D := D) h with ⟨ht, hw⟩ | ht | ht | ⟨t', ht, hfree, hsuffix⟩
    · refine .inr ⟨?_, _, hw, List.suffix_rfl⟩
      rw [run_eq, ht]
      rfl
    · exact .inl ⟨none, by rw [run_eq, ht]; rfl⟩
    · exact .inl ⟨some t.values, by rw [run_eq, ht]; rfl⟩
    · rw [run_go ht]
      exact (ih _ (turn_lt ht) hfree rfl).imp_right
        (And.imp_right fun ⟨w, hw, hwt⟩ => ⟨w, hw, hwt.trans hsuffix⟩)

end Unfinished

end Json

open Json in
/-- **`json_parse` returns** on a text below the limit, and leaves neither its text nor its memory unless
the text ends in a word without its last letter. -/
theorem jsonParse_safe (D : Doubles) (json : List UInt8) (h : 24 * json.length < 2 ^ 31) :
    (∃ o, jsonParse D json = .ok o) ∨
    (jsonParse D json = .error (.undefined .outOfBounds) ∧ ∃ w, Unfinished w ∧ w <:+ json) := by
  have hstart : stackParse D (skipBom json) =
      (fun z => z.bind Stack.value) <$> run D (seeking [] false (skipBom json)) := rfl
  rw [jsonParse, passes_eq D _ (length_skipBom h), hstart]
  rcases run_safe (D := D) (t := seeking [] false (skipBom json)) (.inr (.inl rfl)) with
    ⟨o, ho⟩ | ⟨he, w, hw, hwt⟩
  · rw [ho]
    exact .inl ⟨_, rfl⟩
  · rw [he]
    exact .inr ⟨rfl, w, hw, hwt.trans (skipBom_suffix json)⟩

open Json in
/-- `tru` -/
theorem jsonParse_safe_tru :
    jsonParse noDoubles (text ['t', 'r', 'u']) = .error (.undefined .outOfBounds) ∧
      ∃ w, Unfinished w ∧ w <:+ text ['t', 'r', 'u'] :=
  (jsonParse_safe noDoubles (text ['t', 'r', 'u']) (by decide)).resolve_left fun ⟨o, ho⟩ => by
    have herror : jsonParse noDoubles (text ['t', 'r', 'u']) = .error (.undefined .outOfBounds) := rfl
    rw [herror] at ho
    cases ho

end Cnpv
