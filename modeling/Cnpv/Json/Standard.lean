import Cnpv.Json.Strings
import Cnpv.Json.Numbers

/-!
# The documents of standard JSON

`Writes` is standard JSON: white space between the tokens, strings of Unicode characters in every
spelling, numbers. `json_parse` reads every document of it, below the limit of the parser, as the
value that was written (`jsonParse_standard`). All of it is said without reference to the parser, but
for a number with a fraction or an exponent: its value is the `double` that `json.c` computes
(`Decimal.abs`).

Two things are left out, because `json.c` has them wrong: an integer part that does not fit
`json_int_t` (`Decimal.Fits`), and the characters of the even planes as two `\u` (`Spelling`).
-/

namespace Cnpv

open CLib

namespace Json

/-! ## Documents -/

/-- White space. -/
def Spaces (w : List UInt8) : Prop := ∀ b ∈ w, isSpace b = true

/-- The UTF-8 of a string. -/
def encoded (cs : List Char) : List UInt8 := cs.flatMap String.utf8EncodeChar

/-- The part is written as the text. -/
inductive Writes (D : Doubles) : Part → List UInt8 → Prop
  | true' : Writes D (.value (.boolean true)) (text ['t', 'r', 'u', 'e'])
  | false' : Writes D (.value (.boolean false)) (text ['f', 'a', 'l', 's', 'e'])
  | null : Writes D (.value .null) (text ['n', 'u', 'l', 'l'])
  | number {x : Decimal} (hx : x.Fits) : Writes D (.value (x.value D)) x.text
  | string {cs : List Char} {w : List UInt8} (h : Spelled cs w) :
    Writes D (.value (.string (encoded cs ++ [0]))) ('\"'.toUInt8 :: (w ++ ['\"'.toUInt8]))
  | array {w s : List UInt8} {vs : List JsonValue} (hw : Spaces w) (h : Writes D (.elements vs) s) :
    Writes D (.value (.array vs)) ('['.toUInt8 :: (w ++ s))
  | object {w s : List UInt8} {ms : List (List UInt8 × JsonValue)} (hw : Spaces w)
    (h : Writes D (.members ms) s) : Writes D (.value (.object ms)) ('\x7b'.toUInt8 :: (w ++ s))
  | noElement : Writes D (.elements []) [']'.toUInt8]
  | lastElement {s w : List UInt8} {v : JsonValue} (hv : Writes D (.value v) s) (hw : Spaces w) :
    Writes D (.elements [v]) (s ++ (w ++ [']'.toUInt8]))
  | element {s w w' s' : List UInt8} {v v' : JsonValue} {vs : List JsonValue}
    (hv : Writes D (.value v) s) (hw : Spaces w) (hw' : Spaces w')
    (h : Writes D (.elements (v' :: vs)) s') :
    Writes D (.elements (v :: v' :: vs)) (s ++ (w ++ ','.toUInt8 :: (w' ++ s')))
  | noMember : Writes D (.members []) ['\x7d'.toUInt8]
  | lastMember {cs : List Char} {n w₁ w₂ s w₃ : List UInt8} {v : JsonValue} (hn : Spelled cs n)
    (hw₁ : Spaces w₁) (hw₂ : Spaces w₂) (hv : Writes D (.value v) s) (hw₃ : Spaces w₃) :
    Writes D (.members [(encoded cs ++ [0], v)]) ('\"'.toUInt8 :: (n ++ '\"'.toUInt8 ::
      (w₁ ++ ':'.toUInt8 :: (w₂ ++ (s ++ (w₃ ++ ['\x7d'.toUInt8]))))))
  | member {cs : List Char} {n w₁ w₂ s w₃ w₄ s' : List UInt8} {v : JsonValue}
    {m : List UInt8 × JsonValue} {ms : List (List UInt8 × JsonValue)} (hn : Spelled cs n)
    (hw₁ : Spaces w₁) (hw₂ : Spaces w₂) (hv : Writes D (.value v) s) (hw₃ : Spaces w₃)
    (hw₄ : Spaces w₄) (h : Writes D (.members (m :: ms)) s') :
    Writes D (.members ((encoded cs ++ [0], v) :: m :: ms)) ('\"'.toUInt8 :: (n ++ '\"'.toUInt8 ::
      (w₁ ++ ':'.toUInt8 :: (w₂ ++ (s ++ (w₃ ++ ','.toUInt8 :: (w₄ ++ s')))))))

section Documents

variable {D : Doubles} {p : Part} {s w r : List UInt8} {b : UInt8} {cs : List Char}

theorem Spaces.trim (h : Spaces w) (r : List UInt8) : trim (w ++ r) = Json.trim r := by
  induction w with
  | nil => rfl
  | cons b w ih =>
    rw [List.cons_append, Json.trim, List.dropWhile_cons_of_pos (h b (by simp))]
    exact ih fun b hb => h b (by simp [hb])

theorem trim_eq (h : isSpace (s.headD 0) = false) : trim s = s := by
  cases s with
  | nil => rfl
  | cons b s => exact List.dropWhile_cons_of_neg (by simpa using h)

theorem space_spec (h : isSpace b = true) : Second.isNumChar b = false ∧ b.toNat < 0x80 := by
  simp only [isSpace, Bool.or_eq_true, decide_eq_true_eq] at h
  rcases h with ((rfl | rfl) | rfl) | rfl <;> decide

/-- After a value with white space. -/
theorem Spaces.ends (h : Spaces w) (hb : Second.isNumChar b = false) (r : List UInt8) :
    Ends (w ++ b :: r) := by
  cases w with
  | nil => exact hb
  | cons c w => exact (space_spec (h c (by simp))).1

theorem digit_lt (h : isDigit b = true ∨ b = '-'.toUInt8) : isSpace b = false ∧ b.toNat < 0x80 := by
  refine ⟨(number_head h).1, ?_⟩
  rcases h with h | rfl
  · simp only [isDigit, Bool.and_eq_true, decide_eq_true_eq] at h
    exact Nat.lt_of_le_of_lt (UInt8.le_iff_toNat_le.mp h.2) (by decide)
  · decide

/-- The first character of a part. -/
theorem Writes.head (h : Writes D p s) (r : List UInt8) :
    isSpace ((s ++ r).headD 0) = false ∧ ((s ++ r).headD 0).toNat < 0x80 := by
  induction h generalizing r with
  | number hx => exact digit_lt (Decimal.text_head _ r)
  | lastElement _ _ ih | element _ _ _ _ ih =>
    rw [List.append_assoc]
    exact ih _
  | _ => exact ⟨rfl, of_decide_eq_true rfl⟩

/-- No spelling is shorter than the character. -/
theorem Spelling.length {c : Char} (h : Spelling c w) :
    (String.utf8EncodeChar c).length ≤ w.length := by
  have hle : (String.utf8EncodeChar c).length ≤ 4 := by
    rw [String.length_utf8EncodeChar]
    exact c.utf8Size_le_four
  cases h with
  | plain => exact Nat.le_refl _
  | letter he hc =>
    have hlt := (escape_letter he []).2.1
    have hone : (String.utf8EncodeChar c).length = 1 := by
      simp only [String.utf8EncodeChar, hc, UInt8.toNat_toUInt32]
      rw [if_pos (by omega)]
      rfl
    rw [hone]
    exact Nat.le_succ 1
  | unicode h =>
    rw [List.length_cons, List.length_cons, h.length]
    omega
  | pair h =>
    rw [List.length_append, List.length_cons, List.length_cons, h.high.length]
    omega

theorem Spelled.length (h : Spelled cs w) : (encoded cs).length ≤ w.length := by
  induction h with
  | nil => exact Nat.le_refl 0
  | cons hc _ ih =>
    have := hc.length
    rw [encoded, List.flatMap_cons, List.length_append, List.length_append]
    exact Nat.add_le_add this ih

theorem Spelled.scan (h : Spelled cs w) (hlen : w.length ≤ UINT_LIMIT) (r : List UInt8) :
    scanString 0 false 0 (w ++ '\"'.toUInt8 :: r) = some (encoded cs, r) := by
  have := h.length
  exact scanString_spelled h (by show 0 + (encoded cs).length ≤ _; omega) r

/-- **Standard JSON has the grammar** of the parser. -/
theorem Writes.reads (h : Writes D p s) (d : Bool) (hlen : s.length ≤ UINT_LIMIT) {r : List UInt8}
    (hr : ∀ v, p = .value v → Ends r) : ∃ d', Reads D d (s ++ r) p d' r := by
  induction h generalizing d r with
  | true' => exact ⟨d, .word (.true' r)⟩
  | false' => exact ⟨d, .word (.false' r)⟩
  | null => exact ⟨d, .word (.null r)⟩
  | @number x hx =>
    obtain ⟨n, hn, hvalue⟩ := number_eq (D := D) hx d (hr _ rfl)
    rw [← hvalue]
    exact ⟨_, .number (Decimal.text_head x r) hn⟩
  | @string cs w h =>
    rw [List.length_cons, List.length_append] at hlen
    have hscan := h.scan (by omega) r
    refine ⟨d, ?_⟩
    rw [List.cons_append, List.append_assoc]
    exact .word (.string hscan)
  | @array w s vs hw h ih =>
    rw [List.length_cons, List.length_append] at hlen
    obtain ⟨d', hreads⟩ := ih d (by omega) (r := r) fun v hv => by cases hv
    refine ⟨d', ?_⟩
    rw [List.cons_append, List.append_assoc]
    exact .array (by rwa [hw.trim, trim_eq (h.head r).1])
  | @object w s ms hw h ih =>
    rw [List.length_cons, List.length_append] at hlen
    obtain ⟨d', hreads⟩ := ih d (by omega) (r := r) fun v hv => by cases hv
    refine ⟨d', ?_⟩
    rw [List.cons_append, List.append_assoc]
    exact .object (by rwa [hw.trim, trim_eq (h.head r).1])
  | noElement => exact ⟨d, .noElement⟩
  | @lastElement s w v hv hw ih =>
    rw [List.length_append] at hlen
    obtain ⟨d', hreads⟩ := ih d (by omega) (r := w ++ (']'.toUInt8 :: r)) fun _ _ =>
      hw.ends (by decide) r
    refine ⟨d', ?_⟩
    rw [List.append_assoc, List.append_assoc]
    exact .lastElement hreads (by rw [hw.trim]; rfl)
  | @element s w w' s' v v' vs hv hw hw' h ih ih' =>
    rw [List.length_append, List.length_append, List.length_cons, List.length_append] at hlen
    obtain ⟨d', hreads⟩ := ih d (by omega) (r := w ++ (','.toUInt8 :: (w' ++ (s' ++ r)))) fun _ _ =>
      hw.ends (by decide) _
    obtain ⟨d'', hreads'⟩ := ih' d' (by omega) (r := r) fun v hv => by cases hv
    refine ⟨d'', ?_⟩
    simp only [List.append_assoc, List.cons_append]
    exact .element hreads (by rw [hw.trim]; rfl) (by rwa [hw'.trim, trim_eq (h.head r).1])
  | noMember => exact ⟨d, .noMember⟩
  | @lastMember cs n w₁ w₂ s w₃ v hn hw₁ hw₂ hv hw₃ ih =>
    simp only [List.length_append, List.length_cons] at hlen
    obtain ⟨d', hreads⟩ := ih d (by omega) (r := w₃ ++ ('\x7d'.toUInt8 :: r)) fun _ _ =>
      hw₃.ends (by decide) r
    refine ⟨d', ?_⟩
    simp only [List.append_assoc, List.cons_append, List.nil_append]
    exact .lastMember (hn.scan (by omega) _) (by rw [hw₁.trim]; rfl)
      (by rwa [hw₂.trim, trim_eq (hv.head _).1]) (by rw [hw₃.trim]; rfl)
  | @member cs n w₁ w₂ s w₃ w₄ s' v m ms hn hw₁ hw₂ hv hw₃ hw₄ h ih ih' =>
    simp only [List.length_append, List.length_cons] at hlen
    obtain ⟨d', hreads⟩ := ih d (by omega) (r := w₃ ++ (','.toUInt8 :: (w₄ ++ (s' ++ r)))) fun _ _ =>
      hw₃.ends (by decide) _
    obtain ⟨d'', hreads'⟩ := ih' d' (by omega) (r := r) fun v hv => by cases hv
    refine ⟨d'', ?_⟩
    simp only [List.append_assoc, List.cons_append]
    exact .member (hn.scan (by omega) _) (by rw [hw₁.trim]; rfl)
      (by rwa [hw₂.trim, trim_eq (hv.head _).1]) (by rw [hw₃.trim]; rfl)
      (by rwa [hw₄.trim, trim_eq (h.head r).1])

/-- White space and a document do not begin like a byte order mark. -/
theorem skipBom_eq (h : isSpace b = true ∨ b.toNat < 0x80) (s : List UInt8) :
    skipBom (b :: s) = b :: s := by
  have hlt : b.toNat < 0x80 := h.elim (fun h => (space_spec h).2) id
  refine if_neg fun hbom => ?_
  obtain rfl : b = 0xEF := (List.cons.inj hbom).1
  exact absurd hlt (by decide)

/-- The byte order mark. -/
def bom : List UInt8 := [0xEF, 0xBB, 0xBF]

/-- The text is a document with the value `v`, with white space around it. -/
inductive Written (D : Doubles) (v : JsonValue) : List UInt8 → Prop
  | mk {mark w s w' : List UInt8} (hmark : mark = [] ∨ mark = bom) (hw : Spaces w)
    (h : Writes D (.value v) s) (hw' : Spaces w') : Written D v (mark ++ (w ++ (s ++ w')))

/-- **The documents of standard JSON** are documents of the grammar, with the same values. -/
theorem Written.document {v : JsonValue} {json : List UInt8} (h : Written D v json)
    (hlen : 24 * json.length < 2 ^ 31) : Document D (skipBom json) v := by
  obtain @⟨mark, w, s, w', hmark, hw, h, hw'⟩ := h
  have hskip : skipBom (mark ++ (w ++ (s ++ w'))) = w ++ (s ++ w') := by
    rcases hmark with rfl | rfl
    · rw [List.nil_append]
      cases w with
      | nil =>
        cases hs : s ++ w' with
        | nil => rfl
        | cons b r =>
          have hhead := (h.head w').2
          rw [hs] at hhead
          exact skipBom_eq (.inr hhead) r
      | cons b w => exact skipBom_eq (.inl (hw b (by simp))) _
    · rfl
  have hs : s.length ≤ UINT_LIMIT := by
    simp only [List.length_append] at hlen
    simp only [UINT_LIMIT]
    omega
  have hends : Ends w' := by
    cases w' with
    | nil => rfl
    | cons b w' => exact (space_spec (hw' b (by simp))).1
  obtain ⟨d, hreads⟩ := h.reads false hs (r := w') fun _ _ => hends
  refine ⟨d, w', ?_, ?_⟩
  · rwa [hskip, hw.trim, trim_eq (h.head w').1]
  · have htrim := hw'.trim []
    rw [List.append_nil] at htrim
    rw [htrim]
    rfl

end Documents

end Json

open Json in
/-- **`json_parse` reads every document of standard JSON** below the limit as the value that was
written. -/
theorem jsonParse_standard (D : Doubles) {json : List UInt8} {v : JsonValue} (h : Written D v json)
    (hlen : 24 * json.length < 2 ^ 31) : jsonParse D json = .ok (some v) := by
  rw [jsonParse, passes_eq D _ (length_skipBom hlen), stackParse_iff]
  exact h.document hlen

open Json in
/-- `["\u00e9",-12]`, with white space around it -/
theorem jsonParse_standard_list :
    jsonParse noDoubles (text [' ', '[', '\"', '\\', 'u', '0', '0', 'e', '9', '\"', ',', '-', '1', '2', ']',
      '\n']) = .ok (some (.array [.string [0xC3, 0xA9, 0], .integer (-12)])) := by
  have hhex : Hex 'é'.val.toNat (text ['0', '0', 'e', '9']) :=
    @Hex.mk _ _ _ _ 0 0 14 9 ⟨by decide, .inl rfl⟩ ⟨by decide, .inl rfl⟩ ⟨by decide, .inl rfl⟩
      ⟨by decide, .inl rfl⟩
  have hone : ∀ c : Char, isSpace c.toUInt8 = true → Spaces (text [c]) := by
    intro c hc b hb
    rw [List.mem_singleton.mp hb]
    exact hc
  have hnone : Spaces [] := fun b hb => by cases hb
  have hfits : Decimal.Fits ⟨true, 12, [], none⟩ :=
    ⟨by decide, by simp, by simp, by simp, by simp⟩
  have hwrites := Writes.array (D := noDoubles) hnone (.element (.string (.cons (.unicode hhex) .nil))
    hnone hnone (.lastElement (.number hfits) hnone))
  exact jsonParse_standard noDoubles (.mk (.inl rfl) (hone ' ' rfl) hwrites (hone '\n' rfl)) (by decide)

end Cnpv
