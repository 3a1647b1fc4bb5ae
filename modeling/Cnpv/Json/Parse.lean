import Cnpv.Json.Contents

/-!
# `json_parse` and the parser with one pass

The two passes take the same steps (`Moves.second`), so `json_parse` gives the value of the parser
with one pass (`jsonParse_eq`) for every text, and never leaves its memory. Only a number could set
them apart: the first pass stops where it cannot go on, the second one at the first character that
no number has. But after a value there must be a comma or an end (`control_numChar`), so the first
pass does not get past a number that the second one takes to be longer.
-/

namespace Cnpv

open CLib

namespace Json

variable {D : Doubles} {v : JsonValue} {ids : List Nat} {frames : List Frame} {F : List Cell}

/-! ## Numbers -/

section Numbers

variable {n n' : Num} {b : UInt8} {rest : List UInt8} {flags : Flags} {top : Option JsonType}

theorem isNumChar_of_more (h : numStep D n b = .more n') : Second.isNumChar b = true := by
  have hexp : b = 'e'.toUInt8 ∨ b = 'E'.toUInt8 → Second.isNumChar b = true := by
    rintro (rfl | rfl) <;> decide
  rw [numStep] at h
  by_cases hdigit : isDigit b = true
  · simp [Second.isNumChar, hdigit]
  · rw [if_neg hdigit] at h
    split_ifs at h with hsign hdot
    · rcases hsign.1 with rfl | rfl <;> decide
    · obtain ⟨rfl, -⟩ := hdot
      decide
    · exact hexp ‹_›
    · exact hexp ‹_›

/-- The second pass skips what the first one read, if the number ends there for both. -/
theorem numLoop_rest {r : Num × List UInt8} (h : numLoop D n rest = some r)
    (hend : Second.isNumChar (r.2.headD 0) = false) : rest.dropWhile Second.isNumChar = r.2 := by
  induction rest generalizing n with
  | nil =>
    rw [numLoop] at h
    cases hstep : numStep D n 0 with
    | stop n' =>
      rw [hstep] at h
      cases h
      rfl
    | fail =>
      rw [hstep] at h
      cases h
    | more n' =>
      rw [hstep] at h
      cases h
  | cons b rest ih =>
    rw [numLoop] at h
    cases hstep : numStep D n b with
    | stop n' =>
      rw [hstep] at h
      cases h
      exact List.dropWhile_cons_of_neg (by simpa using hend)
    | fail =>
      rw [hstep] at h
      cases h
    | more n' =>
      rw [hstep] at h
      rw [List.dropWhile_cons_of_pos (isNumChar_of_more hstep)]
      exact ih h

theorem number_rest {decimal : Bool} {r : Num × List UInt8} (h : Json.number D decimal rest = some r)
    (hend : Second.isNumChar (r.2.headD 0) = false) : rest.dropWhile Second.isNumChar = r.2 := by
  rw [Json.number] at h
  split_ifs at h with hminus
  · cases rest with
    | nil => exact absurd hminus (by decide)
    | cons b rest =>
      obtain rfl : b = '-'.toUInt8 := hminus
      rw [List.dropWhile_cons_of_pos (by decide)]
      exact numLoop_rest h hend
  · exact numLoop_rest h hend

theorem numChar_ne (h : Second.isNumChar b = true) : b ≠ 0 ∧ isSpace b = false ∧ b ≠ ']'.toUInt8 ∧
    b ≠ ','.toUInt8 ∧ b ≠ '\"'.toUInt8 ∧ b ≠ '\x7d'.toUInt8 := by
  have hall : ∀ k : Fin 256, Second.isNumChar (UInt8.ofNat k) = true →
      UInt8.ofNat k ≠ 0 ∧ isSpace (UInt8.ofNat k) = false ∧ UInt8.ofNat k ≠ ']'.toUInt8 ∧
      UInt8.ofNat k ≠ ','.toUInt8 ∧ UInt8.ofNat k ≠ '\"'.toUInt8 ∧ UInt8.ofNat k ≠ '\x7d'.toUInt8 := by
    decide +kernel
  have hb := hall ⟨b.toNat, b.toNat_lt⟩
  simp only [UInt8.ofNat_toNat] at hb
  exact hb h

/-- After a value nothing of a number follows. -/
theorem control_numChar (hb : Second.isNumChar (rest.headD 0) = true) (hcomma : flags.needComma = true)
    (htop : flags.done = true ∨ flags.seekValue = true ∨ top = some .object) :
    control flags top rest = .ok .fail := by
  obtain ⟨hzero, hspace, hbracket, hcomma', hquote, hbrace⟩ := numChar_ne hb
  simp only [control, inObject, hzero, hspace, hbracket, hcomma', hquote, hbrace, hcomma, if_true,
    if_false, Bool.false_eq_true, false_and]
  rcases htop with h | h | h
  · simp [h]
  · simp [h]
  · simp [h]

end Numbers

/-! ## A step of the second pass -/

section Run

variable {total : Nat} {y : Second} {x : First} {z : Stack} {flags : Flags} {rest : List UInt8}
  {s s' : Parse First} {t t' : Parse Stack} {ids' : List Nat} {a : Action}

/-- After a value there must be a comma or an end. -/
theorem Attaches.comma (h : Attaches x z v flags rest ids frames s t ids') :
    s.flags.needComma = true ∧ (s.flags.done = true ∨ s.flags.seekValue = true ∨
      (firstPass D).topType s.values = some .object) := by
  cases h with
  | root => exact ⟨rfl, .inl rfl⟩
  | @child p ids f frames q hp htype =>
    refine ⟨rfl, .inr ?_⟩
    have hget := List.getElem?_set_self (a := { q with length := q.length + 1 })
      (List.getElem?_eq_some_iff.mp hp).1
    rcases Frame.type_cases f with hf | hf
    · exact .inl (by simp [htype, hf])
    · refine .inr ?_
      show Option.map Cell.type ((x.cells.set p _)[p]?) = _
      rw [hget, Option.map_some, htype, hf]

/-- A value is not followed by a character of a number. -/
theorem Attaches.numChar (h : Attaches x z v flags rest ids frames s t ids')
    (hturn : turn (firstPass D) s ≠ .ok .fail) : Second.isNumChar (s.rest.headD 0) = false := by
  by_contra hb
  obtain ⟨hcomma, htop⟩ := h.comma (D := D)
  refine hturn ?_
  rw [turn, control_numChar (by simpa using hb) hcomma htop]
  rfl

theorem Attaches.rest_eq (h : Attaches x z v flags rest ids frames s t ids') : s.rest = rest := by
  cases h <;> rfl

/-- The number of values does not change. -/
theorem Attaches.length (h : Attaches x z v flags rest ids frames s t ids') :
    s.values.cells.length = x.cells.length := by
  cases h with
  | root => rfl
  | child hp => exact List.length_set

theorem Filling.topType {m : Nat} (h : Filling F m y ids frames) :
    secondPass.topType y = frames.head?.map Frame.type := by
  have hholding := h.holding
  show (y.top.bind fun i => y.nodes[i]?).map _ = _
  rw [h.top]
  cases hholding with
  | nil => rfl
  | cons hcell hnode hparent hholds =>
    rw [List.head?_cons, Option.bind_some, hnode, Option.map_some, hholds.type]
    rfl

/-- The second pass performs the step that the first one performed. -/
theorem Filling.turn_eq {m : Nat} (h : Filling F m y ids t.values.frames)
    (htrack : Tracking total s t ids)
    (hcontrol : control s.flags ((firstPass D).topType s.values) s.rest = .ok a) :
    turn secondPass ⟨s.flags, y, s.rest⟩ = perform secondPass y a := by
  show control s.flags (secondPass.topType y) s.rest >>= _ = _
  rw [h.topType, show t.values.frames.head?.map Frame.type = _ from htrack.topType.symm, hcontrol]
  rfl

/-- The cell of a new value, when the first pass is done. -/
theorem Grows.new {c : Cell} {x : First} {cells : List Cell} (hgrow : Grows cells F)
    (hx : Grows x.cells cells) (hcells : x.cells = s.values.cells ++ [c]) :
    ∃ c', F[s.values.cells.length]? = some c' ∧ c.Grown c' := by
  refine (hx.trans hgrow) _ c ?_
  rw [hcells, List.getElem?_append_right (Nat.le_refl _), Nat.sub_self]
  rfl

/-- What follows a value that is complete, where the first pass has `m` values. -/
theorem Filled.attached {i m : Nat} (h : Filled F m y i ids frames v)
    (hattach : Attaches x z v flags rest ids frames s t ids') (hm : x.cells.length = m)
    (hdone : flags.done = false) (hawait : AwaitsAll F ids frames)
    (hbound : ∀ c ∈ F, c.length ≤ UINT_LIMIT) :
    ∃ y', flagNext secondPass flags rest y = .ok (.go ⟨s.flags, y', s.rest⟩) ∧
      AfterNext F s.values.cells.length y' ids' s.flags t.values := by
  rw [hattach.length, hm]
  exact h.next hattach hdone hawait hbound

/-- **A step of the second pass**, where the first pass goes on. -/
theorem Moves.second (h : Moves D s t ids a s' t' ids') (htrack : Tracking total s t ids)
    (hcontrol : control s.flags ((firstPass D).topType s.values) s.rest = .ok a)
    (hfill : Filling F s.values.cells.length y ids t.values.frames)
    (hgrow : Grows s'.values.cells F) (hawait : Awaits F ids' t'.values.frames)
    (hblank : Blank F []) (hbound : ∀ c ∈ F, 24 * c.length < 2 ^ 31)
    (hturn : turn (firstPass D) s' ≠ .ok .fail) :
    ∃ y', turn secondPass ⟨s.flags, y, s.rest⟩ = .ok (.go ⟨s'.flags, y', s'.rest⟩) ∧
      AfterNext F s'.values.cells.length y' ids' s'.flags t'.values := by
  have hsmall : ∀ c ∈ F, c.length ≤ UINT_LIMIT := fun c hc => by
    have := hbound c hc
    simp only [UINT_LIMIT]
    omega
  rw [hfill.turn_eq htrack hcontrol]
  have hstep := control_cases hcontrol
  cases h with
  | skip =>
    cases hstep with
    | skip hdone => exact ⟨y, rfl, .inl ⟨hdone.trans htrack.done, hfill⟩⟩
  | @opens type flags rest htype =>
    cases hstep with
    | opens hdone hdone' =>
      obtain ⟨c, hc, hgrown⟩ := hgrow.new (.refl _) rfl
      rw [htrack.top] at hgrown
      obtain ⟨y', hy', hfill'⟩ := hfill.opens htype hc hgrown (hbound c (List.mem_of_getElem? hc))
        (hblank _ c hc (by simp))
      refine ⟨y', ?_, .inl ⟨hdone', ?_⟩⟩
      · show y.newValue >>= _ = _
        rw [hy']
        rfl
      · show Filling F (s.values.cells ++ [_]).length y' _ _
        rw [List.length_append]
        exact hfill'
  | @value l flags rest s' t' ids' hattach =>
    cases hstep with
    | value hdone hdone' =>
      obtain ⟨c, hc, hgrown⟩ := hgrow.new hattach.grows rfl
      rw [htrack.top] at hgrown
      obtain ⟨y₁, hy₁, hfilled⟩ := hfill.leaf l hc hgrown
      obtain ⟨y', hy', hafter⟩ := hfilled.attached hattach List.length_append hdone'
        (hattach.awaits hgrow hawait) hsmall
      refine ⟨y', ?_, hafter⟩
      show y.leaf l >>= _ = _
      rw [hy₁]
      exact hy'
  | @number r flags s' t' ids' hnumber hattach =>
    cases hstep with
    | number hdone hdone' =>
      obtain ⟨c, hc, hgrown⟩ := hgrow.new hattach.grows rfl
      rw [htrack.top] at hgrown
      obtain ⟨y₁, hy₁, hfilled⟩ := hfill.number r.1 hc hgrown s.rest
      obtain ⟨y', hy', hafter⟩ := hfilled.attached hattach List.length_append hdone'
        (hattach.awaits hgrow hawait) hsmall
      have hrest := number_rest hnumber (hattach.rest_eq ▸ hattach.numChar hturn)
      refine ⟨y', ?_, hafter⟩
      show y.number s.rest >>= _ = _
      rw [hy₁, hrest]
      exact hy'
  | @name bytes flags rest i ids' c ms frames hids hframes hcell htype hnames =>
    cases hstep with
    | name hdone hdone' =>
      subst hids
      rw [hframes] at hfill
      obtain ⟨c', hc', hgrown⟩ := hgrow i _
        (List.getElem?_set_self (List.getElem?_eq_some_iff.mp hcell).1)
      obtain ⟨c'', hc'', hless⟩ := hawait 0 i _ rfl rfl (.inr rfl)
      obtain rfl : c' = c'' := Option.some.inj (hc'.symm.trans hc'')
      obtain ⟨y', hy', hfill'⟩ := hfill.name hc' hless (hnames ▸ hgrown.names)
      refine ⟨y', ?_, .inl ⟨hdone', ?_⟩⟩
      · show y.name bytes >>= _ = _
        rw [hy']
        rfl
      · show Filling F (s.values.cells.set i _).length y' _ _
        rw [List.length_set]
        exact hfill'
  | @closes flags rest i ids' ids'' f frames s' t' hids hframes hname hattach =>
    cases hstep with
    | closes hdone hdone' =>
      subst hids
      rw [hframes] at hfill
      exact hfill.closes.attached hattach rfl hdone' (hattach.awaits hgrow hawait) hsmall

end Run

/-! ## The whole passes -/

/-- After the root nothing changes but the text, in each pass. -/
theorem loop_done {μ ν : Type} {P : Pass μ} {flags : Flags} (hdone : flags.done = true) (fuel : Nat)
    {values values' : μ} {rest : List UInt8}
    (h : loop P fuel ⟨flags, values, rest⟩ = .ok (some values')) :
    values' = values ∧ ∀ (Q : Pass ν) w, loop Q fuel ⟨flags, w, rest⟩ = .ok (some w) := by
  induction fuel generalizing rest with
  | zero => cases h
  | succ fuel ih =>
    have hturn : ∀ {ξ : Type} (R : Pass ξ) w, turn R ⟨flags, w, rest⟩ =
        perform R w (if rest.headD 0 = 0 then .finished
          else if isSpace (rest.headD 0) then .skip flags rest.tail else .fail) := by
      intro ξ R w
      show control flags (R.topType w) rest >>= _ = _
      rw [control_done hdone]
      rfl
    rw [loop, hturn] at h
    split_ifs at h with hend hspace
    · refine ⟨(Option.some.inj (Except.ok.inj h)).symm, fun Q w => ?_⟩
      rw [loop, hturn, if_pos hend]
      rfl
    · obtain ⟨heq, hother⟩ := ih h
      refine ⟨heq, fun Q w => ?_⟩
      rw [loop, hturn, if_neg hend, if_pos hspace]
      exact hother Q w
    · cases h

/-- A loop that comes to its end does not fail at its first step. -/
theorem turn_of_loop {μ : Type} {P : Pass μ} {fuel : Nat} {s : Parse μ} {values : μ}
    (h : loop P fuel s = .ok (some values)) : turn P s ≠ .ok .fail := by
  intro hturn
  cases fuel with
  | zero => cases h
  | succ fuel =>
    rw [loop, hturn] at h
    cases h

/-- **The rest of both passes**, after a first pass that comes to its end. -/
theorem second_run {total : Nat} (htotal : total ≤ UINT_LIMIT) (fuel : Nat) {s : Parse First}
    {t : Parse Stack} {x : First} (h : Tracking total s t ids)
    (hblank : Blank s.values.cells ids) (hx : loop (firstPass D) fuel s = .ok (some x))
    (hbound : ∀ c ∈ x.cells, 24 * c.length < 2 ^ 31) :
    Grows s.values.cells x.cells ∧ Awaits x.cells ids t.values.frames ∧ Blank x.cells [] ∧
    ∀ y, Filling x.cells s.values.cells.length y ids t.values.frames →
      ∃ y' z v, loop secondPass fuel ⟨s.flags, y, s.rest⟩ = .ok (some y') ∧
        loop (stackPass D) fuel t = .ok (some z) ∧ z.value = some v ∧ Finished y' v := by
  induction fuel generalizing s t ids with
  | zero => cases hx
  | succ fuel ih =>
    rw [loop] at hx
    rcases h.turn htotal with ⟨e, hs, -⟩ | ⟨hs, -⟩ | ⟨a, s', t', ids', hcontrol, hs, ht, hmoves, hinv⟩
    · rw [hs] at hx
      cases hx
    · rw [hs] at hx
      cases hx
    · rw [hs] at hx
      have hx : loop (firstPass D) fuel s' = .ok (some x) := hx
      have hnofail := turn_of_loop hx
      have hblank' := hmoves.blank h.opened hblank
      rw [loop, ht]
      rcases hinv with hinv | ⟨rfl, hinv⟩
      · obtain ⟨hgrow, hawait, hblank, hrun⟩ := ih hinv hblank' hx
        refine ⟨hmoves.grows.trans hgrow, hmoves.awaits hgrow hawait, hblank, fun y hy => ?_⟩
        obtain ⟨y', hturn, hafter⟩ := hmoves.second h hcontrol hy hgrow hawait hblank hbound hnofail
        rcases hafter with ⟨-, hy'⟩ | ⟨hdone, -⟩
        · rw [loop, hturn]
          exact hrun y' hy'
        · exact absurd (hinv.done.symm.trans hdone) (by decide)
      · obtain ⟨rfl, hother⟩ := loop_done (ν := Second) hinv.done fuel hx
        obtain ⟨-, hother'⟩ := loop_done (ν := Stack) hinv.done fuel hx
        have hgrow := Grows.refl s'.values.cells
        have hawait : Awaits s'.values.cells [] t'.values.frames := fun k i f hi => by cases hi
        refine ⟨hmoves.grows, hmoves.awaits hgrow hawait, hblank', fun y hy => ?_⟩
        obtain ⟨y', hturn, hafter⟩ := hmoves.second h hcontrol hy hgrow hawait hblank' hbound hnofail
        rcases hafter with ⟨hdone, -⟩ | ⟨-, hfinished⟩
        · exact absurd (hinv.done.symm.trans hdone) (by decide)
        · obtain ⟨v, hv, hfinished⟩ := hfinished rfl
          rw [loop, hturn]
          refine ⟨y', t'.values, v, hother secondPass y', ?_, hv, hfinished⟩
          have := hother' (stackPass D) t'.values
          rwa [hinv.flags, hinv.rest] at this

/-- The start of the first pass. -/
theorem Tracking.init (text : List UInt8) : Tracking text.length
    ⟨{ seekValue := true }, {}, text⟩ ⟨{ seekValue := true }, {}, text⟩ [] where
  flags := rfl
  rest := rfl
  le := Nat.le_refl _
  done := rfl
  decimal := rfl
  value := rfl
  top := rfl
  opened := .nil
  seek := fun f hf => by cases hf
  named := fun f hf => by cases hf
  start := fun _ => rfl
  bound := fun c hc => by cases hc

/-- The start of the second pass. -/
theorem Filling.init (F : List Cell) : Filling F 0 { nodes := F.map fun cell => { cell } } [] [] where
  nodes := List.length_map _
  alloc := rfl
  top := rfl
  fresh := fun j _ => List.getElem?_map
  lt := fun j hj => by cases hj
  root := fun j hj => by cases hj
  start := fun _ => rfl
  holding := .nil
  linked := ⟨fun p n hp => absurd hp (Nat.not_lt_zero p), fun c hc => absurd hc.1 (Nat.not_lt_zero c)⟩

/-- The first pass ends after the root. -/
theorem Follows.finished {total : Nat} {s : Parse First} {t : Parse Stack} (h : Follows total s t)
    (htotal : total ≤ UINT_LIMIT) (hturn : turn (firstPass D) s = .ok .finished) :
    Tracked total s t := by
  rcases h with ⟨ids, h⟩ | h
  · rcases h.turn (D := D) htotal with ⟨e, hs, -⟩ | ⟨hs, -⟩ | ⟨a, s', t', ids', -, hs, -⟩
    all_goals
      rw [hs] at hturn
      cases hturn
  · exact h

/-- The passes over a text: the first pass and the parser with one pass end in the same way, and after
both of them the second pass has the value. -/
theorem pass_cases (D : Doubles) {text : List UInt8} (h : 24 * text.length < 2 ^ 31) :
    (∃ e, Json.pass (firstPass D) {} text = .error e ∧ Json.pass (stackPass D) {} text = .error e) ∨
    (Json.pass (firstPass D) {} text = .ok none ∧ Json.pass (stackPass D) {} text = .ok none) ∨
    ∃ x y z v, Json.pass (firstPass D) {} text = .ok (some x) ∧
      Json.pass secondPass { nodes := x.cells.map fun cell => { cell } } text = .ok (some y) ∧
      Json.pass (stackPass D) {} text = .ok (some z) ∧ z.value = some v ∧ Finished y v := by
  have htotal : text.length ≤ UINT_LIMIT := by
    simp only [UINT_LIMIT]
    omega
  have hinit := Tracking.init text
  rcases loop_simulates (firstPass_simulates (D := D) htotal) (text.length + 1)
    (.inl ⟨[], hinit⟩) with ⟨e, hs, ht⟩ | ⟨hs, ht⟩ | ⟨s, t, hfollows, hturn, hs, ht⟩
  · exact .inl ⟨e, hs, ht⟩
  · exact .inr (.inl ⟨hs, ht⟩)
  · have hbound : ∀ c ∈ s.values.cells, 24 * c.length < 2 ^ 31 := fun c hc => by
      have := (hfollows.finished htotal hturn).bound c hc
      omega
    obtain ⟨-, -, -, hrun⟩ := second_run htotal _ hinit (fun j c hc => by cases hc) hs hbound
    obtain ⟨y, z, v, hy, hz, hv, hfinished⟩ := hrun _ (.init s.values.cells)
    exact .inr (.inr ⟨s.values, y, z, v, hs, hy, hz, hv, hfinished⟩)

/-- The two passes over a text, and the parser with one pass. -/
theorem passes_eq (D : Doubles) (text : List UInt8) (h : 24 * text.length < 2 ^ 31) :
    passes D text = stackParse D text := by
  rw [passes, stackParse]
  rcases pass_cases D h with ⟨e, hx, hz⟩ | ⟨hx, hz⟩ | ⟨x, y, z, v, hx, hy, hz, hv, hfinished⟩
  · rw [hx, hz]
    rfl
  · rw [hx, hz]
    rfl
  · rw [hx, hz, Exec.ok_bind, Option.elim_some, hy]
    show some <$> readValue y.nodes y.nodes.length 0 = Except.ok z.value
    rw [hfinished.stored.read (Nat.le_refl _), hv]
    rfl

theorem skipBom_suffix (json : List UInt8) : skipBom json <:+ json := by
  rw [skipBom]
  split_ifs
  · exact List.drop_suffix 3 json
  · exact List.suffix_rfl

theorem length_skipBom {json : List UInt8} (h : 24 * json.length < 2 ^ 31) :
    24 * (skipBom json).length < 2 ^ 31 := by
  have := (skipBom_suffix json).length_le
  omega

end Json

open Json in
/-- **The two passes of `json_parse`** give the value of the parser with one pass, and end in the same
way on the texts that it does not accept. -/
theorem jsonParse_eq (D : Doubles) (json : List UInt8) (h : 24 * json.length < 2 ^ 31) :
    jsonParse D json = stackParse D (skipBom json) :=
  passes_eq D _ (length_skipBom h)

/-- For texts without doubles. -/
def noDoubles : Doubles where
  ofInt := fun n => n.toNat.toUInt64
  add := fun x _ => x
  mul := fun x _ => x
  div := fun x _ => x
  neg := fun x => x
  pow := fun x => x

/-- `[7,]` -/
theorem jsonParse_eq_list :
    jsonParse noDoubles ['['.toUInt8, '7'.toUInt8, ','.toUInt8, ']'.toUInt8] =
      .ok (some (.array [.integer 7])) :=
  jsonParse_eq noDoubles _ (by decide)

end Cnpv
