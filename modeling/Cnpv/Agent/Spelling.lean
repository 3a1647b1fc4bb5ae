import Cnpv.Agent.Check

/-!
# Spellings of one file

`lexicalForm cwd p` is the lexical absolute form of a pathname. The check does not compute it: a
pathname without a slash gets `cwd` in front, and every other one is looked up as it is. So two
spellings of a file get the same verdict from every policy of absolute paths only if they are
looked up under one name, or both are relative with a slash, which no such policy knows
(`sameVerdict_iff`).
-/

namespace Cnpv

open CLib

/-- The pathname starts with `/`. -/
def Absolute (p : CStr) : Prop := p.bytes.head? = some '/'.toUInt8

/-- The pathname has no `/`. -/
def Bare (p : CStr) : Prop := '/'.toUInt8 ∉ p.bytes

instance (p : CStr) : Decidable (Absolute p) := inferInstanceAs (Decidable (_ = _))

instance (p : CStr) : Decidable (Bare p) := inferInstanceAs (Decidable (¬ _))

/-- One more component: `..` cancels the last one, if that is not `..` itself. -/
def cancelDots (last : List (List UInt8)) (component : List UInt8) : List (List UInt8) :=
  let dots := ['.'.toUInt8, '.'.toUInt8]
  match last with
  | [] => [component]
  | x :: rest => if component = dots ∧ x ≠ dots then rest else component :: x :: rest

/-- The components of the lexical absolute form of `p`, the last one first. -/
def lexicalForm (cwd p : CStr) : List (List UInt8) :=
  let full := if Absolute p then p else cwd ++ slash ++ p
  ((full.bytes.splitOn '/'.toUInt8).filter fun c => c ≠ [] ∧ c ≠ ['.'.toUInt8]).foldl cancelDots []

/-- Every policy of absolute paths gives both pathnames one verdict, for every flag word. -/
def SameVerdict (cwd p q : CStr) : Prop :=
  ∀ map : PolicyMap, (∀ n ∈ map, Absolute n) → ∀ oflag, ∃ v,
    checkPermissionUncached map cwd p oflag = .ok v ∧ checkPermissionUncached map cwd q oflag = .ok v

variable {cwd p q n m : CStr}

theorem absolute_append (h : Absolute p) (q : CStr) : Absolute (p ++ q) := by
  have hne : p.bytes ≠ [] := by
    intro e
    simp [Absolute, e] at h
  rw [Absolute, CStr.append_bytes, List.head?_append_of_ne_nil _ hne]
  exact h

theorem checkName_bare (h : Bare p) (hn : checkName cwd p = .ok n) : n = cwd ++ slash ++ p := by
  rw [(checkName_eq hn).2, if_neg h]

theorem checkName_of_bare (h : Bare p) (hfits : (cwd ++ slash ++ p).strlen < MAX_PATH) :
    checkName cwd p = .ok (cwd ++ slash ++ p) := by
  have hnone : (strstr p.bytes slash.bytes).isNone := by
    rw [Option.isNone_iff_eq_none, ← Option.not_isSome_iff_eq_none]
    exact mt strstr_singleton.mp h
  rw [checkName, if_pos hnone, CStr.store_of_lt hfits]

theorem checkName_of_not_bare (h : ¬ Bare p) (hfits : p.strlen < MAX_PATH) :
    checkName cwd p = .ok p := by
  have hsome : ¬ (strstr p.bytes slash.bytes).isNone := by
    rw [Option.isNone_iff_eq_none, ← Option.not_isSome_iff_eq_none, not_not]
    exact strstr_singleton.mpr (not_not.mp h)
  rw [checkName, if_neg hsome, CStr.store_of_lt hfits]

theorem checkName_slash (h : ¬ Bare p) (hn : checkName cwd p = .ok n) : n = p := by
  rw [(checkName_eq hn).2, if_pos (not_not.mp h)]

/-- The pathnames are looked up under one name. -/
theorem checkName_eq_iff (hn : checkName cwd p = .ok n) (hm : checkName cwd q = .ok m) :
    n = m ↔ p = q ∨ (Bare p ∧ q = cwd ++ slash ++ p) ∨ (Bare q ∧ p = cwd ++ slash ++ q) := by
  have hslash : ∀ r : CStr, ¬ Bare (cwd ++ slash ++ r) := by
    intro r h
    refine h ?_
    have hmem : '/'.toUInt8 ∈ slash.bytes := by decide
    simp [hmem]
  by_cases hp : Bare p <;> by_cases hq : Bare q
  · rw [checkName_bare hp hn, checkName_bare hq hm, CStr.append_right_inj]
    refine ⟨.inl, ?_⟩
    rintro (h | ⟨-, rfl⟩ | ⟨-, rfl⟩)
    · exact h
    · exact absurd hq (hslash _)
    · exact absurd hp (hslash _)
  · rw [checkName_bare hp hn, checkName_slash hq hm]
    refine ⟨fun h => .inr (.inl ⟨hp, h.symm⟩), ?_⟩
    rintro (rfl | ⟨-, rfl⟩ | ⟨h, -⟩)
    · exact absurd hp hq
    · rfl
    · exact absurd h hq
  · rw [checkName_slash hp hn, checkName_bare hq hm]
    refine ⟨fun h => .inr (.inr ⟨hq, h⟩), ?_⟩
    rintro (rfl | ⟨h, -⟩ | ⟨-, rfl⟩)
    · exact absurd hq hp
    · exact absurd h hp
    · rfl
  · rw [checkName_slash hp hn, checkName_slash hq hm]
    refine ⟨.inl, ?_⟩
    rintro (h | ⟨h, -⟩ | ⟨h, -⟩)
    · exact h
    · exact absurd h hp
    · exact absurd h hq

/-- A name that is not absolute comes from a relative pathname with a slash. -/
theorem absolute_checkName (hcwd : Absolute cwd) (hn : checkName cwd p = .ok n) :
    ¬ Absolute n ↔ ¬ Bare p ∧ ¬ Absolute p := by
  by_cases hp : Bare p
  · rw [checkName_bare hp hn]
    simp [hp, absolute_append (absolute_append hcwd slash) p]
  · rw [checkName_slash hp hn]
    simp [hp]

theorem uncached_eq (hn : checkName cwd p = .ok n) (map : PolicyMap) (oflag : CInt) :
    checkPermissionUncached map cwd p oflag = .ok (verdict map n oflag) :=
  Exec.bind_ok.mpr ⟨n, hn, rfl⟩

theorem SameVerdict.fits (h : SameVerdict cwd p q) : NameFits cwd p ∧ NameFits cwd q := by
  obtain ⟨v, hp, hq⟩ := h ∅ (fun n hn => absurd hn Finmap.notMem_empty) 0
  obtain ⟨n, hn, -⟩ := Exec.bind_ok.mp hp
  obtain ⟨m, hm, -⟩ := Exec.bind_ok.mp hq
  exact ⟨nameFits_iff.mpr ⟨n, hn⟩, nameFits_iff.mpr ⟨m, hm⟩⟩

theorem sameVerdict_iff_names (hn : checkName cwd p = .ok n) (hm : checkName cwd q = .ok m) :
    SameVerdict cwd p q ↔ ∀ map : PolicyMap, (∀ n ∈ map, Absolute n) →
      ∀ oflag, verdict map n oflag = verdict map m oflag := by
  unfold SameVerdict
  simp only [uncached_eq hn, uncached_eq hm, Except.ok.injEq]
  constructor
  · intro h map hmap oflag
    obtain ⟨v, rfl, h⟩ := h map hmap oflag
    exact h.symm
  · intro h map hmap oflag
    exact ⟨_, rfl, (h map hmap oflag).symm⟩

/-- A rule for an absolute name gives every other name a different verdict. -/
theorem eq_of_verdict_eq (hn : checkName cwd p = .ok n) (hm : checkName cwd q = .ok m)
    (ha : Absolute n) (h : ∀ map : PolicyMap, (∀ n ∈ map, Absolute n) →
      ∀ oflag, verdict map n oflag = verdict map m oflag) : n = m := by
  by_contra hne
  have hkeys : ∀ k ∈ (Finmap.singleton n O_FORBIDDEN : PolicyMap), Absolute k := fun k hk => by
    rwa [(Finmap.mem_singleton _ _ _).mp hk]
  have hnone : (Finmap.singleton n O_FORBIDDEN : PolicyMap).lookup m = none :=
    Finmap.lookup_eq_none.mpr fun hk => hne ((Finmap.mem_singleton _ _ _).mp hk).symm
  have hv := h _ hkeys O_RDONLY
  rw [verdict_of_checkName hn, verdict_of_checkName hm, Finmap.lookup_singleton_eq, hnone] at hv
  exact absurd hv (by decide)

/-- No policy of absolute paths has a rule for a relative name. -/
theorem verdict_relative (hn : checkName cwd p = .ok n) (ha : ¬ Absolute n) {map : PolicyMap}
    (hmap : ∀ n ∈ map, Absolute n) (oflag : CInt) : verdict map n oflag = true := by
  rw [verdict_of_checkName hn, Finmap.lookup_eq_none.mpr fun hk => ha (hmap n hk)]
  rfl

/-- **When two spellings of a file get the same verdict**: both fit the buffer, and they are looked
up under one name, or both are relative and have a slash. The condition is the same for any two
pathnames, whether or not they have one lexical form. -/
theorem sameVerdict_iff (hcwd : Absolute cwd) :
    SameVerdict cwd p q ↔ NameFits cwd p ∧ NameFits cwd q ∧
      ((p = q ∨ (Bare p ∧ q = cwd ++ slash ++ p) ∨ (Bare q ∧ p = cwd ++ slash ++ q)) ∨
        (¬ Bare p ∧ ¬ Absolute p) ∧ ¬ Bare q ∧ ¬ Absolute q) := by
  constructor
  · intro h
    obtain ⟨hp, hq⟩ := h.fits
    obtain ⟨n, hn⟩ := nameFits_iff.mp hp
    obtain ⟨m, hm⟩ := nameFits_iff.mp hq
    rw [sameVerdict_iff_names hn hm] at h
    refine ⟨hp, hq, ?_⟩
    rw [← checkName_eq_iff hn hm, ← absolute_checkName hcwd hn, ← absolute_checkName hcwd hm]
    by_cases hna : Absolute n
    · exact .inl (eq_of_verdict_eq hn hm hna h)
    · by_cases hma : Absolute m
      · refine .inl (eq_of_verdict_eq hm hn hma fun map hmap oflag => ?_).symm
        exact (h map hmap oflag).symm
      · exact .inr ⟨hna, hma⟩
  · rintro ⟨hp, hq, h⟩
    obtain ⟨n, hn⟩ := nameFits_iff.mp hp
    obtain ⟨m, hm⟩ := nameFits_iff.mp hq
    rw [← checkName_eq_iff hn hm, ← absolute_checkName hcwd hn, ← absolute_checkName hcwd hm] at h
    rw [sameVerdict_iff_names hn hm]
    intro map hmap oflag
    rcases h with rfl | ⟨hna, hma⟩
    · rfl
    · rw [verdict_relative hn hna hmap, verdict_relative hm hma hmap]

/-- A bare name, and the same name after `cwd`. -/
theorem sameVerdict_iff_bare :
    lexicalForm (.ofChars ['/', 'd']) (.ofChars ['f']) =
      lexicalForm (.ofChars ['/', 'd']) (.ofChars ['/', 'd', '/', 'f']) ∧
    SameVerdict (.ofChars ['/', 'd']) (.ofChars ['f']) (.ofChars ['/', 'd', '/', 'f']) :=
  ⟨by decide, (sameVerdict_iff (by decide)).mpr (by decide)⟩

/-- The spellings `f` and `./f` of a forbidden file: one is denied, the other is allowed. -/
theorem sameVerdict_fails :
    Absolute (.ofChars ['/', 'd']) ∧
    lexicalForm (.ofChars ['/', 'd']) (.ofChars ['f']) =
      lexicalForm (.ofChars ['/', 'd']) (.ofChars ['.', '/', 'f']) ∧
    (∀ n ∈ (Finmap.singleton (.ofChars ['/', 'd', '/', 'f']) O_FORBIDDEN : PolicyMap), Absolute n) ∧
    checkPermissionUncached (Finmap.singleton (.ofChars ['/', 'd', '/', 'f']) O_FORBIDDEN)
      (.ofChars ['/', 'd']) (.ofChars ['f']) O_RDONLY = .ok false ∧
    checkPermissionUncached (Finmap.singleton (.ofChars ['/', 'd', '/', 'f']) O_FORBIDDEN)
      (.ofChars ['/', 'd']) (.ofChars ['.', '/', 'f']) O_RDONLY = .ok true := by
  refine ⟨by decide, by decide, fun n hn => ?_, by decide, by decide⟩
  rw [(Finmap.mem_singleton _ _ _).mp hn]
  decide

end Cnpv
