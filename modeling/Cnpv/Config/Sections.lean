import Cnpv.Config.Reference

/-!
# Sections of other programs

A configuration has sections for several programs, and a program loads every section whose name
contains its own name. So the sections of the other programs do not matter if none of their names
contains the name of the program, and as soon as such a name may occur they do
(`sections_independent_iff`).
-/

namespace Cnpv

open CLib

/-- The sections with the name `p`. -/
def ownSections (p : CStr) : JsonValue → List (List UInt8 × JsonValue)
  | .object sections => sections.filter fun s => CStr.ofBytes s.1 = p
  | _ => []

/-- An entry for a file or a directory. -/
structure RuleOk (e : Entry) : Prop where
  strings : ∀ m ∈ e, CStr.ofBytes m.1 = PATH ∨ CStr.ofBytes m.1 = AUTHORITY →
    ∃ ptr, m.2 = .string ptr
  path : ∃ p, lastMember PATH e = some p ∧ p.bytes ≠ []

/-- A configuration with sections for `p` and for programs with names in `names`. -/
def WellFormed (p : CStr) (names : Set CStr) (root : JsonValue) : Prop :=
  ∃ sections, root = .object sections ∧ ∀ s ∈ sections,
    (CStr.ofBytes s.1 = p ∨ CStr.ofBytes s.1 ∈ names) ∧
    ∃ values, s.2 = .array values ∧ ∀ v ∈ values, ∃ e, v = .object e ∧ RuleOk e

variable {opendir : CStr → Option (List Dirent)} {fuel : Nat} {p n : CStr} {names : Set CStr}

/-- Loading skips the sections whose name does not contain the name of the program. -/
theorem processRoot_filter {σ : Type} {processPair : σ → JsonValue → Exec σ} (s : σ)
    (sections : List (List UInt8 × JsonValue)) :
    processRoot processPair p s (.object sections) =
      runFrom (fun s value => processArray processPair s value.2) s
        (sections.filter fun value => p.bytes <:+: (CStr.ofBytes value.1).bytes) := by
  rw [← runFrom_filter]
  simp only [processRoot, strstr_isSome]

/-- If no other name contains the name of the program, it loads its own sections. -/
theorem processRoot_own {σ : Type} {processPair : σ → JsonValue → Exec σ} {root : JsonValue}
    (h : WellFormed p names root) (hnames : ∀ n ∈ names, n ≠ p → ¬ p.bytes <:+: n.bytes) (s : σ) :
    processRoot processPair p s root =
      runFrom (fun s value => processArray processPair s value.2) s (ownSections p root) := by
  obtain ⟨sections, rfl, hsections⟩ := h
  rw [processRoot_filter, ownSections]
  congr 1
  refine List.filter_congr fun value hvalue => decide_eq_decide.mpr ⟨fun hp => ?_, ?_⟩
  · by_contra hne
    rcases (hsections value hvalue).1 with h | h
    · exact hne h
    · exact hnames _ h hne hp
  · rintro rfl
    exact List.infix_rfl

/-- The configuration with one section, for the program `n`, with one rule, for the file `/f`. -/
def oneRule (n : CStr) (authority : CStr) : JsonValue :=
  .object [(n.buf, .array [.object
    [(PATH.buf, .string (CStr.ofChars ['/', 'f']).buf), (AUTHORITY.buf, .string authority.buf)]])]

theorem configOk_oneRule (n authority : CStr) : ConfigOk MAX_PATH (oneRule n authority) :=
  configOk_section _ (List.forall_mem_singleton.mpr (entryOk_file (by decide) _))

theorem wellFormed_oneRule (hn : n = p ∨ n ∈ names) (authority : CStr) :
    WellFormed p names (oneRule n authority) := by
  obtain ⟨sections, hroot, hsections⟩ := configOk_oneRule n authority
  refine ⟨sections, hroot, fun s hs => ⟨?_, ?_⟩⟩
  · cases hroot
    obtain rfl := List.mem_singleton.mp hs
    simpa using hn
  · obtain ⟨values, hvalues, hentries⟩ := hsections s hs
    refine ⟨values, hvalues, fun v hv => ?_⟩
    obtain ⟨e, he, hok⟩ := hentries v hv
    obtain ⟨path, hpath, hne, -⟩ := hok.path
    exact ⟨e, he, hok.strings, path, hpath, hne⟩

theorem ownSections_oneRule (h : n ≠ p) (authority : CStr) :
    ownSections p (oneRule n authority) = [] := by
  simp [ownSections, oneRule, h]

/-- A program loads the rule of a section whose name contains its name. -/
theorem processRoot_oneRule (hn : p.bytes <:+: n.bytes) (authority : CStr) :
    Config.processRoot opendir fuel p ∅ (oneRule n authority) =
      .ok (Finmap.singleton (.ofChars ['/', 'f']) (getModeValue authority)) := by
  have hne : PATH ≠ AUTHORITY := by decide
  rw [Config.processRoot_eq (configOk_oneRule n authority) (Nat.le_refl _) p]
  have hselected : selectedEntries p (oneRule n authority) =
      [[(PATH.buf, .string (CStr.ofChars ['/', 'f']).buf),
        (AUTHORITY.buf, .string authority.buf)]] := by
    simp [selectedEntries, oneRule, hn, JsonValue.entries, JsonValue.entry]
  have huser : userOf 0 [(PATH.buf, .string (CStr.ofChars ['/', 'f']).buf),
      (AUTHORITY.buf, .string authority.buf)] = ⟨.ofChars ['/', 'f'], getModeValue authority⟩ := by
    simp [userOf, lastMember, JsonValue.str, hne, hne.symm]
  rw [hselected, List.map_singleton, huser]
  rfl

/-- **When sections of other programs do not matter.** For all configurations with sections for `p`
and for programs with names in `names`: the sections for `p` alone decide what `p` loads, and so
every verdict, if and only if no other name in `names` contains `p`. -/
theorem sections_independent_iff (opendir : CStr → Option (List Dirent)) (fuel : Nat) (p : CStr)
    (names : Set CStr) :
    (∀ c₁ c₂, WellFormed p names c₁ → WellFormed p names c₂ → ownSections p c₁ = ownSections p c₂ →
      Config.processRoot opendir fuel p ∅ c₁ = Config.processRoot opendir fuel p ∅ c₂) ↔
    ∀ n ∈ names, n ≠ p → ¬ p.bytes <:+: n.bytes := by
  constructor
  · -- A section of such a name can forbid a file, or not.
    intro h n hn hne hp
    have heq := h (oneRule n (.ofChars ['F'])) (oneRule n (.ofChars ['R']))
      (wellFormed_oneRule (.inr hn) _) (wellFormed_oneRule (.inr hn) _)
      (by rw [ownSections_oneRule hne, ownSections_oneRule hne])
    rw [processRoot_oneRule hp, processRoot_oneRule hp, Except.ok.injEq] at heq
    have hlookup := congrArg (Finmap.lookup (.ofChars ['/', 'f'])) heq
    rw [Finmap.lookup_singleton_eq, Finmap.lookup_singleton_eq] at hlookup
    exact absurd hlookup (by decide)
  · intro hnames c₁ c₂ h₁ h₂ hown
    rw [Config.processRoot, Config.processRoot, processRoot_own h₁ hnames, processRoot_own h₂ hnames,
      hown]

/-- The program `test`, and the section of the program `app-test`: what it says about a file decides
whether `test` may read the file. -/
theorem sections_cross_talk :
    ∃ map₁ map₂,
      Config.processRoot (fun _ => none) 0 (.ofChars ['t', 'e', 's', 't']) ∅
        (oneRule (.ofChars ['a', 'p', 'p', '-', 't', 'e', 's', 't']) (.ofChars ['R'])) = .ok map₁ ∧
      Config.processRoot (fun _ => none) 0 (.ofChars ['t', 'e', 's', 't']) ∅
        (oneRule (.ofChars ['a', 'p', 'p', '-', 't', 'e', 's', 't']) (.ofChars ['F'])) = .ok map₂ ∧
      ownSections (.ofChars ['t', 'e', 's', 't'])
        (oneRule (.ofChars ['a', 'p', 'p', '-', 't', 'e', 's', 't']) (.ofChars ['R'])) =
      ownSections (.ofChars ['t', 'e', 's', 't'])
        (oneRule (.ofChars ['a', 'p', 'p', '-', 't', 'e', 's', 't']) (.ofChars ['F'])) ∧
      checkPermissionUncached map₁ slash (.ofChars ['/', 'f']) O_RDONLY = .ok true ∧
      checkPermissionUncached map₂ slash (.ofChars ['/', 'f']) O_RDONLY = .ok false := by
  have hp : (CStr.ofChars ['t', 'e', 's', 't']).bytes <:+:
    (CStr.ofChars ['a', 'p', 'p', '-', 't', 'e', 's', 't']).bytes := by decide
  refine ⟨_, _, processRoot_oneRule hp _, processRoot_oneRule hp _, ?_, by decide, by decide⟩
  rw [ownSections_oneRule (by decide), ownSections_oneRule (by decide)]

end Cnpv
