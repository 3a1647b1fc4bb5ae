import Mathlib.Data.List.Basic

/-!
# Runs of C code

A C function that can leave its caller without a result returns `Exec α`: a value, or the reason
why the run ended (`Halt`). A `while` loop takes its fuel as an argument, so that every definition
computes; a loop that C would run forever ends in `Halt.outOfFuel` for every fuel.

* `whileLoop`: a loop, with its rules: `whileLoop_inv` (partial correctness), `whileLoop_total`
  (a measure bounds the fuel), `whileLoop_mono` (more fuel), `whileLoop_refines` (a loop that does
  what another one does).
* `runFrom`: one call after the other; `Along` is a condition on the state before each of them.
  `runFrom_inv` is the invariant rule, `runFrom_total` its total form, `runFrom_variant` the rule for
  runs that come to an end.
* `trace`: the replies of the calls of a run, up to the first one that does not return.
-/

namespace CLib

/-- Undefined behaviour that a run can meet. -/
inductive Fault
  /-- A write past the end of a buffer. -/
  | overflow
  /-- An index outside of its array. -/
  | outOfBounds
  /-- A read of a union member that is not the stored one. -/
  | wrongMember
  /-- A use of a pointer that is `NULL`. -/
  | nullPointer
  /-- A use of memory that was freed. -/
  | useAfterFree
  | divisionByZero
  deriving DecidableEq, Repr

/-- Why a run ended without a result. -/
inductive Halt
  | outOfFuel
  | exit (status : Int)
  /-- The thread that was to take a step waits for another one. -/
  | blocked
  | undefined (fault : Fault)
  deriving DecidableEq, Repr

abbrev Exec (α : Type) := Except Halt α

section Bind

variable {α β : Type}

theorem Exec.bind_ok {x : Exec α} {f : α → Exec β} {b : β} :
    x >>= f = .ok b ↔ ∃ a, x = .ok a ∧ f a = .ok b := by
  cases x with
  | error e => simp [bind, Except.bind]
  | ok a => simp [bind, Except.bind]

theorem Exec.bind_error {x : Exec α} {f : α → Exec β} {e : Halt} :
    x >>= f = .error e ↔ x = .error e ∨ ∃ a, x = .ok a ∧ f a = .error e := by
  cases x with
  | error e => simp [bind, Except.bind]
  | ok a => simp [bind, Except.bind]

theorem Exec.map_ok {x : Exec α} {f : α → β} {b : β} :
    f <$> x = .ok b ↔ ∃ a, x = .ok a ∧ f a = b := by
  cases x with
  | error e => simp [Functor.map, Except.map]
  | ok a => simp [Functor.map, Except.map]

theorem Exec.map_error {x : Exec α} {f : α → β} {e : Halt} : f <$> x = .error e ↔ x = .error e := by
  cases x with
  | error e => simp [Functor.map, Except.map]
  | ok a => simp [Functor.map, Except.map]

@[simp] theorem Exec.ok_bind (a : α) (f : α → Exec β) : (Except.ok a : Exec α) >>= f = f a := rfl

@[simp] theorem Exec.error_bind (e : Halt) (f : α → Exec β) :
    (Except.error e : Exec α) >>= f = .error e := rfl

/-- The run returned a value with the property `p`; for runs on fixed inputs. -/
def Exec.returned (x : Exec α) (p : α → Bool) : Bool :=
  match x with
  | .ok a => p a
  | .error _ => false

theorem Exec.of_returned {x : Exec α} {p : α → Bool} (h : x.returned p = true) :
    ∃ a, x = .ok a ∧ p a = true := by
  cases x with
  | error e => cases h
  | ok a => exact ⟨a, rfl, h⟩

end Bind

/-! ## Loops -/

section Loop

variable {σ : Type} {cond : σ → Bool} {body : σ → Exec σ}

/-- `while (cond(s)) s = body(s);` -/
def whileLoop (cond : σ → Bool) (body : σ → Exec σ) : Nat → σ → Exec σ
  | 0, _ => .error .outOfFuel
  | n + 1, s => if cond s then body s >>= whileLoop cond body n else .ok s

theorem whileLoop_succ (n : Nat) (s : σ) :
    whileLoop cond body (n + 1) s = if cond s then body s >>= whileLoop cond body n else .ok s := rfl

/-- Partial correctness: a loop that ends keeps what its body keeps, and its condition is false. -/
theorem whileLoop_inv (inv : σ → Prop)
    (step : ∀ s s', inv s → cond s = true → body s = .ok s' → inv s') :
    ∀ (n : Nat) (s r : σ), inv s → whileLoop cond body n s = .ok r → inv r ∧ cond r = false := by
  intro n
  induction n with
  | zero => intro s r _ h; simp [whileLoop] at h
  | succ n ih =>
    intro s r hs h
    rw [whileLoop_succ] at h
    by_cases hc : cond s = true
    · rw [if_pos hc] at h
      obtain ⟨s', hb, hr⟩ := Exec.bind_ok.mp h
      exact ih s' r (step s s' hs hc hb) hr
    · rw [if_neg hc] at h
      cases h
      exact ⟨hs, by simpa using hc⟩

/-- Total correctness: `inv k s` has a number `k` that each iteration makes smaller; fuel above it
is enough. -/
theorem whileLoop_total (inv : Nat → σ → Prop)
    (step : ∀ k s, inv k s → cond s = true → ∃ s', body s = .ok s' ∧ ∃ k' < k, inv k' s') :
    ∀ (n k : Nat) (s : σ), inv k s → k < n →
      ∃ r, whileLoop cond body n s = .ok r ∧ (∃ k', inv k' r) ∧ cond r = false := by
  intro n
  induction n with
  | zero => intro k s _ h; omega
  | succ n ih =>
    intro k s hs hk
    rw [whileLoop_succ]
    by_cases hc : cond s = true
    · obtain ⟨s', hb, k', hk', hs'⟩ := step k s hs hc
      obtain ⟨r, hr, hinv, hcr⟩ := ih k' s' hs' (by omega)
      exact ⟨r, by rw [if_pos hc, hb]; exact hr, hinv, hcr⟩
    · exact ⟨s, if_neg hc, ⟨k, hs⟩, by simpa using hc⟩

/-- More fuel does not change the result of a loop. -/
theorem whileLoop_mono {n m : Nat} {s r : σ} (hnm : n ≤ m)
    (h : whileLoop cond body n s = .ok r) : whileLoop cond body m s = .ok r := by
  induction n generalizing m s with
  | zero => simp [whileLoop] at h
  | succ n ih =>
    obtain ⟨m, rfl⟩ : ∃ k, m = k + 1 := ⟨m - 1, by omega⟩
    rw [whileLoop_succ] at h ⊢
    by_cases hc : cond s = true
    · rw [if_pos hc] at h ⊢
      obtain ⟨s', hb, hr⟩ := Exec.bind_ok.mp h
      rw [hb]
      exact ih (by omega) hr
    · rwa [if_neg hc] at h ⊢

/-- A loop halts for want of fuel, or as its body does. -/
theorem whileLoop_error {n : Nat} {s : σ} {e : Halt} (h : whileLoop cond body n s = .error e) :
    e = .outOfFuel ∨ ∃ s', body s' = .error e := by
  induction n generalizing s with
  | zero => cases h; exact .inl rfl
  | succ n ih =>
    rw [whileLoop_succ] at h
    split at h
    · rcases Exec.bind_error.mp h with hb | ⟨s', -, h'⟩
      · exact .inr ⟨s, hb⟩
      · exact ih h'
    · cases h

/-- Bodies that agree while `inv` holds, and that keep it, give the same loop. -/
theorem whileLoop_congr {body' : σ → Exec σ} (inv : σ → Prop)
    (heq : ∀ s, inv s → body' s = body s) (hkeep : ∀ s s', inv s → body s = .ok s' → inv s')
    (n : Nat) {s : σ} (hs : inv s) : whileLoop cond body' n s = whileLoop cond body n s := by
  induction n generalizing s with
  | zero => rfl
  | succ n ih =>
    rw [whileLoop_succ, whileLoop_succ, heq s hs]
    split
    · cases hb : body s with
      | error e => rfl
      | ok s' => exact ih (hkeep s s' hs hb)
    · rfl

/-- An iteration. -/
theorem whileLoop_step {n : Nat} {s s' : σ} (hc : cond s = true) (hb : body s = .ok s') :
    whileLoop cond body (n + 1) s = whileLoop cond body n s' := by
  rw [whileLoop_succ, if_pos hc, hb]
  rfl

/-- A loop whose iterations do what those of another loop do returns when that one does. -/
theorem whileLoop_refines {τ : Type} {cond' : τ → Bool} {body' : τ → Exec τ} (R : σ → τ → Prop)
    (hcond : ∀ s t, R s t → cond s = cond' t)
    (hbody : ∀ s t t', R s t → cond' t = true → body' t = .ok t' → ∃ s', body s = .ok s' ∧ R s' t')
    {n : Nat} {s : σ} {t t' : τ} (h : R s t) (ht : whileLoop cond' body' n t = .ok t') :
    ∃ s', whileLoop cond body n s = .ok s' ∧ R s' t' := by
  induction n generalizing s t with
  | zero => cases ht
  | succ n ih =>
    rw [whileLoop_succ] at ht ⊢
    rw [hcond s t h]
    by_cases hc : cond' t = true
    · rw [if_pos hc] at ht ⊢
      obtain ⟨t₁, ht₁, ht⟩ := Exec.bind_ok.mp ht
      obtain ⟨s₁, hs₁, h₁⟩ := hbody s t t₁ h hc ht₁
      rw [hs₁]
      exact ih h₁ ht
    · rw [if_neg hc] at ht ⊢
      cases ht
      exact ⟨s, rfl, h⟩

end Loop

/-! ## Sequences of calls -/

section Run

variable {σ ι ρ : Type}

/-- The state after the calls `is`, made one after the other from `s`. -/
def runFrom (step : σ → ι → Exec σ) (s : σ) (is : List ι) : Exec σ := is.foldlM step s

/-- Each call of the run from `s` is made in a state that meets `cond`. -/
def Along (step : σ → ι → Exec σ) (cond : σ → ι → Prop) : σ → List ι → Prop
  | _, [] => True
  | s, i :: is => cond s i ∧ ∀ s', step s i = .ok s' → Along step cond s' is

variable {step : σ → ι → Exec σ} {cond : σ → ι → Prop}

@[simp] theorem runFrom_nil (s : σ) : runFrom step s [] = .ok s := rfl

theorem runFrom_cons (s : σ) (i : ι) (is : List ι) :
    runFrom step s (i :: is) = step s i >>= fun s' => runFrom step s' is := by
  simp [runFrom]

theorem runFrom_append (s : σ) (is js : List ι) :
    runFrom step s (is ++ js) = runFrom step s is >>= fun s' => runFrom step s' js := by
  simp [runFrom]

/-- Each call of a run that returns returned. -/
theorem runFrom_ok {s s' : σ} {is : List ι} (h : runFrom step s is = .ok s') :
    ∀ i ∈ is, ∃ s₁ s₂, step s₁ i = .ok s₂ := by
  induction is generalizing s with
  | nil => simp
  | cons i is ih =>
    rw [runFrom_cons] at h
    obtain ⟨s₁, h₁, h₂⟩ := Exec.bind_ok.mp h
    exact List.forall_mem_cons.mpr ⟨⟨s, s₁, h₁⟩, ih h₂⟩

/-- A run that halts, halts in one of its calls. -/
theorem runFrom_error {s : σ} {is : List ι} {e : Halt} (h : runFrom step s is = .error e) :
    ∃ i ∈ is, ∃ s₁, step s₁ i = .error e := by
  induction is generalizing s with
  | nil => cases h
  | cons i is ih =>
    rw [runFrom_cons] at h
    rcases Exec.bind_error.mp h with h₁ | ⟨s₁, -, h₂⟩
    · exact ⟨i, by simp, s, h₁⟩
    · obtain ⟨j, hj, hstep⟩ := ih h₂
      exact ⟨j, by simp [hj], hstep⟩

/-- A run in which each call is itself a run. -/
theorem runFrom_flatMap {κ : Type} (g : κ → List ι) (s : σ) (ks : List κ) :
    runFrom step s (ks.flatMap g) = runFrom (fun s k => runFrom step s (g k)) s ks := by
  induction ks generalizing s with
  | nil => rfl
  | cons k ks ih =>
    rw [List.flatMap_cons, runFrom_append, runFrom_cons]
    exact congrArg _ (funext fun s' => ih s')

theorem runFrom_map_list {κ : Type} (g : κ → ι) (s : σ) (ks : List κ) :
    runFrom step s (ks.map g) = runFrom (fun s k => step s (g k)) s ks := List.foldlM_map

/-- A run that returns also returns with steps that agree where the first ones return. -/
theorem runFrom_mono {step' : σ → ι → Exec σ}
    (h : ∀ s i s', step s i = .ok s' → step' s i = .ok s') {s s' : σ} {is : List ι}
    (hr : runFrom step s is = .ok s') : runFrom step' s is = .ok s' := by
  induction is generalizing s with
  | nil => exact hr
  | cons i is ih =>
    rw [runFrom_cons] at hr ⊢
    obtain ⟨s₁, h₁, h₂⟩ := Exec.bind_ok.mp hr
    rw [h s i s₁ h₁]
    exact ih h₂

/-- **The invariant rule.** What each call that meets `cond` keeps, a run of such calls keeps. -/
theorem runFrom_inv (inv : σ → Prop)
    (hstep : ∀ s i s', inv s → cond s i → step s i = .ok s' → inv s') {s s' : σ}
    {is : List ι} (hs : inv s) (hc : Along step cond s is) (h : runFrom step s is = .ok s') : inv s' := by
  induction is generalizing s with
  | nil => cases h; exact hs
  | cons i is ih =>
    rw [runFrom_cons] at h
    obtain ⟨s₁, h₁, h₂⟩ := Exec.bind_ok.mp h
    exact ih (hstep s i s₁ hs hc.1 h₁) (hc.2 s₁ h₁) h₂

/-- The invariant rule with termination: if each call that meets `cond` returns, so does a run
of such calls. -/
theorem runFrom_total (inv : σ → Prop)
    (hstep : ∀ s i, inv s → cond s i → ∃ s', step s i = .ok s' ∧ inv s') {s : σ} {is : List ι}
    (hs : inv s) (hc : Along step cond s is) :
    ∃ s', runFrom step s is = .ok s' ∧ inv s' := by
  induction is generalizing s with
  | nil => exact ⟨s, rfl, hs⟩
  | cons i is ih =>
    obtain ⟨s₁, h₁, hs₁⟩ := hstep s i hs hc.1
    obtain ⟨s', h', hs'⟩ := ih hs₁ (hc.2 s₁ h₁)
    exact ⟨s', by rw [runFrom_cons, h₁]; exact h', hs'⟩

/-- If each call that meets `cond` returns or halts with `e`, so does a run of such calls. -/
theorem runFrom_ok_or (inv : σ → Prop) {e : Halt}
    (hstep : ∀ s i, inv s → cond s i → (∃ s', step s i = .ok s' ∧ inv s') ∨ step s i = .error e)
    {s : σ} {is : List ι} (hs : inv s) (hc : Along step cond s is) :
    (∃ s', runFrom step s is = .ok s' ∧ inv s') ∨ runFrom step s is = .error e := by
  induction is generalizing s with
  | nil => exact .inl ⟨s, rfl, hs⟩
  | cons i is ih =>
    rw [runFrom_cons]
    rcases hstep s i hs hc.1 with ⟨s₁, h₁, hs₁⟩ | h₁
    · rw [h₁]
      exact ih hs₁ (hc.2 s₁ h₁)
    · rw [h₁]
      exact .inr rfl

theorem along_of_forall {s : σ} {is : List ι} (h : ∀ i ∈ is, ∀ s, cond s i) : Along step cond s is := by
  induction is generalizing s with
  | nil => exact trivial
  | cons i is ih => exact ⟨h i (by simp) s, fun s' _ => ih fun i hi => h i (by simp [hi])⟩

theorem along_append {s : σ} {is js : List ι} : Along step cond s (is ++ js) ↔
    Along step cond s is ∧ ∀ s', runFrom step s is = .ok s' → Along step cond s' js := by
  induction is generalizing s with
  | nil =>
    refine ⟨fun h => ⟨trivial, fun s' hs' => ?_⟩, fun h => h.2 s rfl⟩
    cases hs'
    exact h
  | cons i is ih =>
    rw [List.cons_append]
    constructor
    · rintro ⟨hi, h⟩
      refine ⟨⟨hi, fun s₁ h₁ => (ih.mp (h s₁ h₁)).1⟩, fun s' hs' => ?_⟩
      rw [runFrom_cons] at hs'
      obtain ⟨s₁, h₁, hs'⟩ := Exec.bind_ok.mp hs'
      exact (ih.mp (h s₁ h₁)).2 s' hs'
    · rintro ⟨⟨hi, h⟩, hjs⟩
      refine ⟨hi, fun s₁ h₁ => ih.mpr ⟨h s₁ h₁, fun s' hs' => hjs s' ?_⟩⟩
      rw [runFrom_cons, h₁]
      exact hs'

theorem Along.and_imp {cond' cond'' : σ → ι → Prop} (h : ∀ s i, cond s i → cond' s i → cond'' s i)
    {s : σ} {is : List ι} (hc : Along step cond s is) (hc' : Along step cond' s is) :
    Along step cond'' s is := by
  induction is generalizing s with
  | nil => exact trivial
  | cons i is ih => exact ⟨h s i hc.1 hc'.1, fun s' hs' => ih (hc.2 s' hs') (hc'.2 s' hs')⟩

theorem Along.imp {cond' : σ → ι → Prop} (h : ∀ s i, cond s i → cond' s i) {s : σ} {is : List ι}
    (hc : Along step cond s is) : Along step cond' s is := hc.and_imp (fun s i hi _ => h s i hi) hc

/-- The variant rule: calls that make the variant smaller come to an end, after at most that many. -/
theorem runFrom_variant (inv : σ → Prop) (variant : σ → Nat)
    (hstep : ∀ s i s', inv s → cond s i → step s i = .ok s' → inv s' ∧ variant s' < variant s)
    {s s' : σ} {is : List ι} (hs : inv s) (hc : Along step cond s is) (h : runFrom step s is = .ok s') :
    inv s' ∧ is.length + variant s' ≤ variant s := by
  induction is generalizing s with
  | nil =>
    cases h
    exact ⟨hs, Nat.le_of_eq (Nat.zero_add _)⟩
  | cons i is ih =>
    rw [runFrom_cons] at h
    obtain ⟨s₁, h₁, h₂⟩ := Exec.bind_ok.mp h
    obtain ⟨hs₁, hlt⟩ := hstep s i s₁ hs hc.1 h₁
    obtain ⟨hs', hle⟩ := ih hs₁ (hc.2 s₁ h₁) h₂
    refine ⟨hs', ?_⟩
    rw [List.length_cons]
    omega

instance Along.decidable [∀ s i, Decidable (cond s i)] :
    (s : σ) → (is : List ι) → Decidable (Along step cond s is)
  | _, [] => .isTrue trivial
  | s, i :: is =>
    match h : step s i with
    | .error _ => decidable_of_iff (cond s i)
        ⟨fun hc => ⟨hc, fun s' hs' => by cases h.symm.trans hs'⟩, fun hc => hc.1⟩
    | .ok s₁ =>
      have := Along.decidable s₁ is
      decidable_of_iff (cond s i ∧ Along step cond s₁ is)
        ⟨fun hc => ⟨hc.1, fun s' hs' => by cases h.symm.trans hs'; exact hc.2⟩,
          fun hc => ⟨hc.1, hc.2 s₁ h⟩⟩

/-- What each call of the run keeps, the run keeps. -/
theorem runFrom_keeps (inv : σ → Prop) {is : List ι}
    (hstep : ∀ i ∈ is, ∀ s s', inv s → step s i = .ok s' → inv s') {s s' : σ} (hs : inv s)
    (h : runFrom step s is = .ok s') : inv s' := by
  have hmem : Along step (fun _ i => i ∈ is) s is := along_of_forall fun i hi _ => hi
  exact runFrom_inv inv (fun s i s' hs hi hr => hstep i hi s s' hs hr) hs hmem h

/-- If each call returns from every state, so does the run. -/
theorem runFrom_returns {is : List ι} (h : ∀ i ∈ is, ∀ s, ∃ s', step s i = .ok s') (s : σ) :
    ∃ s', runFrom step s is = .ok s' := by
  have hmem : Along step (fun _ i => i ∈ is) s is := along_of_forall fun i hi _ => hi
  have hstep : ∀ s i, True → i ∈ is → ∃ s', step s i = .ok s' ∧ True := fun s i _ hi =>
    (h i hi s).imp fun _ hs' => ⟨hs', trivial⟩
  obtain ⟨s', hs', -⟩ := runFrom_total (fun _ => True) hstep trivial hmem
  exact ⟨s', hs'⟩

/-- Calls that agree while `inv` holds, and that keep it, give the same run. -/
theorem runFrom_congr {step' : σ → ι → Exec σ} (inv : σ → Prop) {is : List ι}
    (heq : ∀ i ∈ is, ∀ s, inv s → step' s i = step s i)
    (hkeep : ∀ i ∈ is, ∀ s s', inv s → step s i = .ok s' → inv s') {s : σ} (hs : inv s) :
    runFrom step' s is = runFrom step s is := by
  induction is generalizing s with
  | nil => rfl
  | cons i is ih =>
    rw [runFrom_cons, runFrom_cons, heq i (by simp) s hs]
    cases hr : step s i with
    | error e => rfl
    | ok s' =>
      exact ih (fun i hi => heq i (by simp [hi])) (fun i hi => hkeep i (by simp [hi]))
        (hkeep i (by simp) s s' hs hr)

/-- A run seen through a function that the calls agree with. -/
theorem runFrom_map {τ : Type} {f : σ → τ} {step' : τ → ι → Exec τ} {is : List ι}
    (h : ∀ i ∈ is, ∀ s, f <$> step s i = step' (f s) i) (s : σ) :
    f <$> runFrom step s is = runFrom step' (f s) is := by
  induction is generalizing s with
  | nil => rfl
  | cons i is ih =>
    rw [runFrom_cons, runFrom_cons, ← h i (by simp)]
    cases step s i with
    | error e => rfl
    | ok s' => exact ih (fun i hi => h i (by simp [hi])) s'

/-- A run that skips the calls without the property `P`. -/
theorem runFrom_filter {P : ι → Prop} [DecidablePred P] (s : σ) (is : List ι) :
    runFrom (fun s i => if P i then step s i else .ok s) s is = runFrom step s (is.filter P) := by
  induction is generalizing s with
  | nil => rfl
  | cons i is ih =>
    rw [runFrom_cons, List.filter_cons]
    by_cases h : P i
    · simp only [h, decide_true, if_true, runFrom_cons, ih]
    · simp only [h, decide_false, if_false, Bool.false_eq_true, Exec.ok_bind, ih]

/-- A run in which each call `i` gives the values `g i` to `emit`. -/
theorem runFrom_emit {υ : Type} {emit : σ → υ → σ} (g : ι → List υ) {is : List ι}
    (h : ∀ i ∈ is, ∀ s, step s i = .ok ((g i).foldl emit s)) (s : σ) :
    runFrom step s is = .ok ((is.flatMap g).foldl emit s) := by
  induction is generalizing s with
  | nil => rfl
  | cons i is ih =>
    rw [runFrom_cons, h i (by simp), Exec.ok_bind, ih (fun i hi => h i (by simp [hi])),
      List.flatMap_cons, List.foldl_append]

/-- The calls of a run with the state before each and its reply, up to the first call that does
not return. -/
def trace (serve : σ → ι → Exec (ρ × σ)) : σ → List ι → List (σ × ι × ρ)
  | _, [] => []
  | s, i :: is =>
    match serve s i with
    | .ok (r, s') => (s, i, r) :: trace serve s' is
    | .error _ => []

/-- The trace has calls of the run. -/
theorem mem_of_mem_trace {serve : σ → ι → Exec (ρ × σ)} {s : σ} {is : List ι} {e : σ × ι × ρ}
    (h : e ∈ trace serve s is) : e.2.1 ∈ is := by
  induction is generalizing s with
  | nil => cases h
  | cons i is ih =>
    cases hr : serve s i with
    | error _ => simp [trace, hr] at h
    | ok p =>
      simp only [trace, hr, List.mem_cons] at h
      rcases h with rfl | h
      · exact List.mem_cons_self
      · exact List.mem_cons_of_mem _ (ih h)

/-- **The invariant rule for traces.** If each call of the trace meets `cond`, what such calls keep
holds before each of them, and the reply is the one that the call gives. -/
theorem trace_inv {serve : σ → ι → Exec (ρ × σ)} (cond : σ → ι → Prop) (inv : σ → Prop)
    (hstep : ∀ s i r s', inv s → cond s i → serve s i = .ok (r, s') → inv s') {s : σ} {is : List ι}
    (hs : inv s) (hc : ∀ e ∈ trace serve s is, cond e.1 e.2.1) :
    ∀ e ∈ trace serve s is, inv e.1 ∧ ∃ s', serve e.1 e.2.1 = .ok (e.2.2, s') := by
  induction is generalizing s with
  | nil => simp [trace]
  | cons i is ih =>
    cases hr : serve s i with
    | error _ => simp [trace, hr]
    | ok p =>
      obtain ⟨r, s'⟩ := p
      simp only [trace, hr, List.forall_mem_cons] at hc ⊢
      exact ⟨⟨hs, s', rfl⟩, ih (hstep s i r s' hs hc.1 hr) hc.2⟩

/-- **The invariant rule with history.** `inv` is about the part of the trace so far and the state
after it. -/
theorem trace_history {serve : σ → ι → Exec (ρ × σ)} (inv : List (σ × ι × ρ) → σ → Prop)
    {is : List ι} (hstep : ∀ pre s r s', ∀ i ∈ is, inv pre s → serve s i = .ok (r, s') →
      inv (pre ++ [(s, i, r)]) s') {s : σ} {pre post : List (σ × ι × ρ)} {e : σ × ι × ρ}
    (hs : inv [] s) (h : trace serve s is = pre ++ e :: post) :
    inv pre e.1 ∧ ∃ s', serve e.1 e.2.1 = .ok (e.2.2, s') ∧ inv (pre ++ [e]) s' := by
  -- Generalised to a run that goes on after the calls of `hist`.
  suffices ∀ hist, inv hist s → inv (hist ++ pre) e.1 ∧
      ∃ s', serve e.1 e.2.1 = .ok (e.2.2, s') ∧ inv (hist ++ pre ++ [e]) s' from this [] hs
  clear hs
  induction is generalizing s pre with
  | nil => simp [trace] at h
  | cons i is ih =>
    intro hist hs
    cases hr : serve s i with
    | error _ => simp [trace, hr] at h
    | ok p =>
      obtain ⟨r, s'⟩ := p
      have hs' := hstep hist s r s' i (by simp) hs hr
      simp only [trace, hr] at h
      cases pre with
      | nil =>
        obtain ⟨rfl, -⟩ := List.cons.inj h
        rw [List.append_nil]
        exact ⟨hs, s', hr, hs'⟩
      | cons e' pre =>
        obtain ⟨rfl, htail⟩ := List.cons.inj h
        have hrest := ih (fun pre s r s' i hi => hstep pre s r s' i (by simp [hi])) htail _ hs'
        simpa using hrest

/-- If each call returns, the trace has all calls. -/
theorem trace_complete {serve : σ → ι → Exec (ρ × σ)} (inv : σ → Prop) {s : σ} {is : List ι}
    (hstep : ∀ s, inv s → ∀ i ∈ is, ∃ r s', serve s i = .ok (r, s') ∧ inv s') (hs : inv s) :
    (trace serve s is).map (fun e => e.2.1) = is := by
  induction is generalizing s with
  | nil => rfl
  | cons i is ih =>
    obtain ⟨r, s', hr, hs'⟩ := hstep s hs i (by simp)
    simp only [trace, hr, List.map_cons]
    rw [ih (fun s hs i hi => hstep s hs i (by simp [hi])) hs']

/-- A trace seen through a function that the calls agree with has the same replies. -/
theorem trace_map {τ : Type} {f : τ → σ} {serve : σ → ι → Exec (ρ × σ)} {serve' : τ → ι → Exec (ρ × τ)}
    (h : ∀ t i, (fun r => (r.1, f r.2)) <$> serve' t i = serve (f t) i) (t : τ) (is : List ι) :
    (trace serve (f t) is).map Prod.snd = (trace serve' t is).map Prod.snd := by
  induction is generalizing t with
  | nil => rfl
  | cons i is ih =>
    cases hr : serve' t i with
    | error e =>
      have hr' : serve (f t) i = .error e := by rw [← h, hr]; rfl
      simp only [trace, hr, hr', List.map_nil]
    | ok r =>
      have hr' : serve (f t) i = .ok (r.1, f r.2) := by rw [← h, hr]; rfl
      simp only [trace, hr, hr', List.map_cons, ih r.2]

end Run

end CLib
