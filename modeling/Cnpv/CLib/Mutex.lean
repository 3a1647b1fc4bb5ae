import Mathlib.Logic.Function.Basic

/-!
# A mutex and the places that hold it

Each thread of a program is at some place of its code, and at some of them it holds the mutex:
`holds t`. `Excl holds owner`: the threads that hold the mutex are its owner, so at most one does
(`Excl.unique`). A step moves one thread: it takes the mutex (`Excl.lock`), gives it back
(`Excl.unlock`), or stays on its side (`Excl.stay`).
-/

namespace CLib

variable {ι : Type} [DecidableEq ι] {holds : ι → Bool} {owner : Option ι} {t u : ι}

/-- A thread holds the mutex if and only if it is the owner. -/
def Excl (holds : ι → Bool) (owner : Option ι) : Prop := ∀ t, holds t = true ↔ owner = some t

omit [DecidableEq ι] in
/-- **Mutual exclusion.** -/
theorem Excl.unique (h : Excl holds owner) (ht : holds t = true) (hu : holds u = true) : t = u :=
  Option.some.inj (((h t).mp ht).symm.trans ((h u).mp hu))

theorem Excl.lock (h : Excl holds none) (t : ι) : Excl (Function.update holds t true) (some t) := by
  intro u
  by_cases hu : u = t
  · subst hu
    rw [Function.update_self]
    exact iff_of_true rfl rfl
  · rw [Function.update_of_ne hu, h u]
    exact iff_of_false (fun h => by cases h) fun h => hu (Option.some.inj h).symm

theorem Excl.unlock (h : Excl holds owner) (ht : holds t = true) :
    Excl (Function.update holds t false) none := by
  intro u
  refine iff_of_false (fun hu => ?_) fun h => by cases h
  by_cases he : u = t
  · subst he
    rw [Function.update_self] at hu
    cases hu
  · rw [Function.update_of_ne he] at hu
    exact he (h.unique hu ht)

theorem Excl.stay {b : Bool} (h : Excl holds owner) (ht : holds t = b) :
    Excl (Function.update holds t b) owner := by
  subst ht
  rwa [Function.update_eq_self]

end CLib
