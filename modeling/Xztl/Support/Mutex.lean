import Mathlib.Data.Fintype.Card
import Mathlib.Logic.Function.Basic

/-!
# Support — threads around a mutex

Every thread `t : ι` is at a control point `pc t : P`, and a step moves one thread:
`Function.update pc t p`.  A mutex is the thread that has it, if any.

* `Guarded lock pc inside`: the threads at the control points `inside` are exactly the one that has
  the mutex.  The three ways in which a step can treat the mutex keep it (`acquire`, `release`,
  `move`), and two threads are never `inside` together (`Guarded.eq`).
* `population pc P`: how many threads are at the control points `P`, and how a step changes it.
-/

section Guarded
variable {ι P : Type*} {lock : Option ι} {pc : ι → P} {inside : P → Prop} {t u : ι} {p : P}

/-- The threads at the control points `inside` are exactly the owner of the mutex. -/
def Guarded (lock : Option ι) (pc : ι → P) (inside : P → Prop) : Prop :=
  ∀ t, inside (pc t) ↔ lock = some t

namespace Guarded

theorem eq (h : Guarded lock pc inside) (ht : inside (pc t)) (hu : inside (pc u)) : t = u :=
  Option.some.inj (((h t).mp ht).symm.trans ((h u).mp hu))

variable [DecidableEq ι]

theorem acquire (h : Guarded none pc inside) (hp : inside p) :
    Guarded (some t) (Function.update pc t p) inside := by
  intro u
  rcases eq_or_ne u t with rfl | hne
  · rw [Function.update_self]
    exact iff_of_true hp rfl
  · rw [Function.update_of_ne hne, h u]
    exact iff_of_false nofun fun he => hne (Option.some.inj he).symm

theorem release (h : Guarded lock pc inside) (ht : inside (pc t)) (hp : ¬ inside p) :
    Guarded none (Function.update pc t p) inside := by
  intro u
  rcases eq_or_ne u t with rfl | hne
  · rw [Function.update_self]
    exact iff_of_false hp nofun
  · rw [Function.update_of_ne hne]
    exact iff_of_false (fun hu => hne (h.eq hu ht)) nofun

/-- A step that leaves the mutex alone. -/
theorem move (h : Guarded lock pc inside) (hp : inside p ↔ inside (pc t)) :
    Guarded lock (Function.update pc t p) inside := by
  intro u
  rcases eq_or_ne u t with rfl | hne
  · rw [Function.update_self, hp]
    exact h u
  · rw [Function.update_of_ne hne]
    exact h u

end Guarded

end Guarded

section Population
variable {ι P : Type*} [Fintype ι] {Q : P → Prop} [DecidablePred Q] {pc : ι → P} {t : ι} {p : P}

/-- How many threads are at the control points `Q`. -/
def population (pc : ι → P) (Q : P → Prop) [DecidablePred Q] : Nat :=
  (Finset.univ.filter fun t => Q (pc t)).card

theorem population_le_card (pc : ι → P) (Q : P → Prop) [DecidablePred Q] :
    population pc Q ≤ Fintype.card ι :=
  Finset.card_le_univ _

theorem population_pos (h : Q (pc t)) : 0 < population pc Q :=
  Finset.card_pos.mpr ⟨t, Finset.mem_filter.mpr ⟨Finset.mem_univ _, h⟩⟩

variable [DecidableEq ι]

theorem population_enter (pc : ι → P) (ht : ¬ Q (pc t)) (hp : Q p) :
    population (Function.update pc t p) Q = population pc Q + 1 := by
  have hin : (Finset.univ.filter fun u => Q (Function.update pc t p u))
      = insert t (Finset.univ.filter fun u => Q (pc u)) := by
    ext u
    rcases eq_or_ne u t with rfl | hne
    · simp [hp]
    · simp [hne]
  unfold population
  rw [hin, Finset.card_insert_of_notMem]
  simp [ht]

theorem population_stay (pc : ι → P) (hp : Q p ↔ Q (pc t)) :
    population (Function.update pc t p) Q = population pc Q := by
  unfold population
  congr 1
  ext u
  rcases eq_or_ne u t with rfl | hne
  · simp [hp]
  · simp [hne]

theorem population_leave (pc : ι → P) (ht : Q (pc t)) (hp : ¬ Q p) :
    population (Function.update pc t p) Q + 1 = population pc Q := by
  have hback := population_enter (Function.update pc t p) (t := t) (p := pc t) (Q := Q)
    (by rw [Function.update_self]; exact hp) ht
  rw [Function.update_idem, Function.update_eq_self] at hback
  exact hback.symm

end Population
