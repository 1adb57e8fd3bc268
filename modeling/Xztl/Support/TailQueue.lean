import Mathlib.Data.List.Basic
import Mathlib.Logic.Function.Basic

/-!
# Support — tail queues

The doubly linked tail queue of `<sys/queue.h>`, at the level of its pointers.  Elements are
named by `κ`, heads by `η`.  A *slot* is the address of a `next` pointer: that of a head's first
element, or that of an element's successor.  An element stores its successor and the slot that
points to it; a head stores its first element and the slot that holds the final null pointer.

Several queues share one heap, and an operation takes the head it is told to take, whether or not
the element is on that head's queue: `remove h e` follows the element's own links and consults `h`
only when the element is the last one.

`Repr hp h xs` says that the queue at `h` is well linked and holds `xs`, front to back.  The two
operations preserve it when they are given the right head (`Repr.insertTail`, `Repr.remove`), and
leave every disjoint queue alone (`Repr.insertTail_other`, `Repr.remove_other`).

`Queues hp parts` says that each head `h` holds `parts h` and that no element is on two queues;
`Queues.insert` and `Queues.move` are the two ways in which such a family changes.
-/

namespace TailQueue

open Function List

/-- The address of a `next` pointer. -/
inductive Slot (η κ : Type) where
  | first (h : η)
  | next (k : κ)
deriving DecidableEq

/-- The links of an element.  `prev` is null until the element is first inserted. -/
structure Entry (η κ : Type) where
  next : Option κ
  prev : Option (Slot η κ)

/-- A queue head. -/
structure Head (η κ : Type) where
  first : Option κ
  last : Slot η κ

/-- All heads and all elements. -/
structure Heap (η κ : Type) where
  head : η → Head η κ
  entry : κ → Entry η κ

set_option linter.unusedSectionVars false

variable {η κ : Type}

/-- Every queue empty (`TAILQ_INIT` of each head), every element zeroed. -/
def Heap.init : Heap η κ where
  head h := ⟨none, .first h⟩
  entry _ := ⟨none, none⟩

namespace Heap

/-- `*s`. -/
def deref (hp : Heap η κ) : Slot η κ → Option κ
  | .first h => (hp.head h).first
  | .next k => (hp.entry k).next

variable [DecidableEq η] [DecidableEq κ]

/-- `*s = v`. -/
def assign (hp : Heap η κ) (s : Slot η κ) (v : Option κ) : Heap η κ :=
  match s with
  | .first h => { hp with head := update hp.head h { hp.head h with first := v } }
  | .next k => { hp with entry := update hp.entry k { hp.entry k with next := v } }

/-- `h->tqh_last = s`. -/
def setLast (hp : Heap η κ) (h : η) (s : Slot η κ) : Heap η κ :=
  { hp with head := update hp.head h { hp.head h with last := s } }

/-- `k->tqe_prev = s`. -/
def setPrev (hp : Heap η κ) (k : κ) (s : Option (Slot η κ)) : Heap η κ :=
  { hp with entry := update hp.entry k { hp.entry k with prev := s } }

/-- `TAILQ_INSERT_TAIL(h, e)`. -/
def insertTail (hp : Heap η κ) (h : η) (e : κ) : Heap η κ :=
  let last := (hp.head h).last
  let hp := (hp.assign (.next e) none).setPrev e (some last)
  (hp.assign last (some e)).setLast h (.next e)

/-- `TAILQ_REMOVE(h, e)`.  An element that was never inserted has a null `tqe_prev`; storing
through it is left without effect. -/
def remove (hp : Heap η κ) (h : η) (e : κ) : Heap η κ :=
  match (hp.entry e).prev with
  | none => hp
  | some s =>
    let next := (hp.entry e).next
    let hp := match next with
      | some k => hp.setPrev k (some s)
      | none => hp.setLast h s
    hp.assign s next

/-- `TAILQ_FOREACH`: the elements met from a slot on, in the order of the links.  In a ring the loop
does not end. -/
def walk (hp : Heap η κ) : (fuel : Nat) → Slot η κ → Option (List κ)
  | 0, _ => none
  | fuel + 1, s =>
    match hp.deref s with
    | none => some []
    | some k => (walk hp fuel (.next k)).map (k :: ·)

/-! ### What the primitive stores change -/

@[simp] theorem deref_assign_self (hp : Heap η κ) (s : Slot η κ) (v : Option κ) :
    (hp.assign s v).deref s = v := by
  cases s <;> simp [assign, deref]

theorem deref_assign_of_ne (hp : Heap η κ) {s t : Slot η κ} (v : Option κ) (h : t ≠ s) :
    (hp.assign s v).deref t = hp.deref t := by
  cases s with
  | first a =>
    cases t with
    | first b =>
      have hb : b ≠ a := fun e => h (by rw [e])
      simp [assign, deref, hb]
    | next k => rfl
  | next k =>
    cases t with
    | first b => rfl
    | next l =>
      have hl : l ≠ k := fun e => h (by rw [e])
      simp [assign, deref, hl]

@[simp] theorem prev_assign (hp : Heap η κ) (s : Slot η κ) (v : Option κ) (k : κ) :
    ((hp.assign s v).entry k).prev = (hp.entry k).prev := by
  cases s with
  | first a => rfl
  | next l =>
    by_cases e : k = l
    · subst e; simp [assign]
    · simp [assign, e]

@[simp] theorem last_assign (hp : Heap η κ) (s : Slot η κ) (v : Option κ) (h : η) :
    ((hp.assign s v).head h).last = (hp.head h).last := by
  cases s with
  | first a =>
    by_cases e : h = a
    · subst e; simp [assign]
    · simp [assign, e]
  | next l => rfl

@[simp] theorem deref_setLast (hp : Heap η κ) (h : η) (s t : Slot η κ) :
    (hp.setLast h s).deref t = hp.deref t := by
  cases t with
  | first a =>
    by_cases e : a = h
    · subst e; simp [setLast, deref]
    · simp [setLast, deref, e]
  | next k => rfl

@[simp] theorem prev_setLast (hp : Heap η κ) (h : η) (s : Slot η κ) (k : κ) :
    ((hp.setLast h s).entry k).prev = (hp.entry k).prev := rfl

@[simp] theorem last_setLast_self (hp : Heap η κ) (h : η) (s : Slot η κ) :
    ((hp.setLast h s).head h).last = s := by simp [setLast]

theorem last_setLast_of_ne (hp : Heap η κ) {h h' : η} (s : Slot η κ) (e : h' ≠ h) :
    ((hp.setLast h s).head h').last = (hp.head h').last := by simp [setLast, e]

@[simp] theorem deref_setPrev (hp : Heap η κ) (k : κ) (s : Option (Slot η κ)) (t : Slot η κ) :
    (hp.setPrev k s).deref t = hp.deref t := by
  cases t with
  | first a => rfl
  | next l =>
    by_cases e : l = k
    · subst e; simp [setPrev, deref]
    · simp [setPrev, deref, e]

@[simp] theorem prev_setPrev_self (hp : Heap η κ) (k : κ) (s : Option (Slot η κ)) :
    ((hp.setPrev k s).entry k).prev = s := by simp [setPrev]

theorem prev_setPrev_of_ne (hp : Heap η κ) {k l : κ} (s : Option (Slot η κ)) (e : l ≠ k) :
    ((hp.setPrev k s).entry l).prev = (hp.entry l).prev := by simp [setPrev, e]

@[simp] theorem last_setPrev (hp : Heap η κ) (k : κ) (s : Option (Slot η κ)) (h : η) :
    ((hp.setPrev k s).head h).last = (hp.head h).last := rfl

/-- A removal touches no head's last slot but that of the head it is given. -/
theorem last_remove_of_ne (hp : Heap η κ) {h h' : η} (e : κ) (hne : h' ≠ h) :
    ((hp.remove h e).head h').last = (hp.head h').last := by
  rw [remove]
  cases (hp.entry e).prev with
  | none => rfl
  | some s =>
    cases (hp.entry e).next with
    | none => exact (last_assign _ _ _ _).trans (last_setLast_of_ne _ _ hne)
    | some k => exact last_assign _ _ _ _

theorem last_insertTail_of_ne (hp : Heap η κ) {h h' : η} (e : κ) (hne : h' ≠ h) :
    ((hp.insertTail h e).head h').last = (hp.head h').last := by
  rw [insertTail, last_setLast_of_ne _ _ hne, last_assign, last_setPrev, last_assign]

/-- The head plays no part in the removal of an element that has a successor. -/
theorem remove_of_next (hp : Heap η κ) (h h' : η) {e : κ} (hn : (hp.entry e).next ≠ none) :
    hp.remove h e = hp.remove h' e := by
  rw [remove, remove]
  cases hk : (hp.entry e).next with
  | none => exact absurd hk hn
  | some k => rfl

/-- On an empty queue the inserted element comes first. -/
theorem first_insertTail (hp : Heap η κ) {h : η} (e : κ) (hl : (hp.head h).last = .first h) :
    ((hp.insertTail h e).head h).first = some e := by
  show (hp.insertTail h e).deref (.first h) = some e
  rw [insertTail, deref_setLast, hl, deref_assign_self]

/-- Every pointer leads to an element that satisfies `P`. -/
def Within (hp : Heap η κ) (P : κ → Prop) : Prop := ∀ s k, hp.deref s = some k → P k

variable {hp : Heap η κ} {P : κ → Prop} {h : η} {e : κ}

omit [DecidableEq η] [DecidableEq κ] in
theorem within_init : (init : Heap η κ).Within P := fun s k hk => by
  cases s <;> cases hk

theorem Within.assign (hw : hp.Within P) (s : Slot η κ) {v : Option κ} (hv : ∀ k, v = some k → P k) :
    (hp.assign s v).Within P := fun t k hk => by
  by_cases he : t = s
  · rw [he, deref_assign_self] at hk
    exact hv k hk
  · rw [deref_assign_of_ne _ _ he] at hk
    exact hw t k hk

theorem Within.insertTail (hw : hp.Within P) (he : P e) : (hp.insertTail h e).Within P := by
  have h1 : ((hp.assign (.next e) none).setPrev e (some (hp.head h).last)).Within P := fun t k hk => by
    rw [deref_setPrev] at hk
    exact hw.assign _ (fun _ h' => by cases h') t k hk
  intro t k hk
  rw [Heap.insertTail, deref_setLast] at hk
  exact h1.assign _ (fun _ h' => Option.some.inj h' ▸ he) t k hk

theorem Within.remove (hw : hp.Within P) : (hp.remove h e).Within P := by
  rw [Heap.remove]
  cases (hp.entry e).prev with
  | none => exact hw
  | some s =>
    have hnext : ∀ k, (hp.entry e).next = some k → P k := hw (.next e)
    cases hn : (hp.entry e).next with
    | none =>
      refine Within.assign (fun t k hk => ?_) _ fun k hk => by cases hk
      rw [deref_setLast] at hk
      exact hw t k hk
    | some k =>
      refine Within.assign (fun t k hk => ?_) _ fun l hl => hnext l (hn.trans hl)
      rw [deref_setPrev] at hk
      exact hw t k hk

end Heap

/-! ### Well-linked queues -/

/-- From slot `s` the links run through `xs` and end with a null pointer in slot `t`. -/
def Chain (hp : Heap η κ) : Slot η κ → List κ → Slot η κ → Prop
  | s, [], t => hp.deref s = none ∧ t = s
  | s, x :: xs, t => hp.deref s = some x ∧ (hp.entry x).prev = some s ∧ Chain hp (.next x) xs t

/-- The queue at `h` holds `xs`. -/
def Repr (hp : Heap η κ) (h : η) (xs : List κ) : Prop :=
  Chain hp (.first h) xs (hp.head h).last

variable {hp hp' : Heap η κ} {h h' : η} {s t p : Slot η κ} {xs ys as bs : List κ}
  {e : κ}

theorem repr_init (h : η) : Repr (Heap.init : Heap η κ) h [] := ⟨rfl, rfl⟩

/-- The slot of the final null pointer: `s`, or the `next` of an element of `xs`. -/
theorem Chain.last_mem (h : Chain hp s xs t) : t = s ∨ ∃ x ∈ xs, t = .next x := by
  induction xs generalizing s with
  | nil => exact .inl h.2
  | cons x xs ih =>
    rcases ih h.2.2 with e | ⟨y, hy, e⟩
    · exact .inr ⟨x, mem_cons_self, e⟩
    · exact .inr ⟨y, mem_cons_of_mem _ hy, e⟩

/-- A chain depends only on the slots and elements along it. -/
theorem Chain.congr (h : Chain hp s xs t)
    (hs : hp'.deref s = hp.deref s) (hn : ∀ x ∈ xs, hp'.deref (.next x) = hp.deref (.next x))
    (hv : ∀ x ∈ xs, (hp'.entry x).prev = (hp.entry x).prev) : Chain hp' s xs t := by
  induction xs generalizing s with
  | nil => exact ⟨hs.trans h.1, h.2⟩
  | cons x xs ih =>
    refine ⟨hs.trans h.1, (hv x mem_cons_self).trans h.2.1, ?_⟩
    exact ih h.2.2 (hn x mem_cons_self) (fun y hy => hn y (mem_cons_of_mem _ hy))
      (fun y hy => hv y (mem_cons_of_mem _ hy))

/-- The links determine the queue. -/
theorem Repr.unique (hx : Repr hp h xs) (hy : Repr hp h ys) : xs = ys := by
  suffices H : ∀ (xs ys : List κ) (s t t' : Slot η κ), Chain hp s xs t → Chain hp s ys t' → xs = ys
    from H xs ys _ _ _ hx hy
  intro xs
  induction xs with
  | nil =>
    intro ys s t t' h1 h2
    cases ys with
    | nil => rfl
    | cons y ys => rw [Chain, h1.1] at h2; cases h2.1
  | cons x xs ih =>
    intro ys s t t' h1 h2
    cases ys with
    | nil => rw [Chain, h2.1] at h1; cases h1.1
    | cons y ys =>
      obtain rfl : x = y := Option.some.inj (h1.1.symm.trans h2.1)
      rw [ih ys _ _ _ h1.2.2 h2.2.2]

/-- The first element of the queue is what the head points to. -/
theorem Repr.first (hx : Repr hp h xs) : (hp.head h).first = xs.head? := by
  cases xs with
  | nil => exact hx.1
  | cons x xs => exact hx.1

/-- The loop over a chain meets its elements. -/
theorem Chain.walk (h : Chain hp s xs t) :
    ∀ {fuel : Nat}, xs.length < fuel → hp.walk fuel s = some xs := by
  induction xs generalizing s with
  | nil =>
    intro fuel hf
    obtain ⟨fuel, rfl⟩ : ∃ k, fuel = k + 1 := ⟨fuel - 1, by omega⟩
    rw [Heap.walk, h.1]
  | cons x xs ih =>
    intro fuel hf
    rw [length_cons] at hf
    obtain ⟨fuel, rfl⟩ : ∃ k, fuel = k + 1 := ⟨fuel - 1, by omega⟩
    rw [Heap.walk, h.1]
    simp only
    rw [ih h.2.2 (by omega)]
    rfl

variable [DecidableEq η] [DecidableEq κ]

/-! ### Insertion -/

theorem Chain.snoc
    (hc : Chain hp s xs t) (he : e ∉ xs) (hse : s ≠ .next e) (hs : ∀ x ∈ xs, s ≠ .next x)
    (hnd : xs.Nodup) :
    Chain ((((hp.assign (.next e) none).setPrev e (some t)).assign t (some e)).setLast h (.next e))
      s (xs ++ [e]) (.next e) := by
  induction xs generalizing s with
  | nil =>
    obtain ⟨-, rfl⟩ := hc
    refine ⟨by simp, by simp, ?_, rfl⟩
    simp only [Heap.deref_setLast]
    rw [Heap.deref_assign_of_ne _ _ (Ne.symm hse)]
    simp
  | cons x xs ih =>
    obtain ⟨h1, h2, h3⟩ := hc
    have hxe : x ≠ e := fun h => he (h ▸ mem_cons_self)
    have hst : s ≠ t := by
      rcases h3.last_mem with e' | ⟨y, hy, e'⟩
      · exact e' ▸ hs x mem_cons_self
      · exact e' ▸ hs y (mem_cons_of_mem _ hy)
    refine ⟨?_, ?_, ?_⟩
    · simp only [Heap.deref_setLast]
      rw [Heap.deref_assign_of_ne _ _ hst, Heap.deref_setPrev,
        Heap.deref_assign_of_ne _ _ hse]
      exact h1
    · simp only [Heap.prev_setLast, Heap.prev_assign]
      rw [Heap.prev_setPrev_of_ne _ _ hxe, Heap.prev_assign]
      exact h2
    · refine ih h3 (fun h => he (mem_cons_of_mem _ h)) (fun h => hxe (by cases h; rfl))
        (fun y hy h => ?_) hnd.of_cons
      cases h
      exact (nodup_cons.mp hnd).1 hy

/-- Inserting an element that is not on the queue puts it at the back. -/
theorem Repr.insertTail (hx : Repr hp h xs)
    (hnd : xs.Nodup) (he : e ∉ xs) : Repr (hp.insertTail h e) h (xs ++ [e]) := by
  have hc := Chain.snoc (h := h) hx he (by simp) (by simp) hnd
  simpa [Repr, Heap.insertTail] using hc

/-- Inserting at one head leaves a disjoint queue at another. -/
theorem Repr.insertTail_other (hx : Repr hp h xs) (hy : Repr hp h' ys) (hne : h' ≠ h) (he : e ∉ ys)
    (hd : ∀ y ∈ ys, y ∉ xs) : Repr (hp.insertTail h e) h' ys := by
  -- the store through `h`'s last slot hits `h` itself or an element of `xs`
  have hlast : ∀ t : Slot η κ, (t = .first h' ∨ ∃ y ∈ ys, t = .next y) → t ≠ (hp.head h).last := by
    rintro t ht e'
    rcases hx.last_mem with e1 | ⟨x, hxm, e1⟩
    · rcases ht with rfl | ⟨y, -, rfl⟩
      · rw [e1] at e'; cases e'; exact hne rfl
      · rw [e1] at e'; cases e'
    · rcases ht with rfl | ⟨y, hym, rfl⟩
      · rw [e1] at e'; cases e'
      · rw [e1] at e'; cases e'; exact hd _ hym hxm
  have hl := Heap.last_insertTail_of_ne hp e hne
  unfold Repr
  rw [hl]
  refine Chain.congr hy ?_ ?_ ?_
  · simp only [Heap.insertTail, Heap.deref_setLast]
    rw [Heap.deref_assign_of_ne _ _ (hlast _ (.inl rfl)), Heap.deref_setPrev,
      Heap.deref_assign_of_ne _ _ (by simp)]
  · intro y hym
    have hye : (Slot.next y : Slot η κ) ≠ .next e := fun h => he (by cases h; exact hym)
    simp only [Heap.insertTail, Heap.deref_setLast]
    rw [Heap.deref_assign_of_ne _ _ (hlast _ (.inr ⟨y, hym, rfl⟩)), Heap.deref_setPrev,
      Heap.deref_assign_of_ne _ _ hye]
  · intro y hym
    have hye : y ≠ e := fun h => he (h ▸ hym)
    simp only [Heap.insertTail, Heap.prev_setLast, Heap.prev_assign]
    rw [Heap.prev_setPrev_of_ne _ _ hye, Heap.prev_assign]

/-! ### Removal -/

/-- The links of an element in the middle of a chain: its `prev` is the slot before it, and the
rest of the chain starts at its `next`. -/
theorem Chain.mid (hc : Chain hp s (as ++ e :: bs) t) :
    (∃ p, (hp.entry e).prev = some p ∧ (p = s ∨ ∃ x ∈ as, p = .next x)) ∧
      Chain hp (.next e) bs t := by
  induction as generalizing s with
  | nil => exact ⟨⟨s, hc.2.1, .inl rfl⟩, hc.2.2⟩
  | cons a as ih =>
    obtain ⟨⟨p, hp', hm⟩, hc'⟩ := ih hc.2.2
    refine ⟨⟨p, hp', .inr ?_⟩, hc'⟩
    rcases hm with rfl | ⟨x, hx, rfl⟩
    · exact ⟨a, mem_cons_self, rfl⟩
    · exact ⟨x, mem_cons_of_mem _ hx, rfl⟩

/-- The successor of an element of a chain is the element after it. -/
theorem Chain.next_eq (hc : Chain hp s (as ++ e :: bs) t) : (hp.entry e).next = bs.head? := by
  have h := hc.mid.2
  cases bs with
  | nil => exact h.1
  | cons b bs => exact h.1

/-- The last slot is that of the last element, or that of the head of an empty queue. -/
theorem Chain.last_eq (hc : Chain hp s xs t) : t = (xs.getLast?.map Slot.next).getD s := by
  induction xs generalizing s with
  | nil => exact hc.2
  | cons x xs ih =>
    rw [ih hc.2.2, List.getLast?_cons]
    cases xs.getLast? <;> rfl

/-- Every element but the last one has a successor. -/
theorem Repr.next_ne_none (hx : Repr hp h xs)
    (he : e ∈ xs) (hl : xs.getLast? ≠ some e) : (hp.entry e).next ≠ none := by
  obtain ⟨as, bs, rfl⟩ := append_of_mem he
  rw [Chain.next_eq hx]
  cases bs with
  | nil => exact absurd List.getLast?_concat hl
  | cons b bs => exact Option.some_ne_none b

/-- `remove` changes the slot that points to `e`, and no other. -/
theorem deref_remove (hpe : (hp.entry e).prev = some p) :
    (hp.remove h e).deref t = if t = p then (hp.entry e).next else hp.deref t := by
  simp only [Heap.remove, hpe]
  by_cases ht : t = p
  · subst ht; simp
  · rw [Heap.deref_assign_of_ne _ _ ht, if_neg ht]
    split <;> simp

/-- `remove` changes the `prev` of `e`'s successor, and no other. -/
theorem prev_remove {k : κ} (hk : (hp.entry e).next ≠ some k) :
    ((hp.remove h e).entry k).prev = (hp.entry k).prev := by
  cases hp' : (hp.entry e).prev with
  | none => simp [Heap.remove, hp']
  | some p =>
    cases hn : (hp.entry e).next with
    | none => simp [Heap.remove, hp', hn]
    | some l =>
      have hkl : k ≠ l := fun e' => hk (e' ▸ hn)
      simp only [Heap.remove, hp', hn, Heap.prev_assign]
      exact Heap.prev_setPrev_of_ne _ _ hkl

theorem Chain.unlink (hc : Chain hp s (as ++ e :: bs) t) (hnd : (as ++ e :: bs).Nodup)
    (hs : ∀ x ∈ as ++ e :: bs, s ≠ .next x) : ∃ t', Chain (hp.remove h e) s (as ++ bs) t' ∧
      (bs = [] → ((hp.remove h e).head h).last = t') ∧ (bs ≠ [] → t' = t) := by
  induction as generalizing s with
  | nil =>
    obtain ⟨h1, h2, h3⟩ := hc
    cases bs with
    | nil =>
      have hn : (hp.entry e).next = none := h3.1
      exact ⟨s, ⟨by simp [Heap.remove, h2, hn], rfl⟩, by simp [Heap.remove, h2, hn], by simp⟩
    | cons b bs =>
      obtain ⟨h4, h5, h6⟩ := h3
      have hn : (hp.entry e).next = some b := h4
      have hb : b ∉ bs := (nodup_cons.mp (nodup_cons.mp hnd).2).1
      refine ⟨t, ⟨by simp [Heap.remove, h2, hn], by simp [Heap.remove, h2, hn], ?_⟩, by simp,
        fun _ => rfl⟩
      refine Chain.congr h6 ?_ (fun x hx => ?_) (fun x hx => ?_)
      · rw [deref_remove h2, if_neg (Ne.symm (hs b (by simp)))]
      · rw [deref_remove h2, if_neg (Ne.symm (hs x (by simp [hx])))]
      · exact prev_remove fun e' => hb (by rw [hn] at e'; cases e'; exact hx)
  | cons a as ih =>
    have hn := hc.next_eq
    obtain ⟨h1, h2, h3⟩ := hc
    have ha := (nodup_cons.mp hnd).1
    obtain ⟨t', hc', ht'⟩ := ih h3 (nodup_cons.mp hnd).2
      (fun x hx h => ha (by cases h; exact hx))
    refine ⟨t', ⟨?_, ?_, hc'⟩, ht'⟩
    · obtain ⟨p, hp', hp''⟩ := h3.mid.1
      rw [deref_remove hp', if_neg ?_, h1]
      rcases hp'' with rfl | ⟨x, hx, rfl⟩
      · exact hs a (by simp)
      · exact hs x (by simp [hx])
    · refine (prev_remove fun e' => ha ?_).trans h2
      rw [hn] at e'
      exact mem_append_right _ (mem_cons_of_mem _ (mem_of_mem_head? e'))

theorem Repr.remove (hx : Repr hp h (as ++ e :: bs)) (hnd : (as ++ e :: bs).Nodup) :
    Repr (hp.remove h e) h (as ++ bs) := by
  obtain ⟨t, hc, h0, h1⟩ := Chain.unlink (h := h) hx hnd (by simp)
  unfold Repr
  cases bs with
  | nil => rw [h0 rfl]; exact hc
  | cons b bs =>
    obtain ⟨p, hp', -⟩ := hx.mid.1
    have hn := hx.next_eq
    have hl : ((hp.remove h e).head h).last = (hp.head h).last := by
      simp [Heap.remove, hp', hn]
    rw [hl, ← h1 (by simp)]
    exact hc

/-- Removing an element from its own queue leaves a disjoint queue at another head. -/
theorem Repr.remove_other (hx : Repr hp h xs) (he : e ∈ xs) (hy : Repr hp h' ys) (hne : h' ≠ h)
    (hd : ∀ y ∈ ys, y ∉ xs) : Repr (hp.remove h e) h' ys := by
  obtain ⟨as, bs, rfl⟩ := append_of_mem he
  obtain ⟨p, hp', hp''⟩ := hx.mid.1
  have hn := hx.next_eq
  have hl := hp.last_remove_of_ne e hne
  unfold Repr
  rw [hl]
  refine Chain.congr hy ?_ (fun y hym => ?_) (fun y hym => ?_)
  · rw [deref_remove hp', if_neg ?_]
    rcases hp'' with rfl | ⟨x, -, rfl⟩
    · exact fun e' => hne (by cases e'; rfl)
    · simp
  · rw [deref_remove hp', if_neg ?_]
    rcases hp'' with rfl | ⟨x, hxm, rfl⟩
    · simp
    · exact fun e' => hd y hym (by cases e'; simp [hxm])
  · refine prev_remove fun e' => hd y hym ?_
    rw [hn] at e'
    exact mem_append_right _ (mem_cons_of_mem _ (mem_of_mem_head? e'))

/-- Removing an element from its own queue, as an erasure. -/
theorem Repr.remove_erase (hx : Repr hp h xs)
    (hnd : xs.Nodup) (he : e ∈ xs) : Repr (hp.remove h e) h (xs.erase e) := by
  obtain ⟨as, bs, rfl⟩ := append_of_mem he
  have hea : e ∉ as := fun h => (nodup_append.mp hnd).2.2 e h e mem_cons_self rfl
  rw [erase_append_right _ hea, erase_cons_head]
  exact hx.remove hnd

/-! ### Disjoint queues -/

/-- Every head is well linked, and the queues are disjoint. -/
structure Queues (hp : Heap η κ) (parts : η → List κ) : Prop where
  repr : ∀ h, Repr hp h (parts h)
  nodup : ∀ h, (parts h).Nodup
  disj : ∀ {h h' : η} {x : κ}, x ∈ parts h → x ∈ parts h' → h = h'

/-- The queues after `e` has gone from `h` to the back of `h'`. -/
def moved (parts : η → List κ) (h h' : η) (e : κ) : η → List κ :=
  update (update parts h ((parts h).erase e)) h' (parts h' ++ [e])

namespace Queues

variable {parts : η → List κ}

theorem init : Queues (Heap.init : Heap η κ) fun _ => [] where
  repr := repr_init
  nodup := fun _ => nodup_nil
  disj := fun hx => absurd hx (by simp)

/-- What is where after `e` has gone to the back of `h`. -/
theorem mem_inserted {x : η} {y : κ} :
    y ∈ update parts h (parts h ++ [e]) x ↔ y = e ∧ x = h ∨ y ∈ parts x := by
  by_cases hx : x = h
  · subst hx
    simp only [update_self, mem_append, mem_singleton, and_true]
    exact or_comm
  · simp only [update_of_ne hx, hx, and_false, false_or]

section

variable (hq : Queues hp parts)
include hq

/-- What is where after `e` has left `h`. -/
theorem mem_removed (he : e ∈ parts h) {x : η} {y : κ} :
    y ∈ update parts h ((parts h).erase e) x ↔ y ≠ e ∧ y ∈ parts x := by
  by_cases hx : x = h
  · subst hx
    rw [update_self, (hq.nodup x).mem_erase_iff]
  · rw [update_of_ne hx]
    exact ⟨fun hy => ⟨fun e' => hx (hq.disj (e' ▸ hy) he), hy⟩, fun hy => hy.2⟩

theorem insert (he : ∀ x, e ∉ parts x) :
    Queues (hp.insertTail h e) (update parts h (parts h ++ [e])) where
  repr := fun x => by
    by_cases hx : x = h
    · subst hx
      rw [update_self]
      exact (hq.repr x).insertTail (hq.nodup x) (he x)
    · rw [update_of_ne hx]
      exact (hq.repr h).insertTail_other (hq.repr x) hx (he x) fun y hy hy' => hx (hq.disj hy hy')
  nodup := fun x => by
    by_cases hx : x = h
    · subst hx
      rw [update_self]
      exact nodup_append.mpr ⟨hq.nodup x, by simp, fun a ha b hb hab => he x (by simp_all)⟩
    · rw [update_of_ne hx]
      exact hq.nodup x
  disj := by
    intro x x' y hy hy'
    rcases mem_inserted.mp hy with ⟨rfl, rfl⟩ | h1 <;>
      rcases mem_inserted.mp hy' with ⟨hye, rfl⟩ | h2
    · rfl
    · exact absurd h2 (he x')
    · exact absurd (hye ▸ h1) (he x)
    · exact hq.disj h1 h2

theorem remove (he : e ∈ parts h) :
    Queues (hp.remove h e) (update parts h ((parts h).erase e)) where
  repr := fun x => by
    by_cases hx : x = h
    · subst hx
      rw [update_self]
      exact (hq.repr x).remove_erase (hq.nodup x) he
    · rw [update_of_ne hx]
      exact (hq.repr h).remove_other he (hq.repr x) hx fun y hy hy' => hx (hq.disj hy hy')
  nodup := fun x => by
    by_cases hx : x = h
    · subst hx
      rw [update_self]
      exact (hq.nodup x).erase e
    · rw [update_of_ne hx]
      exact hq.nodup x
  disj := fun hy hy' => hq.disj ((mem_removed hq he).mp hy).2 ((mem_removed hq he).mp hy').2

theorem mem_moved (he : e ∈ parts h) {k : η} (hne : k ≠ h) {x : η} {y : κ} :
    y ∈ moved parts h k e x ↔ y = e ∧ x = k ∨ y ≠ e ∧ y ∈ parts x := by
  have honly : ∀ {x}, e ∈ parts x → x = h := fun hx => hq.disj hx he
  by_cases hx' : x = k
  · subst hx'
    simp only [moved, update_self, mem_append, mem_singleton, and_true]
    constructor
    · rintro (hy | hy)
      · exact Or.inr ⟨fun e' => hne (honly (e' ▸ hy)), hy⟩
      · exact Or.inl hy
    · rintro (hy | ⟨-, hy⟩)
      · exact Or.inr hy
      · exact Or.inl hy
  · by_cases hx : x = h
    · subst hx
      simp only [moved, update_of_ne hx', update_self,
        (hq.nodup x).mem_erase_iff, hx', and_false, false_or]
    · simp only [moved, update_of_ne hx', update_of_ne hx, hx', and_false,
        false_or]
      exact ⟨fun hy => ⟨fun e' => hx (honly (e' ▸ hy)), hy⟩, fun hy => hy.2⟩

/-- **A move.**  An element taken from its own queue and put at the back of another. -/
theorem move (he : e ∈ parts h) (hne : h' ≠ h) :
    Queues ((hp.remove h e).insertTail h' e) (moved parts h h' e) := by
  have hout : ∀ x, e ∉ update parts h ((parts h).erase e) x := fun x hx =>
    ((mem_removed hq he).mp hx).1 rfl
  have := (hq.remove he).insert (h := h') hout
  rwa [update_of_ne hne] at this

end

end Queues

end TailQueue
