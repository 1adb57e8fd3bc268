import Xztl.Support.TailQueue

/-!
# Support — a fenced part of a heap of tail queues

`remove` and `insertTail` take whatever head they are given, so a heap of tail queues can lose its
shape.  `Fence hp P X S` says that a set `X` of elements is out of the reach of what goes wrong
around it: the slots of `S` hold pointers to the elements of `X`, each to its own, and no slot
outside `S`, no back pointer of an element outside `X` and no head's last slot leads in.  Of the
elements outside `P` nothing is asked; they are never moved.

Moving an element from anywhere to anywhere keeps the fence; an element of `X` leaves it
(`Fence.move_outside`, `Fence.move_inside`).  `Held hp P h n` is the case used for an element `n`
that is never moved itself: the queue at `h` is fenced up to `n`.  It holds of every element of
well-linked queues (**`Queues.held`**) and is kept by every move of another element
(**`Held.move`**).
-/

namespace TailQueue

open List

set_option linter.unusedSectionVars false

variable {η κ : Type}

/-- The slots of the heads and of the elements that satisfy `P`. -/
def Slot.Of (P : κ → Prop) : Slot η κ → Prop
  | .first _ => True
  | .next k => P k

/-- `S` leads to `X`, one slot to one element, and nothing else does. -/
structure Fence (hp : Heap η κ) (P X : κ → Prop) (S : Slot η κ → Prop) : Prop where
  into : ∀ s, S s → ∃ k, X k ∧ hp.deref s = some k ∧ (hp.entry k).prev = some s
  back : ∀ k, X k → ∃ s, S s ∧ hp.deref s = some k ∧ (hp.entry k).prev = some s
  slot : ∀ s k, s.Of P → ¬ S s → hp.deref s = some k → ¬ X k
  prev : ∀ k s, P k → ¬ X k → (hp.entry k).prev = some s → ¬ S s
  last : ∀ h, ¬ S (hp.head h).last

variable [DecidableEq η] [DecidableEq κ]

/-! ### What the two operations store -/

section

variable {hp : Heap η κ} {h : η} {e : κ}

theorem deref_insertTail (t : Slot η κ) : (hp.insertTail h e).deref t =
    if t = (hp.head h).last then some e else if t = .next e then none else hp.deref t := by
  rw [Heap.insertTail, Heap.deref_setLast]
  by_cases h1 : t = (hp.head h).last
  · rw [if_pos h1, h1, Heap.deref_assign_self]
  · rw [if_neg h1, Heap.deref_assign_of_ne _ _ h1, Heap.deref_setPrev]
    by_cases h2 : t = .next e
    · rw [if_pos h2, h2, Heap.deref_assign_self]
    · rw [if_neg h2, Heap.deref_assign_of_ne _ _ h2]

theorem prev_insertTail (k : κ) : ((hp.insertTail h e).entry k).prev =
    if k = e then some (hp.head h).last else (hp.entry k).prev := by
  rw [Heap.insertTail, Heap.prev_setLast, Heap.prev_assign]
  by_cases hk : k = e
  · rw [if_pos hk, hk, Heap.prev_setPrev_self]
  · rw [if_neg hk, Heap.prev_setPrev_of_ne _ _ hk, Heap.prev_assign]

theorem last_insertTail (g : η) : ((hp.insertTail h e).head g).last =
    if g = h then .next e else (hp.head g).last := by
  by_cases hg : g = h
  · rw [if_pos hg, hg, Heap.insertTail, Heap.last_setLast_self]
  · rw [if_neg hg, Heap.last_insertTail_of_ne _ _ hg]

/-- The successor of a removed element takes over its back pointer. -/
theorem prev_remove_next {p : Slot η κ} {k : κ} (hpe : (hp.entry e).prev = some p)
    (hn : (hp.entry e).next = some k) : ((hp.remove h e).entry k).prev = some p := by
  simp only [Heap.remove, hpe, hn, Heap.prev_assign]
  exact Heap.prev_setPrev_self _ _ _

/-- A removal leaves a last slot alone, or puts the element's back pointer there. -/
theorem last_remove (g : η) : ((hp.remove h e).head g).last = (hp.head g).last ∨
    (hp.entry e).next = none ∧ (hp.entry e).prev = some ((hp.remove h e).head g).last := by
  cases hpe : (hp.entry e).prev with
  | none => exact Or.inl (by simp only [Heap.remove, hpe])
  | some p =>
    cases hn : (hp.entry e).next with
    | some k => exact Or.inl (by simp only [Heap.remove, hpe, hn, Heap.last_assign,
        Heap.last_setPrev])
    | none =>
      by_cases hg : g = h
      · refine Or.inr ⟨rfl, ?_⟩
        simp only [hg, Heap.remove, hpe, hn, Heap.last_assign, Heap.last_setLast_self]
      · exact Or.inl (hp.last_remove_of_ne e hg)

end

/-! ### Moves -/

section

variable {hp : Heap η κ} {P X : κ → Prop} {S : Slot η κ → Prop} {h g : η} {e : κ}

theorem Fence.move_outside (hf : Fence hp P X S) (he : P e) (hx : ¬ X e) (hs : ¬ S (.next e)) :
    Fence ((hp.remove h e).insertTail g e) P X S := by
  -- the removal stores between slots and elements outside the fence
  have hr : Fence (hp.remove h e) P X S := by
    cases hpe : (hp.entry e).prev with
    | none =>
      rw [show hp.remove h e = hp by simp only [Heap.remove, hpe]]
      exact hf
    | some p =>
      have hp' : ¬ S p := hf.prev e p he hx hpe
      have hnext : ∀ k, (hp.entry e).next = some k → ¬ X k := fun k hk =>
        hf.slot (.next e) k he hs hk
      have hd : ∀ t, S t → (hp.remove h e).deref t = hp.deref t := fun t ht => by
        have hne : t ≠ p := fun e' => hp' (e' ▸ ht)
        rw [deref_remove hpe, if_neg hne]
      have hv : ∀ k, X k → ((hp.remove h e).entry k).prev = (hp.entry k).prev := fun k hk =>
        prev_remove fun hn => hnext k hn hk
      refine ⟨fun s hs' => ?_, fun k hk => ?_, fun s k hP hs' hk => ?_, fun k s hP hk hv' => ?_,
        fun h' => ?_⟩
      · obtain ⟨k, hk, h1, h2⟩ := hf.into s hs'
        exact ⟨k, hk, (hd s hs').trans h1, (hv k hk).trans h2⟩
      · obtain ⟨s, hs', h1, h2⟩ := hf.back k hk
        exact ⟨s, hs', (hd s hs').trans h1, (hv k hk).trans h2⟩
      · rw [deref_remove hpe] at hk
        split at hk
        · exact hnext k hk
        · exact hf.slot s k hP hs' hk
      · by_cases hn : (hp.entry e).next = some k
        · rw [prev_remove_next hpe hn] at hv'
          exact Option.some.inj hv' ▸ hp'
        · rw [prev_remove hn] at hv'
          exact hf.prev k s hP hk hv'
      · have hcases : ((hp.remove h e).head h').last = (hp.head h').last ∨ _ := last_remove h'
        rcases hcases with hl | ⟨-, hl⟩
        · rw [hl]
          exact hf.last h'
        · rw [hpe] at hl
          exact Option.some.inj hl ▸ hp'
  have hlast := hr.last g
  have hd : ∀ t, S t → ((hp.remove h e).insertTail g e).deref t = (hp.remove h e).deref t :=
    fun t ht => by
      have h1 : t ≠ ((hp.remove h e).head g).last := fun e' => hlast (e' ▸ ht)
      have h2 : t ≠ .next e := fun e' => hs (e' ▸ ht)
      rw [deref_insertTail, if_neg h1, if_neg h2]
  have hv : ∀ k, k ≠ e →
      (((hp.remove h e).insertTail g e).entry k).prev = ((hp.remove h e).entry k).prev :=
    fun k hk => by rw [prev_insertTail, if_neg hk]
  have hne : ∀ k, X k → k ≠ e := fun k hk e' => hx (e' ▸ hk)
  refine ⟨fun s hs' => ?_, fun k hk => ?_, fun s k hP hs' hk => ?_, fun k s hP hk hv' => ?_,
    fun h' => ?_⟩
  · obtain ⟨k, hk, h1, h2⟩ := hr.into s hs'
    exact ⟨k, hk, (hd s hs').trans h1, (hv k (hne k hk)).trans h2⟩
  · obtain ⟨s, hs', h1, h2⟩ := hr.back k hk
    exact ⟨s, hs', (hd s hs').trans h1, (hv k (hne k hk)).trans h2⟩
  · rw [deref_insertTail] at hk
    split at hk
    · exact Option.some.inj hk ▸ hx
    · split at hk
      · cases hk
      · exact hr.slot s k hP hs' hk
  · rw [prev_insertTail] at hv'
    split at hv'
    · exact Option.some.inj hv' ▸ hlast
    · exact hr.prev k s hP hk hv'
  · rw [last_insertTail]
    split
    · exact hs
    · exact hr.last h'

/-- An element of the fenced part is moved: the part closes behind it. -/
theorem Fence.move_inside (hf : Fence hp P X S) (hx : X e) (hs : S (.next e)) :
    Fence ((hp.remove h e).insertTail g e) P (fun k => X k ∧ k ≠ e)
      (fun s => S s ∧ s ≠ .next e) := by
  obtain ⟨p, hSp, hdp, hpe⟩ := hf.back e hx
  obtain ⟨k0, hX0, hn, hk₀⟩ := hf.into (.next e) hs
  have hnext : (hp.entry e).next = some k0 := hn
  have hlast : ∀ h', ((hp.remove h e).head h').last = (hp.head h').last := fun h' =>
    (last_remove h').resolve_right fun h1 => by
      rw [hnext] at h1
      cases h1.1
  -- the successor is another element, unless the element points to itself
  have hself : k0 = e ↔ p = .next e := by
    constructor
    · rintro rfl
      exact Option.some.inj (hpe.symm.trans hk₀)
    · rintro rfl
      exact Option.some.inj (hn.symm.trans hdp)
  have hd : ∀ t, S t → t ≠ .next e → ((hp.remove h e).insertTail g e).deref t =
      if t = p then some k0 else hp.deref t := fun t ht hne => by
    have h1 : t ≠ ((hp.remove h e).head g).last := fun e' => hf.last g (hlast g ▸ e' ▸ ht)
    rw [deref_insertTail, if_neg h1, if_neg hne, deref_remove hpe, hnext]
  have hv : ∀ k, k ≠ e → k ≠ k0 →
      (((hp.remove h e).insertTail g e).entry k).prev = (hp.entry k).prev := fun k hk hk' => by
    rw [prev_insertTail, if_neg hk,
      prev_remove fun hn' => hk' (Option.some.inj (hn'.symm.trans hnext))]
  have hv0 : k0 ≠ e → (((hp.remove h e).insertTail g e).entry k0).prev = some p := fun hk => by
    rw [prev_insertTail, if_neg hk, prev_remove_next hpe hnext]
  refine ⟨?_, ?_, fun s k hP hs' hk => ?_, fun k s hP hk hv' => ?_, fun h' => ?_⟩
  · rintro s ⟨hSs, hne⟩
    by_cases hsp : s = p
    · have hk : k0 ≠ e := fun e' => hne (hsp.trans (hself.mp e'))
      exact ⟨k0, ⟨hX0, hk⟩, by rw [hd s hSs hne, if_pos hsp], hsp ▸ hv0 hk⟩
    · obtain ⟨k, hk, h1, h2⟩ := hf.into s hSs
      have hke : k ≠ e := fun e' => hsp (Option.some.inj ((e' ▸ h2).symm.trans hpe))
      have hk0 : k ≠ k0 := fun e' => hne (Option.some.inj ((e' ▸ h2).symm.trans hk₀))
      exact ⟨k, ⟨hk, hke⟩, by rw [hd s hSs hne, if_neg hsp, h1], (hv k hke hk0).trans h2⟩
  · rintro k ⟨hk, hke⟩
    obtain ⟨s, hSs, h1, h2⟩ := hf.back k hk
    by_cases hk0 : k = k0
    · have hpne : p ≠ .next e := fun e' => hke (hk0.trans (hself.mpr e'))
      exact ⟨p, ⟨hSp, hpne⟩, by rw [hd p hSp hpne, if_pos rfl, hk0], hk0 ▸ hv0 (hk0 ▸ hke)⟩
    · have hne : s ≠ .next e := fun e' => hk0 (Option.some.inj (h1.symm.trans (e' ▸ hn)))
      have hsp : s ≠ p := fun e' => hke (Option.some.inj (h1.symm.trans (e' ▸ hdp)))
      exact ⟨s, ⟨hSs, hne⟩, by rw [hd s hSs hne, if_neg hsp, h1], (hv k hke hk0).trans h2⟩
  · rw [deref_insertTail] at hk
    split at hk
    · exact fun hX => hX.2 (Option.some.inj hk).symm
    · next h1 =>
      split at hk
      · cases hk
      · next h2 =>
        have hSs : ¬ S s := fun h' => hs' ⟨h', h2⟩
        have hsp : s ≠ p := fun e' => hSs (e' ▸ hSp)
        rw [deref_remove hpe, if_neg hsp] at hk
        exact fun hX => hf.slot s k hP hSs hk hX.1
  · rw [prev_insertTail] at hv'
    split at hv'
    · rw [hlast] at hv'
      exact fun hS => hf.last g (Option.some.inj hv' ▸ hS.1)
    · next hke =>
      have hXk : ¬ X k := fun h' => hk ⟨h', hke⟩
      have hk0 : (hp.entry e).next ≠ some k := fun hn' =>
        hXk ((Option.some.inj (hnext.symm.trans hn')) ▸ hX0)
      rw [prev_remove hk0] at hv'
      exact fun hS => hf.prev k s hP hXk hv' hS.1
  · rw [last_insertTail]
    split
    · exact fun hS => hS.2 rfl
    · rw [hlast]
      exact fun hS => hf.last h' hS.1

end

/-! ### An element that is never moved -/

/-- The elements of the queue at `h` up to `n` are fenced, whatever the rest of the heap is like. -/
def Held (hp : Heap η κ) (P : κ → Prop) (h : η) (n : κ) : Prop :=
  ∃ (X : κ → Prop) (S : Slot η κ → Prop), Fence hp P X S ∧ X n ∧
    (∀ k, S (.next k) ↔ X k ∧ k ≠ n) ∧ ∀ g, S (.first g) → g = h

section

variable {hp : Heap η κ} {P : κ → Prop} {h g g' : η} {n e : κ}

/-- **Moving another element** keeps it so. -/
theorem Held.move (hh : Held hp P h n) (he : P e) (hne : e ≠ n) :
    Held ((hp.remove g e).insertTail g' e) P h n := by
  obtain ⟨X, S, hf, hn, hS, hfirst⟩ := hh
  by_cases hx : X e
  · refine ⟨_, _, hf.move_inside hx ((hS e).mpr ⟨hx, hne⟩), ⟨hn, hne.symm⟩, fun k => ?_,
      fun g hg => hfirst g hg.1⟩
    rw [hS k]
    constructor
    · rintro ⟨⟨hXk, hkn⟩, hke⟩
      exact ⟨⟨hXk, fun e' => hke (congrArg _ e')⟩, hkn⟩
    · rintro ⟨⟨hXk, hke⟩, hkn⟩
      refine ⟨⟨hXk, hkn⟩, fun e' => hke ?_⟩
      cases e'
      rfl
  · exact ⟨X, S, hf.move_outside he hx fun hs => hx ((hS e).mp hs).1, hn, hS, hfirst⟩

/-- It does not come first on any other queue. -/
theorem Held.first_ne (hh : Held hp P h n) (hg : g ≠ h) : (hp.head g).first ≠ some n := by
  obtain ⟨X, S, hf, hn, -, hfirst⟩ := hh
  intro e
  exact hf.slot (.first g) n trivial (fun hs => hg (hfirst g hs)) e hn

/-! ### Well-linked queues -/

/-- A slot of a chain that is not null leads to an element of it, and the element leads back. -/
theorem Chain.next_mem {s t p : Slot η κ} {xs : List κ} {k : κ} (hc : Chain hp s xs t)
    (hp' : p = s ∨ ∃ x ∈ xs, p = .next x) (hd : hp.deref p = some k) :
    k ∈ xs ∧ (hp.entry k).prev = some p := by
  induction xs generalizing s with
  | nil =>
    rcases hp' with rfl | ⟨x, hx, -⟩
    · rw [hc.1] at hd
      cases hd
    · cases hx
  | cons x xs ih =>
    rcases hp' with rfl | ⟨y, hy, rfl⟩
    · obtain rfl : x = k := Option.some.inj (hc.1.symm.trans hd)
      exact ⟨mem_cons_self, hc.2.1⟩
    · have hy' : (Slot.next y : Slot η κ) = .next x ∨
          ∃ x' ∈ xs, (.next y : Slot η κ) = .next x' := by
        rcases mem_cons.mp hy with rfl | hy
        · exact Or.inl rfl
        · exact Or.inr ⟨y, hy, rfl⟩
      obtain ⟨h1, h2⟩ := ih hc.2.2 hy'
      exact ⟨mem_cons_of_mem _ h1, h2⟩

/-- The elements of a chain up to one of them, and the slots that lead to them. -/
theorem Chain.linked {s t : Slot η κ} {as bs : List κ} (hc : Chain hp s (as ++ e :: bs) t) :
    (∀ p, (p = s ∨ ∃ x ∈ as, p = .next x) →
      ∃ k, (k ∈ as ∨ k = e) ∧ hp.deref p = some k ∧ (hp.entry k).prev = some p) ∧
    ∀ k, (k ∈ as ∨ k = e) →
      ∃ p, (p = s ∨ ∃ x ∈ as, p = .next x) ∧ hp.deref p = some k ∧ (hp.entry k).prev = some p := by
  induction as generalizing s with
  | nil =>
    refine ⟨?_, ?_⟩
    · rintro p (rfl | ⟨x, hx, -⟩)
      · exact ⟨e, Or.inr rfl, hc.1, hc.2.1⟩
      · cases hx
    · rintro k (hk | rfl)
      · cases hk
      · exact ⟨s, Or.inl rfl, hc.1, hc.2.1⟩
  | cons a as ih =>
    obtain ⟨h1, h2⟩ := ih hc.2.2
    refine ⟨?_, ?_⟩
    · rintro p (rfl | ⟨x, hx, rfl⟩)
      · exact ⟨a, Or.inl mem_cons_self, hc.1, hc.2.1⟩
      · obtain ⟨k, hk, h⟩ := h1 (.next x) (by
          rcases mem_cons.mp hx with rfl | hx
          · exact Or.inl rfl
          · exact Or.inr ⟨x, hx, rfl⟩)
        exact ⟨k, hk.imp_left (mem_cons_of_mem _), h⟩
    · intro k hk
      by_cases hka : k = a
      · exact ⟨s, Or.inl rfl, hka ▸ hc.1, hka ▸ hc.2.1⟩
      · obtain ⟨p, hp', h⟩ := h2 k (hk.imp_left fun hm => (mem_cons.mp hm).resolve_left hka)
        refine ⟨p, Or.inr ?_, h⟩
        rcases hp' with rfl | ⟨x, hx, rfl⟩
        · exact ⟨a, mem_cons_self, rfl⟩
        · exact ⟨x, mem_cons_of_mem _ hx, rfl⟩

theorem Chain.deref_last {s t : Slot η κ} {xs : List κ} (hc : Chain hp s xs t) :
    hp.deref t = none := by
  induction xs generalizing s with
  | nil => exact hc.2 ▸ hc.1
  | cons x xs ih => exact ih hc.2.2

/-- **Well-linked queues.**  Every element is held by its own queue. -/
theorem Queues.held {parts : η → List κ} (hq : Queues hp parts) (hn : n ∈ parts h) :
    Held hp (fun k => ∃ g, k ∈ parts g) h n := by
  obtain ⟨as, bs, hsplit⟩ := append_of_mem hn
  have hrep := hq.repr h
  rw [hsplit] at hrep
  have hnd := hq.nodup h
  rw [hsplit] at hnd
  obtain ⟨hinto, hback⟩ := Chain.linked hrep
  refine ⟨fun k => k ∈ as ∨ k = n, fun p => p = .first h ∨ ∃ x ∈ as, p = .next x,
    ⟨hinto, hback, fun s k hP hs hk hX => ?_, fun k s hP hX hv hS => ?_, fun g hS => ?_⟩,
    Or.inr rfl, fun k => ?_, fun g hg => ?_⟩
  · -- a slot that leads in is a slot of this queue, and the back pointer tells which
    obtain ⟨p, hp', -, hpk⟩ := hback k hX
    obtain ⟨g, hg⟩ : ∃ g, s = .first g ∨ ∃ x ∈ parts g, s = .next x := by
      cases s with
      | first g => exact ⟨g, Or.inl rfl⟩
      | next x =>
        obtain ⟨g, hx⟩ := hP
        exact ⟨g, Or.inr ⟨x, hx, rfl⟩⟩
    obtain ⟨-, hps⟩ := Chain.next_mem (hq.repr g) hg hk
    exact hs (Option.some.inj (hpk.symm.trans hps) ▸ hp')
  · obtain ⟨k', hk', hd, -⟩ := hinto s hS
    obtain ⟨g, hkg⟩ := hP
    obtain ⟨cs, ds, hg⟩ := append_of_mem hkg
    have hrg := hq.repr g
    rw [hg] at hrg
    obtain ⟨p, -, hdp, hvp⟩ := (Chain.linked hrg).2 k (Or.inr rfl)
    have hsp : s = p := Option.some.inj (hv.symm.trans hvp)
    rw [← hsp, hd] at hdp
    exact hX (Option.some.inj hdp ▸ hk')
  · obtain ⟨k, -, hd, -⟩ := hinto _ hS
    rw [Chain.deref_last (hq.repr g)] at hd
    cases hd
  · constructor
    · rintro (hk | ⟨x, hx, hk⟩)
      · cases hk
      · cases hk
        refine ⟨Or.inl hx, fun e' => ?_⟩
        rw [nodup_append] at hnd
        exact hnd.2.2 _ hx n mem_cons_self e'
    · rintro ⟨hk | rfl, hne⟩
      · exact Or.inr ⟨k, hk, rfl⟩
      · exact absurd rfl hne
  · rcases hg with hg | ⟨x, -, hg⟩
    · cases hg
      rfl
    · cases hg

end

end TailQueue
