import Xztl.Ztl.Alloc

/-!
# Ztl — a freshly initialised group (`ztl-pro-grp.c`, `ztl_pro_grp_node_init`)

The state the initialisation builds from a report in which every zone is empty: each node takes the
next 64 zones, is marked free and goes to the back of the free list.  Zones are numbered in 20 bits,
and a zone whose number does not fit is passed over, so a group of complete nodes has at most
`2 ^ 20` zones.
-/

namespace Xztl

open Function List
open TailQueue (Heap Queues)

/-- The number of nodes of a group whose zones all have a 20-bit number. -/
structure GroupSize where
  nnodes : Nat
  fits : metadataZoneNum + ztlProZoneNumInnode * nnodes ≤ 2 ^ 20

/-- A group of one node. -/
def oneNode : GroupSize := ⟨1, by decide⟩

/-- A device nothing was written to. -/
def Dev.blank : Dev := ⟨fun _ _ => 0, []⟩

/-- A node on empty zones. -/
def Node.fresh (n : Nat) : Node where
  id := n
  vzones i := ztlProZoneNumInnode * n + i
  left := ztlProOptSecNumInnode
  used := 0
  nrFinishErr := 0
  nrResetErr := 0
  nrValid := 0
  status := .free
  level := -1

/-- An empty zone, the `j`-th behind the metadata zones. -/
def Zone.fresh (j : Nat) : Zone where
  zone := j + metadataZoneNum
  sect := (j + metadataZoneNum) * ztlProSecNumInzone
  capacity := ztlProSecNumInzone
  wptr := (j + metadataZoneNum) * ztlProSecNumInzone
  wptrInflight := (j + metadataZoneNum) * ztlProSecNumInzone

/-- The free list, filled node by node. -/
def freeList (n : Nat) : Heap NodeList Nat :=
  (List.range n).foldl (fun l i => l.insertTail .freeHead i) Heap.init

/-- A group of empty zones. -/
def Ztl.fresh (g : GroupSize) (dev : Dev) : Ztl where
  nnodes := g.nnodes
  vnodes := Node.fresh
  vzones := Zone.fresh
  lists := freeList g.nnodes
  nfree := g.nnodes
  qnode := fun _ => none
  submitHead := []
  dev := dev

/-- The lists of a fresh group: everything is free. -/
def freshParts (n : Nat) : NodeList → List Nat
  | .freeHead => List.range n
  | _ => []

theorem queues_freeList (n : Nat) : Queues (freeList n) (freshParts n) := by
  induction n with
  | zero =>
    have he : freshParts 0 = fun _ => [] := by
      funext l
      cases l <;> rfl
    rw [he]
    exact Queues.init
  | succ n ih =>
    have hparts : freshParts (n + 1)
        = update (freshParts n) .freeHead (freshParts n .freeHead ++ [n]) := by
      funext l
      cases l with
      | freeHead => rw [update_self]; exact range_succ
      | usedHead => rw [update_of_ne (by simp)]; rfl
      | fullHead => rw [update_of_ne (by simp)]; rfl
    have hlist : freeList (n + 1) = (freeList n).insertTail .freeHead n := by
      simp only [freeList, range_succ, foldl_append, foldl_cons, foldl_nil]
    rw [hparts, hlist]
    refine ih.insert fun l hl => ?_
    cases l with
    | freeHead => exact absurd (mem_range.mp hl) (lt_irrefl n)
    | usedHead => cases hl
    | fullHead => cases hl

theorem freeList_within (N : Nat) : (freeList N).Within (· < N) := by
  have h : ∀ is : List Nat, (∀ i ∈ is, i < N) → ∀ l : TailQueue.Heap NodeList Nat,
      l.Within (· < N) → (is.foldl (fun l i => l.insertTail .freeHead i) l).Within (· < N) := by
    intro is
    induction is with
    | nil => exact fun _ l hl => hl
    | cons i is ih =>
      intro his l hl
      obtain ⟨hi, his⟩ := forall_mem_cons.mp his
      exact ih his _ (hl.insertTail hi)
  exact h _ (fun i hi => mem_range.mp hi) _ TailQueue.Heap.within_init

theorem Alloc.fresh (g : GroupSize) (dev : Dev) :
    Alloc (Ztl.fresh g dev) (freshParts g.nnodes) where
  geometry := ⟨fun _ _ _ _ => rfl, fun _ _ => rfl, fun _ _ => rfl⟩
  placed := fun n _ i hi => by
    have h0 : unitsAt 0 i = 0 := by simp only [unitsAt, ztlProZoneNumInnode] at *; omega
    show _ = _ + ztlIoSecMcmd * unitsAt 0 i
    rw [h0, Nat.mul_zero, Nat.add_zero]
    rfl
  small := by
    have := g.fits
    simp only [metadataZoneNum, ztlProZoneNumInnode] at this
    show g.nnodes ≤ _
    omega
  balance := fun _ _ => Nat.zero_add _
  queues := queues_freeList g.nnodes
  mem := fun n => by
    constructor
    · rintro ⟨_ | _ | _, h⟩
      · exact mem_range.mp h
      · cases h
      · cases h
    · exact fun h => ⟨.freeHead, mem_range.mpr h⟩
  nfree := (length_range).symm
  free := fun _ _ => ⟨rfl, rfl, rfl, rfl, rfl⟩
  used := fun _ h => by cases h
  full := fun _ h => by cases h
  current := fun h => by cases h
  owned := fun n h => by cases h
  inj := fun h => (by cases h)

end Xztl
