import Mathlib.Algebra.Group.Nat.Defs
import Xztl.Support.Mutex
import Xztl.Support.Runs

/-!
# Env — the lock of a file's map

A `ZNSReadLock` takes `writer_mtx_` only to count its thread in `readers_`; a `ZNSWriteLock` keeps
the mutex and spins until the count is zero.  A read copies the map under the first, and
`MigrateNodeFile` trims the old pieces and stores the new map under the second.

Threads are interleaved at the steps of the two classes: the mutex's acquisition, the increment, the
mutex's release, the decrement and each test of `readers_`.  `readers_` is an `int`.  It counts
threads, each of which has an identifier of its own among the positive values of `pid_t`, which is
an `int` too, so it does not overflow (`ThreadIds`).

**A writer is alone** (`map_lock_exclusion`): while a thread has a `ZNSWriteLock`, no other has one
and none has, or is constructing, a `ZNSReadLock`.  So the map that a read has copied is the file's
map until the read is over.
-/

namespace Xztl

open Function

/-! ### The two locks -/

/-- Where a thread is: outside both classes, in or after the constructor of a `ZNSReadLock`, in or
after that of a `ZNSWriteLock`.  A thread that `reads` has the map it has copied, if it already
has. -/
inductive LockPc (α : Type) where
  | idle
  | readLocked
  | readCounted
  | reads (copy : Option α)
  | writeLocked
  | writes
deriving DecidableEq, Repr

/-- The fields of `ZNSFile` that the locks protect and use, and the threads. -/
structure MapLock (ι α : Type) where
  writerMtx : Option ι
  readers : Int32
  map : α
  pc : ι → LockPc α

/-- The steps of the threads: a constructor's first, the next one of the thread, and the change of
the map by a thread that has the write lock. -/
inductive LockOp (ι α : Type) where
  | readLock (t : ι)
  | writeLock (t : ι)
  | next (t : ι)
  | assign (t : ι) (map : α)

section
variable {ι α : Type} [DecidableEq ι]

/-- Nobody has a lock. -/
def MapLock.start (map : α) : MapLock ι α := ⟨none, 0, map, fun _ => .idle⟩

/-- Move one thread. -/
def MapLock.goto (s : MapLock ι α) (t : ι) (p : LockPc α) : MapLock ι α :=
  { s with pc := update s.pc t p }

/-- The next step of thread `t`. -/
def MapLock.next (s : MapLock ι α) (t : ι) : Option (MapLock ι α) :=
  match s.pc t with
  | .idle => none
  | .readLocked => some ({ s with readers := s.readers + 1 }.goto t .readCounted)
  | .readCounted => some ({ s with writerMtx := none }.goto t (.reads none))
  | .reads none => some (s.goto t (.reads (some s.map)))
  | .reads (some _) => some ({ s with readers := s.readers - 1 }.goto t .idle)
  | .writeLocked => if s.readers > 0 then some s else some (s.goto t .writes)
  | .writes => some ({ s with writerMtx := none }.goto t .idle)

/-- `writer_mtx_.lock()` of an idle thread, which goes to `p`.  A thread waits at a mutex that
another has. -/
def MapLock.lock (s : MapLock ι α) (t : ι) (p : LockPc α) : Option (MapLock ι α) :=
  match s.writerMtx, s.pc t with
  | none, .idle => some ({ s with writerMtx := some t }.goto t p)
  | _, _ => none

/-- One step. -/
def MapLock.step (s : MapLock ι α) : LockOp ι α → Option (MapLock ι α)
  | .readLock t => s.lock t .readLocked
  | .writeLock t => s.lock t .writeLocked
  | .next t => s.next t
  | .assign t map =>
    match s.pc t with
    | .writes => some { s with map := map }
    | _ => none

end

/-- The control points at which a thread has the mutex. -/
def LockPc.HasMutex {α : Type} : LockPc α → Prop
  | .readLocked | .readCounted | .writeLocked | .writes => True
  | .idle | .reads _ => False

/-- The control points at which a thread is counted in `readers_`. -/
def LockPc.Counted {α : Type} : LockPc α → Prop
  | .readCounted | .reads _ => True
  | .idle | .readLocked | .writeLocked | .writes => False

instance {α : Type} : DecidablePred (LockPc.Counted (α := α)) := fun p => by
  cases p <;> unfold LockPc.Counted <;> infer_instance

/-- The control points of a `ZNSReadLock`, from the first step of its constructor to its
destructor. -/
def LockPc.Reader {α : Type} : LockPc α → Prop
  | .readLocked | .readCounted | .reads _ => True
  | .idle | .writeLocked | .writes => False

/-! ### What one step does -/

section
variable {ι α : Type} [DecidableEq ι] {s s' : MapLock ι α} {t w : ι} {p : LockPc α}

/-- The steps by what they do. -/
inductive MapLock.Moves (s : MapLock ι α) : MapLock ι α → Prop where
  | acquire {t : ι} {p : LockPc α} (hfree : s.writerMtx = none) (hpc : s.pc t = .idle)
      (hp : p = .readLocked ∨ p = .writeLocked) :
      s.Moves ({ s with writerMtx := some t }.goto t p)
  | count {t : ι} (hpc : s.pc t = .readLocked) :
      s.Moves ({ s with readers := s.readers + 1 }.goto t .readCounted)
  | unlock {t : ι} (hpc : s.pc t = .readCounted) :
      s.Moves ({ s with writerMtx := none }.goto t (.reads none))
  | copy {t : ι} (hpc : s.pc t = .reads none) : s.Moves (s.goto t (.reads (some s.map)))
  | uncount {t : ι} {m : α} (hpc : s.pc t = .reads (some m)) :
      s.Moves ({ s with readers := s.readers - 1 }.goto t .idle)
  | spin : s.Moves s
  | enter {t : ι} (hpc : s.pc t = .writeLocked) (hr : ¬ s.readers > 0) :
      s.Moves (s.goto t .writes)
  | leave {t : ι} (hpc : s.pc t = .writes) : s.Moves ({ s with writerMtx := none }.goto t .idle)
  | assign {t : ι} {map : α} (hpc : s.pc t = .writes) : s.Moves { s with map := map }

theorem MapLock.next_moves (h : s.next t = some s') : s.Moves s' := by
  unfold MapLock.next at h
  split at h
  · cases h
  · cases h
    exact .count ‹_›
  · cases h
    exact .unlock ‹_›
  · cases h
    exact .copy ‹_›
  · cases h
    exact .uncount ‹_›
  · split_ifs at h with hr
    · cases h
      exact .spin
    · cases h
      exact .enter ‹_› hr
  · cases h
    exact .leave ‹_›

theorem MapLock.lock_moves (hp : p = .readLocked ∨ p = .writeLocked)
    (h : s.lock t p = some s') : s.Moves s' := by
  unfold MapLock.lock at h
  split at h
  · cases h
    exact .acquire ‹_› ‹_› hp
  · cases h

theorem MapLock.step_moves {op : LockOp ι α} (h : s.step op = some s') : s.Moves s' := by
  cases op with
  | readLock t => exact MapLock.lock_moves (.inl rfl) h
  | writeLock t => exact MapLock.lock_moves (.inr rfl) h
  | next t => exact MapLock.next_moves h
  | assign t map =>
    simp only [MapLock.step] at h
    split at h
    · cases h
      exact .assign ‹_›
    · cases h

/-- After a step of thread `t` to a control point other than `writes`, a writer is one that was
there before. -/
theorem MapLock.writer_before
    (hw : update s.pc t p w = .writes) (hp : p ≠ .writes) : w ≠ t ∧ s.pc w = .writes := by
  rcases eq_or_ne w t with rfl | hne
  · rw [update_self] at hw
    exact absurd hw hp
  · rw [update_of_ne hne] at hw
    exact ⟨hne, hw⟩

end

/-! ### The invariant -/

/-- The thread identifiers are positive values of `pid_t`, a 32-bit signed integer. -/
def ThreadIds (ι : Type) [Fintype ι] : Prop := Fintype.card ι < 2 ^ 31

section
variable {ι α : Type} [Fintype ι] {s s' : MapLock ι α} {t : ι} {p : LockPc α}

/-- `writer_mtx_` and `readers_` say where the threads are, a writer has waited for every reader,
and what a reader has copied is the map. -/
structure MapLock.Inv (s : MapLock ι α) : Prop where
  mutex : Guarded s.writerMtx s.pc LockPc.HasMutex
  count : s.readers.toInt = population s.pc LockPc.Counted
  alone : ∀ w, s.pc w = .writes → population s.pc LockPc.Counted = 0
  copies : ∀ t m, s.pc t = .reads (some m) → m = s.map

theorem MapLock.Inv.start (map : α) : (MapLock.start map : MapLock ι α).Inv where
  mutex _ := iff_of_false id nofun
  count := by
    have hnone : population (fun _ : ι => (LockPc.idle : LockPc α)) LockPc.Counted = 0 := by
      unfold population
      rw [Finset.card_eq_zero, Finset.filter_eq_empty_iff]
      exact fun _ _ => id
    rw [show (MapLock.start map : MapLock ι α).pc = fun _ => .idle from rfl, hnone]
    rfl
  alone _ h := by cases h
  copies _ _ h := by cases h

namespace MapLock.Inv

/-- A thread that has the mutex is the only one that can have the write lock. -/
theorem writer_eq (h : s.Inv) (ht : (s.pc t).HasMutex) (hw : s.pc w = .writes) : w = t :=
  h.mutex.eq (by rw [hw]; exact trivial) ht

/-- A writer has waited for every reader, so no copy of the old map is left. -/
theorem assign (h : s.Inv) (map : α) (hpc : s.pc t = .writes) : { s with map := map }.Inv := by
  refine ⟨h.mutex, h.count, h.alone, ?_⟩
  intro u m hu
  have hpos : 0 < population s.pc LockPc.Counted :=
    population_pos (t := u) (by rw [show s.pc u = _ from hu]; exact trivial)
  have hzero := h.alone t hpc
  omega

variable [DecidableEq ι]

/-- A step of thread `t` that keeps `readers_` in step with the threads and the map as it is. -/
theorem goto (h : s.Inv) {lock : Option ι} {readers : Int32}
    (hmutex : Guarded lock (update s.pc t p) LockPc.HasMutex)
    (hcount : readers.toInt = population (update s.pc t p) LockPc.Counted)
    (halone : ∀ w, update s.pc t p w = .writes → population (update s.pc t p) LockPc.Counted = 0)
    (hcopy : ∀ m, p = .reads (some m) → m = s.map) :
    ({ s with writerMtx := lock, readers := readers }.goto t p).Inv where
  mutex := hmutex
  count := hcount
  alone := halone
  copies u m hu := by
    change update s.pc t p u = _ at hu
    rcases eq_or_ne u t with rfl | hne
    · rw [update_self] at hu
      exact hcopy m hu
    · rw [update_of_ne hne] at hu
      exact h.copies u m hu

/-- While a thread has the mutex, no other gets or has the write lock. -/
theorem no_other_writer (h : s.Inv) (ht : (s.pc t).HasMutex)
    (hw : update s.pc t p w = .writes) (hp : p ≠ .writes) : False := by
  obtain ⟨hne, hold⟩ := MapLock.writer_before hw hp
  exact hne (h.writer_eq ht hold)

theorem acquire (h : s.Inv) (hfree : s.writerMtx = none)
    (hpc : s.pc t = .idle) (hp : p = .readLocked ∨ p = .writeLocked) :
    ({ s with writerMtx := some t }.goto t p).Inv := by
  have hin : p.HasMutex ∧ ¬ p.Counted ∧ p ≠ .writes ∧ ∀ m, p ≠ .reads (some m) := by
    rcases hp with rfl | rfl <;> exact ⟨trivial, id, nofun, nofun⟩
  obtain ⟨hhas, hcounted, hwrites, hreads⟩ := hin
  have hstay := population_stay s.pc (t := t) (Q := LockPc.Counted)
    (iff_of_false hcounted (by rw [hpc]; exact id))
  have hmutex := h.mutex
  rw [hfree] at hmutex
  refine h.goto (hmutex.acquire hhas) (h.count.trans (by rw [hstay])) ?_
    fun m hr => absurd hr (hreads m)
  intro w hw
  obtain ⟨-, hold⟩ := MapLock.writer_before hw hwrites
  exact absurd ((hmutex w).mp (by rw [hold]; exact trivial)) nofun

theorem counted (hι : ThreadIds ι) (h : s.Inv) (hpc : s.pc t = .readLocked) :
    ({ s with readers := s.readers + 1 }.goto t .readCounted).Inv := by
  have hmutex : (s.pc t).HasMutex := by rw [hpc]; exact trivial
  have henter := population_enter s.pc (t := t) (p := .readCounted)
    (Q := LockPc.Counted) (by rw [hpc]; exact id) trivial
  have hle := population_le_card (update s.pc t .readCounted) LockPc.Counted
  refine h.goto (h.mutex.move (iff_of_true trivial hmutex)) ?_
    (fun w hw => (h.no_other_writer hmutex hw nofun).elim) nofun
  unfold ThreadIds at hι
  rw [henter] at hle ⊢
  rw [Int32.toInt_add, h.count, show (1 : Int32).toInt = 1 from rfl,
    Int.bmod_eq_of_le (by omega) (by omega)]
  omega

theorem unlock (h : s.Inv) (hpc : s.pc t = .readCounted) :
    ({ s with writerMtx := none }.goto t (.reads none)).Inv := by
  have hmutex : (s.pc t).HasMutex := by rw [hpc]; exact trivial
  have hstay := population_stay s.pc (t := t) (p := .reads none) (Q := LockPc.Counted)
    (iff_of_true trivial (by rw [hpc]; exact trivial))
  exact h.goto (h.mutex.release hmutex id) (h.count.trans (by rw [hstay]))
    (fun w hw => (h.no_other_writer hmutex hw nofun).elim) nofun

theorem copy (h : s.Inv) (hpc : s.pc t = .reads none) : (s.goto t (.reads (some s.map))).Inv := by
  have hstay := population_stay s.pc (t := t) (p := .reads (some s.map))
    (Q := LockPc.Counted) (iff_of_true trivial (by rw [hpc]; exact trivial))
  refine h.goto (h.mutex.move (iff_of_false id (by rw [hpc]; exact id)))
    (h.count.trans (by rw [hstay])) ?_ (fun m hm => by cases hm; rfl)
  intro w hw
  rw [hstay]
  exact h.alone w (MapLock.writer_before hw nofun).2

theorem uncount (hι : ThreadIds ι) (h : s.Inv) {m : α} (hpc : s.pc t = .reads (some m)) :
    ({ s with readers := s.readers - 1 }.goto t .idle).Inv := by
  have hleave := population_leave s.pc (t := t) (p := .idle) (Q := LockPc.Counted)
    (by rw [hpc]; exact trivial) id
  have hle := population_le_card s.pc LockPc.Counted
  refine h.goto (h.mutex.move (iff_of_false id (by rw [hpc]; exact id))) ?_ ?_ nofun
  · unfold ThreadIds at hι
    rw [Int32.toInt_sub, h.count, show (1 : Int32).toInt = 1 from rfl,
      Int.bmod_eq_of_le (by omega) (by omega)]
    omega
  · intro w hw
    have hzero := h.alone w (MapLock.writer_before hw nofun).2
    omega

theorem enter (h : s.Inv) (hpc : s.pc t = .writeLocked) (hr : ¬ s.readers > 0) :
    (s.goto t .writes).Inv := by
  have hmutex : (s.pc t).HasMutex := by rw [hpc]; exact trivial
  have hstay := population_stay s.pc (t := t) (p := .writes) (Q := LockPc.Counted)
    (iff_of_false id (by rw [hpc]; exact id))
  refine h.goto (h.mutex.move (iff_of_true trivial hmutex)) (h.count.trans (by rw [hstay])) ?_
    nofun
  intro w _
  have hcount := h.count
  rw [gt_iff_lt, Int32.lt_iff_toInt_lt, show (0 : Int32).toInt = 0 from rfl] at hr
  rw [hstay]
  omega

theorem leave (h : s.Inv) (hpc : s.pc t = .writes) :
    ({ s with writerMtx := none }.goto t .idle).Inv := by
  have hmutex : (s.pc t).HasMutex := by rw [hpc]; exact trivial
  have hstay := population_stay s.pc (t := t) (p := .idle) (Q := LockPc.Counted)
    (iff_of_false id (by rw [hpc]; exact id))
  exact h.goto (h.mutex.release hmutex id) (h.count.trans (by rw [hstay]))
    (fun w hw => (h.no_other_writer hmutex hw nofun).elim) nofun

end MapLock.Inv

theorem MapLock.Inv.step [DecidableEq ι] (hι : ThreadIds ι) (h : s.Inv) {op : LockOp ι α}
    (hs : s.step op = some s') : s'.Inv := by
  cases MapLock.step_moves hs with
  | acquire hfree hpc hp => exact h.acquire hfree hpc hp
  | count hpc => exact h.counted hι hpc
  | unlock hpc => exact h.unlock hpc
  | copy hpc => exact h.copy hpc
  | uncount hpc => exact h.uncount hι hpc
  | spin => exact h
  | enter hpc hr => exact h.enter hpc hr
  | leave hpc => exact h.leave hpc
  | assign hpc => exact h.assign _ hpc

end

/-! ### The exclusion -/

/-- A writer is alone, and the reads in progress have the map of the file. -/
structure MapLock.Exclusive {ι α : Type} (s : MapLock ι α) : Prop where
  readWrite : ∀ r w, (s.pc r).Reader → s.pc w ≠ .writes
  writeWrite : ∀ w w', s.pc w = .writes → s.pc w' = .writes → w = w'
  copies : ∀ r m, s.pc r = .reads (some m) → m = s.map

theorem MapLock.Inv.exclusive {ι α : Type} [Fintype ι] {s : MapLock ι α} (h : s.Inv) :
    s.Exclusive where
  readWrite r w hr hw := by
    have hmutex := h.writer_eq (t := r) (w := w)
    cases hpc : s.pc r with
    | readLocked | readCounted =>
      have hrw := hmutex (by rw [hpc]; exact trivial) hw
      rw [hrw, hpc] at hw
      cases hw
    | reads copy =>
      have hpos : 0 < population s.pc LockPc.Counted :=
        population_pos (t := r) (by rw [hpc]; exact trivial)
      have hzero := h.alone w hw
      omega
    | idle | writeLocked | writes =>
      rw [hpc] at hr
      exact hr
  writeWrite w w' hw hw' := h.writer_eq (by rw [hw']; exact trivial) hw
  copies := h.copies

/-- **A writer is alone** in every interleaving of the threads of a process. -/
theorem map_lock_exclusion {ι α : Type} [DecidableEq ι] [Fintype ι] (hι : ThreadIds ι) {map : α}
    {ops : List (LockOp ι α)} {s : MapLock ι α}
    (h : Runs MapLock.step (fun _ _ => True) (MapLock.start map) ops s) : s.Exclusive :=
  (h.invariant (fun _ _ _ hs _ hstep => MapLock.Inv.step hι hs hstep)
    (MapLock.Inv.start map)).exclusive

/-- A read, a writer that waits for it at its mutex, and the change of the map. -/
theorem map_lock_exclusion_three :
    ∃ s : MapLock (Fin 3) Nat, Runs MapLock.step (fun _ _ => True) (MapLock.start 1)
      [.readLock 0, .next 0, .next 0, .writeLock 1, .next 1, .next 0, .next 0, .next 1,
        .assign 1 2] s ∧ s.map = 2 ∧ s.pc 1 = .writes ∧ s.Exclusive := by
  obtain ⟨s, hrun, hmap, hpc⟩ : ∃ s : MapLock (Fin 3) Nat,
      Runs MapLock.step (fun _ _ => True) (MapLock.start 1)
        [.readLock 0, .next 0, .next 0, .writeLock 1, .next 1, .next 0, .next 0, .next 1,
          .assign 1 2] s ∧ s.map = 2 ∧ s.pc 1 = .writes :=
    ⟨_, .of_foldlM rfl, rfl, rfl⟩
  exact ⟨s, hrun, hmap, hpc, map_lock_exclusion (by unfold ThreadIds; decide) hrun⟩

end Xztl
