import Xztl.Support.Mutex
import Xztl.Zrocks.Depth

/-!
# Zrocks — the resources of reads

A read borrows one of `zndmedia.read_ctx_num` resources (a queue and its buffers) from the array
`read_resource`, which has `XZTL_READ_RS_NUM` entries.  `_ztl_io_get_read_rs` looks for a free one
under `rs_mutex`; `_ztl_io_put_read_rs` gives it back with no lock.

**No two reads share a resource** (`ReadRs.Inv.exclusive`): a flag is set only under the mutex, and
cleared only by the read that set it.  How many resources there are depends on the backend and on
the number of processors, and only the array's size bounds what is safe
(`read_resources_iff`).
-/

namespace Xztl

open Function

/-! ### Initialisation -/

/-- The second loop of `ztl_io_init`, with `left` resources to go: the indices whose resource
`_ztl_io_read_rs_init` is called for, and whether all calls succeed. -/
def initReads (initOk : Nat → Bool) : (left rn : Nat) → List Nat × Bool
  | 0, _ => ([], true)
  | left + 1, rn =>
    if initOk rn then
      let rest := initReads initOk left (rn + 1)
      (rn :: rest.1, rest.2)
    else ([rn], false)

/-- The resources that `ztl_io_init` initialises. -/
def ztlIoInit (m : MediaCtx) (initOk : Nat → Bool) : List Nat × Bool :=
  initReads initOk m.readCtxNum 0

theorem mem_initReads {initOk : Nat → Bool} {left rn i : Nat}
    (h : i ∈ (initReads initOk left rn).1) : i < rn + left := by
  induction left generalizing rn with
  | zero => cases h
  | succ left ih =>
    unfold initReads at h
    split_ifs at h with hok
    · rcases List.mem_cons.mp h with rfl | hin
      · omega
      · have hlt := ih hin
        omega
    · rw [List.mem_singleton] at h
      omega

/-- Where every call succeeds, every index is initialised. -/
theorem initReads_true {left rn i : Nat} (hlo : rn ≤ i) (hhi : i < rn + left) :
    i ∈ (initReads (fun _ => true) left rn).1 := by
  induction left generalizing rn with
  | zero => omega
  | succ left ih =>
    rcases Nat.eq_or_lt_of_le hlo with rfl | hlt
    · exact List.mem_cons_self
    · exact List.mem_cons_of_mem _ (ih hlt (by omega))

/-- The first resource is there if the initialisation succeeds. -/
theorem zero_mem_initReads {initOk : Nat → Bool} {left : Nat} (hpos : 0 < left) :
    0 ∈ (initReads initOk left 0).1 := by
  obtain ⟨left, rfl⟩ := Nat.exists_eq_succ_of_ne_zero hpos.ne'
  unfold initReads
  split_ifs with hok
  · exact List.mem_cons_self
  · exact List.mem_singleton_self _

/-! ### The reads -/

/-- Where a call of `ztl_io_read` is: in the search, which is done with the mutex and looks at one
flag after the other; after it has `found` a free one, and after it has set its flag; after a search
without result; in the read itself, and before it gives the resource back. -/
inductive RsPc where
  | idle
  | search (id : Nat)
  | found (id : Nat)
  | marked (id : Nat)
  | failed
  | reading (id : Nat)
  | finished (id : Nat)
deriving DecidableEq, Repr

/-- `rs_mutex`, the flags of `read_resource`, and the threads. -/
structure ReadRs (ι : Type) where
  rsMutex : Option ι
  usedflag : Nat → Bool
  pc : ι → RsPc

/-- The steps: a thread enters `ztl_io_read`, or goes on. -/
inductive RsOp (ι : Type) where
  | call (t : ι)
  | next (t : ι)

section
variable {ι : Type} [DecidableEq ι]

/-- After the initialisation. -/
def ReadRs.start : ReadRs ι := ⟨none, fun _ => false, fun _ => .idle⟩

/-- Move one thread. -/
def ReadRs.goto (s : ReadRs ι) (t : ι) (p : RsPc) : ReadRs ι :=
  { s with pc := update s.pc t p }

/-- Set a flag. -/
def ReadRs.setFlag (s : ReadRs ι) (id : Nat) (b : Bool) : ReadRs ι :=
  { s with usedflag := update s.usedflag id b }

/-- The next step of thread `t`, with `num` resources. -/
def ReadRs.next (num : Nat) (s : ReadRs ι) (t : ι) : Option (ReadRs ι) :=
  match s.pc t with
  | .idle => none
  | .search id =>
    if id < num then
      if s.usedflag id then some (s.goto t (.search (id + 1))) else some (s.goto t (.found id))
    else some (s.goto t .failed)
  | .found id => some ((s.setFlag id true).goto t (.marked id))
  | .marked id => some ({ s with rsMutex := none }.goto t (.reading id))
  | .failed => some ({ s with rsMutex := none }.goto t .idle)
  | .reading id => some (s.goto t (.finished id))
  | .finished id => some ((s.setFlag id false).goto t .idle)

/-- One step. -/
def ReadRs.step (num : Nat) (s : ReadRs ι) : RsOp ι → Option (ReadRs ι)
  | .call t =>
    match s.rsMutex, s.pc t with
    | none, .idle => some ({ s with rsMutex := some t }.goto t (.search 0))
    | _, _ => none
  | .next t => s.next num t

end

/-- The control points at which a thread has the mutex. -/
def RsPc.HasMutex : RsPc → Prop
  | .search _ | .found _ | .marked _ | .failed => True
  | .idle | .reading _ | .finished _ => False

/-- The resource that a thread has: its search has returned it, and it has not given it back. -/
def RsPc.holds : RsPc → Option Nat
  | .marked id | .reading id | .finished id => some id
  | .idle | .search _ | .found _ | .failed => none

/-! ### What one step does -/

section
variable {ι : Type} [DecidableEq ι] {num : Nat} {s s' : ReadRs ι}

/-- The steps by what they do. -/
inductive ReadRs.Moves (num : Nat) (s : ReadRs ι) : ReadRs ι → Prop where
  | acquire {t : ι} (hfree : s.rsMutex = none) (hpc : s.pc t = .idle) :
      s.Moves num ({ s with rsMutex := some t }.goto t (.search 0))
  | skip {t : ι} {id : Nat} (hpc : s.pc t = .search id) : s.Moves num (s.goto t (.search (id + 1)))
  | find {t : ι} {id : Nat} (hpc : s.pc t = .search id) (hid : id < num)
      (hfree : s.usedflag id = false) : s.Moves num (s.goto t (.found id))
  | fail {t : ι} {id : Nat} (hpc : s.pc t = .search id) : s.Moves num (s.goto t .failed)
  | mark {t : ι} {id : Nat} (hpc : s.pc t = .found id) :
      s.Moves num ((s.setFlag id true).goto t (.marked id))
  | read {t : ι} {id : Nat} (hpc : s.pc t = .marked id) :
      s.Moves num ({ s with rsMutex := none }.goto t (.reading id))
  | giveUp {t : ι} (hpc : s.pc t = .failed) : s.Moves num ({ s with rsMutex := none }.goto t .idle)
  | finish {t : ι} {id : Nat} (hpc : s.pc t = .reading id) : s.Moves num (s.goto t (.finished id))
  | put {t : ι} {id : Nat} (hpc : s.pc t = .finished id) :
      s.Moves num ((s.setFlag id false).goto t .idle)

theorem ReadRs.next_moves {t : ι} (h : s.next num t = some s') : s.Moves num s' := by
  unfold ReadRs.next at h
  split at h
  · cases h
  · split_ifs at h with hid hused
    · cases h
      exact .skip ‹_›
    · cases h
      exact .find ‹_› hid (Bool.not_eq_true _ ▸ hused)
    · cases h
      exact .fail ‹_›
  · cases h
    exact .mark ‹_›
  · cases h
    exact .read ‹_›
  · cases h
    exact .giveUp ‹_›
  · cases h
    exact .finish ‹_›
  · cases h
    exact .put ‹_›

theorem ReadRs.step_moves {op : RsOp ι} (h : s.step num op = some s') : s.Moves num s' := by
  cases op with
  | call t =>
    simp only [ReadRs.step] at h
    split at h
    · cases h
      exact .acquire ‹_› ‹_›
    · cases h
  | next t => exact ReadRs.next_moves h

end

/-! ### The invariant -/

section
variable {ι : Type} {num : Nat} {s s' : ReadRs ι}

/-- The flag of every resource that a thread has is set, and no other thread has it; the flag that
a search has found clear is clear. -/
structure ReadRs.Inv (num : Nat) (s : ReadRs ι) : Prop where
  mutex : Guarded s.rsMutex s.pc RsPc.HasMutex
  used : ∀ {t id}, (s.pc t).holds = some id → s.usedflag id = true
  exclusive : ∀ {t u id}, (s.pc t).holds = some id → (s.pc u).holds = some id → t = u
  found : ∀ {t id}, s.pc t = .found id → s.usedflag id = false ∧ id < num
  range : ∀ {t id}, (s.pc t).holds = some id → id < num

theorem ReadRs.Inv.start : (ReadRs.start : ReadRs ι).Inv num where
  mutex _ := iff_of_false id nofun
  used h := by cases h
  exclusive h := by cases h
  found h := by cases h
  range h := by cases h

namespace ReadRs.Inv
variable [DecidableEq ι]

/-- A step that changes no flag and gives no thread a resource it did not have. -/
theorem goto (h : s.Inv num) {lock : Option ι} {t : ι} {p : RsPc}
    (hmutex : Guarded lock (update s.pc t p) RsPc.HasMutex)
    (hholds : ∀ id, p.holds = some id → (s.pc t).holds = some id)
    (hfound : ∀ id, p = .found id → s.usedflag id = false ∧ id < num) :
    ({ s with rsMutex := lock }.goto t p).Inv num := by
  have hold : ∀ u id, (update s.pc t p u).holds = some id →
      (s.pc u).holds = some id := by
    intro u id hu
    rcases eq_or_ne u t with rfl | hne
    · rw [update_self] at hu
      exact hholds id hu
    · rwa [update_of_ne hne] at hu
  refine ⟨hmutex, fun hu => h.used (hold _ _ hu),
    fun ht hu => h.exclusive (hold _ _ ht) (hold _ _ hu), ?_, fun hu => h.range (hold _ _ hu)⟩
  intro u id hu
  change update s.pc t p u = _ at hu
  rcases eq_or_ne u t with rfl | hne
  · rw [update_self] at hu
    exact hfound id hu
  · rw [update_of_ne hne] at hu
    exact h.found hu

theorem mark (h : s.Inv num) {t : ι} {id : Nat} (hpc : s.pc t = .found id) :
    ((s.setFlag id true).goto t (.marked id)).Inv num := by
  have hmutex : (s.pc t).HasMutex := by rw [hpc]; exact trivial
  obtain ⟨hfree, hid⟩ := h.found hpc
  -- the resource of every other thread is another one, since its flag is set
  have hholds : ∀ {u id'}, (update s.pc t (.marked id) u).holds = some id' →
      (u = t ∧ id' = id) ∨ (u ≠ t ∧ id' ≠ id ∧ (s.pc u).holds = some id') := by
    intro u id' hu
    rcases eq_or_ne u t with rfl | hne
    · rw [update_self] at hu
      exact .inl ⟨rfl, (Option.some.inj hu).symm⟩
    · rw [update_of_ne hne] at hu
      refine .inr ⟨hne, ?_, hu⟩
      rintro rfl
      exact absurd (h.used hu) (by rw [hfree]; exact Bool.false_ne_true)
  refine ⟨h.mutex.move (iff_of_true trivial hmutex), ?_, ?_, ?_, ?_⟩
  · intro u id' hu
    show update s.usedflag id true id' = true
    rcases hholds hu with ⟨-, rfl⟩ | ⟨-, hne, hold⟩
    · exact update_self ..
    · rw [update_of_ne hne]
      exact h.used hold
  · intro u v id' hu hv
    rcases hholds hu with ⟨rfl, rfl⟩ | ⟨-, hne, hold⟩
    · rcases hholds hv with ⟨rfl, -⟩ | ⟨-, hne', -⟩
      · rfl
      · exact absurd rfl hne'
    · rcases hholds hv with ⟨-, rfl⟩ | ⟨-, -, hold'⟩
      · exact absurd rfl hne
      · exact h.exclusive hold hold'
  · intro u id' hu
    change update s.pc t (.marked id) u = _ at hu
    rcases eq_or_ne u t with rfl | hne
    · rw [update_self] at hu
      cases hu
    · rw [update_of_ne hne] at hu
      exact absurd (h.mutex.eq (t := u) (by rw [hu]; exact trivial) hmutex) hne
  · intro u id' hu
    rcases hholds hu with ⟨-, rfl⟩ | ⟨-, -, hold⟩
    · exact hid
    · exact h.range hold

theorem put (h : s.Inv num) {t : ι} {id : Nat} (hpc : s.pc t = .finished id) :
    ((s.setFlag id false).goto t .idle).Inv num := by
  have hhas : (s.pc t).holds = some id := by rw [hpc]; rfl
  have hholds : ∀ {u id'}, (update s.pc t .idle u).holds = some id' →
      id' ≠ id ∧ (s.pc u).holds = some id' := by
    intro u id' hu
    rcases eq_or_ne u t with rfl | hne
    · rw [update_self] at hu
      cases hu
    · rw [update_of_ne hne] at hu
      refine ⟨?_, hu⟩
      rintro rfl
      exact hne (h.exclusive hu hhas)
  refine ⟨h.mutex.move (iff_of_false (fun hin => hin) (by rw [hpc]; exact fun hin => hin)), ?_, ?_,
    ?_, ?_⟩
  · intro u id' hu
    obtain ⟨hne, hold⟩ := hholds hu
    show update s.usedflag id false id' = true
    rw [update_of_ne hne]
    exact h.used hold
  · exact fun hu hv => h.exclusive (hholds hu).2 (hholds hv).2
  · intro u id' hu
    change update s.pc t .idle u = _ at hu
    have hne : u ≠ t := by
      rintro rfl
      rw [update_self] at hu
      cases hu
    rw [update_of_ne hne] at hu
    refine ⟨?_, (h.found hu).2⟩
    show update s.usedflag id false id' = false
    rcases eq_or_ne id' id with rfl | hid
    · exact update_self ..
    · rw [update_of_ne hid]
      exact (h.found hu).1
  · exact fun hu => h.range (hholds hu).2

theorem step (h : s.Inv num) {op : RsOp ι} (hs : s.step num op = some s') : s'.Inv num := by
  cases ReadRs.step_moves hs with
  | @acquire t hfree hpc =>
    have hmutex := h.mutex
    rw [hfree] at hmutex
    exact h.goto (hmutex.acquire trivial) nofun nofun
  | @skip t id hpc =>
    exact h.goto (h.mutex.move (iff_of_true trivial (by rw [hpc]; exact trivial))) nofun nofun
  | @find t id hpc hid hfree =>
    refine h.goto (h.mutex.move (iff_of_true trivial (by rw [hpc]; exact trivial))) nofun ?_
    rintro id' ⟨⟩
    exact ⟨hfree, hid⟩
  | @fail t id hpc =>
    exact h.goto (h.mutex.move (iff_of_true trivial (by rw [hpc]; exact trivial))) nofun nofun
  | mark hpc => exact h.mark hpc
  | @read t id hpc =>
    refine h.goto (h.mutex.release (by rw [hpc]; exact trivial) fun hin => hin) ?_ nofun
    rintro id' ⟨⟩
    rw [hpc]
    rfl
  | @giveUp t hpc =>
    exact h.goto (h.mutex.release (by rw [hpc]; exact trivial) fun hin => hin) nofun nofun
  | @finish t id hpc =>
    refine h.goto (h.mutex.move (iff_of_false (fun hin => hin)
      (by rw [hpc]; exact fun hin => hin))) ?_ nofun
    rintro id' ⟨⟩
    rw [hpc]
    rfl
  | put hpc => exact h.put hpc

end ReadRs.Inv

end

/-! ### How many there are -/

/-- What the resources are to be: every index that is initialised or that a search returns is one
of the array's, there is a resource once the initialisation has succeeded, and no two reads have
the same. -/
structure ReadResources (m : MediaCtx) : Prop where
  initialised : ∀ initOk, ∀ id ∈ (ztlIoInit m initOk).1, id < xztlReadRsNum
  nonempty : ∀ initOk, (ztlIoInit m initOk).2 = true → 0 < (ztlIoInit m initOk).1.length
  returned : ∀ (ι : Type) [DecidableEq ι] (ops : List (RsOp ι)) (s : ReadRs ι),
    Runs (ReadRs.step m.readCtxNum) (fun _ _ => True) .start ops s →
    ∀ t id, (s.pc t).holds = some id → id < xztlReadRsNum
  exclusive : ∀ (ι : Type) [DecidableEq ι] (ops : List (RsOp ι)) (s : ReadRs ι),
    Runs (ReadRs.step m.readCtxNum) (fun _ _ => True) .start ops s →
    ∀ t u id, (s.pc t).holds = some id → (s.pc u).holds = some id → t = u

theorem ReadRs.inv_run {ι : Type} [DecidableEq ι] {num : Nat} {ops : List (RsOp ι)} {s : ReadRs ι}
    (h : Runs (ReadRs.step num) (fun _ _ => True) .start ops s) : s.Inv num :=
  h.invariant (fun _ _ _ hs _ hstep => hs.step hstep) .start

/-- The resources are as they are to be precisely where the array has them all. -/
theorem readResources_iff_le {m : MediaCtx} (hpos : 0 < m.readCtxNum) :
    ReadResources m ↔ m.readCtxNum ≤ xztlReadRsNum := by
  constructor
  · intro h
    by_contra hgt
    have hin := h.initialised (fun _ => true) xztlReadRsNum
      (initReads_true (Nat.zero_le _) (by omega))
    exact lt_irrefl _ hin
  · intro hle
    refine ⟨?_, ?_, ?_, ?_⟩
    · intro initOk id hid
      have hlt := mem_initReads hid
      omega
    · exact fun initOk _ => List.length_pos_of_mem (zero_mem_initReads hpos)
    · exact fun ι _ ops s h t id hid => lt_of_lt_of_le ((ReadRs.inv_run h).range hid) hle
    · exact fun ι _ ops s h t u id ht hu => (ReadRs.inv_run h).exclusive ht hu

/-- The processors without two, counted in 32 bits, or one. -/
theorem readCtxNum_eq {optAsync : OptBe} (h : optAsync = .spdk ∨ optAsync = .libaio)
    (cpuNum : Nat) : (zndMediaSetCtxIodepth optAsync cpuNum).readCtxNum
      = if (cpuNum % 2 ^ 32 + 2 ^ 32 - 2) % 2 ^ 32 > 0
        then (cpuNum % 2 ^ 32 + 2 ^ 32 - 2) % 2 ^ 32 else 1 := by
  simp only [zndMediaSetCtxIodepth, if_pos h, apply_ite MediaCtx.readCtxNum, ite_self]

theorem readCtxNum_eq_max {optAsync : OptBe} (h : ¬ (optAsync = .spdk ∨ optAsync = .libaio))
    (cpuNum : Nat) : (zndMediaSetCtxIodepth optAsync cpuNum).readCtxNum = xztlReadRsNum := by
  simp only [zndMediaSetCtxIodepth, if_neg h]

theorem readCtxNum_pos (optAsync : OptBe) (cpuNum : Nat) :
    0 < (zndMediaSetCtxIodepth optAsync cpuNum).readCtxNum := by
  by_cases h : optAsync = .spdk ∨ optAsync = .libaio
  · rw [readCtxNum_eq h]
    split_ifs with hrest
    · exact hrest
    · exact Nat.one_pos
  · rw [readCtxNum_eq_max h]
    decide

/-- What is left of the processors is in range from 2 processors on; for one it wraps around. -/
theorem readCtxNum_le_iff (optAsync : OptBe) (cpuNum : Nat) :
    (zndMediaSetCtxIodepth optAsync cpuNum).readCtxNum ≤ xztlReadRsNum ↔
      ¬ (optAsync = .spdk ∨ optAsync = .libaio) ∨
        (2 ≤ cpuNum % 2 ^ 32 ∧ cpuNum % 2 ^ 32 ≤ 258) := by
  by_cases h : optAsync = .spdk ∨ optAsync = .libaio
  · rw [readCtxNum_eq h, or_iff_right (not_not_intro h)]
    unfold xztlReadRsNum
    split_ifs with hrest <;> omega
  · rw [readCtxNum_eq_max h]
    exact iff_of_true le_rfl (.inl h)

/-- **The resources of reads, for every backend and number of processors.** -/
theorem read_resources_iff (optAsync : OptBe) (cpuNum : Nat) :
    ReadResources (zndMediaSetCtxIodepth optAsync cpuNum) ↔
      ¬ (optAsync = .spdk ∨ optAsync = .libaio) ∨
        (2 ≤ cpuNum % 2 ^ 32 ∧ cpuNum % 2 ^ 32 ≤ 258) :=
  (readResources_iff_le (readCtxNum_pos optAsync cpuNum)).trans
    (readCtxNum_le_iff optAsync cpuNum)

/-- **Past the array**: with libaio, resource 256 is initialised on 384 processors, and on one. -/
theorem read_resources_past :
    256 ∈ (ztlIoInit (zndMediaSetCtxIodepth .libaio 384) fun _ => true).1 ∧
      256 ∈ (ztlIoInit (zndMediaSetCtxIodepth .libaio 1) fun _ => true).1 ∧
      ¬ ReadResources (zndMediaSetCtxIodepth .libaio 384) ∧
      ¬ ReadResources (zndMediaSetCtxIodepth .libaio 1) := by
  have hin : ∀ cpuNum, 256 < (zndMediaSetCtxIodepth .libaio cpuNum).readCtxNum →
      256 ∈ (ztlIoInit (zndMediaSetCtxIodepth .libaio cpuNum) fun _ => true).1 :=
    fun _ hlt => initReads_true (Nat.zero_le _) (by rw [Nat.zero_add]; exact hlt)
  have h₃₈₄ := hin 384 (by rw [readCtxNum_eq (.inr rfl)]; norm_num)
  have h₁ := hin 1 (by rw [readCtxNum_eq (.inr rfl)]; norm_num)
  exact ⟨h₃₈₄, h₁, fun h => absurd (h.initialised _ _ h₃₈₄) (lt_irrefl 256),
    fun h => absurd (h.initialised _ _ h₁) (lt_irrefl 256)⟩

end Xztl
