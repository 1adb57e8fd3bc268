import Mathlib.Data.List.Perm.Subperm
import Mathlib.Tactic
import Xztl.Support.Runs

/-!
# Ztl — memory pools

A pool (`struct xztl_mp_pool_i`) is a queue of entries that `xztl_mempool_create` fills,
`xztl_mempool_get` takes from and `xztl_mempool_put` gives back to, under a spin lock (the build
without `MP_LOCKFREE`).

**The queue and the entries in use are always the entries that were created**
(`mempool_partition`).  How many are free is not read off the queue but off two 16-bit
counters, and without `MP_LOCKFREE` a put changes neither: `xztl_mempool_left` is right as long as
nothing is put back and the first counter does not wrap around, and no longer
(`mempool_accounting_iff`).
-/

namespace Xztl

open List

/-! ### The pool -/

/-- `XZTLMP_TYPES`. -/
def xztlmpTypes : UInt32 := 5

/-- `XZTLMP_THREADS`. -/
def xztlmpThreads : UInt16 := 64

/-- `XZTLMP_MAX_ENT`. -/
def xztlmpMaxEnt : UInt32 := 65536 + 2

/-- `XZTLMP_MAX_ENT_SZ`. -/
def xztlmpMaxEntSz : UInt32 := 1024 * 1024

/-- `XZTL_MP_OUTBOUNDS`, `XZTL_MP_INVALID`, `XZTL_MP_ACTIVE`, `XZTL_MP_MEMERROR`. -/
inductive MpStatus where
  | outbounds | invalid | active | memerror
deriving DecidableEq, Repr

/-- `struct xztl_mp_entry`, without the memory it points to. -/
structure MpEntry where
  tid : UInt16
  entryId : UInt32
deriving DecidableEq, Repr

/-- `struct xztl_mp_pool_i`. -/
structure MpPool where
  active : Bool
  inCount : UInt16
  outCount : UInt16
  entries : UInt32
  head : List MpEntry
deriving DecidableEq, Repr

/-- The allocation loop of `xztl_mempool_create`, with `left` entries to go. -/
def allocEntries (tid : UInt16) (allocOk : Nat → Bool) :
    (left entI : Nat) → Option (List MpEntry)
  | 0, _ => some []
  | left + 1, entI =>
    if allocOk entI then
      (allocEntries tid allocOk left (entI + 1)).map (⟨tid, UInt32.ofNat entI⟩ :: ·)
    else none

/-- `xztl_mempool_create` for the pool of `type` and `tid`.  The spin lock and the memory of entry
`entI` are to be had if `spinOk` and `allocOk entI`. -/
def xztlMempoolCreate (pool : MpPool) (type : UInt32) (tid : UInt16) (entries entSz : UInt32)
    (spinOk : Bool) (allocOk : Nat → Bool) : Except MpStatus MpPool :=
  if type ≥ xztlmpTypes ∨ tid ≥ xztlmpThreads then .error .outbounds
  else if entries = 0 ∨ entries > xztlmpMaxEnt ∨ entSz = 0 ∨ entSz > xztlmpMaxEntSz then
    .error .invalid
  else if pool.active then .error .active
  else if !spinOk then .error .memerror
  else
    match allocEntries tid allocOk entries.toNat 0 with
    | none => .error .memerror
    | some head => .ok ⟨true, 0, 0, entries, head⟩

/-- `xztl_mempool_left`: the difference is computed in 32 bits and returned as an `int`. -/
def xztlMempoolLeft (pool : MpPool) : Int32 :=
  (pool.entries - pool.outCount.toUInt32 + pool.inCount.toUInt32).toInt32

/-- `xztl_mempool_get`.  It tries again as long as the queue is empty, so it does not return
then. -/
def xztlMempoolGet (pool : MpPool) : Option (MpEntry × MpPool) :=
  match pool.head with
  | [] => none
  | ent :: head => some (ent, { pool with head := head, outCount := pool.outCount + 1 })

/-- `xztl_mempool_put`. -/
def xztlMempoolPut (pool : MpPool) (ent : MpEntry) : MpPool :=
  { pool with head := pool.head ++ [ent] }

/-! ### Sequences of calls -/

/-- A pool with the entries that are in use. -/
structure MpRun where
  pool : MpPool
  held : List MpEntry

/-- A call. -/
inductive MpOp where
  | get
  | put (ent : MpEntry)
deriving DecidableEq, Repr

/-- One call. -/
def MpRun.step (s : MpRun) : MpOp → Option MpRun
  | .get => (xztlMempoolGet s.pool).map fun r => ⟨r.2, r.1 :: s.held⟩
  | .put ent => some ⟨xztlMempoolPut s.pool ent, s.held.erase ent⟩

/-- Only entries that were obtained are put back, once each. -/
def MpRun.Obtained (s : MpRun) : MpOp → Prop
  | .get => True
  | .put ent => ent ∈ s.held

/-- The accounting of a pool that was created with the entries `created`: those in the queue and
those in use are the created ones, each once, and `xztl_mempool_left` is the length of the queue. -/
structure MpRun.Accounted (created : List MpEntry) (s : MpRun) : Prop where
  nodup : created.Nodup
  partition : (s.pool.head ++ s.held).Perm created
  left : (xztlMempoolLeft s.pool).toInt = s.pool.head.length

/-! ### Creation -/

variable {p : MpPool} {ops : List MpOp}

theorem allocEntries_eq_some {tid : UInt16} {allocOk : Nat → Bool} {left entI : Nat}
    {head : List MpEntry} (h : allocEntries tid allocOk left entI = some head) :
    head = (List.range' entI left).map fun i => ⟨tid, UInt32.ofNat i⟩ := by
  induction left generalizing entI head with
  | zero =>
    cases h
    rfl
  | succ left ih =>
    unfold allocEntries at h
    split_ifs at h with hok
    obtain ⟨rest, hrest, rfl⟩ := Option.map_eq_some_iff.mp h
    rw [List.range'_succ, map_cons, ih hrest]

/-- A pool as it was created. -/
structure MpPool.Fresh (p : MpPool) : Prop where
  inCount : p.inCount = 0
  outCount : p.outCount = 0
  length : p.head.length = p.entries.toNat
  nodup : p.head.Nodup
  le : p.entries.toNat ≤ 65538

theorem MpPool.Fresh.of_create {pool : MpPool} {type entries entSz : UInt32} {tid : UInt16}
    {spinOk : Bool} {allocOk : Nat → Bool}
    (h : xztlMempoolCreate pool type tid entries entSz spinOk allocOk = .ok p) : p.Fresh := by
  unfold xztlMempoolCreate at h
  split_ifs at h with h1 h2 h3 h4
  split at h
  · cases h
  · rename_i head hhead
    cases h
    obtain rfl := allocEntries_eq_some hhead
    have hle : entries.toNat ≤ 65538 := by
      have hmax : ¬ entries > xztlmpMaxEnt := fun hgt => h2 (.inr (.inl hgt))
      exact not_lt.mp fun hlt => hmax (UInt32.lt_iff_toNat_lt.mpr hlt)
    refine ⟨rfl, rfl, by simp, ?_, hle⟩
    refine List.Nodup.map_on ?_ nodup_range'
    intro i hi j hj heq
    rw [mem_range'_1] at hi hj
    have hid := congrArg (fun e => e.entryId.toNat) heq
    have hsize : ∀ k, k < 0 + entries.toNat → (UInt32.ofNat k).toNat = k := fun k hk =>
      UInt32.toNat_ofNat_of_lt' (lt_of_lt_of_le hk (by rw [Nat.zero_add]; exact entries.toNat_lt.le))
    simpa only [hsize i hi.2, hsize j hj.2] using hid

/-! ### What a sequence of calls does -/

/-- Is the call a get? -/
def MpOp.isGet : MpOp → Bool
  | .get => true
  | .put _ => false

/-- What calls with `gets` gets and `puts` puts do to a pool: the first counter has counted the
gets in 16 bits, the second nothing. -/
structure MpRun.Does (s : MpRun) (gets puts : Nat) (s' : MpRun) : Prop where
  outCount : s'.pool.outCount.toNat = (s.pool.outCount.toNat + gets) % 2 ^ 16
  inCount : s'.pool.inCount = s.pool.inCount
  entries : s'.pool.entries = s.pool.entries
  length : s'.pool.head.length + gets = s.pool.head.length + puts
  perm : (s'.pool.head ++ s'.held).Perm (s.pool.head ++ s.held)

namespace MpRun
variable {s s₁ s' : MpRun}

theorem Does.refl (s : MpRun) : s.Does 0 0 s where
  outCount := by rw [Nat.add_zero, Nat.mod_eq_of_lt s.pool.outCount.toNat_lt]
  inCount := rfl
  entries := rfl
  length := rfl
  perm := .rfl

theorem Does.trans {g q g' q' : Nat} (h : s.Does g q s₁) (h' : s₁.Does g' q' s') :
    s.Does (g + g') (q + q') s' where
  outCount := by rw [h'.outCount, h.outCount, Nat.mod_add_mod, Nat.add_assoc]
  inCount := h'.inCount.trans h.inCount
  entries := h'.entries.trans h.entries
  length := by
    have h1 := h.length
    have h2 := h'.length
    omega
  perm := h'.perm.trans h.perm

theorem does_get (h : s.step .get = some s') : s.Does 1 0 s' := by
  obtain ⟨⟨ent, pool⟩, hget, rfl⟩ := Option.map_eq_some_iff.mp h
  unfold xztlMempoolGet at hget
  split at hget
  · cases hget
  · rename_i head hhead
    cases hget
    refine ⟨UInt16.toNat_add .., rfl, rfl, ?_, ?_⟩
    · rw [hhead]
      rfl
    · rw [hhead]
      exact perm_middle

theorem does_put {ent : MpEntry} (hin : ent ∈ s.held) (h : s.step (.put ent) = some s') :
    s.Does 0 1 s' := by
  cases h
  refine ⟨?_, rfl, rfl, ?_, ?_⟩
  · exact (Does.refl s).outCount
  · show (s.pool.head ++ [ent]).length + 0 = _
    rw [length_append]
    rfl
  · show (s.pool.head ++ [ent] ++ s.held.erase ent).Perm _
    rw [append_assoc]
    exact (perm_cons_erase hin).symm.append_left _

/-- **What a whole sequence of calls does.** -/
theorem does_run (h : Runs step Obtained s ops s') :
    s.Does (ops.countP MpOp.isGet) (ops.countP fun op => !op.isGet) s' := by
  induction h with
  | nil s => exact .refl s
  | @cons s s₁ s' op ops g hstep _ ih =>
    cases op with
    | get =>
      have h := (does_get hstep).trans ih
      rw [countP_cons_of_pos rfl, countP_cons_of_neg Bool.false_ne_true,
        Nat.add_comm _ 1]
      rwa [Nat.zero_add] at h
    | put ent =>
      have h := (does_put g hstep).trans ih
      rw [countP_cons_of_neg Bool.false_ne_true, countP_cons_of_pos rfl,
        Nat.add_comm _ 1]
      rwa [Nat.zero_add] at h

end MpRun

/-- What `xztl_mempool_left` returns: it is negative once the counter has passed the entries. -/
theorem xztlMempoolLeft_toInt (hin : p.inCount = 0) (hle : p.entries.toNat ≤ 65538) :
    (xztlMempoolLeft p).toInt = (p.entries.toNat : Int) - p.outCount.toNat := by
  have hlt : p.outCount.toNat < 2 ^ 16 := p.outCount.toNat_lt
  have hnat : (((p.entries - p.outCount.toUInt32 + p.inCount.toUInt32).toNat : Nat) : Int)
      = ((p.entries.toNat : Int) - p.outCount.toNat) % ((2 ^ 32 : Nat) : Int) := by
    rw [hin, UInt32.toNat_add, UInt32.toNat_sub, UInt16.toNat_toUInt32,
      show (0 : UInt16).toUInt32.toNat = 0 from rfl]
    omega
  unfold xztlMempoolLeft
  rw [← Int32.toInt_toBitVec, UInt32.toBitVec_toInt32, BitVec.toInt_eq_toNat_bmod,
    UInt32.toNat_toBitVec, hnat, Int.emod_bmod, Int.bmod_eq_of_le (by omega) (by omega)]

/-- After calls on a fresh pool, the accounting is right exactly if the entries put back make up for
what the counter has lost. -/
theorem MpPool.Fresh.accounted_iff (hp : p.Fresh) {g q : Nat}
    (h : MpRun.Does ⟨p, []⟩ g q s) : s.Accounted p.head ↔ q + g % 2 ^ 16 = g := by
  have hleft := xztlMempoolLeft_toInt (h.inCount.trans hp.inCount)
    (by rw [h.entries]; exact hp.le)
  have hout : s.pool.outCount.toNat = g % 2 ^ 16 := by
    rw [h.outCount, show (MpRun.mk p []).pool.outCount.toNat = 0 by
      rw [show (MpRun.mk p []).pool.outCount = 0 from hp.outCount]; rfl, Nat.zero_add]
  have hlen : s.pool.head.length + g = p.entries.toNat + q := by
    rw [← hp.length]
    exact h.length
  have hent : s.pool.entries.toNat = p.entries.toNat := by rw [h.entries]
  rw [hout, hent] at hleft
  constructor
  · intro ha
    have heq := ha.left
    rw [hleft] at heq
    omega
  · intro heq
    refine ⟨hp.nodup, ?_, ?_⟩
    · have hperm := h.perm
      rwa [append_nil] at hperm
    · rw [hleft]
      omega

/-- **The entries are never lost or doubled.** -/
theorem mempool_partition (hp : p.Fresh) (hr : Runs MpRun.step MpRun.Obtained ⟨p, []⟩ ops s) :
    (s.pool.head ++ s.held).Perm p.head ∧ (s.pool.head ++ s.held).Nodup := by
  have hperm := (MpRun.does_run hr).perm
  rw [append_nil] at hperm
  exact ⟨hperm, hperm.nodup_iff.mpr hp.nodup⟩

/-! ### The accounting -/

/-- The accounting is right after every call of a sequence. -/
def MpPool.AccountedThrough (p : MpPool) (ops : List MpOp) : Prop :=
  ∀ {done rest : List MpOp} {s : MpRun}, ops = done ++ rest →
    Runs MpRun.step MpRun.Obtained ⟨p, []⟩ done s → s.Accounted p.head

theorem countP_gets (h : ∀ op ∈ ops, op = .get) :
    ops.countP MpOp.isGet = ops.length ∧ (ops.countP fun op => !op.isGet) = 0 := by
  refine ⟨countP_eq_length.mpr fun op hop => ?_, countP_eq_zero.mpr fun op hop => ?_⟩
  · rw [h op hop]
    rfl
  · rw [h op hop]
    exact Bool.false_ne_true

/-- The first put, or the get that wraps the counter around, spoils the accounting. -/
theorem MpPool.Fresh.gets_of_accounted (hp : p.Fresh)
    (hr : Runs MpRun.step MpRun.Obtained ⟨p, []⟩ ops s) (h : p.AccountedThrough ops) :
    (∀ op ∈ ops, op = .get) ∧ ops.length < 2 ^ 16 := by
  induction ops using List.reverseRecOn generalizing s with
  | nil => exact ⟨nofun, by decide⟩
  | append_singleton ops op ih =>
    obtain ⟨s₁, hr1, -⟩ := hr.of_append
    obtain ⟨hgets, hlen⟩ := ih hr1 fun {_ rest _} heq =>
      h ((congrArg (· ++ [op]) heq).trans (append_assoc ..))
    obtain ⟨hg, hq⟩ := countP_gets hgets
    have heq := (hp.accounted_iff (MpRun.does_run hr)).mp
      (h (append_nil _).symm hr)
    rw [countP_append, countP_append, hg, hq] at heq
    cases op with
    | get =>
      rw [show [MpOp.get].countP MpOp.isGet = 1 from rfl,
        show ([MpOp.get].countP fun op => !op.isGet) = 0 from rfl] at heq
      refine ⟨?_, ?_⟩
      · intro op hop
        rcases mem_append.mp hop with hin | hin
        · exact hgets op hin
        · exact mem_singleton.mp hin
      · rw [length_append, length_singleton]
        omega
    | put ent =>
      rw [show [MpOp.put ent].countP MpOp.isGet = 0 from rfl,
        show ([MpOp.put ent].countP fun op => !op.isGet) = 1 from rfl] at heq
      omega

theorem MpPool.Fresh.accounted_of_gets (hp : p.Fresh)
    (hgets : ∀ op ∈ ops, op = .get) (hlen : ops.length < 2 ^ 16) : p.AccountedThrough ops := by
  intro done rest s heq hr
  obtain ⟨hg, hq⟩ := countP_gets fun op (hop : op ∈ done) =>
    hgets op (heq ▸ mem_append_left _ hop)
  refine (hp.accounted_iff (MpRun.does_run hr)).mpr ?_
  have hle : done.length ≤ ops.length := by
    rw [heq, length_append]
    exact Nat.le_add_right ..
  rw [hg, hq]
  omega

/-- **The accounting of a memory pool** is right throughout a sequence of calls precisely if it is
of gets alone, fewer than 65536. -/
theorem mempool_accounting_iff {pool p : MpPool} {type entries entSz : UInt32} {tid : UInt16}
    {spinOk : Bool} {allocOk : Nat → Bool}
    (h : xztlMempoolCreate pool type tid entries entSz spinOk allocOk = .ok p)
    {ops : List MpOp} {s : MpRun} (hr : Runs MpRun.step MpRun.Obtained ⟨p, []⟩ ops s) :
    p.AccountedThrough ops ↔ (∀ op ∈ ops, op = .get) ∧ ops.length < 2 ^ 16 := by
  have hp := MpPool.Fresh.of_create h
  exact ⟨hp.gets_of_accounted hr, fun hc => hp.accounted_of_gets hc.1 hc.2⟩

/-- A pool of 32 entries, as the tests create it. -/
def testPool : MpPool := ⟨true, 0, 0, 32, (List.range 32).map fun i => ⟨0, UInt32.ofNat i⟩⟩

theorem testPool_created :
    xztlMempoolCreate ⟨false, 0, 0, 0, []⟩ 0 0 32 1024 true (fun _ => true) = .ok testPool := by
  decide

/-- One entry is taken and put back. -/
theorem partition_put : ∃ s, Runs MpRun.step MpRun.Obtained ⟨testPool, []⟩ [.get, .put ⟨0, 0⟩] s ∧
    (s.pool.head ++ s.held).Perm testPool.head ∧ (s.pool.head ++ s.held).Nodup := by
  have hr : Runs MpRun.step MpRun.Obtained ⟨testPool, []⟩ [.get, .put ⟨0, 0⟩] _ :=
    .cons trivial rfl (.one mem_cons_self rfl)
  exact ⟨_, hr, mempool_partition (MpPool.Fresh.of_create testPool_created) hr⟩

/-- Two gets. -/
theorem mempool_accounting_iff_two :
    ∃ s, Runs MpRun.step MpRun.Obtained ⟨testPool, []⟩ [.get, .get] s ∧
      testPool.AccountedThrough [.get, .get] := by
  have hr : Runs MpRun.step MpRun.Obtained ⟨testPool, []⟩ [.get, .get]
      ⟨{ testPool with head := testPool.head.drop 2, outCount := 2 }, [⟨0, 1⟩, ⟨0, 0⟩]⟩ :=
    .cons trivial rfl (.cons trivial rfl (.nil _))
  exact ⟨_, hr, (mempool_accounting_iff testPool_created hr).mpr (by decide)⟩

/-- **A put is not counted**: after one get and one put, all 32 entries are in the queue and 31 are
said to be left. -/
theorem put_not_counted :
    ∃ s, Runs MpRun.step MpRun.Obtained ⟨testPool, []⟩ [.get, .put ⟨0, 0⟩] s ∧
      s.pool.head.length = 32 ∧ (xztlMempoolLeft s.pool).toInt = 31 ∧
      ¬ testPool.AccountedThrough [.get, .put ⟨0, 0⟩] := by
  have hr : Runs MpRun.step MpRun.Obtained ⟨testPool, []⟩ [.get, .put ⟨0, 0⟩]
      ⟨{ testPool with head := testPool.head.tail ++ [⟨0, 0⟩], outCount := 1 }, []⟩ :=
    .cons trivial rfl (.cons (mem_singleton_self _) rfl (.nil _))
  refine ⟨_, hr, by decide, by decide, fun h => ?_⟩
  have hgets := ((MpPool.Fresh.of_create testPool_created).gets_of_accounted hr h).1
  exact absurd (hgets (.put ⟨0, 0⟩) (by decide)) nofun

end Xztl
