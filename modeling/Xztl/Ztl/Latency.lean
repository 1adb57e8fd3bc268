import Xztl.Ztl.Mempool

/-!
# Ztl — the latencies of reads (`xztl-prometheus.c`)

`xztl_prometheus_add_read_latency` takes an entry from a memory pool and puts it at the end of a
queue; the loop of `xztl_prometheus_flush_latency` writes the first of the queue to a file and gives
its entry back.  Both hold a spin lock.  A latency is discarded when `xztl_mempool_left` says that no
entry is left.

That count is not restored when an entry is given back.  **`latencies_run`**: however adding and
flushing take turns, the latencies that are ever written or queued are the first ones, as many as the
pool has entries, in their order; all later ones are discarded, with an empty queue too.  No call of
`xztl_mempool_get` waits.
-/

namespace Xztl

open List

/-- The pool, `lat_head`, and what has been written. -/
structure Latencies where
  pool : MpPool
  head : List (MpEntry × Nat)
  file : List Nat

/-- A call that adds a latency, or a round of the flushing loop. -/
inductive LatOp where
  | add (usec : Nat)
  | flush
deriving DecidableEq, Repr

/-- `xztl_prometheus_add_read_latency`, and the body of the loop of
`xztl_prometheus_flush_latency`. -/
def Latencies.step (s : Latencies) : LatOp → Option Latencies
  | .add usec =>
    if xztlMempoolLeft s.pool = 0 then some s
    else (xztlMempoolGet s.pool).map fun (mpEnt, pool) =>
      { s with pool := pool, head := s.head ++ [(mpEnt, usec)] }
  | .flush =>
    match s.head with
    | [] => some s
    | (mpEnt, lat) :: head => some ⟨xztlMempoolPut s.pool mpEnt, head, s.file ++ [lat]⟩

/-- The latencies of the calls. -/
def usecs (ops : List LatOp) : List Nat :=
  ops.flatMap fun
    | .add usec => [usec]
    | .flush => []

/-- After the latencies `done`, of which those that the pool has entries for were taken. -/
structure Latencies.Inv (p : MpPool) (done : List Nat) (s : Latencies) : Prop where
  entries : s.pool.entries = p.entries
  inCount : s.pool.inCount = 0
  outCount : s.pool.outCount.toNat = min done.length p.entries.toNat
  kept : s.file ++ s.head.map Prod.snd = done.take p.entries.toNat
  room : s.pool.head.length + s.head.length = p.entries.toNat

section

variable {p : MpPool} {done : List Nat} {s : Latencies}

theorem Latencies.Inv.step (h : s.Inv p done) (hn : p.entries.toNat < 2 ^ 16) (op : LatOp) :
    ∃ s', s.step op = some s' ∧ s'.Inv p (done ++ usecs [op]) := by
  cases op with
  | add usec =>
    have hleft := xztlMempoolLeft_toInt h.inCount (by rw [h.entries]; omega)
    rw [h.entries, h.outCount] at hleft
    have hlen : (done ++ [usec]).length = done.length + 1 := length_append
    rw [Latencies.step]
    by_cases hfull : p.entries.toNat ≤ done.length
    · -- the counter has reached the number of entries
      have h0 : xztlMempoolLeft s.pool = 0 := by
        rw [← Int32.toInt_inj, hleft, Nat.min_eq_right hfull, Int.sub_self]
        rfl
      refine ⟨s, if_pos h0, h.entries, h.inCount, ?_, ?_, h.room⟩
      · rw [h.outCount]
        show _ = min (done ++ [usec]).length _
        omega
      · rw [h.kept, take_append_of_le_length hfull]
    · have h0 : xztlMempoolLeft s.pool ≠ 0 := fun h0 => by
        rw [h0, show (0 : Int32).toInt = 0 from rfl] at hleft
        omega
      -- what is queued is not more than what was taken
      have hq : s.head.length ≤ done.length := by
        have hk := congrArg length h.kept
        rw [length_append, length_map, length_take] at hk
        omega
      have hroom := h.room
      obtain ⟨mpEnt, rest, hhead⟩ := exists_cons_of_length_pos (l := s.pool.head) (by omega)
      rw [if_neg h0, xztlMempoolGet, hhead]
      rw [hhead, length_cons] at hroom
      refine ⟨_, rfl, h.entries, h.inCount, ?_, ?_, ?_⟩
      · show (s.pool.outCount + 1).toNat = min (done ++ [usec]).length _
        rw [UInt16.toNat_add, h.outCount, hlen, show (1 : UInt16).toNat = 1 from rfl]
        omega
      · show s.file ++ (s.head ++ [(mpEnt, usec)]).map Prod.snd = (done ++ [usec]).take _
        rw [map_append, ← append_assoc, h.kept, take_of_length_le (by omega),
          take_of_length_le (by omega)]
        rfl
      · show rest.length + (s.head ++ [(mpEnt, usec)]).length = _
        rw [length_append, length_singleton]
        omega
  | flush =>
    rw [show done ++ usecs [.flush] = done from append_nil done, Latencies.step]
    rcases hhead : s.head with _ | ⟨⟨mpEnt, lat⟩, head⟩
    · exact ⟨s, rfl, h⟩
    · have hkept := h.kept
      have hroom := h.room
      rw [hhead] at hkept hroom
      refine ⟨_, rfl, h.entries, h.inCount, h.outCount, ?_, ?_⟩
      · rw [← hkept, append_assoc]
        rfl
      · show (s.pool.head ++ [mpEnt]).length + head.length = _
        rw [length_cons] at hroom
        rw [length_append, length_singleton]
        omega

end

/-- **The latencies that are kept**, on a pool of fewer than 2¹⁶ entries; `xztl_prometheus_init`
creates one of 8192. -/
theorem latencies_run {p : MpPool} (hp : p.Fresh) (hn : p.entries.toNat < 2 ^ 16)
    (ops : List LatOp) : ∃ s, ops.foldlM Latencies.step ⟨p, [], []⟩ = some s ∧
      s.file ++ s.head.map Prod.snd = (usecs ops).take p.entries.toNat := by
  suffices h : ∀ (ops : List LatOp) {done : List Nat} {s : Latencies}, s.Inv p done →
      ∃ s', ops.foldlM Latencies.step s = some s' ∧ s'.Inv p (done ++ usecs ops) by
    have hstart : Latencies.Inv p [] ⟨p, [], []⟩ :=
      ⟨rfl, hp.inCount, by rw [hp.outCount]; exact (Nat.zero_min _).symm, take_nil.symm,
        hp.length⟩
    obtain ⟨s, e, hs⟩ := h ops hstart
    exact ⟨s, e, hs.kept⟩
  intro ops
  induction ops with
  | nil => exact fun h => ⟨_, rfl, (append_nil _).symm ▸ h⟩
  | cons op ops ih =>
    intro done s h
    obtain ⟨s₁, e₁, h₁⟩ := h.step hn op
    obtain ⟨s', e, h'⟩ := ih h₁
    refine ⟨s', by rw [foldlM_cons, e₁]; exact e, ?_⟩
    have husecs : usecs ([op] ++ ops) = usecs [op] ++ usecs ops := flatMap_append
    rw [append_assoc, ← husecs] at h'
    exact h'

/-- Of two latencies, a pool of one entry keeps the first, though its entry is free again. -/
theorem latencies_run_two : ∃ s, [LatOp.add 3, .flush, .add 5].foldlM Latencies.step
    ⟨⟨true, 0, 0, 1, [⟨0, 0⟩]⟩, [], []⟩ = some s ∧ s.file ++ s.head.map Prod.snd = [3] :=
  latencies_run ⟨rfl, rfl, rfl, by decide, by decide⟩ (by decide) _

end Xztl
