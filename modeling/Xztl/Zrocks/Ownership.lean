import Xztl.Zrocks.Cycle

/-!
# Zrocks — who owns a node

`Ownership` is what should hold between operations: every node is on exactly one of the three lists,
`nfree` counts the free list, free nodes are pristine, no queue's current node is free and no two
queues share one.

**It holds as long as no node is reset while it is a queue's current node** (`ownership_run`).
`ztl_mgmt_node_reset` takes the node to be on the full list; but a node that has just been filled
stays the current node of its queue, on the used list, until the next write of that level, and a trim
of its last piece can queue its reset before that write comes.  `ownership_lost` is such a run: the
node ends up on the free list while it is still the queue's current node.
-/

namespace Xztl

open Function List
open TailQueue (Queues Heap)

/-- Each node is on one list; free nodes are pristine and nobody's. -/
structure Ownership (z : Ztl) : Prop where
  lists : ∃ parts, Queues z.lists parts ∧ (∀ n, (∃ l, n ∈ parts l) ↔ n < z.nnodes) ∧
    z.nfree = (parts .freeHead).length ∧
    (∀ q n, z.qnode q = some n → n ∉ parts .freeHead) ∧
    ∀ n ∈ parts .freeHead, (z.vnodes n).Pristine
  inj : ∀ q q' n, z.qnode q = some n → z.qnode q' = some n → q = q'

variable {s : ZState} {rest : List ZrocksMap}

theorem Alloc.ownership {z : Ztl} {parts : NodeList → List Nat} (h : Alloc z parts) :
    Ownership z where
  lists := by
    refine ⟨parts, h.queues, h.mem, h.nfree, fun q n hq hn => ?_, h.free⟩
    cases h.queues.disj hn (h.qnode_mem hq)
  inj := fun _ _ _ => h.inj

/-! ### A run that fills a node and trims every piece -/

/-- A write of 1024 units on level 0, every attempt succeeding. -/
def bigWrite : WriteCall := ⟨fun _ => 0, znsMaxBuf, 0, fun _ _ => 0⟩

theorem bigWrite_ncmd : bigWrite.ncmd = 1024 := by decide

/-- The piece of the `j`-th big write to node 0. -/
def bigPiece (j : Nat) : ZrocksMap := .ofPiece ⟨0, 1024 * j, 1024⟩ 0

/-- The only node after `k` big writes. -/
structure Filling (k : Nat) (s : ZState) : Prop where
  sound : Sound s.z s.live
  one : s.z.nnodes = 1
  used : (s.z.vnodes 0).used = 1024 * k
  queue : s.z.submitHead = []
  current : k ≠ 0 → s.z.qnode 0 = some 0
  live : s.live = (List.range k).map bigPiece
  room : k < 192 → (ztlProGrpGetNode s.z 0).2 = true

theorem exists_filling (dev : Dev) (k : Nat) (hk : k ≤ 192) :
    ∃ as s, Runs zstep ResetIdle (ZState.fresh oneNode dev) as s ∧ Filling k s := by
  obtain ⟨e, hcur⟩ := fresh_current oneNode dev 0 (by decide) rfl
  cases k with
  | zero => exact ⟨[], _, .nil _, Sound.fresh oneNode dev, rfl, rfl, rfl, fun h => absurd rfl h, rfl,
      fun _ => congrArg Prod.snd e⟩
  | succ k =>
    obtain ⟨as, s, hr, hf⟩ := exists_filledTo (by decide) e hcur rfl hk
    have hr := hr.mono fun s _ h => h.idle s
    have hb := hf.current.balance
    rw [hf.used, ztlProOptSecNumInnode_eq] at hb
    refine ⟨as, s, hr, .run hr, hf.only.nnodes, hf.used, hf.only.submitHead,
      fun _ => hf.current.qnode, hf.live, fun hk' => ?_⟩
    rw [ztlProGrpGetNode_keep hf.current.qnode (by omega)]

/-- The only node while its pieces are trimmed: `rest` are still live. -/
structure Draining (rest : List ZrocksMap) (s : ZState) : Prop where
  sound : Sound s.z s.live
  one : s.z.nnodes = 1
  current : s.z.qnode 0 = some 0
  left : (s.z.vnodes 0).left = 0
  live : s.live = rest
  big : ∀ m ∈ rest, ∃ j, m = bigPiece j
  full : rest ≠ [] → (s.z.vnodes 0).status = .full ∧ s.z.submitHead = []
  queued : rest = [] → s.z.submitHead = [(0, .resetZone)]

theorem bigPiece_nodeId (j : Nat) : (bigPiece j).nodeId.val = 0 := rfl

theorem bigPiece_num (j : Nat) : (bigPiece j).num.val = 1024 := rfl

/-- A filled node, nothing trimmed yet. -/
theorem Filling.draining (h : Filling 192 s) :
    Draining ((List.range 192).map bigPiece) s := by
  obtain ⟨parts, ha⟩ := h.sound.alloc
  have hlt : 0 < s.z.nnodes := by rw [h.one]; omega
  have hb := ha.balance 0 hlt
  rw [h.used, ztlProOptSecNumInnode_eq] at hb
  have hcur := h.current (by omega)
  have hleft : (s.z.vnodes 0).left = 0 := by omega
  have hvalid := h.sound.acc.valid 0 hlt
  have hpos : unitsOn s.live 0 ≠ 0 := by
    rw [h.live, range_succ, map_append, unitsOn_append]
    simp only [map_cons, map_nil, unitsOn_cons, bigPiece_nodeId, bigPiece_num, if_true]
    omega
  refine ⟨h.sound, h.one, hcur, hleft, h.live, fun m hm => ?_, fun _ => ⟨?_, h.queue⟩, fun h' => ?_⟩
  · obtain ⟨j, -, rfl⟩ := mem_map.mp hm
    exact ⟨j, rfl⟩
  · refine (ha.spent hcur hleft).1.resolve_right fun hs => hpos ?_
    rw [← hvalid, h.sound.acc.reset 0 hlt hs]
  · simp at h'

theorem Draining.step {m : ZrocksMap} (h : Draining (m :: rest) s) :
    ∃ s', zstep s (.trim m) = some s' ∧ Draining rest s' := by
  obtain ⟨j, rfl⟩ := h.big m mem_cons_self
  have hm : bigPiece j ∈ s.live := by rw [h.live]; exact mem_cons_self
  have herase : s.live.erase (bigPiece j) = rest := by rw [h.live, erase_cons_head]
  obtain ⟨hfull, hqueue⟩ := h.full (by simp)
  obtain ⟨hv, hnum⟩ := h.sound.trim_valid hm
  rw [herase, bigPiece_nodeId] at hv hnum
  have hlt : unitsOn rest 0 < 2 ^ 64 := hv ▸ Nat.mod_lt _ (by decide)
  by_cases hrest : rest = []
  · -- the last piece: the node is marked and queued
    subst hrest
    have e := zrocksTrim_last (bigPiece_nodeId j) hnum hfull (by rw [hqueue]; decide)
    refine ⟨_, zstep_trim hm e, h.sound.trim hm e, h.one, h.current, ?_, herase,
      fun m hm => absurd hm not_mem_nil, fun h' => absurd rfl h', fun _ => ?_⟩
    · rw [Ztl.setNode_self]
      exact h.left
    · rw [hqueue]
      rfl
  · have hpos : unitsOn rest 0 ≠ 0 := by
      obtain ⟨m', rest', rfl⟩ := exists_cons_of_ne_nil hrest
      obtain ⟨j', rfl⟩ := h.big m' (by simp)
      rw [unitsOn_cons, bigPiece_nodeId, bigPiece_num, if_pos rfl]
      omega
    have e := zrocksTrim_some (bigPiece_nodeId j) hpos hnum hlt
    refine ⟨_, zstep_trim hm e, h.sound.trim hm e, h.one, h.current, ?_, herase,
      fun m hm => h.big m (mem_cons_of_mem _ hm), fun _ => ⟨?_, hqueue⟩, fun h' => absurd h' hrest⟩
    · show ((s.z.setNode 0 _).vnodes 0).left = 0
      rw [Ztl.setNode_self]
      exact h.left
    · rw [Ztl.setNode_self]
      exact hfull

theorem Draining.run (ms : List ZrocksMap) (h : Draining (ms ++ rest) s) :
    ∃ s', Runs zstep ResetIdle s (ms.map .trim) s' ∧ Draining rest s' := by
  induction ms generalizing s with
  | nil => exact ⟨s, .nil s, h⟩
  | cons m ms ih =>
    obtain ⟨s1, e, h1⟩ := h.step
    obtain ⟨s', hr, h'⟩ := ih h1
    exact ⟨s', .cons trivial e hr, h'⟩

/-- **A node can be filled and emptied** while it stays the current node of its queue. -/
theorem exists_draining (dev : Dev) (ms : List ZrocksMap)
    (h : (List.range 192).map bigPiece = ms ++ rest) :
    ∃ as s, Runs zstep ResetIdle (ZState.fresh oneNode dev) as s ∧ Draining rest s := by
  obtain ⟨as, s, hr, hf⟩ := exists_filling dev 192 (le_refl _)
  obtain ⟨s', hr', hd⟩ := Draining.run ms (h ▸ hf.draining)
  exact ⟨_, s', hr.append hr', hd⟩

theorem exists_drained (dev : Dev) :
    ∃ as s, Runs zstep ResetIdle (ZState.fresh oneNode dev) as s ∧ Draining [] s :=
  exists_draining dev _ (append_nil _).symm

/-- The only node is in use, so no node is free. -/
theorem Draining.no_free (h : Draining rest s)
    {parts : NodeList → List Nat} (ha : Alloc s.z parts) : parts .freeHead = [] := by
  rw [eq_nil_iff_forall_not_mem]
  intro n hn
  obtain rfl : n = 0 := by
    have := ha.lt hn
    rw [h.one] at this
    omega
  cases ha.queues.disj hn (ha.qnode_mem h.current)

/-- **The reset of a current node** puts it on the free list behind the queue's back. -/
theorem Draining.reset_free (h : Draining [] s) :
    ¬ Ownership (ztlMgmtThdProcess s.z fun _ => zonesOk) := by
  obtain ⟨parts, ha⟩ := h.sound.alloc
  have hd := ztlMgmtThdProcess_ok (h.queued rfl)
  have hlast : (s.z.lists.head .freeHead).last = .first .freeHead := by
    have hr := ha.queues.repr .freeHead
    rw [h.no_free ha] at hr
    exact hr.2
  intro ho
  obtain ⟨parts', hq, -, -, hcur, -⟩ := ho.lists
  have hfirst := (hq.repr .freeHead).first
  rw [hd.lists, Heap.first_insertTail _ _ (by rw [Heap.last_remove_of_ne _ _ (by simp)]; exact hlast)]
    at hfirst
  refine hcur 0 0 ?_ (mem_of_mem_head? hfirst.symm)
  rw [hd.qnode]
  exact h.current

/-- The next write of the level gives the node up, here without finding another one. -/
theorem Draining.next_write (h : Draining [] s) :
    ∃ ans s', zstep s (.write bigWrite ans) = some s' ∧
      s'.z.submitHead = [(0, .resetZone)] ∧ ∀ q, s'.z.qnode q ≠ some 0 := by
  obtain ⟨parts, ha⟩ := h.sound.alloc
  obtain ⟨ans, ⟨z', ret, maps⟩, e⟩ := exists_zrocksWrite ha bigWrite (by rw [bigWrite_ncmd]; decide)
  refine ⟨ans, ⟨z', s.live ++ maps⟩, by rw [zstep, e], ?_⟩
  have hlevel : bigWrite.req.provType = 0 := by decide
  have hroom : s.z.room 0 = 0 := by
    rw [Ztl.room, h.current]
    exact h.left
  have hnone : ∀ {z1}, ztlProGrpGetNode s.z 0 ≠ (z1, true) := fun eg => by
    obtain ⟨-, -, -, hok, -⟩ := ha.getNode eg
    rcases hok.mp rfl with h' | h'
    · exact h' hroom
    · exact h' (h.no_free ha)
  obtain ⟨-, ⟨hmax, -⟩ | ⟨-, ps, ok, -, hp, -, -, -⟩⟩ := zrocksWrite_spec ha e
  · rw [bigWrite_ncmd] at hmax
    exact absurd hmax (by decide)
  cases hp with
  | fail eg =>
    rw [hlevel] at eg
    rcases ztlProGrpGetNode_cases s.z 0 with ⟨_, -, -, e'⟩ | ⟨z1, h1, h2⟩
    · exact absurd e' hnone
    rcases h2 with ⟨-, e'⟩ | ⟨_, -, e'⟩
    · cases eg.symm.trans e'
      rcases h1 with ⟨hq, -⟩ | ⟨n, hq, -, rfl⟩
      · rw [h.current] at hq
        cases hq
      · refine ⟨h.queued rfl, fun q hq' => ?_⟩
        by_cases eq : q = 0
        · subst eq
          simp [retire] at hq'
        · rw [show (retire s.z 0 n).qnode q = s.z.qnode q from update_of_ne eq _ _] at hq'
          exact eq (ha.inj hq' h.current)
    · exact absurd e' hnone
  | last eg => exact absurd (hlevel ▸ eg) hnone
  | more eg => exact absurd (hlevel ▸ eg) hnone

/-! ### Ownership over runs -/

/-- **Ownership.**  It holds in every state of a run in which no node is reset while it is a queue's
current node. -/
theorem ownership_run (g : GroupSize) (dev : Dev) {as : List ZOp} {s : ZState}
    (h : Runs zstep ResetIdle (ZState.fresh g dev) as s) : Ownership s.z := by
  have hs := Sound.run h
  obtain ⟨parts, ha⟩ := hs.alloc
  exact ha.ownership

/-- A run in which a node is filled, trimmed, given up by its queue and then reset. -/
theorem ownership_run_reset : ∃ as s, Runs zstep ResetIdle (ZState.fresh oneNode .blank)
    (as ++ [.mgmt]) s ∧ Ownership s.z := by
  obtain ⟨as, s, hr, hd⟩ := exists_drained .blank
  obtain ⟨ans, s', e, hq, hidle⟩ := hd.next_write
  have hw : ResetIdle s (.write bigWrite ans) := trivial
  have hm : ResetIdle s' .mgmt := fun a ha q => by
    rw [hq] at ha
    cases ha
    exact hidle q
  have hrun := (hr.append (Runs.one hw e)).append (Runs.one hm rfl)
  exact ⟨_, _, hrun, ownership_run oneNode _ hrun⟩

/-- **Ownership is lost** when the management thread comes before the level's next write. -/
theorem ownership_lost : ∃ as s, Runs zstep (fun _ _ => True)
    (ZState.fresh oneNode .blank) (as ++ [.mgmt]) s ∧ ¬ Ownership s.z := by
  obtain ⟨as, s, hr, hd⟩ := exists_drained .blank
  exact ⟨as, _, (hr.mono fun _ _ _ => trivial).append (Runs.one trivial rfl), hd.reset_free⟩

end Xztl
