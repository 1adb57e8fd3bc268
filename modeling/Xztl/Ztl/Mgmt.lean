import Xztl.Ztl.Alloc

/-!
# Ztl — node management (`ztl-mgmt-cmd.c`)

Resets and finishes of whole nodes are queued in `submit_head` and carried out by the management
thread, one entry at a time, with up to `MGMT_MAX_RETRY` attempts.  The answers of the device to the
zone commands are input.

A zone command that is accepted but completes with a nonzero status stops the loop over the zones in
a finish, and is passed over in a reset, where only the return value of the submission decides.

`ztlMgmtNodeReset_cases` says what a reset does whatever the device answers; `Alloc.reset` says that
one that is carried out keeps the allocator's invariant when the node is on the full list, which is
the list `ztl_mgmt_node_reset` unlinks it from.
-/

namespace Xztl

open Function List
open TailQueue (moved)

/-- `MGMT_MAX_RETRY`. -/
def mgmtMaxRetry : Nat := 3

/-- The answer to a zone command: the return value of `xztl_media_submit_zn`, and `cmd.status`. -/
structure ZoneAns where
  ret : Nat
  status : Nat
deriving DecidableEq, Repr

/-- `znd_media_zone_manage`, from the return value of `xnvme_znd_mgmt_send` and the status in the
completion: `cmd->status` is read only when the call has failed. -/
def zndMediaZoneManage (ret cpl : Nat) : ZoneAns := ⟨ret, if ret ≠ 0 then cpl else 0⟩

/-- `ztl_mgmt_submit_reset_finish`: an entry of the pool goes to the back of the queue.  When all
entries are queued, `xztl_mempool_get` waits for one to come back; it never returns null. -/
def ztlMgmtSubmitResetFinish (z : Ztl) (n : Nat) (op : MgmtOp) : Except Stop (Ztl × Nat) :=
  if z.submitHead.length < ztlNodeMgmtSz then
    .ok ({ z with submitHead := z.submitHead ++ [(n, op)] }, 0)
  else .error .waiting

/-- `ztl_mgmt_node_reset_zn`, for the zone with index `zi`.  `znd_media_zone_manage` computes the
address of the zone in 32 bits. -/
def ztlMgmtNodeResetZn (z : Ztl) (zi : Nat) (a : ZoneAns) : Ztl × Nat :=
  if a.ret ≠ 0 ∨ a.status ≠ 0 then (z, a.ret)
  else
    let zone := z.vzones zi
    ({ z with
      vzones := update z.vzones zi
        { zone with wptr := zone.sect, wptrInflight := zone.sect }
      dev := z.dev.reset (zone.zone * ztlProSecNumInzone % 2 ^ 32) ztlProSecNumInzone }, a.ret)

/-- The loop of `ztl_mgmt_node_reset` over the zones of node `n`, from slot to slot until a
submission fails. -/
def resetZones (n : Nat) (ans : Nat → ZoneAns) : List Nat → Ztl → Ztl × Nat
  | [], z => (z, 0)
  | i :: is, z =>
    let r := ztlMgmtNodeResetZn z ((z.vnodes n).vzones i) (ans i)
    if r.2 ≠ 0 then r else resetZones n ans is r.1

/-- `ztl_mgmt_node_reset`. -/
def ztlMgmtNodeReset (z : Ztl) (n : Nat) (ans : Nat → ZoneAns) : Ztl × Nat :=
  let (z, ret) := resetZones n ans (List.range ztlProZoneNumInnode) z
  let nd := z.vnodes n
  if ret ≠ 0 then (z.setNode n { nd with nrResetErr := nd.nrResetErr + 1 }, ret)
  else
    let z := z.setNode n
      { nd with
        status := .free, left := ztlProOptSecNumInnode, used := 0, nrValid := 0, level := -1 }
    ({ z with
      lists := (z.lists.remove .fullHead n).insertTail .freeHead n
      nfree := (z.nfree + 1) % 2 ^ 32 }, ret)

/-- The loop of `ztl_mgmt_node_finish`.  The Boolean says that a zone command failed. -/
def finishZones (n : Nat) (ans : Nat → ZoneAns) : List Nat → Ztl → Ztl × Nat × Bool
  | [], z => (z, 0, false)
  | i :: is, z =>
    if (ans i).ret ≠ 0 ∨ (ans i).status ≠ 0 then (z, (ans i).ret, true)
    else
      let zi := (z.vnodes n).vzones i
      let zone := z.vzones zi
      finishZones n ans is
        { z with
          vzones := update z.vzones zi { zone with wptr := zone.sect + zone.capacity } }

/-- `ztl_mgmt_node_finish`. -/
def ztlMgmtNodeFinish (z : Ztl) (n : Nat) (ans : Nat → ZoneAns) : Ztl × Nat :=
  match finishZones n ans (List.range ztlProZoneNumInnode) z with
  | (z, ret, true) =>
    let nd := z.vnodes n
    (z.setNode n { nd with nrFinishErr := nd.nrFinishErr + 1 }, ret)
  | (z, ret, false) => (z, ret)

/-- The attempts at one entry, `ans k` being the answers to the `k`-th from the end. -/
def mgmtAttempts (n : Nat) (op : MgmtOp) (ans : Nat → Nat → ZoneAns) : Nat → Ztl → Ztl
  | 0, z => z
  | k + 1, z =>
    let r := match op with
      | .fullZone => ztlMgmtNodeFinish z n (ans k)
      | .resetZone => ztlMgmtNodeReset z n (ans k)
    if r.2 ≠ 0 then mgmtAttempts n op ans k r.1 else r.1

variable {n : Nat} {z z' : Ztl}

theorem mgmtAttempts_reset (n : Nat) (ans : Nat → Nat → ZoneAns) (k : Nat) (z : Ztl) :
    mgmtAttempts n .resetZone ans (k + 1) z =
      if (ztlMgmtNodeReset z n (ans k)).2 ≠ 0 then
        mgmtAttempts n .resetZone ans k (ztlMgmtNodeReset z n (ans k)).1
      else (ztlMgmtNodeReset z n (ans k)).1 := rfl

theorem mgmtAttempts_finish (n : Nat) (ans : Nat → Nat → ZoneAns) (k : Nat) (z : Ztl) :
    mgmtAttempts n .fullZone ans (k + 1) z =
      if (ztlMgmtNodeFinish z n (ans k)).2 ≠ 0 then
        mgmtAttempts n .fullZone ans k (ztlMgmtNodeFinish z n (ans k)).1
      else (ztlMgmtNodeFinish z n (ans k)).1 := rfl

/-- One round of `ztl_mgmt_thd_process`: the first entry is taken off the queue and carried out. -/
def ztlMgmtThdProcess (z : Ztl) (ans : Nat → Nat → ZoneAns) : Ztl :=
  match z.submitHead with
  | [] => z
  | (n, op) :: rest => mgmtAttempts n op ans mgmtMaxRetry { z with submitHead := rest }

/-- `ztl_mgmt_clear_invalid_node`: the nodes without valid units that are not free are reset at
start-up, once each; `ans n` are the answers for node `n`. -/
def ztlMgmtClearInvalidNode (z : Ztl) (ans : Nat → Nat → ZoneAns) : Ztl :=
  (List.range z.nnodes).foldl (fun z n =>
    if (z.vnodes n).nrValid = 0 ∧ (z.vnodes n).status ≠ .free then (ztlMgmtNodeReset z n (ans n)).1
    else z) z

/-! ### A reset in which any zone command may fail -/

/-- What a command on zone `j` of the group's array can leave behind. -/
structure ZonesReset (z : Ztl) (slots : List Nat) (vz : Nat → Zone) : Prop where
  zone : ∀ j, (vz j).zone = (z.vzones j).zone
  sect : ∀ j, (vz j).sect = (z.vzones j).sect
  other : ∀ j, j ∉ slots → vz j = z.vzones j

/-- The loop over the zones.  It changes zones of the node only, and when it does not end in an
error, every one of them is reset. -/
theorem resetZones_spec {ans : Nat → ZoneAns}
    (hans : ∀ i, (ans i).ret = 0 → (ans i).status = 0) (is : List Nat) (z : Ztl) :
    ∃ vz dev, (resetZones n ans is z).1 = { z with vzones := vz, dev := dev } ∧
      ZonesReset z (is.map (z.vnodes n).vzones) vz ∧
      ((resetZones n ans is z).2 = 0 → ∀ j ∈ is.map (z.vnodes n).vzones,
        (vz j).wptr = (z.vzones j).sect ∧ (vz j).wptrInflight = (z.vzones j).sect) := by
  induction is generalizing z with
  | nil =>
    exact ⟨z.vzones, z.dev, rfl, ⟨fun _ => rfl, fun _ => rfl, fun _ _ => rfl⟩, fun _ j hj => by
      cases hj⟩
  | cons i is ih =>
    by_cases hf : (ans i).ret ≠ 0
    · have hzn : ztlMgmtNodeResetZn z ((z.vnodes n).vzones i) (ans i) = (z, (ans i).ret) :=
        if_pos (Or.inl hf)
      have hres : resetZones n ans (i :: is) z = (z, (ans i).ret) := by
        rw [resetZones]
        simp only [hzn]
        rw [if_pos hf]
      rw [hres]
      exact ⟨z.vzones, z.dev, rfl, ⟨fun _ => rfl, fun _ => rfl, fun _ _ => rfl⟩, fun h0 =>
        absurd h0 hf⟩
    · -- the command has succeeded: the zone is reset, and the loop goes on
      have hret := not_not.mp hf
      obtain ⟨z1, hz1⟩ : ∃ z1, z1 = (ztlMgmtNodeResetZn z ((z.vnodes n).vzones i) (ans i)).1 :=
        ⟨_, rfl⟩
      have hzn : ztlMgmtNodeResetZn z ((z.vnodes n).vzones i) (ans i) = (z1, 0) := by
        rw [hz1, ztlMgmtNodeResetZn, if_neg (by simp [hret, hans i hret]), hret]
      have hres : resetZones n ans (i :: is) z = resetZones n ans is z1 := by
        rw [resetZones]
        simp only [hzn]
        rw [if_neg (by simp)]
      rw [ztlMgmtNodeResetZn, if_neg (by simp [hret, hans i hret])] at hz1
      have hnode : z1.vnodes = z.vnodes := by rw [hz1]
      have hself : z1.vzones ((z.vnodes n).vzones i) =
          { z.vzones ((z.vnodes n).vzones i) with
            wptr := (z.vzones ((z.vnodes n).vzones i)).sect
            wptrInflight := (z.vzones ((z.vnodes n).vzones i)).sect } := by
        rw [hz1]
        exact update_self _ _ _
      have hother : ∀ j, j ≠ (z.vnodes n).vzones i → z1.vzones j = z.vzones j := fun j hj => by
        rw [hz1]
        exact update_of_ne hj _ _
      have hfix : ∀ j, (z1.vzones j).zone = (z.vzones j).zone ∧
          (z1.vzones j).sect = (z.vzones j).sect := fun j => by
        by_cases e : j = (z.vnodes n).vzones i
        · rw [e, hself]
          exact ⟨rfl, rfl⟩
        · rw [hother j e]
          exact ⟨rfl, rfl⟩
      obtain ⟨vz, dev, e, hzr, hok⟩ := ih z1
      rw [hnode] at hzr hok
      rw [hres]
      refine ⟨vz, dev, ?_, ⟨fun j => ?_, fun j => ?_, fun j hj => ?_⟩, fun h0 j hj => ?_⟩
      · rw [e, hz1]
      · rw [hzr.zone, (hfix j).1]
      · rw [hzr.sect, (hfix j).2]
      · rw [map_cons, mem_cons, not_or] at hj
        rw [hzr.other j hj.2, hother j hj.1]
      · rw [← (hfix j).2]
        by_cases hmem : j ∈ is.map (z.vnodes n).vzones
        · exact hok h0 j hmem
        · obtain rfl := (mem_cons.mp hj).resolve_right hmem
          rw [hzr.other _ hmem, hself]
          exact ⟨rfl, rfl⟩

/-- The state after a node reset that was carried out. -/
structure ResetDone (z : Ztl) (n : Nat) (z' : Ztl) : Prop where
  nnodes : z'.nnodes = z.nnodes
  node_self : z'.vnodes n = { z.vnodes n with
    status := .free, left := ztlProOptSecNumInnode, used := 0, nrValid := 0, level := -1 }
  node_of_ne : ∀ m, m ≠ n → z'.vnodes m = z.vnodes m
  zone : ∀ j, (z'.vzones j).zone = (z.vzones j).zone
  sect : ∀ j, (z'.vzones j).sect = (z.vzones j).sect
  inflight_self : ∀ i < ztlProZoneNumInnode,
    (z'.vzones ((z.vnodes n).vzones i)).wptrInflight = (z.vzones ((z.vnodes n).vzones i)).sect
  inflight_other : ∀ j, (∀ i < ztlProZoneNumInnode, (z.vnodes n).vzones i ≠ j) →
    (z'.vzones j).wptrInflight = (z.vzones j).wptrInflight
  lists : z'.lists = (z.lists.remove .fullHead n).insertTail .freeHead n
  nfree : z'.nfree = (z.nfree + 1) % 2 ^ 32
  qnode : z'.qnode = z.qnode
  submitHead : z'.submitHead = z.submitHead

/-- The state after a node reset that has failed: a counter, zones of the node and the device. -/
structure ResetFailed (z : Ztl) (n : Nat) (z' : Ztl) : Prop where
  state : z' = { z with
    vnodes := update z.vnodes n
      { z.vnodes n with nrResetErr := (z.vnodes n).nrResetErr + 1 }
    vzones := z'.vzones
    dev := z'.dev }
  zones : ZonesReset z ((List.range ztlProZoneNumInnode).map (z.vnodes n).vzones) z'.vzones

/-- **A node reset** is carried out whole, or leaves the node as it is but for some of its zones. -/
theorem ztlMgmtNodeReset_cases (z : Ztl) (n : Nat) {ans : Nat → ZoneAns}
    (hans : ∀ i, (ans i).ret = 0 → (ans i).status = 0) :
    (ztlMgmtNodeReset z n ans).2 ≠ 0 ∧ ResetFailed z n (ztlMgmtNodeReset z n ans).1 ∨
      (ztlMgmtNodeReset z n ans).2 = 0 ∧ ResetDone z n (ztlMgmtNodeReset z n ans).1 ∧
        (∀ i < ztlProZoneNumInnode,
          ((ztlMgmtNodeReset z n ans).1.vzones ((z.vnodes n).vzones i)).wptr
            = (z.vzones ((z.vnodes n).vzones i)).sect) ∧
        ∀ j, (∀ i < ztlProZoneNumInnode, (z.vnodes n).vzones i ≠ j) →
          (ztlMgmtNodeReset z n ans).1.vzones j = z.vzones j := by
  obtain ⟨vz, dev, e, hzr, hok⟩ := resetZones_spec hans (List.range ztlProZoneNumInnode) z
  rcases hr : resetZones n ans (List.range ztlProZoneNumInnode) z with ⟨z1, ret⟩
  rw [hr] at e hok
  have hz1 : z1 = { z with vzones := vz, dev := dev } := e
  have hnode : z1.vnodes = z.vnodes := by rw [hz1]
  have hvz : z1.vzones = vz := by rw [hz1]
  have hmem : ∀ i < ztlProZoneNumInnode, (z.vnodes n).vzones i ∈
      (List.range ztlProZoneNumInnode).map (z.vnodes n).vzones := fun i hi =>
    mem_map_of_mem (mem_range.mpr hi)
  have hnot : ∀ j, (∀ i < ztlProZoneNumInnode, (z.vnodes n).vzones i ≠ j) →
      j ∉ (List.range ztlProZoneNumInnode).map (z.vnodes n).vzones := fun j hj hm => by
    obtain ⟨i, hi, e⟩ := mem_map.mp hm
    exact hj i (mem_range.mp hi) e
  by_cases h0 : ret ≠ 0
  · have heq : ztlMgmtNodeReset z n ans = (z1.setNode n { z1.vnodes n with
        nrResetErr := (z1.vnodes n).nrResetErr + 1 }, ret) := by
      rw [ztlMgmtNodeReset]
      simp only [hr]
      rw [if_pos h0]
    rw [heq]
    refine Or.inl ⟨h0, ?_, ?_⟩
    · rw [hz1]
      rfl
    · rw [Ztl.setNode_vzones, hvz]
      exact hzr
  · have hret := not_not.mp h0
    obtain ⟨z', hz'⟩ : ∃ z', z' = (ztlMgmtNodeReset z n ans).1 := ⟨_, rfl⟩
    have hsnd : (ztlMgmtNodeReset z n ans).2 = 0 := by
      rw [ztlMgmtNodeReset]
      simp only [hr]
      rw [if_neg h0]
      exact hret
    have hz'eq := hz'
    rw [ztlMgmtNodeReset] at hz'
    simp only [hr] at hz'
    rw [if_neg h0] at hz'
    rw [← hz'eq]
    have hvz' : z'.vzones = vz := by rw [hz', ← hvz]; rfl
    refine Or.inr ⟨hsnd, ⟨?_, ?_, fun m hm => ?_, ?_, ?_, fun i hi => ?_, fun j hj => ?_, ?_, ?_,
      ?_, ?_⟩, fun i hi => ?_, fun j hj => ?_⟩
    · rw [hz', hz1]
      rfl
    · rw [hz', ← hnode]
      exact Ztl.setNode_self _ _ _
    · rw [hz', ← hnode]
      exact Ztl.setNode_of_ne _ _ hm
    · rw [hvz']
      exact hzr.zone
    · rw [hvz']
      exact hzr.sect
    · rw [hvz']
      exact (hok hret _ (hmem i hi)).2
    · rw [hvz', hzr.other j (hnot j hj)]
    · rw [hz', hz1]
      rfl
    · rw [hz', hz1]
      rfl
    · rw [hz', hz1]
      rfl
    · rw [hz', hz1]
      rfl
    · rw [hvz']
      exact (hok hret _ (hmem i hi)).1
    · rw [hvz', hzr.other j (hnot j hj)]

/-! ### A reset whose zone commands succeed -/

/-- Every zone command succeeds. -/
def zonesOk : Nat → ZoneAns := fun _ => ⟨0, 0⟩

theorem resetZones_zonesOk (n : Nat) (is : List Nat) (z : Ztl) :
    (resetZones n zonesOk is z).2 = 0 := by
  induction is generalizing z with
  | nil => rfl
  | cons i is ih =>
    rw [resetZones]
    exact ih _

theorem ztlMgmtNodeReset_ok (z : Ztl) (n : Nat) :
    (ztlMgmtNodeReset z n zonesOk).2 = 0 ∧ ResetDone z n (ztlMgmtNodeReset z n zonesOk).1 := by
  have h0 : (ztlMgmtNodeReset z n zonesOk).2 = 0 := by
    have := resetZones_zonesOk n (List.range ztlProZoneNumInnode) z
    rw [ztlMgmtNodeReset]
    simp only [this, ne_eq, not_true_eq_false, if_false]
  have hok : ∀ i, (zonesOk i).ret = 0 → (zonesOk i).status = 0 := fun _ _ => rfl
  rcases ztlMgmtNodeReset_cases z n hok with ⟨hne, -⟩ | ⟨-, hd, -⟩
  · exact absurd h0 hne
  · exact ⟨h0, hd⟩

theorem ResetDone.geometry (hd : ResetDone z n z') (hg : Geometry z) : Geometry z' := by
  refine ⟨fun m hm i hi => ?_, fun j hj => ?_, fun j hj => ?_⟩
  · have hslot := hg.slot m (hd.nnodes ▸ hm) i hi
    by_cases e : m = n
    · subst e
      rw [hd.node_self]
      exact hslot
    · rw [hd.node_of_ne m e]
      exact hslot
  · rw [hd.zone]
    exact hg.zone j (hd.nnodes ▸ hj)
  · rw [hd.sect]
    exact hg.sect j (hd.nnodes ▸ hj)

theorem Geometry.slot_ne (hg : Geometry z) (hn : n < z.nnodes) {m i : Nat}
    (hm : m ≠ n) (hi : i < ztlProZoneNumInnode) :
    ∀ k < ztlProZoneNumInnode, (z.vnodes n).vzones k ≠ ztlProZoneNumInnode * m + i := by
  intro k hk e
  rw [hg.slot n hn k hk] at e
  simp only [ztlProZoneNumInnode] at *
  omega

/-- The node is placed at its start, wherever its zones stood before. -/
theorem ResetDone.placed {m : Nat} (hd : ResetDone z n z') (hg : Geometry z)
    (hn : n < z.nnodes) (hp : m ≠ n → Placed z m) : Placed z' m := by
  intro i hi
  by_cases e : m = n
  · subst e
    have h0 : unitsAt 0 i = 0 := by simp only [unitsAt, ztlProZoneNumInnode] at *; omega
    have hself := hd.inflight_self i hi
    rw [hg.slot m hn i hi] at hself
    rw [hd.node_self, hself, hg.sect _ (by simp only [ztlProZoneNumInnode] at *; omega), h0,
      Nat.mul_zero, Nat.add_zero]
  · rw [hd.node_of_ne m e, hd.inflight_other _ (hg.slot_ne hn e hi)]
    exact hp e i hi

/-- **A reset keeps the invariant** when the node is on the full list. -/
theorem Alloc.reset {parts : NodeList → List Nat} (h : Alloc z parts)
    (hn : n ∈ parts .fullHead) (hd : ResetDone z n z') :
    Alloc z' (moved parts .fullHead .freeHead n) := by
  have hm := fun {x y} => h.queues.mem_moved (x := x) (y := y) hn (k := .freeHead) (by simp)
  have hlt := h.lt hn
  have hnn := hd.nnodes
  refine
    { geometry := hd.geometry h.geometry
      placed := fun m hmn => hd.placed h.geometry hlt fun _ => h.placed m (hnn ▸ hmn)
      small := hnn ▸ h.small
      balance := fun m hmn => ?_
      queues := hd.lists ▸ h.queues.move hn (by simp)
      mem := fun m => hnn ▸ h.mem_move hn (by simp) m
      nfree := ?_
      free := fun m hmem => ?_
      used := fun m hmem => ?_
      full := fun m hmem => ?_
      current := fun {q m} ha => ?_
      owned := fun m hmem hs => ?_
      inj := fun ha hb => h.inj (hd.qnode ▸ ha) (hd.qnode ▸ hb) }
  · by_cases e : m = n
    · subst e
      rw [hd.node_self]
      simp
    · rw [hd.node_of_ne m e]
      exact h.balance m (hnn ▸ hmn)
  · have hle := h.length_le .freeHead
    have hsmall := h.small
    rw [hd.nfree, h.nfree, TailQueue.moved, update_self, length_append]
    simp only [length_cons, length_nil]
    omega
  · rcases hm.mp hmem with ⟨rfl, -⟩ | ⟨hne, hmem⟩
    · rw [hd.node_self]
      exact ⟨rfl, rfl, rfl, rfl, rfl⟩
    · rw [hd.node_of_ne m hne]
      exact h.free m hmem
  · obtain ⟨hne, hmem⟩ := (hm.mp hmem).resolve_left (by simp)
    rw [hd.node_of_ne m hne]
    exact h.used m hmem
  · obtain ⟨hne, hmem⟩ := (hm.mp hmem).resolve_left (by simp)
    rw [hd.node_of_ne m hne]
    exact h.full m hmem
  · have hused := h.qnode_mem (hd.qnode ▸ ha)
    refine hm.mpr (Or.inr ⟨fun e => ?_, hused⟩)
    cases h.queues.disj hused (e ▸ hn)
  · obtain ⟨hne, hmem⟩ := (hm.mp hmem).resolve_left (by simp)
    rw [hd.qnode]
    exact h.owned m hmem (hd.node_of_ne m hne ▸ hs)

end Xztl
