import Xztl.Ztl.Progress

/-!
# Ztl — the write command (`ztl-io.c`, `ztl_io_write_ucmd`)

A write takes units from the current node of its level queue.  What does not fit in the node goes,
through `reget`, to the next free node; each node contributes one piece.  `ztl_pro_new` cannot fail,
so the `FAIL_NCMD` path is never taken.

The addresses come from the zones' in-flight write pointers.  `Placed` ties these to the node's
`used` counter, and `writePiece_spec` says what a piece does in terms of the node alone: unit `u` of
node `n` lives at sector `unitSect n u`, and the piece writes the units from `used` on.
-/

namespace Xztl

open Function

/-- A user write command: the fields of `struct xztl_io_ucmd` the caller sets, and the statuses the
device gives to the attempts at each unit. -/
structure WriteReq where
  buf : Nat → UInt8
  size : Nat
  provType : Nat
  fate : Nat → Nat → Nat

/-- One entry of `ucmd->node_id`, `ucmd->start` and `ucmd->num`. -/
structure Piece where
  nodeId : Nat
  start : Nat
  num : Nat
deriving DecidableEq, Repr

/-- What a write command reports: `ucmd->status` and the pieces. -/
structure Ucmd where
  status : Nat
  pieces : List Piece
deriving DecidableEq, Repr

/-- The length of `ucmd->node_id`, `ucmd->start` and `ucmd->num`. -/
def ucmdPieceNum : Nat := 2

/-- The node's counters after a piece. -/
def Node.wrote (nd : Node) (num : Nat) : Node :=
  { nd with
    left := nd.left - num
    used := nd.used + num
    nrValid := nd.nrValid + num
    status := if nd.left - num = 0 then .full else nd.status }

/-- The request for `num` units of node `n`: provisioned addresses and populated commands, the data
from `boff` on. -/
def pieceReq (w : WriteReq) (z : Ztl) (n num boff : Nat) : Req :=
  let prov := (ztlProGrpGet z num n (z.vnodes n).used).2
  let pop := populate prov num boff
  { buf := w.buf, fate := w.fate, prov := prov, mcmd := pop.mcmd, znCmdId := pop.znCmdId,
    num := num }

/-- Provision, populate, submit and complete `num` units of node `n`; the result has the new
`ucmd->status` and `boff`.  The command slots `q->mcmd` bound the length of a piece. -/
def writePiece (w : WriteReq) (z : Ztl) (n num boff status : Nat) (ans : List MediaAns) :
    Except Stop (Ztl × Nat × Nat × List MediaAns) :=
  let nd := z.vnodes n
  let r := pieceReq w z n num boff
  let z := (ztlProGrpGet z num n nd.used).1
  if ztlIoRcNum < num then .error .outOfBounds
  else do
    let (s, ans) ← submitPiece r z.dev z.vzones status ans
    let z := { z with dev := s.dev, vzones := s.vzones }
    return (z.setNode n (nd.wrote num), s.status, (populate r.prov num boff).boff, ans)

/-- A node without a level takes the level of its first write. -/
def setLevel (z : Ztl) (n provType : Nat) : Ztl :=
  let nd := z.vnodes n
  z.setNode n { nd with level := if nd.level = -1 then (provType : Int) else nd.level }

/-- The `reget` loop.  A third piece would not fit in `ucmd`, so three rounds of fuel are all the
loop can use. -/
def reget (w : WriteReq) :
    (fuel : Nat) → Ztl → (left boff : Nat) → Ucmd → List MediaAns → Except Stop (Ztl × Ucmd)
  | 0, _, _, _, _, _ => .error .outOfBounds
  | fuel + 1, z, left, boff, u, ans =>
    match ztlProGrpGetNode z w.provType with
    | (z, false) => .ok (z, { u with status := xztlZtlIoSErr })
    | (z, true) =>
      match z.qnode w.provType with
      | none => .error .outOfBounds
      | some n =>
        let nd := z.vnodes n
        let num := if nd.left ≤ left then nd.left else left
        if u.pieces.length < ucmdPieceNum then do
          let (z, status, boff, ans) ←
            writePiece w (setLevel z n w.provType) n num boff u.status ans
          let u := { status := status, pieces := u.pieces ++ [⟨n, nd.used, num⟩] }
          if 0 < left - num then reget w fuel z (left - num) boff u ans
          else return (z, u)
        else .error .outOfBounds

/-- `ztl_io_write_ucmd`.  `nsec` is 32 bits wide. -/
def ztlIoWriteUcmd (w : WriteReq) (z : Ztl) (ans : List MediaAns) : Except Stop (Ztl × Ucmd) :=
  let nsec := w.size / znsAligment % 2 ^ 32
  if w.size % (znsAligment * ztlIoSecMcmd) ≠ 0 then .ok (z, ⟨xztlZtlIoSErr, []⟩)
  else
    let ncmd := nsec / ztlIoSecMcmd
    if xztlIoMaxMcmd < ncmd then .ok (z, ⟨xztlZtlIoSErr, []⟩)
    else reget w (ucmdPieceNum + 1) z ncmd 0 ⟨0, []⟩ ans

/-! ### Where the units of a node are -/

/-- The first sector of unit `u` of node `n`. -/
def unitSect (n u : Nat) : Nat :=
  (ztlProZoneNumInnode * n + u % ztlProZoneNumInnode + metadataZoneNum) * ztlProSecNumInzone
    + ztlIoSecMcmd * (u / ztlProZoneNumInnode)

/-- The zones of the group: slot `i` of node `n` is zone `64 n + i`, behind the metadata zones. -/
structure Geometry (z : Ztl) : Prop where
  slot : ∀ n < z.nnodes, ∀ i < ztlProZoneNumInnode,
    (z.vnodes n).vzones i = ztlProZoneNumInnode * n + i
  zone : ∀ j < ztlProZoneNumInnode * z.nnodes, (z.vzones j).zone = j + metadataZoneNum
  sect : ∀ j < ztlProZoneNumInnode * z.nnodes,
    (z.vzones j).sect = (j + metadataZoneNum) * ztlProSecNumInzone

theorem Geometry.congr {z z' : Ztl} (h : Geometry z) (hn : z'.nnodes = z.nnodes)
    (hv : z'.vnodes = z.vnodes) (hz : z'.vzones = z.vzones) : Geometry z' :=
  ⟨hn ▸ hv ▸ h.slot, hn ▸ hz ▸ h.zone, hn ▸ hz ▸ h.sect⟩

/-- The in-flight pointers of a node's zones stand where its `used` counter says. -/
def Placed (z : Ztl) (n : Nat) : Prop :=
  ∀ i < ztlProZoneNumInnode, (z.vzones (ztlProZoneNumInnode * n + i)).wptrInflight =
    (ztlProZoneNumInnode * n + i + metadataZoneNum) * ztlProSecNumInzone
      + ztlIoSecMcmd * unitsAt (z.vnodes n).used i

theorem Geometry.slotsInj {z : Ztl} (hg : Geometry z) {n : Nat} (hn : n < z.nnodes) :
    (z.vnodes n).SlotsInj := by
  intro i hi j hj e
  rw [hg.slot n hn i hi, hg.slot n hn j hj] at e
  omega

/-- A sector of a unit gives away the unit's zone and its place there. -/
theorem unitSect_inv {n u x : Nat} (hu : u < ztlProOptSecNumInnode)
    (h : unitSect n u ≤ x ∧ x < unitSect n u + ztlIoSecMcmd) :
    x / 24576 = 64 * n + u % 64 + 2 ∧ x % 24576 / 8 = u / 64 := by
  rw [ztlProOptSecNumInnode_eq] at hu
  simp only [unitSect, ztlProZoneNumInnode, metadataZoneNum, ztlProSecNumInzone_eq,
    ztlIoSecMcmd] at h
  generalize 64 * n + u % 64 + 2 = c at *
  omega

/-- No two units share a sector. -/
theorem unitSect_disj {n u n' u' x : Nat} (hu : u < ztlProOptSecNumInnode)
    (hu' : u' < ztlProOptSecNumInnode)
    (h : unitSect n u ≤ x ∧ x < unitSect n u + ztlIoSecMcmd)
    (h' : unitSect n' u' ≤ x ∧ x < unitSect n' u' + ztlIoSecMcmd) : n = n' ∧ u = u' := by
  obtain ⟨hz, hp⟩ := unitSect_inv hu h
  obtain ⟨hz', hp'⟩ := unitSect_inv hu' h'
  omega

/-! ### What a piece does -/

section

variable {w : WriteReq} {z : Ztl} {n num boff : Nat}

theorem pieceReq_prov (hg : Geometry z) (hn : n < z.nnodes) :
    (pieceReq w z n num boff).prov = (List.range (min num ztlProZoneNumInnode)).map
      (provAddr (z.vnodes n) num (z.vnodes n).used z.vzones) :=
  ztlProGrpGet_addrs (hg.slotsInj hn)

theorem pieceReq_pop (hg : Geometry z) (hn : n < z.nnodes) :
    PopInv (fun i => (pieceReq w z n num boff).prov.getD i ⟨0, 0, 0⟩) num boff num
      (populate (pieceReq w z n num boff).prov num boff) := by
  have hprov : (pieceReq w z n num boff).prov = _ := pieceReq_prov hg hn
  refine populate_inv (by rw [hprov]; simp) fun i hi => ?_
  rw [hprov]
  simp [List.getD_eq_getElem?_getD, hi, provAddr]

/-- **Where the commands go.**  Command `k` of a piece writes unit `used + k` of the node, with the
data `k` units after the start. -/
theorem pieceReq_cmd (hg : Geometry z) (hn : n < z.nnodes) (hp : Placed z n) {k : Nat}
    (hk : k < num) :
    let m := (pieceReq w z n num boff).cmd k
    m.sect = unitSect n ((z.vnodes n).used + k) ∧ m.nsec = ztlIoSecMcmd ∧
      m.sequenceZn = k % ztlProZoneNumInnode ∧ m.prp = boff + unitBytes * k := by
  have hm : (pieceReq w z n num boff).cmd k =
      mcmdAt (fun i => (pieceReq w z n num boff).prov.getD i ⟨0, 0, 0⟩) boff k := by
    show (populate (pieceReq w z n num boff).prov num boff).mcmd.getD k _ = _
    rw [(pieceReq_pop (w := w) hg hn).mcmd]
    simp [List.getD_eq_getElem?_getD, hk]
  have hk64 : k % ztlProZoneNumInnode < min num ztlProZoneNumInnode := by
    simp only [ztlProZoneNumInnode]; omega
  have hpos := zonePos_lt (z.vnodes n).used (k % ztlProZoneNumInnode)
  have haddr : ((pieceReq w z n num boff).prov.getD (k % ztlProZoneNumInnode) ⟨0, 0, 0⟩).sect =
      (ztlProZoneNumInnode * n + zonePos (z.vnodes n).used (k % ztlProZoneNumInnode)
          + metadataZoneNum) * ztlProSecNumInzone
        + ztlIoSecMcmd * unitsAt (z.vnodes n).used
            (zonePos (z.vnodes n).used (k % ztlProZoneNumInnode)) := by
    rw [pieceReq_prov hg hn, ← hp _ hpos, ← hg.slot n hn _ hpos]
    simp [List.getD_eq_getElem?_getD, hk64, provAddr]
  simp only [hm, mcmdAt, haddr, and_self, and_true]
  generalize (z.vnodes n).used = U at *
  simp only [unitSect, zonePos, unitsAt, ztlProZoneNumInnode, metadataZoneNum,
    ztlProSecNumInzone_eq, ztlIoSecMcmd]
  omega

/-- Unit `i` of the request is stored: one of its attempts has status zero. -/
def WriteReq.Stores (w : WriteReq) (i : Nat) : Prop := ∃ j < maxCallbackErrCnt, w.fate i j = 0

/-- Sector `x` belongs to unit `u` of node `n`. -/
def InUnit (n u x : Nat) : Prop := unitSect n u ≤ x ∧ x < unitSect n u + ztlIoSecMcmd

/-- The request for a piece that fits in the node is well formed. -/
theorem pieceReq_wf (hg : Geometry z) (hn : n < z.nnodes) (hp : Placed z n)
    (hfit : (z.vnodes n).used + num ≤ ztlProOptSecNumInnode) :
    (pieceReq w z n num boff).WF where
  nsec := fun k hk => (pieceReq_cmd hg hn hp hk).2.1
  zn := fun k hk => (pieceReq_cmd hg hn hp hk).2.2.1
  ids := fun z' hz' => by
    rw [← filter_mod_range hz']
    exact (pieceReq_pop (w := w) hg hn).ids z'
  len := by
    rw [pieceReq_prov hg hn]
    simp [pieceReq]
  disj := fun k hk l hl x hkx hlx => by
    have hk' : k < num := hk
    have hl' : l < num := hl
    rw [Req.Covers, (pieceReq_cmd hg hn hp hk').1] at hkx
    rw [Req.Covers, (pieceReq_cmd hg hn hp hl').1] at hlx
    have := (unitSect_disj (by omega) (by omega) hkx hlx).2
    omega

/-- Everything a piece does, in terms of the units of its node: `num` units from `used` on take
the units from `b` on of the buffer. -/
structure PieceDone (w : WriteReq) (z : Ztl) (n num b : Nat) (z' : Ztl) : Prop where
  state : z' = { z with
    vnodes := update z.vnodes n ((z.vnodes n).wrote num)
    vzones := z'.vzones
    dev := z'.dev }
  geometry : Geometry z'
  placed : ∀ m < z.nnodes, Placed z m → Placed z' m
  log : ∃ L, z'.dev.log = L ++ z.dev.log ∧ ∀ r, r ∈ L ↔
    ∃ k < num, w.Stores (b + k) ∧ r = ⟨unitSect n ((z.vnodes n).used + k), unitBytes * (b + k)⟩
  data : ∀ k < num, w.Stores (b + k) → ∀ x, InUnit n ((z.vnodes n).used + k) x → ∀ i,
    z'.dev.data x i = w.buf (unitBytes * (b + k)
      + (x - unitSect n ((z.vnodes n).used + k)) * znsAligment + i)
  frame : ∀ x, (∀ k < num, ¬ InUnit n ((z.vnodes n).used + k) x) → ∀ i,
    z'.dev.data x i = z.dev.data x i

section

variable {b : Nat} {z' : Ztl} (hd : PieceDone w z n num b z')

include hd

theorem PieceDone.nnodes : z'.nnodes = z.nnodes := by rw [hd.state]
theorem PieceDone.lists : z'.lists = z.lists := by rw [hd.state]
theorem PieceDone.nfree : z'.nfree = z.nfree := by rw [hd.state]
theorem PieceDone.qnode : z'.qnode = z.qnode := by rw [hd.state]
theorem PieceDone.submitHead : z'.submitHead = z.submitHead := by rw [hd.state]

theorem PieceDone.node_self : z'.vnodes n = (z.vnodes n).wrote num := by
  rw [hd.state]
  exact update_self _ _ _

theorem PieceDone.node_of_ne {m : Nat} (hne : m ≠ n) : z'.vnodes m = z.vnodes m := by
  rw [hd.state]
  exact update_of_ne hne _ _

end

/-- The zones of node `n` after the request, and every other zone. -/
theorem sharedOut_inflight (hg : Geometry z) (hn : n < z.nnodes) {m i : Nat}
    (hi : i < ztlProZoneNumInnode) :
    (sharedOut (z.vnodes n) num (z.vnodes n).used z.vzones (min num ztlProZoneNumInnode)
        (ztlProZoneNumInnode * m + i)).wptrInflight =
      (z.vzones (ztlProZoneNumInnode * m + i)).wptrInflight +
        if m = n then ztlIoSecMcmd *
          (unitsAt ((z.vnodes n).used + num) i - unitsAt (z.vnodes n).used i) else 0 := by
  set U := (z.vnodes n).used with hU
  by_cases hmn : m = n
  · subst hmn
    obtain ⟨k, hk, rfl⟩ := exists_zonePos U hi
    rw [if_pos rfl, unitsAt_add hk, Nat.add_sub_cancel_left, ← hg.slot m hn _ hi]
    by_cases hkn : k < min num ztlProZoneNumInnode
    · rw [sharedOut_visited (hg.slotsInj hn) hkn (by omega), zoneShare_eq_unitsAt hk, Nat.mul_comm]
    · -- fewer than 64 units, and the `k`-th zone is not reached
      have h0 : unitsAt num k = 0 := by
        simp only [unitsAt, ztlProZoneNumInnode] at *; omega
      rw [h0, sharedOut_next (hg.slotsInj hn) (by omega) hk]
      rfl
  · rw [if_neg hmn, Nat.add_zero]
    refine congrArg Zone.wptrInflight (sharedOut_not_visited fun k _ e => hmn ?_)
    rw [hg.slot n hn _ (zonePos_lt U k)] at e
    have := zonePos_lt U k
    simp only [ztlProZoneNumInnode] at *
    omega

/-- The zones when a piece is finished: the numbers and start sectors are the old ones, and the
in-flight pointers have moved by the units of the piece. -/
structure ZonesMoved (z : Ztl) (n num : Nat) (vz : Nat → Zone) : Prop where
  zone : ∀ j, (vz j).zone = (z.vzones j).zone
  sect : ∀ j, (vz j).sect = (z.vzones j).sect
  inflight : ∀ m, ∀ i < ztlProZoneNumInnode, (vz (ztlProZoneNumInnode * m + i)).wptrInflight =
    (z.vzones (ztlProZoneNumInnode * m + i)).wptrInflight +
      if m = n then ztlIoSecMcmd *
        (unitsAt ((z.vnodes n).used + num) i - unitsAt (z.vnodes n).used i) else 0

theorem zonesMoved (hg : Geometry z) (hn : n < z.nnodes) {vz : Nat → Zone} {prov : List ProvAddr}
    (hvz : vz = if 0 < num then ztlProFree (ztlProGrpGet z num n (z.vnodes n).used).1.vzones prov
      else (ztlProGrpGet z num n (z.vnodes n).used).1.vzones) : ZonesMoved z n num vz := by
  have hst : (ztlProGrpGet z num n (z.vnodes n).used).1.vzones =
      sharedOut (z.vnodes n) num (z.vnodes n).used z.vzones (min num ztlProZoneNumInnode) := by
    rw [ztlProGrpGet_state (hg.slotsInj hn)]
  have hfree : ∀ j, (vz j).zone = (sharedOut (z.vnodes n) num (z.vnodes n).used z.vzones
        (min num ztlProZoneNumInnode) j).zone ∧
      (vz j).sect = (sharedOut (z.vnodes n) num (z.vnodes n).used z.vzones
        (min num ztlProZoneNumInnode) j).sect ∧
      (vz j).wptrInflight = (sharedOut (z.vnodes n) num (z.vnodes n).used z.vzones
        (min num ztlProZoneNumInnode) j).wptrInflight := by
    intro j
    rw [hvz, hst]
    split
    · obtain ⟨h1, h2, -, h3⟩ := ztlProFree_fields prov (sharedOut (z.vnodes n) num (z.vnodes n).used
        z.vzones (min num ztlProZoneNumInnode)) j
      exact ⟨h1, h2, h3⟩
    · exact ⟨rfl, rfl, rfl⟩
  refine ⟨fun j => ?_, fun j => ?_, fun m i hi => ?_⟩
  · rw [(hfree j).1, (sharedOut_fields _ _ _ _ _ j).1]
  · rw [(hfree j).2.1, (sharedOut_fields _ _ _ _ _ j).2.1]
  · rw [(hfree _).2.2, sharedOut_inflight hg hn hi]

theorem unitsAt_mono (U num i : Nat) : unitsAt U i ≤ unitsAt (U + num) i := by
  simp only [unitsAt, ztlProZoneNumInnode]; omega

section

variable (hg : Geometry z) (hn : n < z.nnodes)
include hg hn

/-- **A piece.**  When `writePiece` returns, it has written `num` units of node `n` from `used` on,
and nothing else has changed but the node's counters and its zones' pointers. -/
theorem writePiece_spec {b status status' boff' : Nat} {ans ans' : List MediaAns} {z' : Ztl}
    (hp : Placed z n) (hfit : (z.vnodes n).used + num ≤ ztlProOptSecNumInnode)
    (e : writePiece w z n num (unitBytes * b) status ans = .ok (z', status', boff', ans')) :
    num ≤ ztlIoRcNum ∧ boff' = unitBytes * (b + num) ∧ PieceDone w z n num b z' := by
  rw [writePiece] at e
  by_cases hnum : ztlIoRcNum < num
  · simp only [if_pos hnum] at e
    cases e
  simp only [if_neg hnum] at e
  obtain ⟨⟨s, ans1⟩, e1, e2⟩ := Except.bind_eq_ok.mp e
  cases e2
  have hwf : (pieceReq w z n num (unitBytes * b)).WF := pieceReq_wf hg hn hp hfit
  obtain ⟨⟨L, hL⟩, hvz⟩ := submit_spec hwf e1
  have hzm : ZonesMoved z n num s.vzones := zonesMoved hg hn hvz
  have hst : (ztlProGrpGet z num n (z.vnodes n).used).1 = _ := ztlProGrpGet_state (hg.slotsInj hn)
  have hcmd : ∀ {k}, k < num → let m := (pieceReq w z n num (unitBytes * b)).cmd k
      m.sect = unitSect n ((z.vnodes n).used + k) ∧ m.nsec = ztlIoSecMcmd ∧
        m.sequenceZn = k % ztlProZoneNumInnode ∧ m.prp = unitBytes * b + unitBytes * k :=
    fun hk => pieceReq_cmd hg hn hp hk
  have hprp : ∀ k < num, ((pieceReq w z n num (unitBytes * b)).cmd k).prp = unitBytes * (b + k) :=
    fun k hk => by rw [(hcmd hk).2.2.2, Nat.mul_add]
  have hsucc : ∀ k < num, (pieceReq w z n num (unitBytes * b)).Succ k ↔ w.Stores (b + k) := by
    intro k hk
    simp only [Req.Succ, Req.status, hprp k hk, Nat.mul_div_cancel_left _ (show 0 < unitBytes by
      rw [unitBytes_eq]; omega)]
    rfl
  have hcov : ∀ k < num, ∀ x, (pieceReq w z n num (unitBytes * b)).Covers k x ↔
      InUnit n ((z.vnodes n).used + k) x := fun k hk x => by
    rw [Req.Covers, (hcmd hk).1, InUnit]
  refine ⟨Nat.le_of_not_lt hnum, ?_, ?_⟩
  · rw [(pieceReq_pop (w := w) hg hn).next, Nat.mul_add]
  refine ⟨?_, ⟨?_, ?_, ?_⟩, ?_, ⟨L, ?_, ?_⟩, ?_, ?_⟩
  · rw [hst]
    rfl
  · intro m hm i hi
    by_cases e : m = n
    · subst e
      rw [Ztl.setNode_self]
      exact hg.slot m hn i hi
    · rw [Ztl.setNode_of_ne _ _ e, hst]
      exact hg.slot m (by rw [hst] at hm; exact hm) i hi
  · intro j hj
    show (s.vzones j).zone = _
    rw [hzm.zone]
    exact hg.zone j (by rw [hst] at hj; exact hj)
  · intro j hj
    show (s.vzones j).sect = _
    rw [hzm.sect]
    exact hg.sect j (by rw [hst] at hj; exact hj)
  · intro m _ hpm i hi
    rw [Ztl.setNode_vzones]
    rw [hzm.inflight m i hi, hpm i hi]
    by_cases e : m = n
    · subst e
      rw [if_pos rfl, Ztl.setNode_self]
      have := unitsAt_mono (z.vnodes m).used num i
      simp only [Node.wrote, ztlIoSecMcmd]
      omega
    · rw [if_neg e, Ztl.setNode_of_ne _ _ e, hst, Nat.add_zero]
  · rw [hst] at hL
    exact hL.log
  · intro r
    rw [hL.recs]
    constructor
    · rintro ⟨k, hk, hs, rfl⟩
      exact ⟨k, hk, (hsucc k hk).mp hs, by rw [Req.writeRec, (hcmd hk).1, hprp k hk]⟩
    · rintro ⟨k, hk, hs, rfl⟩
      exact ⟨k, hk, (hsucc k hk).mpr hs, by rw [Req.writeRec, (hcmd hk).1, hprp k hk]⟩
  · intro k hk hs x hx i
    have := hL.data k hk ((hsucc k hk).mpr hs) x ((hcov k hk x).mpr hx) i
    rw [hprp k hk, (hcmd hk).1] at this
    exact this
  · intro x hx i
    have := hL.frame x (fun k hk hc => hx k hk ((hcov k hk x).mp hc)) i
    rw [hst] at this
    exact this

/-- The write pointers move with the in-flight pointers. -/
theorem freed_wptr {m i : Nat} (hi : i < ztlProZoneNumInnode) {vz : Nat → Zone}
    (hvz : ∀ j, (vz j).wptr = (z.vzones j).wptr) :
    (ztlProFree vz (pieceReq w z n num boff).prov (ztlProZoneNumInnode * m + i)).wptr =
      (z.vzones (ztlProZoneNumInnode * m + i)).wptr +
        if m = n then ztlIoSecMcmd *
          (unitsAt ((z.vnodes n).used + num) i - unitsAt (z.vnodes n).used i) else 0 := by
  set U := (z.vnodes n).used with hU
  have hzone : ∀ i < ztlProZoneNumInnode, (z.vzones ((z.vnodes n).vzones i)).zone =
      (z.vnodes n).vzones i + metadataZoneNum := fun i hi => by
    refine hg.zone _ ?_
    rw [hg.slot n hn i hi]
    simp only [ztlProZoneNumInnode] at *
    omega
  rw [pieceReq_prov hg hn, ← hU]
  by_cases hmn : m = n
  · subst hmn
    obtain ⟨k, hk, rfl⟩ := exists_zonePos U hi
    rw [if_pos rfl, unitsAt_add hk, Nat.add_sub_cancel_left, ← hg.slot m hn _ hi,
      ztlProFree_wptr (hg.slotsInj hn) hzone vz (Nat.min_le_right _ _) hk, hvz]
    by_cases hkn : k < min num ztlProZoneNumInnode
    · rw [if_pos hkn, zoneShare_eq_unitsAt hk, Nat.mul_comm]
    · -- fewer than 64 units, and the `k`-th zone is not reached
      have h0 : unitsAt num k = 0 := by
        simp only [unitsAt, ztlProZoneNumInnode] at *; omega
      rw [if_neg hkn, h0, Nat.mul_zero]
  · rw [if_neg hmn, Nat.add_zero, ztlProFree_other, hvz]
    intro a ha e
    obtain ⟨k, -, rfl⟩ := List.mem_map.mp ha
    have hpos := zonePos_lt U k
    rw [provAddr, hzone _ hpos, Nat.add_sub_cancel, hg.slot n hn _ hpos] at e
    simp only [ztlProZoneNumInnode] at *
    omega

/-- **The write pointers after a piece.** -/
theorem writePiece_wptr {b status status' boff' : Nat} {ans ans' : List MediaAns} {z' : Ztl}
    (hp : Placed z n) (hfit : (z.vnodes n).used + num ≤ ztlProOptSecNumInnode)
    (e : writePiece w z n num (unitBytes * b) status ans = .ok (z', status', boff', ans'))
    {m i : Nat} (hi : i < ztlProZoneNumInnode) :
    (z'.vzones (ztlProZoneNumInnode * m + i)).wptr =
      (z.vzones (ztlProZoneNumInnode * m + i)).wptr +
        if m = n then ztlIoSecMcmd *
          (unitsAt ((z.vnodes n).used + num) i - unitsAt (z.vnodes n).used i) else 0 := by
  rw [writePiece] at e
  by_cases hnum : ztlIoRcNum < num
  · simp only [if_pos hnum] at e
    cases e
  simp only [if_neg hnum] at e
  obtain ⟨⟨s, ans1⟩, e1, e2⟩ := Except.bind_eq_ok.mp e
  cases e2
  obtain ⟨-, hvz⟩ := submit_spec (pieceReq_wf hg hn hp hfit) e1
  have hst : ∀ j, ((ztlProGrpGet z num n (z.vnodes n).used).1.vzones j).wptr
      = (z.vzones j).wptr := fun j => by
    rw [ztlProGrpGet_state (hg.slotsInj hn)]
    exact (sharedOut_fields _ _ _ _ _ j).2.2.2
  show (s.vzones _).wptr = _
  rw [hvz, show (pieceReq w z n num (unitBytes * b)).num = num from rfl]
  by_cases h0 : 0 < num
  · rw [if_pos h0]
    exact freed_wptr hg hn hi hst
  · obtain rfl : num = 0 := by omega
    rw [if_neg h0, hst]
    simp

/-- **A piece of at most 1024 units can be completed.** -/
theorem exists_writePiece (hp : Placed z n)
    (hfit : (z.vnodes n).used + num ≤ ztlProOptSecNumInnode) (hnum : num ≤ ztlIoRcNum)
    (boff status : Nat) :
    ∃ pre z' status' boff', ∀ ans,
      writePiece w z n num boff status (pre ++ ans) = .ok (z', status', boff', ans) := by
  have hwf : (pieceReq w z n num boff).WF := pieceReq_wf hg hn hp hfit
  obtain ⟨pre, s', h⟩ := exists_answers hwf (ztlProGrpGet z num n (z.vnodes n).used).1.dev
    (ztlProGrpGet z num n (z.vnodes n).used).1.vzones status
  refine ⟨pre, Ztl.setNode { (ztlProGrpGet z num n (z.vnodes n).used).1 with
    dev := s'.dev, vzones := s'.vzones } n ((z.vnodes n).wrote num), s'.status,
    (populate (pieceReq w z n num boff).prov num boff).boff, fun ans => ?_⟩
  simp only [writePiece, if_neg (Nat.not_lt_of_le hnum), h ans]
  rfl

end

end

end Xztl
