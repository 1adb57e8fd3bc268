import Xztl.Ztl.Init

/-!
# Ztl — building the nodes from the zone report (`ztl-pro-grp.c`, `ztl_pro_grp_node_init`)

At start-up the zone table is created afresh (`ztl_zmd_create`) and one loop over the zones behind
the metadata zones builds the nodes: 64 zones make a node, two running sums over its zones say how
much of it is written, and when the next zone is met the node is filed as free, used or full.  The
loop ends at the first zone behind the last complete node.

`nodeInit_spec`: with at least one complete node, between one and 62 zones behind the last one and
20-bit zone numbers, the loop builds every node from the sums over its own 64 zones and files it on
the list these say.
-/

namespace Xztl

open Function List
open TailQueue (Heap Queues)

/-! ### The zone table and the report -/

/-- `enum xnvme_spec_znd_state`. -/
inductive ZndState where
  | empty | iopen | eopen | closed | readOnly | full | offline
deriving DecidableEq, Repr

/-- `struct xnvme_spec_znd_descr`: one zone of the device's report. -/
structure ZndDescr where
  zs : ZndState
  zcap : Nat
  wp : Nat

/-- The start sector of a zone. -/
def zoneStart (i : Nat) : Nat := ztlProSecNumInzone * i

/-- What a device says of a zone of 24576 sectors from `start` on: the capacity is not over the size,
and the pointer of a zone that is partly written lies in it. -/
def ZndDescr.InZone (start : Nat) (d : ZndDescr) : Prop :=
  d.zcap ≤ ztlProSecNumInzone ∧
    (d.zs = .eopen ∨ d.zs = .iopen ∨ d.zs = .closed → start ≤ d.wp ∧ d.wp ≤ start + d.zcap)

/-- `struct xnvme_znd_report`, as a device can give it. -/
structure ZndReport where
  descr : Nat → ZndDescr
  inZone : ∀ i, (descr i).InZone (zoneStart i)

instance instCoeFunZndReport : CoeFun ZndReport fun _ => Nat → ZndDescr := ⟨ZndReport.descr⟩

/-- The flags of a zone table entry: `XZTL_ZMD_USED`, `_OPEN`, `_RSVD` and `_AVLB`. -/
def xztlZmdUsed : Nat := 1
def xztlZmdOpen : Nat := 2
def xztlZmdRsvd : Nat := 4
def xztlZmdAvlb : Nat := 8

/-- `struct xztl_maddr`: the bit fields of its 64-bit word, the first in the lowest bits. -/
@[ext] structure Maddr where
  grp : BitVec 5
  punit : BitVec 3
  zone : BitVec 20
  sect : BitVec 36
deriving DecidableEq, Repr

/-- `struct app_zmd_entry`, with its address as it is packed. -/
structure ZmdRecord where
  flags : Nat
  level : UInt16
  addr : Maddr
  wptr : UInt64
  wptrInflight : UInt64
deriving DecidableEq, Repr

/-- The entry of zone `znI` as `ztl_zmd_create` fills it in.  The group's part of the sector is a
32-bit product, the zone's part a 64-bit one. -/
def zmdFill (secGrp secZn : UInt32) (id : UInt16) (znI : UInt64) : ZmdRecord :=
  let addr : Maddr :=
    { grp := id.toBitVec.setWidth 5
      punit := 0
      zone := znI.toBitVec.setWidth 20
      sect := ((secGrp * id.toUInt32).toUInt64 + secZn.toUInt64 * znI).toBitVec.setWidth 36 }
  let sect : UInt64 := ⟨addr.sect.setWidth 64⟩
  { flags := xztlZmdAvlb, level := 0, addr := addr, wptr := sect, wptrInflight := sect }

/-- The fields of an entry that the initialisation reads, as numbers. -/
structure ZmdEntry where
  zone : Nat
  sect : Nat
  flags : Nat
  wptr : Nat

def ZmdRecord.entry (e : ZmdRecord) : ZmdEntry :=
  ⟨e.addr.zone.toNat, e.addr.sect.toNat, e.flags, e.wptr.toNat⟩

/-- `ztl_zmd_create`, entry `i` of group 0 on a device of one group, whose zones have 24576 sectors. -/
def ztlZmdCreate (i : Nat) : ZmdEntry :=
  -- the sectors of the group count for the groups behind the first only
  (zmdFill 0 (.ofNat ztlProSecNumInzone) 0 (.ofNat i)).entry

/-! ### The loop -/

/-- The variables of the loop. -/
structure InitLoop where
  z : Ztl
  nodeI : Nat
  zoneNumInNode : Nat
  fullCount : Nat
  secNum : Nat

/-- A node and a zone as `calloc` leaves them. -/
def Node.cleared : Node := ⟨0, fun _ => 0, 0, 0, 0, 0, 0, .free, 0⟩
def Zone.cleared : Zone := ⟨0, 0, 0, 0, 0⟩

/-- `_ztl_pro_grp_new_pro` and the queues of a new process. -/
def InitLoop.start (nodeNum : Nat) (dev : Dev) : InitLoop where
  z := ⟨nodeNum, fun _ => Node.cleared, fun _ => Zone.cleared, Heap.init, 0, fun _ => none, [], dev⟩
  nodeI := 0
  zoneNumInNode := 0
  fullCount := 0
  secNum := 0

/-- The node that has its 64 zones is filed. -/
def InitLoop.file (s : InitLoop) : InitLoop :=
  let nd := { s.z.vnodes s.nodeI with id := s.nodeI, nrValid := 0, level := -1 }
  let z :=
    if s.fullCount = ztlProZoneNumInnode then
      { s.z.setNode s.nodeI { nd with status := .full, left := 0, used := ztlProOptSecNumInnode } with
        lists := s.z.lists.insertTail .fullHead s.nodeI }
    else if s.secNum = 0 then
      { s.z.setNode s.nodeI { nd with status := .free, left := ztlProOptSecNumInnode, used := 0 } with
        lists := s.z.lists.insertTail .freeHead s.nodeI
        nfree := s.z.nfree + 1 }
    else
      { s.z.setNode s.nodeI { nd with
          status := .used
          left := ztlProOptSecNumInnode - s.secNum / ztlIoSecMcmd
          used := s.secNum / ztlIoSecMcmd } with
        lists := s.z.lists.insertTail .usedHead s.nodeI }
  { s with z := z, nodeI := s.nodeI + 1, zoneNumInNode := 0, secNum := 0 }

/-- Slot `i` of a node points to zone `j`. -/
def Node.setSlot (nd : Node) (i j : Nat) : Node :=
  { nd with vzones := update nd.vzones i j }

/-- Store a zone. -/
def Ztl.setZone (z : Ztl) (j : Nat) (zn : Zone) : Ztl :=
  { z with vzones := update z.vzones j zn }

/-- Zone `j` of the group gets the address of its table entry, and its slot in the current node. -/
def InitLoop.place (s : InitLoop) (j zcap : Nat) (e : ZmdEntry) : InitLoop :=
  let z := s.z.setNode s.nodeI ((s.z.vnodes s.nodeI).setSlot s.zoneNumInNode j)
  { s with
    z := z.setZone j ⟨e.zone, e.sect, zcap, e.wptr, e.wptr⟩
    zoneNumInNode := s.zoneNumInNode + 1 }

/-- `zmde->wptr = zmde->wptr_inflight = zinfo->wp`. -/
def InitLoop.setWptr (s : InitLoop) (j wp : Nat) : InitLoop :=
  { s with z := s.z.setZone j { s.z.vzones j with wptr := wp, wptrInflight := wp } }

/-- The body of the loop behind the filing: zone `i` joins the current node.  What a report says of 64
zones fits the 32 bits of `sec_num` (`sectorsOf_le`). -/
def initZone (rep : ZndReport) (s : InitLoop) (i : Nat) : Except Stop InitLoop :=
  let e := ztlZmdCreate i
  let d := rep i
  let j := i - metadataZoneNum
  if e.zone ≠ i then .ok s
  else if e.flags &&& xztlZmdRsvd ≠ 0 ∨ e.flags &&& xztlZmdAvlb = 0 then .ok s
  else if s.z.nnodes ≤ s.nodeI then .error .outOfBounds
  else
    let s₁ := s.place j d.zcap e
    match d.zs with
    | .empty =>
      if e.flags &&& xztlZmdUsed ≠ 0 ∨ e.flags &&& xztlZmdOpen ≠ 0 then .ok s₁
      else .ok (s₁.setWptr j d.wp)
    | .eopen | .iopen | .closed =>
      .ok ({ s₁ with secNum := s₁.secNum + (d.wp - e.sect) }.setWptr j d.wp)
    | .full =>
      .ok ({ s₁ with fullCount := s₁.fullCount + 1, secNum := s₁.secNum + d.zcap }.setWptr j d.wp)
    | .readOnly | .offline => .ok (s₁.setWptr j d.wp)

/-- The loop over the zones. -/
def initLoop (entries : Nat) (rep : ZndReport) : List Nat → InitLoop → Except Stop InitLoop
  | [], s => .ok s
  | i :: is, s =>
    if s.zoneNumInNode = ztlProZoneNumInnode then
      if entries - i + 1 < ztlProZoneNumInnode then .ok s.file
      else initZone rep { s.file with fullCount := 0 } i >>= initLoop entries rep is
    else initZone rep s i >>= initLoop entries rep is

/-- The nodes of a group with `entries` zones.  The subtraction is one of 32-bit numbers. -/
def nodeNum (entries : Nat) : Nat :=
  (if entries < metadataZoneNum then entries + 2 ^ 32 - metadataZoneNum
    else entries - metadataZoneNum) / ztlProZoneNumInnode

theorem nodeNum_eq {entries : Nat} (h : metadataZoneNum ≤ entries) :
    nodeNum entries = (entries - metadataZoneNum) / ztlProZoneNumInnode := by
  rw [nodeNum, if_neg (Nat.not_lt.mpr h)]

/-- `ztl_pro_grp_node_init` in a new process. -/
def ztlProGrpNodeInit (entries : Nat) (rep : ZndReport) (dev : Dev) : Except Stop Ztl :=
  InitLoop.z <$> initLoop entries rep
    (List.range' metadataZoneNum (entries - metadataZoneNum)) (.start (nodeNum entries) dev)

/-! ### What a report says about a node -/

/-- The zone of slot `i` of node `n`. -/
def zoneAt (n i : Nat) : Nat := metadataZoneNum + ztlProZoneNumInnode * n + i

/-- The written sectors of a zone. -/
def ZndDescr.sectors (d : ZndDescr) (start : Nat) : Nat :=
  match d.zs with
  | .eopen | .iopen | .closed => d.wp - start
  | .full => d.zcap
  | .empty | .readOnly | .offline => 0

section

variable (rep : ZndReport)

/-- The written sectors of the first `k` zones of node `n`. -/
def sectorsOf (n k : Nat) : Nat :=
  ((List.range k).map fun i => (rep (zoneAt n i)).sectors (zoneStart (zoneAt n i))).sum

/-- The full ones among the first `k` zones of node `n`. -/
def fullsOf (n k : Nat) : Nat :=
  ((List.range k).filter fun i => (rep (zoneAt n i)).zs = .full).length

/-- The list node `n` is filed on. -/
def fileOf (n : Nat) : NodeList :=
  if fullsOf rep n ztlProZoneNumInnode = ztlProZoneNumInnode then .fullHead
  else if sectorsOf rep n ztlProZoneNumInnode = 0 then .freeHead
  else .usedHead

/-- The lists when `n` nodes are filed. -/
def filedParts (n : Nat) (l : NodeList) : List Nat := (List.range n).filter fun m => fileOf rep m = l

/-- The units `optimal_write_sec_used` counts in node `n`. -/
def usedOf (n : Nat) : Nat :=
  match fileOf rep n with
  | .fullHead => ztlProOptSecNumInnode
  | .freeHead => 0
  | .usedHead => sectorsOf rep n ztlProZoneNumInnode / ztlIoSecMcmd

/-- The status that goes with a list. -/
def NodeList.status : NodeList → NodeStatus
  | .freeHead => .free
  | .usedHead => .used
  | .fullHead => .full

/-- Node `n` is built. -/
structure NodeBuilt (n : Nat) (nd : Node) : Prop where
  id : nd.id = n
  slot : ∀ i < ztlProZoneNumInnode, nd.vzones i = ztlProZoneNumInnode * n + i
  status : nd.status = (fileOf rep n).status
  used : nd.used = usedOf rep n
  left : nd.left = ztlProOptSecNumInnode - usedOf rep n
  nrValid : nd.nrValid = 0
  level : nd.level = -1
  errs : nd.nrFinishErr = 0 ∧ nd.nrResetErr = 0

/-- Zone `j` of the group after the loop. -/
def zoneBuilt (j : Nat) : Zone where
  zone := j + metadataZoneNum
  sect := zoneStart (j + metadataZoneNum)
  capacity := (rep (j + metadataZoneNum)).zcap
  wptr := (rep (j + metadataZoneNum)).wp
  wptrInflight := (rep (j + metadataZoneNum)).wp

/-- `n` nodes and `k` zones of the next one are built. -/
structure Building (nodes n k : Nat) (dev : Dev) (s : InitLoop) : Prop where
  nodeI : s.nodeI = n
  zones : s.zoneNumInNode = k
  fulls : s.fullCount = fullsOf rep n k
  sectors : s.secNum = sectorsOf rep n k
  nnodes : s.z.nnodes = nodes
  built : ∀ m < n, NodeBuilt rep m (s.z.vnodes m)
  slots : ∀ i < k, (s.z.vnodes n).vzones i = ztlProZoneNumInnode * n + i
  errs : ∀ m, (s.z.vnodes m).nrFinishErr = 0 ∧ (s.z.vnodes m).nrResetErr = 0
  zone : ∀ j < ztlProZoneNumInnode * n + k, s.z.vzones j = zoneBuilt rep j
  queues : Queues s.z.lists (filedParts rep n)
  nfree : s.z.nfree = (filedParts rep n .freeHead).length
  frame : s.z.qnode = (fun _ => none) ∧ s.z.submitHead = [] ∧ s.z.dev = dev

end

section

variable {rep : ZndReport} {nodes n k : Nat} {dev : Dev} {s : InitLoop}

theorem sectorsOf_succ : sectorsOf rep n (k + 1)
    = sectorsOf rep n k + (rep (zoneAt n k)).sectors (zoneStart (zoneAt n k)) := by
  simp [sectorsOf, range_succ]

theorem fullsOf_succ : fullsOf rep n (k + 1)
    = fullsOf rep n k + if (rep (zoneAt n k)).zs = .full then 1 else 0 := by
  rw [fullsOf, range_succ, filter_append, length_append, ← fullsOf]
  split <;> simp [*]

theorem filedParts_succ : filedParts rep (n + 1)
    = update (filedParts rep n) (fileOf rep n) (filedParts rep n (fileOf rep n) ++ [n]) := by
  funext l
  by_cases h : l = fileOf rep n
  · subst h
    rw [update_self]
    simp [filedParts, range_succ, filter_append]
  · rw [update_of_ne h]
    simp [filedParts, range_succ, filter_append, Ne.symm h]

theorem Building.start (rep : ZndReport) (nodes : Nat) (dev : Dev) :
    Building rep nodes 0 0 dev (.start nodes dev) where
  nodeI := rfl
  zones := rfl
  fulls := rfl
  sectors := rfl
  nnodes := rfl
  built := fun _ h => absurd h (Nat.not_lt_zero _)
  slots := fun _ h => absurd h (Nat.not_lt_zero _)
  errs := fun _ => ⟨rfl, rfl⟩
  zone := fun _ h => absurd h (Nat.not_lt_zero _)
  queues := Queues.init
  nfree := rfl
  frame := ⟨rfl, rfl, rfl⟩

/-! ### The step lemmas -/

/-- The loop's variables when zone `i` has joined the current node. -/
def InitLoop.joined (rep : ZndReport) (s : InitLoop) (i : Nat) : InitLoop where
  z := (s.z.setNode s.nodeI
    ((s.z.vnodes s.nodeI).setSlot s.zoneNumInNode (i - metadataZoneNum))).setZone
      (i - metadataZoneNum) ⟨i, zoneStart i, (rep i).zcap, (rep i).wp, (rep i).wp⟩
  nodeI := s.nodeI
  zoneNumInNode := s.zoneNumInNode + 1
  fullCount := s.fullCount + if (rep i).zs = .full then 1 else 0
  secNum := s.secNum + (rep i).sectors (zoneStart i)

/-- The zone number of an entry has 20 bits. -/
theorem ztlZmdCreate_zone_lt (i : Nat) : (ztlZmdCreate i).zone < 2 ^ 20 := BitVec.isLt _

theorem ztlZmdCreate_eq {i : Nat} (hi : i < 2 ^ 20) :
    ztlZmdCreate i = ⟨i, zoneStart i, xztlZmdAvlb, zoneStart i⟩ := by
  have hi64 : (UInt64.ofNat i).toNat = i := UInt64.toNat_ofNat_of_lt' (lt_trans hi (by decide))
  have hzone : ((UInt64.ofNat i).toBitVec.setWidth 20).toNat = i := by
    rw [BitVec.toNat_setWidth, UInt64.toNat_toBitVec, hi64, Nat.mod_eq_of_lt hi]
  have hsect : ((((0 : UInt32) * (0 : UInt16).toUInt32).toUInt64
      + (UInt32.ofNat ztlProSecNumInzone).toUInt64 * UInt64.ofNat i).toBitVec.setWidth 36).toNat
      = zoneStart i := by
    have hsec : (UInt32.ofNat ztlProSecNumInzone).toNat = 24576 := rfl
    rw [BitVec.toNat_setWidth, UInt64.toNat_toBitVec, UInt64.toNat_add, UInt64.toNat_mul,
      UInt32.toNat_toUInt64, UInt32.toNat_toUInt64, UInt32.toNat_mul, hi64, hsec, zoneStart,
      ztlProSecNumInzone_eq, UInt32.toNat_zero]
    omega
  have hwptr : ((((((0 : UInt32) * (0 : UInt16).toUInt32).toUInt64
      + (UInt32.ofNat ztlProSecNumInzone).toUInt64 * UInt64.ofNat i).toBitVec.setWidth 36).setWidth
      64)).toNat = zoneStart i := by
    rw [BitVec.toNat_setWidth, hsect, zoneStart, ztlProSecNumInzone_eq]
    omega
  rw [ztlZmdCreate, ZmdRecord.entry, ZmdEntry.mk.injEq]
  exact ⟨hzone, hsect, rfl, hwptr⟩

/-- The body of the loop on a zone whose number has 20 bits. -/
theorem initZone_eq {i : Nat} (hi : i < 2 ^ 20) (hn : s.nodeI < s.z.nnodes) :
    initZone rep s i = .ok (s.joined rep i) := by
  have hrsvd : xztlZmdAvlb &&& xztlZmdRsvd = 0 := rfl
  have havlb : xztlZmdAvlb &&& xztlZmdAvlb ≠ 0 := by decide
  have hused : xztlZmdAvlb &&& xztlZmdUsed = 0 := rfl
  have hopen : xztlZmdAvlb &&& xztlZmdOpen = 0 := rfl
  have hset : ∀ wp, ((s.place (i - metadataZoneNum) (rep i).zcap
      ⟨i, zoneStart i, xztlZmdAvlb, zoneStart i⟩).setWptr (i - metadataZoneNum) wp).z
      = (s.z.setNode s.nodeI
        ((s.z.vnodes s.nodeI).setSlot s.zoneNumInNode (i - metadataZoneNum))).setZone
          (i - metadataZoneNum) ⟨i, zoneStart i, (rep i).zcap, wp, wp⟩ := fun wp => by
    simp [InitLoop.setWptr, InitLoop.place, Ztl.setZone]
  rw [initZone, ztlZmdCreate_eq hi]
  simp only [ne_eq, not_true_eq_false, if_false, hrsvd, havlb, hused, hopen, or_self, not_le.mpr hn,
    InitLoop.joined, ← hset, ZndDescr.sectors]
  cases (rep i).zs <;> rfl

theorem Building.join (h : Building rep nodes n k dev s) :
    Building rep nodes n (k + 1) dev (s.joined rep (zoneAt n k)) := by
  have hj : zoneAt n k - metadataZoneNum = ztlProZoneNumInnode * n + k := by
    rw [zoneAt, Nat.add_assoc, Nat.add_sub_cancel_left]
  have hself : (s.joined rep (zoneAt n k)).z.vnodes n
      = (s.z.vnodes n).setSlot k (ztlProZoneNumInnode * n + k) := by
    rw [InitLoop.joined, hj, h.nodeI, h.zones]
    exact Ztl.setNode_self _ _ _
  refine ⟨h.nodeI, ?_, ?_, ?_, h.nnodes, fun m hm => ?_, fun i hi => ?_, fun m => ?_, fun j hjlt => ?_,
    h.queues, h.nfree, h.frame⟩
  · rw [InitLoop.joined, h.zones]
  · rw [InitLoop.joined, h.fulls, fullsOf_succ]
  · rw [InitLoop.joined, h.sectors, sectorsOf_succ]
  · have hm' : (s.joined rep (zoneAt n k)).z.vnodes m = s.z.vnodes m := by
      rw [InitLoop.joined, h.nodeI]
      exact Ztl.setNode_of_ne _ _ (by omega)
    rw [hm']
    exact h.built m hm
  · rw [hself, Node.setSlot]
    by_cases e : i = k
    · rw [e]
      exact update_self _ _ _
    · exact (update_of_ne e _ _).trans (h.slots i (by omega))
  · by_cases e : m = n
    · rw [e, hself]
      exact h.errs n
    · rw [InitLoop.joined, h.nodeI]
      exact (Ztl.setNode_of_ne s.z _ e) ▸ h.errs m
  · show update s.z.vzones _ _ j = _
    rw [hj]
    by_cases e : j = ztlProZoneNumInnode * n + k
    · have hz : zoneAt n k = j + metadataZoneNum := by rw [e, zoneAt]; omega
      rw [hz, e, update_self]
      rfl
    · rw [update_of_ne e]
      exact h.zone j (by omega)

/-- Node `n` as it is filed. -/
def Node.filed (rep : ZndReport) (n : Nat) (nd : Node) : Node :=
  { nd with
    id := n
    nrValid := 0
    level := -1
    status := (fileOf rep n).status
    left := ztlProOptSecNumInnode - usedOf rep n
    used := usedOf rep n }

/-- The filing, in terms of the report. -/
theorem Building.file_z (h : Building rep nodes n ztlProZoneNumInnode dev s) :
    s.file.z = { s.z.setNode n ((s.z.vnodes n).filed rep n) with
      lists := s.z.lists.insertTail (fileOf rep n) n
      nfree := s.z.nfree + if fileOf rep n = .freeHead then 1 else 0 } := by
  by_cases h1 : s.fullCount = ztlProZoneNumInnode
  · have hfile : fileOf rep n = .fullHead := by rw [fileOf, ← h.fulls, if_pos h1]
    simp only [InitLoop.file, if_pos h1, h.nodeI, Node.filed, usedOf, hfile]
    rfl
  · by_cases h2 : s.secNum = 0
    · have hfile : fileOf rep n = .freeHead := by
        rw [fileOf, ← h.fulls, ← h.sectors, if_neg h1, if_pos h2]
      simp only [InitLoop.file, if_neg h1, if_pos h2, h.nodeI, Node.filed, usedOf, hfile]
      rfl
    · have hfile : fileOf rep n = .usedHead := by
        rw [fileOf, ← h.fulls, ← h.sectors, if_neg h1, if_neg h2]
      have hu : usedOf rep n = s.secNum / ztlIoSecMcmd := by rw [usedOf, hfile, h.sectors]
      simp only [InitLoop.file, if_neg h1, if_neg h2, h.nodeI, Node.filed, hu, hfile]
      rfl

/-- **A complete node is filed**, and the next one begins. -/
theorem Building.file (h : Building rep nodes n ztlProZoneNumInnode dev s) :
    Building rep nodes (n + 1) 0 dev { s.file with fullCount := 0 } := by
  have hz := h.file_z
  refine ⟨?_, rfl, rfl, rfl, ?_, fun m hm => ?_, fun _ hi => absurd hi (Nat.not_lt_zero _),
    fun m => ?_, fun j hj => ?_, ?_, ?_, ?_⟩
  · show s.nodeI + 1 = n + 1
    rw [h.nodeI]
  · rw [hz]
    exact h.nnodes
  · rw [hz]
    by_cases e : m = n
    · subst e
      rw [Ztl.setNode_self]
      exact ⟨rfl, h.slots, rfl, rfl, rfl, rfl, rfl, h.errs m⟩
    · rw [Ztl.setNode_of_ne _ _ e]
      exact h.built m (by omega)
  · rw [hz]
    by_cases e : m = n
    · subst e
      rw [Ztl.setNode_self]
      exact h.errs m
    · rw [Ztl.setNode_of_ne _ _ e]
      exact h.errs m
  · rw [hz]
    exact h.zone j (by omega)
  · rw [hz, filedParts_succ]
    refine h.queues.insert fun l hl => ?_
    exact absurd (mem_range.mp (mem_of_mem_filter hl)) (lt_irrefl n)
  · rw [hz, filedParts_succ]
    rw [h.nfree]
    by_cases e : fileOf rep n = .freeHead
    · rw [if_pos e, e, update_self, length_append]
      rfl
    · rw [if_neg e, update_of_ne (Ne.symm e), Nat.add_zero]
  · rw [hz]
    exact h.frame

/-- **The loop goes on** with the next zone, which joins the node that is being built or, behind a
complete node, begins the next one. -/
theorem Building.next {entries : Nat} (h : Building rep nodes n k dev s) (hn : n < nodes)
    (hk : k ≤ ztlProZoneNumInnode) (hz : zoneAt n k < 2 ^ 20)
    (hfull : k = ztlProZoneNumInnode →
      n + 1 < nodes ∧ ¬ entries - zoneAt n k + 1 < ztlProZoneNumInnode) (is : List Nat) :
    ∃ n' k' s', Building rep nodes n' k' dev s' ∧ n' < nodes ∧ k' ≤ ztlProZoneNumInnode ∧
      zoneAt n' k' = zoneAt n k + 1 ∧
      initLoop entries rep (zoneAt n k :: is) s = initLoop entries rep is s' := by
  by_cases h64 : k = ztlProZoneNumInnode
  · obtain ⟨hlast, hgo⟩ := hfull h64
    subst h64
    have h' := h.file
    have hzone : zoneAt n ztlProZoneNumInnode = zoneAt (n + 1) 0 := by
      simp only [zoneAt, Nat.mul_succ]
      omega
    refine ⟨n + 1, 1, _, h'.join, hlast, by decide, ?_, ?_⟩
    · rw [hzone]
      rfl
    · rw [initLoop, if_pos h.zones, if_neg hgo, hzone, initZone_eq (hzone ▸ hz)
        (by rw [h'.nodeI, h'.nnodes]; exact hlast)]
      rfl
  · refine ⟨n, k + 1, _, h.join, hn, Nat.lt_of_le_of_ne hk h64, rfl, ?_⟩
    rw [initLoop, h.zones, if_neg h64, initZone_eq hz (by rw [h.nodeI, h.nnodes]; exact hn)]
    rfl

/-- The numbers of a group with at least one node. -/
theorem nodeNum_split {entries : Nat} (h : metadataZoneNum + ztlProZoneNumInnode ≤ entries) :
    0 < nodeNum entries ∧ entries = metadataZoneNum + ztlProZoneNumInnode * nodeNum entries
      + (entries - metadataZoneNum) % ztlProZoneNumInnode := by
  rw [nodeNum_eq (le_trans (Nat.le_add_right _ _) h)]
  simp only [metadataZoneNum, ztlProZoneNumInnode] at *
  omega

/-- **The loop** over the zones of the nodes: behind the first `len` of them it stands in the node
they reach. -/
theorem nodeInit_run {entries len : Nat} (hn : metadataZoneNum + ztlProZoneNumInnode ≤ entries)
    (hlen : len ≤ ztlProZoneNumInnode * nodeNum entries) (hz : metadataZoneNum + len ≤ 2 ^ 20)
    (rep : ZndReport) (dev : Dev) : ∃ n k s, n < nodeNum entries ∧ k ≤ ztlProZoneNumInnode ∧
      ztlProZoneNumInnode * n + k = len ∧ Building rep (nodeNum entries) n k dev s ∧
      ztlProGrpNodeInit entries rep dev = InitLoop.z <$> initLoop entries rep
        (List.range' (metadataZoneNum + len) (entries - metadataZoneNum - len)) s := by
  obtain ⟨hpos, hent⟩ := nodeNum_split hn
  simp only [metadataZoneNum, ztlProZoneNumInnode] at *
  induction len with
  | zero => exact ⟨0, 0, _, hpos, Nat.zero_le _, rfl, .start rep _ dev, rfl⟩
  | succ len ih =>
    obtain ⟨n, k, s, hlt, hk, hnk, h, e⟩ := ih (by omega) (by omega)
    have hzone : zoneAt n k = 2 + 64 * n + k := rfl
    have hgo : k = ztlProZoneNumInnode →
        n + 1 < nodeNum entries ∧ ¬ entries - zoneAt n k + 1 < ztlProZoneNumInnode := fun h64 => by
      simp only [ztlProZoneNumInnode] at h64 ⊢
      omega
    obtain ⟨n', k', s', h', hn', hk', hz', e'⟩ :=
      h.next hlt hk (by omega) hgo (List.range' (zoneAt n k + 1) (entries - 2 - (len + 1)))
    have hzone' : zoneAt n' k' = 2 + 64 * n' + k' := rfl
    refine ⟨n', k', s', hn', hk', by omega, h', ?_⟩
    rw [e, show entries - 2 - len = entries - 2 - (len + 1) + 1 by omega, List.range'_succ,
      show 2 + len = zoneAt n k by omega, e', show zoneAt n k + 1 = 2 + (len + 1) by omega]

/-- A group built from a report. -/
structure NodesBuilt (rep : ZndReport) (nodes : Nat) (dev : Dev) (z : Ztl) : Prop where
  nnodes : z.nnodes = nodes
  built : ∀ m < nodes, NodeBuilt rep m (z.vnodes m)
  zone : ∀ j < ztlProZoneNumInnode * nodes, z.vzones j = zoneBuilt rep j
  queues : Queues z.lists (filedParts rep nodes)
  nfree : z.nfree = (filedParts rep nodes .freeHead).length
  frame : z.qnode = (fun _ => none) ∧ z.submitHead = [] ∧ z.dev = dev

/-- The zone counts for which the loop files every node and touches nothing else: at least one
complete node, 20-bit zone numbers, and at least one but not 63 zones behind the last node. -/
structure Buildable (entries : Nat) : Prop where
  node : metadataZoneNum + ztlProZoneNumInnode ≤ entries
  residue : 1 ≤ (entries - metadataZoneNum) % ztlProZoneNumInnode ∧
    (entries - metadataZoneNum) % ztlProZoneNumInnode ≤ 62
  fits : metadataZoneNum + ztlProZoneNumInnode * nodeNum entries ≤ 2 ^ 20

/-- **The initialisation** builds every node from the sums over its own zones. -/
theorem nodeInit_spec {entries : Nat} (h : Buildable entries) (rep : ZndReport) (dev : Dev) :
    ∃ z, ztlProGrpNodeInit entries rep dev = .ok z ∧ NodesBuilt rep (nodeNum entries) dev z := by
  obtain ⟨-, hent⟩ := nodeNum_split h.node
  obtain ⟨h1, h62⟩ := h.residue
  obtain ⟨n, k, s, hlt, hk, hnk, hs, e⟩ := nodeInit_run h.node le_rfl h.fits rep dev
  obtain ⟨r, hr⟩ := Nat.exists_eq_add_of_le' (show
    1 ≤ entries - metadataZoneNum - ztlProZoneNumInnode * nodeNum entries by omega)
  simp only [metadataZoneNum, ztlProZoneNumInnode] at hent h62 hk hnk hr e
  have hlast : nodeNum entries = n + 1 := by omega
  obtain rfl : k = ztlProZoneNumInnode := by
    simp only [ztlProZoneNumInnode]
    omega
  -- the next zone is the first one behind the last node
  have hend : entries - (2 + 64 * nodeNum entries) + 1 < ztlProZoneNumInnode := by
    simp only [ztlProZoneNumInnode]
    omega
  rw [hr, List.range'_succ, initLoop, if_pos hs.zones, if_pos hend] at e
  have hs := hs.file
  rw [← hlast] at hs
  exact ⟨_, e, hs.nnodes, hs.built, hs.zone, hs.queues, hs.nfree, hs.frame⟩

/-- The report of a device on which nothing is written. -/
def emptyReport : ZndReport where
  descr i := ⟨.empty, ztlProSecNumInzone, zoneStart i⟩
  inZone _ := ⟨le_rfl, by simp⟩

/-- A fresh group has what the report of empty zones says. -/
theorem NodesBuilt.fresh (g : GroupSize) (dev : Dev) :
    NodesBuilt emptyReport g.nnodes dev (Ztl.fresh g dev) := by
  have hfile : ∀ n, fileOf emptyReport n = .freeHead := fun n => by
    have hf : fullsOf emptyReport n ztlProZoneNumInnode = 0 := by simp [fullsOf, emptyReport]
    have hs : sectorsOf emptyReport n ztlProZoneNumInnode = 0 := by
      simp [sectorsOf, emptyReport, ZndDescr.sectors]
    rw [fileOf, hf, hs]
    rfl
  have hused : ∀ n, usedOf emptyReport n = 0 := fun n => by rw [usedOf, hfile]
  have hparts : filedParts emptyReport g.nnodes = freshParts g.nnodes := by
    funext l
    cases l <;> simp [filedParts, hfile, freshParts]
  refine ⟨rfl, fun m _ => ⟨rfl, fun i _ => rfl, ?_, (hused m).symm, ?_, rfl, rfl, rfl, rfl⟩,
    fun j _ => ?_, ?_, ?_, rfl, rfl, rfl⟩
  · rw [hfile]
    rfl
  · rw [hused]
    rfl
  · simp only [zoneBuilt, emptyReport, zoneStart, Nat.mul_comm ztlProSecNumInzone]
    rfl
  · rw [hparts]
    exact queues_freeList g.nnodes
  · rw [hparts]
    exact length_range.symm

/-- Two groups that no function of the provisioning can tell apart: the same nodes with the same
zones in their 64 slots, and the same lists. -/
structure SameGroup (z z' : Ztl) : Prop where
  nnodes : z.nnodes = z'.nnodes
  node : ∀ n < z.nnodes, z.vnodes n = { z'.vnodes n with vzones := (z.vnodes n).vzones }
  slot : ∀ n < z.nnodes, ∀ i < ztlProZoneNumInnode,
    (z.vnodes n).vzones i = (z'.vnodes n).vzones i
  zone : ∀ j < ztlProZoneNumInnode * z.nnodes, z.vzones j = z'.vzones j
  lists : ∃ parts, Queues z.lists parts ∧ Queues z'.lists parts
  nfree : z.nfree = z'.nfree
  frame : z.qnode = z'.qnode ∧ z.submitHead = z'.submitHead ∧ z.dev = z'.dev

/-- The report determines the group. -/
theorem NodesBuilt.same {z z' : Ztl} (h : NodesBuilt rep nodes dev z)
    (h' : NodesBuilt rep nodes dev z') : SameGroup z z' := by
  obtain ⟨hq, hs, hd⟩ := h.frame
  obtain ⟨hq', hs', hd'⟩ := h'.frame
  refine ⟨h.nnodes.trans h'.nnodes.symm, fun m hm => ?_, fun m hm i hi => ?_, fun j hj => ?_,
    ⟨_, h.queues, h'.queues⟩, h.nfree.trans h'.nfree.symm,
    hq.trans hq'.symm, hs.trans hs'.symm, hd.trans hd'.symm⟩
  · have hb := h.built m (h.nnodes ▸ hm)
    have hb' := h'.built m (h.nnodes ▸ hm)
    rw [Node.mk.injEq]
    exact ⟨hb.id.trans hb'.id.symm, rfl, hb.left.trans hb'.left.symm, hb.used.trans hb'.used.symm,
      hb.errs.1.trans hb'.errs.1.symm, hb.errs.2.trans hb'.errs.2.symm,
      hb.nrValid.trans hb'.nrValid.symm, hb.status.trans hb'.status.symm,
      hb.level.trans hb'.level.symm⟩
  · rw [(h.built m (h.nnodes ▸ hm)).slot i hi, (h'.built m (h.nnodes ▸ hm)).slot i hi]
  · rw [h.zone j (h.nnodes ▸ hj), h'.zone j (h.nnodes ▸ hj)]

/-- With less than one complete node the loop stores the first zone in a node that does not exist. -/
example (rep : ZndReport) (dev : Dev) :
    ztlProGrpNodeInit 3 rep dev = .error .outOfBounds := rfl

end

end Xztl
