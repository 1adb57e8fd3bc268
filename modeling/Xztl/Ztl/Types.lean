import Xztl.Support.TailQueue
import Mathlib.Tactic

/-!
# Ztl — data model

The zone translation layer's state: zones with their two write pointers (`struct ztl_pro_zone`
and the `struct app_zmd_entry` it points to), nodes of 64 zones (`struct ztl_pro_node`), the three
node lists of the single group (`struct ztl_pro_node_grp`), the current node of each level queue
(`qp[level].node`), the management queue (`submit_head`) and the device.

Arrays are functions of their index.  The three lists are tail queues at pointer level
(`TailQueue.Heap`), since the code unlinks a node from the list it believes the node is on.
Sector, unit and byte counts are natural numbers; the fields whose wrap-around the code can reach
carry an explicit modulus where they are stored.
-/

namespace Xztl

/-! ### Constants (`xztl.h`, `xztl-pro.h`) -/

/-- `ZNS_ALIGMENT`, the sector size; also `core->media->geo.nbytes` on a supported device. -/
def znsAligment : Nat := 4096

/-- `ZTL_IO_SEC_MCMD`: sectors per media command. -/
def ztlIoSecMcmd : Nat := 8

/-- `ZTL_PRO_ZONE_NUM_INNODE`. -/
def ztlProZoneNumInnode : Nat := 64

/-- `ZTL_PRO_SEC_NUM_INZONE = ZONE_SIZE / 1024 / 4`. -/
def ztlProSecNumInzone : Nat := 96 * 1024 * 1024 / 1024 / 4

/-- `ZTL_PRO_OPT_SEC_NUM_INNODE`: the units of 8 sectors in a node. -/
def ztlProOptSecNumInnode : Nat := ztlProZoneNumInnode * ztlProSecNumInzone / ztlIoSecMcmd

/-- `ZROCKS_LEVEL_NUM`. -/
def zrocksLevelNum : Nat := 5

/-- `ZNS_MAX_BUF`. -/
def znsMaxBuf : Nat := 32 * (znsAligment * 256)

/-- `ZTL_IO_RC_NUM`: the length of `q->mcmd`, `r->mcmd` and `r->prp`. -/
def ztlIoRcNum : Nat := znsMaxBuf / (ztlIoSecMcmd * znsAligment)

/-- `XZTL_IO_MAX_MCMD`. -/
def xztlIoMaxMcmd : Nat := 65536

/-- `MAX_CALLBACK_ERR_CNT`. -/
def maxCallbackErrCnt : Nat := 3

/-- `metadata.zone_num`: the zones in front of the first node. -/
def metadataZoneNum : Nat := 2

/-- `ZTL_NODE_MGMT_SZ`: the entries of the management pool. -/
def ztlNodeMgmtSz : Nat := 384

/-- `XZTL_ZTL_IO_S_ERR`. -/
def xztlZtlIoSErr : Nat := 0x18

/-- Bytes per unit: one media command. -/
def unitBytes : Nat := znsAligment * ztlIoSecMcmd

theorem ztlProSecNumInzone_eq : ztlProSecNumInzone = 24576 := rfl
theorem ztlProOptSecNumInnode_eq : ztlProOptSecNumInnode = 196608 := rfl
theorem ztlIoRcNum_eq : ztlIoRcNum = 1024 := rfl
theorem unitBytes_eq : unitBytes = 32768 := rfl

/-! ### The device -/

/-- A write command the device completed with status zero: its first sector and the place in the
caller's buffer its data came from. -/
structure WriteRec where
  slba : Nat
  prp : Nat
deriving DecidableEq, Repr

/-- The data zones of the device: the bytes of each sector, and the write commands completed so
far, latest first. -/
structure Dev where
  data : Nat → Nat → UInt8
  log : List WriteRec

/-- A completed write stores `nsec` sectors from `slba` on. -/
def Dev.write (d : Dev) (slba nsec : Nat) (src : Nat → UInt8) (prp : Nat) : Dev where
  data s b :=
    if slba ≤ s ∧ s < slba + nsec then src (prp + (s - slba) * znsAligment + b) else d.data s b
  log := ⟨slba, prp⟩ :: d.log

/-- A zone reset: the zone's sectors read as zero again. -/
def Dev.reset (d : Dev) (slba nsec : Nat) : Dev :=
  { d with data := fun s b => if slba ≤ s ∧ s < slba + nsec then 0 else d.data s b }

/-! ### Zones and nodes -/

/-- `struct ztl_pro_zone` with its `zmd_entry`: the zone's number and start sector
(`addr.g.zone`, `addr.g.sect`), its capacity and its two write pointers. -/
structure Zone where
  zone : Nat
  sect : Nat
  capacity : Nat
  wptr : Nat
  wptrInflight : Nat

/-- `enum xztl_zmd_node_status`. -/
inductive NodeStatus where
  | free | used | full | reset
deriving DecidableEq, Repr

/-- `struct ztl_pro_node`.  `id` is the node's index in the group, by which everything else names it;
`vzones` gives the index in the group's zone array of each of the 64 slots; `left` and `used` are
`optimal_write_sec_left` and `optimal_write_sec_used`. -/
structure Node where
  id : Nat
  vzones : Nat → Nat
  left : Nat
  used : Nat
  nrFinishErr : Nat
  nrResetErr : Nat
  nrValid : Nat
  status : NodeStatus
  level : Int

/-- The three list heads of a group. -/
inductive NodeList where
  | freeHead | usedHead | fullHead
deriving DecidableEq, Repr

/-- `enum ztl_pro_mgmt_opcode`. -/
inductive MgmtOp where
  | fullZone | resetZone
deriving DecidableEq, Repr

/-- The state of the translation layer. -/
structure Ztl where
  nnodes : Nat
  vnodes : Nat → Node
  vzones : Nat → Zone
  lists : TailQueue.Heap NodeList Nat
  nfree : Nat
  qnode : Nat → Option Nat
  submitHead : List (Nat × MgmtOp)
  dev : Dev

namespace Ztl

/-- Store a node. -/
def setNode (z : Ztl) (n : Nat) (nd : Node) : Ztl :=
  { z with vnodes := Function.update z.vnodes n nd }

@[simp] theorem setNode_self (z : Ztl) (n : Nat) (nd : Node) : (z.setNode n nd).vnodes n = nd := by
  simp [setNode]

theorem setNode_of_ne (z : Ztl) {n m : Nat} (nd : Node) (h : m ≠ n) :
    (z.setNode n nd).vnodes m = z.vnodes m := by simp [setNode, h]

@[simp] theorem setNode_nnodes (z : Ztl) (n : Nat) (nd : Node) :
    (z.setNode n nd).nnodes = z.nnodes := rfl
@[simp] theorem setNode_vzones (z : Ztl) (n : Nat) (nd : Node) :
    (z.setNode n nd).vzones = z.vzones := rfl
@[simp] theorem setNode_lists (z : Ztl) (n : Nat) (nd : Node) :
    (z.setNode n nd).lists = z.lists := rfl
@[simp] theorem setNode_nfree (z : Ztl) (n : Nat) (nd : Node) :
    (z.setNode n nd).nfree = z.nfree := rfl
@[simp] theorem setNode_qnode (z : Ztl) (n : Nat) (nd : Node) :
    (z.setNode n nd).qnode = z.qnode := rfl
@[simp] theorem setNode_submitHead (z : Ztl) (n : Nat) (nd : Node) :
    (z.setNode n nd).submitHead = z.submitHead := rfl
@[simp] theorem setNode_dev (z : Ztl) (n : Nat) (nd : Node) :
    (z.setNode n nd).dev = z.dev := rfl

end Ztl

/-- `XZTL_OK`. -/
def xztlOk : Nat := 0

/-- A call that does not return: it indexes past the end of an array, or it still waits for the
device when the answers run out, or it follows a pointer to a deleted object. -/
inductive Stop where
  | outOfBounds | waiting | dangling
deriving DecidableEq, Repr

end Xztl
