import Xztl.Ztl.NodeInit

/-!
# Ztl — the zone counts the initialisation is right for (`ztl-pro-grp.c`, `ztl_pro_grp_node_init`)

The number of nodes is a division, while the loop files a node when it meets the zone behind it and
ends at a shifted comparison of the zones that remain.  The two agree unless no zone or 63 zones are
behind the last node: without a zone behind it the last node is never filed, and with 63 the loop goes
on and stores a zone in a node that does not exist.

* **`nodeInit_complete_iff`**: every node is built and filed exactly when there are the metadata zones
  only, or a complete node and between one and 62 zones behind the last one.
* **`nodeInit_inBounds_iff`**: from one complete node on, the loop stays inside the node array unless
  63 zones are behind the last node; it never leaves the zone slots of a node.
-/

namespace Xztl

open List
open TailQueue (Heap Queues)

/-! ### How the loop ends -/

section

variable {rep : ZndReport} {entries : Nat} {s : InitLoop}

/-- A usable zone that would begin a node behind the last one. -/
theorem initZone_overrun {i : Nat} (hi : i < 2 ^ 20) (hn : s.z.nnodes ≤ s.nodeI) :
    initZone rep s i = .error .outOfBounds := by
  have hrsvd : xztlZmdAvlb &&& xztlZmdRsvd = 0 := rfl
  have havlb : xztlZmdAvlb &&& xztlZmdAvlb ≠ 0 := by decide
  rw [initZone, ztlZmdCreate_eq hi]
  simp only [ne_eq, not_true_eq_false, if_false, hrsvd, havlb, or_self, if_pos hn]

/-- Zones whose numbers do not fit 20 bits are passed over. -/
theorem initLoop_skip (h : s.zoneNumInNode ≠ ztlProZoneNumInnode) {is : List Nat}
    (his : ∀ i ∈ is, 2 ^ 20 ≤ i) : initLoop entries rep is s = .ok s := by
  induction is with
  | nil => rfl
  | cons i is ih =>
    have hi := his i mem_cons_self
    have hzone : (ztlZmdCreate i).zone ≠ i :=
      Nat.ne_of_lt (lt_of_lt_of_le (ztlZmdCreate_zone_lt i) hi)
    have hskip : initZone rep s i = .ok s := by
      rw [initZone]
      simp only [if_pos hzone]
    rw [initLoop, if_neg h, hskip]
    exact ih fun j hj => his j (mem_cons_of_mem _ hj)

section

variable (hn : metadataZoneNum + ztlProZoneNumInnode ≤ entries)
  (hmax : metadataZoneNum + ztlProZoneNumInnode * nodeNum entries ≤ 2 ^ 20)
include hn hmax

/-- Without a zone behind the last node, the loop ends before that node is filed. -/
theorem nodeInit_unfiled (hr : (entries - metadataZoneNum) % ztlProZoneNumInnode = 0)
    (rep : ZndReport) (dev : Dev) : ∃ z, ztlProGrpNodeInit entries rep dev = .ok z ∧
      Queues z.lists (filedParts rep (nodeNum entries - 1)) := by
  obtain ⟨-, hent⟩ := nodeNum_split hn
  obtain ⟨n, k, s, hlt, hk, hnk, h, e⟩ := nodeInit_run hn le_rfl hmax rep dev
  rw [Nat.sub_sub, Nat.sub_eq_zero_of_le (by omega)] at e
  simp only [ztlProZoneNumInnode] at hk hnk
  obtain rfl : n = nodeNum entries - 1 := by omega
  exact ⟨s.z, e, h.queues⟩

/-- With 63 zones behind the last node, the loop does not end there. -/
theorem nodeInit_overrun (hr : (entries - metadataZoneNum) % ztlProZoneNumInnode = 63)
    (rep : ZndReport) (dev : Dev) :
    ztlProGrpNodeInit entries rep dev = .error .outOfBounds := by
  obtain ⟨-, hent⟩ := nodeNum_split hn
  obtain ⟨n, k, s, hlt, hk, hnk, h, e⟩ := nodeInit_run hn le_rfl hmax rep dev
  simp only [metadataZoneNum, ztlProZoneNumInnode] at *
  obtain rfl : k = ztlProZoneNumInnode := by
    simp only [ztlProZoneNumInnode]
    omega
  have h' := h.file
  -- 64 zones are left as the comparison counts them
  have hleft : ¬ entries - (2 + 64 * nodeNum entries) + 1 < ztlProZoneNumInnode := by
    simp only [ztlProZoneNumInnode]
    omega
  rw [e, show entries - 2 - 64 * nodeNum entries = 62 + 1 by omega, List.range'_succ, initLoop,
    if_pos h.zones, if_neg hleft,
    initZone_overrun (by omega) (by rw [h'.nodeI, h'.nnodes]; omega)]
  rfl

end

/-- Zones for less than one node. -/
theorem nodeInit_none (h₁ : metadataZoneNum < entries)
    (h2 : entries < metadataZoneNum + ztlProZoneNumInnode) (rep : ZndReport) (dev : Dev) :
    ztlProGrpNodeInit entries rep dev = .error .outOfBounds := by
  have hnum : nodeNum entries = 0 := by
    rw [nodeNum_eq h₁.le]
    simp only [metadataZoneNum, ztlProZoneNumInnode] at *
    omega
  obtain ⟨len, hlen⟩ : ∃ len, entries - metadataZoneNum = len + 1 :=
    ⟨entries - metadataZoneNum - 1, by omega⟩
  have hfirst : (InitLoop.start 0 dev).zoneNumInNode ≠ ztlProZoneNumInnode := by
    show 0 ≠ ztlProZoneNumInnode
    decide
  rw [ztlProGrpNodeInit, hlen, List.range'_succ, hnum, initLoop, if_neg hfirst,
    initZone_overrun (by decide) le_rfl]
  rfl

/-- More nodes than 20-bit zone numbers can fill. -/
theorem nodeInit_short (hn : metadataZoneNum + ztlProZoneNumInnode ≤ entries)
    (hshort : 2 ^ 20 < metadataZoneNum + ztlProZoneNumInnode * nodeNum entries)
    (rep : ZndReport) (dev : Dev) : ∃ z, ztlProGrpNodeInit entries rep dev = .ok z := by
  obtain ⟨n, k, s, -, -, hnk, h, e⟩ := nodeInit_run hn
    (show 2 ^ 20 - metadataZoneNum ≤ _ by omega) (by decide) rep dev
  have hinside : s.zoneNumInNode ≠ ztlProZoneNumInnode := by
    rw [h.zones]
    simp only [metadataZoneNum, ztlProZoneNumInnode] at *
    omega
  refine ⟨s.z, e.trans (congrArg _ (initLoop_skip hinside fun i hi => ?_))⟩
  exact (List.mem_range'_1.mp hi).1

end

/-! ### Every node is built and filed -/

/-- The table entry of every zone behind the metadata zones has the zone's own number and can be
used. -/
def AllUsable (entries : Nat) : Prop :=
  ∀ i, metadataZoneNum ≤ i → i < entries → (ztlZmdCreate i).zone = i ∧
    (ztlZmdCreate i).flags &&& xztlZmdRsvd = 0 ∧ (ztlZmdCreate i).flags &&& xztlZmdAvlb ≠ 0

/-- The group that `ztl_pro_grp_node_init` is to leave: all nodes built from their own zones, each
on the list of its status only, and the free ones counted. -/
structure Complete (rep : ZndReport) (entries : Nat) (z : Ztl) : Prop where
  node : ∀ n < nodeNum entries, NodeBuilt rep n (z.vnodes n)
  zone : ∀ j < ztlProZoneNumInnode * nodeNum entries, z.vzones j = zoneBuilt rep j
  filed : ∃ parts, Queues z.lists parts ∧
    ∀ n l, n ∈ parts l ↔ n < nodeNum entries ∧ (z.vnodes n).status = l.status
  nfree : z.nfree
    = ((List.range (nodeNum entries)).filter fun n => (z.vnodes n).status = .free).length

section

variable {rep : ZndReport} {entries : Nat} {dev : Dev} {z : Ztl}

theorem AllUsable.le (h : AllUsable entries) : entries ≤ 2 ^ 20 := by
  by_contra hlt
  exact absurd (h (2 ^ 20) (by decide) (Nat.not_le.mp hlt)).1 (by decide)

theorem NodeList.status_inj {l l' : NodeList} (h : l.status = l'.status) : l = l' := by
  cases l <;> cases l' <;> first | rfl | cases h

theorem NodesBuilt.mem_filed {nodes : Nat} (h : NodesBuilt rep nodes dev z) (n : Nat)
    (l : NodeList) : n ∈ filedParts rep nodes l ↔ n < nodes ∧ (z.vnodes n).status = l.status := by
  rw [filedParts, mem_filter, mem_range, decide_eq_true_eq]
  refine and_congr_right fun hn => ?_
  rw [(h.built n hn).status]
  exact ⟨fun e => e ▸ rfl, NodeList.status_inj⟩

theorem NodesBuilt.complete (h : NodesBuilt rep (nodeNum entries) dev z) :
    Complete rep entries z where
  node := h.built
  zone := h.zone
  filed := ⟨_, h.queues, h.mem_filed⟩
  nfree := by
    rw [h.nfree, filedParts]
    refine congrArg List.length (filter_congr fun n hn => decide_eq_decide.mpr ?_)
    rw [(h.built n (mem_range.mp hn)).status]
    exact ⟨fun e => e ▸ rfl, fun e => NodeList.status_inj (show _ = NodeList.freeHead.status from e)⟩

/-- A node that is on no list. -/
theorem not_complete {parts : NodeList → List Nat} {n : Nat} (hq : Queues z.lists parts)
    (hn : n < nodeNum entries) (hno : ∀ l, n ∉ parts l) : ¬ Complete rep entries z := by
  intro hc
  obtain ⟨parts', hq', hmem⟩ := hc.filed
  have hsame : ∀ l, parts' l = parts l := fun l => (hq'.repr l).unique (hq.repr l)
  refine hno (fileOf rep n) (hsame _ ▸ (hmem n _).mpr ⟨hn, ?_⟩)
  exact (hc.node n hn).status

/-- **When the initialisation is complete.**  With all zones usable, every node is built and filed
exactly when there are the metadata zones only, or at least one node and between one and 62 zones
behind the last one. -/
theorem nodeInit_complete_iff (hu : AllUsable entries) (rep : ZndReport) (dev : Dev) :
    (∃ z, ztlProGrpNodeInit entries rep dev = .ok z ∧ Complete rep entries z) ↔
      entries = metadataZoneNum ∨ metadataZoneNum + ztlProZoneNumInnode ≤ entries ∧
        1 ≤ (entries - metadataZoneNum) % ztlProZoneNumInnode ∧
        (entries - metadataZoneNum) % ztlProZoneNumInnode ≤ 62 := by
  have hmax := hu.le
  by_cases hn : metadataZoneNum + ztlProZoneNumInnode ≤ entries
  · obtain ⟨hpos, hent⟩ := nodeNum_split hn
    have hfits : metadataZoneNum + ztlProZoneNumInnode * nodeNum entries ≤ 2 ^ 20 := by omega
    constructor
    · rintro ⟨z, e, hc⟩
      refine Or.inr ⟨hn, ?_, ?_⟩
      · by_contra hr
        obtain ⟨z', e', hq⟩ := nodeInit_unfiled hn hfits (by omega) rep dev
        cases e.symm.trans e'
        refine not_complete hq (Nat.sub_lt hpos Nat.one_pos) (fun l hl => ?_) hc
        exact lt_irrefl _ (mem_range.mp (mem_of_mem_filter hl))
      · by_contra hr
        have hlt := Nat.mod_lt (entries - metadataZoneNum) (show 0 < ztlProZoneNumInnode by decide)
        have h63 : (entries - metadataZoneNum) % ztlProZoneNumInnode = 63 := by
          simp only [ztlProZoneNumInnode] at hlt hr ⊢
          omega
        cases e.symm.trans (nodeInit_overrun hn hfits h63 rep dev)
    · rintro (rfl | ⟨-, hr⟩)
      · exact absurd hn (by decide)
      · obtain ⟨z, e, hb⟩ := nodeInit_spec ⟨hn, hr, hfits⟩ rep dev
        exact ⟨z, e, hb.complete⟩
  · constructor
    · rintro ⟨z, e, hc⟩
      refine Or.inl (le_antisymm ?_ ?_)
      · by_contra hlt
        cases e.symm.trans (nodeInit_none (Nat.not_le.mp hlt) (Nat.not_le.mp hn) rep dev)
      · -- the subtraction wraps around, and none of the nodes is filed
        by_contra hlt
        have hlen : entries - metadataZoneNum = 0 := by omega
        rw [ztlProGrpNodeInit, hlen] at e
        cases e
        have hnum : 0 < nodeNum entries := by
          rw [nodeNum, if_pos (Nat.not_le.mp hlt)]
          simp only [metadataZoneNum, ztlProZoneNumInnode] at *
          omega
        have hq : Queues (InitLoop.start (nodeNum entries) dev).z.lists fun _ => [] := Queues.init
        exact not_complete hq hnum (fun _ => not_mem_nil) hc
    · rintro (rfl | ⟨hn', -⟩)
      · refine ⟨_, rfl, fun n hn => ?_, fun j hj => ?_, ⟨fun _ => [], Queues.init, fun n l => ?_⟩, rfl⟩
        · exact absurd hn (Nat.not_lt_zero n)
        · exact absurd hj (Nat.not_lt_zero j)
        · exact ⟨fun h => absurd h not_mem_nil, fun h => absurd h.1 (Nat.not_lt_zero n)⟩
      · exact absurd hn' hn

theorem allUsable_of_le (h : entries ≤ 2 ^ 20) : AllUsable entries := by
  intro i _ hi
  rw [ztlZmdCreate_eq (lt_of_lt_of_le hi h)]
  have hrsvd : xztlZmdAvlb &&& xztlZmdRsvd = 0 := rfl
  have havlb : xztlZmdAvlb &&& xztlZmdAvlb ≠ 0 := by decide
  exact ⟨rfl, hrsvd, havlb⟩

/-- One node, and one zone behind it. -/
theorem nodeInit_complete_one : ∃ z, ztlProGrpNodeInit 67 emptyReport Dev.blank = .ok z ∧
    Complete emptyReport 67 z :=
  (nodeInit_complete_iff (allUsable_of_le (by decide)) emptyReport Dev.blank).mpr
    (Or.inr (by decide))

/-- One node, and no zone behind it: the node is on no list. -/
theorem nodeInit_lost_node : AllUsable 66 ∧ nodeNum 66 = 1 ∧
    ∃ z, ztlProGrpNodeInit 66 emptyReport Dev.blank = .ok z ∧
      (∀ l, (z.lists.head l).first = none) ∧ ¬ Complete emptyReport 66 z := by
  refine ⟨allUsable_of_le (by decide), by decide, ?_⟩
  obtain ⟨z, e, hq⟩ : ∃ z, ztlProGrpNodeInit 66 emptyReport Dev.blank = .ok z ∧
      Queues z.lists (filedParts emptyReport 0) :=
    nodeInit_unfiled (by decide) (by decide) (by decide) emptyReport Dev.blank
  have hnode : 0 < nodeNum 66 := by decide
  refine ⟨z, e, fun l => ?_, not_complete hq hnode fun l => not_mem_nil⟩
  rw [(hq.repr l).first]
  rfl

end

/-! ### The array of the nodes, and the slots of a node -/

/-- A use of `vnodes`: a node is filed, or a zone is stored in a slot of a node. -/
inductive NodeUse where
  | file (nodeI : Nat)
  | slot (nodeI zoneNumInNode : Nat)
deriving DecidableEq, Repr

/-- The use is of one of `nodes` nodes, and of one of the slots of a node. -/
def NodeUse.InBounds (nodes : Nat) : NodeUse → Prop
  | .file n => n < nodes
  | .slot n i => n < nodes ∧ i < ztlProZoneNumInnode

/-- What the body of the loop uses behind the filing. -/
def zoneUses (s : InitLoop) (i : Nat) : List NodeUse :=
  let e := ztlZmdCreate i
  if e.zone ≠ i then []
  else if e.flags &&& xztlZmdRsvd ≠ 0 ∨ e.flags &&& xztlZmdAvlb = 0 then []
  else [.slot s.nodeI s.zoneNumInNode]

/-- What the loop uses, up to a use that is out of bounds. -/
def initUses (entries : Nat) (rep : ZndReport) : List Nat → InitLoop → List NodeUse
  | [], _ => []
  | i :: is, s =>
    let go := fun s => zoneUses s i ++
      match initZone rep s i with
      | .error _ => []
      | .ok s => initUses entries rep is s
    if s.zoneNumInNode = ztlProZoneNumInnode then
      .file s.nodeI :: if entries - i + 1 < ztlProZoneNumInnode then []
        else go { s.file with fullCount := 0 }
    else go s

/-- Every use of `ztl_pro_grp_node_init`. -/
def nodeInitUses (entries : Nat) (rep : ZndReport) (dev : Dev) : List NodeUse :=
  initUses entries rep (List.range' metadataZoneNum (entries - metadataZoneNum))
    (.start (nodeNum entries) dev)

section

variable {rep : ZndReport} {entries i : Nat} {dev : Dev} {s s' : InitLoop}

/-- A zone that is stored: in the next slot of the current node, which has to be there. -/
theorem initZone_ok (e : initZone rep s i = .ok s') :
    s'.nodeI = s.nodeI ∧ s'.z.nnodes = s.z.nnodes ∧
      (zoneUses s i = [] ∧ s'.zoneNumInNode = s.zoneNumInNode ∨
        zoneUses s i = [.slot s.nodeI s.zoneNumInNode] ∧ s.nodeI < s.z.nnodes ∧
          s'.zoneNumInNode = s.zoneNumInNode + 1) := by
  rw [initZone] at e
  rw [zoneUses]
  split at e
  next hz =>
    cases e
    exact ⟨rfl, rfl, Or.inl ⟨by rw [if_pos hz], rfl⟩⟩
  next hz =>
    split at e
    next hf =>
      cases e
      exact ⟨rfl, rfl, Or.inl ⟨by rw [if_neg hz, if_pos hf], rfl⟩⟩
    next hf =>
      split at e
      next => cases e
      next hn =>
        have hlt := Nat.not_le.mp hn
        rw [if_neg hz, if_neg hf]
        split at e
        · split at e <;> cases e <;> exact ⟨rfl, rfl, Or.inr ⟨rfl, hlt, rfl⟩⟩
        all_goals
          cases e
          exact ⟨rfl, rfl, Or.inr ⟨rfl, hlt, rfl⟩⟩

/-- The loop stops at a zone when there is no node for it. -/
theorem initZone_error {st : Stop} (e : initZone rep s i = .error st) :
    zoneUses s i = [.slot s.nodeI s.zoneNumInNode] ∧ s.z.nnodes ≤ s.nodeI := by
  rw [initZone] at e
  rw [zoneUses]
  split at e
  next => cases e
  next hz =>
    split at e
    next => cases e
    next hf =>
      split at e
      next hn => exact ⟨by rw [if_neg hz, if_neg hf], hn⟩
      next =>
        split at e
        · split at e <;> cases e
        all_goals cases e

/-- A node that has zones is one of the group, and has at most its slots. -/
structure InitLoop.Ready (s : InitLoop) : Prop where
  slots : s.zoneNumInNode ≤ ztlProZoneNumInnode
  node : s.zoneNumInNode ≠ 0 → s.nodeI < s.z.nnodes

theorem InitLoop.Ready.zone (h : s.Ready) (hne : s.zoneNumInNode ≠ ztlProZoneNumInnode)
    (e : initZone rep s i = .ok s') : s'.Ready := by
  have hs := h.slots
  obtain ⟨hi, hn, ⟨-, hz⟩ | ⟨-, hlt, hz⟩⟩ := initZone_ok e
  · exact ⟨hz ▸ hs, fun h0 => by rw [hi, hn]; exact h.node (hz ▸ h0)⟩
  · exact ⟨by omega, fun _ => by rw [hi, hn]; exact hlt⟩

theorem InitLoop.file_nnodes (s : InitLoop) : s.file.z.nnodes = s.z.nnodes := by
  rw [InitLoop.file]
  split
  · rfl
  · split <;> rfl

/-- **The uses and the result.**  Everything the loop uses is in bounds exactly when it returns. -/
theorem initUses_inBounds_iff (is : List Nat) : ∀ {s : InitLoop}, s.Ready →
    ((∀ u ∈ initUses entries rep is s, u.InBounds s.z.nnodes) ↔
      ∃ s', initLoop entries rep is s = .ok s') := by
  induction is with
  | nil => exact fun _ => ⟨fun _ => ⟨_, rfl⟩, fun _ u hu => absurd hu not_mem_nil⟩
  | cons i is ih =>
    -- the body behind the filing
    have hbody : ∀ {s : InitLoop}, s.Ready → s.zoneNumInNode ≠ ztlProZoneNumInnode →
        ((∀ u ∈ zoneUses s i ++
            (match initZone rep s i with
            | .error _ => []
            | .ok s => initUses entries rep is s), u.InBounds s.z.nnodes) ↔
          ∃ s', (initZone rep s i >>= initLoop entries rep is) = .ok s') := by
      intro s hr hne
      cases e : initZone rep s i with
      | error st =>
        obtain ⟨hu, hn⟩ := initZone_error e
        refine ⟨fun h => ?_, fun ⟨s', h⟩ => by cases h⟩
        have := h (.slot s.nodeI s.zoneNumInNode) (by rw [hu]; exact mem_cons_self)
        exact absurd this.1 (Nat.not_lt.mpr hn)
      | ok s1 =>
        have hrest := ih (hr.zone hne e)
        obtain ⟨-, hn, hcase⟩ := initZone_ok e
        rw [hn] at hrest
        rw [forall_mem_append]
        refine ⟨fun h => hrest.mp h.2, fun h => ⟨fun u hu => ?_, hrest.mpr h⟩⟩
        rcases hcase with ⟨h0, -⟩ | ⟨h1, hlt, -⟩
        · rw [h0] at hu
          exact absurd hu not_mem_nil
        · rw [h1] at hu
          obtain rfl := mem_singleton.mp hu
          exact ⟨hlt, lt_of_le_of_ne hr.slots hne⟩
    intro s hr
    rw [initUses, initLoop]
    by_cases h64 : s.zoneNumInNode = ztlProZoneNumInnode
    · have hnode : s.nodeI < s.z.nnodes := hr.node (by rw [h64]; decide)
      simp only [if_pos h64, forall_mem_cons]
      by_cases hend : entries - i + 1 < ztlProZoneNumInnode
      · simp only [if_pos hend]
        exact ⟨fun _ => ⟨_, rfl⟩, fun _ => ⟨hnode, fun u hu => absurd hu not_mem_nil⟩⟩
      · simp only [if_neg hend]
        have hfiled : InitLoop.Ready { s.file with fullCount := 0 } :=
          ⟨Nat.zero_le _, fun h0 => absurd rfl h0⟩
        have hrest := hbody hfiled (by show 0 ≠ ztlProZoneNumInnode; decide)
        rw [show ({ s.file with fullCount := 0 } : InitLoop).z.nnodes = s.z.nnodes from
          s.file_nnodes] at hrest
        exact ⟨fun h => hrest.mp h.2, fun h => ⟨hnode, hrest.mpr h⟩⟩
    · simp only [if_neg h64]
      exact hbody hr h64

/-- **The bounds of the initialisation.**  With at least one node, every use of the node array is in
bounds exactly when not 63 zones are behind the last node, or when 20-bit zone numbers end before
these zones. -/
theorem nodeInit_inBounds_iff (hn : metadataZoneNum + ztlProZoneNumInnode ≤ entries)
    (rep : ZndReport) (dev : Dev) :
    (∀ u ∈ nodeInitUses entries rep dev, u.InBounds (nodeNum entries)) ↔
      (entries - metadataZoneNum) % ztlProZoneNumInnode ≠ 63 ∨
        2 ^ 20 < metadataZoneNum + ztlProZoneNumInnode * nodeNum entries := by
  have hready : (InitLoop.start (nodeNum entries) dev).Ready :=
    ⟨Nat.zero_le _, fun h0 => absurd rfl h0⟩
  have hiff : (∀ u ∈ nodeInitUses entries rep dev, u.InBounds (nodeNum entries)) ↔
      ∃ z, ztlProGrpNodeInit entries rep dev = .ok z := by
    rw [nodeInitUses, ztlProGrpNodeInit]
    refine (initUses_inBounds_iff _ hready).trans ⟨fun ⟨s, e⟩ => ⟨s.z, by rw [e]; rfl⟩, ?_⟩
    rintro ⟨z, e⟩
    cases es : initLoop entries rep (List.range' metadataZoneNum (entries - metadataZoneNum))
        (.start (nodeNum entries) dev) with
    | error st =>
      rw [es] at e
      cases e
    | ok s => exact ⟨s, rfl⟩
  rw [hiff]
  by_cases hshort : 2 ^ 20 < metadataZoneNum + ztlProZoneNumInnode * nodeNum entries
  · exact ⟨fun _ => Or.inr hshort, fun _ => nodeInit_short hn hshort rep dev⟩
  · have hfits := Nat.not_lt.mp hshort
    rw [or_iff_left hshort]
    constructor
    · rintro ⟨z, e⟩ h63
      cases e.symm.trans (nodeInit_overrun hn hfits h63 rep dev)
    · intro h63
      have hlt := Nat.mod_lt (entries - metadataZoneNum) (show 0 < ztlProZoneNumInnode by decide)
      by_cases h0 : (entries - metadataZoneNum) % ztlProZoneNumInnode = 0
      · obtain ⟨z, e, -⟩ := nodeInit_unfiled hn hfits h0 rep dev
        exact ⟨z, e⟩
      · have h62 : (entries - metadataZoneNum) % ztlProZoneNumInnode ≤ 62 := by
          simp only [ztlProZoneNumInnode] at *
          omega
        obtain ⟨z, e, -⟩ :=
          nodeInit_spec ⟨hn, ⟨Nat.pos_of_ne_zero h0, h62⟩, hfits⟩ rep dev
        exact ⟨z, e⟩

/-- One node, and one zone behind it. -/
theorem nodeInit_inBounds_one :
    nodeNum 67 = 1 ∧ ∀ u ∈ nodeInitUses 67 emptyReport Dev.blank, u.InBounds (nodeNum 67) :=
  ⟨by decide, (nodeInit_inBounds_iff (by decide) emptyReport Dev.blank).mpr (Or.inl (by decide))⟩

/-- One node, and 63 zones behind it: a zone is stored in a second node. -/
theorem nodeInit_second_node :
    nodeNum 129 = 1 ∧ .slot 1 0 ∈ nodeInitUses 129 emptyReport Dev.blank := by
  exact ⟨by decide, by decide +kernel⟩

end

end Xztl
