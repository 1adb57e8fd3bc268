import Xztl.Ztl.NodeCounts
import Xztl.Zrocks.Rebuild

/-!
# Zrocks — the nodes reclaimed at start-up (`ztl-mgmt-cmd.c`, `ztl_mgmt_clear_invalid_node`)

When the pieces of the files are counted in their nodes, the nodes in use or full that have none are
reset.  The reset takes a node off the full list, whichever list it is on.  Unlinking only asks for
the head when the node is the last one of its list, so for a node of the used list this goes wrong at
the end of the list only: `used_head` keeps pointing to the reset node, and `full_head` gets a pointer
into the used list.

* **`clear_reclaims_iff`**: the lists are right after the reclamation exactly when the last node of the
  used list, if there is one, has valid units.
* **`clear_shares_node`**: a restart that reclaims the only node in use, after which two queues are
  given the same node.
-/

namespace Xztl

open Function List
open TailQueue (Heap Queues moved)

/-- Every node is free, in use or full, and on the list of its status only; the free ones are
counted.  The number of nodes has 32 bits. -/
structure Filed (z : Ztl) (parts : NodeList → List Nat) : Prop where
  queues : Queues z.lists parts
  mem : ∀ n l, n ∈ parts l ↔ n < z.nnodes ∧ (z.vnodes n).status = l.status
  status : ∀ n < z.nnodes, ∃ l : NodeList, (z.vnodes n).status = l.status
  nfree : z.nfree = (parts .freeHead).length
  small : z.nnodes < 2 ^ 32

/-- A node that the start-up reclaims. -/
def Node.Stale (nd : Node) : Prop := nd.nrValid = 0 ∧ nd.status ≠ .free

instance (nd : Node) : Decidable nd.Stale := inferInstanceAs (Decidable (_ ∧ _))

/-- What the reclamation is to do: the stale nodes become free, everything else stays, and the used
and the full list keep their order. -/
structure Reclaimed (z z' : Ztl) (parts parts' : NodeList → List Nat) : Prop where
  filed : Filed z' parts'
  nnodes : z'.nnodes = z.nnodes
  stale : ∀ n < z.nnodes, (z.vnodes n).Stale → (z'.vnodes n).Pristine
  kept : ∀ n < z.nnodes, ¬ (z.vnodes n).Stale → z'.vnodes n = z.vnodes n
  order : ∀ l, l ≠ .freeHead → parts' l = (parts l).filter fun n => ¬ (z.vnodes n).Stale

/-! ### After a restart -/

section

variable {rep : ZndReport} {nodes : Nat} {dev : Dev} {z z' : Ztl}
  {sets : List (ZrocksMap × Int)}

theorem NodesBuilt.filed (h : NodesBuilt rep nodes dev z) (hs : nodes < 2 ^ 32) :
    Filed z (filedParts rep nodes) where
  queues := h.queues
  mem := fun n l => h.nnodes ▸ h.mem_filed n l
  status := fun n hn => ⟨_, (h.built n (h.nnodes ▸ hn)).status⟩
  nfree := h.nfree
  small := h.nnodes ▸ hs

/-- Counting the pieces in their nodes leaves the lists alone. -/
theorem Filed.nodeSets {parts : NodeList → List Nat} (h : Filed z parts)
    (hs : NodesSet sets z z') : Filed z' parts := by
  have hst : ∀ n, (z'.vnodes n).status = (z.vnodes n).status := fun n => by
    obtain ⟨l, e, -⟩ := hs.node n
    rw [e]
  exact ⟨hs.lists ▸ h.queues, fun n l => by rw [hs.nnodes, hst]; exact h.mem n l,
    fun n hn => hst n ▸ h.status n (hs.nnodes ▸ hn), hs.nfree.trans h.nfree, hs.nnodes ▸ h.small⟩

/-- The state that the reclamation starts from. -/
theorem filed_of_restart {entries : Nat} (hb : Buildable entries)
    (hv : ∀ n, unitsOn (sets.map Prod.fst) n < 2 ^ 64)
    (e1 : ztlProGrpNodeInit entries rep dev = .ok z) (e2 : Xztl.nodeSets sets z = .ok z') :
    Filed z' (filedParts rep (nodeNum entries)) := by
  obtain ⟨z1, e, hz1⟩ := nodeInit_spec hb rep dev
  cases e1.symm.trans e
  have hsmall : nodeNum entries < 2 ^ 32 := by
    have := hb.fits
    simp only [ztlProZoneNumInnode] at this
    omega
  refine (hz1.filed hsmall).nodeSets (nodeSets_spec _ (fun n hn => ?_) e2)
  rw [(hz1.built n (hz1.nnodes ▸ hn)).nrValid, Nat.zero_add]
  exact hv n

end

/-! ### The loop -/

/-- One round of the loop, every zone command succeeding. -/
def clearNode (z : Ztl) (n : Nat) : Ztl :=
  if (z.vnodes n).nrValid = 0 ∧ (z.vnodes n).status ≠ .free then (ztlMgmtNodeReset z n zonesOk).1
  else z

theorem ztlMgmtClearInvalidNode_eq (z : Ztl) :
    ztlMgmtClearInvalidNode z (fun _ => zonesOk) = (List.range z.nnodes).foldl clearNode z := rfl

theorem clearNode_cases (z : Ztl) (n : Nat) :
    ¬ (z.vnodes n).Stale ∧ clearNode z n = z ∨
      (z.vnodes n).Stale ∧ ResetDone z n (clearNode z n) := by
  by_cases h : (z.vnodes n).Stale
  · refine Or.inr ⟨h, ?_⟩
    have e : clearNode z n = (ztlMgmtNodeReset z n zonesOk).1 := if_pos h
    rw [e]
    exact (ztlMgmtNodeReset_ok z n).2
  · exact Or.inl ⟨h, if_neg h⟩

section

variable {z : Ztl} {parts : NodeList → List Nat} {k : Nat}

/-- The lists when the first `k` nodes are done. -/
def partsAt (z : Ztl) (parts : NodeList → List Nat) (k : Nat) (l : NodeList) : List Nat :=
  ((parts l).filter fun n => ¬ (n < k ∧ (z.vnodes n).Stale)) ++
    if l = .freeHead then (List.range k).filter fun n => (z.vnodes n).Stale else []

theorem partsAt_of_ne {l : NodeList} (hl : l ≠ .freeHead) :
    partsAt z parts k l = (parts l).filter fun n => ¬ (n < k ∧ (z.vnodes n).Stale) := by
  rw [partsAt, if_neg hl, append_nil]

/-- The state when the first `k` nodes are done. -/
structure Clearing (z : Ztl) (parts : NodeList → List Nat) (k : Nat) (z' : Ztl) : Prop where
  nnodes : z'.nnodes = z.nnodes
  queues : Queues z'.lists (partsAt z parts k)
  nfree : z'.nfree = (partsAt z parts k .freeHead).length
  stale : ∀ n < k, (z.vnodes n).Stale → (z'.vnodes n).Pristine
  kept : ∀ n, ¬ (n < k ∧ (z.vnodes n).Stale) → z'.vnodes n = z.vnodes n

theorem Clearing.start (h : Filed z parts) : Clearing z parts 0 z := by
  have h0 : partsAt z parts 0 = parts := by
    funext l
    simp [partsAt]
  refine ⟨rfl, ?_, ?_, fun n hn => absurd hn (Nat.not_lt_zero n), fun _ _ => rfl⟩
  · rw [h0]
    exact h.queues
  · rw [h0]
    exact h.nfree

/-- A node that is not stale changes nothing. -/
theorem partsAt_succ_of_not (hk : ¬ (z.vnodes k).Stale) :
    partsAt z parts (k + 1) = partsAt z parts k := by
  have hiff : ∀ n, (n < k + 1 ∧ (z.vnodes n).Stale) ↔ n < k ∧ (z.vnodes n).Stale := fun n => by
    constructor
    · rintro ⟨hn, hs⟩
      have hne : n ≠ k := fun e => hk (e ▸ hs)
      exact ⟨by omega, hs⟩
    · exact fun ⟨hn, hs⟩ => ⟨by omega, hs⟩
  funext l
  simp only [partsAt, hiff, range_succ, filter_append]
  simp [hk]

/-- A stale node goes from its list to the back of the free list. -/
theorem partsAt_succ (h : Filed z parts) {l : NodeList} (hl : l ≠ .freeHead) (hkl : k ∈ parts l)
    (hk : (z.vnodes k).Stale) :
    partsAt z parts (k + 1) = moved (partsAt z parts k) l .freeHead k := by
  have hiff : ∀ n, (n < k + 1 ∧ (z.vnodes n).Stale) ↔ n = k ∨ n < k ∧ (z.vnodes n).Stale := by
    intro n
    constructor
    · rintro ⟨hn, hs⟩
      rcases Nat.lt_succ_iff_lt_or_eq.mp hn with hn | hn
      · exact Or.inr ⟨hn, hs⟩
      · exact Or.inl hn
    · rintro (rfl | ⟨hn, hs⟩)
      · exact ⟨Nat.lt_succ_self n, hk⟩
      · exact ⟨Nat.lt_succ_of_lt hn, hs⟩
  -- on any other list the node was not to be found
  have hother : ∀ l', l' ≠ l → (parts l').filter (fun n => ¬ (n < k + 1 ∧ (z.vnodes n).Stale))
      = (parts l').filter fun n => ¬ (n < k ∧ (z.vnodes n).Stale) := fun l' hl' =>
    filter_congr fun n hn => by
      have hne : n ≠ k := fun e => hl' (h.queues.disj (e ▸ hn) hkl)
      simp only [hiff, hne, false_or]
  funext l'
  by_cases hf : l' = .freeHead
  · subst hf
    rw [moved, update_self, partsAt, partsAt, hother _ (Ne.symm hl), if_pos rfl,
      if_pos rfl, range_succ, filter_append, append_assoc]
    simp [hk]
  · rw [moved, update_of_ne hf]
    by_cases e : l' = l
    · subst e
      rw [update_self, partsAt_of_ne hf, partsAt_of_ne hf,
        ((h.queues.nodup l').filter _).erase_eq_filter, filter_filter]
      refine filter_congr fun n _ => ?_
      by_cases hn : n = k
      · simp [hn, hk]
      · have hnk : (n < k + 1 ∧ (z.vnodes n).Stale) ↔ n < k ∧ (z.vnodes n).Stale := by
          rw [hiff n, or_iff_right hn]
        simp only [hnk]
        simp [hn]
    · rw [update_of_ne e, partsAt_of_ne hf, partsAt_of_ne hf, hother _ e]

/-- No more nodes are free than there are. -/
theorem partsAt_length_le (h : Filed z parts) (hk : k ≤ z.nnodes)
    (hnd : (partsAt z parts k .freeHead).Nodup) :
    (partsAt z parts k .freeHead).length ≤ z.nnodes := by
  have hsub : partsAt z parts k .freeHead ⊆ List.range z.nnodes := fun n hn => by
    rw [partsAt, if_pos rfl] at hn
    rcases mem_append.mp hn with hn | hn
    · exact mem_range.mpr ((h.mem n _).mp (mem_of_mem_filter hn)).1
    · have := mem_range.mp (mem_of_mem_filter hn)
      exact mem_range.mpr (by omega)
  simpa using (hnd.subperm hsub).length_le

/-- A last node of the used list that is not stale stays the last one. -/
theorem getLast_partsAt (hlast : ∀ n, (parts .usedHead).getLast? = some n → ¬ (z.vnodes n).Stale)
    (hk : (z.vnodes k).Stale) : (partsAt z parts k .usedHead).getLast? ≠ some k := by
  rw [partsAt_of_ne (by simp)]
  rcases eq_nil_or_concat (parts .usedHead) with e | ⟨ys, L, e⟩
  · rw [e]
    simp
  · have hL : ¬ (z.vnodes L).Stale := hlast L (by rw [e, concat_eq_append]; simp)
    rw [e, concat_eq_append, filter_append]
    simp only [hL, and_false, not_false_eq_true, decide_true, filter_cons_of_pos,
      filter_nil, List.getLast?_concat, ne_eq, Option.some.injEq]
    exact fun e' => hL (e' ▸ hk)

section

variable (h : Filed z parts)
  (hlast : ∀ n, (parts .usedHead).getLast? = some n → ¬ (z.vnodes n).Stale)
include h hlast

/-- **A round** keeps the lists right when the last node of the used list is not stale. -/
theorem Clearing.step {z' : Ztl} (hc : Clearing z parts k z') (hk : k < z.nnodes) :
    Clearing z parts (k + 1) (clearNode z' k) := by
  have hself : z'.vnodes k = z.vnodes k := hc.kept k fun hlt => lt_irrefl k hlt.1
  rcases clearNode_cases z' k with ⟨hs, e⟩ | ⟨hs, hd⟩
  · rw [hself] at hs
    have hparts : partsAt z parts (k + 1) = partsAt z parts k := partsAt_succ_of_not hs
    rw [e]
    refine ⟨hc.nnodes, hparts ▸ hc.queues, hparts ▸ hc.nfree, fun n hn hst => ?_, fun n hn => ?_⟩
    · have hne : n ≠ k := fun e => hs (e ▸ hst)
      exact hc.stale n (by omega) hst
    · exact hc.kept n fun ⟨hlt, hst⟩ => hn ⟨by omega, hst⟩
  · rw [hself] at hs
    obtain ⟨l, hl⟩ := h.status k hk
    have hmem : k ∈ parts l := (h.mem k l).mpr ⟨hk, hl⟩
    have hfree : l ≠ .freeHead := fun e => hs.2 (by rw [hl, e]; rfl)
    have hparts := partsAt_succ h hfree hmem hs
    have hin : k ∈ partsAt z parts k l := by
      rw [partsAt_of_ne hfree]
      simpa using hmem
    -- the head that is given plays no part
    have hlists : (clearNode z' k).lists = (z'.lists.remove l k).insertTail .freeHead k := by
      rw [hd.lists]
      cases l with
      | freeHead => exact absurd rfl hfree
      | usedHead =>
        have hnext := (hc.queues.repr .usedHead).next_ne_none hin (getLast_partsAt hlast hs)
        rw [Heap.remove_of_next _ .fullHead .usedHead hnext]
      | fullHead => rfl
    have hq : Queues (clearNode z' k).lists (partsAt z parts (k + 1)) := by
      rw [hlists, hparts]
      exact hc.queues.move hin (Ne.symm hfree)
    refine ⟨hd.nnodes.trans hc.nnodes, hq, ?_, fun n hn hst => ?_, fun n hn => ?_⟩
    · have hle := partsAt_length_le (k := k + 1) h hk (hq.nodup .freeHead)
      have hlen : (partsAt z parts (k + 1) .freeHead).length
          = (partsAt z parts k .freeHead).length + 1 := by
        rw [hparts, moved, update_self, length_append]
        rfl
      have hsmall := h.small
      rw [hd.nfree, hc.nfree, hlen]
      exact Nat.mod_eq_of_lt (by omega)
    · by_cases en : n = k
      · rw [en, hd.node_self]
        exact ⟨rfl, rfl, rfl, rfl, rfl⟩
      · rw [hd.node_of_ne n en]
        exact hc.stale n (by omega) hst
    · have hne : n ≠ k := fun e => hn ⟨by omega, e ▸ hs⟩
      rw [hd.node_of_ne n hne]
      exact hc.kept n fun ⟨hlt, hst⟩ => hn ⟨by omega, hst⟩

theorem Clearing.run (k : Nat) (hk : k ≤ z.nnodes) :
    Clearing z parts k ((List.range k).foldl clearNode z) := by
  induction k with
  | zero => exact Clearing.start h
  | succ k ih =>
    rw [range_succ, foldl_append]
    exact (ih (by omega)).step h hlast hk

end

/-- All nodes done: everything is where it belongs. -/
theorem Clearing.reclaimed {z' : Ztl} (h : Filed z parts) (hc : Clearing z parts z.nnodes z') :
    Reclaimed z z' parts (partsAt z parts z.nnodes) := by
  have hstale : ∀ n < z.nnodes, (z.vnodes n).Stale → (z'.vnodes n).Pristine := hc.stale
  have hkept : ∀ n < z.nnodes, ¬ (z.vnodes n).Stale → z'.vnodes n = z.vnodes n :=
    fun n _ hs => hc.kept n fun hn => hs hn.2
  have hmem : ∀ n l, n ∈ partsAt z parts z.nnodes l ↔
      (n ∈ parts l ∧ ¬ (z.vnodes n).Stale) ∨ n < z.nnodes ∧ (z.vnodes n).Stale ∧ l = .freeHead := by
    intro n l
    have hlt : n ∈ parts l → n < z.nnodes := fun hn => ((h.mem n l).mp hn).1
    rw [partsAt, mem_append, mem_filter, decide_eq_true_eq]
    refine or_congr (and_congr_right fun hn => ?_) ?_
    · simp [hlt hn]
    · split
      next hl => simp [hl]
      next hl => simp [hl]
  refine ⟨⟨hc.queues, fun n l => ?_, fun n hn => ?_, hc.nfree, hc.nnodes ▸ h.small⟩, hc.nnodes,
    hstale, hkept, fun l hl => ?_⟩
  · rw [hc.nnodes, hmem, h.mem]
    by_cases hs : (z.vnodes n).Stale
    · simp only [hs, not_true_eq_false, and_false, false_or, true_and]
      refine and_congr_right fun hn => ?_
      rw [(hstale n hn hs).1]
      exact ⟨fun e => e ▸ rfl, fun e =>
        (NodeList.status_inj (show NodeList.freeHead.status = _ from e)).symm⟩
    · simp only [hs, not_false_eq_true, and_true, false_and, and_false, or_false]
      exact and_congr_right fun hn => by rw [hkept n hn hs]
  · rw [hc.nnodes] at hn
    by_cases hs : (z.vnodes n).Stale
    · exact ⟨.freeHead, (hstale n hn hs).1⟩
    · rw [hkept n hn hs]
      exact h.status n hn
  · rw [partsAt_of_ne hl]
    refine filter_congr fun n hn => ?_
    have hlt := ((h.mem n l).mp hn).1
    simp [hlt]

/-- The loop does not touch the last slot of the used list. -/
theorem clear_last (z : Ztl) (is : List Nat) :
    ((is.foldl clearNode z).lists.head .usedHead).last = (z.lists.head .usedHead).last := by
  induction is generalizing z with
  | nil => rfl
  | cons n is ih =>
    rw [foldl_cons, ih]
    rcases clearNode_cases z n with ⟨-, e⟩ | ⟨-, hd⟩
    · rw [e]
    · rw [hd.lists, Heap.last_insertTail_of_ne _ _ (by simp), Heap.last_remove_of_ne _ _ (by simp)]

/-- When the last node of the used list is stale, the list ends in a node that is free. -/
theorem not_reclaimed {parts' : NodeList → List Nat} {n : Nat} (h : Filed z parts)
    (hn : (parts .usedHead).getLast? = some n) (hs : (z.vnodes n).Stale) :
    ¬ Reclaimed z (ztlMgmtClearInvalidNode z fun _ => zonesOk) parts parts' := by
  intro hr
  have hlt := ((h.mem n .usedHead).mp (mem_of_getLast? hn)).1
  have hfree : n ∈ parts' .freeHead :=
    (hr.filed.mem n _).mpr ⟨hr.nnodes ▸ hlt, (hr.stale n hlt hs).1⟩
  have hlast := clear_last z (List.range z.nnodes)
  rw [← ztlMgmtClearInvalidNode_eq, (hr.filed.queues.repr .usedHead).last_eq,
    (h.queues.repr .usedHead).last_eq, hn] at hlast
  have hused : n ∈ parts' .usedHead := by
    cases hl : (parts' .usedHead).getLast? with
    | none =>
      rw [hl] at hlast
      cases hlast
    | some m =>
      rw [hl] at hlast
      cases hlast
      exact mem_of_getLast? hl
  cases hr.filed.queues.disj hfree hused

/-- **When the reclamation is right**: exactly when the last node of the used list, if there is one,
has valid units. -/
theorem clear_reclaims_iff (h : Filed z parts) :
    (∃ parts', Reclaimed z (ztlMgmtClearInvalidNode z fun _ => zonesOk) parts parts') ↔
      ∀ n, (parts .usedHead).getLast? = some n → (z.vnodes n).nrValid ≠ 0 := by
  have hused : ∀ n, (parts .usedHead).getLast? = some n → (z.vnodes n).status ≠ .free := by
    intro n hn
    rw [((h.mem n .usedHead).mp (mem_of_getLast? hn)).2]
    exact NodeStatus.noConfusion
  constructor
  · rintro ⟨parts', hr⟩ n hn h0
    exact not_reclaimed h hn ⟨h0, hused n hn⟩ hr
  · intro hlast
    have hrun := Clearing.run h (fun n hn hs => hlast n hn hs.1) z.nnodes le_rfl
    exact ⟨_, hrun.reclaimed h⟩

/-- The group that the initialisation builds of 131 zones, which are two nodes and a zone. -/
theorem exists_twoNodes (rep : ZndReport) : ∃ z, ztlProGrpNodeInit 131 rep Dev.blank = .ok z ∧
    NodesBuilt rep 2 Dev.blank z ∧ Filed z (filedParts rep 2) := by
  have h131 : Buildable 131 := ⟨by decide, by decide, by decide⟩
  obtain ⟨z, e, hb⟩ := nodeInit_spec h131 rep Dev.blank
  have hb : NodesBuilt rep 2 Dev.blank z := hb
  exact ⟨z, e, hb, hb.filed (by decide)⟩

/-- A device on which the first node is full. -/
def fullReport : ZndReport where
  descr i := if i < zoneAt 1 0 then ⟨.full, ztlProSecNumInzone, zoneStart (i + 1)⟩ else emptyReport i
  inZone i := by
    split
    · exact ⟨le_rfl, by simp⟩
    · exact emptyReport.inZone i

/-- A full node without valid units is reclaimed. -/
theorem clear_reclaims_full : ∃ z parts', ztlProGrpNodeInit 131 fullReport Dev.blank = .ok z ∧
    (z.vnodes 0).Stale ∧
    Reclaimed z (ztlMgmtClearInvalidNode z fun _ => zonesOk) (filedParts fullReport 2) parts' := by
  obtain ⟨z, e, hb, hf⟩ := exists_twoNodes fullReport
  have hb0 := hb.built 0 (by decide)
  have hfile : fileOf fullReport 0 = .fullHead := by decide +kernel
  have hused : filedParts fullReport 2 .usedHead = [] := by decide +kernel
  obtain ⟨parts', hr⟩ := (clear_reclaims_iff hf).mpr fun n hn => by
    rw [hused] at hn
    cases hn
  refine ⟨z, parts', e, ⟨hb0.nrValid, ?_⟩, hr⟩
  rw [hb0.status, hfile]
  decide

/-- A device on which one unit of the first node is written. -/
def dirtyReport : ZndReport where
  descr i :=
    if i = zoneAt 0 0 then ⟨.closed, ztlProSecNumInzone, zoneStart i + ztlIoSecMcmd⟩
    else emptyReport i
  inZone i := by
    split
    · have hunit : ztlIoSecMcmd ≤ ztlProSecNumInzone := by decide
      exact ⟨le_rfl, fun _ => ⟨Nat.le_add_right _ _, Nat.add_le_add_left hunit _⟩⟩
    · exact emptyReport.inZone i

/-- The only node in use has no valid units.  It is reset, but the used list still ends in it, so the
next node taken into use is linked behind it on the free list: queues 0 and 2 get the same node. -/
theorem clear_shares_node : ∃ z, ztlProGrpNodeInit 131 dirtyReport Dev.blank = .ok z ∧
    Filed z (filedParts dirtyReport 2) ∧
    (∀ parts', ¬ Reclaimed z (ztlMgmtClearInvalidNode z fun _ => zonesOk)
      (filedParts dirtyReport 2) parts') ∧
    let z₀ := (ztlProGrpGetNode (ztlMgmtClearInvalidNode z fun _ => zonesOk) 0).1
    let z₂ := (ztlProGrpGetNode (ztlProGrpGetNode z₀ 1).1 2).1
    z₂.qnode 0 = some 1 ∧ z₂.qnode 2 = some 1 := by
  obtain ⟨z, e, hb, hf⟩ := exists_twoNodes dirtyReport
  have hb0 := hb.built 0 (by decide)
  have hfile : fileOf dirtyReport 0 = .usedHead := by decide +kernel
  have hlast : (filedParts dirtyReport 2 .usedHead).getLast? = some 0 := by decide +kernel
  refine ⟨z, e, hf, fun parts' => not_reclaimed hf hlast ⟨hb0.nrValid, ?_⟩, ?_⟩
  · rw [hb0.status, hfile]
    decide
  · have hrun : ((ztlProGrpNodeInit 131 dirtyReport Dev.blank).toOption.map fun z =>
        let z₀ := (ztlProGrpGetNode (ztlMgmtClearInvalidNode z fun _ => zonesOk) 0).1
        let z₂ := (ztlProGrpGetNode (ztlProGrpGetNode z₀ 1).1 2).1
        (z₂.qnode 0, z₂.qnode 2)) = some (some 1, some 1) := by decide +kernel
    rw [e] at hrun
    have hboth := Option.some.inj hrun
    exact ⟨congrArg Prod.fst hboth, congrArg Prod.snd hboth⟩

end

end Xztl
