import Mathlib.Data.List.Sort
import Xztl.Zrocks.Candidates

/-!
# Env — the nodes the collector chooses (`env_zns.cc`, `ZNSEnv::GCWorker`)

`zrocks_gc_get_full_nodes` reports for each candidate the percentage of its units that no file has,
and `GCWorker` takes the nodes from 85 percent on, the emptiest first.  A node with 100 percent is
left out: it has nothing to move, and its last trim has queued the reset.

The percentage is rounded up, since the share of the valid units is rounded down: a node with fewer
than a hundredth of its units valid is reported with 100 percent too.

**`selection_iff`**: the choice is the one that is meant exactly when no candidate has between 1 and
1966 valid units.
-/

namespace Xztl

open List
open TailQueue (Repr)

/-- `ZNS_GC_NODE_IVD_MIN_PERCENT`. -/
def znsGcNodeIvdMinPercent : Nat := 85

/-- The loop that fills `invalid_nid_map`. -/
def invalidNidMap (nrNodes : Nat) (invalid : Nat → Nat) : List (Nat × Nat) :=
  ((List.range nrNodes).filter fun id =>
    ¬ (invalid id = 100 ∨ invalid id < znsGcNodeIvdMinPercent)).map fun id => (invalid id, id)

/-- `std::greater` on pairs. -/
def pairGreater (a b : Nat × Nat) : Bool := b.1 < a.1 || (a.1 = b.1 && b.2 < a.2)

/-- The nodes in the order in which `GCWorker` comes to them. -/
def gcOrder (nrNodes : Nat) (invalid : Nat → Nat) : List (Nat × Nat) :=
  (invalidNidMap nrNodes invalid).mergeSort fun a b => !pairGreater b a

section

variable {z : Ztl} {ns : List Nat} {fuel n v nrNodes : Nat} {invalid : Nat → Nat}

theorem mem_gcOrder : n ∈ (gcOrder nrNodes invalid).map Prod.snd ↔
    n < nrNodes ∧ invalid n ≠ 100 ∧ znsGcNodeIvdMinPercent ≤ invalid n := by
  have hperm : (gcOrder nrNodes invalid).Perm (invalidNidMap nrNodes invalid) :=
    mergeSort_perm _ _
  rw [(hperm.map Prod.snd).mem_iff, invalidNidMap, map_map, mem_map]
  constructor
  · rintro ⟨id, hid, rfl⟩
    obtain ⟨hlt, hc⟩ := mem_filter.mp hid
    obtain ⟨h1, h2⟩ := not_or.mp (of_decide_eq_true hc)
    exact ⟨mem_range.mp hlt, h1, Nat.le_of_not_lt h2⟩
  · rintro ⟨hlt, h1, h2⟩
    refine ⟨n, mem_filter.mpr ⟨mem_range.mpr hlt, decide_eq_true ?_⟩, rfl⟩
    exact not_or.mpr ⟨h1, Nat.not_lt_of_le h2⟩

theorem pairGreater_eq_false {a b : Nat × Nat} :
    (!pairGreater b a) = true ↔ b.1 < a.1 ∨ b.1 = a.1 ∧ b.2 ≤ a.2 := by
  simp only [pairGreater, Bool.not_eq_true', Bool.or_eq_false_iff, Bool.and_eq_false_iff,
    decide_eq_false_iff_not]
  omega

/-- The percentages do not grow along the order. -/
theorem pairwise_gcOrder : (gcOrder nrNodes invalid).Pairwise fun a b => b.1 ≤ a.1 := by
  refine (pairwise_mergeSort (fun a b c hab hbc => ?_) (fun a b => ?_) _).imp fun h => ?_
  · rw [pairGreater_eq_false] at *
    omega
  · rw [Bool.or_eq_true, pairGreater_eq_false, pairGreater_eq_false]
    omega
  · rw [pairGreater_eq_false] at h
    omega

theorem invalidPercent_eq_hundred (h : v ≤ ztlProOptSecNumInnode) :
    invalidPercent v = 100 ↔ 100 * v < ztlProOptSecNumInnode := by
  rw [invalidPercent_eq h]
  rw [ztlProOptSecNumInnode_eq] at *
  omega

/-- A node with at most 15 percent valid is not below the threshold. -/
theorem min_le_invalidPercent (h : v ≤ ztlProOptSecNumInnode)
    (hv : 100 * v ≤ 15 * ztlProOptSecNumInnode) : znsGcNodeIvdMinPercent ≤ invalidPercent v := by
  rw [invalidPercent_eq h, znsGcNodeIvdMinPercent]
  rw [ztlProOptSecNumInnode_eq] at *
  omega

/-- What the choice is meant to be, for the candidates on the list `ns`: 100 percent is reported for
those without valid units, no percentage is above, and every other one with at most 15 percent valid
is chosen, by falling percentage. -/
structure FaithfulChoice (z : Ztl) (ns : List Nat) (invalid : Nat → Nat) : Prop where
  hundred : ∀ n ∈ ns, (z.vnodes n).Candidate → (invalid n = 100 ↔ (z.vnodes n).nrValid = 0)
  le : ∀ n ∈ ns, (z.vnodes n).Candidate → invalid n ≤ 100
  chosen : ∀ n ∈ ns, (z.vnodes n).Candidate → 0 < (z.vnodes n).nrValid →
    100 * (z.vnodes n).nrValid ≤ 15 * ztlProOptSecNumInnode →
    n ∈ (gcOrder z.nnodes invalid).map Prod.snd
  order : (gcOrder z.nnodes invalid).Pairwise fun a b => b.1 ≤ a.1

theorem FaithfulChoice.iff (hlt : ∀ n ∈ ns, n < z.nnodes)
    (hv : ∀ n ∈ ns, (z.vnodes n).Candidate → (z.vnodes n).nrValid ≤ ztlProOptSecNumInnode) :
    FaithfulChoice z ns (ns.foldl (reportNode z) fun _ => 0) ↔
      ∀ n ∈ ns, (z.vnodes n).Candidate →
        (z.vnodes n).nrValid = 0 ∨ ztlProOptSecNumInnode ≤ 100 * (z.vnodes n).nrValid := by
  have hrep : ∀ n ∈ ns, (z.vnodes n).Candidate →
      ns.foldl (reportNode z) (fun _ => 0) n = invalidPercent (z.vnodes n).nrValid := fun n hn hc =>
    (foldl_reportNode z ns n _).trans (if_pos ⟨hn, hc⟩)
  constructor
  · intro h n hn hc
    have hiff := h.hundred n hn hc
    rw [hrep n hn hc, invalidPercent_eq_hundred (hv n hn hc)] at hiff
    by_cases h0 : (z.vnodes n).nrValid = 0
    · exact Or.inl h0
    · exact Or.inr (Nat.le_of_not_lt fun hlt => h0 (hiff.mp hlt))
  · intro h
    have hundred : ∀ n ∈ ns, (z.vnodes n).Candidate →
        (ns.foldl (reportNode z) (fun _ => 0) n = 100 ↔ (z.vnodes n).nrValid = 0) := by
      intro n hn hc
      rw [hrep n hn hc, invalidPercent_eq_hundred (hv n hn hc)]
      rcases h n hn hc with h0 | hle
      · rw [h0]
        exact iff_of_true (by decide) rfl
      · refine iff_of_false (Nat.not_lt_of_le hle) fun h0 => ?_
        rw [h0] at hle
        exact absurd hle (by decide)
    refine ⟨hundred, fun n hn hc => ?_, fun n hn hc hpos hfew => ?_, pairwise_gcOrder⟩
    · rw [hrep n hn hc, invalidPercent_eq (hv n hn hc)]
      exact Nat.sub_le _ _
    · refine mem_gcOrder.mpr ⟨hlt n hn, fun h100 => ?_, ?_⟩
      · exact absurd ((hundred n hn hc).mp h100) (Nat.ne_of_gt hpos)
      · rw [hrep n hn hc]
        exact min_le_invalidPercent (hv n hn hc) hfew

end

/-- Node 0 has been filled on level 1, and `k` of its 192 pieces are left; queue 1 has gone on to
node 1 with one unit. -/
structure FewLeft (k : Nat) (s : ZState) : Prop where
  lists : Repr s.z.lists .fullHead [0]
  two : s.z.nnodes = 2
  candidate : (s.z.vnodes 0).Candidate
  valid : (s.z.vnodes 0).nrValid = 1024 * k
  used : (s.z.vnodes 0).used = ztlProOptSecNumInnode
  idle : s.z.submitHead = []
  next : s.z.qnode 1 = some 1 ∧ (s.z.vnodes 1).left + 1 = ztlProOptSecNumInnode
  live : ∃ m, s.live = (List.range k).map (fun i => bigPieceOn 0 (192 - k + i)) ++ [m] ∧
    m.nodeId.val = 1

theorem exists_fewLeft {k : Nat} (hk : k ≤ 192) (h0 : k ≠ 0) : ∃ as s,
    Runs zstep (fun _ a => a.ByCaller) (ZState.fresh twoNodes .blank) as s ∧ FewLeft k s := by
  obtain ⟨as, s, hr, hs, last, hlive, hlast⟩ := exists_givenUp .blank
  obtain ⟨z, live⟩ := s
  have hsplit : live = (List.range (192 - k)).map (bigPieceOn 0)
      ++ ((List.range k).map fun i => bigPieceOn 0 (192 - k + i)) ++ [last] := by
    rw [show live = _ from hlive]
    congr 1
    conv_lhs => rw [show 192 = 192 - k + k by omega, range_add, map_append, map_map]
    rfl
  rw [append_assoc] at hsplit
  subst hsplit
  have hrun := trims_run (n := 0) (v := 1024 * k) (z := z)
    ((List.range (192 - k)).map (bigPieceOn 0))
    ((List.range k).map (fun i => bigPieceOn 0 (192 - k + i)) ++ [last]) (by omega) (by omega)
    (fun m hm => ?_) ?_ ?_
  · refine ⟨_, _, hr.append hrun, hs.lists, hs.two, ?_, ?_, ?_, hs.idle, ?_, last, rfl, hlast⟩
    · rw [Ztl.setNode_self]
      exact hs.candidate
    · rw [Ztl.setNode_self]
    · rw [Ztl.setNode_self]
      exact hs.used
    · exact hs.next
  · obtain ⟨j, -, rfl⟩ := mem_map.mp hm
    exact ⟨rfl, rfl⟩
  · rw [length_map, length_range, hs.valid, ztlProOptSecNumInnode_eq]
    omega
  · rw [length_map, length_range]
    omega

/-- **The choice of the collector.**  For the candidates on the full list, with counts within their
nodes, it is as meant exactly when none of them has some valid units, but fewer than a hundredth. -/
theorem selection_iff {z : Ztl} {ns : List Nat} {fuel : Nat} (h : Repr z.lists .fullHead ns)
    (hlt : ∀ n ∈ ns, n < z.nnodes)
    (hv : ∀ n ∈ ns, (z.vnodes n).Candidate → (z.vnodes n).nrValid ≤ ztlProOptSecNumInnode)
    (hf : ns.length < fuel) :
    (∃ invalid, zrocksGcGetFullNodes fuel z (fun _ => 0) = some invalid ∧
      FaithfulChoice z ns invalid) ↔
    ∀ n ∈ ns, (z.vnodes n).Candidate →
      (z.vnodes n).nrValid = 0 ∨ ztlProOptSecNumInnode ≤ 100 * (z.vnodes n).nrValid := by
  rw [zrocksGcGetFullNodes_eq h hf, ← FaithfulChoice.iff hlt hv]
  constructor
  · rintro ⟨invalid, he, hc⟩
    cases he
    exact hc
  · exact fun hc => ⟨_, rfl, hc⟩

/-- A node with a tenth of its units valid. -/
theorem selection_iff_tenth : ∃ as s invalid,
    Runs zstep (fun _ a => a.ByCaller) (ZState.fresh twoNodes .blank) as s ∧
    (s.z.vnodes 0).Candidate ∧ (s.z.vnodes 0).nrValid = 20480 ∧
    zrocksGcGetFullNodes 2 s.z (fun _ => 0) = some invalid ∧ FaithfulChoice s.z [0] invalid ∧
    0 ∈ (gcOrder s.z.nnodes invalid).map Prod.snd := by
  obtain ⟨as, s, hr, hs⟩ := exists_fewLeft (show 20 ≤ 192 by decide) (by decide)
  have hnn : 0 < s.z.nnodes := by rw [hs.two]; decide
  have hv := hs.valid
  have hmem : ∀ n ∈ [0], n = 0 := fun n hn => mem_singleton.mp hn
  obtain ⟨invalid, he, hch⟩ := (selection_iff hs.lists (fun n hn => hmem n hn ▸ hnn)
    (fun n hn _ => by rw [hmem n hn, hv]; decide) (show 1 < 2 by decide)).mpr
    (fun n hn _ => Or.inr (by rw [hmem n hn, hv]; decide))
  refine ⟨as, s, invalid, hr, hs.candidate, hv, he, hch,
    hch.chosen 0 (mem_singleton_self 0) hs.candidate ?_ ?_⟩
  · rw [hv]
    decide
  · rw [hv]
    decide

/-- **A node worth collecting is passed over.**  One of the 192 pieces of node 0 is left, 1024 of its
196608 units: it is reported with 100 percent and not chosen. -/
theorem selection_passes_over : ∃ as s invalid,
    Runs zstep (fun _ a => a.ByCaller) (ZState.fresh twoNodes .blank) as s ∧
    Repr s.z.lists .fullHead [0] ∧ (s.z.vnodes 0).Candidate ∧ (s.z.vnodes 0).nrValid = 1024 ∧
    zrocksGcGetFullNodes 2 s.z (fun _ => 0) = some invalid ∧ invalid 0 = 100 ∧
    0 ∉ (gcOrder s.z.nnodes invalid).map Prod.snd := by
  obtain ⟨as, s, hr, hs⟩ := exists_fewLeft (show 1 ≤ 192 by decide) (by decide)
  have hrep : [0].foldl (reportNode s.z) (fun _ => 0) 0 = 100 := by
    rw [foldl_reportNode, if_pos ⟨mem_singleton_self 0, hs.candidate⟩, hs.valid]
    decide
  exact ⟨as, s, _, hr, hs.lists, hs.candidate, hs.valid,
    zrocksGcGetFullNodes_eq hs.lists (by decide) _, hrep,
    fun hm => (mem_gcOrder.mp hm).2.1 hrep⟩

end Xztl
