import Xztl.Zrocks.Rebuild

/-!
# Zrocks — the candidates of the garbage collector (`zrocks.c`, `zrocks_gc_get_full_nodes`)

The collector chooses among the full nodes of level 1 and above, by the share of their units that no
file has any more.  The level of a node is not on the device: a restart sets it to −1, and counting
the pieces sets it again only for the nodes that are in use.

**`candidates_run`**: after a restart no full node is reported, so that the report of a full node is
the same as before exactly when none of its units had been trimmed.
-/

namespace Xztl

open Function List
open TailQueue (Repr Queues)

/-! ### The report -/

/-- The percentage, in the unsigned arithmetic of the source. -/
def invalidPercent (nrValid : Nat) : Nat :=
  (100 + 2 ^ 64 - 100 * nrValid % 2 ^ 64 / ztlProOptSecNumInnode) % 2 ^ 64 % 2 ^ 32

/-- A node of an SST level that is full. -/
def Node.Candidate (nd : Node) : Prop := 1 ≤ nd.level ∧ nd.status = .full

instance (nd : Node) : Decidable nd.Candidate := inferInstanceAs (Decidable (_ ∧ _))

/-- The body of the loop over the full list. -/
def reportNode (z : Ztl) (invalid : Nat → Nat) (n : Nat) : Nat → Nat :=
  if (z.vnodes n).Candidate then update invalid n (invalidPercent (z.vnodes n).nrValid)
  else invalid

/-- `zrocks_gc_get_full_nodes`: what the array holds afterwards. -/
def zrocksGcGetFullNodes (fuel : Nat) (z : Ztl) (invalid : Nat → Nat) : Option (Nat → Nat) :=
  (z.lists.walk fuel (.first .fullHead)).map fun ns => ns.foldl (reportNode z) invalid

section

variable {z : Ztl} {ns : List Nat} {fuel : Nat}

theorem zrocksGcGetFullNodes_eq (h : Repr z.lists .fullHead ns) (hf : ns.length < fuel)
    (invalid : Nat → Nat) :
    zrocksGcGetFullNodes fuel z invalid = some (ns.foldl (reportNode z) invalid) := by
  rw [zrocksGcGetFullNodes, h.walk hf]
  rfl

/-- The entry of one node after the loop. -/
theorem foldl_reportNode (z : Ztl) (ns : List Nat) (n : Nat) : ∀ invalid : Nat → Nat,
    ns.foldl (reportNode z) invalid n =
      if n ∈ ns ∧ (z.vnodes n).Candidate then invalidPercent (z.vnodes n).nrValid
      else invalid n := by
  induction ns with
  | nil =>
    intro invalid
    rw [if_neg (fun h => by cases h.1)]
    rfl
  | cons m ns ih =>
    intro invalid
    rw [foldl_cons, ih, reportNode]
    by_cases hc : (z.vnodes m).Candidate
    · rw [if_pos hc]
      by_cases e : n = m
      · subst e
        rw [update_self, ite_self, if_pos ⟨mem_cons_self, hc⟩]
      · rw [update_of_ne e]
        simp only [mem_cons, e, false_or]
    · rw [if_neg hc]
      by_cases e : n = m
      · subst e
        simp only [hc, and_false, if_false]
      · simp only [mem_cons, e, false_or]

/-- No node is reported. -/
theorem foldl_reportNode_none (h : ∀ n, ¬ (z.vnodes n).Candidate) (invalid : Nat → Nat) :
    ns.foldl (reportNode z) invalid = invalid := by
  funext n
  rw [foldl_reportNode, if_neg (fun hn => h n hn.2)]

/-- The percentage of a count within the node, without going below zero. -/
theorem invalidPercent_eq {v : Nat} (h : v ≤ ztlProOptSecNumInnode) :
    invalidPercent v = 100 - 100 * v / ztlProOptSecNumInnode := by
  rw [invalidPercent]
  rw [ztlProOptSecNumInnode_eq] at *
  have hmod : 100 * v % 2 ^ 64 = 100 * v := Nat.mod_eq_of_lt (by omega)
  have hsub : (100 + 2 ^ 64 - 100 * v / 196608) % 2 ^ 64 = 100 - 100 * v / 196608 := by omega
  rw [hmod, hsub, Nat.mod_eq_of_lt (by omega)]

theorem invalidPercent_eq_zero_iff {v : Nat} (h : v ≤ ztlProOptSecNumInnode) :
    invalidPercent v = 0 ↔ v = ztlProOptSecNumInnode := by
  rw [invalidPercent_eq h]
  rw [ztlProOptSecNumInnode_eq] at *
  omega

end

/-! ### The levels a restart leaves -/

/-- The nodes filed so far are on the lists, and none is a candidate. -/
structure InitLoop.Unranked (s : InitLoop) : Prop where
  queues : ∃ parts, Queues s.z.lists parts ∧ ∀ l, ∀ n ∈ parts l, n < s.nodeI
  level : ∀ n, (s.z.vnodes n).level ≤ 0

section

variable {s s' : InitLoop} {rep : ZndReport} {entries : Nat}

/-- The steps that touch neither the lists nor a level. -/
theorem InitLoop.Unranked.congr (h : s.Unranked) (hl : s'.z.lists = s.z.lists)
    (hi : s'.nodeI = s.nodeI) (hv : ∀ n, (s'.z.vnodes n).level = (s.z.vnodes n).level) :
    s'.Unranked := by
  refine ⟨?_, fun n => (hv n).le.trans (h.level n)⟩
  rw [hl, hi]
  exact h.queues

theorem InitLoop.level_place (s : InitLoop) (j zcap : Nat) (e : ZmdEntry) (n : Nat) :
    ((s.place j zcap e).z.vnodes n).level = (s.z.vnodes n).level := by
  show ((s.z.setNode s.nodeI _).vnodes n).level = _
  by_cases hn : n = s.nodeI
  · subst hn
    rw [Ztl.setNode_self]
    rfl
  · rw [Ztl.setNode_of_ne _ _ hn]

theorem InitLoop.Unranked.initZone {i : Nat} (h : s.Unranked) (e : initZone rep s i = .ok s') :
    s'.Unranked := by
  rw [Xztl.initZone] at e
  split at e
  · cases e
    exact h
  split at e
  · cases e
    exact h
  split at e
  · cases e
  have hplace := s.level_place (i - metadataZoneNum) (rep i).zcap (ztlZmdCreate i)
  split at e
  · split at e
    all_goals
      cases e
      exact h.congr rfl rfl hplace
  all_goals
    cases e
    exact h.congr rfl rfl hplace

theorem InitLoop.Unranked.file (h : s.Unranked) : s.file.Unranked := by
  obtain ⟨parts, hq, hlt⟩ := h.queues
  have hins : ∀ l, ∃ parts', Queues (s.z.lists.insertTail l s.nodeI) parts' ∧
      ∀ l', ∀ n ∈ parts' l', n < s.nodeI + 1 := fun l => by
    refine ⟨_, hq.insert fun l' hm => Nat.lt_irrefl _ (hlt l' _ hm), fun l' n hn => ?_⟩
    rcases Queues.mem_inserted.mp hn with ⟨rfl, -⟩ | hn
    · exact Nat.lt_succ_self _
    · exact Nat.lt_succ_of_lt (hlt l' n hn)
  have hlev : ∀ (nd : Node) (n : Nat), nd.level = -1 →
      ((s.z.setNode s.nodeI nd).vnodes n).level ≤ 0 := fun nd n hnd => by
    by_cases hn : n = s.nodeI
    · subst hn
      rw [Ztl.setNode_self, hnd]
      decide
    · rw [Ztl.setNode_of_ne _ _ hn]
      exact h.level n
  rw [InitLoop.file]
  split
  · exact ⟨hins .fullHead, fun n => hlev _ n rfl⟩
  · split
    · exact ⟨hins .freeHead, fun n => hlev _ n rfl⟩
    · exact ⟨hins .usedHead, fun n => hlev _ n rfl⟩

theorem InitLoop.Unranked.initLoop (is : List Nat) :
    ∀ {s : InitLoop}, s.Unranked → initLoop entries rep is s = .ok s' → s'.Unranked := by
  induction is with
  | nil =>
    intro s h e
    cases e
    exact h
  | cons i is ih =>
    intro s h e
    rw [Xztl.initLoop] at e
    split at e
    · split at e
      · cases e
        exact h.file
      · obtain ⟨s1, e1, e2⟩ := Except.bind_eq_ok.mp e
        have hfile : ({ s.file with fullCount := 0 } : InitLoop).Unranked :=
          h.file.congr rfl rfl fun _ => rfl
        exact ih (hfile.initZone e1) e2
    · obtain ⟨s1, e1, e2⟩ := Except.bind_eq_ok.mp e
      exact ih (h.initZone e1) e2

/-- **After the initialisation** no node has a level above 0. -/
theorem nodeInit_unranked {dev : Dev} {z : Ztl} (e : ztlProGrpNodeInit entries rep dev = .ok z) :
    (∃ parts, Queues z.lists parts) ∧ ∀ n, (z.vnodes n).level ≤ 0 := by
  have hstart : (InitLoop.start (nodeNum entries) dev).Unranked :=
    ⟨⟨_, Queues.init, fun _ _ h => by cases h⟩, fun _ => le_refl _⟩
  rw [ztlProGrpNodeInit] at e
  obtain ⟨s, hs, rfl⟩ : ∃ s, Xztl.initLoop entries rep
      (List.range' metadataZoneNum (entries - metadataZoneNum)) (.start (nodeNum entries) dev)
        = .ok s ∧ s.z = z := by
    cases hl : Xztl.initLoop entries rep
      (List.range' metadataZoneNum (entries - metadataZoneNum)) (.start (nodeNum entries) dev) with
    | error x =>
      rw [hl] at e
      cases e
    | ok s =>
      rw [hl] at e
      cases e
      exact ⟨s, rfl, rfl⟩
  have h := hstart.initLoop _ hs
  obtain ⟨parts, hq, -⟩ := h.queues
  exact ⟨⟨parts, hq⟩, h.level⟩

end

/-- **Counting the pieces** makes no node a candidate. -/
theorem nodeSets_candidate (sets : List (ZrocksMap × Int)) : ∀ {z z' : Ztl},
    (∀ n, ¬ (z.vnodes n).Candidate) → nodeSets sets z = .ok z' →
      z'.lists = z.lists ∧ ∀ n, ¬ (z'.vnodes n).Candidate := by
  induction sets with
  | nil =>
    intro z z' h e
    cases e
    exact ⟨rfl, h⟩
  | cons x sets ih =>
    intro z z' h e
    obtain ⟨m, level⟩ := x
    obtain ⟨z1, e1, e2⟩ := Except.bind_eq_ok.mp e
    have hset : ∀ nd : Node, ¬ nd.Candidate →
        ∀ n, ¬ ((z.setNode m.nodeId.val nd).vnodes n).Candidate := fun nd hnd n => by
      by_cases hn : n = m.nodeId.val
      · subst hn
        rwa [Ztl.setNode_self]
      · rw [Ztl.setNode_of_ne _ _ hn]
        exact h n
    obtain ⟨hl1, hc1⟩ : z1.lists = z.lists ∧ ∀ n, ¬ (z1.vnodes n).Candidate := by
      obtain ⟨-, ⟨-, rfl⟩ | ⟨hst, -, rfl⟩⟩ := ztlIoNodeset_cases e1
      · refine ⟨rfl, hset _ ?_⟩
        exact h m.nodeId.val
      · refine ⟨rfl, hset _ fun hc => ?_⟩
        cases hst.symm.trans hc.2
    obtain ⟨hl, hc⟩ := ih hc1 e2
    exact ⟨hl.trans hl1, hc⟩

/-- **After a restart** the report leaves the array as it is. -/
theorem restart_reports {entries : Nat} {rep : ZndReport} {dev : Dev} {z1 z2 : Ztl}
    {sets : List (ZrocksMap × Int)} (e1 : ztlProGrpNodeInit entries rep dev = .ok z1)
    (e2 : nodeSets sets z1 = .ok z2) (invalid : Nat → Nat) :
    ∃ enough, ∀ fuel ≥ enough, zrocksGcGetFullNodes fuel z2 invalid = some invalid := by
  obtain ⟨⟨parts, hq⟩, hlev⟩ := nodeInit_unranked e1
  obtain ⟨hl, hc⟩ := nodeSets_candidate sets (fun m hm => by
    have := hlev m
    have := hm.1
    omega) e2
  have hns : Repr z2.lists .fullHead (parts .fullHead) := hl ▸ hq.repr .fullHead
  refine ⟨(parts .fullHead).length + 1, fun fuel hf => ?_⟩
  rw [zrocksGcGetFullNodes_eq hns (by omega), foldl_reportNode_none hc]

/-! ### Runs -/

/-- Node 0 has been filled on level 1 and given up for node 1, and nothing is trimmed. -/
structure GivenUp (s : ZState) : Prop where
  lists : Repr s.z.lists .fullHead [0]
  candidate : (s.z.vnodes 0).Candidate
  valid : (s.z.vnodes 0).nrValid = ztlProOptSecNumInnode
  mem : bigPieceOn 0 0 ∈ s.live
  two : s.z.nnodes = 2
  used : (s.z.vnodes 0).used = ztlProOptSecNumInnode
  idle : s.z.submitHead = []
  next : s.z.qnode 1 = some 1 ∧ (s.z.vnodes 1).left + 1 = ztlProOptSecNumInnode

/-- Such a state can be reached by writes alone; node 0 has 192 pieces of 1024 units. -/
theorem exists_givenUp (dev : Dev) : ∃ as s,
    Runs zstep (fun _ a => a.ByCaller) (ZState.fresh twoNodes dev) as s ∧ GivenUp s ∧
      ∃ m, s.live = (List.range 192).map (bigPieceOn 0) ++ [m] ∧ m.nodeId.val = 1 := by
  -- queue 1 fills node 0
  obtain ⟨e1, hc1⟩ := fresh_current twoNodes dev 1 (by decide) rfl
  obtain ⟨z0, hz0⟩ : ∃ z0, z0 = Ztl.fresh twoNodes dev := ⟨_, rfl⟩
  rw [← hz0] at e1 hc1
  have hfresh : ∀ m, z0.vnodes m = Node.fresh m := fun m => by rw [hz0]; rfl
  have hl0 : z0.lists = freeList 2 := by rw [hz0]; rfl
  obtain ⟨as, s, hr, hf⟩ := exists_fill (by decide) e1 hc1 (by rw [take_self, hfresh]; rfl)
  rw [hz0] at hr
  obtain ⟨parts, ha⟩ := (Sound.run (hr.mono fun s _ h => h.idle s)).alloc
  have hleft : (s.z.vnodes 0).left = 0 := by
    have hb := hf.current.balance
    rw [hf.used, ztlProOptSecNumInnode_eq] at hb
    omega
  have hl : s.z.lists = ((freeList 2).remove .freeHead 0).insertTail .usedHead 0 := by
    rw [hf.only.lists, ← hl0]
    rfl
  -- its next write gives it up and takes node 1
  have e2 : ztlProGrpGetNode s.z 1 = (take (retire s.z 1 0) 1 1, true) := by
    refine ztlProGrpGetNode_retire hf.current.qnode hleft ?_
    show (((s.z.lists.remove .usedHead 0).insertTail .fullHead 0).head .freeHead).first = some 1
    rw [hl]
    rfl
  obtain ⟨parts2, ha2, -⟩ := ha.getNode e2
  have hc2 : Current (take (retire s.z 1 0) 1 1) 1 1 :=
    ha2.currentNode
      (update_self (β := fun _ => Option Nat) 1 (some 1) (retire s.z 1 0).qnode)
  have hnode1 : s.z.vnodes 1 = Node.fresh 1 := by
    rw [hf.only.other 1 (by decide), ← hfresh]
    exact take_of_ne z0 1 (show (1 : Nat) ≠ 0 by decide)
  have hleft1 : ((take (retire s.z 1 0) 1 1).vnodes 1).left = ztlProOptSecNumInnode := by
    rw [take_self]
    show (s.z.vnodes 1).left = _
    rw [hnode1]
    rfl
  have hfit : 1 ≤ ((take (retire s.z 1 0) 1 1).vnodes 1).left := by
    rw [hleft1]
    decide
  obtain ⟨ans, z', ew, hd⟩ := exists_pieceWrite (c := plainWrite 1 1) (by decide) (by decide)
    (by decide) e2 hc2 hfit
  obtain ⟨hc', -, hl', -⟩ := hc2.piece hfit hd
  have hnode0 : z'.vnodes 0 = s.z.vnodes 0 := by
    rw [hd.onlyNode.other 0 (by decide)]
    exact take_of_ne (retire s.z 1 0) 1 (show (0 : Nat) ≠ 1 by decide)
  have hlists : z'.lists = ((((s.z.lists.remove .usedHead 0).insertTail .fullHead 0).remove .freeHead
      1).insertTail .usedHead 1) := hd.lists
  refine ⟨_, _, hr.append (Runs.one (plainWrite_byCaller 1 1 ans) (by rw [zstep, ew])),
    ⟨?_, ?_, ?_, ?_, ?_, ?_, ?_, ?_⟩, _, congrArg (· ++ _) hf.live, rfl⟩
  · rw [hlists, hl]
    exact ⟨rfl, rfl, rfl, rfl⟩
  · rw [hnode0]
    refine ⟨?_, hf.full rfl⟩
    rw [hf.level (by rw [take_self, hfresh]; rfl)]
    decide
  · rw [hnode0, hf.valid, take_self, hfresh]
    rfl
  · refine mem_append_left _ ?_
    rw [hf.live]
    exact mem_map_of_mem (mem_range.mpr (by decide))
  · exact hd.onlyNode.nnodes.trans (hf.only.nnodes.trans (by rw [hz0]; rfl))
  · rw [hnode0, hf.used]
    rfl
  · exact hd.onlyNode.submitHead.trans (hf.only.submitHead.trans (by rw [hz0]; rfl))
  · refine ⟨hc'.qnode, ?_⟩
    rw [hl', hleft1]
    rfl

/-- A clean restart of two nodes after writes and trims, all files being of level 1. -/
structure Restarted (dev : Dev) (as : List ZOp) (s : ZState) (z₂ : Ztl) : Prop where
  restart : ∃ wp rep z₁, Runs devStep (fun _ a => a.ByCaller) (DevState.fresh twoNodes dev) as ⟨s, wp⟩ ∧
    TrueReport 2 wp rep ∧ ztlProGrpNodeInit 131 rep s.z.dev = .ok z₁ ∧
    nodeSets (s.live.map (·, 1)) z₁ = .ok z₂

theorem exists_restarted {dev : Dev} {as : List ZOp} {s : ZState}
    (h : Runs zstep (fun _ a => a.ByCaller) (ZState.fresh twoNodes dev) as s) :
    ∃ z2, Restarted dev as s z2 := by
  obtain ⟨wp, hrun⟩ := exists_devRun h (DevState.fresh twoNodes dev).wp
  obtain ⟨hinv, hnn⟩ := DevInv.run (g := twoNodes) (hrun.mono fun d _ h => ⟨h.succeeds, h.idle d.s⟩)
  have hrep : TrueReport 2 wp (reportOf wp) := by
    have := hinv.toDevLoose.trueReport
    rwa [hnn] at this
  have hsets : ((s.live.map (·, (1 : Int))).map Prod.fst).Subperm s.live := by
    rw [map_fst_level]
  have hb : Buildable 131 := ⟨by decide, by decide, by decide⟩
  obtain ⟨z1, z2, e1, -, e2, -⟩ := hinv.exists_restart hb hnn (reportOf wp) hsets (by simp)
  exact ⟨z2, ⟨wp, reportOf wp, z1, hrun, hrep, e1, e2⟩⟩

/-- **The candidates after a restart.**  Whatever the report and whatever pieces are counted, the
percentage of a full node of level 1 or above is the one of before exactly when all its units were
valid.  The array is cleared by the caller. -/
theorem candidates_run (g : GroupSize) (dev : Dev) {as : List ZOp} {s : ZState}
    (h : Runs zstep ResetIdle (ZState.fresh g dev) as s) {ns : List Nat} {n : Nat}
    (hns : Repr s.z.lists .fullHead ns) (hn : n ∈ ns) (hc : (s.z.vnodes n).Candidate)
    {entries : Nat} {rep : ZndReport} {dev' : Dev} {z₁ z₂ : Ztl}
    {sets : List (ZrocksMap × Int)} (e₁ : ztlProGrpNodeInit entries rep dev' = .ok z₁)
    (e₂ : nodeSets sets z₁ = .ok z₂) :
    ∃ before after enough, (∀ fuel ≥ enough,
        zrocksGcGetFullNodes fuel s.z (fun _ => 0) = some before ∧
        zrocksGcGetFullNodes fuel z₂ (fun _ => 0) = some after) ∧
      (after n = before n ↔ (s.z.vnodes n).nrValid = ztlProOptSecNumInnode) := by
  have hinv := Sound.run h
  obtain ⟨parts, ha⟩ := hinv.alloc
  have hlt : n < s.z.nnodes := (ha.mem n).mp ⟨.fullHead, (ha.queues.repr .fullHead).unique hns ▸ hn⟩
  have hle : (s.z.vnodes n).nrValid ≤ ztlProOptSecNumInnode := by
    have h₁ := hinv.acc.le n hlt
    have h₂ := ha.balance n hlt
    omega
  obtain ⟨enough, hafter⟩ := restart_reports e₁ e₂ fun _ => 0
  refine ⟨_, _, ns.length + enough + 1, fun fuel hf =>
    ⟨zrocksGcGetFullNodes_eq hns (by omega) _, hafter fuel (by omega)⟩, ?_⟩
  rw [foldl_reportNode, if_pos ⟨hn, hc⟩, eq_comm]
  exact invalidPercent_eq_zero_iff hle

/-- Node 0, filled and untouched. -/
theorem candidates_run_filled : ∃ as s z₂ before after enough, GivenUp s ∧
    Restarted .blank as s z₂ ∧
      (∀ fuel ≥ enough, zrocksGcGetFullNodes fuel s.z (fun _ => 0) = some before ∧
        zrocksGcGetFullNodes fuel z₂ (fun _ => 0) = some after) ∧ after 0 = before 0 := by
  obtain ⟨as, s, hr, hs, -⟩ := exists_givenUp .blank
  obtain ⟨z₂, hre⟩ := exists_restarted hr
  obtain ⟨wp, rep, z₁, -, -, e₁, e₂⟩ := hre.restart
  obtain ⟨before, after, enough, h₁, h₂⟩ := candidates_run twoNodes _
    (hr.mono fun s _ h => h.idle s) hs.lists (mem_singleton_self 0) hs.candidate e₁ e₂
  exact ⟨as, s, z₂, before, after, enough, hs, hre, h₁, h₂.mpr hs.valid⟩

/-- **A candidate is lost**: one piece of node 0 is trimmed, and after the restart the node is no
longer reported. -/
theorem candidates_lost : ∃ as s z₂ before after enough, Restarted .blank as s z₂ ∧
    Repr s.z.lists .fullHead [0] ∧ (s.z.vnodes 0).Candidate ∧
      (∀ fuel ≥ enough, zrocksGcGetFullNodes fuel s.z (fun _ => 0) = some before ∧
        zrocksGcGetFullNodes fuel z₂ (fun _ => 0) = some after) ∧ before 0 = 1 ∧ after 0 = 0 := by
  obtain ⟨as, s, hr, hs, -⟩ := exists_givenUp .blank
  obtain ⟨z', hz'⟩ : ∃ z', z' = s.z.setNode 0 { s.z.vnodes 0 with nrValid := 195584 } := ⟨_, rfl⟩
  have htrim : zrocksTrim s.z (bigPieceOn 0 0) = .ok (z', xztlOk) :=
    hz' ▸ zrocksTrim_some rfl (by decide) hs.valid (by decide)
  have hok : (ZOp.trim (bigPieceOn 0 0)).ByCaller := trivial
  obtain ⟨z₂, hre⟩ := exists_restarted (hr.append (Runs.one hok (zstep_trim hs.mem htrim)))
  obtain ⟨wp, rep, z₁, -, -, e₁, e₂⟩ := hre.restart
  obtain ⟨enough, hafter⟩ := restart_reports e₁ e₂ fun _ => 0
  have hlists : Repr z'.lists .fullHead [0] := hz' ▸ hs.lists
  have hnode : z'.vnodes 0 = { s.z.vnodes 0 with nrValid := 195584 } := by
    rw [hz', Ztl.setNode_self]
  have hc : (z'.vnodes 0).Candidate := hnode ▸ hs.candidate
  refine ⟨_, _, z₂, _, _, enough + 2, hre, hlists, hc, fun fuel hf =>
    ⟨zrocksGcGetFullNodes_eq hlists (by rw [length_singleton]; omega) _,
      hafter fuel (by omega)⟩, ?_, rfl⟩
  rw [foldl_reportNode, if_pos ⟨mem_singleton_self 0, hc⟩, hnode]
  show invalidPercent 195584 = 1
  decide

end Xztl
