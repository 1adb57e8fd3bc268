import Xztl.Zrocks.Pointers
import Xztl.Zrocks.Stripe

/-!
# Zrocks — the allocator after a restart

A new process knows two things about the group: the report of the zones, from which the nodes are
built, and the pieces of the files, each of which is counted in its node (`zrocks_node_set`).

The report shows the device's own write pointers.  While all writes succeed they stand where the
counters of the nodes say, and the sums over the report give the counters back (`usedOf_eq`).

**`rebuild_run`**: after every run of successful writes, trims and completed resets, a restart gives
every node its counters and its place on the lists back.
-/

namespace Xztl

open Function List
open TailQueue (Queues)

/-! ### Counting the pieces (`ztl-io.c`, `ztl_io_nodeset`) -/

/-- The level as this path clamps it. -/
def setLevelOf (level : Int) : Int :=
  if (zrocksLevelNum : Int) ≤ level then (zrocksLevelNum : Int) - 1 else level

/-- `ztl_io_nodeset`.  The upper bound of the level is checked, the lower one is not. -/
def ztlIoNodeset (z : Ztl) (nodeId : Nat) (level : Int) (nrValid : Nat) : Except Stop Ztl :=
  if z.nnodes ≤ nodeId then .error .outOfBounds
  else
    let nd := { z.vnodes nodeId with nrValid := ((z.vnodes nodeId).nrValid + nrValid) % 2 ^ 64 }
    if nd.status = .used then
      if setLevelOf level < 0 then .error .outOfBounds
      else
        .ok { z.setNode nodeId { nd with level := setLevelOf level } with
          qnode := update z.qnode (setLevelOf level).toNat (some nodeId) }
    else .ok (z.setNode nodeId nd)

/-- One `zrocks_node_set` per piece, with the level of the piece's file. -/
def nodeSets : List (ZrocksMap × Int) → Ztl → Except Stop Ztl
  | [], z => .ok z
  | (m, level) :: ms, z => ztlIoNodeset z m.nodeId level m.num >>= nodeSets ms

/-- What the calls leave alone, and the counts. -/
structure NodesSet (sets : List (ZrocksMap × Int)) (z z' : Ztl) : Prop where
  nnodes : z'.nnodes = z.nnodes
  vzones : z'.vzones = z.vzones
  lists : z'.lists = z.lists
  nfree : z'.nfree = z.nfree
  submitHead : z'.submitHead = z.submitHead
  dev : z'.dev = z.dev
  node : ∀ n, ∃ l, z'.vnodes n = { z.vnodes n with
    nrValid := (z.vnodes n).nrValid + unitsOn (sets.map Prod.fst) n, level := l } ∧
      ((z.vnodes n).status ≠ .used → l = (z.vnodes n).level)
  /-- A queue's node is the one it had, or a node in use with a piece of the queue's level. -/
  from_ : ∀ q n, z'.qnode q = some n → z.qnode q = some n ∨
    ∃ s ∈ sets, s.1.nodeId.val = n ∧ (z.vnodes n).status = .used ∧ setLevelOf s.2 = q
  /-- A queue has a node when there is such a piece. -/
  some_ : ∀ q, (∃ n, z.qnode q = some n) ∨
    (∃ s ∈ sets, (z.vnodes s.1.nodeId.val).status = .used ∧ setLevelOf s.2 = q) →
      ∃ n, z'.qnode q = some n

section

variable {z z' : Ztl} {sets : List (ZrocksMap × Int)}

theorem ztlIoNodeset_cases {n num : Nat} {level : Int} (e : ztlIoNodeset z n level num = .ok z') :
    n < z.nnodes ∧
    ((z.vnodes n).status ≠ .used ∧ z' = z.setNode n { z.vnodes n with
        nrValid := ((z.vnodes n).nrValid + num) % 2 ^ 64 } ∨
      (z.vnodes n).status = .used ∧ 0 ≤ setLevelOf level ∧
      z' = { z.setNode n { z.vnodes n with
          nrValid := ((z.vnodes n).nrValid + num) % 2 ^ 64, level := setLevelOf level } with
        qnode := update z.qnode (setLevelOf level).toNat (some n) }) := by
  rw [ztlIoNodeset] at e
  by_cases hn : z.nnodes ≤ n
  · rw [if_pos hn] at e
    cases e
  rw [if_neg hn] at e
  refine ⟨by omega, ?_⟩
  by_cases hs : (z.vnodes n).status = .used
  · rw [if_pos hs] at e
    by_cases hl : setLevelOf level < 0
    · rw [if_pos hl] at e
      cases e
    · rw [if_neg hl] at e
      cases e
      exact Or.inr ⟨hs, not_lt.mp hl, rfl⟩
  · rw [if_neg hs] at e
    cases e
    exact Or.inl ⟨hs, rfl⟩

theorem setLevelOf_nonneg {level : Int} (h : 0 ≤ level) : 0 ≤ setLevelOf level := by
  rw [setLevelOf]
  split
  · decide
  · exact h

theorem NodesSet.refl (z : Ztl) : NodesSet [] z z := by
  refine ⟨rfl, rfl, rfl, rfl, rfl, rfl, fun n => ⟨_, rfl, fun _ => rfl⟩, fun q n h => .inl h, ?_⟩
  rintro q (h | ⟨_, h, -⟩)
  · exact h
  · cases h

theorem NodesSet.status (h : NodesSet sets z z') (n : Nat) :
    (z'.vnodes n).status = (z.vnodes n).status := by
  obtain ⟨l, hl, -⟩ := h.node n
  rw [hl]

theorem NodesSet.trans {z1 : Ztl} {sets' : List (ZrocksMap × Int)} (h : NodesSet sets z z1)
    (h' : NodesSet sets' z1 z') : NodesSet (sets ++ sets') z z' := by
  refine ⟨h'.nnodes.trans h.nnodes, h'.vzones.trans h.vzones, h'.lists.trans h.lists,
    h'.nfree.trans h.nfree, h'.submitHead.trans h.submitHead, h'.dev.trans h.dev, fun n => ?_,
    fun q n hq => ?_, fun q hq => h'.some_ q ?_⟩
  · obtain ⟨l, hl, hst⟩ := h.node n
    obtain ⟨l', hl', hst'⟩ := h'.node n
    rw [h.status n] at hst'
    refine ⟨l', ?_, fun hne => ?_⟩
    · rw [hl', hl, map_append, unitsOn_append, Nat.add_assoc]
    · rw [hst' hne, hl, ← hst hne]
  · rcases h'.from_ q n hq with hq1 | ⟨s, hs, hn, hst, hl⟩
    · rcases h.from_ q n hq1 with hq0 | ⟨s, hs, hs'⟩
      · exact Or.inl hq0
      · exact Or.inr ⟨s, mem_append_left _ hs, hs'⟩
    · rw [h.status n] at hst
      exact Or.inr ⟨s, mem_append_right _ hs, hn, hst, hl⟩
  · rcases hq with hq | ⟨s, hs, hst, hl⟩
    · exact Or.inl (h.some_ q (Or.inl hq))
    · rcases mem_append.mp hs with hs | hs
      · exact Or.inl (h.some_ q (Or.inr ⟨s, hs, hst, hl⟩))
      · exact Or.inr ⟨s, hs, by rw [h.status]; exact hst, hl⟩

/-- A call whose count does not wrap around. -/
theorem NodesSet.one {m : ZrocksMap} {level : Int}
    (hb : (z.vnodes m.nodeId.val).nrValid + m.num.val < 2 ^ 64)
    (e : ztlIoNodeset z m.nodeId level m.num = .ok z') : NodesSet [(m, level)] z z' := by
  obtain ⟨n, hn⟩ : ∃ n, n = m.nodeId.val := ⟨_, rfl⟩
  have hunits : ∀ k, unitsOn ([(m, level)].map Prod.fst) k = if n = k then m.num.val else 0 :=
    fun k => by rw [hn]; rfl
  obtain ⟨-, hc⟩ := ztlIoNodeset_cases e
  rw [Nat.mod_eq_of_lt hb, ← hn] at hc
  have hother : ∀ k, k ≠ n → z.vnodes k = { z.vnodes k with
      nrValid := (z.vnodes k).nrValid + unitsOn ([(m, level)].map Prod.fst) k } := fun k hk => by
    rw [hunits, if_neg (Ne.symm hk)]
    rfl
  rcases hc with ⟨hs, rfl⟩ | ⟨hs, hl, rfl⟩
  · refine ⟨rfl, rfl, rfl, rfl, rfl, rfl, fun k => ?_, fun q k h => .inl h, ?_⟩
    · by_cases hk : k = n
      · subst hk
        refine ⟨(z.vnodes k).level, ?_, fun _ => rfl⟩
        rw [Ztl.setNode_self, hunits, if_pos rfl]
      · refine ⟨(z.vnodes k).level, ?_, fun _ => rfl⟩
        rw [Ztl.setNode_of_ne _ _ hk]
        exact hother k hk
    · rintro q (h | ⟨s, h, hst, -⟩)
      · exact h
      · rw [mem_singleton.mp h, ← hn] at hst
        exact absurd hst hs
  · refine ⟨rfl, rfl, rfl, rfl, rfl, rfl, fun k => ?_, fun q k h => ?_, ?_⟩
    · by_cases hk : k = n
      · subst hk
        refine ⟨setLevelOf level, ?_, fun hne => absurd hs hne⟩
        rw [Ztl.setNode_self, hunits, if_pos rfl]
      · refine ⟨(z.vnodes k).level, ?_, fun _ => rfl⟩
        rw [Ztl.setNode_of_ne _ _ hk]
        exact hother k hk
    · have h' : update z.qnode (setLevelOf level).toNat (some n) q = some k := h
      by_cases hq : q = (setLevelOf level).toNat
      · rw [hq, update_self] at h'
        cases h'
        exact Or.inr ⟨_, mem_singleton_self _, hn.symm, hs,
          by rw [hq]; exact (Int.toNat_of_nonneg hl).symm⟩
      · rw [update_of_ne hq] at h'
        exact Or.inl h'
    · intro q h
      show ∃ k, update z.qnode (setLevelOf level).toNat (some n) q = some k
      by_cases hq : q = (setLevelOf level).toNat
      · exact ⟨n, by rw [hq, update_self]⟩
      · rw [update_of_ne hq]
        rcases h with h | ⟨s, h, -, hl'⟩
        · exact h
        · rw [mem_singleton.mp h] at hl'
          exact absurd (by rw [hl']; rfl) hq

/-- The first of the calls, and what it leaves room for. -/
theorem NodesSet.head {z z₁ : Ztl} {m : ZrocksMap} {level : Int}
    (hb : ∀ n < z.nnodes, (z.vnodes n).nrValid + unitsOn (m :: sets.map Prod.fst) n < 2 ^ 64)
    (e : ztlIoNodeset z m.nodeId level m.num = .ok z₁) : NodesSet [(m, level)] z z₁ ∧
      ∀ n < z₁.nnodes, (z₁.vnodes n).nrValid + unitsOn (sets.map Prod.fst) n < 2 ^ 64 := by
  have hm := hb m.nodeId.val (ztlIoNodeset_cases e).1
  rw [unitsOn_cons, if_pos rfl] at hm
  have h1 := NodesSet.one (by omega) e
  refine ⟨h1, fun n hn => ?_⟩
  rw [h1.nnodes] at hn
  obtain ⟨l, hl, -⟩ := h1.node n
  rw [hl]
  rw [Nat.add_assoc, ← unitsOn_append]
  exact hb n hn

/-- **The calls for a list of pieces.** -/
theorem nodeSets_spec (sets : List (ZrocksMap × Int)) :
    ∀ {z : Ztl}, (∀ n < z.nnodes, (z.vnodes n).nrValid + unitsOn (sets.map Prod.fst) n < 2 ^ 64) →
      nodeSets sets z = .ok z' → NodesSet sets z z' := by
  induction sets with
  | nil =>
    intro z _ e
    cases e
    exact .refl _
  | cons s sets ih =>
    intro z hb e
    obtain ⟨m, level⟩ := s
    obtain ⟨z1, e1, e2⟩ := Except.bind_eq_ok.mp e
    obtain ⟨h1, hb1⟩ := NodesSet.head hb e1
    exact h1.trans (ih hb1 e2)

/-- The units of a list of pieces, bounded by the width of the field. -/
theorem unitsOn_le (ms : List ZrocksMap) (n : Nat) : unitsOn ms n ≤ 2 ^ 11 * ms.length := by
  induction ms with
  | nil => exact Nat.zero_le _
  | cons m ms ih =>
    rw [unitsOn_cons, length_cons]
    split <;> omega

theorem unitsOn_sublist {ms ms' : List ZrocksMap} (h : ms.Sublist ms') (n : Nat) :
    unitsOn ms n ≤ unitsOn ms' n := by
  induction h with
  | slnil => exact le_refl _
  | cons m _ ih =>
    rw [unitsOn_cons]
    omega
  | cons_cons m _ ih =>
    rw [unitsOn_cons, unitsOn_cons]
    omega

/-- Some of the pieces. -/
theorem unitsOn_subperm {ms ms' : List ZrocksMap} (h : ms.Subperm ms') (n : Nat) :
    unitsOn ms n ≤ unitsOn ms' n := by
  obtain ⟨ms1, hp, hs⟩ := h
  rw [← unitsOn_perm hp]
  exact unitsOn_sublist hs n

/-- The pieces with one level for all. -/
theorem map_fst_level (ms : List ZrocksMap) (l : Int) : (ms.map (·, l)).map Prod.fst = ms := by
  rw [map_map]
  exact map_id ms

/-- The calls return when the nodes exist and no level is negative where it is looked at. -/
theorem exists_nodeSets (sets : List (ZrocksMap × Int)) :
    ∀ {z : Ztl}, (∀ n < z.nnodes, (z.vnodes n).nrValid + unitsOn (sets.map Prod.fst) n < 2 ^ 64) →
      (∀ s ∈ sets, s.1.nodeId.val < z.nnodes ∧
        ((z.vnodes s.1.nodeId.val).status = .used → 0 ≤ s.2)) → ∃ z', nodeSets sets z = .ok z' := by
  induction sets with
  | nil => exact fun _ _ => ⟨_, rfl⟩
  | cons s sets ih =>
    intro z hb h
    obtain ⟨m, level⟩ := s
    obtain ⟨hlt, hlev⟩ := h _ mem_cons_self
    obtain ⟨z1, e1⟩ : ∃ z1, ztlIoNodeset z m.nodeId level m.num = .ok z1 := by
      rw [ztlIoNodeset, if_neg (not_le.mpr hlt)]
      by_cases hs : (z.vnodes m.nodeId.val).status = .used
      · rw [if_pos hs, if_neg (not_lt.mpr (setLevelOf_nonneg (hlev hs)))]
        exact ⟨_, rfl⟩
      · rw [if_neg hs]
        exact ⟨_, rfl⟩
    obtain ⟨h1, hb1⟩ := NodesSet.head hb e1
    obtain ⟨z', e'⟩ := ih hb1 fun s hs => by
      rw [h1.nnodes, h1.status]
      exact h s (mem_cons_of_mem _ hs)
    exact ⟨z', Except.bind_eq_ok.mpr ⟨z1, e1, e'⟩⟩

end

/-! ### What a true report says -/

/-- The states of a zone that is neither empty nor full. -/
def ZndState.Active (s : ZndState) : Prop := s = .eopen ∨ s = .iopen ∨ s = .closed

/-- The descriptor of a zone of 24576 sectors from `start` on whose write pointer is `wp`.  The
pointer of a full zone is not meaningful. -/
inductive ZndDescr.Shows (start : Nat) : ZndDescr → Nat → Prop where
  | empty : Shows start ⟨.empty, ztlProSecNumInzone, start⟩ start
  | full (p : Nat) : Shows start ⟨.full, ztlProSecNumInzone, p⟩ (start + ztlProSecNumInzone)
  | partly {zs : ZndState} {p : Nat} (hs : zs.Active) (h₁ : start < p)
      (h₂ : p < start + ztlProSecNumInzone) : Shows start ⟨zs, ztlProSecNumInzone, p⟩ p

/-- The report of a device whose zones behind the metadata zones have the write pointers `wp`. -/
def TrueReport (nodes : Nat) (wp : Nat → Nat) (rep : ZndReport) : Prop :=
  ∀ n < nodes, ∀ i < ztlProZoneNumInnode,
    (rep (zoneAt n i)).Shows (zoneStart (zoneAt n i)) (wp (ztlProZoneNumInnode * n + i))

/-- The units of a zone. -/
def zoneUnits : Nat := ztlProSecNumInzone / ztlIoSecMcmd

theorem ZndDescr.Shows.units {start k : Nat} {d : ZndDescr}
    (h : d.Shows start (start + ztlIoSecMcmd * k)) :
    d.sectors start = ztlIoSecMcmd * k ∧ (d.zs = .full ↔ k = zoneUnits) ∧
      (k ≠ zoneUnits → d.wp = start + ztlIoSecMcmd * k) := by
  generalize hp : start + ztlIoSecMcmd * k = p at h
  have h8 : ztlIoSecMcmd = 8 := rfl
  have hz : ztlProSecNumInzone = 24576 := rfl
  have hu : zoneUnits = 3072 := rfl
  rw [h8] at hp ⊢
  rw [hu]
  cases h with
  | empty =>
    refine ⟨?_, ?_, fun _ => rfl⟩
    · show 0 = 8 * k
      omega
    · simp only [reduceCtorEq, false_iff]
      omega
  | full q =>
    rw [hz] at hp ⊢
    refine ⟨?_, ?_, fun hk => absurd (by omega) hk⟩
    · show 24576 = 8 * k
      omega
    · simp only [true_iff]
      omega
  | partly hs h1 h2 =>
    rw [hz] at h2
    refine ⟨?_, ?_, fun _ => rfl⟩
    · rcases hs with rfl | rfl | rfl
      all_goals
        show p - start = 8 * k
        omega
    · refine ⟨fun hf => ?_, fun hk => by omega⟩
      rcases hs with rfl | rfl | rfl <;> cases hf

theorem sum_unitsAt (u : Nat) : ((List.range ztlProZoneNumInnode).map fun i => unitsAt u i).sum = u := by
  induction u with
  | zero => decide
  | succ u ih =>
    have hstep : ∀ i ∈ List.range ztlProZoneNumInnode, unitsAt (u + 1) i =
        unitsAt u i + if i = u % ztlProZoneNumInnode then 1 else 0 := fun i hi => by
      by_cases e : i = u % ztlProZoneNumInnode
      · rw [if_pos e, e]
        exact unitsAt_succ_self u
      · rw [if_neg e]
        exact unitsAt_succ_of_ne (mem_range.mp hi) e
    have hone : ∀ c < ztlProZoneNumInnode,
        ((List.range ztlProZoneNumInnode).map fun i => if i = c then 1 else 0).sum = 1 := by decide
    rw [map_congr_left hstep, sum_map_add, ih, hone _ (Nat.mod_lt _ (by decide))]

/-- The list a node with `u` units belongs on. -/
def listOf (u : Nat) : NodeList :=
  if u = ztlProOptSecNumInnode then .fullHead else if u = 0 then .freeHead else .usedHead

section

variable {rep : ZndReport} {n u : Nat}

theorem unitsAt_full_iff (hu : u ≤ ztlProOptSecNumInnode) :
    (∀ i < ztlProZoneNumInnode, unitsAt u i = zoneUnits) ↔ u = ztlProOptSecNumInnode := by
  constructor
  · intro h
    have := h 63 (by decide)
    simp only [unitsAt, ztlProZoneNumInnode, zoneUnits, ztlProSecNumInzone, ztlIoSecMcmd] at this
    rw [ztlProOptSecNumInnode_eq] at hu ⊢
    omega
  · rintro rfl i hi
    have hz : zoneUnits = 3072 := rfl
    simp only [unitsAt, ztlProOptSecNumInnode_eq, ztlProZoneNumInnode, hz] at *
    omega

/-- **The sums over a true report** give the counter of a node back, and with it the list. -/
theorem usedOf_eq (hu : u ≤ ztlProOptSecNumInnode)
    (h : ∀ i < ztlProZoneNumInnode, (rep (zoneAt n i)).Shows (zoneStart (zoneAt n i))
      (zoneStart (zoneAt n i) + ztlIoSecMcmd * unitsAt u i)) :
    fileOf rep n = listOf u ∧ usedOf rep n = u := by
  have hsum : sectorsOf rep n ztlProZoneNumInnode = ztlIoSecMcmd * u := by
    rw [sectorsOf, map_congr_left fun i hi => (h i (mem_range.mp hi)).units.1,
      sum_map_mul_left, sum_unitsAt]
  have hfull : fullsOf rep n ztlProZoneNumInnode = ztlProZoneNumInnode ↔
      u = ztlProOptSecNumInnode := by
    rw [← unitsAt_full_iff hu, fullsOf]
    have hlen : (List.range ztlProZoneNumInnode).length = ztlProZoneNumInnode := length_range
    conv_lhs => rhs; rw [← hlen]
    rw [length_filter_eq_length_iff]
    refine ⟨fun hf i hi => ?_, fun hf i hi => ?_⟩
    · exact (h i hi).units.2.1.mp (of_decide_eq_true (hf i (mem_range.mpr hi)))
    · have hi := mem_range.mp hi
      exact decide_eq_true ((h i hi).units.2.1.mpr (hf i hi))
  have hzero : sectorsOf rep n ztlProZoneNumInnode = 0 ↔ u = 0 := by
    rw [hsum, ztlIoSecMcmd]
    omega
  have hfile : fileOf rep n = listOf u := by
    rw [fileOf, listOf]
    simp only [hfull, hzero]
  refine ⟨hfile, ?_⟩
  rw [usedOf, hfile, hsum, listOf]
  by_cases h1 : u = ztlProOptSecNumInnode
  · rw [if_pos h1, h1]
  · rw [if_neg h1]
    by_cases h2 : u = 0
    · rw [if_pos h2, h2]
    · rw [if_neg h2]
      exact Nat.mul_div_cancel_left u (by decide)

end

/-- The condition on an operation: it succeeds, and a reset is of no queue's current node. -/
def DevIdle (d : DevState) (a : ZOp) : Prop := a.Succeeds ∧ ResetIdle d.s a

/-- The invariants of a run. -/
structure DevInv (d : DevState) : Prop extends DevLoose d where
  sound : Sound d.s.z d.s.live
  striped : Striped d.s.z d.s.live
  owned : Owned d.s.z

theorem DevInv.fresh (g : GroupSize) (dev : Dev) : DevInv (DevState.fresh g dev) :=
  ⟨DevLoose.fresh g dev, Sound.fresh g dev, Striped.fresh g dev, fun _ ho => by cases ho.1⟩

theorem DevInv.step {d d' : DevState} {a : ZOp} (h : DevInv d) (hg : DevIdle d a)
    (e : devStep d a = some d') : DevInv d' := by
  refine ⟨(h.toDevLoose.step hg.1 e).1, ?_, ?_, ?_⟩
  all_goals obtain ⟨s', hs', rfl⟩ := Option.map_eq_some_iff.mp e
  · exact h.sound.zstep hg.2 hs'
  · refine h.striped.step (a := a.striped) ?_ ((stripeStep_striped _ _).trans hs')
    cases a with
    | write c ans => trivial
    | trim m => trivial
    | mgmt => exact hg.2
  · exact h.owned.zstep h.sound hs'

theorem DevInv.run {g : GroupSize} {dev : Dev} {as : List ZOp} {d : DevState}
    (h : Runs devStep DevIdle (DevState.fresh g dev) as d) :
    DevInv d ∧ d.s.z.nnodes = g.nnodes :=
  h.invariant (I := fun d => DevInv d ∧ d.s.z.nnodes = g.nnodes)
    (fun _ _ _ ⟨hi, hn⟩ hg e => ⟨hi.step hg e, (hi.toDevLoose.step hg.1 e).2.trans hn⟩)
    ⟨DevInv.fresh g dev, rfl⟩

/-- A group as a restart should leave it, seen at node `n`. -/
structure Rebuilt (d : DevState) (z' : Ztl) (parts : NodeList → List Nat) (n : Nat) : Prop where
  used : (z'.vnodes n).used = (d.s.z.vnodes n).used
  left : (z'.vnodes n).left = (d.s.z.vnodes n).left
  nrValid : (z'.vnodes n).nrValid = (d.s.z.vnodes n).nrValid
  slot : ∀ i < ztlProZoneNumInnode, (z'.vnodes n).vzones i = (d.s.z.vnodes n).vzones i
  /-- The write pointers of the zones that are not full. -/
  wptr : ∀ i < ztlProZoneNumInnode, ∀ j, j = (d.s.z.vnodes n).vzones i →
    d.wp j ≠ (d.s.z.vzones j).sect + ztlProSecNumInzone →
    (z'.vzones j).wptr = (d.s.z.vzones j).wptr ∧
      (z'.vzones j).wptrInflight = (d.s.z.vzones j).wptrInflight
  status : (z'.vnodes n).status = (listOf (d.s.z.vnodes n).used).status
  filed : n ∈ parts (listOf (d.s.z.vnodes n).used)

/-- A node to be reset is full. -/
theorem Alloc.used_of_reset {z : Ztl} {parts : NodeList → List Nat} {n : Nat} (h : Alloc z parts)
    (hn : n < z.nnodes) (hr : (z.vnodes n).status = .reset) :
    (z.vnodes n).used = ztlProOptSecNumInnode := by
  have hspent : (z.vnodes n).left = 0 := by
    obtain ⟨l, hl⟩ := (h.mem n).mpr hn
    cases l with
    | freeHead => exact absurd ((h.free n hl).1.symm.trans hr) (by decide)
    | usedHead =>
      rcases h.used n hl with ho | hs
      · exact absurd (ho.1.symm.trans hr) (by decide)
      · exact hs.2
    | fullHead => exact (h.full n hl).2
  have hb := h.balance n hn
  omega

/-- The state's own pointers of a zone that is not full are the device's. -/
theorem DevInv.zone {d : DevState} (h : DevInv d) {n i : Nat} (hn : n < d.s.z.nnodes)
    (hi : i < ztlProZoneNumInnode)
    (hne : d.wp (ztlProZoneNumInnode * n + i) ≠ zoneStart (zoneAt n i) + ztlProSecNumInzone) :
    (d.s.z.vzones (ztlProZoneNumInnode * n + i)).wptr = d.wp (ztlProZoneNumInnode * n + i) ∧
      (d.s.z.vzones (ztlProZoneNumInnode * n + i)).wptrInflight
        = d.wp (ztlProZoneNumInnode * n + i) := by
  have hwp := h.tracks n hn i hi
  have hst : (d.s.z.vnodes n).status ≠ .reset := fun hr => by
    obtain ⟨parts, ha⟩ := h.sound.alloc
    have hu := ha.used_of_reset hn hr
    have hfull := (unitsAt_full_iff hu.le).mpr hu i hi
    rw [hfull] at hwp
    exact hne hwp
  have hp := h.striped.stripes.placed n hn hst i hi
  have hs := h.striped.stripes.settled n hn hst i hi
  rw [hs, hp, hwp, zoneStart_zoneAt]
  exact ⟨rfl, rfl⟩

/-- A report of zones with given write pointers, none of them open. -/
def reportOf (wp : Nat → Nat) : ZndReport where
  descr i :=
    let p := wp (i - metadataZoneNum)
    if zoneStart i < p ∧ p < zoneStart i + ztlProSecNumInzone then ⟨.closed, ztlProSecNumInzone, p⟩
    else if p = zoneStart i + ztlProSecNumInzone then ⟨.full, ztlProSecNumInzone, p⟩
    else ⟨.empty, ztlProSecNumInzone, zoneStart i⟩
  inZone i := by
    dsimp only
    split
    next hp => exact ⟨le_rfl, fun _ => ⟨hp.1.le, hp.2.le⟩⟩
    next => split <;> exact ⟨le_rfl, by simp⟩

/-- There is a true report at every point of a run. -/
theorem DevLoose.trueReport {d : DevState} (h : DevLoose d) :
    TrueReport d.s.z.nnodes d.wp (reportOf d.wp) := by
  intro n hn i hi
  have hj : zoneAt n i - metadataZoneNum = ztlProZoneNumInnode * n + i := by
    rw [zoneAt, Nat.add_assoc, Nat.add_sub_cancel_left]
  have hwp := h.tracks n hn i hi
  have hle : ztlIoSecMcmd * unitsAt (d.s.z.vnodes n).used i ≤ ztlProSecNumInzone := by
    have hb := h.loose.balance n hn
    rw [ztlProOptSecNumInnode_eq] at hb
    rw [ztlProSecNumInzone_eq]
    simp only [unitsAt, ztlIoSecMcmd, ztlProZoneNumInnode] at *
    omega
  simp only [reportOf, hj]
  generalize d.wp (ztlProZoneNumInnode * n + i) = p at *
  split
  next h1 => exact .partly (Or.inr (Or.inr rfl)) h1.1 h1.2
  next h1 =>
    split
    next h2 =>
      rw [h2]
      exact .full _
    next h2 =>
      obtain rfl : p = zoneStart (zoneAt n i) := by omega
      exact .empty

/-- **A restart returns**, whatever the report, when every level is a queue's. -/
theorem DevInv.exists_restart {entries : Nat} (hb : Buildable entries) {d : DevState} (hinv : DevInv d)
    (hnn : d.s.z.nnodes = nodeNum entries) (rep : ZndReport) {sets : List (ZrocksMap × Int)}
    (hsets : (sets.map Prod.fst).Subperm d.s.live) (hlevel : ∀ s ∈ sets, 0 ≤ s.2) :
    ∃ z1 z2, ztlProGrpNodeInit entries rep d.s.z.dev = .ok z1 ∧
      NodesBuilt rep (nodeNum entries) d.s.z.dev z1 ∧ nodeSets sets z1 = .ok z2 ∧
      NodesSet sets z1 z2 := by
  obtain ⟨parts0, ha⟩ := hinv.sound.alloc
  obtain ⟨z1, e1, h1⟩ := nodeInit_spec hb rep d.s.z.dev
  have hbound : ∀ n < z1.nnodes, (z1.vnodes n).nrValid + unitsOn (sets.map Prod.fst) n < 2 ^ 64 :=
    fun n hn => by
      rw [h1.nnodes] at hn
      have hunits := unitsOn_subperm hsets n
      rw [← hinv.sound.acc.valid n (hnn ▸ hn)] at hunits
      rw [(h1.built n hn).nrValid]
      have hle := hinv.sound.acc.le n (hnn ▸ hn)
      have hb := ha.balance n (hnn ▸ hn)
      rw [ztlProOptSecNumInnode_eq] at hb
      omega
  obtain ⟨z2, e2⟩ := exists_nodeSets sets hbound fun s hs => by
    refine ⟨?_, fun _ => hlevel s hs⟩
    rw [h1.nnodes, ← hnn]
    exact hinv.sound.lt _ (hsets.subset (mem_map_of_mem hs))
  exact ⟨z1, z2, e1, h1, e2, nodeSets_spec sets hbound e2⟩

/-- **The allocator after a restart.**  After every run of successful writes, trims and completed
resets in which no queue's current node is reset, the nodes built from the device's report and the
live pieces are those of before. -/
theorem rebuild_run {entries : Nat} (hb : Buildable entries) (dev : Dev) {as : List ZOp}
    {d : DevState} (h : Runs devStep DevIdle (DevState.fresh ⟨nodeNum entries, hb.fits⟩ dev) as d)
    {rep : ZndReport} (hrep : TrueReport (nodeNum entries) d.wp rep)
    {sets : List (ZrocksMap × Int)} (hsets : (sets.map Prod.fst).Perm d.s.live)
    (hlevel : ∀ s ∈ sets, 0 ≤ s.2) :
    ∃ z₁ z₂ parts, ztlProGrpNodeInit entries rep d.s.z.dev = .ok z₁ ∧ nodeSets sets z₁ = .ok z₂ ∧
      Queues z₂.lists parts ∧ ∀ n < nodeNum entries, Rebuilt d z₂ parts n := by
  obtain ⟨hinv, hnn⟩ := DevInv.run h
  rw [show (GroupSize.mk (nodeNum entries) hb.fits).nnodes = nodeNum entries from rfl] at hnn
  obtain ⟨parts₀, ha⟩ := hinv.sound.alloc
  obtain ⟨z₁, z₂, e₁, h₁, e₂, h₂⟩ := hinv.exists_restart hb hnn rep hsets.subperm hlevel
  have hunits : ∀ n, unitsOn (sets.map Prod.fst) n = unitsOn d.s.live n := unitsOn_perm hsets
  have hvalid : ∀ n < nodeNum entries, unitsOn d.s.live n = (d.s.z.vnodes n).nrValid :=
    fun n hn => (hinv.sound.acc.valid n (hnn ▸ hn)).symm
  have hbal : ∀ n < nodeNum entries, (d.s.z.vnodes n).used + (d.s.z.vnodes n).left
      = ztlProOptSecNumInnode := fun n hn => ha.balance n (hnn ▸ hn)
  refine ⟨z₁, z₂, filedParts rep (nodeNum entries), e₁, e₂, h₂.lists ▸ h₁.queues, fun n hn => ?_⟩
  have hbuilt := h₁.built n hn
  obtain ⟨l, hl, -⟩ := h₂.node n
  have hlt : n < d.s.z.nnodes := hnn ▸ hn
  have hule : (d.s.z.vnodes n).used ≤ ztlProOptSecNumInnode := by
    have := hbal n hn
    omega
  obtain ⟨hfile, hused⟩ := usedOf_eq hule fun i hi => hinv.tracks n hlt i hi ▸ hrep n hn i hi
  have hslot := ha.geometry.slot n hlt
  refine ⟨?_, ?_, ?_, fun i hi => ?_, ?_, ?_, ?_⟩
  · rw [hl]
    exact hbuilt.used.trans hused
  · rw [hl]
    show (z₁.vnodes n).left = _
    rw [hbuilt.left, hused]
    have := hbal n hn
    omega
  · rw [hl]
    show (z₁.vnodes n).nrValid + _ = _
    rw [hbuilt.nrValid, hunits, hvalid n hn, Nat.zero_add]
  · rw [hl]
    exact (hbuilt.slot i hi).trans (hslot i hi).symm
  · rintro i hi j rfl hne
    have hj : ztlProZoneNumInnode * n + i < ztlProZoneNumInnode * nodeNum entries := by
      simp only [ztlProZoneNumInnode] at *
      omega
    rw [hslot i hi] at hne ⊢
    rw [ha.geometry.sect _ (hnn ▸ hj), ← zoneStart_zoneAt] at hne
    obtain ⟨hw, hwi⟩ := hinv.zone hlt hi hne
    have hzone : ztlProZoneNumInnode * n + i + metadataZoneNum = zoneAt n i := by
      rw [zoneAt]
      omega
    have hwp : (rep (zoneAt n i)).wp = d.wp (ztlProZoneNumInnode * n + i) := by
      have ht := hinv.tracks n hlt i hi
      rw [ht] at hne ⊢
      exact (ht ▸ hrep n hn i hi).units.2.2 fun hk => hne (by rw [hk]; rfl)
    rw [h₂.vzones, h₁.zone _ hj, zoneBuilt, hzone, hwp, hw, hwi]
    exact ⟨rfl, rfl⟩
  · rw [hl]
    exact hbuilt.status.trans (by rw [hfile])
  · exact mem_filter.mpr ⟨mem_range.mpr hn, decide_eq_true hfile⟩

/-- A group of one node and one zone more, after a write of one byte. -/
theorem rebuild_run_byte : ∃ (as : List ZOp) (d : DevState) (rep : ZndReport) (z₁ z₂ : Ztl)
    (parts : NodeList → List Nat),
    Runs devStep DevIdle (DevState.fresh oneNode .blank) as d ∧ d.s.live ≠ [] ∧
      TrueReport 1 d.wp rep ∧ ztlProGrpNodeInit 67 rep d.s.z.dev = .ok z₁ ∧
      nodeSets (d.s.live.map (·, 0)) z₁ = .ok z₂ ∧ Queues z₂.lists parts ∧ Rebuilt d z₂ parts 0 := by
  obtain ⟨dev, hdev⟩ : ∃ dev : Dev, dev = .blank := ⟨_, rfl⟩
  rw [← hdev]
  obtain ⟨ans, z, m, e, -⟩ := exists_unitWrite (c := byteWrite) (Alloc.fresh oneNode dev) (by decide)
    (enough_fresh dev _ _)
  have hstep : zstep (ZState.fresh oneNode dev) (.write byteWrite ans) = some ⟨z, [m]⟩ := by
    rw [zstep]
    simp only [show (ZState.fresh oneNode dev).z = Ztl.fresh oneNode dev from rfl, e]
    rfl
  have hidle : DevIdle (DevState.fresh oneNode dev) (.write byteWrite ans) :=
    ⟨fun _ _ => ⟨0, by decide, rfl⟩, trivial⟩
  obtain ⟨d, hd⟩ : ∃ d, d = (⟨⟨z, [m]⟩, devPointers (DevState.fresh oneNode dev) ⟨z, [m]⟩
    (.write byteWrite ans)⟩ : DevState) := ⟨_, rfl⟩
  have hrun : Runs devStep DevIdle (DevState.fresh oneNode dev) [.write byteWrite ans] d :=
    Runs.one hidle (by
      rw [devStep, show (DevState.fresh oneNode dev).s = ZState.fresh oneNode dev from rfl, hstep, hd]
      rfl)
  obtain ⟨hl, hnn⟩ := tracks_run (hrun.mono fun _ _ h => h.1)
  have hrep : TrueReport 1 d.wp (reportOf d.wp) := by
    have := hl.trueReport
    rwa [hnn] at this
  have hb : Buildable 67 := ⟨by decide, by decide, by decide⟩
  have hsets : ((d.s.live.map (·, (0 : Int))).map Prod.fst).Perm d.s.live := by rw [map_fst_level]
  obtain ⟨z₁, z₂, parts, h₁, h₂, h₃, h₄⟩ := rebuild_run hb dev hrun hrep hsets (by simp)
  exact ⟨_, d, reportOf d.wp, z₁, z₂, parts, hrun, by rw [hd]; simp, hrep, h₁, h₂, h₃,
    h₄ 0 (by decide)⟩

/-- **A count is lost** when a node that is a queue's current node has been reset: a later reset of it
takes the units of a live piece away, and the restart brings them back. -/
theorem rebuild_lost : ∃ (as : List ZOp) (d : DevState) (rep : ZndReport) (z₁ z₂ : Ztl),
    Runs devStep (fun _ a => a.Succeeds) (DevState.fresh twoNodes .blank) as d ∧
      TrueReport 2 d.wp rep ∧ ztlProGrpNodeInit 131 rep d.s.z.dev = .ok z₁ ∧
      nodeSets (d.s.live.map (·, 0)) z₁ = .ok z₂ ∧
      (z₂.vnodes 0).nrValid ≠ (d.s.z.vnodes 0).nrValid := by
  obtain ⟨as, s, hr, -, hv, hlen, hu⟩ := exists_wiped .blank
  obtain ⟨wp, hrun⟩ := exists_devRun hr (DevState.fresh twoNodes .blank).wp
  obtain ⟨hl, hnn⟩ := tracks_run (g := twoNodes) hrun
  have hrep : TrueReport 2 wp (reportOf wp) := by
    have := hl.trueReport
    rwa [hnn] at this
  have hb : Buildable 131 := ⟨by decide, by decide, by decide⟩
  obtain ⟨z₁, e₁, h₁⟩ := nodeInit_spec hb (reportOf wp) s.z.dev
  have hbound : ∀ n < z₁.nnodes, (z₁.vnodes n).nrValid +
      unitsOn ((s.live.map fun m => (m, (0 : Int))).map Prod.fst) n < 2 ^ 64 := fun n hn => by
    have hle := unitsOn_le s.live n
    rw [hlen] at hle
    rw [h₁.nnodes] at hn
    rw [(h₁.built n hn).nrValid, map_fst_level]
    omega
  obtain ⟨z₂, e₂⟩ := exists_nodeSets _ hbound fun x hx => by
    obtain ⟨m, hm, rfl⟩ := mem_map.mp hx
    refine ⟨?_, fun _ => le_refl _⟩
    rw [h₁.nnodes]
    exact Nat.lt_of_lt_of_eq (hl.lt m hm) hnn
  obtain ⟨l, hnode, -⟩ := (nodeSets_spec _ hbound e₂).node 0
  refine ⟨as, ⟨s, wp⟩, reportOf wp, z₁, z₂, hrun, hrep, e₁, e₂, ?_⟩
  show (z₂.vnodes 0).nrValid ≠ (s.z.vnodes 0).nrValid
  rw [hnode, map_fst_level, hv]
  show (z₁.vnodes 0).nrValid + unitsOn s.live 0 ≠ 0
  rw [hu]
  exact Nat.succ_ne_zero _

end Xztl
