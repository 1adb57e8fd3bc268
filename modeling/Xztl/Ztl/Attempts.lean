import Xztl.Ztl.Mgmt

/-!
# Ztl — the attempts at an entry of the management queue (`ztl_mgmt_thd_process`)

An entry is tried up to `MGMT_MAX_RETRY` times, and whatever has become of it then, it is gone.

* A finish only moves the write pointers of the node's zones and counts its failures
  (`FinishDone`).
* A reset is carried out when all zone commands of some attempt succeed, and otherwise leaves error
  counts and pointers of zones behind (`Brushed`): **`mgmtAttempts_reset_cases`**.
-/

namespace Xztl

open Function

/-! ### What an entry leaves alone -/

/-- The zones have the same numbers and the same start sectors. -/
def SameZones (vz vz' : Nat → Zone) : Prop :=
  ∀ j, (vz' j).zone = (vz j).zone ∧ (vz' j).sect = (vz j).sect

theorem SameZones.refl (vz : Nat → Zone) : SameZones vz vz := fun _ => ⟨rfl, rfl⟩

theorem SameZones.trans {vz vz' vz'' : Nat → Zone} (h : SameZones vz vz')
    (h' : SameZones vz' vz'') : SameZones vz vz'' :=
  fun j => ⟨(h' j).1.trans (h j).1, (h' j).2.trans (h j).2⟩

/-- What attempts at an entry leave behind when they carry out no reset: error counts, and pointers
of zones. -/
structure Brushed (z z' : Ztl) : Prop where
  nnodes : z'.nnodes = z.nnodes
  lists : z'.lists = z.lists
  qnode : z'.qnode = z.qnode
  submitHead : z'.submitHead = z.submitHead
  node : ∀ k, ∃ a b, z'.vnodes k = { z.vnodes k with nrFinishErr := a, nrResetErr := b }
  zones : SameZones z.vzones z'.vzones

section

variable {z z' z'' : Ztl} {n : Nat}

theorem Brushed.refl (z : Ztl) : Brushed z z :=
  ⟨rfl, rfl, rfl, rfl, fun _ => ⟨_, _, rfl⟩, SameZones.refl _⟩

section

variable (h : Brushed z z')
include h

theorem Brushed.trans (h' : Brushed z' z'') : Brushed z z'' where
  nnodes := h'.nnodes.trans h.nnodes
  lists := h'.lists.trans h.lists
  qnode := h'.qnode.trans h.qnode
  submitHead := h'.submitHead.trans h.submitHead
  node := fun k => by
    obtain ⟨a, b, e⟩ := h.node k
    obtain ⟨a', b', e'⟩ := h'.node k
    exact ⟨a', b', by rw [e', e]⟩
  zones := h.zones.trans h'.zones

theorem Brushed.setNode {nd : Node} {a b : Nat}
    (hnd : nd = { z'.vnodes n with nrFinishErr := a, nrResetErr := b }) :
    Brushed z (z'.setNode n nd) := by
  refine { h with node := fun k => ?_ }
  by_cases e : k = n
  · obtain ⟨a', b', e'⟩ := h.node n
    rw [e, Ztl.setNode_self, hnd, e']
    exact ⟨_, _, rfl⟩
  · rw [Ztl.setNode_of_ne _ _ e]
    exact h.node k

theorem Brushed.slot (k : Nat) : (z'.vnodes k).vzones = (z.vnodes k).vzones := by
  obtain ⟨a, b, e⟩ := h.node k
  rw [e]

theorem Brushed.left (k : Nat) : (z'.vnodes k).left = (z.vnodes k).left := by
  obtain ⟨a, b, e⟩ := h.node k
  rw [e]

theorem Brushed.status (k : Nat) : (z'.vnodes k).status = (z.vnodes k).status := by
  obtain ⟨a, b, e⟩ := h.node k
  rw [e]

end

theorem ResetFailed.brushed (h : ResetFailed z n z') : Brushed z z' := by
  have hst := h.state
  refine ⟨by rw [hst], by rw [hst], by rw [hst], by rw [hst], fun k => ?_,
    fun j => ⟨h.zones.zone j, h.zones.sect j⟩⟩
  have hk : z'.vnodes k = update z.vnodes n
      { z.vnodes n with nrResetErr := (z.vnodes n).nrResetErr + 1 } k := by rw [hst]
  by_cases e : k = n
  · rw [hk, e, update_self]
    exact ⟨_, _, rfl⟩
  · rw [hk, update_of_ne e]
    exact ⟨_, _, rfl⟩

/-! ### A finish -/

theorem finishZones_state (n : Nat) (ans : Nat → ZoneAns) (is : List Nat) : ∀ z : Ztl,
    ∃ vz, (finishZones n ans is z).1 = { z with vzones := vz } ∧
      ∀ j, vz j = { z.vzones j with wptr := (vz j).wptr } := by
  induction is with
  | nil => exact fun z => ⟨z.vzones, rfl, fun _ => rfl⟩
  | cons i is ih =>
    intro z
    rw [finishZones]
    split
    · exact ⟨z.vzones, rfl, fun _ => rfl⟩
    · obtain ⟨vz, e, hvz⟩ := ih { z with
        vzones := update z.vzones ((z.vnodes n).vzones i)
          { z.vzones ((z.vnodes n).vzones i) with
            wptr := (z.vzones ((z.vnodes n).vzones i)).sect
              + (z.vzones ((z.vnodes n).vzones i)).capacity } }
      refine ⟨vz, e, fun j => ?_⟩
      rw [hvz j]
      by_cases ej : j = (z.vnodes n).vzones i
      · rw [ej]
        simp only [update_self]
      · simp only [update_of_ne ej]

/-- What a finish changes: write pointers, and the count of its failures. -/
def FinishDone (z : Ztl) (n : Nat) (z' : Ztl) : Prop :=
  ∃ vz err, z' = { z with vzones := vz }.setNode n { z.vnodes n with nrFinishErr := err } ∧
    ∀ j, vz j = { z.vzones j with wptr := (vz j).wptr }

theorem FinishDone.refl (z : Ztl) (n : Nat) : FinishDone z n z := by
  refine ⟨z.vzones, (z.vnodes n).nrFinishErr, ?_, fun _ => rfl⟩
  have hself : update z.vnodes n (z.vnodes n) = z.vnodes := update_eq_self _ _
  rw [Ztl.setNode, hself]

theorem FinishDone.trans (h : FinishDone z n z') (h' : FinishDone z' n z'') :
    FinishDone z n z'' := by
  obtain ⟨vz, err, rfl, hvz⟩ := h
  obtain ⟨vz', err', rfl, hvz'⟩ := h'
  refine ⟨vz', err', ?_, fun j => ?_⟩
  · simp only [Ztl.setNode, update_idem, update_self]
  · rw [hvz' j]
    rw [Ztl.setNode_vzones]
    show { vz j with wptr := (vz' j).wptr } = _
    rw [hvz j]

theorem FinishDone.brushed (h : FinishDone z n z') : Brushed z z' := by
  obtain ⟨vz, err, rfl, hvz⟩ := h
  have hsame : SameZones z.vzones vz := fun j => by
    rw [hvz j]
    exact ⟨rfl, rfl⟩
  have hz : Brushed z { z with vzones := vz } := { Brushed.refl z with zones := hsame }
  exact hz.setNode rfl

/-- The allocator does not see it. -/
theorem FinishDone.alloc {parts : NodeList → List Nat} (h : FinishDone z n z')
    (ha : Alloc z parts) : Alloc z' parts := by
  obtain ⟨vz, err, rfl, hvz⟩ := h
  have hz : Alloc { z with vzones := vz } parts :=
    { ha with
      geometry := ⟨ha.geometry.slot, fun j hj => by
        show (vz j).zone = _
        rw [hvz j]
        exact ha.geometry.zone j hj, fun j hj => by
        show (vz j).sect = _
        rw [hvz j]
        exact ha.geometry.sect j hj⟩
      placed := fun m hm i hi => by
        show (vz (ztlProZoneNumInnode * m + i)).wptrInflight = _
        rw [hvz]
        exact ha.placed m hm i hi }
  exact hz.setNode rfl rfl rfl (ha.free n) (ha.used n) (ha.full n)

/-- **A finish** moves write pointers and counts its failures, and does nothing else. -/
theorem ztlMgmtNodeFinish_done (z : Ztl) (n : Nat) (ans : Nat → ZoneAns) :
    FinishDone z n (ztlMgmtNodeFinish z n ans).1 := by
  obtain ⟨vz, e, hvz⟩ := finishZones_state n ans (List.range ztlProZoneNumInnode) z
  rcases hf : finishZones n ans (List.range ztlProZoneNumInnode) z with ⟨z1, ret, _ | _⟩
  · rw [hf] at e
    obtain rfl : z1 = { z with vzones := vz } := e
    refine ⟨vz, (z.vnodes n).nrFinishErr, ?_, hvz⟩
    simp only [ztlMgmtNodeFinish, hf]
    have hself : update z.vnodes n (z.vnodes n) = z.vnodes := update_eq_self _ _
    rw [Ztl.setNode, hself]
  · rw [hf] at e
    obtain rfl : z1 = { z with vzones := vz } := e
    refine ⟨vz, (z.vnodes n).nrFinishErr + 1, ?_, hvz⟩
    simp only [ztlMgmtNodeFinish, hf]

theorem mgmtAttempts_finishDone (n : Nat) (ans : Nat → Nat → ZoneAns) (k : Nat) : ∀ z : Ztl,
    FinishDone z n (mgmtAttempts n .fullZone ans k z) := by
  induction k with
  | zero => exact fun z => FinishDone.refl z n
  | succ k ih =>
    intro z
    have hd := ztlMgmtNodeFinish_done z n (ans k)
    rw [mgmtAttempts_finish]
    split
    · exact hd.trans (ih _)
    · exact hd

/-- A round of the management thread whose entry is a finish. -/
theorem ztlMgmtThdProcess_finish {rest : List (Nat × MgmtOp)}
    (hs : z.submitHead = (n, .fullZone) :: rest) (ans : Nat → Nat → ZoneAns) :
    FinishDone { z with submitHead := rest } n (ztlMgmtThdProcess z ans) := by
  simp only [ztlMgmtThdProcess, hs]
  exact mgmtAttempts_finishDone n ans mgmtMaxRetry { z with submitHead := rest }

/-! ### A reset -/

theorem ztlMgmtNodeResetZn_ret (z : Ztl) (zi : Nat) (a : ZoneAns) :
    (ztlMgmtNodeResetZn z zi a).2 = a.ret := by
  rw [ztlMgmtNodeResetZn]
  split <;> rfl

/-- A reset is carried out only when every zone command succeeds. -/
theorem resetZones_ret {ans : Nat → ZoneAns} (is : List Nat) : ∀ {z : Ztl},
    (resetZones n ans is z).2 = 0 → ∀ i ∈ is, (ans i).ret = 0 := by
  induction is with
  | nil => exact fun _ i hi => by cases hi
  | cons i is ih =>
    intro z h
    rw [resetZones] at h
    split at h
    · next h0 => exact absurd h h0
    · next h0 =>
      rw [ztlMgmtNodeResetZn_ret, not_not] at h0
      exact List.forall_mem_cons.mpr ⟨h0, ih h⟩

/-- And then it is. -/
theorem resetZones_of_ret {ans : Nat → ZoneAns} (is : List Nat) : ∀ {z : Ztl},
    (∀ i ∈ is, (ans i).ret = 0) → (resetZones n ans is z).2 = 0 := by
  induction is with
  | nil => exact fun _ => rfl
  | cons i is ih =>
    intro z h
    obtain ⟨h0, his⟩ := List.forall_mem_cons.mp h
    rw [resetZones]
    split
    · next hne =>
      rw [ztlMgmtNodeResetZn_ret] at hne
      exact absurd h0 hne
    · exact ih his

theorem ztlMgmtNodeReset_ret (z : Ztl) (n : Nat) (ans : Nat → ZoneAns) :
    (ztlMgmtNodeReset z n ans).2 = 0 ↔ ∀ i < ztlProZoneNumInnode, (ans i).ret = 0 := by
  have hret : (ztlMgmtNodeReset z n ans).2
      = (resetZones n ans (List.range ztlProZoneNumInnode) z).2 := by
    rw [ztlMgmtNodeReset]
    dsimp only
    split <;> rfl
  rw [hret]
  constructor
  · exact fun h i hi => resetZones_ret _ h i (List.mem_range.mpr hi)
  · exact fun h => resetZones_of_ret _ fun i hi => h i (List.mem_range.mp hi)

/-- All zone commands of one of the last `k` attempts succeed. -/
def Carried (ans : Nat → Nat → ZoneAns) (k : Nat) : Prop :=
  ∃ j < k, ∀ i < ztlProZoneNumInnode, (ans j i).ret = 0

/-- The pointers of the node's zones are back at the start. -/
def Rewound (z : Ztl) (n : Nat) : Prop :=
  ∀ i < ztlProZoneNumInnode,
    (z.vzones ((z.vnodes n).vzones i)).wptr = (z.vzones ((z.vnodes n).vzones i)).sect ∧
    (z.vzones ((z.vnodes n).vzones i)).wptrInflight = (z.vzones ((z.vnodes n).vzones i)).sect

/-- **The attempts at a reset.**  One of them resets the node, or all of them leave it as it is. -/
theorem mgmtAttempts_reset_cases (n : Nat) {ans : Nat → Nat → ZoneAns}
    (hans : ∀ k i, (ans k i).ret = 0 → (ans k i).status = 0) (k : Nat) : ∀ z : Ztl,
    Carried ans k ∧ Rewound (mgmtAttempts n .resetZone ans k z) n ∧
        (∃ z1, Brushed z z1 ∧ ResetDone z1 n (mgmtAttempts n .resetZone ans k z)) ∨
      ¬ Carried ans k ∧ Brushed z (mgmtAttempts n .resetZone ans k z) := by
  induction k with
  | zero =>
    refine fun z => Or.inr ⟨?_, Brushed.refl z⟩
    rintro ⟨j, hj, -⟩
    cases hj
  | succ k ih =>
    intro z
    rw [mgmtAttempts_reset]
    rcases ztlMgmtNodeReset_cases z n (hans k) with ⟨hne, hf⟩ | ⟨h0, hd, hw, -⟩
    · rw [if_pos hne]
      -- the attempt has failed, so the others decide
      have hk : Carried ans (k + 1) ↔ Carried ans k := by
        constructor
        · rintro ⟨j, hj, hok⟩
          refine ⟨j, lt_of_le_of_ne (Nat.le_of_lt_succ hj) fun e => hne ?_, hok⟩
          exact (ztlMgmtNodeReset_ret z n (ans k)).mpr (e ▸ hok)
        · rintro ⟨j, hj, hok⟩
          exact ⟨j, Nat.lt_succ_of_lt hj, hok⟩
      rw [hk]
      rcases ih (ztlMgmtNodeReset z n (ans k)).1 with ⟨hc, hrw, z1, hb, hd⟩ | ⟨hc, hb⟩
      · exact Or.inl ⟨hc, hrw, z1, hf.brushed.trans hb, hd⟩
      · exact Or.inr ⟨hc, hf.brushed.trans hb⟩
    · rw [if_neg (not_not.mpr h0)]
      refine Or.inl ⟨⟨k, Nat.lt_succ_self k, (ztlMgmtNodeReset_ret z n (ans k)).mp h0⟩,
        fun i hi => ?_, z, Brushed.refl z, hd⟩
      have hslot : ((ztlMgmtNodeReset z n (ans k)).1.vnodes n).vzones = (z.vnodes n).vzones := by
        rw [hd.node_self]
      rw [hslot, hd.sect]
      exact ⟨hw i hi, hd.inflight_self i hi⟩

end

end Xztl
