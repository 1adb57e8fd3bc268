import Xztl.Zrocks.Ownership

/-!
# Zrocks — the stripe layout

The units of a node go round its 64 zones, so `used` determines where every zone of the node stands.
Three places move the two write pointers of a zone (provisioning, the last completion, the reset)
and a fourth moves `used`; here a run also has zone resets that fail, after which a node is left
with some of its zones reset.

The allocator does not look at the pointers.  Its invariant is therefore kept at a copy of the state
with other zones (`Ztl.withZones`), and what is said of the zones themselves is `Stripes`: every
node that is not waiting for its reset stands where its counter says.

**Both hold along every run in which no node is reset while it is a queue's current node**
(`stripe_run`).  `stripe_lost` is a run in which one is: the node comes to the free list while its
queue fills it again, another queue takes it from there and thereby takes away the mark that its
reset is still to come, and the reset then fails half way.
-/

namespace Xztl

open Function List

/-- The write pointers of a node's zones have caught up with the in-flight pointers. -/
def Settled (z : Ztl) (n : Nat) : Prop :=
  ∀ i < ztlProZoneNumInnode, (z.vzones (ztlProZoneNumInnode * n + i)).wptr =
    (z.vzones (ztlProZoneNumInnode * n + i)).wptrInflight

/-- Every node that is not to be reset stands where its counter says. -/
structure Stripes (z : Ztl) : Prop where
  geometry : Geometry z
  placed : ∀ n < z.nnodes, (z.vnodes n).status ≠ .reset → Placed z n
  settled : ∀ n < z.nnodes, (z.vnodes n).status ≠ .reset → Settled z n

/-- The state with other zones. -/
def Ztl.withZones (z : Ztl) (vz : Nat → Zone) : Ztl := { z with vzones := vz }

theorem Stripes.fresh (g : GroupSize) (dev : Dev) : Stripes (Ztl.fresh g dev) where
  geometry := (Alloc.fresh g dev).geometry
  placed := fun n hn _ => (Alloc.fresh g dev).placed n hn
  settled := fun _ _ _ _ _ => rfl

/-! ### Calls that leave the zones alone -/

section

variable {z z' : Ztl} {vz : Nat → Zone} {q n : Nat}

theorem ztlProGrpGetNode_withZones (z : Ztl) (vz : Nat → Zone) (q : Nat) :
    ztlProGrpGetNode (z.withZones vz) q =
      ((ztlProGrpGetNode z q).1.withZones vz, (ztlProGrpGetNode z q).2) := by
  rcases ztlProGrpGetNode_cases z q with ⟨n, hq, hl, e⟩ | ⟨z1, h1, h2⟩
  · rw [e]
    exact ztlProGrpGetNode_keep hq hl
  rcases ztlProGrpGetNode_cases (z.withZones vz) q with ⟨n, hq, hl, -⟩ | ⟨z2, h3, h4⟩
  · rcases h1 with ⟨hq', -⟩ | ⟨n', hq', hl', -⟩
    · cases hq'.symm.trans hq
    · cases hq'.symm.trans hq
      exact absurd hl' hl
  obtain rfl : z2 = z1.withZones vz := by
    rcases h1 with ⟨hq, rfl⟩ | ⟨n, hq, -, rfl⟩ <;> rcases h3 with ⟨hq', rfl⟩ | ⟨n', hq', -, rfl⟩
    · rfl
    · cases hq.symm.trans hq'
    · cases hq.symm.trans hq'
    · cases hq.symm.trans hq'
      rfl
  rcases h2 with ⟨hf, e⟩ | ⟨n, hf, e⟩ <;> rcases h4 with ⟨hf', e'⟩ | ⟨n', hf', e'⟩
  · rw [e, e']
  · cases hf.symm.trans hf'
  · cases hf.symm.trans hf'
  · cases hf.symm.trans hf'
    rw [e, e']
    rfl

theorem ztlProGrpGetNode_vzones (z : Ztl) (q : Nat) :
    (ztlProGrpGetNode z q).1.vzones = z.vzones := by
  rcases ztlProGrpGetNode_cases z q with ⟨n, -, -, e⟩ | ⟨z1, h1, h2⟩
  · rw [e]
  · have hz1 : z1.vzones = z.vzones := by rcases h1 with ⟨-, rfl⟩ | ⟨_, -, -, rfl⟩ <;> rfl
    rcases h2 with ⟨-, e⟩ | ⟨n, -, e⟩ <;> rw [e] <;> exact hz1

theorem zrocksTrim_withZones {m : ZrocksMap} {ret : Nat} (e : zrocksTrim z m = .ok (z', ret)) :
    zrocksTrim (z.withZones vz) m = .ok (z'.withZones vz, ret) := by
  rw [zrocksTrim] at e ⊢
  split at e
  next hc =>
    split
    next =>
      rw [ztlMgmtSubmitResetFinish] at e ⊢
      split at e
      next hlen =>
        cases e
        exact if_pos hlen
      next => cases e
    next hc' => exact absurd hc hc'
  next hc =>
    cases e
    split
    next hc' => exact absurd hc' hc
    next => rfl

/-- Getting a node, seen from the copy the allocator's invariant is kept at. -/
theorem Kept.of_withZones {z1 : Ztl} (hk : Kept (z.withZones vz) (z1.withZones vz))
    (hz : z1.vzones = z.vzones) : Kept z z1 :=
  ⟨hk.nnodes, hz, hk.dev, hk.submitHead, hk.node⟩

theorem Stripes.kept (h : Stripes z) (hk : Kept z z') : Stripes z' := by
  have hslot : ∀ m, (z'.vnodes m).vzones = (z.vnodes m).vzones := fun m => by
    rcases hk.node m with e | ⟨-, e⟩ <;> rw [e]
  have hst : ∀ m, (z'.vnodes m).status ≠ .reset → (z.vnodes m).status ≠ .reset := fun m hne => by
    rcases hk.node m with e | ⟨hp, -⟩
    · rwa [e] at hne
    · rw [hp.1]
      simp
  refine ⟨⟨fun m hm i hi => ?_, fun j hj => ?_, fun j hj => ?_⟩, fun m hm hne i hi => ?_,
    fun m hm hne i hi => ?_⟩
  · rw [hslot]
    exact h.geometry.slot m (hk.nnodes ▸ hm) i hi
  · rw [hk.vzones]
    exact h.geometry.zone j (hk.nnodes ▸ hj)
  · rw [hk.vzones]
    exact h.geometry.sect j (hk.nnodes ▸ hj)
  · rw [hk.vzones, (hk.counters m).1]
    exact h.placed m (hk.nnodes ▸ hm) (hst m hne) i hi
  · rw [hk.vzones]
    exact h.settled m (hk.nnodes ▸ hm) (hst m hne) i hi

/-- A change to a node that leaves its zones and its counter alone and does not take it off the
nodes to be reset. -/
theorem Stripes.setNode (h : Stripes z) {nd : Node} (hz : nd.vzones = (z.vnodes n).vzones)
    (hu : nd.used = (z.vnodes n).used)
    (hs : nd.status ≠ .reset → (z.vnodes n).status ≠ .reset) : Stripes (z.setNode n nd) := by
  refine ⟨⟨fun m hm i hi => ?_, h.geometry.zone, h.geometry.sect⟩, fun m hm hne i hi => ?_,
    fun m hm hne => ?_⟩
  all_goals by_cases e : m = n
  · subst e
    rw [Ztl.setNode_self, hz]
    exact h.geometry.slot m hm i hi
  · rw [Ztl.setNode_of_ne _ _ e]
    exact h.geometry.slot m hm i hi
  · subst e
    rw [Ztl.setNode_self] at hne ⊢
    rw [hu]
    exact h.placed m hm (hs hne) i hi
  · rw [Ztl.setNode_of_ne _ _ e] at hne ⊢
    exact h.placed m hm hne i hi
  · subst e
    rw [Ztl.setNode_self] at hne
    exact h.settled m hm (hs hne)
  · rw [Ztl.setNode_of_ne _ _ e] at hne
    exact h.settled m hm hne

/-! ### Writes -/

variable {w : WriteReq} {num b status status' boff' : Nat} {ans ans' : List MediaAns}

theorem Stripes.piece (h : Stripes z) (hn : n < z.nnodes) (hs : (z.vnodes n).status = .used)
    (hfit : (z.vnodes n).used + num ≤ ztlProOptSecNumInnode)
    (e : writePiece w z n num (unitBytes * b) status ans = .ok (z', status', boff', ans')) :
    Stripes z' := by
  have hpn : Placed z n := h.placed n hn (by rw [hs]; simp)
  obtain ⟨-, -, hd⟩ := writePiece_spec h.geometry hn hpn hfit e
  have hst : ∀ m, (z'.vnodes m).status ≠ .reset → (z.vnodes m).status ≠ .reset := fun m hne => by
    by_cases em : m = n
    · rw [em, hs]
      simp
    · rwa [hd.node_of_ne em] at hne
  refine ⟨hd.geometry, fun m hm hne => ?_, fun m hm hne i hi => ?_⟩
  · rw [hd.nnodes] at hm
    exact hd.placed m hm (h.placed m hm (hst m hne))
  · rw [hd.nnodes] at hm
    have hpm := h.placed m hm (hst m hne)
    rw [writePiece_wptr h.geometry hn hpn hfit e hi, h.settled m hm (hst m hne) i hi, hpm i hi,
      hd.placed m hm hpm i hi]
    by_cases em : m = n
    · subst em
      rw [if_pos rfl, hd.node_self]
      have := unitsAt_mono (z.vnodes m).used num i
      simp only [Node.wrote, ztlIoSecMcmd]
      omega
    · rw [if_neg em, hd.node_of_ne em, Nat.add_zero]

/-- The same piece at the copy: its zones move by the same units. -/
theorem PieceDone.withZones (hd : PieceDone w z n num b z') (hg : Geometry (z.withZones vz)) :
    ∃ vz', PieceDone w (z.withZones vz) n num b (z'.withZones vz') := by
  refine ⟨fun j => { vz j with wptrInflight := (vz j).wptrInflight +
    if j / ztlProZoneNumInnode = n then ztlIoSecMcmd *
      (unitsAt ((z.vnodes n).used + num) (j % ztlProZoneNumInnode)
        - unitsAt (z.vnodes n).used (j % ztlProZoneNumInnode)) else 0 }, ?_⟩
  refine ⟨?_, ⟨hd.geometry.slot, ?_, ?_⟩, fun m hm hp i hi => ?_, hd.log, hd.data, hd.frame⟩
  · have hst := hd.state
    generalize z'.vzones = y at hst
    rw [hst]
    rfl
  · intro j hj
    exact hg.zone j (hd.nnodes ▸ hj)
  · intro j hj
    exact hg.sect j (hd.nnodes ▸ hj)
  · have hdiv : (ztlProZoneNumInnode * m + i) / ztlProZoneNumInnode = m := by
      simp only [ztlProZoneNumInnode] at *; omega
    have hmod : (ztlProZoneNumInnode * m + i) % ztlProZoneNumInnode = i := by
      simp only [ztlProZoneNumInnode] at *; omega
    have hpi := hp i hi
    simp only [Ztl.withZones] at hpi ⊢
    rw [hdiv, hmod, hpi]
    by_cases em : m = n
    · subst em
      rw [if_pos rfl, hd.node_self]
      have := unitsAt_mono (z.vnodes m).used num i
      simp only [Node.wrote, ztlIoSecMcmd]
      omega
    · rw [if_neg em, hd.node_of_ne em, Nat.add_zero]

/-- One round of the `reget` loop, at the state and at the copy. -/
theorem Stripes.round {z1 : Ztl} {parts : NodeList → List Nat} (h : Stripes z)
    (ha : Alloc (z.withZones vz) parts) (e : ztlProGrpGetNode z w.provType = (z1, true))
    (hq : z1.qnode w.provType = some n) (hnum : num ≤ (z1.vnodes n).left)
    (ew : writePiece w (setLevel z1 n w.provType) n num (unitBytes * b) status ans
      = .ok (z', status', boff', ans')) :
    num ≤ ztlIoRcNum ∧ boff' = unitBytes * (b + num) ∧ Stripes z' ∧ ∃ vz' parts',
      PieceDone w (setLevel (z1.withZones vz) n w.provType) n num b (z'.withZones vz') ∧
        Alloc (z'.withZones vz') parts' := by
  have e' : ztlProGrpGetNode (z.withZones vz) w.provType = (z1.withZones vz, true) := by
    rw [ztlProGrpGetNode_withZones, e]
  obtain ⟨parts1, ha1, hk, -, hopen⟩ := ha.getNode e'
  obtain ⟨n', hq', ho, -⟩ := hopen rfl
  obtain rfl : n' = n := Option.some.inj (hq'.symm.trans hq)
  have hn := ha1.qnode_mem hq'
  have hlt : n' < z1.nnodes := ha1.lt hn
  have hz1 : z1.vzones = z.vzones := by
    have := ztlProGrpGetNode_vzones z w.provType
    rwa [e] at this
  have hs1 : Stripes (setLevel z1 n' w.provType) :=
    (h.kept (hk.of_withZones hz1)).setNode rfl rfl fun hne => hne
  have hb : (z1.vnodes n').used + (z1.vnodes n').left = _ := ha1.balance n' hlt
  have hused : ((setLevel z1 n' w.provType).vnodes n').status = .used := by
    rw [setLevel, Ztl.setNode_self]
    exact ho.1
  have hfit : ((setLevel z1 n' w.provType).vnodes n').used + num ≤ ztlProOptSecNumInnode := by
    rw [setLevel_used]
    omega
  obtain ⟨hrc, hboff, hd⟩ := writePiece_spec hs1.geometry hlt
    (hs1.placed n' hlt (by rw [hused]; simp)) hfit ew
  obtain ⟨vz', hd'⟩ := hd.withZones (ha1.setLevel hn w.provType).geometry
  obtain ⟨parts', -, -, -, -, ha'⟩ := ha.step e' hq' hnum hd'
  exact ⟨hrc, hboff, hs1.piece hlt hused hfit ew, vz', parts', hd', ha'⟩

/-- **The loop** keeps the stripes, and at the copy it is a run of the allocator. -/
theorem Rounds.stripes {boff left : Nat} {ps : List Piece} {ok : Bool}
    (hr : Rounds w z boff left ps ok z') :
    ∀ {vz : Nat → Zone} {parts : NodeList → List Nat} {b : Nat}, boff = unitBytes * b → Stripes z →
      Alloc (z.withZones vz) parts →
      Stripes z' ∧ ∃ vz' parts', Pieces w (z.withZones vz) b left ps ok (z'.withZones vz') ∧
        Alloc (z'.withZones vz') parts' ∧ ∀ p ∈ ps, p.num ≤ ztlIoRcNum := by
  have hcopy : ∀ {z z1 : Ztl} {r : Bool} (vz : Nat → Zone),
      ztlProGrpGetNode z w.provType = (z1, r) →
      ztlProGrpGetNode (z.withZones vz) w.provType = (z1.withZones vz, r) := fun vz e => by
    rw [ztlProGrpGetNode_withZones, e]
  induction hr with
  | @fail z z' boff left e =>
    rintro vz parts b rfl h ha
    obtain ⟨parts', ha', hk, -⟩ := ha.getNode (hcopy vz e)
    have hz := ztlProGrpGetNode_vzones z w.provType
    rw [e] at hz
    exact ⟨h.kept (hk.of_withZones hz), vz, parts', .fail (hcopy vz e), ha', by simp⟩
  | last e hq hle ew =>
    rintro vz parts b rfl h ha
    obtain ⟨hrc, -, hs, vz', parts', hd, ha'⟩ := h.round ha e hq hle ew
    have hp := Pieces.last (hcopy vz e) hq hle hd
    exact ⟨hs, vz', parts', hp, ha', by simpa using hrc⟩
  | more e hq hlt ew _ ih =>
    rintro vz parts b rfl h ha
    obtain ⟨hrc, hboff, hs, vz', parts', hd, ha'⟩ := h.round ha e hq (le_refl _) ew
    obtain ⟨hs', vz'', parts'', hp, ha'', hps⟩ := ih hboff hs ha'
    have hp' := Pieces.more (hcopy vz e) hq hlt hd hp
    exact ⟨hs', vz'', parts'', hp', ha'', forall_mem_cons.mpr ⟨hrc, hps⟩⟩

/-! ### The invariant of a run -/

/-- The stripes, and the allocator's and the counters' invariant at a copy with other zones. -/
structure Striped (z : Ztl) (live : List ZrocksMap) : Prop where
  stripes : Stripes z
  sound : ∃ vz, Sound (z.withZones vz) live

variable {live : List ZrocksMap}

theorem Striped.fresh (g : GroupSize) (dev : Dev) : Striped (Ztl.fresh g dev) [] :=
  ⟨Stripes.fresh g dev, (Ztl.fresh g dev).vzones, Sound.fresh g dev⟩

theorem Striped.write {c : WriteCall} {ret : Nat} {maps : List ZrocksMap} (h : Striped z live)
    (e : zrocksWrite z c ans = .ok (z', ret, maps)) : Striped z' (live ++ maps) := by
  rcases zrocksWrite_cases e with ⟨-, rfl, rfl⟩ | ⟨-, u, eu, rfl⟩
  · rw [append_nil]
    exact h
  · obtain ⟨vz, hs⟩ := h.sound
    obtain ⟨parts, ha⟩ := hs.alloc
    obtain ⟨ps, ok, hr, hu⟩ := reget_rounds _ eu
    obtain ⟨hst, vz', parts', hp, ha', hrc⟩ := hr.stripes (b := 0) rfl h.stripes ha
    rw [nil_append] at hu
    rw [hu]
    exact ⟨hst, vz', hs.pieces ha hp ha' hrc c.padding⟩

theorem Striped.trim {m : ZrocksMap} {ret : Nat} (h : Striped z live) (hm : m ∈ live)
    (e : zrocksTrim z m = .ok (z', ret)) : Striped z' (live.erase m) := by
  obtain ⟨vz, hs⟩ := h.sound
  refine ⟨?_, vz, hs.trim hm (zrocksTrim_withZones e)⟩
  rw [zrocksTrim] at e
  split at e
  next =>
    rw [ztlMgmtSubmitResetFinish] at e
    split at e
    next =>
      cases e
      have h' : Stripes (z.setNode m.nodeId { z.vnodes m.nodeId with
          nrValid := ((z.vnodes m.nodeId).nrValid + 2 ^ 64 - m.num.val) % 2 ^ 64
          status := .reset }) := h.stripes.setNode rfl rfl fun hne => absurd rfl hne
      exact ⟨h'.geometry.congr rfl rfl rfl, h'.placed, h'.settled⟩
    next => cases e
  next =>
    cases e
    exact h.stripes.setNode rfl rfl fun hne => hne

/-! ### Resets -/

/-- A node that has left the management queue and is nobody's. -/
structure Waiting (z : Ztl) (n : Nat) : Prop where
  lt : n < z.nnodes
  status : (z.vnodes n).status = .reset
  out : n ∉ z.submitHead.map Prod.fst
  idle : ∀ q, z.qnode q ≠ some n

theorem Waiting.failed (h : Waiting z n) (hf : ResetFailed z n z') : Waiting z' n := by
  rw [hf.state]
  refine ⟨h.lt, ?_, h.out, h.idle⟩
  show (update z.vnodes n _ n).status = .reset
  rw [update_self]
  exact h.status

/-- An attempt that fails changes zones of a node about which nothing is said. -/
theorem Striped.failed (h : Striped z live) (hw : Waiting z n) (hf : ResetFailed z n z') :
    Striped z' live := by
  obtain ⟨vz, hs⟩ := h.sound
  obtain ⟨parts, ha⟩ := hs.alloc
  have hnode : ∀ m, m ≠ n → z'.vnodes m = z.vnodes m := fun m hm => by
    rw [hf.state]
    exact update_of_ne hm _ _
  have hself : z'.vnodes n =
      { z.vnodes n with nrResetErr := (z.vnodes n).nrResetErr + 1 } := by
    rw [hf.state]
    exact update_self _ _ _
  have hnn : z'.nnodes = z.nnodes := by rw [hf.state]
  have hslot : ∀ m, (z'.vnodes m).vzones = (z.vnodes m).vzones := fun m => by
    by_cases e : m = n
    · rw [e, hself]
    · rw [hnode m e]
  have hzone : ∀ m, m ≠ n → ∀ i < ztlProZoneNumInnode,
      z'.vzones (ztlProZoneNumInnode * m + i) = z.vzones (ztlProZoneNumInnode * m + i) := by
    intro m hm i hi
    refine hf.zones.other _ fun hmem => ?_
    obtain ⟨k, hk, e⟩ := mem_map.mp hmem
    exact h.stripes.geometry.slot_ne hw.lt hm hi k (mem_range.mp hk) e
  have hne : ∀ m, (z'.vnodes m).status ≠ .reset → m ≠ n := fun m hst e => by
    rw [e, hself] at hst
    exact hst hw.status
  refine ⟨⟨⟨fun m hm i hi => ?_, fun j hj => ?_, fun j hj => ?_⟩, fun m hm hst i hi => ?_,
    fun m hm hst i hi => ?_⟩, vz, ?_⟩
  · rw [hslot]
    exact h.stripes.geometry.slot m (hnn ▸ hm) i hi
  · rw [hf.zones.zone]
    exact h.stripes.geometry.zone j (hnn ▸ hj)
  · rw [hf.zones.sect]
    exact h.stripes.geometry.sect j (hnn ▸ hj)
  · have hmn := hne m hst
    rw [hnode m hmn] at hst ⊢
    rw [hzone m hmn i hi]
    exact h.stripes.placed m (hnn ▸ hm) hst i hi
  · have hmn := hne m hst
    rw [hnode m hmn] at hst
    rw [hzone m hmn i hi]
    exact h.stripes.settled m (hnn ▸ hm) hst i hi
  · -- at the copy only the counter of failed resets has changed
    have hcopy : z'.withZones vz = { (z.withZones vz).setNode n { z.vnodes n with
        nrResetErr := (z.vnodes n).nrResetErr + 1 } with dev := z'.dev } := by
      have hst := hf.state
      generalize z'.vzones = y at hst
      rw [hst]
      rfl
    have ha' : Alloc ((z.withZones vz).setNode n { z.vnodes n with
        nrResetErr := (z.vnodes n).nrResetErr + 1 }) parts :=
      ha.setNode rfl rfl rfl (ha.free n) (ha.used n) (ha.full n)
    have hacc : Accounted ((z.withZones vz).setNode n { z.vnodes n with
        nrResetErr := (z.vnodes n).nrResetErr + 1 }) (unitsOn live) :=
      hs.acc.setNode rfl rfl rfl
    rw [hcopy]
    exact ⟨⟨parts, { ha' with geometry := ha'.geometry.congr rfl rfl rfl }⟩,
      { hacc with }, hs.lt⟩

/-- A reset that is carried out puts the node back to the start. -/
theorem Striped.reset (h : Striped z live) (hw : Waiting z n) (hd : ResetDone z n z')
    (hself : ∀ i < ztlProZoneNumInnode, (z'.vzones ((z.vnodes n).vzones i)).wptr
      = (z.vzones ((z.vnodes n).vzones i)).sect)
    (hother : ∀ j, (∀ i < ztlProZoneNumInnode, (z.vnodes n).vzones i ≠ j) →
      z'.vzones j = z.vzones j) : Striped z' live := by
  obtain ⟨vz, hs⟩ := h.sound
  have hg := h.stripes.geometry
  have hslot := hg.slot n hw.lt
  have hst : ∀ m, m ≠ n → (z'.vnodes m).status ≠ .reset → (z.vnodes m).status ≠ .reset :=
    fun m hm hne => by rwa [hd.node_of_ne m hm] at hne
  refine ⟨⟨hd.geometry hg, fun m hm hne => ?_, fun m hm hne i hi => ?_⟩, ?_⟩
  · rw [hd.nnodes] at hm
    exact hd.placed hg hw.lt fun e => h.stripes.placed m hm (hst m e hne)
  · rw [hd.nnodes] at hm
    by_cases e : m = n
    · subst e
      have hi1 := hd.inflight_self i hi
      have hi2 := hself i hi
      rw [hslot i hi] at hi1 hi2
      rw [hi1, hi2]
    · rw [hother _ (hg.slot_ne hw.lt e hi)]
      exact h.stripes.settled m hm (hst m e hne) i hi
  · -- the same reset at the copy
    refine ⟨fun j => if j / ztlProZoneNumInnode = n then
      { vz j with wptrInflight := (vz j).sect } else vz j, ?_⟩
    refine hs.reset hw.lt hw.status hw.out hw.idle ⟨hd.nnodes, hd.node_self, hd.node_of_ne,
      fun j => ?_, fun j => ?_, fun i hi => ?_, fun j hj => ?_, hd.lists, hd.nfree, hd.qnode,
      hd.submitHead⟩
    · show (if _ then _ else _ : Zone).zone = (vz j).zone
      split <;> rfl
    · show (if _ then _ else _ : Zone).sect = (vz j).sect
      split <;> rfl
    · show (if (z.vnodes n).vzones i / ztlProZoneNumInnode = n then _ else _ : Zone).wptrInflight
        = (vz ((z.vnodes n).vzones i)).sect
      have hdiv : (z.vnodes n).vzones i / ztlProZoneNumInnode = n := by
        rw [hslot i hi]
        simp only [ztlProZoneNumInnode] at *
        omega
      rw [if_pos hdiv]
      rfl
    · show (if j / ztlProZoneNumInnode = n then _ else _ : Zone).wptrInflight = (vz j).wptrInflight
      rw [if_neg]
      intro e
      refine hj (j % ztlProZoneNumInnode) (Nat.mod_lt _ (by decide)) ?_
      show (z.vnodes n).vzones _ = j
      rw [hslot _ (Nat.mod_lt _ (by decide))]
      simp only [ztlProZoneNumInnode] at *
      omega

/-- **The attempts at a reset**, whatever the device answers. -/
theorem Striped.attempts {ans : Nat → Nat → ZoneAns}
    (hans : ∀ k i, (ans k i).ret = 0 → (ans k i).status = 0) (k : Nat) :
    ∀ {z : Ztl}, Striped z live → Waiting z n →
      Striped (mgmtAttempts n .resetZone ans k z) live := by
  induction k with
  | zero =>
    intro z h _
    exact h
  | succ k ih =>
    intro z h hw
    rw [mgmtAttempts_reset]
    rcases ztlMgmtNodeReset_cases z n (hans k) with ⟨hne, hf⟩ | ⟨h0, hd, hself, hother⟩
    · rw [if_pos hne]
      exact ih (h.failed hw hf) (hw.failed hf)
    · rw [if_neg (not_not.mpr h0)]
      exact h.reset hw hd hself hother

/-- **A round of the management thread** at a node that is no queue's current node. -/
theorem Striped.mgmt {ans : Nat → Nat → ZoneAns}
    (hans : ∀ k i, (ans k i).ret = 0 → (ans k i).status = 0) (h : Striped z live)
    (hq : ∀ e, z.submitHead.head? = some e → ∀ q, z.qnode q ≠ some e.1) :
    Striped (ztlMgmtThdProcess z ans) live := by
  cases hs : z.submitHead with
  | nil =>
    simp only [ztlMgmtThdProcess, hs]
    exact h
  | cons e rest =>
    obtain ⟨vz, hsound⟩ := h.sound
    obtain ⟨hop, hlt, hst⟩ := hsound.acc.queued e (by
      show e ∈ z.submitHead
      rw [hs]
      exact mem_cons_self)
    have honce : (z.submitHead.map Prod.fst).Nodup := hsound.acc.once
    rw [hs, map_cons, nodup_cons] at honce
    obtain ⟨n, op⟩ := e
    cases hop
    simp only [ztlMgmtThdProcess, hs]
    refine Striped.attempts hans _ ⟨⟨h.stripes.geometry.congr rfl rfl rfl, h.stripes.placed,
      h.stripes.settled⟩, vz, hsound.dequeue hs⟩ ?_
    exact ⟨hlt, hst, honce.1, hq (n, .resetZone) (by rw [hs]; rfl)⟩

end

/-! ### The layout over runs -/

/-- A write, the trim of a piece the caller holds, or a round of the management thread, with the
return value and the completion status of every zone command. -/
inductive StripeOp where
  | write (c : WriteCall) (ans : List MediaAns)
  | trim (m : ZrocksMap)
  | mgmt (ans : Nat → Nat → Nat × Nat)

/-- The zone commands of a round, through the media layer. -/
def zoneAnswers (ans : Nat → Nat → Nat × Nat) (k i : Nat) : ZoneAns :=
  zndMediaZoneManage (ans k i).1 (ans k i).2

/-- The status is read only when the command has failed. -/
theorem zoneAnswers_status (ans : Nat → Nat → Nat × Nat) (k i : Nat)
    (h0 : (zoneAnswers ans k i).ret = 0) : (zoneAnswers ans k i).status = 0 := by
  simp only [zoneAnswers, zndMediaZoneManage] at h0 ⊢
  simp [h0]

/-- One operation. -/
def stripeStep (s : ZState) : StripeOp → Option ZState
  | .write c ans => zstep s (.write c ans)
  | .trim m => zstep s (.trim m)
  | .mgmt ans => some ⟨ztlMgmtThdProcess s.z (zoneAnswers ans), s.live⟩

/-- The node whose reset comes next is no queue's current node. -/
def StripeOp.Idle (s : ZState) : StripeOp → Prop
  | .mgmt _ => ResetIdle s .mgmt
  | _ => True

/-- The layout of node `n`: its two counters fill the node, and both pointers of the zone at position
`i` stand behind the units `u < used` with `u % 64 = i`, within the zone. -/
structure StripeLayout (z : Ztl) (n : Nat) : Prop where
  total : (z.vnodes n).used + (z.vnodes n).left = ztlProOptSecNumInnode
  wptr : ∀ i < ztlProZoneNumInnode, (z.vzones ((z.vnodes n).vzones i)).wptr =
    (z.vzones ((z.vnodes n).vzones i)).sect + ztlIoSecMcmd *
      ((List.range (z.vnodes n).used).filter fun u => u % ztlProZoneNumInnode = i).length
  inflight : ∀ i < ztlProZoneNumInnode, (z.vzones ((z.vnodes n).vzones i)).wptrInflight =
    (z.vzones ((z.vnodes n).vzones i)).wptr
  within : ∀ i < ztlProZoneNumInnode, (z.vzones ((z.vnodes n).vzones i)).wptr ≤
    (z.vzones ((z.vnodes n).vzones i)).sect + ztlProSecNumInzone

theorem Striped.step {s s' : ZState} {a : StripeOp} (h : Striped s.z s.live)
    (hg : StripeOp.Idle s a) (e : stripeStep s a = some s') : Striped s'.z s'.live := by
  cases a with
  | write c ans =>
    rw [stripeStep, zstep] at e
    split at e
    next z ret maps hw =>
      cases e
      exact h.write hw
    next => cases e
  | trim m =>
    rw [stripeStep, zstep] at e
    split at e
    next hm =>
      split at e
      next z ret ht =>
        cases e
        exact h.trim hm ht
      next => cases e
    next => cases e
  | mgmt ans =>
    cases e
    exact h.mgmt (zoneAnswers_status ans) hg

/-- The invariant gives the layout. -/
theorem Striped.layout {z : Ztl} {live : List ZrocksMap} (h : Striped z live) {n : Nat}
    (hn : n < z.nnodes) (hs : (z.vnodes n).status ≠ .reset) : StripeLayout z n := by
  obtain ⟨vz, hsound⟩ := h.sound
  obtain ⟨parts, ha⟩ := hsound.alloc
  have hb : (z.vnodes n).used + (z.vnodes n).left = ztlProOptSecNumInnode := ha.balance n hn
  have hg := h.stripes.geometry
  have hpos : ∀ i < ztlProZoneNumInnode,
      (z.vzones ((z.vnodes n).vzones i)).wptrInflight =
        (z.vzones ((z.vnodes n).vzones i)).sect + ztlIoSecMcmd * unitsAt (z.vnodes n).used i ∧
      (z.vzones ((z.vnodes n).vzones i)).wptr =
        (z.vzones ((z.vnodes n).vzones i)).wptrInflight := by
    intro i hi
    have hj : ztlProZoneNumInnode * n + i < ztlProZoneNumInnode * z.nnodes := by
      simp only [ztlProZoneNumInnode] at *
      omega
    rw [hg.slot n hn i hi, hg.sect _ hj]
    exact ⟨h.stripes.placed n hn hs i hi, h.stripes.settled n hn hs i hi⟩
  have hcount : ∀ i < ztlProZoneNumInnode, ((List.range (z.vnodes n).used).filter
      fun u => u % ztlProZoneNumInnode = i).length = unitsAt (z.vnodes n).used i := fun i hi => by
    rw [filter_mod_range hi, length_map, length_range]
  refine ⟨hb, fun i hi => ?_, fun i hi => (hpos i hi).2.symm, fun i hi => ?_⟩
  · rw [(hpos i hi).2, (hpos i hi).1, hcount i hi]
  · rw [(hpos i hi).2, (hpos i hi).1]
    rw [ztlProOptSecNumInnode_eq] at hb
    simp only [unitsAt, ztlIoSecMcmd, ztlProZoneNumInnode, ztlProSecNumInzone_eq] at *
    omega

/-- An operation whose zone commands, if it has any, succeed. -/
def ZOp.striped : ZOp → StripeOp
  | .write c ans => .write c ans
  | .trim m => .trim m
  | .mgmt => .mgmt fun _ _ => (0, 0)

theorem stripeStep_striped (s : ZState) (a : ZOp) : stripeStep s a.striped = zstep s a := by
  cases a with
  | write c ans => rfl
  | trim m => rfl
  | mgmt => rfl

/-- An attempt in which the first zone is reset and the second command fails. -/
theorem ztlMgmtNodeReset_half (z : Ztl) (n : Nat) {ans : Nat → ZoneAns} (h₀ : ans 0 = ⟨0, 0⟩)
    (h1 : (ans 1).ret = 1) :
    ∃ z', ztlMgmtNodeReset z n ans = (z', 1) ∧ z'.nnodes = z.nnodes ∧
      z'.vnodes n = { z.vnodes n with nrResetErr := (z.vnodes n).nrResetErr + 1 } ∧
      z'.vzones ((z.vnodes n).vzones 0) = { z.vzones ((z.vnodes n).vzones 0) with
        wptr := (z.vzones ((z.vnodes n).vzones 0)).sect
        wptrInflight := (z.vzones ((z.vnodes n).vzones 0)).sect } := by
  have hrange : List.range ztlProZoneNumInnode = 0 :: 1 :: (List.range 62).map (· + 2) := by decide
  obtain ⟨z1, hz1⟩ : ∃ z1, z1 = (ztlMgmtNodeResetZn z ((z.vnodes n).vzones 0) ⟨0, 0⟩).1 := ⟨_, rfl⟩
  have hr : resetZones n ans (List.range ztlProZoneNumInnode) z = (z1, 1) := by
    have h2 : ∀ y i, ztlMgmtNodeResetZn y i (ans 1) = (y, 1) := fun y i => by
      simp [ztlMgmtNodeResetZn, h1]
    rw [hrange, resetZones, h₀, hz1]
    simp only [show ∀ i, (ztlMgmtNodeResetZn z i ⟨0, 0⟩).2 = 0 from fun _ => rfl, ne_eq,
      not_true_eq_false, if_false]
    rw [resetZones]
    simp only [h2, ne_eq, one_ne_zero, not_false_eq_true, if_true]
  refine ⟨z1.setNode n { z1.vnodes n with nrResetErr := (z1.vnodes n).nrResetErr + 1 }, ?_, ?_, ?_,
    ?_⟩
  · rw [ztlMgmtNodeReset]
    simp only [hr, ne_eq, one_ne_zero, not_false_eq_true, if_true]
  · rw [hz1]
    rfl
  · rw [Ztl.setNode_self, hz1]
    rfl
  · rw [Ztl.setNode_vzones, hz1]
    exact update_self _ _ _

/-- **The stripe layout.**  In every run in which no node is reset while it is a queue's current
node, whatever zone commands fail, every node that is not to be reset has the layout. -/
theorem stripe_run (g : GroupSize) (dev : Dev) {as : List StripeOp} {s : ZState}
    (h : Runs stripeStep StripeOp.Idle (ZState.fresh g dev) as s) :
    ∀ n < s.z.nnodes, (s.z.vnodes n).status ≠ .reset → StripeLayout s.z n := by
  intro n hn hs
  have hinv : Striped s.z s.live := Runs.invariant (I := fun s : ZState => Striped s.z s.live)
    (fun _ _ _ hs hg e => hs.step hg e) h (Striped.fresh g dev)
  exact hinv.layout hn hs

/-- A node after one write of 32 MiB. -/
theorem stripe_run_written : ∃ as s, Runs stripeStep StripeOp.Idle
    (ZState.fresh oneNode .blank) as s ∧ (s.z.vnodes 0).used = 1024 ∧
      StripeLayout s.z 0 := by
  obtain ⟨as, s, hr, hf⟩ := exists_filling .blank 1 (by decide)
  have hrun := hr.map (H := StripeOp.Idle) ZOp.striped
    (fun s a s' e => (stripeStep_striped s a).trans e) fun s a hg => by
      cases a with
      | write c ans => trivial
      | trim m => trivial
      | mgmt => exact hg
  have hlt : 0 < s.z.nnodes := by rw [hf.one]; decide
  have hst : (s.z.vnodes 0).status ≠ .reset := fun h => by
    have h₀ := hf.sound.acc.reset 0 hlt h
    have h₁ := hf.sound.acc.valid 0 hlt
    rw [h₀, hf.live] at h₁
    exact absurd h₁ (by decide)
  exact ⟨_, s, hrun, hf.used, stripe_run oneNode _ hrun 0 hlt hst⟩

/-- **The layout is lost** when a node is taken from the free list while its reset is queued, and the
reset fails at its second zone. -/
theorem stripe_lost : ∃ as ans s, Runs stripeStep (fun _ _ => True)
    (ZState.fresh twoNodes .blank) (as ++ [.mgmt ans]) s ∧
      (s.z.vnodes 0).status ≠ .reset ∧ ¬ StripeLayout s.z 0 := by
  obtain ⟨as, s, hr, hst⟩ := exists_stolen .blank
  have hrun := hr.map (H := fun _ _ => True) ZOp.striped
    (fun s a s' e => (stripeStep_striped s a).trans e) fun _ _ _ => trivial
  obtain ⟨ans, hans⟩ : ∃ ans : Nat → Nat → Nat × Nat, ans = fun _ i => (i, 0) := ⟨_, rfl⟩
  have h₀ : ∀ k, zoneAnswers ans k 0 = ⟨0, 0⟩ := fun k => by rw [hans]; rfl
  have h₁ : ∀ k, (zoneAnswers ans k 1).ret = 1 := fun k => by rw [hans]; rfl
  obtain ⟨z₀, hz₀⟩ : ∃ z₀ : Ztl, z₀ = { s.z with submitHead := [] } := ⟨_, rfl⟩
  obtain ⟨z₁, e₁, -, hn₁, hv₁⟩ := ztlMgmtNodeReset_half z₀ 0 (h₀ 2) (h₁ 2)
  obtain ⟨z₂, e₂, -, hn₂, hv₂⟩ := ztlMgmtNodeReset_half z₁ 0 (h₀ 1) (h₁ 1)
  obtain ⟨z₃, e₃, -, hn₃, hv₃⟩ := ztlMgmtNodeReset_half z₂ 0 (h₀ 0) (h₁ 0)
  have hproc : ztlMgmtThdProcess s.z (zoneAnswers ans) = z₃ := by
    simp only [ztlMgmtThdProcess, hst.queue, mgmtMaxRetry, mgmtAttempts, ← hz₀, e₁, e₂, e₃, ne_eq,
      one_ne_zero, not_false_eq_true, if_true]
  refine ⟨_, ans, ⟨z₃, s.live⟩, hrun.append (Runs.one trivial (by rw [stripeStep, hproc])), ?_, ?_⟩
  · rw [hn₃, hn₂, hn₁, hz₀]
    exact fun h => absurd (hst.status.symm.trans h) (by decide)
  · intro h
    have hslot : (z₃.vnodes 0).vzones 0 = (z₂.vnodes 0).vzones 0 := by rw [hn₃]
    have hused : (z₃.vnodes 0).used = ztlProOptSecNumInnode := by
      rw [hn₃, hn₂, hn₁, hz₀]
      exact hst.used
    have hw := h.wptr 0 (by decide)
    rw [hslot, hv₃, hused, filter_mod_range (by decide), length_map, length_range] at hw
    have hunits : unitsAt ztlProOptSecNumInnode 0 = 3072 := by decide
    have hsect : ztlIoSecMcmd = 8 := rfl
    rw [hunits, hsect] at hw
    dsimp only at hw
    omega

end Xztl
