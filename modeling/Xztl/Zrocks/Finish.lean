import Xztl.Support.Fence
import Xztl.Ztl.Attempts
import Xztl.Ztl.Sequential
import Xztl.Zrocks.Cycle
import Xztl.Zrocks.Stripe

/-!
# Zrocks — finished nodes (`zrocks_node_finish`, `ztl_mgmt_node_finish`)

A finish closes the zones of a node on the device and moves their write pointers to the end.  It
does not touch the node's counters, the queues' current nodes or the lists, and these decide where
the next write goes.

`Issues` gives the media commands of a write, round by round, whether or not the write returns.
`Shut z n` says that no round will take units of node `n`: it has none left, or it is no level's
current node and out of the reach of the free list (`Held`: also when a reset of a current node has
spoilt the lists).  Every operation but a reset of the node keeps it (`Shut.step`).

**`finish_iff`**: after a finish no write goes to the node until it is reset exactly when the node
had no room left, or was neither a level's current node nor free.
-/

namespace Xztl

open Function List Except
open TailQueue (Held)

/-! ### Zones keep their place -/

section

variable {r : Req} {vz : Nat → Zone}

theorem sameZones_ztlProFree (vz : Nat → Zone) (ctx : List ProvAddr) :
    SameZones vz (ztlProFree vz ctx) := fun j =>
  ⟨(ztlProFree_fields ctx vz j).1, (ztlProFree_fields ctx vz j).2.1⟩

theorem sameZones_poke (r : Req) (s : Sub) (a : MediaAns) :
    SameZones s.vzones (ztlIoPokeCtx r s a).vzones := by
  have hdone : ∀ (s : Sub) k, SameZones s.vzones (callbackDone r s k).vzones := fun s k => by
    rw [callbackDone]
    split
    · exact sameZones_ztlProFree _ _
    · exact SameZones.refl _
  cases hc : a.cpl with
  | none =>
    simp only [ztlIoPokeCtx, hc]
    exact SameZones.refl _
  | some c =>
    simp only [ztlIoPokeCtx, hc]
    split
    · rw [ztlIoWriteCallbackMcmd]
      dsimp only
      split
      · split
        · split <;> exact SameZones.refl _
        · exact hdone _ c.cmd
      · exact hdone _ c.cmd
    · exact SameZones.refl _

theorem sameZones_submitZone (r : Req) (s : Sub) (znI : Nat) (a : MediaAns) :
    SameZones s.vzones (submitZone r s znI a).1.vzones := by
  rw [submitZone]
  dsimp only
  split
  · exact SameZones.refl _
  · split
    · exact sameZones_poke r s a
    · split
      · split
        · exact sameZones_poke r _ a
        · exact SameZones.refl _
      · exact sameZones_poke r _ a

/-- The two loops of a piece move pointers only. -/
theorem submitPiece_zones {dev : Dev} {status : Nat} {ans ans' : List MediaAns} {s : Sub}
    (e : submitPiece r dev vz status ans = .ok (s, ans')) : SameZones vz s.vzones := by
  have hsub : ∀ (ans : List MediaAns) (znI : Nat) (s s' : Sub) (ans' : List MediaAns),
      submitLoop r ans znI s = .ok (s', ans') → SameZones s.vzones s'.vzones := by
    intro ans
    induction ans with
    | nil =>
      intro znI s s' ans' e
      rw [submitLoop] at e
      split at e
      · cases e
        exact SameZones.refl _
      · cases e
    | cons a ans ih =>
      intro znI s s' ans' e
      rw [submitLoop] at e
      split at e
      · exact (sameZones_submitZone r s znI a).trans (ih _ _ _ _ e)
      · split at e
        · exact (sameZones_submitZone r s 0 a).trans (ih _ _ _ _ e)
        · cases e
          exact SameZones.refl _
  have hpoll : ∀ (ans : List MediaAns) (s s' : Sub) (ans' : List MediaAns),
      pollLoop r ans s = .ok (s', ans') → SameZones s.vzones s'.vzones := by
    intro ans
    induction ans with
    | nil =>
      intro s s' ans' e
      rw [pollLoop] at e
      split at e
      · cases e
      · cases e
        exact SameZones.refl _
    | cons a ans ih =>
      intro s s' ans' e
      rw [pollLoop] at e
      split at e
      · exact (sameZones_poke r s a).trans (ih _ _ _ e)
      · cases e
        exact SameZones.refl _
  rw [submitPiece] at e
  obtain ⟨⟨s1, ans1⟩, e1, e2⟩ := bind_eq_ok.mp e
  exact (hsub _ _ _ _ _ e1).trans (hpoll _ _ _ _ e2)

end

section

variable {w : WriteReq} {z z' : Ztl} {n num boff boff' status status' : Nat}
  {ans ans' : List MediaAns}

/-- **A piece**, whatever the state: the counters of its node, pointers of zones, and the device. -/
theorem writePiece_frame
    (e : writePiece w z n num boff status ans = .ok (z', status', boff', ans')) :
    z' = { z with
      vnodes := update z.vnodes n ((z.vnodes n).wrote num)
      vzones := z'.vzones
      dev := z'.dev } := by
  rw [writePiece] at e
  split at e
  · cases e
  · obtain ⟨⟨s, ans1⟩, -, e⟩ := bind_eq_ok.mp e
    cases e
    rfl

theorem writePiece_zones (hg : Geometry z) (hn : n < z.nnodes)
    (e : writePiece w z n num boff status ans = .ok (z', status', boff', ans')) :
    SameZones z.vzones z'.vzones := by
  rw [writePiece] at e
  split at e
  · cases e
  · obtain ⟨⟨s, ans1⟩, es, e⟩ := bind_eq_ok.mp e
    cases e
    refine SameZones.trans (fun j => ?_) (submitPiece_zones es)
    rw [ztlProGrpGet_state (hg.slotsInj hn)]
    obtain ⟨h1, h2, -⟩ := sharedOut_fields (z.vnodes n) num (z.vnodes n).used z.vzones
      (min num ztlProZoneNumInnode) j
    exact ⟨h1, h2⟩

theorem pieceReq_mcmd (w : WriteReq) (hg : Geometry z) (hn : n < z.nnodes) (num boff : Nat) :
    (pieceReq w z n num boff).mcmd
      = (List.range num).map (mcmdAt (pieceReq w z n num boff).addr boff) :=
  (pieceReq_pop (w := w) hg hn).mcmd

/-- The commands of a piece go to the zones of its node. -/
theorem pieceReq_zone (hg : Geometry z) (hn : n < z.nnodes) {m : Mcmd}
    (hm : m ∈ (pieceReq w z n num boff).mcmd) :
    num ≠ 0 ∧ ∃ i < ztlProZoneNumInnode, m.zone = ztlProZoneNumInnode * n + i + metadataZoneNum := by
  rw [pieceReq_mcmd w hg hn] at hm
  obtain ⟨k, hk, rfl⟩ := mem_map.mp hm
  rw [mem_range] at hk
  have hk64 : k % ztlProZoneNumInnode < min num ztlProZoneNumInnode := by
    simp only [ztlProZoneNumInnode]
    omega
  refine ⟨by omega, _, zonePos_lt (z.vnodes n).used (k % ztlProZoneNumInnode), ?_⟩
  show ((pieceReq w z n num boff).addr (k % ztlProZoneNumInnode)).zone = _
  rw [pieceReq_addr hg hn hk64, provAddr_zone hg hn]

end

/-! ### The commands of a write -/

/-- The media commands the `reget` loop issues from its first round on.  The rounds are those of
`Rounds`; whether the loop comes to an end plays no part. -/
inductive Issues (w : WriteReq) : Ztl → (boff left : Nat) → Mcmd → Prop where
  | now {z z₁ : Ztl} {boff left n : Nat} {m : Mcmd}
      (e : ztlProGrpGetNode z w.provType = (z₁, true)) (hq : z₁.qnode w.provType = some n)
      (hm : m ∈ (pieceReq w (setLevel z₁ n w.provType) n (min (z₁.vnodes n).left left) boff).mcmd) :
      Issues w z boff left m
  | later {z z₁ z₂ : Ztl} {boff boff' left n status status' : Nat} {ans ans' : List MediaAns}
      {m : Mcmd} (e : ztlProGrpGetNode z w.provType = (z₁, true))
      (hq : z₁.qnode w.provType = some n) (hlt : (z₁.vnodes n).left < left)
      (ew : writePiece w (setLevel z₁ n w.provType) n (z₁.vnodes n).left boff status ans
        = .ok (z₂, status', boff', ans'))
      (t : Issues w z₂ boff' (left - (z₁.vnodes n).left) m) : Issues w z boff left m

/-- The media commands of a call of `zrocks_write`. -/
def WriteCall.Issues (c : WriteCall) (z : Ztl) (m : Mcmd) : Prop :=
  c.ncmd ≤ xztlIoMaxMcmd ∧ Xztl.Issues c.req z 0 c.ncmd m

/-- Node `n` has a zone with number `j`. -/
def Ztl.HasZone (z : Ztl) (n j : Nat) : Prop :=
  ∃ i < ztlProZoneNumInnode, j = (z.vzones ((z.vnodes n).vzones i)).zone

theorem Geometry.hasZone_iff {z : Ztl} (hg : Geometry z) {n j : Nat} (hn : n < z.nnodes) :
    z.HasZone n j ↔ ∃ i < ztlProZoneNumInnode, j = ztlProZoneNumInnode * n + i + metadataZoneNum := by
  have hzone : ∀ i < ztlProZoneNumInnode,
      (z.vzones ((z.vnodes n).vzones i)).zone = ztlProZoneNumInnode * n + i + metadataZoneNum := by
    intro i hi
    rw [hg.slot n hn i hi]
    refine hg.zone _ ?_
    simp only [ztlProZoneNumInnode] at *
    omega
  constructor
  · rintro ⟨i, hi, e⟩
    exact ⟨i, hi, e.trans (hzone i hi)⟩
  · rintro ⟨i, hi, e⟩
    exact ⟨i, hi, e.trans (hzone i hi).symm⟩

/-! ### Operations -/

/-- `zrocks_node_finish`. -/
def zrocksNodeFinish (z : Ztl) (n : Nat) : Except Stop (Ztl × Nat) :=
  ztlMgmtSubmitResetFinish z n .fullZone

theorem zrocksNodeFinish_idle {z : Ztl} {n : Nat} (h : z.submitHead = []) :
    zrocksNodeFinish z n = .ok ({ z with submitHead := [(n, .fullZone)] }, xztlOk) := by
  have hlen : ([] : List (Nat × MgmtOp)).length < ztlNodeMgmtSz := by decide
  rw [zrocksNodeFinish, ztlMgmtSubmitResetFinish, h, if_pos hlen]
  rfl

/-- A write, a trim, a request to finish a node, or a round of the management thread with the
return value and the completion status of every zone command. -/
inductive FinishOp where
  | write (c : WriteCall) (ans : List MediaAns)
  | trim (m : ZrocksMap)
  | nodeFinish (n : Nat)
  | mgmt (ans : Nat → Nat → Nat × Nat)

/-- One operation. -/
def finishStep (z : Ztl) : FinishOp → Option Ztl
  | .write c ans => (zrocksWrite z c ans).toOption.map Prod.fst
  | .trim m => (zrocksTrim z m).toOption.map Prod.fst
  | .nodeFinish n => (zrocksNodeFinish z n).toOption.map Prod.fst
  | .mgmt ans => some (ztlMgmtThdProcess z (zoneAnswers ans))

/-- The node an operation names is one of the group. -/
def FinishOp.InGroup (z : Ztl) : FinishOp → Prop
  | .trim m => m.nodeId.val < z.nnodes
  | .nodeFinish n => n < z.nnodes
  | _ => True

/-- All zone commands of some attempt at an entry succeed. -/
def CarriedOut (ans : Nat → Nat → Nat × Nat) : Prop :=
  ∃ k < mgmtMaxRetry, ∀ i < ztlProZoneNumInnode, (ans k i).1 = 0

/-- The operation resets node `n`. -/
def FinishOp.Resets (z : Ztl) (n : Nat) : FinishOp → Prop
  | .mgmt ans => z.submitHead.head? = some (n, .resetZone) ∧ CarriedOut ans
  | _ => False

/-- No write issues a command to a zone of node `n` before the node is reset. -/
def TakesNoMore (z : Ztl) (n : Nat) : Prop :=
  ∀ as z', Runs finishStep (fun z a => a.InGroup z ∧ ¬ a.Resets z n) z as z' →
    ∀ (c : WriteCall) m, c.Issues z' m → ¬ z'.HasZone n m.zone

/-! ### Nodes that take no more -/

/-- The node is no level's current node, and the free list does not lead to it. -/
def Aside (z : Ztl) (n : Nat) : Prop :=
  (∀ q < zrocksLevelNum, z.qnode q ≠ some n) ∧ Held z.lists (· < z.nnodes) .usedHead n

/-- The node has no room left, or stands aside. -/
structure Shut (z : Ztl) (n : Nat) : Prop where
  ranged : Ranged z
  lt : n < z.nnodes
  queued : ∀ e ∈ z.submitHead, e.1 < z.nnodes
  shut : (z.vnodes n).left = 0 ∨ Aside z n

section

variable {w : WriteReq} {z z' z₁ : Ztl} {n k q num : Nat}

/-- A current node that is shut has no room. -/
theorem Shut.current (h : Shut z n) (hq : q < zrocksLevelNum) (hn : z.qnode q = some n) :
    (z.vnodes n).left = 0 :=
  h.shut.resolve_right fun ha => ha.1 q hq hn

/-- What leaves the lists, the current nodes and the room of the node alone. -/
theorem Shut.same (h : Shut z n) (hr : Ranged z') (hnn : z'.nnodes = z.nnodes)
    (hs : ∀ e ∈ z'.submitHead, e.1 < z.nnodes) (hleft : (z'.vnodes n).left = (z.vnodes n).left)
    (hl : z'.lists = z.lists) (hq : z'.qnode = z.qnode) : Shut z' n := by
  refine ⟨hr, hnn ▸ h.lt, hnn ▸ hs, ?_⟩
  rw [hleft, Aside, hl, hq, hnn]
  exact h.shut

/-- The exhausted node of a level goes to the full list. -/
theorem Shut.retire (h : Shut z n) (hr : Ranged (retire z q k)) (hq : q < zrocksLevelNum)
    (hk : z.qnode q = some k) : Shut (retire z q k) n := by
  refine ⟨hr, h.lt, h.queued, h.shut.imp_right fun ha => ⟨fun p hp e => ?_, ?_⟩⟩
  · have e' : update z.qnode q none p = some n := e
    by_cases hpq : p = q
    · rw [hpq, update_self] at e'
      cases e'
    · rw [update_of_ne hpq] at e'
      exact ha.1 p hp e'
  · exact ha.2.move (h.ranged.qnode q k hk) fun e => ha.1 q hq (e ▸ hk)

/-- A level takes the first free node. -/
theorem Shut.take (h : Shut z n) (hr : Ranged (take z q k))
    (hk : (z.lists.head .freeHead).first = some k) : Shut (take z q k) n := by
  have hleft : ((Xztl.take z q k).vnodes n).left = (z.vnodes n).left := by
    show (update z.vnodes k _ n).left = _
    by_cases e : n = k
    · rw [e, update_self]
    · rw [update_of_ne e]
  refine ⟨hr, h.lt, h.queued, hleft ▸ h.shut.imp_right fun ha => ?_⟩
  have hne : k ≠ n := fun e => ha.2.first_ne (by simp) (e ▸ hk)
  refine ⟨fun p hp e => ?_, ha.2.move (h.ranged.lists (.first .freeHead) k hk) hne⟩
  have e' : update z.qnode q (some k) p = some n := e
  by_cases hpq : p = q
  · rw [hpq, update_self] at e'
    exact hne (Option.some.inj e')
  · rw [update_of_ne hpq] at e'
    exact ha.1 p hp e'

theorem Shut.getNode (h : Shut z n) (hq : q < zrocksLevelNum) {ok : Bool}
    (e : ztlProGrpGetNode z q = (z₁, ok)) : Shut z₁ n := by
  have hrelink : ∀ {z : Ztl}, Ranged z → ∀ {k : Nat}, z.qnode q = some k →
      Ranged (Xztl.retire z q k) := fun hr _ hk =>
    hr.relink (hr.lists.remove.insertTail (hr.qnode q _ hk)) nofun
  rcases ztlProGrpGetNode_cases z q with ⟨k, -, -, e'⟩ | ⟨z2, h1, h2⟩
  · cases e.symm.trans e'
    exact h
  · have hs2 : Shut z2 n := by
      rcases h1 with ⟨-, rfl⟩ | ⟨k, hk, -, rfl⟩
      · exact h
      · exact h.retire (hrelink h.ranged hk) hq hk
    rcases h2 with ⟨-, e'⟩ | ⟨k, hk, e'⟩
    · cases e.symm.trans e'
      exact hs2
    · cases e.symm.trans e'
      exact hs2.take (h.ranged.getNode e).1 hk

theorem Shut.round {boff boff' status status' : Nat} {ans ans' : List MediaAns} (h : Shut z n)
    (hw : w.provType < zrocksLevelNum) (e : ztlProGrpGetNode z w.provType = (z₁, true))
    (hq : z₁.qnode w.provType = some k)
    (ew : writePiece w (setLevel z₁ k w.provType) k num boff status ans
      = .ok (z', status', boff', ans')) : Shut z' n := by
  have h1 := h.getNode hw e
  have hk : k < z₁.nnodes := h1.ranged.qnode _ _ hq
  have hr1 : Ranged (setLevel z₁ k w.provType) := h1.ranged.setNode rfl
  have hvz := writePiece_zones hr1.geometry hk ew
  have hst := writePiece_frame ew
  have hr2 : Ranged ((setLevel z₁ k w.provType).setNode k
      (((setLevel z₁ k w.provType).vnodes k).wrote num)) := hr1.setNode rfl
  rw [hst]
  refine ⟨⟨⟨hr2.geometry.slot, fun j hj => ?_, fun j hj => ?_⟩, hr2.lists, hr2.qnode⟩, h1.lt,
    h1.queued, ?_⟩
  · exact (hvz j).1.trans (hr2.geometry.zone j hj)
  · exact (hvz j).2.trans (hr2.geometry.sect j hj)
  · refine h1.shut.imp_left fun hl => ?_
    show (update (setLevel z₁ k w.provType).vnodes k _ n).left = 0
    by_cases en : n = k
    · rw [en, update_self]
      show ((setLevel z₁ k w.provType).vnodes k).left - num = 0
      rw [setLevel_left, ← en, hl, Nat.zero_sub]
    · rw [update_of_ne en, setLevel, Ztl.setNode_of_ne _ _ en]
      exact hl

theorem Rounds.shut {boff left : Nat} {ps : List Piece} {ok : Bool}
    (hr : Rounds w z boff left ps ok z') (hw : w.provType < zrocksLevelNum) :
    Shut z n → Shut z' n := by
  induction hr with
  | fail e => exact fun h => h.getNode hw e
  | last e hq _ ew => exact fun h => h.round hw e hq ew
  | more e hq _ ew _ ih => exact fun h => ih (h.round hw e hq ew)

/-- **The commands of a write** go elsewhere. -/
theorem Issues.elsewhere {boff left : Nat} {m : Mcmd} (hi : Issues w z boff left m)
    (hw : w.provType < zrocksLevelNum) : Shut z n → ∀ i < ztlProZoneNumInnode,
      m.zone ≠ ztlProZoneNumInnode * n + i + metadataZoneNum := by
  induction hi with
  | @now z z₁ boff left k m e hq hm =>
    intro h i hi hz
    have h1 := h.getNode hw e
    have hk : k < z₁.nnodes := h1.ranged.qnode _ _ hq
    have hr1 : Ranged (setLevel z₁ k w.provType) := h1.ranged.setNode rfl
    obtain ⟨hnum, j, hj, hzone⟩ := pieceReq_zone hr1.geometry hk hm
    have hkn : k = n := by
      rw [hz] at hzone
      simp only [ztlProZoneNumInnode, metadataZoneNum] at *
      omega
    -- the round takes nothing of a node without room
    rw [hkn, h1.current hw (hkn ▸ hq), Nat.zero_min] at hnum
    exact hnum rfl
  | later e hq _ ew _ ih => exact fun h => ih (h.round hw e hq ew)

end

theorem clampLevel_lt (level : Int) : clampLevel level < zrocksLevelNum := by
  simp only [clampLevel, zrocksLevelNum]
  by_cases h : level < 0
  · simp only [if_pos h]
    decide
  · simp only [if_neg h]
    split <;> omega

/-! ### The management thread -/

section

variable {z z' : Ztl} {n : Nat}

theorem Ranged.brushed (h : Ranged z) (hb : Brushed z z') : Ranged z' := by
  have hnn := hb.nnodes
  refine ⟨⟨fun m hm i hi => ?_, fun j hj => ?_, fun j hj => ?_⟩, ?_, ?_⟩
  · rw [hb.slot m]
    exact h.geometry.slot m (hnn ▸ hm) i hi
  · rw [(hb.zones j).1]
    exact h.geometry.zone j (hnn ▸ hj)
  · rw [(hb.zones j).2]
    exact h.geometry.sect j (hnn ▸ hj)
  · rw [hb.lists, hnn]
    exact h.lists
  · rw [hb.qnode, hnn]
    exact h.qnode

theorem Shut.brushed (h : Shut z n) (hb : Brushed z z') : Shut z' n :=
  h.same (h.ranged.brushed hb) hb.nnodes (hb.submitHead ▸ h.queued) (hb.left n) hb.lists hb.qnode

/-- Another node is reset, wherever it is. -/
theorem Shut.reset {k : Nat} (h : Shut z n) (hk : k < z.nnodes) (hne : k ≠ n)
    (hd : ResetDone z k z') : Shut z' n := by
  have hnn := hd.nnodes
  refine ⟨⟨hd.geometry h.ranged.geometry, ?_, ?_⟩, hnn ▸ h.lt, ?_, ?_⟩
  · rw [hd.lists, hnn]
    exact h.ranged.lists.remove.insertTail hk
  · rw [hd.qnode, hnn]
    exact h.ranged.qnode
  · rw [hd.submitHead, hnn]
    exact h.queued
  · rw [hd.node_of_ne n hne.symm, Aside, hd.qnode, hd.lists, hnn]
    exact h.shut.imp_right fun ha => ⟨ha.1, ha.2.move hk hne⟩

/-- **A round of the management thread** that does not reset the node. -/
theorem Shut.mgmt {ans : Nat → Nat → Nat × Nat} (h : Shut z n)
    (hres : ¬ (FinishOp.mgmt ans).Resets z n) :
    Shut (ztlMgmtThdProcess z (zoneAnswers ans)) n := by
  cases hs : z.submitHead with
  | nil =>
    simp only [ztlMgmtThdProcess, hs]
    exact h
  | cons entry rest =>
    obtain ⟨k, op⟩ := entry
    simp only [ztlMgmtThdProcess, hs]
    have hk : k < z.nnodes := h.queued (k, op) (hs ▸ mem_cons_self)
    have hdeq : Shut { z with submitHead := rest } n :=
      h.same (h.ranged.queue rest) rfl
        (fun e he => h.queued e (hs ▸ mem_cons_of_mem _ he)) rfl rfl rfl
    cases op with
    | fullZone => exact hdeq.brushed (mgmtAttempts_finishDone k _ mgmtMaxRetry _).brushed
    | resetZone =>
      rcases mgmtAttempts_reset_cases k (zoneAnswers_status ans) mgmtMaxRetry
        { z with submitHead := rest } with ⟨hok, -, z₁, hb, hd⟩ | ⟨-, hb⟩
      · refine (hdeq.brushed hb).reset (by rw [hb.nnodes]; exact hk) (fun e => hres ?_) hd
        exact ⟨by rw [hs, e]; rfl, hok⟩
      · exact hdeq.brushed hb

/-- **Every operation but a reset of the node** leaves it shut. -/
theorem Shut.step {a : FinishOp} (h : Shut z n) (hg : a.InGroup z) (hres : ¬ a.Resets z n)
    (e : finishStep z a = some z') : Shut z' n := by
  have hqueue : ∀ {k : Nat} {op : MgmtOp}, k < z.nnodes →
      ∀ e ∈ z.submitHead ++ [(k, op)], e.1 < z.nnodes := fun hk e he => by
    rcases mem_append.mp he with he | he
    · exact h.queued e he
    · rw [mem_singleton.mp he]
      exact hk
  cases a with
  | write c ans =>
    obtain ⟨⟨z₁, ret, maps⟩, hw, rfl⟩ := Option.map_eq_some_iff.mp e
    rcases zrocksWrite_cases (toOption_eq_some.mp hw) with ⟨-, rfl, -⟩ | ⟨-, u, eu, -⟩
    · exact h
    · obtain ⟨ps, ok, hr, -⟩ := reget_rounds _ eu
      exact hr.shut (clampLevel_lt c.level) h
  | trim m =>
    obtain ⟨⟨z₁, ret⟩, ht, rfl⟩ := Option.map_eq_some_iff.mp e
    have ht' := toOption_eq_some.mp ht
    have hleft := (zrocksTrim_counters ht' n).2
    obtain ⟨-, rfl⟩ | ⟨-, rfl⟩ := zrocksTrim_cases rfl ht'
    · have hr : Ranged (z.setNode m.nodeId { z.vnodes m.nodeId with
          nrValid := ((z.vnodes m.nodeId).nrValid + 2 ^ 64 - m.num.val) % 2 ^ 64,
          status := .reset }) := h.ranged.setNode rfl
      exact h.same (hr.queue _) rfl (hqueue hg) hleft rfl rfl
    · exact h.same (h.ranged.setNode rfl) rfl h.queued hleft rfl rfl
  | nodeFinish k =>
    obtain ⟨⟨z₁, ret⟩, hf, rfl⟩ := Option.map_eq_some_iff.mp e
    have hf' := toOption_eq_some.mp hf
    rw [zrocksNodeFinish, ztlMgmtSubmitResetFinish] at hf'
    split at hf'
    · cases hf'
      exact h.same (h.ranged.queue _) rfl (hqueue hg) rfl rfl rfl
    · cases hf'
  | mgmt ans =>
    cases e
    exact h.mgmt hres

/-- **A shut node takes no more writes** until it is reset. -/
theorem Shut.takesNoMore (h : Shut z n) : TakesNoMore z n := by
  intro as z' hr c m hi hz
  have h' : Shut z' n := Runs.invariant (I := fun z => Shut z n)
    (fun _ _ _ hs hg e => hs.step hg.1 hg.2 e) hr h
  obtain ⟨i, hi', e⟩ := (h'.ranged.geometry.hasZone_iff h'.lt).mp hz
  exact hi.2.elsewhere (clampLevel_lt c.level) h' i hi' e

end

/-! ### Nodes that take another write -/

section

variable {z z₁ : Ztl} {parts : NodeList → List Nat} {n q : Nat}

theorem plainWrite_byte_ncmd (q : Nat) : (plainWrite 1 q).ncmd = 1 := by
  show (plainWrite 1 0).ncmd = 1
  decide

theorem clampLevel_of_lt (hq : q < zrocksLevelNum) : clampLevel q = q := by
  have h0 : ¬ (q : Int) < 0 := by omega
  have h1 : ¬ (q : Int) ≥ (zrocksLevelNum : Int) := by omega
  simp only [clampLevel, if_neg h0, if_neg h1, Int.toNat_natCast]

/-- A write of one byte on a level goes to the node the level gets. -/
theorem exists_issued (hq : q < zrocksLevelNum) (hg : Geometry z) (hn : n < z.nnodes)
    (e : ztlProGrpGetNode z q = (z₁, true)) (h : Current z₁ q n) (hl : (z₁.vnodes n).left ≠ 0) :
    ∃ m, (plainWrite 1 q).Issues z m ∧ z.HasZone n m.zone := by
  have hp : (plainWrite 1 q).req.provType = q := clampLevel_of_lt hq
  have hmin : min (z₁.vnodes n).left 1 = 1 := by omega
  obtain ⟨r, hr⟩ : ∃ r, r = pieceReq (plainWrite 1 q).req (setLevel z₁ n q) n 1 0 := ⟨_, rfl⟩
  have hmc : r.mcmd = (List.range 1).map (mcmdAt r.addr 0) := by
    rw [hr]
    exact pieceReq_mcmd _ (h.setLevel q).geometry h.lt 1 0
  have hmem : mcmdAt r.addr 0 0 ∈ r.mcmd := by
    rw [hmc]
    exact mem_singleton.mpr rfl
  refine ⟨mcmdAt r.addr 0 0, ⟨?_, ?_⟩, ?_⟩
  · rw [plainWrite_byte_ncmd]
    decide
  · rw [plainWrite_byte_ncmd]
    refine .now (by rw [hp]; exact e) (by rw [hp]; exact h.qnode) ?_
    rw [hp, hmin, ← hr]
    exact hmem
  · rw [hr] at hmem
    obtain ⟨-, i, hi, hz⟩ := pieceReq_zone (h.setLevel q).geometry h.lt hmem
    rw [← hr] at hz
    exact (hg.hasZone_iff hn).mpr ⟨i, hi, hz⟩

/-- With a free node `n`, a level gets `n`, or a node that has at least one unit left before the
level comes to `n`. -/
theorem Alloc.getNode_free (h : Alloc z parts) (hn : n ∈ parts .freeHead) (q : Nat) :
    ∃ z₁ k parts1, ztlProGrpGetNode z q = (z₁, true) ∧ Alloc z₁ parts1 ∧ z₁.qnode q = some k ∧
      (z₁.vnodes k).left ≠ 0 ∧ (k = n ∨ n ∈ parts1 .freeHead ∧
        (parts1 .freeHead).length * ztlProOptSecNumInnode + (z₁.vnodes k).left
          ≤ (parts .freeHead).length * ztlProOptSecNumInnode + z.room q) := by
  rcases ztlProGrpGetNode_cases z q with ⟨k, hk, hl, e⟩ | ⟨z2, h1, h2⟩
  · exact ⟨z, k, parts, e, h, hk, hl, Or.inr ⟨hn, by rw [Ztl.room, hk]⟩⟩
  · obtain ⟨parts2, ha2, hq2, hf2⟩ : ∃ parts2, Alloc z2 parts2 ∧ z2.qnode q = none ∧
        parts2 .freeHead = parts .freeHead := by
      rcases h1 with ⟨hq, rfl⟩ | ⟨k, hq, hl, rfl⟩
      · exact ⟨parts, h, hq, rfl⟩
      · refine ⟨_, h.retire hq hl, update_self _ _ _, ?_⟩
        rw [TailQueue.moved, update_of_ne (by simp), update_of_ne (by simp)]
    have hfirst := (ha2.queues.repr .freeHead).first
    rw [hf2] at hfirst
    rcases h2 with ⟨hnone, -⟩ | ⟨k, hsome, e⟩
    · rw [hnone] at hfirst
      rw [List.head?_eq_none_iff.mp hfirst.symm] at hn
      cases hn
    · rw [hsome] at hfirst
      have hk : k ∈ parts .freeHead := mem_of_mem_head? hfirst.symm
      have hk2 : k ∈ parts2 .freeHead := by rwa [hf2]
      have hleft : ((Xztl.take z2 q k).vnodes k).left = ztlProOptSecNumInnode := by
        rw [take_self]
        exact (ha2.free k hk2).2.2.1
      refine ⟨Xztl.take z2 q k, k, _, e, ha2.take hq2 hk2, update_self _ _ _, ?_, ?_⟩
      · rw [hleft]
        decide
      · by_cases ek : k = n
        · exact Or.inl ek
        · have hlen := length_pos_of_mem hk
          rw [hleft, TailQueue.moved, update_of_ne (by simp), update_self, hf2,
            length_erase_of_mem hk, ztlProOptSecNumInnode_eq]
          exact Or.inr ⟨(mem_erase_of_ne fun e' => ek e'.symm).mpr hn, by omega⟩

/-- A write of one byte takes one unit of the node its level gets. -/
theorem Alloc.exists_byteWrite {k : Nat} (h1 : Alloc z₁ parts) (hr : Ranged z)
    (hq : q < zrocksLevelNum) (e : ztlProGrpGetNode z q = (z₁, true)) (hk : z₁.qnode q = some k)
    (hl : (z₁.vnodes k).left ≠ 0) : ∃ ans z' maps,
      zrocksWrite z (plainWrite 1 q) ans = .ok (z', xztlOk, maps) ∧ Alloc z' parts ∧ Ranged z' ∧
      z'.qnode q = some k ∧ (z'.vnodes k).left + 1 = (z₁.vnodes k).left ∧
      z'.submitHead = z₁.submitHead := by
  have hone : 1 ≤ (z₁.vnodes k).left := Nat.one_le_iff_ne_zero.mpr hl
  have hcur := h1.currentNode hk
  obtain ⟨ans, z', ew, hd⟩ := exists_pieceWrite (c := plainWrite 1 q) (clampLevel_of_lt hq)
    (plainWrite_byte_ncmd q) (by decide) e hcur hone
  have hused := h1.qnode_mem hk
  have hopen : ((Xztl.setLevel z₁ k q).vnodes k).Open := by
    have := (h1.used k hused).resolve_right fun hs => hl hs.2
    simpa [Xztl.setLevel, Node.Open] using this
  have h' : Alloc z' parts := (h1.setLevel hused q).piece hk hopen (by simpa using hone) hd
  have hlists : z'.lists.Within (· < z'.nnodes) := by
    rw [hd.lists, hd.nnodes]
    exact (hr.getNode e).1.lists
  refine ⟨ans, z', _, ew, h', ⟨h'.geometry, hlists, fun p m hp => h'.lt (h'.qnode_mem hp)⟩, ?_, ?_,
    hd.submitHead⟩
  · rw [hd.qnode]
    exact hk
  · rw [(hcur.piece hone hd).2.2.1]
    omega

/-- **A free node is written sooner or later**: writes of one byte on level 0 come to it. -/
theorem exists_taken (n b : Nat) : ∀ {z : Ztl} {parts : NodeList → List Nat}, Alloc z parts →
    Ranged z → n ∈ parts .freeHead →
    (parts .freeHead).length * ztlProOptSecNumInnode + z.room 0 ≤ b →
    ∃ as z', Runs finishStep (fun z a => a.InGroup z ∧ ¬ a.Resets z n) z as z' ∧
      ∃ m, (plainWrite 1 0).Issues z' m ∧ z'.HasZone n m.zone := by
  induction b with
  | zero =>
    intro z parts _ _ hn hb
    have := length_pos_of_mem hn
    rw [ztlProOptSecNumInnode_eq] at hb
    omega
  | succ b ih =>
    intro z parts h hr hn hb
    obtain ⟨z₁, k, parts1, e, h1, hk, hl, hcase⟩ := h.getNode_free hn 0
    by_cases ek : k = n
    · have hcur := h1.currentNode (ek ▸ hk)
      exact ⟨[], z, .nil z, exists_issued (by decide) h.geometry (h.lt hn) e hcur (ek ▸ hl)⟩
    · obtain ⟨hn1, hle⟩ := hcase.resolve_left ek
      obtain ⟨ans, z', maps, ew, h', hr', hq', hleft, -⟩ :=
        h1.exists_byteWrite hr (by decide) e hk hl
      have hstep : finishStep z (.write (plainWrite 1 0) ans) = some z' := by
        rw [finishStep, ew]
        rfl
      have hguard : (FinishOp.write (plainWrite 1 0) ans).InGroup z ∧
          ¬ (FinishOp.write (plainWrite 1 0) ans).Resets z n := ⟨trivial, id⟩
      have hroom : z'.room 0 = (z'.vnodes k).left := by rw [Ztl.room, hq']
      obtain ⟨as, z'', hrun, hm⟩ := ih h' hr' hn1 (by omega)
      exact ⟨_, z'', .cons hguard hstep hrun, hm⟩

/-- **A node with room that is a level's current node, or free, takes another write.** -/
theorem Alloc.not_takesNoMore (h : Alloc z parts) (hr : Ranged z) (hl : (z.vnodes n).left ≠ 0)
    (hn : (∃ q < zrocksLevelNum, z.qnode q = some n) ∨ n ∈ parts .freeHead) :
    ¬ TakesNoMore z n := by
  intro ht
  rcases hn with ⟨q, hq, hqn⟩ | hn
  · obtain ⟨m, hi, hz⟩ := exists_issued hq h.geometry (h.lt (h.qnode_mem hqn))
      (ztlProGrpGetNode_keep hqn hl) (h.currentNode hqn) hl
    exact ht [] z (.nil z) _ m hi hz
  · obtain ⟨as, z', hrun, m, hi, hz⟩ := exists_taken n _ h hr hn (le_refl _)
    exact ht as z' hrun _ m hi hz

/-- **A node with no room, or neither current nor free, takes none.** -/
theorem Alloc.shut (h : Alloc z parts) (hr : Ranged z) (hs : ∀ e ∈ z.submitHead, e.1 < z.nnodes)
    (hn : n < z.nnodes) (hc : (z.vnodes n).left = 0 ∨
      (∀ q < zrocksLevelNum, z.qnode q ≠ some n) ∧ n ∉ parts .freeHead) : Shut z n := by
  refine ⟨hr, hn, hs, ?_⟩
  by_cases hl : (z.vnodes n).left = 0
  · exact Or.inl hl
  · obtain ⟨hq, hfree⟩ := hc.resolve_left hl
    -- a node with room is on the used list when it is not free
    have hused : n ∈ parts .usedHead := by
      obtain ⟨l, hm⟩ := (h.mem n).mpr hn
      cases l with
      | freeHead => exact absurd hm hfree
      | usedHead => exact hm
      | fullHead => exact absurd (h.full n hm).2 hl
    have hP : (fun k => ∃ l, k ∈ parts l) = (· < z.nnodes) := funext fun k => propext (h.mem k)
    exact Or.inr ⟨hq, hP ▸ h.queues.held hused⟩

end

/-- **Finished nodes.**  After the management thread has carried out a finish of node `n`, no write
on any level issues a command to a zone of the node until the node is reset, exactly when the node
had no room left, or was neither a level's current node nor free. -/
theorem finish_iff {z : Ztl} {parts : NodeList → List Nat} (h : Alloc z parts) (hr : Ranged z)
    (hs : ∀ e ∈ z.submitHead, e.1 < z.nnodes) {n : Nat}
    (hfin : z.submitHead.head? = some (n, .fullZone)) (ans : Nat → Nat → Nat × Nat) :
    TakesNoMore (ztlMgmtThdProcess z (zoneAnswers ans)) n ↔
      (z.vnodes n).left = 0 ∨ (∀ q < zrocksLevelNum, z.qnode q ≠ some n) ∧ n ∉ parts .freeHead := by
  obtain ⟨rest, hrest⟩ := List.head?_eq_some_iff.mp hfin
  have hn : n < z.nnodes := hs (n, .fullZone) (hrest ▸ mem_cons_self)
  -- the entry is taken off the queue
  have h₀ := h.queue rest
  have hr₀ := hr.queue rest
  have hs₀ : ∀ e ∈ rest, e.1 < z.nnodes := fun e he => hs e (hrest ▸ mem_cons_of_mem _ he)
  have hd := ztlMgmtThdProcess_finish hrest (zoneAnswers ans)
  generalize ztlMgmtThdProcess z (zoneAnswers ans) = z' at hd
  have hb := hd.brushed
  have h' : Alloc z' parts := hd.alloc h₀
  have hr' : Ranged z' := hr₀.brushed hb
  have hleft : (z'.vnodes n).left = (z.vnodes n).left := hb.left n
  have hq' : z'.qnode = z.qnode := hb.qnode
  rw [← hleft, ← hq']
  constructor
  · intro ht
    by_contra hc
    push Not at hc
    refine h'.not_takesNoMore hr' hc.1 ?_ ht
    by_cases hq : ∃ q < zrocksLevelNum, z'.qnode q = some n
    · exact Or.inl hq
    · push Not at hq
      exact Or.inr (hc.2 hq)
  · intro hc
    refine (h'.shut hr' ?_ ?_ hc).takesNoMore
    · rw [hb.submitHead, hb.nnodes]
      exact hs₀
    · rw [hb.nnodes]
      exact hn

/-- Big writes fill the only node of a group; once it is finished, no write comes to it. -/
theorem finish_iff_full : ∃ as s z,
    Runs zstep (fun _ a => a.ByCaller) (ZState.fresh oneNode Dev.blank) as s ∧
      s.z.qnode 0 = some 0 ∧ (s.z.vnodes 0).left = 0 ∧ zrocksNodeFinish s.z 0 = .ok (z, xztlOk) ∧
      TakesNoMore (ztlMgmtThdProcess z (zoneAnswers fun _ _ => (0, 0))) 0 := by
  obtain ⟨hget, hcur⟩ := fresh_current oneNode Dev.blank 0 (by decide) rfl
  obtain ⟨as, s, hrun, hf⟩ := exists_fill (by decide) hget hcur (by rw [take_self]; rfl)
  obtain ⟨parts, ha⟩ := (Sound.run (hrun.mono fun s _ h => h.idle s)).alloc
  have hleft : (s.z.vnodes 0).left = 0 := by
    have hb := hf.current.balance
    rw [hf.used, ztlProOptSecNumInnode_eq] at hb
    omega
  have hlists : s.z.lists.Within (· < s.z.nnodes) := by
    rw [hf.only.lists, hf.only.nnodes]
    exact ((Ranged.fresh oneNode Dev.blank).getNode hget).1.lists
  have hempty : s.z.submitHead = [] := hf.only.submitHead
  refine ⟨as, s, _, hrun, hf.current.qnode, hleft, zrocksNodeFinish_idle hempty, ?_⟩
  have hn : 0 < s.z.nnodes := ha.lt (ha.qnode_mem hf.current.qnode)
  have hr : Ranged s.z := ⟨ha.geometry, hlists, fun p m hp => ha.lt (ha.qnode_mem hp)⟩
  refine (finish_iff (ha.queue _) (hr.queue _) ?_ rfl fun _ _ => (0, 0)).mpr (Or.inl hleft)
  intro e he
  rwa [mem_singleton.mp he]

/-- **A finished node is written.**  One byte is written on level 0 of an empty group, the node is
finished, and the next write on the level goes to it. -/
theorem finish_reopened : ∃ ans z₁ maps z₂,
    zrocksWrite (Ztl.fresh oneNode Dev.blank) (plainWrite 1 0) ans = .ok (z₁, xztlOk, maps) ∧
    zrocksNodeFinish z₁ 0 = .ok (z₂, xztlOk) ∧ ∃ m,
      (plainWrite 1 0).Issues (ztlMgmtThdProcess z₂ (zoneAnswers fun _ _ => (0, 0))) m ∧
      (ztlMgmtThdProcess z₂ (zoneAnswers fun _ _ => (0, 0))).HasZone 0 m.zone := by
  have hget : ztlProGrpGetNode (Ztl.fresh oneNode Dev.blank) 0 =
      (take (Ztl.fresh oneNode Dev.blank) 0 0, true) := rfl
  have h₁ := (Alloc.fresh oneNode Dev.blank).take (q := 0) (n := 0) rfl
    (by simp [freshParts, oneNode])
  have hl : ((take (Ztl.fresh oneNode Dev.blank) 0 0).vnodes 0).left = ztlProOptSecNumInnode := by
    rw [take_self]
    rfl
  have hcur : (take (Ztl.fresh oneNode Dev.blank) 0 0).qnode 0 = some 0 := rfl
  obtain ⟨ans, z₁, maps, ew, h', -, hq, hleft, hsub⟩ := h₁.exists_byteWrite
    (Ranged.fresh oneNode Dev.blank) (by decide) hget hcur (by rw [hl]; decide)
  have hempty : z₁.submitHead = [] := hsub
  refine ⟨ans, z₁, maps, _, ew, zrocksNodeFinish_idle hempty, ?_⟩
  have h₀ := h'.queue []
  have hd : FinishDone { z₁ with submitHead := [] } 0 (ztlMgmtThdProcess
      { z₁ with submitHead := [(0, .fullZone)] } (zoneAnswers fun _ _ => (0, 0))) :=
    ztlMgmtThdProcess_finish rfl _
  generalize ztlMgmtThdProcess { z₁ with submitHead := [(0, .fullZone)] }
    (zoneAnswers fun _ _ => (0, 0)) = z₂ at hd
  have h₂ := hd.alloc h₀
  have hq₂ : z₂.qnode 0 = some 0 := by
    rw [hd.brushed.qnode]
    exact hq
  have hl₂ : (z₂.vnodes 0).left ≠ 0 := by
    rw [hd.brushed.left 0]
    show (z₁.vnodes 0).left ≠ 0
    rw [hl, ztlProOptSecNumInnode_eq] at hleft
    omega
  exact exists_issued (by decide) h₂.geometry (h₂.lt (h₂.qnode_mem hq₂))
    (ztlProGrpGetNode_keep hq₂ hl₂) (h₂.currentNode hq₂) hl₂

end Xztl
