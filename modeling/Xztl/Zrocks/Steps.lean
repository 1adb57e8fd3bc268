import Xztl.Ztl.Init
import Xztl.Zrocks.Accounting

/-!
# Zrocks — runs of calls

A run is a sequence of writes, trims of returned pieces and rounds of the management thread, from a
fresh group on.  The invariant `Sound` holds along every run in which no node is reset while it is a
queue's current node (`Sound.zstep`), and so does `Owned`: a node that is open for writing is the
current node of a queue.
-/

namespace Xztl

open Function List

/-- The translation layer and the pieces the caller holds. -/
structure ZState where
  z : Ztl
  live : List ZrocksMap

/-- A fresh group, nothing written. -/
def ZState.fresh (g : GroupSize) (dev : Dev) : ZState := ⟨Ztl.fresh g dev, []⟩

/-- A write, the trim of a piece the caller holds, or a round of the management thread. -/
inductive ZOp where
  | write (c : WriteCall) (ans : List MediaAns)
  | trim (m : ZrocksMap)
  | mgmt

/-- One operation.  A piece can be trimmed once; all zone resets succeed. -/
def zstep (s : ZState) : ZOp → Option ZState
  | .write c ans =>
    match zrocksWrite s.z c ans with
    | .ok (z, _, maps) => some ⟨z, s.live ++ maps⟩
    | .error _ => none
  | .trim m =>
    if m ∈ s.live then
      match zrocksTrim s.z m with
      | .ok (z, _) => some ⟨z, s.live.erase m⟩
      | .error _ => none
    else none
  | .mgmt => some ⟨ztlMgmtThdProcess s.z fun _ => zonesOk, s.live⟩

/-- Every unit of the write is stored. -/
def WriteCall.Stored (c : WriteCall) : Prop := ∀ k < c.ncmd, c.req.Stores k

/-- A write stores all its units. -/
def ZOp.Succeeds : ZOp → Prop
  | .write c _ => c.Stored
  | _ => True

/-- The node whose reset comes next is no queue's current node. -/
def ResetIdle (s : ZState) : ZOp → Prop
  | .mgmt => ∀ e, s.z.submitHead.head? = some e → ∀ q, s.z.qnode q ≠ some e.1
  | _ => True

theorem Sound.zstep {s s' : ZState} {a : ZOp} (h : Sound s.z s.live) (hg : ResetIdle s a)
    (e : zstep s a = some s') : Sound s'.z s'.live := by
  cases a with
  | write c ans =>
    rw [Xztl.zstep] at e
    split at e
    next z ret maps hw =>
      cases e
      exact h.write hw
    next => cases e
  | trim m =>
    rw [Xztl.zstep] at e
    split at e
    next hm =>
      split at e
      next z ret ht =>
        cases e
        exact h.trim hm ht
      next => cases e
    next => cases e
  | mgmt =>
    rw [Xztl.zstep] at e
    cases e
    cases hs : s.z.submitHead with
    | nil =>
      simp only [ztlMgmtThdProcess, hs]
      exact h
    | cons e rest => exact h.mgmt hs (hg e (by rw [hs]; rfl))

theorem Sound.run {g : GroupSize} {dev : Dev} {as : List ZOp} {s : ZState}
    (h : Runs Xztl.zstep ResetIdle (ZState.fresh g dev) as s) : Sound s.z s.live :=
  h.invariant (I := fun s => Sound s.z s.live) (fun _ _ _ hs hg e => hs.zstep hg e) (.fresh g dev)

/-! ### Nodes in use belong to a queue -/

/-- Every node in use that has room is some queue's current node.  This is so from a fresh group on,
but not after a restart. -/
def Owned (z : Ztl) : Prop := ∀ n, (z.vnodes n).Open → ∃ q, z.qnode q = some n

section

variable {w : WriteReq} {z z' : Ztl} {b left n num q : Nat}

theorem Owned.mono (h : Owned z) (hv : ∀ n, (z'.vnodes n).Open → (z.vnodes n).Open)
    (hq : z'.qnode = z.qnode) : Owned z' :=
  fun n hn => hq ▸ h n (hv n hn)

theorem open_setNode {nd : Node} (hnd : nd.Open → (z.vnodes n).Open) (m : Nat)
    (hm : ((z.setNode n nd).vnodes m).Open) : (z.vnodes m).Open := by
  by_cases e : m = n
  · subst e
    rw [Ztl.setNode_self] at hm
    exact hnd hm
  · rwa [Ztl.setNode_of_ne _ _ e] at hm

theorem Owned.getNode (h : Owned z) {r : Bool} (e : ztlProGrpGetNode z q = (z', r)) :
    Owned z' := by
  rcases ztlProGrpGetNode_cases z q with ⟨n, -, -, e'⟩ | ⟨z1, h1, h2⟩
  · cases e.symm.trans e'
    exact h
  obtain ⟨ho1, hq1⟩ : Owned z1 ∧ z1.qnode q = none := by
    rcases h1 with ⟨hq, rfl⟩ | ⟨n, hq, hl, rfl⟩
    · exact ⟨h, hq⟩
    · refine ⟨fun m hm => ?_, update_self _ _ _⟩
      obtain ⟨a, ha⟩ := h m hm
      -- the retired node has no room
      have haq : a ≠ q := fun e => by
        rw [e, hq] at ha
        exact hm.2 (Option.some.inj ha ▸ hl)
      exact ⟨a, (update_of_ne haq _ _).trans ha⟩
  rcases h2 with ⟨-, e'⟩ | ⟨n, -, e'⟩
  · cases e.symm.trans e'
    exact ho1
  · cases e.symm.trans e'
    intro m hm
    by_cases em : m = n
    · exact ⟨q, em ▸ update_self _ _ _⟩
    · have hother : (take z1 q n).vnodes m = z1.vnodes m := update_of_ne em _ _
      have hm' : (z1.vnodes m).Open := hother ▸ hm
      obtain ⟨a, ha⟩ := ho1 m hm'
      have haq : a ≠ q := fun e => by
        rw [e, hq1] at ha
        cases ha
      exact ⟨a, (update_of_ne haq _ _).trans ha⟩

theorem Owned.round {z1 : Ztl} (h : Owned z) (e : ztlProGrpGetNode z w.provType = (z1, true))
    (hq : z1.qnode w.provType = some n)
    (hd : PieceDone w (setLevel z1 n w.provType) n num b z') : Owned z' := by
  intro m hm
  rw [hd.qnode]
  by_cases em : m = n
  · exact ⟨_, em ▸ hq⟩
  · rw [hd.node_of_ne em] at hm
    have hother : (setLevel z1 n w.provType).vnodes m = z1.vnodes m := Ztl.setNode_of_ne _ _ em
    exact h.getNode e m (hother ▸ hm)

theorem Owned.pieces {ps : List Piece} {ok : Bool} (hp : Pieces w z b left ps ok z') :
    Owned z → Owned z' := by
  induction hp with
  | fail e => exact fun h => h.getNode e
  | last e hq hle hd => exact fun h => h.round e hq hd
  | more e hq hlt hd _ ih => exact fun h => ih (h.round e hq hd)

theorem Owned.zstep {s s' : ZState} {a : ZOp} (h : Owned s.z) (hs : Sound s.z s.live)
    (e : zstep s a = some s') : Owned s'.z := by
  cases a with
  | write c ans =>
    rw [Xztl.zstep] at e
    split at e
    next z ret maps hw =>
      cases e
      obtain ⟨parts, ha⟩ := hs.alloc
      obtain ⟨-, ⟨-, rfl, -⟩ | ⟨-, ps, ok, -, hp, -⟩⟩ := zrocksWrite_spec ha hw
      · exact h
      · exact Owned.pieces hp h
    next => cases e
  | trim m =>
    rw [Xztl.zstep] at e
    split at e
    next hm =>
      split at e
      next z ret ht =>
        cases e
        obtain ⟨-, rfl⟩ | ⟨-, rfl⟩ := zrocksTrim_cases rfl ht
        · refine h.mono (fun n hn => open_setNode ?_ n hn) rfl
          intro ho
          cases ho.1
        · refine h.mono (fun n hn => open_setNode ?_ n hn) rfl
          exact fun ho => ⟨ho.1, ho.2⟩
      next => cases e
    next => cases e
  | mgmt =>
    rw [Xztl.zstep] at e
    cases e
    cases hq : s.z.submitHead with
    | nil =>
      simp only [ztlMgmtThdProcess, hq]
      exact h
    | cons e rest =>
      obtain ⟨n, op⟩ := e
      obtain ⟨rfl, -, -⟩ := hs.acc.queued (n, op) (hq ▸ mem_cons_self)
      have hd := ztlMgmtThdProcess_ok hq
      refine h.mono (fun m hm => ?_) hd.qnode
      have hne : m ≠ n := fun em => by
        rw [em, hd.node_self] at hm
        cases hm.1
      rwa [hd.node_of_ne m hne] at hm

end

end Xztl
