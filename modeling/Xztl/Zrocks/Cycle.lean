import Xztl.Zrocks.Steps

/-!
# Zrocks — a node from empty to full and back

What one queue does with its current node, without the allocator's invariant: write it full
(`exists_fill`), trim every piece (`exists_drain`), have it reset (`Current.reset`).  Nothing here
depends on what the three lists hold, so it also covers the runs after a node has been reset behind
its queue's back.

`exists_stolen` is such a run on a group of two nodes.  Both nodes are reset while they are the
current nodes of their queues and come to the free list; node 0 is filled and trimmed again by its
queue; then a third queue takes it, without room as it is, from the free list.
-/

namespace Xztl

open Function List

/-- Queue `q` can go on writing node `n`: every node stands where its counter says. -/
structure Current (z : Ztl) (q n : Nat) : Prop where
  geometry : Geometry z
  lt : n < z.nnodes
  placed : ∀ m < z.nnodes, Placed z m
  qnode : z.qnode q = some n
  balance : (z.vnodes n).used + (z.vnodes n).left = ztlProOptSecNumInnode

/-- Nothing but node `n`, zones and the device has changed. -/
structure OnlyNode (n : Nat) (z z' : Ztl) : Prop where
  nnodes : z'.nnodes = z.nnodes
  lists : z'.lists = z.lists
  qnode : z'.qnode = z.qnode
  submitHead : z'.submitHead = z.submitHead
  other : ∀ m, m ≠ n → z'.vnodes m = z.vnodes m

variable {s : ZState} {m : ZrocksMap}

theorem OnlyNode.refl (n : Nat) (z : Ztl) : OnlyNode n z z := ⟨rfl, rfl, rfl, rfl, fun _ _ => rfl⟩

theorem OnlyNode.trans {n : Nat} {z z₁ z' : Ztl} (h : OnlyNode n z z₁) (h' : OnlyNode n z₁ z') :
    OnlyNode n z z' :=
  ⟨h'.nnodes.trans h.nnodes, h'.lists.trans h.lists, h'.qnode.trans h.qnode,
    h'.submitHead.trans h.submitHead, fun m hm => (h'.other m hm).trans (h.other m hm)⟩

/-- A write of `size` zeros on level `q`, every attempt succeeding. -/
def plainWrite (size q : Nat) : WriteCall := ⟨fun _ => 0, size, q, fun _ _ => 0⟩

theorem plainWrite_succeeds (size q : Nat) (ans : List MediaAns) :
    (ZOp.write (plainWrite size q) ans).Succeeds := fun _ _ => ⟨0, by decide, rfl⟩

/-- A write that stores all its units, or a trim. -/
def ZOp.ByCaller : ZOp → Prop
  | .write c _ => c.Stored
  | .trim _ => True
  | .mgmt => False

theorem ZOp.ByCaller.succeeds {a : ZOp} (h : a.ByCaller) : a.Succeeds := by
  cases a with
  | write c ans => exact h
  | trim m => trivial
  | mgmt => trivial

theorem ZOp.ByCaller.idle {a : ZOp} (h : a.ByCaller) (s : ZState) : ResetIdle s a := by
  cases a with
  | write c ans => trivial
  | trim m => trivial
  | mgmt => cases h

theorem plainWrite_byCaller (size q : Nat) (ans : List MediaAns) :
    (ZOp.write (plainWrite size q) ans).ByCaller := plainWrite_succeeds size q ans

section

variable {w : WriteReq} {z z₁ z' : Ztl} {q n k b : Nat}

theorem OnlyNode.setLevel (z : Ztl) (n l : Nat) : OnlyNode n z (setLevel z n l) :=
  ⟨rfl, rfl, rfl, rfl, fun _ hm => Ztl.setNode_of_ne _ _ hm⟩

theorem PieceDone.onlyNode (hd : PieceDone w (setLevel z n q) n k b z') : OnlyNode n z z' :=
  (OnlyNode.setLevel z n q).trans
    ⟨hd.nnodes, hd.lists, hd.qnode, hd.submitHead, fun _ hm => hd.node_of_ne hm⟩

/-- A change that moves no zone and no counter. -/
theorem Current.congr (h : Current z q n) (hn : z'.nnodes = z.nnodes) (hz : z'.vzones = z.vzones)
    (hq : z'.qnode = z.qnode)
    (hnode : ∀ m, (z'.vnodes m).vzones = (z.vnodes m).vzones ∧
      (z'.vnodes m).used = (z.vnodes m).used ∧ (z'.vnodes m).left = (z.vnodes m).left) :
    Current z' q n := by
  refine ⟨⟨fun m hm i hi => ?_, fun j hj => ?_, fun j hj => ?_⟩, hn ▸ h.lt, fun m hm i hi => ?_,
    ?_, ?_⟩
  · rw [(hnode m).1]
    exact h.geometry.slot m (hn ▸ hm) i hi
  · rw [hz]
    exact h.geometry.zone j (hn ▸ hj)
  · rw [hz]
    exact h.geometry.sect j (hn ▸ hj)
  · rw [hz, (hnode m).2.1]
    exact h.placed m (hn ▸ hm) i hi
  · rw [hq]
    exact h.qnode
  · rw [(hnode n).2.1, (hnode n).2.2]
    exact h.balance

theorem Current.setLevel (h : Current z q n) (l : Nat) : Current (setLevel z n l) q n := by
  refine h.congr rfl rfl rfl fun m => ?_
  by_cases e : m = n
  · subst e
    rw [Xztl.setLevel, Ztl.setNode_self]
    exact ⟨rfl, rfl, rfl⟩
  · rw [Xztl.setLevel, Ztl.setNode_of_ne _ _ e]
    exact ⟨rfl, rfl, rfl⟩

theorem Current.piece (h : Current z q n) (hk : k ≤ (z.vnodes n).left)
    (hd : PieceDone w (Xztl.setLevel z n q) n k b z') :
    Current z' q n ∧ (z'.vnodes n).used = (z.vnodes n).used + k ∧
      (z'.vnodes n).left = (z.vnodes n).left - k ∧
      (z'.vnodes n).nrValid = (z.vnodes n).nrValid + k ∧
      ((z.vnodes n).left = k → (z'.vnodes n).status = .full) := by
  have h' := h.setLevel q
  have hself := hd.node_self
  have hfull : (z.vnodes n).left = k → (z'.vnodes n).status = .full := fun e => by
    rw [hself]
    simp only [Node.wrote, setLevel_left, e, Nat.sub_self, if_true]
  have hb := h.balance
  have hcounts : (z'.vnodes n).used = (z.vnodes n).used + k ∧
      (z'.vnodes n).left = (z.vnodes n).left - k ∧
      (z'.vnodes n).nrValid = (z.vnodes n).nrValid + k := by
    rw [hself]
    simp [Node.wrote, Xztl.setLevel]
  refine ⟨⟨hd.geometry, hd.nnodes ▸ h.lt, fun m hm => ?_, ?_, ?_⟩, hcounts.1, hcounts.2.1,
    hcounts.2.2, hfull⟩
  · exact hd.placed m (hd.nnodes ▸ hm) (h'.placed m (hd.nnodes ▸ hm))
  · rw [hd.qnode]
    exact h.qnode
  · rw [hcounts.1, hcounts.2.1]
    omega

theorem Current.exists_piece (h : Current z q n) (hk : k ≤ (z.vnodes n).left)
    (hrc : k ≤ ztlIoRcNum) (w : WriteReq) (b status : Nat) :
    ∃ pre z' status', (∀ ans, writePiece w (Xztl.setLevel z n q) n k (unitBytes * b) status
        (pre ++ ans) = .ok (z', status', unitBytes * (b + k), ans)) ∧
      PieceDone w (Xztl.setLevel z n q) n k b z' := by
  have h' := h.setLevel q
  have hb := h.balance
  have hfit : ((Xztl.setLevel z n q).vnodes n).used + k ≤ ztlProOptSecNumInnode := by
    rw [setLevel_used]
    omega
  obtain ⟨pre, z', status', boff', hw⟩ := exists_writePiece (w := w) h'.geometry h.lt
    (h'.placed n h.lt) hfit hrc (unitBytes * b) status
  obtain ⟨-, rfl, hd⟩ := writePiece_spec h'.geometry h.lt (h'.placed n h.lt) hfit (hw [])
  exact ⟨pre, z', status', hw, hd⟩

/-- **A write that fits** in the node the queue gets. -/
theorem exists_pieceWrite {c : WriteCall} (hc : c.req.provType = q) (hk : c.ncmd = k)
    (hrc : k ≤ ztlIoRcNum) (e : ztlProGrpGetNode z q = (z₁, true)) (h : Current z₁ q n)
    (hfit : k ≤ (z₁.vnodes n).left) :
    ∃ ans z', zrocksWrite z c ans =
        .ok (z', xztlOk, [.ofPiece ⟨n, (z₁.vnodes n).used, k⟩ c.padding]) ∧
      PieceDone c.req (Xztl.setLevel z₁ n q) n k 0 z' := by
  obtain ⟨pre, z', status', hw, hd⟩ := h.exists_piece hfit hrc c.req 0 0
  subst hc
  have er : reget c.req (ucmdPieceNum + 1) z k (unitBytes * 0) ⟨0, []⟩ (pre ++ []) = _ :=
    reget_last e h.qnode (by decide) hfit (hw [])
  rw [← hk] at er
  refine ⟨pre ++ [], z', ?_, hd⟩
  rw [zrocksWrite_of_reget ?_ er, hk]
  · rfl
  · rw [hk]
    rw [ztlIoRcNum_eq] at hrc
    simp only [xztlIoMaxMcmd]
    omega

/-! ### Filling -/

/-- The piece of the `j`-th big write to node `n`. -/
def bigPieceOn (n j : Nat) : ZrocksMap := .ofPiece ⟨n, 1024 * j, 1024⟩ 0

theorem plainWrite_big_ncmd (q : Nat) : (plainWrite znsMaxBuf q).ncmd = 1024 := by
  show (plainWrite znsMaxBuf 0).ncmd = 1024
  decide

theorem plainWrite_big_padding (q : Nat) : (plainWrite znsMaxBuf q).padding = 0 := by
  show (plainWrite znsMaxBuf 0).padding = 0
  decide

/-- `k` big writes after the queue has got its node in state `z₁`. -/
structure FilledTo (z₁ : Ztl) (q n k : Nat) (s : ZState) : Prop where
  current : Current s.z q n
  only : OnlyNode n z₁ s.z
  used : (s.z.vnodes n).used = 1024 * k
  valid : (s.z.vnodes n).nrValid = (z₁.vnodes n).nrValid + 1024 * k
  full : k = 192 → (s.z.vnodes n).status = .full
  level : (z₁.vnodes n).level = -1 → (s.z.vnodes n).level = if k = 0 then -1 else (q : Int)
  live : s.live = (List.range k).map (bigPieceOn n)

/-- The next big write, from a state in which the queue gets its node with or without a change. -/
theorem FilledTo.step (h : FilledTo z₁ q n k s) (hk : k < 192)
    (hq : clampLevel q = q) (e : ztlProGrpGetNode z q = (s.z, true)) :
    ∃ ans s', zstep ⟨z, s.live⟩ (.write (plainWrite znsMaxBuf q) ans) = some s' ∧
      FilledTo z₁ q n (k + 1) s' := by
  have hb := h.current.balance
  rw [h.used, ztlProOptSecNumInnode_eq] at hb
  have hfit : 1024 ≤ (s.z.vnodes n).left := by omega
  obtain ⟨ans, z', ew, hd⟩ := exists_pieceWrite (c := plainWrite znsMaxBuf q) hq
    (plainWrite_big_ncmd q) (by decide) e h.current hfit
  obtain ⟨hcur, hused, hleft, hvalid, hfull⟩ := h.current.piece hfit hd
  refine ⟨ans, ⟨z', _⟩, by rw [zstep, ew], hcur, h.only.trans hd.onlyNode, ?_, ?_, fun e => ?_,
    fun hl => ?_, ?_⟩
  · rw [hused, h.used]
    omega
  · rw [hvalid, h.valid]
    omega
  · exact hfull (by omega)
  · have hwrote : ∀ (nd : Node) (k : Nat), (nd.wrote k).level = nd.level := fun _ _ => rfl
    rw [if_neg (Nat.succ_ne_zero k), hd.node_self, hwrote, Xztl.setLevel, Ztl.setNode_self]
    show (if (s.z.vnodes n).level = -1 then (q : Int) else (s.z.vnodes n).level) = q
    have hs := h.level hl
    split at hs <;> split <;> omega
  · rw [h.live, h.used, plainWrite_big_padding, range_succ, map_append]
    rfl

theorem ztlProGrpGetNode_keep (hq : z.qnode q = some n)
    (hl : (z.vnodes n).left ≠ 0) : ztlProGrpGetNode z q = (z, true) := by
  simp [ztlProGrpGetNode, hq, hl]

section

variable (hq : clampLevel q = q) (e : ztlProGrpGetNode z q = (z₁, true)) (h : Current z₁ q n)
  (h0 : (z₁.vnodes n).used = 0)
include hq e h h0

/-- **Filling.**  The queue gets an empty node and writes it. -/
theorem exists_filledTo (hk : k < 192) :
    ∃ as s, Runs zstep (fun _ a => a.ByCaller) ⟨z, []⟩ as s ∧ FilledTo z₁ q n (k + 1) s := by
  induction k with
  | zero =>
    -- the first write gets the node, the others have it
    have hz : FilledTo z₁ q n 0 ⟨z₁, []⟩ :=
      ⟨h, OnlyNode.refl n z₁, h0, rfl, fun h => by omega, fun h => h, rfl⟩
    obtain ⟨ans, s1, e1, h1⟩ := hz.step hk hq e
    exact ⟨_, s1, Runs.one (plainWrite_byCaller _ _ _) e1, h1⟩
  | succ k ih =>
    obtain ⟨as, s, hr, hs⟩ := ih (by omega)
    have hb := hs.current.balance
    rw [hs.used, ztlProOptSecNumInnode_eq] at hb
    have hkeep : ztlProGrpGetNode s.z q = (s.z, true) :=
      ztlProGrpGetNode_keep hs.current.qnode (by omega)
    obtain ⟨ans, s', e', hs'⟩ := hs.step (by omega) hq hkeep
    exact ⟨_, s', hr.append (Runs.one (plainWrite_byCaller _ _ _) e'), hs'⟩

theorem exists_fill :
    ∃ as s, Runs zstep (fun _ a => a.ByCaller) ⟨z, []⟩ as s ∧ FilledTo z₁ q n 192 s :=
  exists_filledTo hq e h h0 (k := 191) (by decide)

end

/-! ### Draining -/

/-- The trim that takes the last units of a full node marks the node and queues its reset. -/
theorem zrocksTrim_last (hm : m.nodeId.val = n)
    (hv : (z.vnodes n).nrValid = m.num.val) (hs : (z.vnodes n).status = .full)
    (hlen : z.submitHead.length < ztlNodeMgmtSz) :
    zrocksTrim z m = .ok ({ z.setNode n { z.vnodes n with nrValid := 0, status := .reset } with
      submitHead := z.submitHead ++ [(n, .resetZone)] }, 0) := by
  subst hm
  have h0 : ((z.vnodes m.nodeId).nrValid + 2 ^ 64 - m.num.val) % 2 ^ 64 = 0 := by
    rw [hv]
    omega
  rw [zrocksTrim]
  simp only [h0, hs, and_self, if_true]
  rw [ztlMgmtSubmitResetFinish]
  exact if_pos hlen

theorem zrocksTrim_some {v : Nat} (hm : m.nodeId.val = n) (hv : v ≠ 0)
    (hsum : (z.vnodes n).nrValid = m.num.val + v) (hlt : v < 2 ^ 64) :
    zrocksTrim z m = .ok (z.setNode n { z.vnodes n with nrValid := v }, xztlOk) := by
  subst hm
  have hv' : ((z.vnodes m.nodeId).nrValid + 2 ^ 64 - m.num.val) % 2 ^ 64 = v := by
    rw [hsum]
    omega
  rw [zrocksTrim]
  simp only [hv', hv, false_and, if_false]

theorem zstep_trim {ret : Nat} (hm : m ∈ s.live) (e : zrocksTrim s.z m = .ok (z', ret)) :
    zstep s (.trim m) = some ⟨z', s.live.erase m⟩ := by
  rw [zstep, if_pos hm, e]

/-- Big pieces of a node are trimmed, while some of its units stay valid. -/
theorem trims_run (ms rest : List ZrocksMap) {v : Nat} (hv : v ≠ 0) (hlt : v ≤ 1024 * 192)
    (hbig : ∀ m ∈ ms, m.nodeId.val = n ∧ m.num.val = 1024) :
    ∀ {z : Ztl}, (z.vnodes n).nrValid = 1024 * ms.length + v → ms.length ≤ 192 →
      Runs zstep (fun _ a => a.ByCaller) ⟨z, ms ++ rest⟩ (ms.map .trim)
        ⟨z.setNode n { z.vnodes n with nrValid := v }, rest⟩ := by
  induction ms with
  | nil =>
    intro z hz _
    have hnode : { z.vnodes n with nrValid := v } = z.vnodes n := by
      rw [← (show (z.vnodes n).nrValid = v by rw [hz, length_nil]; omega)]
    rw [hnode, Ztl.setNode, update_eq_self]
    exact .nil _
  | cons m ms ih =>
    intro z hz hlen
    obtain ⟨hm, hnum⟩ := hbig m mem_cons_self
    rw [length_cons] at hz hlen
    obtain ⟨v', hv'⟩ : ∃ v', v' = 1024 * ms.length + v := ⟨_, rfl⟩
    have e := zrocksTrim_some hm (show v' ≠ 0 by omega)
      (show (z.vnodes n).nrValid = m.num.val + v' by omega) (by omega)
    have estep := zstep_trim (s := ⟨z, m :: (ms ++ rest)⟩) mem_cons_self e
    rw [show (m :: (ms ++ rest)).erase m = ms ++ rest from erase_cons_head _ _] at estep
    have hself : (z.setNode n { z.vnodes n with nrValid := v' }).vnodes n =
        { z.vnodes n with nrValid := v' } := Ztl.setNode_self _ _ _
    have hrun := ih (fun m hm => hbig m (mem_cons_of_mem _ hm))
      (z := z.setNode n { z.vnodes n with nrValid := v' }) (by rw [hself]; exact hv') (by omega)
    rw [hself] at hrun
    refine .cons trivial estep ?_
    simpa only [Ztl.setNode, update_idem] using hrun

/-- **Draining.**  Every piece of a full node is trimmed; the last trim queues the reset. -/
theorem exists_drain {rest : List ZrocksMap} (hne : rest ≠ [])
    (hbig : ∀ m ∈ rest, m.nodeId.val = n ∧ m.num.val = 1024)
    (hz : (z.vnodes n).nrValid = 1024 * rest.length) (hlen : rest.length ≤ 192)
    (hs : (z.vnodes n).status = .full) (hq : z.submitHead.length < ztlNodeMgmtSz) :
    Runs zstep (fun _ a => a.ByCaller) ⟨z, rest⟩ (rest.map .trim) ⟨{ z with
          vnodes := update z.vnodes n { z.vnodes n with nrValid := 0, status := .reset }
          submitHead := z.submitHead ++ [(n, .resetZone)] }, []⟩ := by
  obtain ⟨ms, m, rfl⟩ : ∃ ms m, rest = ms ++ [m] :=
    ⟨_, _, (dropLast_append_getLast hne).symm⟩
  obtain ⟨hm, hnum⟩ := hbig m mem_concat_self
  rw [length_append, length_singleton] at hz hlen
  -- all but the last piece, and then this one
  have hrun := trims_run ms [m] (v := 1024) (by decide) (by decide)
    (fun x hx => hbig x (mem_append_left _ hx)) (z := z) (by omega) (by omega)
  obtain ⟨z₁, hz1⟩ : ∃ z₁, z₁ = z.setNode n { z.vnodes n with nrValid := 1024 } := ⟨_, rfl⟩
  have hself : z₁.vnodes n = { z.vnodes n with nrValid := 1024 } := by
    rw [hz1]
    exact Ztl.setNode_self _ _ _
  rw [← hz1] at hrun
  have e := zrocksTrim_last (z := z₁) hm (by rw [hself, hnum]) (by rw [hself]; exact hs)
    (by rw [hz1]; exact hq)
  have estep := zstep_trim (s := ⟨z₁, [m]⟩) mem_cons_self e
  rw [show [m].erase m = [] from erase_cons_head _ _] at estep
  rw [map_append]
  refine hrun.append (.one trivial (estep.trans ?_))
  rw [hself, hz1]
  simp only [Ztl.setNode, update_idem]

/-! ### Resetting -/

/-- **A reset** of the queue's own node leaves the queue with an empty node. -/
theorem Current.reset (h : Current z q n) (hd : ResetDone z n z') :
    Current z' q n ∧ (z'.vnodes n).used = 0 ∧ (z'.vnodes n).nrValid = 0 := by
  refine ⟨⟨hd.geometry h.geometry, hd.nnodes ▸ h.lt, fun m hm => ?_, ?_, ?_⟩, ?_, ?_⟩
  · exact hd.placed h.geometry h.lt fun _ => h.placed m (hd.nnodes ▸ hm)
  · rw [hd.qnode]
    exact h.qnode
  all_goals rw [hd.node_self]
  exact Nat.zero_add _

/-- The queue's node, written full and trimmed, with its reset queued. -/
structure Drained (z₁ : Ztl) (q n : Nat) (z' : Ztl) : Prop where
  current : Current z' q n
  used : (z'.vnodes n).used = ztlProOptSecNumInnode
  valid : (z'.vnodes n).nrValid = 0
  only : OnlyNode n { z₁ with submitHead := [(n, .resetZone)] } z'

/-- **Fill and drain** an empty node. -/
theorem exists_drained_node (hq : clampLevel q = q) (hn : n < 2 ^ 14)
    (e : ztlProGrpGetNode z q = (z₁, true)) (h : Current z₁ q n) (h0 : (z₁.vnodes n).used = 0)
    (hv : (z₁.vnodes n).nrValid = 0) (hs : z₁.submitHead = []) :
    ∃ as z', Runs zstep (fun _ a => a.Succeeds) ⟨z, []⟩ as ⟨z', []⟩ ∧ Drained z₁ q n z' := by
  obtain ⟨as, ⟨z2, live⟩, hr, hf⟩ := exists_fill hq e h h0
  have hlive : live = (List.range 192).map (bigPieceOn n) := hf.live
  have hvalid : (z2.vnodes n).nrValid = 1024 * live.length := by
    rw [hf.valid, hv, hlive, length_map, length_range, Nat.zero_add]
  have hsub : z2.submitHead = [] := hf.only.submitHead.trans hs
  have hbig : ∀ m ∈ live, m.nodeId.val = n ∧ m.num.val = 1024 := fun m hm => by
    rw [hlive] at hm
    obtain ⟨j, -, rfl⟩ := mem_map.mp hm
    exact ⟨Nat.mod_eq_of_lt hn, rfl⟩
  have hd := exists_drain (by rw [hlive]; simp) hbig hvalid (by rw [hlive]; simp) (hf.full rfl)
    (by rw [hsub]; decide)
  have hself : update z2.vnodes n { z2.vnodes n with nrValid := 0, status := .reset } n =
      { z2.vnodes n with nrValid := 0, status := .reset } := update_self _ _ _
  refine ⟨_, _, (hr.append hd).mono fun _ _ h => h.succeeds, hf.current.congr rfl rfl rfl
    fun m => ?_, ?_, ?_, hf.only.nnodes, hf.only.lists, hf.only.qnode, ?_, fun m hm => ?_⟩
  · show (update z2.vnodes n _ m).vzones = _ ∧ (update z2.vnodes n _ m).used = _ ∧
      (update z2.vnodes n _ m).left = _
    by_cases em : m = n
    · subst em
      rw [hself]
      exact ⟨rfl, rfl, rfl⟩
    · rw [update_of_ne em]
      exact ⟨rfl, rfl, rfl⟩
  · show (update z2.vnodes n _ n).used = _
    rw [hself]
    exact hf.used
  · show (update z2.vnodes n _ n).nrValid = _
    rw [hself]
  · rw [hsub]
    rfl
  · show update z2.vnodes n _ m = _
    rw [update_of_ne hm]
    exact hf.only.other m hm

/-- Its reset, before the queue has given it up. -/
structure Recycled (z₁ : Ztl) (q n : Nat) (z' : Ztl) : Prop where
  current : Current z' q n
  used : (z'.vnodes n).used = 0
  valid : (z'.vnodes n).nrValid = 0
  only : OnlyNode n { z₁ with
    lists := (z₁.lists.remove .fullHead n).insertTail .freeHead n
    submitHead := [] } z'

/-- **Fill, drain and reset** an empty node: the queue ends with the node it began with, which has
also come to the free list. -/
theorem exists_recycled (hq : clampLevel q = q) (hn : n < 2 ^ 14)
    (e : ztlProGrpGetNode z q = (z₁, true)) (h : Current z₁ q n) (h0 : (z₁.vnodes n).used = 0)
    (hv : (z₁.vnodes n).nrValid = 0) (hs : z₁.submitHead = []) :
    ∃ as z', Runs zstep (fun _ a => a.Succeeds) ⟨z, []⟩ as ⟨z', []⟩ ∧ Recycled z₁ q n z' := by
  obtain ⟨as, z2, hr, hdr⟩ := exists_drained_node hq hn e h h0 hv hs
  have hd := ztlMgmtThdProcess_ok hdr.only.submitHead
  have estep : zstep ⟨z2, []⟩ .mgmt = some ⟨ztlMgmtThdProcess z2 fun _ => zonesOk, []⟩ := rfl
  obtain ⟨z3, hz3⟩ : ∃ z3, z3 = ztlMgmtThdProcess z2 fun _ => zonesOk := ⟨_, rfl⟩
  rw [← hz3] at hd estep
  have hcur : Current { z2 with submitHead := [] } q n :=
    hdr.current.congr rfl rfl rfl fun _ => ⟨rfl, rfl, rfl⟩
  obtain ⟨h1, h₂, h3⟩ := hcur.reset hd
  have hlists : z2.lists = z₁.lists := hdr.only.lists
  have hl := hd.lists
  rw [show ({ z2 with submitHead := [] } : Ztl).lists = z₁.lists from hlists] at hl
  have hok : ZOp.mgmt.Succeeds := trivial
  exact ⟨_, z3, hr.append (Runs.one hok estep), h1, h₂, h3, hd.nnodes.trans hdr.only.nnodes, hl,
    hd.qnode.trans hdr.only.qnode, hd.submitHead,
    fun m hm => (hd.node_of_ne m hm).trans (hdr.only.other m hm)⟩

/-! ### A node taken while its reset is queued -/

theorem ztlProGrpGetNode_take (hq : z.qnode q = none)
    (hf : (z.lists.head .freeHead).first = some n) :
    ztlProGrpGetNode z q = (take z q n, true) := by
  rcases ztlProGrpGetNode_cases z q with ⟨m, hm, -⟩ | ⟨z₁, ⟨-, rfl⟩ | ⟨m, hm, -⟩, h₂⟩
  · cases hq.symm.trans hm
  · rcases h₂ with ⟨hf', -⟩ | ⟨m, hf', e⟩
    · cases hf.symm.trans hf'
    · cases hf.symm.trans hf'
      exact e
  · cases hq.symm.trans hm

theorem ztlProGrpGetNode_retire {m : Nat} (hq : z.qnode q = some m)
    (hl : (z.vnodes m).left = 0)
    (hf : ((retire z q m).lists.head .freeHead).first = some n) :
    ztlProGrpGetNode z q = (take (retire z q m) q n, true) := by
  rcases ztlProGrpGetNode_cases z q with ⟨m', hm, hl', -⟩ | ⟨z₁, ⟨hm, -⟩ | ⟨m', hm, -, rfl⟩, h₂⟩
  · cases hq.symm.trans hm
    exact absurd hl hl'
  · cases hq.symm.trans hm
  · cases hq.symm.trans hm
    rcases h₂ with ⟨hf', -⟩ | ⟨m', hf', e⟩
    · cases hf.symm.trans hf'
    · cases hf.symm.trans hf'
      exact e

theorem Alloc.currentNode {parts : NodeList → List Nat} (h : Alloc z parts)
    (hq : z.qnode q = some n) : Current z q n :=
  ⟨h.geometry, h.lt (h.qnode_mem hq), h.placed, hq, h.balance n (h.lt (h.qnode_mem hq))⟩

/-- The first queue that asks a new group for a node gets node 0. -/
theorem fresh_current (g : GroupSize) (dev : Dev) (q : Nat) (hg : 0 < g.nnodes)
    (hf : ((freeList g.nnodes).head .freeHead).first = some 0) :
    ztlProGrpGetNode (Ztl.fresh g dev) q = (take (Ztl.fresh g dev) q 0, true) ∧
      Current (take (Ztl.fresh g dev) q 0) q 0 :=
  ⟨ztlProGrpGetNode_take rfl hf, ((Alloc.fresh g dev).take rfl (mem_range.mpr hg)).currentNode
    (update_self (β := fun _ => Option Nat) q (some 0) (Ztl.fresh g dev).qnode)⟩

/-- Another queue with a node. -/
theorem Current.other (h : Current z q n) {q' n' : Nat} (hn : n' < z.nnodes)
    (hq : z.qnode q' = some n')
    (hb : (z.vnodes n').used + (z.vnodes n').left = ztlProOptSecNumInnode) : Current z q' n' :=
  ⟨h.geometry, hn, h.placed, hq, hb⟩

theorem take_self (z : Ztl) (q n : Nat) :
    (take z q n).vnodes n = { z.vnodes n with status := .used } := update_self _ _ _

theorem take_of_ne (z : Ztl) (q : Nat) {n m : Nat} (h : m ≠ n) :
    (take z q n).vnodes m = z.vnodes m := update_of_ne h _ _

/-- A queue that takes a node from the free list, whatever its state. -/
theorem Current.take (h : Current z q n) {q' n' : Nat} (hn : n' < z.nnodes)
    (hb : (z.vnodes n').used + (z.vnodes n').left = ztlProOptSecNumInnode) :
    Current (take z q' n') q' n' := by
  have hnode : ∀ m, ((Xztl.take z q' n').vnodes m).vzones = (z.vnodes m).vzones ∧
      ((Xztl.take z q' n').vnodes m).used = (z.vnodes m).used ∧
      ((Xztl.take z q' n').vnodes m).left = (z.vnodes m).left := fun m => by
    by_cases e : m = n'
    · subst e
      rw [take_self]
      exact ⟨rfl, rfl, rfl⟩
    · rw [take_of_ne z q' e]
      exact ⟨rfl, rfl, rfl⟩
  refine ⟨⟨fun m hm i hi => ?_, h.geometry.zone, h.geometry.sect⟩, hn, fun m hm i hi => ?_,
    update_self _ _ _, ?_⟩
  · rw [(hnode m).1]
    exact h.geometry.slot m hm i hi
  · rw [(hnode m).2.1]
    exact h.placed m hm i hi
  · rw [(hnode n').2.1, (hnode n').2.2]
    exact hb

/-- Node 0 is full and trimmed, and its reset is queued, but it is no longer marked for it; it is
still the current node of queue 0. -/
structure Stolen (s : ZState) : Prop where
  current : Current s.z 0 0
  two : s.z.nnodes = 2
  used : (s.z.vnodes 0).used = ztlProOptSecNumInnode
  valid : (s.z.vnodes 0).nrValid = 0
  status : (s.z.vnodes 0).status = .full
  queue : s.z.submitHead = [(0, .resetZone)]
  live : ∃ m₀ m₁, s.live = [m₀, m₁] ∧ m₀.nodeId.val = 0 ∧ m₀.num.val = 0 ∧ m₁.nodeId.val = 1

/-- A group of two nodes. -/
def twoNodes : GroupSize := ⟨2, by decide⟩

/-- The write that takes the node: its first piece is on the node without room and has no units, its
second one on node 1. -/
theorem exists_stealing {c : WriteCall} (hc : c.req.provType = q) (hk : c.ncmd = 1)
    (hf0 : (z.lists.head .freeHead).first = some 0)
    (hf1 : (((((z.lists.remove .freeHead 0).insertTail .usedHead 0).remove .usedHead 0).insertTail
      .fullHead 0).head .freeHead).first = some 1)
    (hq : z.qnode q = none) (h : Current z 0 0) (h2 : z.nnodes = 2)
    (hu : (z.vnodes 0).used = ztlProOptSecNumInnode) (hv : (z.vnodes 0).nrValid = 0)
    (hs : z.submitHead = [(0, .resetZone)]) (hu1 : (z.vnodes 1).used = 0)
    (hb1 : (z.vnodes 1).used + (z.vnodes 1).left = ztlProOptSecNumInnode) :
    ∃ ans s, zstep ⟨z, []⟩ (.write c ans) = some s ∧ Stolen s := by
  have hne : 0 ≠ q := by
    rintro rfl
    cases hq.symm.trans h.qnode
  -- the first round: the node without room
  have e1 := ztlProGrpGetNode_take hq hf0
  have hc1 : Current (take z q 0) q 0 := h.take h.lt h.balance
  have hself : (take z q 0).vnodes 0 = { z.vnodes 0 with status := .used } := take_self z q 0
  have hl1 : ((take z q 0).vnodes 0).left = 0 := by
    rw [hself]
    have := h.balance
    simp only
    omega
  obtain ⟨pre1, z4, st1, hw1, hd1⟩ := hc1.exists_piece (le_refl _) (by rw [hl1]; decide) c.req 0 0
  obtain ⟨hc4, hu4, hl4, hv4, hfull⟩ := hc1.piece (le_refl _) hd1
  have ho1 := hd1.onlyNode
  rw [Nat.sub_self] at hl4
  rw [hl1, Nat.add_zero, hself] at hu4 hv4
  -- the second round: node 0 is retired, and node 1 is next
  have hlists : (retire z4 q 0).lists = (((z.lists.remove .freeHead 0).insertTail .usedHead
      0).remove .usedHead 0).insertTail .fullHead 0 := by
    show (z4.lists.remove .usedHead 0).insertTail .fullHead 0 = _
    rw [ho1.lists]
    rfl
  have hq4 : (retire z4 q 0).qnode 0 = some 0 := by
    show update z4.qnode q none 0 = some 0
    rw [ho1.qnode, update_of_ne hne]
    show update z.qnode q (some 0) 0 = some 0
    rw [update_of_ne hne]
    exact h.qnode
  have hn4 : z4.nnodes = 2 := ho1.nnodes.trans h2
  have hnode1 : z4.vnodes 1 = z.vnodes 1 := ho1.other 1 (by decide)
  have e2 : ztlProGrpGetNode z4 q = (take (retire z4 q 0) q 1, true) :=
    ztlProGrpGetNode_retire hc4.qnode hl4 (by rw [hlists]; exact hf1)
  have hret : Current (retire z4 q 0) 0 0 :=
    ⟨hc4.geometry.congr rfl rfl rfl, hc4.lt, hc4.placed, hq4,
      hc4.balance⟩
  have hc2 : Current (take (retire z4 q 0) q 1) q 1 := by
    refine hret.take (show 1 < z4.nnodes by rw [hn4]; decide) ?_
    show (z4.vnodes 1).used + (z4.vnodes 1).left = _
    rw [hnode1]
    exact hb1
  have hself2 : (take (retire z4 q 0) q 1).vnodes 1 = { z.vnodes 1 with status := .used } := by
    rw [take_self, ← hnode1]
    rfl
  have hl2 : 1 ≤ ((take (retire z4 q 0) q 1).vnodes 1).left := by
    rw [hself2]
    rw [hu1, ztlProOptSecNumInnode_eq] at hb1
    simp only
    omega
  obtain ⟨pre2, z5, st2, hw2, hd2⟩ := hc2.exists_piece hl2 (by decide) c.req
    (0 + ((take z q 0).vnodes 0).left) st1
  obtain ⟨hc5, -⟩ := hc2.piece hl2 hd2
  have ho2 := hd2.onlyNode
  have hnode0 : z5.vnodes 0 = z4.vnodes 0 := by
    rw [ho2.other 0 (by decide), take_of_ne _ q (show (0 : Nat) ≠ 1 by decide)]
    rfl
  have hlt : ((take z q 0).vnodes 0).left < 1 := by rw [hl1]; decide
  have hone : 1 - ((take z q 0).vnodes 0).left = 1 := by rw [hl1]
  obtain ⟨u, er, hp⟩ : ∃ u, reget c.req (ucmdPieceNum + 1) z c.ncmd (unitBytes * 0) ⟨0, []⟩
      (pre1 ++ (pre2 ++ [])) = .ok (z5, u) ∧
      u.pieces = [⟨0, ((take z q 0).vnodes 0).used, ((take z q 0).vnodes 0).left⟩,
        ⟨1, ((take (retire z4 q 0) q 1).vnodes 1).used, 1⟩] := by
    subst hc
    rw [hk]
    have hmore : reget c.req (ucmdPieceNum + 1) z 1 (unitBytes * 0) ⟨0, []⟩
        (pre1 ++ (pre2 ++ [])) = _ := reget_more e1 hc1.qnode (by decide) hlt (hw1 _)
    rw [hone] at hmore
    exact ⟨_, hmore.trans (reget_last e2 hc2.qnode (by simp [ucmdPieceNum]) hl2 (hw2 [])), rfl⟩
  have ew := zrocksWrite_of_reget (by rw [hk]; decide) er
  refine ⟨pre1 ++ (pre2 ++ []), ⟨z5, [] ++ toMaps u.pieces c.padding⟩, by rw [zstep, ew], ?_, ?_, ?_,
    ?_, ?_, ?_, ?_⟩
  · refine hc5.other (show 0 < z5.nnodes by rw [ho2.nnodes]; exact hc4.lt) ?_ ?_
    · rw [ho2.qnode]
      show update (retire z4 q 0).qnode q (some 1) 0 = some 0
      rw [update_of_ne hne]
      exact hq4
    · rw [hnode0]
      exact hc4.balance
  · exact ho2.nnodes.trans hn4
  · rw [hnode0, hu4]
    exact hu
  · rw [hnode0, hv4]
    exact hv
  · rw [hnode0]
    exact hfull rfl
  · exact ho2.submitHead.trans (ho1.submitHead.trans hs)
  · rw [hp, hl1]
    exact ⟨_, _, rfl, rfl, rfl, rfl⟩

/-- **A node is taken while its reset is queued.** -/
theorem exists_stolen (dev : Dev) :
    ∃ as s, Runs zstep (fun _ a => a.Succeeds) (ZState.fresh twoNodes dev) as s ∧ Stolen s := by
  -- node 0 is filled, trimmed and reset by queue 0
  obtain ⟨e1, hc1⟩ := fresh_current twoNodes dev 0 (by decide) rfl
  obtain ⟨z0, hz0⟩ : ∃ z0, z0 = Ztl.fresh twoNodes dev := ⟨_, rfl⟩
  rw [← hz0] at e1 hc1
  have hfresh : ∀ m, z0.vnodes m = Node.fresh m := fun m => by rw [hz0]; rfl
  have hn0 : z0.nnodes = 2 := by rw [hz0]; rfl
  have hl0 : z0.lists = freeList 2 := by rw [hz0]; rfl
  have hq0 : z0.qnode = fun _ => none := by rw [hz0]; rfl
  have hs0 : z0.submitHead = [] := by rw [hz0]; rfl
  have hbal : (Node.fresh 0).used + (Node.fresh 0).left = ztlProOptSecNumInnode := by decide
  obtain ⟨as1, z₁, hr1, h1⟩ := exists_recycled (by decide) (by decide) e1 hc1
    (by rw [take_self, hfresh]; rfl) (by rw [take_self, hfresh]; rfl) hs0
  have hl1 : z₁.lists = ((((freeList 2).remove .freeHead 0).insertTail .usedHead 0).remove .fullHead
      0).insertTail .freeHead 0 := by
    rw [h1.only.lists, ← hl0]
    rfl
  have hq1 : z₁.qnode = update (fun _ => none) 0 (some 0) := by
    rw [h1.only.qnode, ← hq0]
    rfl
  have hn1 : z₁.nnodes = 2 := h1.only.nnodes.trans hn0
  have hnode1 : z₁.vnodes 1 = Node.fresh 1 := by
    rw [h1.only.other 1 (by decide), ← hfresh]
    exact take_of_ne z0 0 (show (1 : Nat) ≠ 0 by decide)
  -- then node 1 by queue 1
  have e2 : ztlProGrpGetNode z₁ 1 = (take z₁ 1 1, true) :=
    ztlProGrpGetNode_take (by rw [hq1]; rfl) (by rw [hl1]; rfl)
  have hc2 : Current (take z₁ 1 1) 1 1 :=
    h1.current.take (by rw [hn1]; decide) (by rw [hnode1]; exact hbal)
  obtain ⟨as2, z2, hr2, h₂⟩ := exists_recycled (by decide) (by decide) e2 hc2
    (by rw [take_self, hnode1]; rfl) (by rw [take_self, hnode1]; rfl) h1.only.submitHead
  have hq2 : z2.qnode = update (update (fun _ => none) 0 (some 0)) 1 (some 1) := by
    rw [h₂.only.qnode, ← hq1]
    rfl
  have hn2 : z2.nnodes = 2 := h₂.only.nnodes.trans hn1
  have hnode2 : z2.vnodes 0 = z₁.vnodes 0 := by
    rw [h₂.only.other 0 (by decide)]
    exact take_of_ne z₁ 1 (show (0 : Nat) ≠ 1 by decide)
  -- queue 0 still has node 0, fills and trims it once more
  have hc3 : Current z2 0 0 := by
    refine h₂.current.other (by rw [hn2]; decide) (by rw [hq2]; rfl) ?_
    rw [hnode2]
    exact h1.current.balance
  have hleft : (z2.vnodes 0).left ≠ 0 := by
    have hb := hc3.balance
    rw [hnode2, h1.used, ztlProOptSecNumInnode_eq] at hb
    rw [hnode2]
    omega
  obtain ⟨as3, z3, hr3, h3⟩ := exists_drained_node (by decide) (by decide)
    (ztlProGrpGetNode_keep hc3.qnode hleft) hc3 (by rw [hnode2]; exact h1.used)
    (by rw [hnode2]; exact h1.valid) h₂.only.submitHead
  have hl3 : z3.lists = ((((((((freeList 2).remove .freeHead 0).insertTail .usedHead 0).remove
      .fullHead 0).insertTail .freeHead 0).remove .freeHead 1).insertTail .usedHead 1).remove
      .fullHead 1).insertTail .freeHead 1 := by
    rw [← hl1]
    exact h3.only.lists.trans h₂.only.lists
  have hnode3 : z3.vnodes 1 = z2.vnodes 1 := h3.only.other 1 (by decide)
  -- and queue 2 takes it from the free list
  obtain ⟨ans, s, ew, hs⟩ := exists_stealing (c := plainWrite 1 2) rfl (by decide)
    (by rw [hl3]; rfl) (by rw [hl3]; rfl) (by rw [h3.only.qnode]; exact congrFun hq2 2) h3.current
    (h3.only.nnodes.trans hn2) h3.used h3.valid h3.only.submitHead
    (by rw [hnode3]; exact h₂.used) (by rw [hnode3]; exact h₂.current.balance)
  have hrun := ((hr1.append hr2).append hr3).append (Runs.one (plainWrite_succeeds _ _ _) ew)
  rw [hz0] at hrun
  exact ⟨_, s, hrun, hs⟩

/-- A reset of the queue's own node, as a round of the management thread. -/
theorem Current.round {rest : List (Nat × MgmtOp)} (h : Current s.z q n)
    (hs : s.z.submitHead = (n, .resetZone) :: rest) :
    ∃ z', zstep s .mgmt = some ⟨z', s.live⟩ ∧ Current z' q n ∧ z'.submitHead = rest ∧
      z'.nnodes = s.z.nnodes ∧ (z'.vnodes n).used = 0 ∧ (z'.vnodes n).nrValid = 0 := by
  have hd := ztlMgmtThdProcess_ok hs
  have hcur : Current { s.z with submitHead := rest } q n :=
    h.congr rfl rfl rfl fun _ => ⟨rfl, rfl, rfl⟩
  obtain ⟨h1, h₂, h3⟩ := hcur.reset hd
  exact ⟨_, rfl, h1, hd.submitHead, hd.nnodes, h₂, h3⟩

/-- **A node is reset a second time** after a piece was written to it. -/
theorem exists_wiped (dev : Dev) : ∃ as s,
    Runs zstep (fun _ a => a.Succeeds) (ZState.fresh twoNodes dev) as s ∧ s.z.nnodes = 2 ∧
      (s.z.vnodes 0).nrValid = 0 ∧ s.live.length = 2 ∧ unitsOn s.live 0 = 1 := by
  obtain ⟨as, s, hr, hst⟩ := exists_stolen dev
  obtain ⟨m0, m1, hlive, hm0, hnum, hm1⟩ := hst.live
  -- the piece without units is trimmed: the reset is queued again
  have et := zrocksTrim_last hm0 (hst.valid.trans hnum.symm) hst.status
    (by rw [hst.queue]; decide)
  obtain ⟨z₁, hz1⟩ : ∃ z₁ : Ztl, z₁ = { s.z.setNode 0 { s.z.vnodes 0 with
      nrValid := 0, status := .reset } with
      submitHead := s.z.submitHead ++ [(0, .resetZone)] } := ⟨_, rfl⟩
  rw [← hz1] at et
  have e1 := zstep_trim (s := s) (by rw [hlive]; exact mem_cons_self) et
  rw [hlive, erase_cons_head] at e1
  have hcur1 : Current z₁ 0 0 := by
    rw [hz1]
    refine hst.current.congr rfl rfl rfl fun m => ?_
    by_cases e : m = 0
    · subst e
      exact ⟨rfl, rfl, rfl⟩
    · rw [show ({ s.z.setNode 0 { s.z.vnodes 0 with nrValid := 0, status := .reset } with
        submitHead := s.z.submitHead ++ [(0, .resetZone)] } : Ztl).vnodes m = s.z.vnodes m from
        Ztl.setNode_of_ne _ _ e]
      exact ⟨rfl, rfl, rfl⟩
  have hq1 : z₁.submitHead = [(0, .resetZone), (0, .resetZone)] := by
    rw [hz1]
    rw [hst.queue]
    rfl
  have hn1 : z₁.nnodes = 2 := by
    rw [hz1]
    exact hst.two
  -- the first reset, and a unit is written
  obtain ⟨z2, e2, hcur2, hq2, hn2, hu2, hv2⟩ := hcur1.round (s := ⟨z₁, [m1]⟩) hq1
  have hb := hcur2.balance
  rw [hu2, Nat.zero_add, ztlProOptSecNumInnode_eq] at hb
  obtain ⟨ans, z3, ew, hd⟩ := exists_pieceWrite (c := plainWrite 1 0) (k := 1) rfl (by decide)
    (by decide) (ztlProGrpGetNode_keep hcur2.qnode (by omega)) hcur2 (by omega)
  obtain ⟨hcur3, -⟩ := hcur2.piece (by omega) hd
  have honly := hd.onlyNode
  have e3 : zstep ⟨z2, [m1]⟩ (.write (plainWrite 1 0) ans)
      = some ⟨z3, [m1] ++ [.ofPiece ⟨0, (z2.vnodes 0).used, 1⟩ (plainWrite 1 0).padding]⟩ := by
    rw [zstep, ew]
  -- the second reset
  obtain ⟨z4, e4, -, -, hn4, -, hv4⟩ := hcur3.round (s := ⟨z3, _⟩) (honly.submitHead.trans hq2)
  have hok : ZOp.mgmt.Succeeds := trivial
  have hokt : (ZOp.trim m0).Succeeds := trivial
  refine ⟨_, _, hr.append (.cons hokt e1 (.cons hok e2 (.cons (plainWrite_succeeds _ _ _) e3
    (.one hok e4)))), ?_, hv4, rfl, ?_⟩
  · exact hn4.trans (honly.nnodes.trans (hn2.trans hn1))
  · rw [hu2, unitsOn_append, unitsOn_cons, if_neg (by rw [hm1]; decide)]
    rfl

end

end Xztl
