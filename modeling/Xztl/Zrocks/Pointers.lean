import Xztl.Ztl.NodeInit
import Xztl.Zrocks.Ownership
import Xztl.Zrocks.Report

/-!
# Zrocks — the write pointers of the device

The device has write pointers of its own.  They are carried along a run beside the state
(`DevState`): a completed write leaves the pointer of its zone behind its last sector, a reset puts
it back to the start.

While all writes succeed these pointers stand where the counters of the nodes say (`Tracks`).  This
asks nothing of the lists: a node that has come to two queues, or to a queue and the free list, is
still written from its own counter on.  What it takes of the state is `Loose`, and
**`tracks_run`** holds in every run of successful operations.
-/

namespace Xztl

open Function List

/-! ### Pointers and counters -/

/-- The write pointers after the completed writes `L`, latest first: each leaves the pointer of its
zone behind its last sector. -/
def advance (wp : Nat → Nat) (L : List WriteRec) (j : Nat) : Nat :=
  L.foldr (fun r p => if r.slba / ztlProSecNumInzone = j + metadataZoneNum
    then max p (r.slba + ztlIoSecMcmd) else p) (wp j)

/-- The write pointers stand where the counters of the nodes say. -/
def Tracks (z : Ztl) (wp : Nat → Nat) : Prop :=
  ∀ n < z.nnodes, ∀ i < ztlProZoneNumInnode, wp (ztlProZoneNumInnode * n + i) =
    zoneStart (zoneAt n i) + ztlIoSecMcmd * unitsAt (z.vnodes n).used i

section

variable {wp : Nat → Nat} {L L' : List WriteRec} {j a : Nat}

theorem advance_append : advance wp (L' ++ L) = advance (advance wp L) L' := by
  funext j
  rw [advance, foldr_append]
  rfl

/-- The pointer of a zone is where the last of its writes ends. -/
theorem advance_last (h₀ : wp j ≤ a)
    (hle : ∀ r ∈ L, r.slba / ztlProSecNumInzone = j + metadataZoneNum → r.slba + ztlIoSecMcmd ≤ a)
    (hat : wp j = a ∨ ∃ r ∈ L, r.slba / ztlProSecNumInzone = j + metadataZoneNum ∧
      r.slba + ztlIoSecMcmd = a) : advance wp L j = a := by
  have hmax : ∀ {L : List WriteRec}, (∀ r ∈ L, r.slba / ztlProSecNumInzone = j + metadataZoneNum →
      r.slba + ztlIoSecMcmd ≤ a) → advance wp L j ≤ a := by
    intro L h
    induction L with
    | nil => exact h₀
    | cons r L ih =>
      have ih := ih fun r' hr' => h r' (mem_cons_of_mem _ hr')
      rw [advance, foldr_cons, ← advance]
      split
      · exact max_le ih (h r mem_cons_self ‹_›)
      · exact ih
  have hmono : ∀ {L : List WriteRec} {r : WriteRec}, advance wp L j ≤ advance wp (r :: L) j := by
    intro L r
    show _ ≤ ite _ _ _
    split
    · exact le_max_left _ _
    · exact le_refl _
  refine le_antisymm (hmax hle) ?_
  clear hle
  induction L with
  | nil =>
    rcases hat with h | ⟨r, hr, -⟩
    · exact h.ge
    · cases hr
  | cons r L ih =>
    by_cases hr : r.slba / ztlProSecNumInzone = j + metadataZoneNum ∧ r.slba + ztlIoSecMcmd = a
    · show a ≤ ite _ _ _
      rw [if_pos hr.1, hr.2]
      exact le_max_right _ _
    · refine le_trans (ih (hat.imp_right ?_)) hmono
      rintro ⟨r', hr', h⟩
      rcases mem_cons.mp hr' with rfl | hr'
      · exact absurd h hr
      · exact ⟨r', hr', h⟩

end

section

variable {w : WriteReq} {z z' : Ztl} {parts : NodeList → List Nat} {wp : Nat → Nat}
  {b n num left : Nat}

theorem zoneStart_zoneAt (n i : Nat) : zoneStart (zoneAt n i)
    = (ztlProZoneNumInnode * n + i + metadataZoneNum) * ztlProSecNumInzone := by
  rw [zoneStart, zoneAt, Nat.mul_comm]
  ring

/-- The zone of a unit. -/
theorem unitSect_zone {u : Nat} (hu : u < ztlProOptSecNumInnode) :
    unitSect n u / ztlProSecNumInzone =
      ztlProZoneNumInnode * n + u % ztlProZoneNumInnode + metadataZoneNum := by
  rw [unitSect, ztlProSecNumInzone_eq]
  rw [ztlProOptSecNumInnode_eq] at hu
  simp only [ztlProZoneNumInnode, ztlIoSecMcmd]
  omega

/-- **A piece whose units are all stored** moves the pointers with the counter. -/
theorem Tracks.piece (h : Tracks z wp) (hfit : (z.vnodes n).used + num ≤ ztlProOptSecNumInnode)
    (hd : PieceDone w z n num b z') (hs : ∀ k < num, w.Stores (b + k)) :
    ∃ L, z'.dev.log = L ++ z.dev.log ∧ Tracks z' (advance wp L) := by
  obtain ⟨L, hL, hmem⟩ := hd.log
  refine ⟨L, hL, fun m hm i hi => ?_⟩
  rw [hd.nnodes] at hm
  have hwp := h m hm i hi
  -- the records of a zone are those of the units at its position
  have hzone : ∀ r ∈ L, r.slba / ztlProSecNumInzone = ztlProZoneNumInnode * m + i + metadataZoneNum →
      ∃ k < num, n = m ∧ ((z.vnodes n).used + k) % ztlProZoneNumInnode = i ∧
        r.slba = unitSect n ((z.vnodes n).used + k) := fun r hr hz => by
    obtain ⟨k, hk, -, rfl⟩ := (hmem r).mp hr
    rw [unitSect_zone (by omega)] at hz
    have := Nat.mod_lt ((z.vnodes n).used + k) (show 0 < ztlProZoneNumInnode by decide)
    refine ⟨k, hk, ?_, ?_, rfl⟩
    all_goals
      simp only [ztlProZoneNumInnode] at *
      omega
  by_cases hmn : m = n
  · subst hmn
    rw [hd.node_self]
    show _ = _ + ztlIoSecMcmd * unitsAt ((z.vnodes m).used + num) i
    obtain ⟨U, hU⟩ : ∃ U, U = (z.vnodes m).used := ⟨_, rfl⟩
    have hstart := zoneStart_zoneAt m i
    have hmono := unitsAt_mono U num i
    rw [← hU] at hwp hzone hmem hfit ⊢
    refine advance_last ?_ (fun r hr hz => ?_) ?_
    · rw [hwp]
      exact Nat.add_le_add_left (Nat.mul_le_mul_left _ hmono) _
    · obtain ⟨k, hk, -, hi', hr'⟩ := hzone r hr hz
      rw [hr', unitSect, hi', hstart, Nat.add_assoc]
      refine Nat.add_le_add_left ?_ _
      simp only [unitsAt, ztlIoSecMcmd, ztlProZoneNumInnode] at *
      omega
    · by_cases hsame : unitsAt (U + num) i = unitsAt U i
      · left
        rw [hwp, hsame]
      · right
        -- the last unit at this position
        obtain ⟨k, hk, hk'⟩ : ∃ k < num, U + k = i + ztlProZoneNumInnode * (unitsAt (U + num) i - 1) := by
          refine ⟨i + ztlProZoneNumInnode * (unitsAt (U + num) i - 1) - U, ?_, ?_⟩
          all_goals
            simp only [unitsAt, ztlProZoneNumInnode] at *
            omega
        refine ⟨⟨unitSect m (U + k), unitBytes * (b + k)⟩, (hmem _).mpr ⟨k, hk, hs k hk, rfl⟩, ?_, ?_⟩
        · rw [unitSect_zone (by omega), hk']
          simp only [ztlProZoneNumInnode] at *
          omega
        · have hmod : (U + k) % ztlProZoneNumInnode = i := by
            rw [hk', Nat.add_mul_mod_self_left, Nat.mod_eq_of_lt hi]
          have hdiv : (U + k) / ztlProZoneNumInnode = unitsAt (U + num) i - 1 := by
            rw [hk', Nat.add_mul_div_left _ _ (by decide), Nat.div_eq_of_lt hi, Nat.zero_add]
          rw [unitSect, hmod, hdiv, hstart, Nat.add_assoc]
          congr 1
          simp only [unitsAt, ztlIoSecMcmd, ztlProZoneNumInnode] at *
          omega
  · rw [hd.node_of_ne hmn]
    refine advance_last hwp.le (fun r hr hz => ?_) (Or.inl hwp)
    obtain ⟨-, -, e, -⟩ := hzone r hr hz
    exact absurd e.symm hmn

end

/-! ### What writing needs of the state -/

/-- The zones of every node stand where its counter says, and every pointer to a node is to one of
the group. -/
structure Loose (z : Ztl) : Prop where
  geometry : Geometry z
  placed : ∀ n < z.nnodes, Placed z n
  balance : ∀ n < z.nnodes, (z.vnodes n).used + (z.vnodes n).left = ztlProOptSecNumInnode
  lists : z.lists.Within (· < z.nnodes)
  qnode : ∀ q n, z.qnode q = some n → n < z.nnodes
  queued : ∀ e ∈ z.submitHead, e.1 < z.nnodes ∧ e.2 = .resetZone

section

variable {w : WriteReq} {z z' z₁ : Ztl} {wp : Nat → Nat} {b n num left q : Nat}

/-- A change to a node that leaves its zones and its counters alone. -/
theorem Loose.setNode (h : Loose z) {nd : Node} (hz : nd.vzones = (z.vnodes n).vzones)
    (hu : nd.used = (z.vnodes n).used) (hl : nd.left = (z.vnodes n).left) :
    Loose (z.setNode n nd) := by
  have hother : ∀ m, m ≠ n → (z.setNode n nd).vnodes m = z.vnodes m := fun m hm =>
    Ztl.setNode_of_ne _ _ hm
  refine { h with
    geometry := ⟨fun m hm i hi => ?_, h.geometry.zone, h.geometry.sect⟩
    placed := fun m hm i hi => ?_
    balance := fun m hm => ?_ }
  all_goals by_cases e : m = n
  · rw [e, Ztl.setNode_self, hz]
    exact h.geometry.slot n (e ▸ hm) i hi
  · rw [hother m e]
    exact h.geometry.slot m hm i hi
  · rw [e, Ztl.setNode_self, hu]
    exact h.placed n (e ▸ hm) i hi
  · rw [hother m e]
    exact h.placed m hm i hi
  · rw [e, Ztl.setNode_self, hu, hl]
    exact h.balance n (e ▸ hm)
  · rw [hother m e]
    exact h.balance m hm

/-- What getting a node keeps, whatever the lists are. -/
structure Got (z z₁ : Ztl) : Prop where
  loose : Loose z₁
  nnodes : z₁.nnodes = z.nnodes
  dev : z₁.dev = z.dev
  used : ∀ n, (z₁.vnodes n).used = (z.vnodes n).used

theorem Loose.retire (h : Loose z) (hn : n < z.nnodes) : Got z (retire z q n) where
  loose :=
    { h with
      geometry := h.geometry.congr rfl rfl rfl
      lists := h.lists.remove.insertTail hn
      qnode := fun p m hp => by
        have hp' : update z.qnode q none p = some m := hp
        by_cases e : p = q
        · rw [e, update_self] at hp'
          cases hp'
        · rw [update_of_ne e] at hp'
          exact h.qnode p m hp' }
  nnodes := rfl
  dev := rfl
  used := fun _ => rfl

theorem Loose.take (h : Loose z) (hn : n < z.nnodes) : Got z (take z q n) := by
  have h' : Loose (z.setNode n { z.vnodes n with status := .used }) := h.setNode rfl rfl rfl
  refine ⟨{ h' with
    geometry := h'.geometry.congr rfl rfl rfl
    lists := h.lists.remove.insertTail hn
    qnode := fun p m hp => ?_ }, rfl, rfl, fun m => ?_⟩
  · have hp' : update z.qnode q (some n) p = some m := hp
    by_cases e : p = q
    · rw [e, update_self] at hp'
      cases hp'
      exact hn
    · rw [update_of_ne e] at hp'
      exact h.qnode p m hp'
  · show (update z.vnodes n _ m).used = _
    by_cases e : m = n
    · rw [e, update_self]
    · rw [update_of_ne e]

theorem Loose.getNode (h : Loose z) {r : Bool} (e : ztlProGrpGetNode z q = (z₁, r)) : Got z z₁ := by
  have hself : Got z z := ⟨h, rfl, rfl, fun _ => rfl⟩
  rcases ztlProGrpGetNode_cases z q with ⟨n, -, -, e'⟩ | ⟨z2, h1, h2⟩
  · cases e.symm.trans e'
    exact hself
  · have hg : Got z z2 := by
      rcases h1 with ⟨-, rfl⟩ | ⟨n, hq, -, rfl⟩
      · exact hself
      · exact h.retire (h.qnode q n hq)
    rcases h2 with ⟨-, e'⟩ | ⟨n, hf, e'⟩
    · cases e.symm.trans e'
      exact hg
    · cases e.symm.trans e'
      have ht := hg.loose.take (q := q) (hg.loose.lists (.first .freeHead) n hf)
      exact ⟨ht.loose, ht.nnodes.trans hg.nnodes, ht.dev.trans hg.dev,
        fun m => (ht.used m).trans (hg.used m)⟩

theorem Loose.piece (h : Loose z) (hle : num ≤ (z.vnodes n).left) (hn : n < z.nnodes)
    (hd : PieceDone w z n num b z') : Loose z' := by
  have hbal := h.balance n hn
  refine ⟨hd.geometry, fun m hm => ?_, fun m hm => ?_, ?_, ?_, ?_⟩
  · rw [hd.nnodes] at hm
    exact hd.placed m hm (h.placed m hm)
  · rw [hd.nnodes] at hm
    by_cases e : m = n
    · rw [e, hd.node_self]
      show (z.vnodes n).used + num + ((z.vnodes n).left - num) = _
      omega
    · rw [hd.node_of_ne e]
      exact h.balance m hm
  · rw [hd.lists, hd.nnodes]
    exact h.lists
  · rw [hd.qnode, hd.nnodes]
    exact h.qnode
  · rw [hd.submitHead, hd.nnodes]
    exact h.queued

theorem Loose.round {boff' status status' : Nat} {ans ans' : List MediaAns} (h : Loose z)
    (ht : Tracks z wp) (e : ztlProGrpGetNode z w.provType = (z₁, true))
    (hq : z₁.qnode w.provType = some n) (hle : num ≤ (z₁.vnodes n).left)
    (ew : writePiece w (setLevel z₁ n w.provType) n num (unitBytes * b) status ans
      = .ok (z', status', boff', ans')) (hs : ∀ k < num, w.Stores (b + k)) :
    Loose z' ∧ (z'.nnodes = z.nnodes ∧ n < z.nnodes) ∧ boff' = unitBytes * (b + num) ∧
      ∃ L, z'.dev.log = L ++ z.dev.log ∧ Tracks z' (advance wp L) := by
  have hg := h.getNode e
  have hn : n < z₁.nnodes := hg.loose.qnode _ _ hq
  have h1 : Loose (setLevel z₁ n w.provType) := hg.loose.setNode rfl rfl rfl
  have ht1 : Tracks (setLevel z₁ n w.provType) wp := fun m hm i hi => by
    have hu : ((setLevel z₁ n w.provType).vnodes m).used = (z.vnodes m).used := by
      rw [← hg.used m]
      by_cases em : m = n
      · rw [em, setLevel_used]
      · rw [setLevel, Ztl.setNode_of_ne _ _ em]
    rw [hu]
    exact ht m (hg.nnodes ▸ hm) i hi
  have hfit : ((setLevel z₁ n w.provType).vnodes n).used + num ≤ ztlProOptSecNumInnode := by
    have := hg.loose.balance n hn
    rw [setLevel_used]
    omega
  obtain ⟨-, hboff, hd⟩ := writePiece_spec h1.geometry hn (h1.placed n hn) hfit ew
  obtain ⟨L, hL, ht'⟩ := ht1.piece hfit hd hs
  refine ⟨h1.piece (by rw [setLevel_left]; exact hle) hn hd,
    ⟨hd.nnodes.trans hg.nnodes, hg.nnodes ▸ hn⟩, hboff, L, ?_, ht'⟩
  rw [hL, ← hg.dev]
  rfl

/-- **The `reget` loop**, all units being stored. -/
theorem Rounds.tracks {boff : Nat} {ps : List Piece} {ok : Bool} (hr : Rounds w z boff left ps ok z') :
    ∀ {wp : Nat → Nat} {b : Nat}, boff = unitBytes * b → Loose z → Tracks z wp →
      (∀ k < left, w.Stores (b + k)) →
      Loose z' ∧ (z'.nnodes = z.nnodes ∧ ∀ p ∈ ps, p.nodeId < z.nnodes) ∧
        ∃ L, z'.dev.log = L ++ z.dev.log ∧ Tracks z' (advance wp L) := by
  induction hr with
  | fail e =>
    rintro wp b rfl h ht _
    have hg := h.getNode e
    refine ⟨hg.loose, ⟨hg.nnodes, by simp⟩, [], by rw [hg.dev]; rfl, fun m hm i hi => ?_⟩
    rw [hg.used]
    exact ht m (hg.nnodes ▸ hm) i hi
  | last e hq hle ew =>
    rintro wp b rfl h ht hs
    obtain ⟨h', ⟨hnn, hn⟩, -, hL⟩ := h.round ht e hq hle ew hs
    exact ⟨h', ⟨hnn, by simpa using hn⟩, hL⟩
  | more e hq hlt ew _ ih =>
    rintro wp b rfl h ht hs
    obtain ⟨h', ⟨hnn, hn⟩, hboff, L, hL, ht'⟩ :=
      h.round ht e hq (le_refl _) ew fun k hk => hs k (by omega)
    obtain ⟨h'', ⟨hnn', hps⟩, L', hL', ht''⟩ := ih hboff h' ht' fun k hk => by
      rw [Nat.add_assoc]
      exact hs _ (by omega)
    refine ⟨h'', ⟨hnn'.trans hnn, forall_mem_cons.mpr ⟨hn, fun p hp => hnn ▸ hps p hp⟩⟩,
      L' ++ L, by rw [hL', hL, append_assoc], ?_⟩
    rw [advance_append]
    exact ht''

/-- A packed node number is not larger than the number. -/
theorem toMaps_nodeId_lt {ps : List Piece} {padding N : Nat} (h : ∀ p ∈ ps, p.nodeId < N) :
    ∀ m ∈ toMaps ps padding, m.nodeId.val < N := by
  have hone : ∀ p ∈ ps, ∀ padding, (ZrocksMap.ofPiece p padding).nodeId.val < N := fun p hp padding =>
    Nat.lt_of_le_of_lt (Nat.mod_le _ _) (h p hp)
  clear h
  induction ps with
  | nil => exact fun m hm => by cases hm
  | cons p ps ih =>
    have ih := ih fun p' hp' => hone p' (mem_cons_of_mem _ hp')
    cases ps with
    | nil =>
      intro m hm
      rw [mem_singleton.mp hm]
      exact hone p mem_cons_self padding
    | cons p' ps =>
      intro m hm
      rcases mem_cons.mp hm with rfl | hm
      · exact hone p mem_cons_self 0
      · exact ih m hm

theorem Loose.write {c : WriteCall} {ans : List MediaAns} {ret : Nat} {maps : List ZrocksMap}
    (h : Loose z) (ht : Tracks z wp) (hs : c.Stored)
    (e : zrocksWrite z c ans = .ok (z', ret, maps)) :
    Loose z' ∧ (z'.nnodes = z.nnodes ∧ ∀ m ∈ maps, m.nodeId.val < z.nnodes) ∧
      Tracks z' (advance wp (newWrites z z')) := by
  rcases zrocksWrite_cases e with ⟨-, rfl, rfl⟩ | ⟨-, u, eu, rfl⟩
  · rw [newWrites_of_append (nil_append _).symm]
    exact ⟨h, ⟨rfl, by simp⟩, ht⟩
  · obtain ⟨ps, ok, hr, hu⟩ := reget_rounds _ eu
    obtain ⟨h', ⟨hnn, hps⟩, L, hL, ht'⟩ := hr.tracks (b := 0) rfl h ht fun k hk => by
      rw [Nat.zero_add]
      exact hs k hk
    rw [newWrites_of_append hL, hu, nil_append]
    exact ⟨h', ⟨hnn, toMaps_nodeId_lt hps⟩, ht'⟩

theorem Loose.trim {m : ZrocksMap} {ret : Nat} (h : Loose z) (ht : Tracks z wp)
    (hm : m.nodeId.val < z.nnodes) (e : zrocksTrim z m = .ok (z', ret)) :
    Loose z' ∧ Tracks z' wp := by
  refine ⟨?_, fun n hn i hi => ?_⟩
  · obtain ⟨-, rfl⟩ | ⟨-, rfl⟩ := zrocksTrim_cases rfl e
    · have h' : Loose (z.setNode m.nodeId.val { z.vnodes m.nodeId.val with
          nrValid := ((z.vnodes m.nodeId.val).nrValid + 2 ^ 64 - m.num.val) % 2 ^ 64
          status := .reset }) := h.setNode rfl rfl rfl
      refine { h' with
        geometry := h'.geometry.congr rfl rfl rfl
        queued := fun x hx => ?_ }
      rcases mem_append.mp hx with hx | hx
      · exact h.queued x hx
      · rw [mem_singleton.mp hx]
        exact ⟨hm, rfl⟩
    · exact h.setNode rfl rfl rfl
  · rw [zrocksTrim_used e]
    exact ht n (zrocksTrim_nnodes e ▸ hn) i hi

end

/-! ### Runs with the device's pointers -/

/-- The state, and the write pointers of the zones behind the metadata zones. -/
structure DevState where
  s : ZState
  wp : Nat → Nat

/-- A fresh group on empty zones. -/
def DevState.fresh (g : GroupSize) (dev : Dev) : DevState :=
  ⟨ZState.fresh g dev, fun j => zoneStart (j + metadataZoneNum)⟩

/-- The pointers after an operation: those of the zones of a node that was reset are back at the
start. -/
def devPointers (d : DevState) (s' : ZState) : ZOp → Nat → Nat
  | .write _ _ => advance d.wp (newWrites d.s.z s'.z)
  | .trim _ => d.wp
  | .mgmt => fun j =>
    match d.s.z.submitHead with
    | [] => d.wp j
    | (n, _) :: _ =>
      if j ∈ (List.range ztlProZoneNumInnode).map (d.s.z.vnodes n).vzones
      then zoneStart (j + metadataZoneNum) else d.wp j

/-- One operation. -/
def devStep (d : DevState) (a : ZOp) : Option DevState :=
  (zstep d.s a).map fun s' => ⟨s', devPointers d s' a⟩

/-- The invariant of a run. -/
structure DevLoose (d : DevState) : Prop where
  loose : Loose d.s.z
  tracks : Tracks d.s.z d.wp
  lt : ∀ m ∈ d.s.live, m.nodeId.val < d.s.z.nnodes

theorem DevLoose.fresh (g : GroupSize) (dev : Dev) : DevLoose (DevState.fresh g dev) where
  loose :=
    { geometry := (Alloc.fresh g dev).geometry
      placed := (Alloc.fresh g dev).placed
      balance := (Alloc.fresh g dev).balance
      lists := freeList_within g.nnodes
      qnode := fun _ _ h => by cases h
      queued := fun _ h => by cases h }
  tracks := fun n _ i hi => by
    have h0 : unitsAt 0 i = 0 := by simp only [unitsAt, ztlProZoneNumInnode] at *; omega
    show zoneStart (ztlProZoneNumInnode * n + i + metadataZoneNum) = _ + ztlIoSecMcmd * unitsAt 0 i
    rw [h0, Nat.mul_zero, Nat.add_zero, zoneAt]
    congr 1
    omega
  lt := fun _ h => by cases h

theorem Loose.reset {z z' : Ztl} {n : Nat} (h : Loose z) (hn : n < z.nnodes)
    (hd : ResetDone z n z') : Loose z' := by
  refine ⟨hd.geometry h.geometry, fun m hm => ?_, fun m hm => ?_, ?_, ?_, ?_⟩
  · rw [hd.nnodes] at hm
    exact hd.placed h.geometry hn fun _ => h.placed m hm
  · rw [hd.nnodes] at hm
    by_cases e : m = n
    · rw [e, hd.node_self]
      exact Nat.zero_add _
    · rw [hd.node_of_ne m e]
      exact h.balance m hm
  · rw [hd.lists, hd.nnodes]
    exact h.lists.remove.insertTail hn
  · rw [hd.qnode, hd.nnodes]
    exact h.qnode
  · rw [hd.submitHead, hd.nnodes]
    exact h.queued

theorem DevLoose.mgmt {d : DevState} {n : Nat} {rest : List (Nat × MgmtOp)} {z' : Ztl}
    (h : DevLoose d) (hq : d.s.z.submitHead = (n, .resetZone) :: rest) (hn : n < d.s.z.nnodes)
    (hd : ResetDone { d.s.z with submitHead := rest } n z') :
    DevLoose ⟨⟨z', d.s.live⟩, devPointers d ⟨z', d.s.live⟩ .mgmt⟩ := by
  have hl : Loose { d.s.z with submitHead := rest } :=
    { h.loose with
      geometry := h.loose.geometry.congr rfl rfl rfl
      queued := fun x hx => h.loose.queued x (hq ▸ mem_cons_of_mem _ hx) }
  refine ⟨hl.reset hn hd, fun m hm i hi => ?_, fun m hm => ?_⟩
  · have hslots : ∀ j, j ∈ (List.range ztlProZoneNumInnode).map (d.s.z.vnodes n).vzones ↔
        ∃ i < ztlProZoneNumInnode, ztlProZoneNumInnode * n + i = j := fun j => by
      simp only [mem_map, mem_range]
      exact ⟨fun ⟨i, hi, e⟩ => ⟨i, hi, by rw [← e, h.loose.geometry.slot n hn i hi]⟩,
        fun ⟨i, hi, e⟩ => ⟨i, hi, by rw [← e, h.loose.geometry.slot n hn i hi]⟩⟩
    have hm' : m < d.s.z.nnodes := hd.nnodes ▸ hm
    simp only [devPointers, hq]
    by_cases e : m = n
    · subst e
      rw [if_pos ((hslots _).mpr ⟨i, hi, rfl⟩), hd.node_self]
      have h0 : unitsAt 0 i = 0 := by simp only [unitsAt, ztlProZoneNumInnode] at *; omega
      rw [h0, Nat.mul_zero, Nat.add_zero, zoneAt]
      congr 1
      omega
    · have hne : ¬ ztlProZoneNumInnode * m + i ∈
          (List.range ztlProZoneNumInnode).map (d.s.z.vnodes n).vzones := fun hmem => by
        obtain ⟨k, hk, e'⟩ := (hslots _).mp hmem
        simp only [ztlProZoneNumInnode] at *
        omega
      rw [if_neg hne, hd.node_of_ne m e]
      exact h.tracks m hm' i hi
  · rw [hd.nnodes]
    exact h.lt m hm

theorem DevLoose.step {d d' : DevState} {a : ZOp} (h : DevLoose d) (hs : a.Succeeds)
    (e : devStep d a = some d') : DevLoose d' ∧ d'.s.z.nnodes = d.s.z.nnodes := by
  obtain ⟨s', hs', rfl⟩ := Option.map_eq_some_iff.mp e
  cases a with
  | write c ans =>
    rw [zstep] at hs'
    split at hs'
    next z ret maps hw =>
      cases hs'
      obtain ⟨hl, ⟨hnn, hmaps⟩, ht⟩ := h.loose.write h.tracks hs hw
      refine ⟨⟨hl, ht, fun m hm => ?_⟩, hnn⟩
      rw [hnn]
      rcases mem_append.mp hm with hm | hm
      · exact h.lt m hm
      · exact hmaps m hm
    next => cases hs'
  | trim m =>
    rw [zstep] at hs'
    split at hs'
    next hm =>
      split at hs'
      next z ret ht =>
        cases hs'
        obtain ⟨hl, ht'⟩ := h.loose.trim h.tracks (h.lt m hm) ht
        refine ⟨⟨hl, ht', fun m' hm' => ?_⟩, zrocksTrim_nnodes ht⟩
        rw [zrocksTrim_nnodes ht]
        exact h.lt m' (mem_of_mem_erase hm')
      next => cases hs'
    next => cases hs'
  | mgmt =>
    cases hs'
    cases hq : d.s.z.submitHead with
    | nil =>
      have hp : devPointers d ⟨ztlMgmtThdProcess d.s.z fun _ => zonesOk, d.s.live⟩ .mgmt = d.wp := by
        simp only [devPointers, hq]
      have hz : ztlMgmtThdProcess d.s.z (fun _ => zonesOk) = d.s.z := by
        simp only [ztlMgmtThdProcess, hq]
      rw [hp, hz]
      exact ⟨h, rfl⟩
    | cons x rest =>
      obtain ⟨n, op⟩ := x
      obtain ⟨hn, rfl⟩ := h.loose.queued (n, op) (hq ▸ mem_cons_self)
      have hd := ztlMgmtThdProcess_ok hq
      exact ⟨h.mgmt hq hn hd, hd.nnodes⟩

/-- **The device's pointers follow the counters** in every run of successful operations, whatever
becomes of the lists. -/
theorem tracks_run {g : GroupSize} {dev : Dev} {as : List ZOp} {d : DevState}
    (h : Runs devStep (fun _ a => a.Succeeds) (DevState.fresh g dev) as d) :
    DevLoose d ∧ d.s.z.nnodes = g.nnodes :=
  h.invariant (I := fun d => DevLoose d ∧ d.s.z.nnodes = g.nnodes)
    (fun _ _ _ ⟨hi, hn⟩ hs e => ⟨(hi.step hs e).1, (hi.step hs e).2.trans hn⟩)
    ⟨DevLoose.fresh g dev, rfl⟩

/-- A run of operations, with the pointers beside it. -/
theorem exists_devRun {G : ZState → ZOp → Prop} {s s' : ZState} {as : List ZOp}
    (h : Runs zstep G s as s') (wp : Nat → Nat) :
    ∃ wp', Runs devStep (fun d a => G d.s a) ⟨s, wp⟩ as ⟨s', wp'⟩ := by
  induction h generalizing wp with
  | nil s => exact ⟨wp, .nil _⟩
  | @cons s s1 s' a as g e _ ih =>
    obtain ⟨wp', hr⟩ := ih (devPointers ⟨s, wp⟩ s1 a)
    exact ⟨wp', .cons g (by rw [devStep, e]; rfl) hr⟩

end Xztl
