import Xztl.Env.Index
import Xztl.Env.Selection

/-!
# Env — a round of the collector (`env_zns.cc`, `ZNSEnv::GCWorker`)

While fewer than `gc_nodes_threshold` nodes are free, the collector asks for the report of the full
nodes, orders those it chooses and comes to them one by one: it migrates the files that
`nid_file_map` lists for the node and goes on until enough nodes are free.  The reset of a node is
left to the management thread.

**`collector_round`**: a round without faults ends with enough free nodes, or every node it chose is
drained and marked for its reset.  A node that has been drained stays so while the later ones are
migrated, since nothing is written to a full node.
-/

namespace Xztl

open List Table
open TailQueue (Repr)

/-- The buffer and the answers of the device that each migration of the round meets, by node and file. -/
abbrev GcIos := Nat → Name → (Nat → UInt8) × List GcIo

/-- The calls for a node, over a copy of the list of its files. -/
def gcCalls (io : GcIos) (nid : Nat) (w : World) : List GcCall :=
  (w.env.nidFileMap nid).map fun fn => ⟨fn, (io nid fn).1, (io nid fn).2⟩

/-- The loop of `GCWorker` over the nodes. -/
def gcLoop (threshold : Nat) (io : GcIos) : List Nat → World → Option World
  | [], w => some w
  | nid :: nids, w =>
    if w.z.nfree ≥ threshold then some w
    else (gcCalls io nid w).foldlM (sweepStep nid) w >>= gcLoop threshold io nids

/-- A round of `GCWorker`; the array of the percentages starts with zeros. -/
def gcRound (fuel threshold : Nat) (io : GcIos) (w : World) : Option World :=
  if w.z.nfree ≥ threshold then some w
  else do
    let invalid ← zrocksGcGetFullNodes fuel w.z fun _ => 0
    gcLoop threshold io ((gcOrder w.z.nnodes invalid).map Prod.snd) w

/-- The files the loop comes to are closed, and all their pieces on the node are moved. -/
def GcFaultFree (threshold : Nat) (io : GcIos) : List Nat → World → Prop
  | [], _ => True
  | nid :: nids, w => w.z.nfree ≥ threshold ∨ ∃ w₁, GcFaultFree threshold io nids w₁ ∧
      Runs (sweepStep nid) (fun w c => c.FaultFree nid w) w (gcCalls io nid w) w₁

/-- No file has a unit on the node. -/
def World.Bare (w : World) (k : Nat) : Prop :=
  ∀ n q, w.env.tbl.find n = some q → unitsOn (w.env.tbl.objs q).map k = 0

section

variable {threshold : Nat} {io : GcIos} {ns : List Nat}

/-- **The loop over the nodes.**  Full nodes stay full, bare ones bare. -/
theorem gcLoop_bares (nids : List Nat) : ∀ {w : World}, IndexInv w.env → Counted w →
    (∀ n ∈ nids, (w.z.vnodes n).left = 0) → GcFaultFree threshold io nids w →
    ∃ w', gcLoop threshold io nids w = some w' ∧ Counted w' ∧ w'.z.nnodes = w.z.nnodes ∧
      (∀ k, (w.z.vnodes k).left = 0 → (w'.z.vnodes k).left = 0 ∧ (w.Bare k → w'.Bare k)) ∧
      (w'.z.nfree ≥ threshold ∨ ∀ n ∈ nids, w'.Bare n) := by
  induction nids with
  | nil => exact fun _ hc _ _ => ⟨_, rfl, hc, rfl, fun _ h => ⟨h, id⟩, Or.inr nofun⟩
  | cons nid nids ih =>
    intro w hi hc hl hff
    by_cases hfree : w.z.nfree ≥ threshold
    · exact ⟨w, if_pos hfree, hc, rfl, fun _ h => ⟨h, id⟩, Or.inl hfree⟩
    obtain ⟨w₁, hff, hrun⟩ := hff.resolve_left hfree
    have hi₁ : IndexInv w₁.env := hrun.invariant (I := fun w => IndexInv w.env)
      (fun _ _ _ hi _ hs => (hi.migrate (Except.toOption_eq_some.mp hs)).1) hi
    have hnid := hl nid mem_cons_self
    obtain ⟨hc₁, hnn, -, hbare⟩ := sweep_frees hrun hc hnid
    have hkeep : ∀ k, (w.z.vnodes k).left = 0 →
        (w₁.z.vnodes k).left = 0 ∧ (w.Bare k → w₁.Bare k) := fun k hk => by
      obtain ⟨-, -, hk₁, hb⟩ := sweep_frees hrun hc hk
      exact ⟨hk₁, fun hw => hb fun n q hn h0 => absurd (hw n q hn) h0⟩
    have hbare : w₁.Bare nid := hbare fun n q hn h0 => by
      refine ⟨rfl, ?_⟩
      rw [gcCalls, map_map]
      exact (map_id _).symm ▸ hi.mem_of_unitsOn hn h0
    obtain ⟨w', e, hc', hnn', hkeep', hend⟩ :=
      ih hi₁ hc₁ (fun n hn => (hkeep n (hl n (mem_cons_of_mem _ hn))).1) hff
    refine ⟨w', ?_, hc', hnn'.trans hnn, fun k hk => ?_, hend.imp_right fun hb n hn => ?_⟩
    · rw [gcLoop, if_neg hfree, hrun.foldlM]
      exact e
    · obtain ⟨h1, h2⟩ := hkeep k hk
      exact ⟨(hkeep' k h1).1, fun h => (hkeep' k h1).2 (h2 h)⟩
    · rcases mem_cons.mp hn with rfl | hn
      · exact (hkeep' n (hkeep n hnid).1).2 hbare
      · exact hb n hn

/-- The nodes of a round are candidates on the full list. -/
theorem candidate_of_gcOrder {z : Ztl} {n : Nat}
    (h : n ∈ (gcOrder z.nnodes (ns.foldl (reportNode z) fun _ => 0)).map Prod.snd) :
    n ∈ ns ∧ (z.vnodes n).Candidate := by
  obtain ⟨-, -, hmin⟩ := mem_gcOrder.mp h
  rw [foldl_reportNode] at hmin
  by_contra hno
  rw [if_neg hno] at hmin
  exact absurd hmin (by decide)

end

/-- **A round of the collector.**  After any session whose steps keep to the names and release what
they hold, from a state with true counts and all files listed, a round in which no migration fails
returns and keeps the counts true.  There are then enough free nodes, or each candidate of which a
hundredth to 15 hundredths are valid is drained: no file has a unit there, its count is zero and it is
marked for its reset. -/
theorem collector_round {s₀ s : Session} {as : List EnvOp} (hi₀ : SessionInv s₀)
    (hx₀ : IndexInv s₀.w.env)
    (hrun : Runs Session.step (fun s a => a.Releases s ∧ a.Keeps s) s₀ as s) {ns : List Nat}
    {fuel threshold : Nat} {io : GcIos} (hns : Repr s.w.z.lists .fullHead ns) (hfuel : ns.length < fuel)
    (hff : GcFaultFree threshold io
      ((gcOrder s.w.z.nnodes (ns.foldl (reportNode s.w.z) fun _ => 0)).map Prod.snd) s.w) :
    ∃ w', gcRound fuel threshold io s.w = some w' ∧ Counted w' ∧ w'.z.nnodes = s.w.z.nnodes ∧
      (w'.z.nfree ≥ threshold ∨ ∀ n ∈ ns, (s.w.z.vnodes n).Candidate →
        ztlProOptSecNumInnode ≤ 100 * (s.w.z.vnodes n).nrValid →
        100 * (s.w.z.vnodes n).nrValid ≤ 15 * ztlProOptSecNumInnode →
        unitsOn w'.env.tbl.live n = 0 ∧ (w'.z.vnodes n).nrValid = 0 ∧
          (w'.z.vnodes n).status = .reset) := by
  have hc : Counted s.w := (hrun.invariant (I := SessionInv)
    (fun _ _ _ hi hg hs => hi.step hg.1 hs) hi₀).counted
  have hi : IndexInv s.w.env := hrun.invariant (I := fun s => IndexInv s.w.env)
    (fun _ _ _ hi hg hs => hi.step hg.2 hs) hx₀
  obtain ⟨parts, ha⟩ := hc.sound.alloc
  have hparts := (ha.queues.repr .fullHead).unique hns
  have hleft : ∀ n ∈ ns, (s.w.z.vnodes n).left = 0 := fun n hn =>
    (ha.full n (hparts ▸ hn)).2
  by_cases hfree : s.w.z.nfree ≥ threshold
  · exact ⟨s.w, if_pos hfree, hc, rfl, Or.inl hfree⟩
  obtain ⟨w', e, hc', hnn, hkeep, hend⟩ :=
    gcLoop_bares _ hi hc (fun n hn => hleft n (candidate_of_gcOrder hn).1) hff
  refine ⟨w', ?_, hc', hnn, hend.imp_right fun hb n hn hcand hmin hmax => ?_⟩
  · rw [gcRound, if_neg hfree, zrocksGcGetFullNodes_eq hns hfuel]
    exact e
  · have hlt : n < s.w.z.nnodes := (ha.mem n).mp ⟨.fullHead, hparts ▸ hn⟩
    have hle : (s.w.z.vnodes n).nrValid ≤ ztlProOptSecNumInnode := by omega
    have hmem := mem_gcOrder.mpr (show n < s.w.z.nnodes ∧
      ns.foldl (reportNode s.w.z) (fun _ => 0) n ≠ 100 ∧ _ by
        rw [foldl_reportNode, if_pos ⟨hn, hcand⟩, ne_eq, invalidPercent_eq_hundred hle]
        exact ⟨hlt, Nat.not_lt_of_le hmin, min_le_invalidPercent hle hmax⟩)
    have h0 := unitsOn_live_eq_zero (hb n hmem)
    have hlt' : n < w'.z.nnodes := hnn ▸ hlt
    exact ⟨h0, (hc'.sound.acc.valid n hlt').trans h0,
      hc'.sound.reset_of_spent hlt' (hkeep n (hleft n hn)).1 h0⟩

/-- A file of level 1 with the pieces that are left. -/
def fewFile (ms : List ZrocksMap) : ZnsFile := { closedFile 0 ms with level := 1 }

/-- **A candidate and its file**: the file has two of the 192 pieces of node 0 and a unit of node 1,
and the answers to its migration are good. -/
theorem exists_candidate : ∃ w io, Counted w ∧ IndexInv w.env ∧ Repr w.z.lists .fullHead [0] ∧
    w.z.nnodes = 2 ∧ (w.z.vnodes 0).Candidate ∧ (w.z.vnodes 0).nrValid = 2048 ∧
    ∃ w₁, Runs (sweepStep 0) (fun w c => c.FaultFree 0 w) w (gcCalls io 0 w) w₁ := by
  obtain ⟨as, s, hr, hs⟩ := exists_fewLeft (show 2 ≤ 192 by decide) (by decide)
  have hsound := Sound.run (hr.mono fun s _ h => h.idle s)
  obtain ⟨parts, ha⟩ := hsound.alloc
  obtain ⟨m, hlive, hm⟩ := hs.live
  obtain ⟨e, ht, hl⟩ := exists_logged_single smallMd (fewFile s.live)
  obtain ⟨e, ht, hl, hidx⟩ : ∃ e : Env, e.tbl = .single (fewFile s.live) ∧
      Logged e 0 [.base []] ∧ e.nidFileMap = fun _ => [nameA] :=
    ⟨{ e with nidFileMap := fun _ => [nameA] }, ht, ⟨hl.log, hl.sequence⟩, rfl⟩
  have hfind : ∀ n p, e.tbl.find n = some p → n = nameA ∧ e.tbl.objs p = fewFile s.live := by
    intro n p hn
    rw [ht, find_single] at hn
    split at hn <;> cases hn
    next h => exact ⟨h.symm, by rw [ht, objs_single]⟩
  have hunits : unitsOn s.live 0 ≤ s.z.room 1 := by
    rw [← hsound.acc.valid 0 (by rw [hs.two]; decide), hs.valid, Ztl.room, hs.next.1]
    have hn := hs.next.2
    rw [ztlProOptSecNumInnode_eq] at hn
    show 1024 * 2 ≤ (s.z.vnodes 1).left
    omega
  have hlies : ∀ x ∈ (fewFile s.live).map, x.nodeId.val = 0 → Lies s.z x ∧ 0 < x.num.val := by
    intro x hx h0
    rw [show (fewFile s.live).map = _ from hlive] at hx
    rcases mem_append.mp hx with hx | hx
    · obtain ⟨i, hi, rfl⟩ := mem_map.mp hx
      refine ⟨⟨⟨by rw [hs.two]; exact (by decide : 0 < 2), le_refl _, Nat.zero_le _⟩, ?_⟩,
        show 0 < 1024 by decide⟩
      show 1024 * (190 + i) % 2 ^ 22 + 1024 ≤ (s.z.vnodes 0).used
      rw [hs.used, ztlProOptSecNumInnode_eq]
      have hi := mem_range.mp hi
      omega
    · rw [mem_singleton.mp hx, hm] at h0
      cases h0
  obtain ⟨ios, w₁, hmig, -, hall, -⟩ := exists_migration (f := fewFile s.live) 0 ht hl
    (show (1 : Nat) ≤ fileNameLen by decide) rfl
    (show s.live.length ≤ _ by rw [hlive]; exact (by decide : 3 ≤ ztlNodeMgmtSz)) ha hlies hunits
    hs.idle fun _ => 0
  refine ⟨⟨s.z, e⟩, fun _ _ => (fun _ => 0, ios), ⟨?_, by rw [ht]; exact .single _⟩,
    ⟨fun n p hn => ?_, fun n n' p hn hn' => Or.inl ?_⟩, hs.lists, hs.two, hs.candidate, hs.valid,
    w₁, ?_⟩
  · show Sound s.z e.tbl.live
    have hlive : e.tbl.live = s.live := by
      rw [ht]
      exact append_nil _
    rwa [hlive]
  · obtain ⟨rfl, hp⟩ := hfind n p hn
    rw [hp, hidx]
    exact ⟨fun _ _ => mem_singleton_self _, Or.inl rfl, fun _ => rfl⟩
  · exact (hfind n p hn).1.trans (hfind n' p hn').1.symm
  · show Runs _ _ _ (map _ (e.nidFileMap _)) _
    rw [hidx]
    refine .one (fun p hp => ?_) (Except.toOption_eq_some.mpr hmig)
    rw [(hfind _ _ hp).2]
    exact ⟨rfl, hall⟩

/-- The candidate is drained. -/
theorem collector_round_drains : ∃ w io w', Counted w ∧ IndexInv w.env ∧
    (w.z.vnodes 0).Candidate ∧ (w.z.vnodes 0).nrValid = 2048 ∧ gcRound 2 3 io w = some w' ∧
    unitsOn w'.env.tbl.live 0 = 0 ∧ (w'.z.vnodes 0).nrValid = 0 ∧
    (w'.z.vnodes 0).status = .reset := by
  obtain ⟨w, io, hc, hi, hl, htwo, hcand, hv, w₁, hrun⟩ := exists_candidate
  have hff : GcFaultFree 3 io
      ((gcOrder w.z.nnodes ([0].foldl (reportNode w.z) fun _ => 0)).map Prod.snd) w := by
    have h0 : [0].foldl (reportNode w.z) (fun _ => 0) 0 = 99 := by
      rw [foldl_reportNode, if_pos ⟨mem_singleton_self 0, hcand⟩, hv]
      decide
    have h1 : [0].foldl (reportNode w.z) (fun _ => 0) 1 = 0 := by
      rw [foldl_reportNode, if_neg (by simp)]
    generalize [0].foldl (reportNode w.z) (fun _ => 0) = invalid at h0 h1 ⊢
    rw [show (gcOrder w.z.nnodes invalid).map Prod.snd = [0] by
      simp [gcOrder, invalidNidMap, htwo, List.range_succ, znsGcNodeIvdMinPercent, h0, h1]]
    exact Or.inr ⟨w₁, trivial, hrun⟩
  obtain ⟨w', e, hc', hnn, hend⟩ := collector_round
    (show SessionInv ⟨w, []⟩ from ⟨hc, fun _ h => absurd h not_mem_nil⟩) hi (.nil _) hl
    (show [0].length < 2 by decide) hff
  have hfree : ¬ w'.z.nfree ≥ 3 := by
    obtain ⟨parts, ha⟩ := hc'.sound.alloc
    have := ha.nfree_le.trans (hnn.trans htwo).le
    omega
  obtain ⟨h0, hv', hst⟩ := hend.resolve_left hfree 0 (mem_singleton_self 0) hcand
    (by rw [hv]; decide) (by rw [hv]; decide)
  exact ⟨w, io, w', hc, hi, hcand, hv, e, h0, hv', hst⟩

end Xztl
