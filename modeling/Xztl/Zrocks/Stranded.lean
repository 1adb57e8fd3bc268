import Xztl.Zrocks.Finish

/-!
# Zrocks — nodes that wait for a reset

`zrocks_trim` marks a node `XZTL_ZMD_NODE_RESET` and queues its reset; the mark keeps every later
trim from queueing it again, and hides the node from garbage collection.  The management thread tries
the entry `MGMT_MAX_RETRY` times and then drops it, mark or no mark.

**`stranded_run`**: while every reset is carried out in one of its attempts, a marked node is queued,
so none is left when the queue is empty, and a reset node is free, its zones are at the start and,
when it came from the full list, it is at the back of the free list.  A reset that fails in all its
attempts leaves the mark (**`node_stranded`**).
-/

namespace Xztl

open Function
open TailQueue (Queues)

/-- A node that is marked for a reset is queued for it. -/
def ResetsQueued (z : Ztl) : Prop :=
  ∀ n, (z.vnodes n).status = .reset → (n, .resetZone) ∈ z.submitHead

section

variable {w : WriteReq} {z z' z₁ : Ztl} {n q num : Nat}

/-- What queues nothing away and marks no node. -/
theorem ResetsQueued.mono (h : ResetsQueued z)
    (hst : ∀ n, (z'.vnodes n).status = .reset → (z.vnodes n).status = .reset)
    (hs : ∀ e ∈ z.submitHead, e ∈ z'.submitHead) : ResetsQueued z' :=
  fun n hn => hs _ (h n (hst n hn))

/-- A change to one node that does not mark it. -/
theorem status_update {f : Nat → Node} {nd : Node} (hnd : nd.status = .reset → (f n).status = .reset)
    (k : Nat) (hk : (update f n nd k).status = .reset) : (f k).status = .reset := by
  by_cases e : k = n
  · rw [e, update_self] at hk
    exact e ▸ hnd hk
  · rwa [update_of_ne e] at hk

/-! ### Writes -/

theorem ResetsQueued.getNode (h : ResetsQueued z) {ok : Bool}
    (e : ztlProGrpGetNode z q = (z₁, ok)) : ResetsQueued z₁ := by
  rcases ztlProGrpGetNode_cases z q with ⟨k, -, -, e'⟩ | ⟨z2, h1, h2⟩
  · cases e.symm.trans e'
    exact h
  · have hz2 : ResetsQueued z2 := by
      rcases h1 with ⟨-, rfl⟩ | ⟨k, -, -, rfl⟩
      · exact h
      · exact h
    rcases h2 with ⟨-, e'⟩ | ⟨k, -, e'⟩
    · cases e.symm.trans e'
      exact hz2
    · cases e.symm.trans e'
      exact hz2.mono (status_update fun hk => by cases hk) fun _ he => he

theorem ResetsQueued.round {boff boff' status status' : Nat} {ans ans' : List MediaAns} {k : Nat}
    (h : ResetsQueued z) (e : ztlProGrpGetNode z w.provType = (z₁, true))
    (ew : writePiece w (setLevel z₁ k w.provType) k num boff status ans
      = .ok (z', status', boff', ans')) : ResetsQueued z' := by
  rw [writePiece_frame ew]
  have h1 : ResetsQueued (setLevel z₁ k w.provType) :=
    (h.getNode e).mono (status_update fun hk => hk) fun _ he => he
  refine h1.mono (status_update fun hk => ?_) fun _ he => he
  simp only [Node.wrote] at hk
  split at hk
  · cases hk
  · exact hk

theorem Rounds.resetsQueued {boff left : Nat} {ps : List Piece} {ok : Bool}
    (hr : Rounds w z boff left ps ok z') : ResetsQueued z → ResetsQueued z' := by
  induction hr with
  | fail e => exact fun h => h.getNode e
  | last e _ _ ew => exact fun h => h.round e ew
  | more e _ _ ew _ ih => exact fun h => ih (h.round e ew)

/-! ### Rounds of the management thread -/

/-- The round carries out the reset it takes off the queue. -/
def FinishOp.Carries (z : Ztl) : FinishOp → Prop
  | .mgmt ans => (∃ n, z.submitHead.head? = some (n, .resetZone)) → CarriedOut ans
  | _ => True

/-- A node whose reset has been carried out. -/
structure GivenBack (z : Ztl) (n : Nat) (z' : Ztl) : Prop where
  free : (z'.vnodes n).status = .free
  zones : Rewound z' n
  lists : ∀ parts, Queues z.lists parts → n ∈ parts .fullHead →
    Queues z'.lists (TailQueue.moved parts .fullHead .freeHead n)
  others : ∀ m, m ≠ n → (z'.vnodes m).status = (z.vnodes m).status
  submitHead : z'.submitHead = z.submitHead.tail

/-- **A round whose entry is a reset** gives the node back when the reset is carried out, and
otherwise drops the entry and leaves the statuses alone. -/
theorem ztlMgmtThdProcess_reset (hs : z.submitHead.head? = some (n, .resetZone))
    (ans : Nat → Nat → Nat × Nat) :
    CarriedOut ans ∧ GivenBack z n (ztlMgmtThdProcess z (zoneAnswers ans)) ∨
      ¬ CarriedOut ans ∧
        (ztlMgmtThdProcess z (zoneAnswers ans)).submitHead = z.submitHead.tail ∧ ∀ m,
        ((ztlMgmtThdProcess z (zoneAnswers ans)).vnodes m).status = (z.vnodes m).status := by
  obtain ⟨rest, hrest⟩ := List.head?_eq_some_iff.mp hs
  simp only [ztlMgmtThdProcess, hrest]
  rcases mgmtAttempts_reset_cases n (zoneAnswers_status ans) mgmtMaxRetry
    { z with submitHead := rest } with ⟨hok, hrw, z₁, hb, hd⟩ | ⟨hok, hb⟩
  · refine Or.inl ⟨hok, ?_, hrw, fun parts hq hn => ?_, fun m hm => ?_, ?_⟩
    · rw [hd.node_self]
    · rw [hd.lists, hb.lists]
      exact hq.move hn (by simp)
    · rw [hd.node_of_ne m hm, hb.status m]
    · rw [hd.submitHead, hb.submitHead, hrest]
      rfl
  · exact Or.inr ⟨hok, hb.submitHead, hb.status⟩

theorem ResetsQueued.mgmt {ans : Nat → Nat → Nat × Nat} (h : ResetsQueued z)
    (hg : (FinishOp.mgmt ans).Carries z) :
    ResetsQueued (ztlMgmtThdProcess z (zoneAnswers ans)) := by
  cases hs : z.submitHead with
  | nil =>
    simp only [ztlMgmtThdProcess, hs]
    exact h
  | cons entry rest =>
    obtain ⟨k, op⟩ := entry
    cases op with
    | fullZone =>
      have hb := (ztlMgmtThdProcess_finish hs (zoneAnswers ans)).brushed
      intro n hn
      rw [hb.status] at hn
      rw [hb.submitHead]
      have hmem := h n hn
      rw [hs, List.mem_cons] at hmem
      exact hmem.resolve_left (by simp)
    | resetZone =>
      have hhead : z.submitHead.head? = some (k, .resetZone) := by rw [hs]; rfl
      rcases ztlMgmtThdProcess_reset hhead ans with ⟨-, hr⟩ | ⟨hok, -⟩
      · intro n hn
        by_cases e : n = k
        · rw [e, hr.free] at hn
          cases hn
        · rw [hr.others n e] at hn
          have hmem := h n hn
          rw [hs, List.mem_cons] at hmem
          rw [hr.submitHead, hs]
          refine hmem.resolve_left fun e' => e ?_
          cases e'
          rfl
      · exact absurd (hg ⟨k, hhead⟩) hok

/-- **Every operation** whose reset, if it has one, is carried out. -/
theorem ResetsQueued.step {a : FinishOp} (h : ResetsQueued z) (hg : a.Carries z)
    (e : finishStep z a = some z') : ResetsQueued z' := by
  cases a with
  | write c ans =>
    obtain ⟨⟨z₁, ret, maps⟩, hw, rfl⟩ := Option.map_eq_some_iff.mp e
    rcases zrocksWrite_cases (Except.toOption_eq_some.mp hw) with ⟨-, rfl, -⟩ | ⟨-, u, eu, -⟩
    · exact h
    · obtain ⟨ps, ok, hr, -⟩ := reget_rounds _ eu
      exact hr.resetsQueued h
  | trim m =>
    obtain ⟨⟨z₁, ret⟩, ht, rfl⟩ := Option.map_eq_some_iff.mp e
    obtain ⟨-, rfl⟩ | ⟨-, rfl⟩ := zrocksTrim_cases rfl (Except.toOption_eq_some.mp ht)
    · -- the node that is marked is queued
      intro n hn
      by_cases en : n = m.nodeId
      · rw [en]
        exact List.mem_append_right _ List.mem_cons_self
      · have hother : ∀ nd : Node, (z.setNode m.nodeId nd).vnodes n = z.vnodes n := fun nd =>
          Ztl.setNode_of_ne _ _ en
        exact List.mem_append_left _ (h n ((congrArg Node.status (hother _)).symm.trans hn))
    · exact h.mono (status_update fun hk => hk) fun _ he => he
  | nodeFinish k =>
    obtain ⟨⟨z₁, ret⟩, hf, rfl⟩ := Option.map_eq_some_iff.mp e
    have hf' := Except.toOption_eq_some.mp hf
    rw [zrocksNodeFinish, ztlMgmtSubmitResetFinish] at hf'
    split at hf'
    · cases hf'
      exact h.mono (fun _ hn => hn) fun _ he => List.mem_append_left _ he
    · cases hf'
  | mgmt ans =>
    cases e
    exact h.mgmt hg

end

/-- **No stranded node.**  In every run of writes, trims, finishes and management rounds in which
every reset is carried out, no node is marked for a reset when the management queue is empty.  A round
gives its node back exactly when it carries out the reset. -/
theorem stranded_run {z₀ z : Ztl} (h₀ : ∀ n, (z₀.vnodes n).status ≠ .reset) {as : List FinishOp}
    (h : Runs finishStep (fun z a => a.Carries z) z₀ as z) :
    (z.submitHead = [] → ∀ n, (z.vnodes n).status ≠ .reset) ∧
    ∀ n ans, z.submitHead.head? = some (n, .resetZone) → (z.vnodes n).status = .reset →
      (GivenBack z n (ztlMgmtThdProcess z (zoneAnswers ans)) ↔ CarriedOut ans) := by
  have hinv : ResetsQueued z := Runs.invariant (I := ResetsQueued)
    (fun _ _ _ hs hg e => hs.step hg e) h fun n hn => absurd hn (h₀ n)
  refine ⟨fun hq n hn => ?_, fun n ans hs hst => ?_⟩
  · have hmem := hinv n hn
    rw [hq] at hmem
    cases hmem
  · rcases ztlMgmtThdProcess_reset hs ans with ⟨hok, hr⟩ | ⟨hok, -, hsame⟩
    · exact iff_of_true hr hok
    · refine iff_of_false (fun hr => ?_) hok
      have hfree := hr.free
      rw [hsame n, hst] at hfree
      cases hfree

/-! ### A node that is filled and emptied -/

/-- The operation, all zone commands succeeding. -/
def ZOp.finish : ZOp → FinishOp
  | .write c ans => .write c ans
  | .trim m => .trim m
  | .mgmt => .mgmt fun _ _ => (0, 0)

theorem carriedOut_zero : CarriedOut fun _ _ => (0, 0) := ⟨0, by decide, fun _ _ => rfl⟩

theorem ZOp.finish_carries (z : Ztl) (a : ZOp) : a.finish.Carries z := by
  cases a with
  | write c ans => trivial
  | trim m => trivial
  | mgmt => exact fun _ => carriedOut_zero

theorem finishStep_finish {s s' : ZState} {a : ZOp} (e : zstep s a = some s') :
    finishStep s.z a.finish = some s'.z := by
  cases a with
  | write c ans =>
    rw [zstep] at e
    split at e
    next z ret maps hw =>
      cases e
      rw [ZOp.finish, finishStep, hw]
      rfl
    next => cases e
  | trim m =>
    rw [zstep] at e
    split at e
    next =>
      split at e
      next z ret ht =>
        cases e
        rw [ZOp.finish, finishStep, ht]
        rfl
      next => cases e
    next => cases e
  | mgmt =>
    cases e
    rfl

/-- A run whose zone commands all succeed. -/
theorem Runs.finish {G : ZState → ZOp → Prop} {s s' : ZState} {as : List ZOp}
    (h : Runs zstep G s as s') :
    Runs finishStep (fun z a => a.Carries z) s.z (as.map ZOp.finish) s'.z := by
  induction h with
  | nil s => exact .nil _
  | cons _ e _ ih => exact .cons (ZOp.finish_carries _ _) (finishStep_finish e) ih

/-- A node is filled, and all its pieces are trimmed. -/
theorem exists_marked : ∃ as z,
    Runs finishStep (fun z a => a.Carries z) (Ztl.fresh oneNode Dev.blank) as z ∧
      z.submitHead = [(0, .resetZone)] ∧ (z.vnodes 0).status = .reset := by
  obtain ⟨as, s, hr, hd⟩ := exists_drained Dev.blank
  have hq := hd.queued rfl
  refine ⟨_, s.z, Runs.finish hr, hq, ?_⟩
  exact (hd.sound.acc.queued (0, .resetZone) (hq ▸ List.mem_cons_self)).2.2

/-- The reset of such a node, carried out at the first attempt. -/
theorem stranded_run_emptied : ∃ as z,
    Runs finishStep (fun z a => a.Carries z) (Ztl.fresh oneNode Dev.blank) as z ∧
      z.submitHead.head? = some (0, .resetZone) ∧
      GivenBack z 0 (ztlMgmtThdProcess z (zoneAnswers fun _ _ => (0, 0))) := by
  obtain ⟨as, z, hr, hq, hst⟩ := exists_marked
  have hhead : z.submitHead.head? = some (0, .resetZone) := by rw [hq]; rfl
  have h₀ : ∀ n, ((Ztl.fresh oneNode Dev.blank).vnodes n).status ≠ .reset := fun n h => by cases h
  exact ⟨as, z, hr, hhead, ((stranded_run h₀ hr).2 0 _ hhead hst).mpr carriedOut_zero⟩

/-- **A node is stranded.**  When the first zone command of each of the three attempts fails, the
queue is empty and the node is still marked. -/
theorem node_stranded : ∃ as z z',
    Runs finishStep (fun z a => a.Carries z) (Ztl.fresh oneNode Dev.blank) as z ∧
      finishStep z (.mgmt fun _ _ => (1, 0)) = some z' ∧
      z'.submitHead = [] ∧ (z'.vnodes 0).status = .reset := by
  obtain ⟨as, z, hr, hq, hst⟩ := exists_marked
  have hhead : z.submitHead.head? = some (0, .resetZone) := by rw [hq]; rfl
  have hno : ¬ CarriedOut fun _ _ => (1, 0) := by
    rintro ⟨k, -, hk⟩
    cases hk 0 (by decide)
  obtain ⟨-, htail, hsame⟩ :=
    (ztlMgmtThdProcess_reset hhead fun _ _ => (1, 0)).resolve_left fun h => hno h.1
  refine ⟨as, z, _, hr, rfl, ?_, ?_⟩
  · rw [htail, hq]
    rfl
  · rw [hsame 0, hst]

end Xztl
