import Xztl.Zrocks.Ownership

/-!
# Zrocks — trims by several threads (`zrocks_trim`)

Deletions and garbage collection trim pieces of the same node from different threads.  Here a trim
is not one step: the atomic subtraction, the read of `nr_valid`, the read of `status`, the write of
`status` and the insertion into the management queue are, and between two of them any other thread
may run.  A trim that runs alone does what `zrocksTrim` does (`trim_alone`).

**The status is read in one step and written in a later one.**  As long as no trim reads the status
of a node while another one has found it full and not yet marked it, the node is queued once, after
its last live piece has been trimmed (`one_reset_run`).  `two_resets` is a run without that: two
trims both see the count at zero and the node full, and both queue it.
-/

namespace Xztl

open Function List

/-- The steps of `zrocks_trim` after the subtraction. -/
inductive TrimAt where
  | readValid | readStatus | mark | queue
deriving DecidableEq, Repr

/-- Where a thread stands: outside `zrocks_trim`, or in front of a step of the trim of a piece of
node `n`. -/
inductive TrimPc where
  | idle
  | busy (n : Nat) (p : TrimAt)
deriving DecidableEq, Repr

/-- The group, the live pieces that have not been trimmed, and the threads. -/
structure Trims where
  z : Ztl
  live : List ZrocksMap
  pc : Nat → TrimPc

/-- No thread is in a call. -/
def Trims.start (z : Ztl) (live : List ZrocksMap) : Trims := ⟨z, live, fun _ => .idle⟩

/-- Thread `t` moves on to `p`. -/
def Trims.goto (s : Trims) (t : Nat) (p : TrimPc) : Trims :=
  { s with pc := update s.pc t p }

/-- A thread begins to trim a piece, or makes the next step of its trim. -/
inductive TrimOp where
  | sub (t : Nat) (m : ZrocksMap)
  | advance (t : Nat)

/-- The subtraction. -/
def subValid (z : Ztl) (m : ZrocksMap) : Ztl :=
  let nd := z.vnodes m.nodeId
  z.setNode m.nodeId { nd with nrValid := (nd.nrValid + 2 ^ 64 - m.num.val) % 2 ^ 64 }

/-- The write of the status. -/
def markReset (z : Ztl) (n : Nat) : Ztl := z.setNode n { z.vnodes n with status := .reset }

/-- The step thread `t` stands in front of, in the trim of a piece of node `n`. -/
def trimSection (s : Trims) (t n : Nat) : TrimAt → Option Trims
  | .readValid =>
    some (s.goto t (if (s.z.vnodes n).nrValid = 0 then .busy n .readStatus else .idle))
  | .readStatus =>
    some (s.goto t (if (s.z.vnodes n).status = .full then .busy n .mark else .idle))
  | .mark =>
    some ({ s with z := markReset s.z n }.goto t (.busy n .queue))
  | .queue =>
    match ztlMgmtSubmitResetFinish s.z n .resetZone with
    | .ok (z, _) => some ({ s with z := z }.goto t .idle)
    | .error _ => none

/-- One step of one thread.  A live piece can be trimmed once. -/
def trimStep (s : Trims) : TrimOp → Option Trims
  | .sub t m =>
    if s.pc t = .idle ∧ m ∈ s.live then
      some ({ s with z := subValid s.z m, live := s.live.erase m }.goto t
        (.busy m.nodeId .readValid))
    else none
  | .advance t =>
    match s.pc t with
    | .idle => none
    | .busy n p => trimSection s t n p

/-- A trim that reads the status is the only one that has found the node full and not marked it. -/
def ReadsAlone (s : Trims) : TrimOp → Prop
  | .advance t => ∀ n, s.pc t = .busy n .readStatus → ∀ t', s.pc t' ≠ .busy n .mark
  | .sub _ _ => True

/-- The resets of node `n` in the queue. -/
def Trims.queued (s : Trims) (n : Nat) : Nat := s.z.submitHead.count (n, .resetZone)

variable {p : TrimAt} {z' : Ztl} {ret : Nat} {x : TrimPc}

section

variable {s s' : Trims} {t n : Nat}

@[simp] theorem Trims.goto_z (s : Trims) (t : Nat) (p : TrimPc) : (s.goto t p).z = s.z := rfl

@[simp] theorem Trims.goto_pc (s : Trims) (t : Nat) (p : TrimPc) : (s.goto t p).pc t = p :=
  update_self _ _ _

theorem advance_section (h : s.pc t = .busy n p) :
    trimStep s (.advance t) = trimSection s t n p := by
  simp only [trimStep, h]

theorem ztlMgmtSubmitResetFinish_cases {z : Ztl} {op : MgmtOp}
    (e : ztlMgmtSubmitResetFinish z n op = .ok (z', ret)) :
    z' = { z with submitHead := z.submitHead ++ [(n, op)] } := by
  rw [ztlMgmtSubmitResetFinish] at e
  split at e
  · cases e
    rfl
  · cases e

theorem trimStep_cases {a : TrimOp} (e : trimStep s a = some s') :
    (∃ t m, a = .sub t m ∧ s.pc t = .idle ∧ m ∈ s.live ∧
      s' = { s with z := subValid s.z m, live := s.live.erase m }.goto t
        (.busy m.nodeId .readValid)) ∨
    ∃ t n p, a = .advance t ∧ s.pc t = .busy n p ∧ s'.live = s.live ∧
      ((p = .readValid ∧ s' = s.goto t
          (if (s.z.vnodes n).nrValid = 0 then .busy n .readStatus else .idle)) ∨
        (p = .readStatus ∧ s' = s.goto t
          (if (s.z.vnodes n).status = .full then .busy n .mark else .idle)) ∨
        (p = .mark ∧ s' = { s with z := markReset s.z n }.goto t (.busy n .queue)) ∨
        (p = .queue ∧ s' = { s with z := { s.z with
          submitHead := s.z.submitHead ++ [(n, MgmtOp.resetZone)] } }.goto t .idle)) := by
  cases a with
  | sub t m =>
    rw [trimStep] at e
    obtain ⟨⟨hpc, hm⟩, e⟩ := Option.ite_none_right_eq_some.mp e
    cases e
    exact Or.inl ⟨t, m, rfl, hpc, hm, rfl⟩
  | advance t =>
    cases hpc : s.pc t with
    | idle =>
      simp only [trimStep, hpc] at e
      cases e
    | busy n p =>
      rw [advance_section hpc] at e
      refine Or.inr ⟨t, n, p, rfl, hpc, ?_⟩
      cases p with
      | readValid =>
        cases e
        exact ⟨rfl, Or.inl ⟨rfl, rfl⟩⟩
      | readStatus =>
        cases e
        exact ⟨rfl, Or.inr (Or.inl ⟨rfl, rfl⟩)⟩
      | mark =>
        cases e
        exact ⟨rfl, Or.inr (Or.inr (Or.inl ⟨rfl, rfl⟩))⟩
      | queue =>
        rw [trimSection] at e
        split at e
        · next z ret hs =>
          cases e
          cases ztlMgmtSubmitResetFinish_cases hs
          exact ⟨rfl, Or.inr (Or.inr (Or.inr ⟨rfl, rfl⟩))⟩
        · cases e

end

/-! ### One reset -/

/-- What holds of a node of `v` valid units, status `st` and `c` resets in the queue, between the
threads `pc`: a full node is marked by one thread at most, a marked node is in the queue or about to
be put there by one thread. -/
structure Once (n v : Nat) (st : NodeStatus) (c : Nat) (pc : Nat → TrimPc) : Prop where
  seen : ∀ t p, pc t = .busy n p → p ≠ .readValid → v = 0
  pending : v = 0 → st = .reset ∨ ∃ t p, pc t = .busy n p ∧ p ≠ .queue
  marked : st = .full ∨ st = .reset
  full : st = .full → c = 0 ∧ (∀ t, pc t ≠ .busy n .queue) ∧
    ∀ t t', pc t = .busy n .mark → pc t' = .busy n .mark → t = t'
  reset : st = .reset → v = 0 ∧ (∀ t, pc t ≠ .busy n .mark) ∧
    (c = 1 ∧ (∀ t, pc t ≠ .busy n .queue) ∨ c = 0 ∧ ∃! t, pc t = .busy n .queue)

section

variable {n v c t : Nat} {st : NodeStatus} {pc : Nat → TrimPc}

/-- The threads at a step after one of them has moved. -/
theorem update_busy {t' : Nat} : update pc t x t' = .busy n p ↔
      t' = t ∧ x = .busy n p ∨ t' ≠ t ∧ pc t' = .busy n p := by
  by_cases e : t' = t
  · rw [e, update_self]
    simp
  · rw [update_of_ne e]
    simp [e]

/-- A step of a thread that leaves the sets of threads in front of a mark and of an insertion as
they are. -/
theorem Once.step {v' : Nat} (h : Once n v st c pc) (hv : v = 0 → v' = 0)
    (hx : ∀ p, x = .busy n p → p ≠ .readValid → v' = 0)
    (hp : v' = 0 → st = .reset ∨ ∃ p, x = .busy n p ∧ p ≠ .queue)
    (hm : ∀ t', update pc t x t' = .busy n .mark ↔ pc t' = .busy n .mark)
    (hq : ∀ t', update pc t x t' = .busy n .queue ↔ pc t' = .busy n .queue) :
    Once n v' st c (update pc t x) where
  seen := by
    intro t' p e hne
    rcases update_busy.mp e with ⟨-, ex⟩ | ⟨-, e⟩
    · exact hx p ex hne
    · exact hv (h.seen t' p e hne)
  pending := by
    intro h0
    rcases hp h0 with hs | ⟨p, ex, hne⟩
    · exact Or.inl hs
    · exact Or.inr ⟨t, p, by rw [update_self, ex], hne⟩
  marked := h.marked
  full := by
    intro hs
    obtain ⟨hc, hnq, huniq⟩ := h.full hs
    exact ⟨hc, fun t' e => hnq t' ((hq t').mp e),
      fun t1 t2 e1 e2 => huniq t1 t2 ((hm t1).mp e1) ((hm t2).mp e2)⟩
  reset := by
    intro hs
    obtain ⟨h0, hnm, hone⟩ := h.reset hs
    refine ⟨hv h0, fun t' e => hnm t' ((hm t').mp e), ?_⟩
    simpa only [ne_eq, hq] using hone

/-- A thread that is at neither of two places is in neither set before or after. -/
theorem update_busy_iff (ht : pc t ≠ .busy n p) (hx : x ≠ .busy n p)
    (t' : Nat) : update pc t x t' = .busy n p ↔ pc t' = .busy n p := by
  rw [update_busy]
  constructor
  · rintro (⟨-, e⟩ | ⟨-, e⟩)
    · exact absurd e hx
    · exact e
  · intro e
    exact Or.inr ⟨fun et => ht (et ▸ e), e⟩

section

variable (h : Once n v st c pc)
include h

theorem Once.away (ht : ∀ p, pc t ≠ .busy n p) (hx : ∀ p, x ≠ .busy n p) :
    Once n v st c (update pc t x) where
  seen := by
    intro t' p e
    exact h.seen t' p ((update_busy_iff (ht p) (hx p) t').mp e)
  pending := by
    intro h0
    rcases h.pending h0 with hs | ⟨t', p, e, hne⟩
    · exact Or.inl hs
    · exact Or.inr ⟨t', p, (update_busy_iff (ht p) (hx p) t').mpr e, hne⟩
  marked := h.marked
  full := by
    intro hs
    simpa only [ne_eq, update_busy_iff (ht _) (hx _)] using h.full hs
  reset := by
    intro hs
    simpa only [ne_eq, update_busy_iff (ht _) (hx _)] using h.reset hs

/-- The subtraction: the trim that has just subtracted will look at the count. -/
theorem Once.sub {v' : Nat} (hv : v' ≤ v) (ht : pc t = .idle) :
    Once n v' st c (update pc t (.busy n .readValid)) := by
  have hne : ∀ p, pc t ≠ .busy n p := fun p e => by rw [ht] at e; cases e
  refine h.step (fun h0 => by omega) ?_ (fun _ => Or.inr ⟨_, rfl, by simp⟩)
    (update_busy_iff (hne _) (by simp)) (update_busy_iff (hne _) (by simp))
  rintro p e hp
  cases e
  exact absurd rfl hp

theorem Once.readValid (ht : pc t = .busy n .readValid) :
    Once n v st c (update pc t (if v = 0 then .busy n .readStatus else .idle)) := by
  by_cases h0 : v = 0
  · rw [if_pos h0]
    exact h.step id (fun _ _ _ => h0) (fun _ => Or.inr ⟨_, rfl, by simp⟩)
      (update_busy_iff (by simp [ht]) (by simp)) (update_busy_iff (by simp [ht]) (by simp))
  · rw [if_neg h0]
    exact h.step id (fun p e => by cases e) (fun e => absurd e h0)
      (update_busy_iff (by simp [ht]) (by simp)) (update_busy_iff (by simp [ht]) (by simp))

/-- The read of the status, with no other trim of the node in front of the mark. -/
theorem Once.readStatus (ht : pc t = .busy n .readStatus) (halone : ∀ t', pc t' ≠ .busy n .mark) :
    Once n v st c (update pc t (if st = .full then .busy n .mark else .idle)) := by
  have h0 : v = 0 := h.seen t _ ht (by simp)
  by_cases hs : st = .full
  · rw [if_pos hs]
    have hmark : ∀ t', update pc t (.busy n .mark) t' = .busy n .mark → t' = t := by
      intro t' e
      rcases update_busy.mp e with ⟨et, -⟩ | ⟨-, e⟩
      · exact et
      · exact absurd e (halone t')
    obtain ⟨hc, hnq, -⟩ := h.full hs
    refine ⟨fun _ _ _ _ => h0, fun _ => Or.inr ⟨t, _, update_self .., by simp⟩,
      h.marked, fun _ => ⟨hc, fun t' e => ?_, fun t1 t2 e1 e2 => ?_⟩, fun hr => ?_⟩
    · exact hnq t' ((update_busy_iff (by simp [ht]) (by simp) t').mp e)
    · rw [hmark t1 e1, hmark t2 e2]
    · rw [hs] at hr
      cases hr
  · rw [if_neg hs]
    exact h.step id (fun p e => by cases e) (fun _ => Or.inl (h.marked.resolve_left hs))
      (update_busy_iff (by simp [ht]) (by simp)) (update_busy_iff (by simp [ht]) (by simp))

theorem Once.mark (ht : pc t = .busy n .mark) :
    Once n v .reset c (update pc t (.busy n .queue)) := by
  have h0 : v = 0 := h.seen t _ ht (by simp)
  -- a marked node has no thread in front of the mark
  have hs : st = .full := h.marked.resolve_right fun hr => (h.reset hr).2.1 t ht
  obtain ⟨hc, hnq, huniq⟩ := h.full hs
  refine ⟨fun _ _ _ _ => h0, fun _ => Or.inl rfl, Or.inr rfl, (fun hf => by cases hf),
    fun _ => ⟨h0, fun t' e => ?_, Or.inr ⟨hc, t, update_self .., fun t' e => ?_⟩⟩⟩
  · rcases update_busy.mp e with ⟨-, e⟩ | ⟨hne, e⟩
    · cases e
    · exact hne (huniq t' t e ht)
  · rcases update_busy.mp e with ⟨et, -⟩ | ⟨-, e⟩
    · exact et
    · exact absurd e (hnq t')

theorem Once.queue (ht : pc t = .busy n .queue) : Once n v st (c + 1) (update pc t .idle) := by
  have hs : st = .reset := h.marked.resolve_left fun hf => (h.full hf).2.1 t ht
  obtain ⟨h0, hnm, hone⟩ := h.reset hs
  obtain ⟨hc, t1, -, huniq⟩ := hone.resolve_left fun hq => hq.2 t ht
  refine ⟨fun _ _ _ _ => h0, fun _ => Or.inl hs, h.marked,
    (fun hf => by rw [hs] at hf; cases hf), fun _ => ⟨h0, fun t' e => ?_, Or.inl ⟨by omega, ?_⟩⟩⟩
  · exact hnm t' ((update_busy_iff (by simp [ht]) (by simp) t').mp e)
  · intro t' e
    rcases update_busy.mp e with ⟨-, e⟩ | ⟨hne, e⟩
    · cases e
    · exact hne ((huniq t' e).trans (huniq t ht).symm)

end

end

/-- The count of node `n` is the sum of its live pieces, each of at least one unit, and the threads
mark and queue it once. -/
structure OneReset (n : Nat) (s : Trims) : Prop where
  valid : (s.z.vnodes n).nrValid = unitsOn s.live n
  lt : unitsOn s.live n < 2 ^ 64
  pos : ∀ m ∈ s.live, m.nodeId.val = n → 0 < m.num.val
  once : Once n (unitsOn s.live n) (s.z.vnodes n).status (s.queued n) s.pc

section

variable {s s' : Trims} {n : Nat}

/-- Nothing is live on a node whose pieces, each of at least one unit, have no unit. -/
theorem no_live_of_unitsOn {live : List ZrocksMap}
    (hpos : ∀ m ∈ live, m.nodeId.val = n → 0 < m.num.val) (h0 : unitsOn live n = 0) :
    ∀ m ∈ live, m.nodeId.val ≠ n := by
  intro m hm hn
  have hp := hpos m hm hn
  rw [unitsOn_perm (perm_cons_erase hm), unitsOn_cons, if_pos hn] at h0
  omega

theorem OneReset.sub (h : OneReset n s) {t : Nat} {m : ZrocksMap} (ht : s.pc t = .idle)
    (hm : m ∈ s.live) :
    OneReset n ({ s with z := subValid s.z m, live := s.live.erase m }.goto t
      (.busy m.nodeId .readValid)) := by
  have hpos : ∀ m' ∈ s.live.erase m, m'.nodeId.val = n → 0 < m'.num.val :=
    fun m' hm' => h.pos m' (mem_of_mem_erase hm')
  by_cases hn : m.nodeId.val = n
  · subst hn
    have hu := unitsOn_perm (perm_cons_erase hm) m.nodeId
    rw [unitsOn_cons, if_pos rfl] at hu
    have hlt := h.lt
    have hv : (((subValid s.z m).vnodes m.nodeId).nrValid) = unitsOn (s.live.erase m) m.nodeId := by
      rw [subValid, Ztl.setNode_self]
      show ((s.z.vnodes m.nodeId).nrValid + 2 ^ 64 - m.num.val) % 2 ^ 64 = _
      rw [h.valid]
      omega
    have hst : ((subValid s.z m).vnodes m.nodeId).status = (s.z.vnodes m.nodeId).status := by
      rw [subValid, Ztl.setNode_self]
    refine ⟨hv, ?_, hpos, ?_⟩
    · show unitsOn (s.live.erase m) m.nodeId < 2 ^ 64
      omega
    · have hle : unitsOn (s.live.erase m) m.nodeId ≤ unitsOn s.live m.nodeId := by omega
      have ho := h.once.sub hle ht
      rw [← hst] at ho
      exact ho
  · have hz : (subValid s.z m).vnodes n = s.z.vnodes n :=
      Ztl.setNode_of_ne _ _ (Ne.symm hn)
    have hu : unitsOn (s.live.erase m) n = unitsOn s.live n := unitsOn_erase_other hm hn
    have ho := h.once.away (t := t) (x := .busy m.nodeId .readValid)
      (fun p e => by rw [ht] at e; cases e) (fun p e => by cases e; exact hn rfl)
    refine ⟨?_, ?_, hpos, ?_⟩
    · exact (congrArg Node.nrValid hz).trans (h.valid.trans hu.symm)
    · exact hu.symm ▸ h.lt
    · rw [← hu, ← hz] at ho
      exact ho

/-- The count and the live pieces are as before, and the thread has moved. -/
theorem OneReset.moved (h : OneReset n s) (hv : (s'.z.vnodes n).nrValid = (s.z.vnodes n).nrValid)
    (hl : s'.live = s.live)
    (ho : Once n (unitsOn s.live n) (s'.z.vnodes n).status (s'.queued n) s'.pc) :
    OneReset n s' := by
  refine ⟨?_, ?_, ?_, ?_⟩ <;> rw [hl]
  · exact hv.trans h.valid
  · exact h.lt
  · exact h.pos
  · exact ho

theorem OneReset.step {a : TrimOp} (h : OneReset n s) (hg : ReadsAlone s a)
    (e : trimStep s a = some s') : OneReset n s' := by
  obtain ⟨t, m, rfl, ht, hm, rfl⟩ | ⟨t, k, p, rfl, ht, -, hp⟩ := trimStep_cases e
  · exact h.sub ht hm
  · by_cases hk : k = n
    · subst hk
      rcases hp with ⟨rfl, rfl⟩ | ⟨rfl, rfl⟩ | ⟨rfl, rfl⟩ | ⟨rfl, rfl⟩
      · refine h.moved rfl rfl ?_
        have ho := h.once.readValid ht
        rw [← h.valid] at ho ⊢
        exact ho
      · exact h.moved rfl rfl (h.once.readStatus ht (hg k ht))
      · refine h.moved ?_ rfl ?_
        · rw [Trims.goto_z, markReset, Ztl.setNode_self]
        · rw [Trims.goto_z, markReset, Ztl.setNode_self]
          exact h.once.mark ht
      · refine h.moved rfl rfl ?_
        have hc : ({ s with z := { s.z with submitHead := s.z.submitHead
            ++ [(k, MgmtOp.resetZone)] } }.goto t .idle).queued k = s.queued k + 1 := by
          simp [Trims.queued, Trims.goto]
        rw [hc]
        exact h.once.queue ht
    · -- a step of a trim of another node
      have hne : ∀ q, s.pc t ≠ .busy n q := fun q e => by
        rw [ht] at e
        cases e
        exact hk rfl
      rcases hp with ⟨rfl, rfl⟩ | ⟨rfl, rfl⟩ | ⟨rfl, rfl⟩ | ⟨rfl, rfl⟩
      · refine h.moved rfl rfl (h.once.away hne fun q => ?_)
        split <;> simp [hk]
      · refine h.moved rfl rfl (h.once.away hne fun q => ?_)
        split <;> simp [hk]
      · have hz : (markReset s.z k).vnodes n = s.z.vnodes n :=
          Ztl.setNode_of_ne s.z _ (Ne.symm hk)
        refine h.moved (congrArg Node.nrValid hz) rfl ?_
        rw [Trims.goto_z, show (⟨markReset s.z k, s.live, s.pc⟩ : Trims).z.vnodes n = _ from hz]
        exact h.once.away hne fun q => by simp [hk]
      · refine h.moved rfl rfl ?_
        have hc : ({ s with z := { s.z with submitHead := s.z.submitHead
            ++ [(k, MgmtOp.resetZone)] } }.goto t .idle).queued n = s.queued n := by
          simp [Trims.queued, Trims.goto, hk]
        rw [hc]
        exact h.once.away hne fun q => by simp

end

/-! ### A trim that runs alone -/

section

variable {s : Trims} {t : Nat} {m : ZrocksMap}

theorem Trims.goto_goto (s : Trims) (t : Nat) (p q : TrimPc) :
    (s.goto t p).goto t q = s.goto t q := by
  rw [goto, goto, goto]
  exact congrArg (Trims.mk s.z s.live) (update_idem ..)

theorem Trims.goto_back (s : Trims) {p : TrimPc} (h : s.pc t = p) : s.goto t p = s := by
  rw [goto, ← h, update_eq_self]

/-- A thread that is alone in front of the mark of node `n` takes the step it stands in front of. -/
theorem runs_advance {s1 s' : Trims} {as : List TrimOp}
    (hpc : s.pc t = .busy n p) (hnone : ∀ t', s.pc t' ≠ .busy n .mark ∨ p ≠ .readStatus)
    (e : trimSection s t n p = some s1) (hr : Runs trimStep ReadsAlone s1 as s') :
    Runs trimStep ReadsAlone s (.advance t :: as) s' := by
  refine .cons (fun k hk t' => ?_) ((advance_section hpc).trans e) hr
  rw [hpc] at hk
  cases hk
  exact (hnone t').resolve_right fun h => h rfl

/-- `zrocks_trim` is the subtraction, then the test. -/
theorem zrocksTrim_subValid (z : Ztl) (m : ZrocksMap) :
    zrocksTrim z m =
      if ((subValid z m).vnodes m.nodeId).nrValid = 0 ∧
          ((subValid z m).vnodes m.nodeId).status = .full then
        ztlMgmtSubmitResetFinish (markReset (subValid z m) m.nodeId) m.nodeId .resetZone
      else .ok (subValid z m, xztlOk) := by
  simp only [markReset, subValid, Ztl.setNode_self]
  simp only [Ztl.setNode, update_idem]
  rfl

/-- The steps after the subtraction. -/
theorem test_alone (ht : s.pc t = .idle) (hnone : ∀ t', s.pc t' ≠ .busy n .mark)
    (e : (if (s.z.vnodes n).nrValid = 0 ∧ (s.z.vnodes n).status = .full then
        ztlMgmtSubmitResetFinish (markReset s.z n) n .resetZone
      else .ok (s.z, xztlOk)) = .ok (z', ret)) :
    ∃ k, Runs trimStep ReadsAlone (s.goto t (.busy n .readValid)) (List.replicate k (.advance t))
      { s with z := z' } := by
  have hback : s.goto t .idle = s := s.goto_back ht
  have hgoto : ∀ t', (s.goto t (.busy n .readStatus)).pc t' ≠ .busy n .mark := fun t' e =>
    hnone t' ((update_busy_iff (by simp [ht]) (by simp) t').mp e)
  by_cases h0 : (s.z.vnodes n).nrValid = 0
  · have e1 : trimSection (s.goto t (.busy n .readValid)) t n .readValid
        = some (s.goto t (.busy n .readStatus)) := by
      rw [trimSection, Trims.goto_z, if_pos h0, Trims.goto_goto]
    by_cases hf : (s.z.vnodes n).status = .full
    · rw [if_pos ⟨h0, hf⟩] at e
      have e2 : trimSection (s.goto t (.busy n .readStatus)) t n .readStatus
          = some (s.goto t (.busy n .mark)) := by
        rw [trimSection, Trims.goto_z, if_pos hf, Trims.goto_goto]
      have e3 : trimSection (s.goto t (.busy n .mark)) t n .mark
          = some ({ s with z := markReset s.z n }.goto t (.busy n .queue)) :=
        congrArg some (Trims.goto_goto { s with z := _ } t _ _)
      have e4 : trimSection ({ s with z := markReset s.z n }.goto t (.busy n .queue)) t n .queue
          = some { s with z := z' } := by
        rw [trimSection, Trims.goto_z, e]
        refine congrArg some ((Trims.goto_goto { s with z := z' } t _ _).trans ?_)
        exact Trims.goto_back { s with z := z' } ht
      exact ⟨4, runs_advance (Trims.goto_pc ..) (fun _ => Or.inr (by simp)) e1
        (runs_advance (Trims.goto_pc ..) (fun t' => Or.inl (hgoto t')) e2
          (runs_advance (Trims.goto_pc ..) (fun _ => Or.inr (by simp)) e3
            (runs_advance (Trims.goto_pc ..) (fun _ => Or.inr (by simp)) e4 (.nil _))))⟩
    · rw [if_neg fun h => hf h.2] at e
      cases e
      have e2 : trimSection (s.goto t (.busy n .readStatus)) t n .readStatus = some s := by
        rw [trimSection, Trims.goto_z, if_neg hf, Trims.goto_goto, hback]
      exact ⟨2, runs_advance (Trims.goto_pc ..) (fun _ => Or.inr (by simp)) e1
        (runs_advance (Trims.goto_pc ..) (fun t' => Or.inl (hgoto t')) e2 (.nil _))⟩
  · rw [if_neg fun h => h0 h.1] at e
    cases e
    have e1 : trimSection (s.goto t (.busy n .readValid)) t n .readValid = some s := by
      rw [trimSection, Trims.goto_z, if_neg h0, Trims.goto_goto, hback]
    exact ⟨1, runs_advance (Trims.goto_pc ..) (fun _ => Or.inr (by simp)) e1 (.nil _)⟩

/-- **The steps of one trim, with no step of another thread between them, are `zrocksTrim`.** -/
theorem trim_alone (ht : s.pc t = .idle) (hm : m ∈ s.live)
    (hnone : ∀ t', s.pc t' ≠ .busy m.nodeId .mark) (e : zrocksTrim s.z m = .ok (z', ret)) :
    ∃ k, Runs trimStep ReadsAlone s (.sub t m :: List.replicate k (.advance t))
      ⟨z', s.live.erase m, s.pc⟩ := by
  rw [zrocksTrim_subValid] at e
  obtain ⟨k, hr⟩ := test_alone (s := ⟨subValid s.z m, s.live.erase m, s.pc⟩) ht hnone e
  refine ⟨k, .cons trivial ?_ hr⟩
  rw [trimStep, if_pos ⟨ht, hm⟩]

/-- A trim of the sequential group is a run of one thread. -/
theorem zstep_trim_run {a a' : ZState} (e : zstep a (.trim m) = some a') :
    ∃ as, Runs trimStep ReadsAlone (Trims.start a.z a.live) as (Trims.start a'.z a'.live) := by
  rw [zstep] at e
  obtain ⟨hm, e⟩ := Option.ite_none_right_eq_some.mp e
  split at e
  · next z' ret hz =>
    cases e
    obtain ⟨k, hr⟩ := trim_alone (s := Trims.start a.z a.live) (t := 0) rfl hm
      (fun _ h => by cases h) hz
    exact ⟨_, hr⟩
  · cases e

end

/-! ### Runs -/

/-- Node `n` is in the queue once at most, only when it has no live piece left, and it is there when
it has none left and its trims have returned. -/
def QueuedOnce (n : Nat) (s : Trims) : Prop :=
  s.queued n ≤ 1 ∧ (s.queued n = 1 → ∀ m ∈ s.live, m.nodeId.val ≠ n) ∧
    ((∀ m ∈ s.live, m.nodeId.val ≠ n) → (∀ t p, s.pc t ≠ .busy n p) → s.queued n = 1)

theorem OneReset.queuedOnce {s : Trims} (h : OneReset n s) : QueuedOnce n s := by
  rcases h.once.marked with hs | hs
  · obtain ⟨hc, hnq, -⟩ := h.once.full hs
    refine ⟨by omega, fun h1 => by omega, fun hno hidle => ?_⟩
    rcases h.once.pending (unitsOn_eq_zero hno) with hr | ⟨t, p, e, -⟩
    · rw [hs] at hr
      cases hr
    · exact absurd e (hidle t p)
  · obtain ⟨h0, -, ⟨hc, -⟩ | ⟨hc, t, e, -⟩⟩ := h.once.reset hs
    · exact ⟨by omega, fun _ => no_live_of_unitsOn h.pos h0, fun _ _ => hc⟩
    · exact ⟨by omega, fun h1 => by omega, fun _ hidle => absurd e (hidle t _)⟩

section

variable {z : Ztl} {live : List ZrocksMap} {n : Nat}

/-- A full node with live pieces, before any trim. -/
theorem OneReset.start (hfull : (z.vnodes n).status = .full)
    (hq : z.submitHead.count (n, .resetZone) = 0) (hv : (z.vnodes n).nrValid = unitsOn live n)
    (hlt : (z.vnodes n).nrValid < 2 ^ 64)
    (hpos : ∀ m ∈ live, m.nodeId.val = n → 0 < m.num.val) (hlive : ∃ m ∈ live, m.nodeId.val = n) :
    OneReset n (Trims.start z live) where
  valid := hv
  lt := hv ▸ hlt
  pos := hpos
  once := by
    have hidle : ∀ t p, (Trims.start z live).pc t ≠ .busy n p := fun _ _ e => by cases e
    refine ⟨fun t p e => absurd e (hidle t p), fun h0 => ?_, Or.inl hfull,
      fun _ => ⟨hq, fun t => hidle t _, fun t _ e => absurd e (hidle t _)⟩, fun hr => ?_⟩
    · obtain ⟨m, hm, hn⟩ := hlive
      exact absurd hn (no_live_of_unitsOn hpos h0 m hm)
    · rw [show (Trims.start z live).z = z from rfl, hfull] at hr
      cases hr

/-- **Every interleaving of trims of a full node queues it once, after its last live piece**, if no
trim reads its status while another one has found it full and not yet marked it. -/
theorem one_reset_run {as : List TrimOp} {s : Trims} (hfull : (z.vnodes n).status = .full)
    (hq : z.submitHead.count (n, .resetZone) = 0) (hv : (z.vnodes n).nrValid = unitsOn live n)
    (hlt : (z.vnodes n).nrValid < 2 ^ 64)
    (hpos : ∀ m ∈ live, m.nodeId.val = n → 0 < m.num.val) (hlive : ∃ m ∈ live, m.nodeId.val = n)
    (hr : Runs trimStep ReadsAlone (Trims.start z live) as s) : QueuedOnce n s :=
  (hr.invariant (I := OneReset n) (fun _ _ _ h hg e => h.step hg e)
    (OneReset.start hfull hq hv hlt hpos hlive)).queuedOnce

end

/-! ### The race -/

/-- Two pieces are left on the full node. -/
theorem exists_two_left (dev : Dev) :
    ∃ as s, Runs zstep ResetIdle (ZState.fresh oneNode dev) as s ∧
      Draining [bigPiece 190, bigPiece 191] s := by
  refine exists_draining dev ((List.range 190).map bigPiece) ?_
  rw [show 192 = 190 + 1 + 1 from rfl, range_succ, range_succ, map_append,
    map_append, append_assoc]
  rfl

/-- The node before the trims of its pieces. -/
theorem Draining.oneReset {m : ZrocksMap} {rest : List ZrocksMap} {s : ZState}
    (h : Draining (m :: rest) s) :
    (s.z.vnodes 0).status = .full ∧ s.z.submitHead.count (0, .resetZone) = 0 ∧
      (s.z.vnodes 0).nrValid = unitsOn s.live 0 ∧ (s.z.vnodes 0).nrValid < 2 ^ 64 ∧
      (∀ m ∈ s.live, m.nodeId.val = 0 → 0 < m.num.val) ∧ ∃ m ∈ s.live, m.nodeId.val = 0 := by
  obtain ⟨hfull, hqueue⟩ := h.full (by simp)
  obtain ⟨parts, ha⟩ := h.sound.alloc
  have hlt : 0 < s.z.nnodes := by rw [h.one]; omega
  have hle := h.sound.acc.le 0 hlt
  have hb := ha.balance 0 hlt
  rw [ztlProOptSecNumInnode_eq] at hb
  have hbig : ∀ m' ∈ s.live, ∃ j, m' = bigPiece j := h.live ▸ h.big
  refine ⟨hfull, by rw [hqueue]; rfl, h.sound.acc.valid 0 hlt, by omega, fun m' hm' _ => ?_,
    m, by rw [h.live]; exact mem_cons_self, ?_⟩
  · obtain ⟨j, rfl⟩ := hbig m' hm'
    rw [bigPiece_num]
    omega
  · obtain ⟨j, rfl⟩ := h.big m mem_cons_self
    exact bigPiece_nodeId j

/-- A full node has two pieces left; they are trimmed one after the other, and the node is queued once
for its reset. -/
theorem one_reset_run_two : ∃ as s, Runs zstep ResetIdle (ZState.fresh oneNode Dev.blank) as s ∧
    ∃ as' s', Runs trimStep ReadsAlone (Trims.start s.z s.live) as' s' ∧
      s.live.length = 2 ∧ s'.live = [] ∧ QueuedOnce 0 s' := by
  obtain ⟨as, s, hr, hd⟩ := exists_two_left Dev.blank
  obtain ⟨s₁, e₁, hd₁⟩ := hd.step
  obtain ⟨s₂, e₂, hd₂⟩ := hd₁.step
  obtain ⟨hfull, hq, hv, hlt, hpos, hlive⟩ := hd.oneReset
  obtain ⟨as₁, hr₁⟩ := zstep_trim_run e₁
  obtain ⟨as₂, hr₂⟩ := zstep_trim_run e₂
  exact ⟨as, s, hr, _, _, hr₁.append hr₂, congrArg List.length hd.live, hd₂.live,
    one_reset_run hfull hq hv hlt hpos hlive (hr₁.append hr₂)⟩

section

variable {s : Trims} {t n : Nat}

/-- The test of a full node without valid units. -/
theorem advance_readValid (h : s.pc t = .busy n .readValid) (h0 : (s.z.vnodes n).nrValid = 0) :
    trimStep s (.advance t) = some (s.goto t (.busy n .readStatus)) := by
  rw [advance_section h, trimSection, if_pos h0]

theorem advance_readStatus (h : s.pc t = .busy n .readStatus)
    (hf : (s.z.vnodes n).status = .full) :
    trimStep s (.advance t) = some (s.goto t (.busy n .mark)) := by
  rw [advance_section h, trimSection, if_pos hf]

theorem advance_queue (h : s.pc t = .busy n .queue)
    (e : ztlMgmtSubmitResetFinish s.z n .resetZone = .ok (z', ret)) :
    trimStep s (.advance t) = some ({ s with z := z' }.goto t .idle) := by
  rw [advance_section h, trimSection, e]

/-- **Two trims that both see the count at zero and the node full both queue it.** -/
theorem both_queue (hp₀ : s.pc 0 = .busy n .readValid) (hp₁ : s.pc 1 = .busy n .readValid)
    (h0 : (s.z.vnodes n).nrValid = 0) (hf : (s.z.vnodes n).status = .full)
    (hq : s.z.submitHead = []) : ∃ as s', Runs trimStep (fun _ _ => True) s as s' ∧
      s'.live = s.live ∧ s'.queued n = 2 := by
  have e₁ : ztlMgmtSubmitResetFinish (markReset (markReset s.z n) n) n .resetZone
      = .ok ({ markReset (markReset s.z n) n with submitHead := [(n, .resetZone)] }, 0) := by
    rw [ztlMgmtSubmitResetFinish, show (markReset (markReset s.z n) n).submitHead = [] from hq]
    rfl
  refine ⟨_, _, .cons trivial (advance_readValid (t := 0) hp₀ h0) <|
    .cons trivial (advance_readValid (t := 1) hp₁ h0) <|
    .cons trivial (advance_readStatus (t := 0) rfl hf) <|
    .cons trivial (advance_readStatus (t := 1) rfl hf) <|
    .cons trivial (advance_section (p := .mark) (t := 0) rfl) <|
    .cons trivial (advance_section (p := .mark) (t := 1) rfl) <|
    .cons trivial (advance_queue (t := 0) rfl e₁) <|
    .one trivial (advance_queue (t := 1) rfl rfl), rfl, ?_⟩
  show List.count (n, MgmtOp.resetZone) [(n, .resetZone), (n, .resetZone)] = 2
  rw [count_cons_self, count_cons_self, count_nil]

end

/-- The two last pieces of a full node are trimmed by two threads: both subtract, then both test. -/
theorem two_resets : ∃ as s, Runs zstep ResetIdle (ZState.fresh oneNode Dev.blank) as s ∧
    (s.z.vnodes 0).status = .full ∧ s.z.submitHead.count (0, .resetZone) = 0 ∧
    (s.z.vnodes 0).nrValid = unitsOn s.live 0 ∧ s.live = [bigPiece 190, bigPiece 191] ∧
    ∃ as' s', Runs trimStep (fun _ _ => True) (Trims.start s.z s.live) as' s' ∧ s'.live = [] ∧
      s'.queued 0 = 2 ∧ ¬ QueuedOnce 0 s' := by
  obtain ⟨as, s, hr, hd⟩ := exists_two_left Dev.blank
  obtain ⟨hfull, hq, hv, -⟩ := hd.oneReset
  refine ⟨as, s, hr, hfull, hq, hv, hd.live, ?_⟩
  have hhead := (hd.full (by simp)).2
  have hunits : (s.z.vnodes 0).nrValid = 1024 + 1024 := by rw [hv, hd.live]; rfl
  have hsub : ∀ (z : Ztl) (j : Nat), (subValid z (bigPiece j)).vnodes 0
      = { z.vnodes 0 with nrValid := ((z.vnodes 0).nrValid + 2 ^ 64 - 1024) % 2 ^ 64 } :=
    fun z j => Ztl.setNode_self ..
  obtain ⟨z₂, hz₂⟩ : ∃ z₂, z₂ = subValid (subValid s.z (bigPiece 190)) (bigPiece 191) := ⟨_, rfl⟩
  have h0 : (z₂.vnodes 0).nrValid = 0 := by
    rw [hz₂, hsub, hsub]
    show ((((s.z.vnodes 0).nrValid + 2 ^ 64 - 1024) % 2 ^ 64) + 2 ^ 64 - 1024) % 2 ^ 64 = 0
    omega
  have hf : (z₂.vnodes 0).status = .full := by
    rw [hz₂, hsub, hsub]
    exact hfull
  have hq₂ : z₂.submitHead = [] := by
    rw [hz₂]
    exact hhead
  obtain ⟨as', s', hr', hlive, htwo⟩ := both_queue (n := 0)
    (s := ((⟨z₂, [], fun _ => .idle⟩ : Trims).goto 0 (.busy 0 .readValid)).goto 1
      (.busy 0 .readValid)) rfl rfl h0 hf hq₂
  have e₀ : trimStep ⟨s.z, [bigPiece 190, bigPiece 191], fun _ => .idle⟩ (.sub 0 (bigPiece 190))
      = some ((⟨subValid s.z (bigPiece 190), [bigPiece 191], fun _ => .idle⟩ : Trims).goto 0
        (.busy 0 .readValid)) := by
    rw [trimStep, if_pos ⟨rfl, mem_cons_self⟩]
    rfl
  have e₁ : trimStep ((⟨subValid s.z (bigPiece 190), [bigPiece 191], fun _ => .idle⟩ : Trims).goto 0
      (.busy 0 .readValid)) (.sub 1 (bigPiece 191)) = some (((⟨z₂, [], fun _ => .idle⟩ : Trims).goto 0
        (.busy 0 .readValid)).goto 1 (.busy 0 .readValid)) := by
    rw [trimStep, if_pos ⟨rfl, mem_cons_self⟩, hz₂]
    rfl
  refine ⟨.sub 0 (bigPiece 190) :: .sub 1 (bigPiece 191) :: as', s', ?_, hlive, htwo, fun h => ?_⟩
  · rw [hd.live]
    exact .cons trivial e₀ (.cons trivial e₁ hr')
  · have := h.1
    omega

end Xztl
