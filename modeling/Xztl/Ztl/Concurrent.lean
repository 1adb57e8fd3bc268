import Xztl.Ztl.Init

/-!
# Ztl — node allocation by several threads (`ztl-pro-grp.c`, `ztl_pro_grp_get_node`)

Every write queue has a thread of its own (`ztl_io_write_th`), and all of them call
`ztl_pro_grp_get_node` on the same group.  Here a call is not one step: each section between a lock
and its unlock is, and so is the final `ATOMIC_SUB` of `nfree`; between two sections any other
thread may run.  A thread that runs alone does what `ztlProGrpGetNode` does (`sections_alone`).

**The head of the free list is chosen in one section and removed in the next.**  As long as no
queue chooses while another one has chosen and not yet removed, every node is handed out once
(`exclusive_run`).  `exclusive_lost` is the shortest run without that: two queues choose the same
node, unlink it twice, and `nfree` wraps around.
-/

namespace Xztl

open Function List
open TailQueue (Queues)

/-- Where the thread of a queue stands: outside `ztl_pro_grp_get_node`, or in front of one of its
sections. -/
inductive Pc where
  | idle | unlink | file | choose | remove | link | count
deriving DecidableEq, Repr

/-- The group, the threads, and two histories the code does not keep: the nodes removed from the
free list, and the calls that have returned a new node, latest first. -/
structure Threads where
  z : Ztl
  pc : Nat → Pc
  removed : List Nat
  handed : List (Nat × Nat)

/-- No thread is in a call. -/
def Threads.start (z : Ztl) : Threads := ⟨z, fun _ => .idle, [], []⟩

/-- The thread of queue `q` moves on to `p`. -/
def Threads.goto (s : Threads) (q : Nat) (p : Pc) : Threads :=
  { s with pc := update s.pc q p }

/-- A call begins, the next section of a call runs, or the queue writes `num` units of its
node between two calls. -/
inductive ThreadOp where
  | call (q : Nat)
  | advance (q : Nat)
  | write (q num : Nat)
deriving DecidableEq, Repr

/-- The test at the top of `ztl_pro_grp_get_node`. -/
def needsNode (z : Ztl) (q : Nat) : Bool :=
  match z.qnode q with
  | none => true
  | some n => (z.vnodes n).left == 0

/-- The section the thread of queue `q` stands in front of, `n` being `q->node`. -/
def getNodeSection (s : Threads) (q n : Nat) : Pc → Option Threads
  | .idle => none
  | .unlink =>
    some ({ s with z := { s.z with lists := s.z.lists.remove .usedHead n } }.goto q .file)
  | .file =>
    some ({ s with z := { s.z with lists := s.z.lists.insertTail .fullHead n } }.goto q .choose)
  | .choose =>
    let first := (s.z.lists.head .freeHead).first
    let s := { s with z := { s.z with qnode := update s.z.qnode q first } }
    -- without a free node the call returns `XZTL_ZTL_PROV_ERR`
    some (s.goto q (if first = none then .idle else .remove))
  | .remove =>
    some ({ s with
      z := { s.z with lists := s.z.lists.remove .freeHead n }
      removed := n :: s.removed }.goto q .link)
  | .link =>
    let z := { s.z with lists := s.z.lists.insertTail .usedHead n }
    some ({ s with z := z.setNode n { z.vnodes n with status := .used } }.goto q .count)
  | .count =>
    some ({ s with
      z := { s.z with nfree := (s.z.nfree + 2 ^ 32 - 1) % 2 ^ 32 }
      handed := (q, n) :: s.handed }.goto q .idle)

/-- One step of one thread. -/
def threadStep (s : Threads) : ThreadOp → Option Threads
  | .call q =>
    if s.pc q = .idle then
      if needsNode s.z q then
        some (s.goto q (if s.z.qnode q = none then .choose else .unlink))
      else some s
    else none
  | .advance q => getNodeSection s q ((s.z.qnode q).getD 0) (s.pc q)
  | .write q num =>
    match s.pc q, s.z.qnode q with
    | .idle, some n =>
      if num ≤ (s.z.vnodes n).left then
        some { s with z := s.z.setNode n ((s.z.vnodes n).wrote num) }
      else none
    | _, _ => none

/-- A queue that chooses is the only one with a node chosen and not removed. -/
def ChoosesAlone (s : Threads) : ThreadOp → Prop
  | .advance q => s.pc q = .choose → ∀ q', s.pc q' ≠ .remove
  | _ => True

/-! ### A thread that runs alone -/

section

variable {s : Threads} {q n : Nat}

@[simp] theorem Threads.goto_z (s : Threads) (q : Nat) (p : Pc) : (s.goto q p).z = s.z := rfl

@[simp] theorem Threads.goto_pc (s : Threads) (q : Nat) (p : Pc) : (s.goto q p).pc q = p :=
  update_self _ _ _

theorem Threads.goto_pc_of_ne (s : Threads) {q q' : Nat} (p : Pc) (h : q' ≠ q) :
    (s.goto q p).pc q' = s.pc q' := update_of_ne h _ _

theorem advance_eq {p : Pc} (h : s.pc q = p) (hq : s.z.qnode q = some n) :
    threadStep s (.advance q) = getNodeSection s q n p := by
  rw [threadStep, h, hq]
  rfl

/-- The three sections after the choice. -/
theorem remove_alone (h : s.pc q = .remove) (hq : s.z.qnode q = some n) :
    ∃ s', Runs threadStep (fun _ _ => True) s (List.replicate 3 (.advance q)) s' ∧
      s'.pc q = .idle ∧ s'.z = { s.z with
        vnodes := update s.z.vnodes n { s.z.vnodes n with status := .used }
        lists := (s.z.lists.remove .freeHead n).insertTail .usedHead n
        nfree := (s.z.nfree + 2 ^ 32 - 1) % 2 ^ 32 } := by
  have hr := Runs.cons (G := fun _ _ => True) trivial (advance_eq h hq)
    (Runs.cons trivial (advance_eq (Threads.goto_pc _ _ _) hq)
      (Runs.one trivial (advance_eq (Threads.goto_pc _ _ _) hq)))
  exact ⟨_, hr, Threads.goto_pc _ _ _, rfl⟩

theorem choose_alone (h : s.pc q = .choose) :
    ∃ k s', Runs threadStep (fun _ _ => True) s (List.replicate k (.advance q)) s' ∧
      s'.pc q = .idle ∧
      ((s.z.lists.head .freeHead).first = none ∧
          s'.z = { s.z with qnode := update s.z.qnode q none } ∨
        ∃ n, (s.z.lists.head .freeHead).first = some n ∧ s'.z = take s.z q n) := by
  have e : threadStep s (.advance q) = some ({ s with z := { s.z with
      qnode := update s.z.qnode q (s.z.lists.head .freeHead).first } }.goto q
        (if (s.z.lists.head .freeHead).first = none then .idle else .remove)) := by
    rw [threadStep, h, getNodeSection]
  cases hf : (s.z.lists.head .freeHead).first with
  | none =>
    rw [hf, if_pos rfl] at e
    exact ⟨1, _, Runs.one trivial e, Threads.goto_pc _ _ _, Or.inl ⟨rfl, rfl⟩⟩
  | some n =>
    rw [hf, if_neg (by simp)] at e
    have hq : update s.z.qnode q (some n) q = some n := update_self _ _ _
    obtain ⟨s', hr, hpc, hz⟩ := remove_alone (Threads.goto_pc _ _ _)
      (show (Threads.goto { s with z := { s.z with
        qnode := update s.z.qnode q (some n) } } q .remove).z.qnode q = some n from hq)
    exact ⟨4, s', .cons trivial e hr, hpc, Or.inr ⟨n, rfl, hz⟩⟩

/-- **A thread that runs alone** does what the sequential model says. -/
theorem sections_alone (h : s.pc q = .idle) :
    ∃ k s', Runs threadStep (fun _ _ => True) s (.call q :: List.replicate k (.advance q)) s' ∧
      s'.pc q = .idle ∧ s'.z = (ztlProGrpGetNode s.z q).1 := by
  rcases ztlProGrpGetNode_cases s.z q with ⟨n, hq, hl, e⟩ | ⟨z1, ⟨hq, rfl⟩ | ⟨n, hq, hl, rfl⟩, h2⟩
  · -- the node has room
    refine ⟨0, s, Runs.one trivial ?_, h, by rw [e]⟩
    simp [threadStep, h, needsNode, hq, hl]
  · have ec : threadStep s (.call q) = some (s.goto q .choose) := by
      simp [threadStep, h, needsNode, hq]
    obtain ⟨k, s', hr, hpc, hz⟩ := choose_alone (s.goto_pc q .choose)
    refine ⟨k, s', .cons trivial ec hr, hpc, ?_⟩
    rcases h2 with ⟨hf, e⟩ | ⟨n, hf, e⟩ <;> rcases hz with ⟨hf', hz⟩ | ⟨n', hf', hz⟩
    · have hself : update s.z.qnode q none = s.z.qnode := by
        rw [← hq, update_eq_self]
      rw [e, hz, Threads.goto_z, hself]
    · cases hf.symm.trans hf'
    · cases hf.symm.trans hf'
    · cases hf.symm.trans hf'
      rw [e, hz]
      rfl
  · have ec : threadStep s (.call q) = some (s.goto q .unlink) := by
      simp [threadStep, h, needsNode, hq, hl]
    obtain ⟨s2, hs2⟩ : ∃ s2 : Threads, s2 = ({ s with z := { s.z with
        lists := (s.z.lists.remove .usedHead n).insertTail .fullHead n } }.goto q .choose) :=
      ⟨_, rfl⟩
    obtain ⟨k, s', hr, hpc, hz⟩ := choose_alone (show s2.pc q = .choose by rw [hs2, Threads.goto_pc])
    have e1 : threadStep (s.goto q .unlink) (.advance q) = some ({ s with z := { s.z with
        lists := s.z.lists.remove .usedHead n } }.goto q .file) := by
      rw [threadStep, Threads.goto_pc, getNodeSection]
      simp [hq, Threads.goto]
    have e2 : threadStep ({ s with z := { s.z with
        lists := s.z.lists.remove .usedHead n } }.goto q .file) (.advance q) = some s2 := by
      rw [threadStep, Threads.goto_pc, getNodeSection, hs2]
      simp [hq, Threads.goto]
    refine ⟨k + 2, s', .cons trivial ec (.cons trivial e1 (.cons trivial e2 hr)), hpc, ?_⟩
    have hz2 : s2.z = { s.z with
        lists := (s.z.lists.remove .usedHead n).insertTail .fullHead n } := by rw [hs2]; rfl
    rw [hz2] at hz
    rcases h2 with ⟨hf, e⟩ | ⟨m, hf, e⟩ <;> rcases hz with ⟨hf', hz⟩ | ⟨m', hf', hz⟩
    · rw [e, hz]
      rfl
    · cases hf.symm.trans hf'
    · cases hf.symm.trans hf'
    · cases hf.symm.trans hf'
      rw [e, hz]
      simp only [take, retire, update_idem]

/-- A call of the first queue of a new group. -/
theorem sections_alone_fresh : ∃ k s', Runs threadStep (fun _ _ => True)
      (.start (Ztl.fresh oneNode .blank)) (.call 0 :: List.replicate k (.advance 0)) s' ∧
    s'.pc 0 = .idle ∧ s'.z = (ztlProGrpGetNode (Ztl.fresh oneNode .blank) 0).1 :=
  sections_alone rfl

end

/-! ### Schedules in which nobody chooses while another one has to remove -/

/-- The list a thread's node is on. -/
def Pc.list : Pc → Option NodeList
  | .idle | .unlink | .count => some .usedHead
  | .remove => some .freeHead
  | .file | .choose | .link => none

/-- The node of a queue.  In front of the choice `q->node` is the retired node. -/
def Threads.own (s : Threads) (q : Nat) : Option Nat :=
  if s.pc q = .choose then none else s.z.qnode q

/-- A group no thread is working on: every queue has a node of its own on the used list, or none. -/
structure Shared (z : Ztl) (parts : NodeList → List Nat) : Prop where
  queues : Queues z.lists parts
  nfree : z.nfree = (parts .freeHead).length
  small : z.nfree < 2 ^ 32
  current : ∀ {q n : Nat}, z.qnode q = some n → n ∈ parts .usedHead
  inj : ∀ {q q' n : Nat}, z.qnode q = some n → z.qnode q' = some n → q = q'

theorem Alloc.shared {z : Ztl} {parts : NodeList → List Nat} (h : Alloc z parts) :
    Shared z parts where
  queues := h.queues
  nfree := h.nfree
  small := by
    have := h.length_le .freeHead
    have := h.small
    rw [h.nfree]
    omega
  current := fun hq => h.qnode_mem hq
  inj := h.inj

/-- What holds between any two sections.  `n₀` is the length of the free list at the start. -/
structure ThreadInv (n₀ : Nat) (s : Threads) (parts : NodeList → List Nat) : Prop where
  queues : Queues s.z.lists parts
  node : ∀ q, s.pc q ≠ .idle → s.pc q ≠ .choose → ∃ n, s.z.qnode q = some n
  place : ∀ {q n : Nat}, s.own q = some n → ∀ l, n ∈ parts l ↔ (s.pc q).list = some l
  inj : ∀ {q q' n : Nat}, s.own q = some n → s.own q' = some n → q = q'
  alone : ∀ {q q' : Nat}, s.pc q = .remove → s.pc q' = .remove → q = q'
  removed : s.removed.Nodup
  out : ∀ n ∈ s.removed, n ∉ parts .freeHead
  handed : (s.handed.map Prod.snd).Nodup
  taken : ∀ n ∈ s.handed.map Prod.snd, n ∈ s.removed
  pending : ∀ {q n : Nat}, s.pc q = .link ∨ s.pc q = .count → s.z.qnode q = some n →
    n ∈ s.removed ∧ n ∉ s.handed.map Prod.snd
  total : s.removed.length + (parts .freeHead).length = n₀
  nfree : s.z.nfree + s.handed.length = n₀
  small : n₀ < 2 ^ 32

theorem Shared.start {z : Ztl} {parts : NodeList → List Nat} (h : Shared z parts) :
    ThreadInv z.nfree (Threads.start z) parts where
  queues := h.queues
  node := fun _ hne => absurd rfl hne
  place := fun {q n} hq l => by
    have hn := h.current (show z.qnode q = some n from hq)
    constructor
    · intro hl
      rw [h.queues.disj hl hn]
      rfl
    · intro hl
      cases hl
      exact hn
  inj := fun hq hq' => h.inj hq hq'
  alone := fun hq => by cases hq
  removed := nodup_nil
  out := fun _ hn => by cases hn
  handed := nodup_nil
  taken := fun _ hn => by cases hn
  pending := fun hq => by rcases hq with hq | hq <;> cases hq
  total := by rw [h.nfree]; exact Nat.zero_add _
  nfree := rfl
  small := h.small

section

variable {n₀ : Nat} {s s' : Threads} {parts parts' : NodeList → List Nat} {q n : Nat} {p : Pc}

theorem ThreadInv.own_of_ne_choose (hq : s.z.qnode q = some n) (hpc : s.pc q ≠ .choose) :
    s.own q = some n := by rw [Threads.own, if_neg hpc, hq]

/-- A step of queue `q` that leaves every `q->node` as it is gives no queue a new node. -/
theorem own_goto (hown : s.own q = some n) (hz : s'.z.qnode = s.z.qnode)
    (hpc : s'.pc = update s.pc q p) {q' m : Nat} (h' : s'.own q' = some m) :
    s.own q' = some m ∧ s'.pc q' ≠ .choose := by
  have hne : s'.pc q' ≠ .choose := fun e => by
    rw [Threads.own, if_pos e] at h'
    cases h'
  refine ⟨?_, hne⟩
  rw [Threads.own, if_neg hne, hz] at h'
  by_cases e : q' = q
  · subst e
    have hc : s.pc q' ≠ .choose := fun e => by
      rw [Threads.own, if_pos e] at hown
      cases hown
    rw [Threads.own, if_neg hc]
    exact h'
  · rw [hpc, update_of_ne e] at hne
    rw [Threads.own, if_neg hne]
    exact h'

section

variable (h : ThreadInv n₀ s parts)
include h

/-- The places after such a step, when only the queue's own node has moved. -/
theorem ThreadInv.place_goto (hown : s.own q = some n) (hz : s'.z.qnode = s.z.qnode)
    (hpc : s'.pc = update s.pc q p) (hother : ∀ m ≠ n, ∀ l, m ∈ parts' l ↔ m ∈ parts l)
    (hself : p ≠ .choose → ∀ l, n ∈ parts' l ↔ p.list = some l) {q' m : Nat}
    (h' : s'.own q' = some m) (l : NodeList) : m ∈ parts' l ↔ (s'.pc q').list = some l := by
  obtain ⟨hm, hne⟩ := own_goto hown hz hpc h'
  by_cases e : q' = q
  · subst e
    cases hm.symm.trans hown
    rw [hpc, update_self] at hne ⊢
    exact hself hne l
  · rw [hpc, update_of_ne e, hother m (fun e' => e (h.inj (e' ▸ hm) hown)) l]
    exact h.place hm l

/-- Who stands in front of the removal after queue `q` has moved on to `p`. -/
theorem ThreadInv.alone_goto (hpc : s'.pc = update s.pc q p)
    (hp : p = .remove → ∀ q', s.pc q' ≠ .remove) {q1 q2 : Nat} (h1 : s'.pc q1 = .remove)
    (h2 : s'.pc q2 = .remove) : q1 = q2 := by
  rw [hpc] at h1 h2
  by_cases e1 : q1 = q <;> by_cases e2 : q2 = q
  · rw [e1, e2]
  · rw [e1, update_self] at h1
    rw [update_of_ne e2] at h2
    exact absurd h2 (hp h1 q2)
  · rw [e2, update_self] at h2
    rw [update_of_ne e1] at h1
    exact absurd h1 (hp h2 q1)
  · rw [update_of_ne e1] at h1
    rw [update_of_ne e2] at h2
    exact h.alone h1 h2

/-- Every queue in a call has a node after a step of one that has. -/
theorem ThreadInv.node_goto (hq : s.z.qnode q = some n) (hz : s'.z.qnode = s.z.qnode)
    (hpc : s'.pc = update s.pc q p) (q' : Nat) (h1 : s'.pc q' ≠ .idle) (h2 : s'.pc q' ≠ .choose) :
    ∃ m, s'.z.qnode q' = some m := by
  rw [hz]
  by_cases e : q' = q
  · exact ⟨n, e ▸ hq⟩
  · rw [hpc, update_of_ne e] at h1 h2
    exact h.node q' h1 h2

/-- A section that moves the queue's node from list to list, neither from nor to the free one. -/
theorem ThreadInv.relink (hq : s.z.qnode q = some n) (hne : s.pc q ≠ .choose)
    (hz : s'.z.qnode = s.z.qnode) (hpc : s'.pc = update s.pc q p) (hp : p ≠ .remove)
    (hr : s'.removed = s.removed) (hh : s'.handed = s.handed) (hf : s'.z.nfree = s.z.nfree)
    (hqs : Queues s'.z.lists parts') (hfree : parts' .freeHead = parts .freeHead)
    (hother : ∀ m ≠ n, ∀ l, m ∈ parts' l ↔ m ∈ parts l)
    (hself : p ≠ .choose → ∀ l, n ∈ parts' l ↔ p.list = some l)
    (hpend : p = .link ∨ p = .count → n ∈ s.removed ∧ n ∉ s.handed.map Prod.snd) :
    ThreadInv n₀ s' parts' := by
  have hown : s.own q = some n := own_of_ne_choose hq hne
  refine
    { queues := hqs
      node := h.node_goto hq hz hpc
      place := fun h' => h.place_goto hown hz hpc hother hself h'
      inj := fun h1 h2 => h.inj (own_goto hown hz hpc h1).1 (own_goto hown hz hpc h2).1
      alone := h.alone_goto hpc fun e => absurd e hp
      removed := hr ▸ h.removed
      out := by rw [hr, hfree]; exact h.out
      handed := hh ▸ h.handed
      taken := by rw [hr, hh]; exact h.taken
      pending := fun {q' m} hp' hm => ?_
      total := by rw [hr, hfree]; exact h.total
      nfree := by rw [hf, hh]; exact h.nfree
      small := h.small }
  rw [hr, hh]
  rw [hpc] at hp'
  rw [hz] at hm
  by_cases e : q' = q
  · subst e
    rw [update_self] at hp'
    cases hm.symm.trans hq
    exact hpend hp'
  · rw [update_of_ne e] at hp'
    exact h.pending hp' hm

theorem ThreadInv.choose (hpc : s.pc q = .choose) (hg : ∀ q', s.pc q' ≠ .remove) :
    ThreadInv n₀ ({ s with z := { s.z with
      qnode := update s.z.qnode q (s.z.lists.head .freeHead).first } }.goto q
        (if (s.z.lists.head .freeHead).first = none then .idle else .remove)) parts := by
  obtain ⟨o, ho⟩ : ∃ o, o = (s.z.lists.head .freeHead).first := ⟨_, rfl⟩
  obtain ⟨s', hs'⟩ : ∃ s' : Threads, s' = ({ s with z := { s.z with
      qnode := update s.z.qnode q o } }.goto q (if o = none then .idle else .remove)) :=
    ⟨_, rfl⟩
  rw [← ho, ← hs']
  have hself : s'.pc q = if o = none then .idle else .remove := by rw [hs', Threads.goto_pc]
  have hother : ∀ {q'}, q' ≠ q → s'.pc q' = s.pc q' ∧ s'.z.qnode q' = s.z.qnode q' := fun hne => by
    rw [hs', Threads.goto_pc_of_ne _ _ hne]
    exact ⟨rfl, update_of_ne hne _ _⟩
  have hnode : s'.z.qnode q = o := by rw [hs']; exact update_self _ _ _
  have hmem : ∀ {m}, o = some m → m ∈ parts .freeHead := fun {m} e => by
    have hfirst := (h.queues.repr .freeHead).first
    rw [← ho, e] at hfirst
    exact mem_of_mem_head? hfirst.symm
  -- the queue owns the head of the free list, and nobody else has a node there
  have hown : ∀ {q' m}, s'.own q' = some m →
      q' = q ∧ o = some m ∨ q' ≠ q ∧ s.own q' = some m ∧ m ∉ parts .freeHead := by
    intro q' m h'
    by_cases e : q' = q
    · subst e
      refine Or.inl ⟨rfl, ?_⟩
      have hne : s'.pc q' ≠ .choose := by
        rw [hself]
        split <;> simp
      rwa [Threads.own, if_neg hne, hnode] at h'
    · refine Or.inr ⟨e, ?_⟩
      rw [Threads.own, (hother e).1, (hother e).2] at h'
      refine ⟨h', fun hm => hg q' ?_⟩
      have hl := (h.place (show s.own q' = some m from h') .freeHead).mp hm
      cases hp : s.pc q' <;> rw [hp] at hl <;> first | rfl | cases hl
  have hlink : ∀ {q'}, s'.pc q' = .link ∨ s'.pc q' = .count → q' ≠ q := by
    rintro q' hq' rfl
    rw [hself] at hq'
    split at hq' <;> simp at hq'
  refine
    { queues := hs' ▸ h.queues
      node := fun q' h1 h2 => ?_
      place := fun {q' m} h' l => ?_
      inj := fun {q1 q2 m} h1 h2 => ?_
      alone := h.alone_goto (q := q) (p := if o = none then .idle else .remove) (by rw [hs']; rfl)
        fun _ => hg
      removed := hs' ▸ h.removed
      out := hs' ▸ h.out
      handed := hs' ▸ h.handed
      taken := hs' ▸ h.taken
      pending := fun {q' m} hp' hm => ?_
      total := hs' ▸ h.total
      nfree := hs' ▸ h.nfree
      small := h.small }
  · by_cases e : q' = q
    · subst e
      rw [hself] at h1
      rw [hnode]
      cases o with
      | none => exact absurd (if_pos rfl) h1
      | some m => exact ⟨m, rfl⟩
    · rw [(hother e).1] at h1 h2
      rw [(hother e).2]
      exact h.node q' h1 h2
  · rcases hown h' with ⟨rfl, e⟩ | ⟨hne, hm, -⟩
    · rw [hself, e, if_neg (by simp)]
      constructor
      · intro hl
        rw [h.queues.disj hl (hmem e)]
        rfl
      · intro hl
        cases hl
        exact hmem e
    · rw [(hother hne).1]
      exact h.place hm l
  · rcases hown h1 with ⟨rfl, e1⟩ | ⟨-, hm1, hf1⟩ <;> rcases hown h2 with ⟨rfl, e2⟩ | ⟨-, hm2, hf2⟩
    · rfl
    · exact absurd (hmem e1) hf2
    · exact absurd (hmem e2) hf1
    · exact h.inj hm1 hm2
  · have hne := hlink hp'
    rw [(hother hne).1] at hp'
    rw [(hother hne).2] at hm
    have := h.pending hp' hm
    rwa [hs']

theorem ThreadInv.remove (hpc : s.pc q = .remove) (hq : s.z.qnode q = some n)
    (hz : s'.z.qnode = s.z.qnode) (hpc' : s'.pc = update s.pc q .link)
    (hl : s'.z.lists = s.z.lists.remove .freeHead n) (hf : s'.z.nfree = s.z.nfree)
    (hr : s'.removed = n :: s.removed) (hh : s'.handed = s.handed) :
    ThreadInv n₀ s' (update parts .freeHead ((parts .freeHead).erase n)) := by
  have hown : s.own q = some n := own_of_ne_choose hq (by rw [hpc]; simp)
  have hn : n ∈ parts .freeHead := (h.place hown .freeHead).mpr (by rw [hpc]; rfl)
  have hmem := fun {x y} => Queues.mem_removed h.queues hn (x := x) (y := y)
  have hnew : n ∉ s.removed := fun hr => h.out n hr hn
  refine
    { queues := hl ▸ h.queues.remove hn
      node := h.node_goto hq hz hpc'
      place := fun h' => h.place_goto hown hz hpc' (fun m hm l => ?_) (fun _ l => ?_) h'
      inj := fun h1 h2 => h.inj (own_goto hown hz hpc' h1).1 (own_goto hown hz hpc' h2).1
      alone := h.alone_goto hpc' fun e => by cases e
      removed := hr ▸ nodup_cons.mpr ⟨hnew, h.removed⟩
      out := fun m hm hf => ?_
      handed := hh ▸ h.handed
      taken := fun m hm => ?_
      pending := fun {q' m} hp' hm => ?_
      total := ?_
      nfree := by rw [hf, hh]; exact h.nfree
      small := h.small }
  · rw [hmem]
    exact ⟨fun hl => hl.2, fun hl => ⟨hm, hl⟩⟩
  · rw [hmem]
    exact ⟨fun hl => absurd rfl hl.1, fun hl => by cases hl⟩
  · obtain ⟨hne, hf⟩ := hmem.mp hf
    rw [hr] at hm
    exact h.out m ((mem_cons.mp hm).resolve_left hne) hf
  · rw [hr]
    exact mem_cons_of_mem _ (h.taken m (hh ▸ hm))
  · rw [hz] at hm
    rw [hr, hh]
    by_cases e : q' = q
    · subst e
      cases hm.symm.trans hq
      exact ⟨mem_cons_self, fun hh => hnew (h.taken _ hh)⟩
    · rw [hpc', update_of_ne e] at hp'
      obtain ⟨h1, h2⟩ := h.pending hp' hm
      exact ⟨mem_cons_of_mem _ h1, h2⟩
  · have hlen := length_erase_of_mem hn
    have hpos := length_pos_of_mem hn
    have htot := h.total
    rw [hr, update_self, hlen, length_cons]
    omega

/-- Fewer nodes are handed out than removed while a queue has still to count its own. -/
theorem ThreadInv.handed_lt (hn : n ∈ s.removed) (hh : n ∉ s.handed.map Prod.snd) :
    s.handed.length < s.removed.length := by
  have hsub : (n :: s.handed.map Prod.snd) ⊆ s.removed := fun m hm => by
    rcases mem_cons.mp hm with rfl | hm
    · exact hn
    · exact h.taken m hm
  have hlen := ((nodup_cons.mpr ⟨hh, h.handed⟩).subperm hsub).length_le
  simp only [length_cons, length_map] at hlen
  omega

theorem ThreadInv.count (hpc : s.pc q = .count) (hq : s.z.qnode q = some n)
    (hz : s'.z.qnode = s.z.qnode) (hpc' : s'.pc = update s.pc q .idle)
    (hl : s'.z.lists = s.z.lists) (hf : s'.z.nfree = (s.z.nfree + 2 ^ 32 - 1) % 2 ^ 32)
    (hr : s'.removed = s.removed) (hh : s'.handed = (q, n) :: s.handed) :
    ThreadInv n₀ s' parts := by
  have hown : s.own q = some n := own_of_ne_choose hq (by rw [hpc]; simp)
  obtain ⟨hrem, hnew⟩ := h.pending (Or.inr hpc) hq
  refine
    { queues := hl ▸ h.queues
      node := h.node_goto hq hz hpc'
      place := fun h' => h.place_goto hown hz hpc' (fun _ _ _ => Iff.rfl) (fun _ l => ?_) h'
      inj := fun h1 h2 => h.inj (own_goto hown hz hpc' h1).1 (own_goto hown hz hpc' h2).1
      alone := h.alone_goto hpc' fun e => by cases e
      removed := hr ▸ h.removed
      out := hr ▸ h.out
      handed := by rw [hh]; exact nodup_cons.mpr ⟨hnew, h.handed⟩
      taken := fun m hm => ?_
      pending := fun {q' m} hp' hm => ?_
      total := hr ▸ h.total
      nfree := ?_
      small := h.small }
  · rw [h.place hown l, hpc]
    rfl
  · rw [hh] at hm
    rw [hr]
    rcases mem_cons.mp hm with rfl | hm
    · exact hrem
    · exact h.taken m hm
  · have hne : q' ≠ q := by
      rintro rfl
      rw [hpc', update_self] at hp'
      rcases hp' with hp' | hp' <;> cases hp'
    rw [hpc', update_of_ne hne] at hp'
    rw [hz] at hm
    rw [hr, hh]
    obtain ⟨h1, h2⟩ := h.pending hp' hm
    refine ⟨h1, fun hmem => ?_⟩
    rcases mem_cons.mp hmem with e | hmem
    · -- the node would be the one of two queues
      have hc : s.pc q' ≠ .choose := by rcases hp' with hp' | hp' <;> rw [hp'] <;> simp
      exact hne (h.inj (own_of_ne_choose hm hc) (e ▸ hown))
    · exact h2 hmem
  · have hlt := h.handed_lt hrem hnew
    have htot := h.total
    have hnf := h.nfree
    have hsm := h.small
    rw [hf, hh, length_cons]
    omega

theorem ThreadInv.advance (hg : ChoosesAlone s (.advance q))
    (e : threadStep s (.advance q) = some s') : ∃ parts', ThreadInv n₀ s' parts' := by
  by_cases hc : s.pc q = .choose
  · rw [threadStep, hc, getNodeSection] at e
    cases e
    exact ⟨parts, h.choose hc (hg hc)⟩
  by_cases hi : s.pc q = .idle
  · rw [threadStep, hi, getNodeSection] at e
    cases e
  obtain ⟨n, hq⟩ := h.node q hi hc
  have hplace := h.place (own_of_ne_choose hq hc)
  rw [advance_eq rfl hq] at e
  cases hp : s.pc q with
  | idle => exact absurd hp hi
  | choose => exact absurd hp hc
  | unlink =>
    rw [hp, getNodeSection] at e
    cases e
    have hn : n ∈ parts .usedHead := (hplace .usedHead).mpr (by rw [hp]; rfl)
    have hmem := fun {x y} => Queues.mem_removed h.queues hn (x := x) (y := y)
    refine ⟨_, h.relink hq hc rfl rfl (by simp) rfl rfl rfl (h.queues.remove hn) ?_
      (fun m hm l => ?_) (fun _ l => ?_) (by simp)⟩
    · rw [update_of_ne (by simp)]
    · rw [hmem]
      exact ⟨fun hl => hl.2, fun hl => ⟨hm, hl⟩⟩
    · rw [hmem]
      exact ⟨fun hl => absurd rfl hl.1, fun hl => by cases hl⟩
  | file =>
    rw [hp, getNodeSection] at e
    cases e
    have hout : ∀ l, n ∉ parts l := fun l hl => by
      have := (hplace l).mp hl
      rw [hp] at this
      cases this
    refine ⟨_, h.relink hq hc rfl rfl (by simp) rfl rfl rfl (h.queues.insert hout) ?_
      (fun m hm l => ?_) (fun hne => absurd rfl hne) (by simp)⟩
    · rw [update_of_ne (by simp)]
    · rw [Queues.mem_inserted]
      exact ⟨fun hl => hl.resolve_left fun hl => hm hl.1, Or.inr⟩
  | remove =>
    rw [hp, getNodeSection] at e
    cases e
    exact ⟨_, h.remove hp hq rfl rfl rfl rfl rfl rfl⟩
  | link =>
    rw [hp, getNodeSection] at e
    cases e
    have hout : ∀ l, n ∉ parts l := fun l hl => by
      have := (hplace l).mp hl
      rw [hp] at this
      cases this
    refine ⟨_, h.relink hq hc rfl rfl (by simp) rfl rfl rfl (h.queues.insert hout) ?_
      (fun m hm l => ?_) (fun _ l => ?_) (fun _ => h.pending (Or.inl hp) hq)⟩
    · rw [update_of_ne (by simp)]
    · rw [Queues.mem_inserted]
      exact ⟨fun hl => hl.resolve_left fun hl => hm hl.1, Or.inr⟩
    · rw [Queues.mem_inserted]
      constructor
      · intro hl
        rw [(hl.resolve_right (hout l)).2]
        rfl
      · intro hl
        cases hl
        exact Or.inl ⟨rfl, rfl⟩
  | count =>
    obtain ⟨v, hv⟩ : ∃ v, v = (s.z.nfree + 2 ^ 32 - 1) % 2 ^ 32 := ⟨_, rfl⟩
    rw [hp, getNodeSection, ← hv] at e
    cases e
    exact ⟨parts, h.count hp hq rfl rfl rfl hv rfl rfl⟩

/-- The beginning of a call without a node. -/
theorem ThreadInv.call_none : ThreadInv n₀ (s.goto q .choose) parts := by
  have hother : ∀ {q'}, (s.goto q .choose).pc q' ≠ .choose →
      q' ≠ q ∧ (s.goto q .choose).pc q' = s.pc q' := fun {q'} hne => by
    have hq' : q' ≠ q := fun e => hne (by rw [e, Threads.goto_pc])
    exact ⟨hq', Threads.goto_pc_of_ne _ _ hq'⟩
  have hown : ∀ {q' m}, (s.goto q .choose).own q' = some m →
      s.own q' = some m ∧ (s.goto q .choose).pc q' = s.pc q' := by
    intro q' m h'
    have hne : (s.goto q .choose).pc q' ≠ .choose := fun e => by
      rw [Threads.own, if_pos e] at h'
      cases h'
    obtain ⟨-, e⟩ := hother hne
    refine ⟨?_, e⟩
    rwa [Threads.own, e] at h'
  refine
    { queues := h.queues
      node := fun q' h1 h2 => ?_
      place := fun h' l => ?_
      inj := fun h1 h2 => h.inj (hown h1).1 (hown h2).1
      alone := h.alone_goto rfl fun e => by cases e
      removed := h.removed
      out := h.out
      handed := h.handed
      taken := h.taken
      pending := fun {q' m} hp' hm => ?_
      total := h.total
      nfree := h.nfree
      small := h.small }
  · rw [(hother h2).2] at h1 h2
    exact h.node q' h1 h2
  · rw [(hown h').2]
    exact h.place (hown h').1 l
  · have hne : (s.goto q .choose).pc q' ≠ .choose := by
      rcases hp' with hp' | hp' <;> rw [hp'] <;> simp
    rw [(hother hne).2] at hp'
    exact h.pending hp' hm

theorem ThreadInv.step {op : ThreadOp} (hg : ChoosesAlone s op) (e : threadStep s op = some s') :
    ∃ parts', ThreadInv n₀ s' parts' := by
  cases op with
  | advance q => exact h.advance hg e
  | write q num =>
    rw [threadStep] at e
    split at e
    · split at e
      · cases e
        -- only a node's counters change
        exact ⟨parts, h.queues, h.node, h.place, h.inj, h.alone, h.removed, h.out, h.handed,
          h.taken, h.pending, h.total, h.nfree, h.small⟩
      · cases e
    · cases e
  | call q =>
    rw [threadStep] at e
    split at e
    next hi =>
      split at e
      next =>
        cases e
        cases hq : s.z.qnode q with
        | none =>
          rw [if_pos rfl]
          exact ⟨parts, h.call_none⟩
        | some n =>
          rw [if_neg (by simp)]
          have hc : s.pc q ≠ .choose := by rw [hi]; simp
          refine ⟨parts, h.relink hq hc rfl rfl (by simp) rfl rfl rfl h.queues rfl
            (fun _ _ _ => Iff.rfl) (fun _ l => ?_) (by simp)⟩
          rw [h.place (own_of_ne_choose hq hc) l, hi]
          rfl
      next =>
        cases e
        exact ⟨parts, h⟩
    next => cases e

end

end

/-! ### Exclusive allocation -/

/-- What every schedule should keep: a node is handed out once, two queues between calls have
different nodes, a node leaves the free list once, and `nfree` has gone down by the number of nodes
handed out. -/
structure Exclusive (n₀ : Nat) (s : Threads) : Prop where
  handed : (s.handed.map Prod.snd).Nodup
  inj : ∀ q q' n, s.pc q = .idle → s.pc q' = .idle → s.z.qnode q = some n →
    s.z.qnode q' = some n → q = q'
  removed : s.removed.Nodup
  nfree : s.z.nfree + s.handed.length = n₀

/-- **Exclusive allocation** in every schedule in which no queue chooses while another one has
chosen and not yet removed. -/
theorem exclusive_run {z : Ztl} {parts : NodeList → List Nat} (h : Shared z parts)
    {ops : List ThreadOp} {s : Threads}
    (hr : Runs threadStep ChoosesAlone (Threads.start z) ops s) : Exclusive z.nfree s := by
  obtain ⟨parts', h'⟩ := Runs.invariant (I := fun s => ∃ parts, ThreadInv z.nfree s parts)
    (fun _ _ _ ⟨_, hs⟩ hg e => hs.step hg e) hr ⟨parts, h.start⟩
  refine ⟨h'.handed, fun q q' n hi hi' hq hq' => ?_, h'.removed, h'.nfree⟩
  exact h'.inj (ThreadInv.own_of_ne_choose hq (by rw [hi]; simp))
    (ThreadInv.own_of_ne_choose hq' (by rw [hi']; simp))

/-- Two queues take the two nodes of a group, the second one choosing after the first has removed. -/
theorem exclusive_run_two : ∃ s, Runs threadStep ChoosesAlone
    (Threads.start (Ztl.fresh ⟨2, by decide⟩ .blank))
    [.call 0, .call 1, .advance 0, .advance 0, .advance 1, .advance 1, .advance 0, .advance 1,
      .advance 0, .advance 1] s ∧ s.handed = [(1, 1), (0, 0)] ∧ Exclusive 2 s := by
  have halone : ∀ {s : Threads}, s.pc 0 ≠ .remove → s.pc 1 ≠ .remove →
      (∀ q, q ≠ 0 → q ≠ 1 → s.pc q = .idle) → ∀ q, s.pc q ≠ .remove := by
    intro s h₀ h₁ hother q
    by_cases e₀ : q = 0
    · exact e₀ ▸ h₀
    · by_cases e₁ : q = 1
      · exact e₁ ▸ h₁
      · rw [hother q e₀ e₁]
        simp
  have hr : Runs threadStep ChoosesAlone
      (Threads.start (Ztl.fresh ⟨2, by decide⟩ .blank))
      [.call 0, .call 1, .advance 0, .advance 0, .advance 1, .advance 1, .advance 0, .advance 1,
        .advance 0, .advance 1] _ :=
    .cons trivial rfl <| .cons trivial rfl <| .cons (fun _ => halone (by decide) (by decide)
      fun q h₀ h₁ => by simp [Threads.goto, Threads.start, h₀, h₁]) rfl <|
    .cons (fun h => nomatch h) rfl <| .cons (fun _ => halone (by decide) (by decide)
      fun q h₀ h₁ => by simp [Threads.goto, Threads.start, h₀, h₁]) rfl <|
    .cons (fun h => nomatch h) rfl <| .cons (fun h => nomatch h) rfl <|
    .cons (fun h => nomatch h) rfl <| .cons (fun h => nomatch h) rfl <|
    Runs.one (fun h => nomatch h) rfl
  exact ⟨_, hr, rfl, exclusive_run (Alloc.fresh _ _).shared hr⟩

/-- **A node is handed out twice** when two queues choose before either removes. -/
theorem exclusive_lost : ∃ s, Runs threadStep (fun _ _ => True)
    (Threads.start (Ztl.fresh oneNode .blank))
    [.call 0, .call 1, .advance 0, .advance 1, .advance 0, .advance 1, .advance 0, .advance 1,
      .advance 0, .advance 1] s ∧ s.handed = [(1, 0), (0, 0)] ∧ s.removed = [0, 0] ∧
      s.z.nfree = 2 ^ 32 - 1 ∧ ¬ Exclusive 1 s := by
  have hr : Runs threadStep (fun _ _ => True)
      (Threads.start (Ztl.fresh oneNode .blank))
      [.call 0, .call 1, .advance 0, .advance 1, .advance 0, .advance 1, .advance 0, .advance 1,
        .advance 0, .advance 1] _ :=
    .cons trivial rfl <| .cons trivial rfl <| .cons trivial rfl <| .cons trivial rfl <|
    .cons trivial rfl <| .cons trivial rfl <| .cons trivial rfl <| .cons trivial rfl <|
    .cons trivial rfl <| Runs.one trivial rfl
  refine ⟨_, hr, rfl, rfl, rfl, fun he => ?_⟩
  have hnd : [0, 0].Nodup := he.removed
  simp at hnd

end Xztl
