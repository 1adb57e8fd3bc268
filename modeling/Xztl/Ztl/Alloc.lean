import Xztl.Ztl.Write

/-!
# Ztl — node allocation (`ztl-pro-grp.c`, `ztl_pro_grp_get_node`)

`Alloc z parts` is what the allocator keeps between operations: the three node lists are well
linked and hold `parts`, every node is on one of them, free nodes are pristine, and the queues'
current nodes, each of one queue, are on the used list.  A start of the program leaves nodes there
that no queue has, but these have room.

`ztl_pro_grp_get_node` does up to two things: it retires the queue's exhausted node to the full list
and takes the first free one.  Both keep `Alloc` (`Alloc.retire`, `Alloc.take`), and so does a piece
written to a current node (`Alloc.piece`).
-/

namespace Xztl

open Function TailQueue

/-- A node as the group initialisation and a reset leave it. -/
def Node.Pristine (nd : Node) : Prop :=
  nd.status = .free ∧ nd.used = 0 ∧ nd.left = ztlProOptSecNumInnode ∧ nd.nrValid = 0 ∧
    nd.level = -1

/-- A node with room. -/
def Node.Open (nd : Node) : Prop := nd.status = .used ∧ nd.left ≠ 0

/-- A node without room, with or without a reset on its way. -/
def Node.Spent (nd : Node) : Prop := (nd.status = .full ∨ nd.status = .reset) ∧ nd.left = 0

/-- The allocator's invariant.  `parts` are the three lists, front to back. -/
structure Alloc (z : Ztl) (parts : NodeList → List Nat) : Prop where
  geometry : Geometry z
  placed : ∀ n < z.nnodes, Placed z n
  small : z.nnodes ≤ 2 ^ 14
  balance : ∀ n < z.nnodes, (z.vnodes n).used + (z.vnodes n).left = ztlProOptSecNumInnode
  queues : Queues z.lists parts
  mem : ∀ n, (∃ h, n ∈ parts h) ↔ n < z.nnodes
  nfree : z.nfree = (parts .freeHead).length
  free : ∀ n ∈ parts .freeHead, (z.vnodes n).Pristine
  used : ∀ n ∈ parts .usedHead, (z.vnodes n).Open ∨ (z.vnodes n).Spent
  full : ∀ n ∈ parts .fullHead, (z.vnodes n).Spent
  current : ∀ {q n : Nat}, z.qnode q = some n → n ∈ parts .usedHead
  owned : ∀ n ∈ parts .usedHead, (z.vnodes n).Spent → ∃ q, z.qnode q = some n
  inj : ∀ {q q' n : Nat}, z.qnode q = some n → z.qnode q' = some n → q = q'

theorem Alloc.nfree_le {z : Ztl} {parts : NodeList → List Nat} (h : Alloc z parts) :
    z.nfree ≤ z.nnodes := by
  have hsub : parts .freeHead ⊆ List.range z.nnodes := fun n hn =>
    List.mem_range.mpr ((h.mem n).mp ⟨_, hn⟩)
  have hle := (List.subperm_of_subset (h.queues.nodup .freeHead) hsub).length_le
  rwa [List.length_range, ← h.nfree] at hle

/-! ### The two moves -/

/-- The exhausted node `n` of queue `q` goes to the full list. -/
def retire (z : Ztl) (q n : Nat) : Ztl :=
  { z with
    lists := (z.lists.remove .usedHead n).insertTail .fullHead n
    qnode := update z.qnode q none }

/-- The free node `n` becomes the current node of queue `q`. -/
def take (z : Ztl) (q n : Nat) : Ztl :=
  { z with
    vnodes := update z.vnodes n { z.vnodes n with status := .used }
    lists := (z.lists.remove .freeHead n).insertTail .usedHead n
    qnode := update z.qnode q (some n)
    nfree := (z.nfree + 2 ^ 32 - 1) % 2 ^ 32 }

/-- **What `ztl_pro_grp_get_node` does.**  It keeps a current node with room; otherwise it retires
the one there is and takes the first free node, or fails. -/
theorem ztlProGrpGetNode_cases (z : Ztl) (q : Nat) :
    (∃ n, z.qnode q = some n ∧ (z.vnodes n).left ≠ 0 ∧ ztlProGrpGetNode z q = (z, true)) ∨
    ∃ z1, (z.qnode q = none ∧ z1 = z ∨
        ∃ n, z.qnode q = some n ∧ (z.vnodes n).left = 0 ∧ z1 = retire z q n) ∧
      ((z1.lists.head .freeHead).first = none ∧ ztlProGrpGetNode z q = (z1, false) ∨
        ∃ n, (z1.lists.head .freeHead).first = some n ∧
          ztlProGrpGetNode z q = (take z1 q n, true)) := by
  cases hq : z.qnode q with
  | none =>
    refine Or.inr ⟨z, Or.inl ⟨rfl, rfl⟩, ?_⟩
    have hself : update z.qnode q none = z.qnode := by rw [← hq, update_eq_self]
    cases hf : (z.lists.head .freeHead).first with
    | none =>
      refine Or.inl ⟨rfl, ?_⟩
      simp only [ztlProGrpGetNode, hq, hf, if_true, hself]
    | some n =>
      refine Or.inr ⟨n, rfl, ?_⟩
      simp only [ztlProGrpGetNode, hq, hf, if_true]
      rfl
  | some m =>
    by_cases hl : (z.vnodes m).left = 0
    · refine Or.inr ⟨retire z q m, Or.inr ⟨m, rfl, hl, rfl⟩, ?_⟩
      cases hf : ((retire z q m).lists.head .freeHead).first with
      | none =>
        refine Or.inl ⟨rfl, ?_⟩
        simp only [retire] at hf
        simp only [ztlProGrpGetNode, hq, hl, beq_self_eq_true, if_true, hf]
        rfl
      | some n =>
        refine Or.inr ⟨n, rfl, ?_⟩
        simp only [retire] at hf
        simp only [ztlProGrpGetNode, hq, hl, beq_self_eq_true, if_true, hf]
        simp only [take, retire, update_idem]
        rfl
    · refine Or.inl ⟨m, rfl, hl, ?_⟩
      simp [ztlProGrpGetNode, hq, hl]

section

variable {z : Ztl} {parts : NodeList → List Nat} {q n : Nat}

section

variable (h : Alloc z parts)
include h

theorem Alloc.lt {l : NodeList} (hn : n ∈ parts l) : n < z.nnodes :=
  (h.mem n).mp ⟨l, hn⟩

/-- The management queue is not the allocator's. -/
theorem Alloc.queue (l : List (Nat × MgmtOp)) : Alloc { z with submitHead := l } parts :=
  { h with geometry := h.geometry.congr rfl rfl rfl }

theorem Alloc.qnode_mem (hq : z.qnode q = some n) : n ∈ parts .usedHead :=
  h.current hq

/-- A current node without room is spent. -/
theorem Alloc.spent (hq : z.qnode q = some n) (hl : (z.vnodes n).left = 0) : (z.vnodes n).Spent :=
  (h.used n (h.qnode_mem hq)).resolve_left fun ho => ho.2 hl

theorem Alloc.mem_move {l l' : NodeList} (hn : n ∈ parts l) (hne : l' ≠ l) (m : Nat) :
    (∃ x, m ∈ moved parts l l' n x) ↔ m < z.nnodes := by
  rw [← h.mem m]
  constructor
  · rintro ⟨x, hx⟩
    rcases (h.queues.mem_moved hn hne).mp hx with ⟨rfl, -⟩ | ⟨-, hx⟩
    · exact ⟨l, hn⟩
    · exact ⟨x, hx⟩
  · rintro ⟨x, hx⟩
    by_cases e : m = n
    · exact ⟨l', (h.queues.mem_moved hn hne).mpr (Or.inl ⟨e, rfl⟩)⟩
    · exact ⟨x, (h.queues.mem_moved hn hne).mpr (Or.inr ⟨e, hx⟩)⟩

theorem Alloc.retire (hq : z.qnode q = some n) (hl : (z.vnodes n).left = 0) :
    Alloc (retire z q n) (moved parts .usedHead .fullHead n) := by
  have hn := h.qnode_mem hq
  have hm := fun {x y} => h.queues.mem_moved (x := x) (y := y) hn (k := .fullHead) (by simp)
  have hold : ∀ {c m}, update z.qnode q none c = some m → c ≠ q ∧ z.qnode c = some m := by
    intro c m hc
    have hcq : c ≠ q := fun e => by simp [e] at hc
    exact ⟨hcq, by rwa [update_of_ne hcq] at hc⟩
  refine
    { geometry := h.geometry.congr rfl rfl rfl
      placed := h.placed
      small := h.small
      balance := h.balance
      queues := h.queues.move hn (by simp)
      mem := h.mem_move hn (by simp)
      nfree := h.nfree
      free := fun m hmem => ?_
      used := fun m hmem => ?_
      full := fun m hmem => ?_
      current := fun {a m} ha => ?_
      owned := fun m hmem hs => ?_
      inj := fun {a b m} ha hb => ?_ }
  · exact h.free m ((hm.mp hmem).resolve_left (by simp)).2
  · exact h.used m ((hm.mp hmem).resolve_left (by simp)).2
  · rcases hm.mp hmem with ⟨rfl, -⟩ | ⟨-, hmem⟩
    · exact h.spent hq hl
    · exact h.full m hmem
  · obtain ⟨haq, ha⟩ := hold ha
    exact hm.mpr (Or.inr ⟨fun e => haq (h.inj (e ▸ ha) hq), h.qnode_mem ha⟩)
  · obtain ⟨hne, hmem⟩ := (hm.mp hmem).resolve_left (by simp)
    obtain ⟨a, ha⟩ := h.owned m hmem hs
    have haq : a ≠ q := fun e => hne (Option.some.inj ((e ▸ ha).symm.trans hq))
    exact ⟨a, (update_of_ne haq _ _).trans ha⟩
  · exact h.inj (hold ha).2 (hold hb).2

/-- Every list is short. -/
theorem Alloc.length_le (l : NodeList) : (parts l).length ≤ z.nnodes := by
  have hsub : parts l ⊆ List.range z.nnodes := fun m hm => List.mem_range.mpr (h.lt hm)
  simpa using ((h.queues.nodup l).subperm hsub).length_le

theorem Alloc.take (hq : z.qnode q = none) (hn : n ∈ parts .freeHead) :
    Alloc (take z q n) (moved parts .freeHead .usedHead n) := by
  have hm := fun {x y} => h.queues.mem_moved (x := x) (y := y) hn (k := .usedHead) (by simp)
  have hp := h.free n hn
  have hnode : ∀ {m}, m ≠ n → (Xztl.take z q n).vnodes m = z.vnodes m := fun hne =>
    update_of_ne hne _ _
  have hself : (Xztl.take z q n).vnodes n = { z.vnodes n with status := .used } :=
    update_self _ _ _
  -- a free node is nobody's current node
  have hnew : ∀ {c m}, update z.qnode q (some n) c = some m →
      c = q ∧ m = n ∨ m ≠ n ∧ z.qnode c = some m := by
    intro c m hc
    by_cases e : c = q
    · subst e
      rw [update_self] at hc
      exact Or.inl ⟨rfl, (Option.some.inj hc).symm⟩
    · rw [update_of_ne e] at hc
      refine Or.inr ⟨fun hmn => ?_, hc⟩
      cases h.queues.disj hn (h.qnode_mem (hmn ▸ hc))
  refine
    { geometry := ⟨fun m hmn i hi => ?_, h.geometry.zone, h.geometry.sect⟩
      placed := fun m hmn i hi => ?_
      small := h.small
      balance := fun m hmn => ?_
      queues := h.queues.move hn (by simp)
      mem := h.mem_move hn (by simp)
      nfree := ?_
      free := fun m hmem => ?_
      used := fun m hmem => ?_
      full := fun m hmem => ?_
      current := fun {a m} ha => ?_
      owned := fun m hmem hs => ?_
      inj := fun {a b m} ha hb => ?_ }
  · by_cases e : m = n
    · subst e
      rw [hself]
      exact h.geometry.slot m hmn i hi
    · rw [hnode e]
      exact h.geometry.slot m hmn i hi
  · by_cases e : m = n
    · subst e
      rw [hself]
      exact h.placed m hmn i hi
    · rw [hnode e]
      exact h.placed m hmn i hi
  · by_cases e : m = n
    · subst e
      rw [hself]
      exact h.balance m hmn
    · rw [hnode e]
      exact h.balance m hmn
  · have hlen : (moved parts .freeHead .usedHead n .freeHead).length
        = (parts .freeHead).length - 1 := by
      rw [moved, update_of_ne (by simp), update_self,
        List.length_erase_of_mem hn]
    have hpos := List.length_pos_of_mem hn
    have hle := h.length_le .freeHead
    have hsmall := h.small
    show (z.nfree + 2 ^ 32 - 1) % 2 ^ 32 = _
    rw [hlen, h.nfree]
    omega
  · obtain ⟨hne, hmem⟩ := (hm.mp hmem).resolve_left (by simp)
    rw [hnode hne]
    exact h.free m hmem
  · rcases hm.mp hmem with ⟨rfl, -⟩ | ⟨hne, hmem⟩
    · rw [hself]
      refine Or.inl ⟨rfl, ?_⟩
      rw [hp.2.2.1, ztlProOptSecNumInnode_eq]
      omega
    · rw [hnode hne]
      exact h.used m hmem
  · obtain ⟨hne, hmem⟩ := (hm.mp hmem).resolve_left (by simp)
    rw [hnode hne]
    exact h.full m hmem
  · rcases hnew ha with ⟨-, rfl⟩ | ⟨hne, ha⟩
    · exact hm.mpr (Or.inl ⟨rfl, rfl⟩)
    · exact hm.mpr (Or.inr ⟨hne, h.qnode_mem ha⟩)
  · rcases hm.mp hmem with ⟨rfl, -⟩ | ⟨hne, hmem⟩
    · exact ⟨q, update_self _ _ _⟩
    · obtain ⟨a, ha⟩ := h.owned m hmem (hnode hne ▸ hs)
      have haq : a ≠ q := fun e => by
        rw [e, hq] at ha
        cases ha
      exact ⟨a, (update_of_ne haq _ _).trans ha⟩
  · rcases hnew ha with ⟨rfl, rfl⟩ | ⟨hne, ha⟩ <;> rcases hnew hb with ⟨rfl, e⟩ | ⟨hne', hb⟩
    · rfl
    · exact absurd rfl hne'
    · exact absurd e hne
    · exact h.inj ha hb

/-- A change to one node that leaves its zones and counters alone and suits the list it is on. -/
theorem Alloc.setNode {nd : Node} (hz : nd.vzones = (z.vnodes n).vzones)
    (hu : nd.used = (z.vnodes n).used) (hl : nd.left = (z.vnodes n).left)
    (hfree : n ∈ parts .freeHead → nd.Pristine) (hused : n ∈ parts .usedHead → nd.Open ∨ nd.Spent)
    (hfull : n ∈ parts .fullHead → nd.Spent) : Alloc (z.setNode n nd) parts := by
  have hspent : ∀ m ∈ parts .usedHead, ((z.setNode n nd).vnodes m).Spent → (z.vnodes m).Spent := by
    intro m hmem hs
    by_cases e : m = n
    · subst e
      rw [Ztl.setNode_self] at hs
      exact (h.used m hmem).resolve_left fun ho => ho.2 (hl ▸ hs.2)
    · rwa [Ztl.setNode_of_ne _ _ e] at hs
  refine
    { h with
      geometry := ⟨fun m hmn i hi => ?_, h.geometry.zone, h.geometry.sect⟩
      placed := fun m hmn i hi => ?_
      balance := fun m hmn => ?_
      free := fun m hmem => ?_
      used := fun m hmem => ?_
      full := fun m hmem => ?_
      owned := fun m hmem hs => h.owned m hmem (hspent m hmem hs) }
  all_goals by_cases e : m = n
  all_goals first
    | (subst e; rw [Ztl.setNode_self]) | rw [Ztl.setNode_of_ne _ _ e]
  · rw [hz]; exact h.geometry.slot m hmn i hi
  · exact h.geometry.slot m hmn i hi
  · rw [hu]; exact h.placed m hmn i hi
  · exact h.placed m hmn i hi
  · rw [hu, hl]; exact h.balance m hmn
  · exact h.balance m hmn
  · exact hfree hmem
  · exact h.free m hmem
  · exact hused hmem
  · exact h.used m hmem
  · exact hfull hmem
  · exact h.full m hmem

end

/-! ### Getting a node -/

/-- What `ztl_pro_grp_get_node` leaves alone: only the status of a free node may change. -/
structure Kept (z z' : Ztl) : Prop where
  nnodes : z'.nnodes = z.nnodes
  vzones : z'.vzones = z.vzones
  dev : z'.dev = z.dev
  submitHead : z'.submitHead = z.submitHead
  node : ∀ m, z'.vnodes m = z.vnodes m ∨
    (z.vnodes m).Pristine ∧ z'.vnodes m = { z.vnodes m with status := .used }

theorem Kept.refl (z : Ztl) : Kept z z := ⟨rfl, rfl, rfl, rfl, fun _ => Or.inl rfl⟩

theorem Kept.counters {z z' : Ztl} (h : Kept z z') (m : Nat) :
    (z'.vnodes m).used = (z.vnodes m).used ∧ (z'.vnodes m).left = (z.vnodes m).left ∧
      (z'.vnodes m).nrValid = (z.vnodes m).nrValid ∧ (z'.vnodes m).level = (z.vnodes m).level := by
  rcases h.node m with e | ⟨-, e⟩ <;> rw [e] <;> exact ⟨rfl, rfl, rfl, rfl⟩

/-- The units left to queue `q` without another node. -/
def Ztl.room (z : Ztl) (q : Nat) : Nat :=
  match z.qnode q with
  | none => 0
  | some n => (z.vnodes n).left

/-- **Getting a node.**  It succeeds when the current node has room or a node is free, and keeps the
invariant in any case. -/
theorem Alloc.getNode (h : Alloc z parts) {z' : Ztl} {ok : Bool}
    (e : ztlProGrpGetNode z q = (z', ok)) :
    ∃ parts', Alloc z' parts' ∧ Kept z z' ∧ (ok = true ↔ z.room q ≠ 0 ∨ parts .freeHead ≠ []) ∧
      (ok = true → ∃ n, z'.qnode q = some n ∧ (z'.vnodes n).Open ∧
        (z.room q ≠ 0 → (z'.vnodes n).left = z.room q ∧ parts' = parts) ∧
        (z.room q = 0 → (z'.vnodes n).left = ztlProOptSecNumInnode)) := by
  rcases ztlProGrpGetNode_cases z q with ⟨n, hq, hl, e'⟩ | ⟨z1, h1, h2⟩
  · cases e.symm.trans e'
    have hroom : z.room q = (z.vnodes n).left := by rw [Ztl.room, hq]
    refine ⟨parts, h, Kept.refl z, by simp [hroom, hl], fun _ => ⟨n, hq, ?_, ?_, ?_⟩⟩
    · exact (h.used n (h.qnode_mem hq)).resolve_right fun hs => hl hs.2
    · exact fun _ => ⟨hroom.symm, rfl⟩
    · exact fun h0 => absurd (hroom ▸ h0) hl
  -- the old node, if there is one, is retired
  obtain ⟨parts1, ha1, hk1, hq1, hf1, hroom⟩ : ∃ parts1, Alloc z1 parts1 ∧ Kept z z1 ∧
      z1.qnode q = none ∧ parts1 .freeHead = parts .freeHead ∧ z.room q = 0 := by
    rcases h1 with ⟨hq, rfl⟩ | ⟨n, hq, hl, rfl⟩
    · exact ⟨parts, h, Kept.refl z1, hq, rfl, by rw [Ztl.room, hq]⟩
    · refine ⟨_, h.retire hq hl, ⟨rfl, rfl, rfl, rfl, fun _ => Or.inl rfl⟩, ?_, ?_, ?_⟩
      · exact update_self _ _ _
      · rw [moved, update_of_ne (by simp), update_of_ne (by simp)]
      · rw [Ztl.room, hq]
        exact hl
  have hfirst := (ha1.queues.repr .freeHead).first
  rw [hf1] at hfirst
  rcases h2 with ⟨hnone, e'⟩ | ⟨n, hsome, e'⟩
  · cases e.symm.trans e'
    rw [hnone] at hfirst
    have hnil : parts .freeHead = [] := List.head?_eq_none_iff.mp hfirst.symm
    exact ⟨parts1, ha1, hk1, by simp [hroom, hnil], by simp⟩
  · cases e.symm.trans e'
    rw [hsome] at hfirst
    have hmem : n ∈ parts1 .freeHead := by
      rw [hf1]
      exact List.mem_of_mem_head? hfirst.symm
    have ht := ha1.take hq1 hmem
    have hpr := ha1.free n hmem
    have hself : (Xztl.take z1 q n).vnodes n = { z1.vnodes n with status := .used } :=
      update_self _ _ _
    have hk : Kept z (Xztl.take z1 q n) := by
      refine ⟨hk1.nnodes, hk1.vzones, hk1.dev, hk1.submitHead, fun m => ?_⟩
      have hz1 : z1.vnodes = z.vnodes := by
        rcases h1 with ⟨-, rfl⟩ | ⟨_, -, -, rfl⟩ <;> rfl
      by_cases em : m = n
      · subst em
        rw [hself, ← hz1]
        exact Or.inr ⟨hpr, rfl⟩
      · rw [show (Xztl.take z1 q n).vnodes m = z1.vnodes m from update_of_ne em _ _, hz1]
        exact Or.inl rfl
    refine ⟨_, ht, hk, ?_, fun _ => ⟨n, update_self _ _ _, ?_, ?_, fun _ => ?_⟩⟩
    · have hne : parts .freeHead ≠ [] := by
        rw [← hf1]
        exact List.ne_nil_of_mem hmem
      simp [hne]
    · rw [hself]
      refine ⟨rfl, ?_⟩
      rw [hpr.2.2.1, ztlProOptSecNumInnode_eq]
      omega
    · exact fun hne => absurd hroom hne
    · rw [hself]
      exact hpr.2.2.1

/-! ### Writing a piece -/

/-- The level of a current node is nobody's business here. -/
theorem Alloc.setLevel (h : Alloc z parts) (hn : n ∈ parts .usedHead) (l : Nat) :
    Alloc (setLevel z n l) parts := by
  refine h.setNode rfl rfl rfl (fun hf => ?_) (fun _ => h.used n hn) fun hf => ?_
  · cases h.queues.disj hn hf
  · exact h.full n hf

theorem Alloc.piece {w : WriteReq} {num b : Nat} {z' : Ztl} (h : Alloc z parts)
    (hq : z.qnode q = some n) (ho : (z.vnodes n).Open) (hfit : num ≤ (z.vnodes n).left)
    (hd : PieceDone w z n num b z') : Alloc z' parts := by
  have hn := h.qnode_mem hq
  have hnn := hd.nnodes
  have hqn := hd.qnode
  have hother : ∀ {l m}, m ∈ parts l → l ≠ .usedHead → m ≠ n := fun hm hl e =>
    hl (h.queues.disj (e ▸ hm) hn)
  refine
    { geometry := hd.geometry
      placed := fun m hm => hd.placed m (hnn ▸ hm) (h.placed m (hnn ▸ hm))
      small := hnn ▸ h.small
      balance := fun m hm => ?_
      queues := hd.lists ▸ h.queues
      mem := fun m => hnn ▸ h.mem m
      nfree := hd.nfree.trans h.nfree
      free := fun m hm => ?_
      used := fun m hm => ?_
      full := fun m hm => ?_
      current := fun ha => h.current (hqn ▸ ha)
      owned := fun m hm hs => ?_
      inj := fun ha hb => h.inj (hqn ▸ ha) (hqn ▸ hb) }
  · have hb := h.balance m (hnn ▸ hm)
    by_cases e : m = n
    · subst e
      rw [hd.node_self]
      simp only [Node.wrote]
      omega
    · rw [hd.node_of_ne e]
      exact hb
  · rw [hd.node_of_ne (hother hm (by simp))]
    exact h.free m hm
  · by_cases e : m = n
    · subst e
      rw [hd.node_self]
      by_cases h0 : (z.vnodes m).left - num = 0
      · refine Or.inr ⟨Or.inl ?_, h0⟩
        simp only [Node.wrote, if_pos h0]
      · refine Or.inl ⟨?_, h0⟩
        simp only [Node.wrote, if_neg h0]
        exact ho.1
    · rw [hd.node_of_ne e]
      exact h.used m hm
  · rw [hd.node_of_ne (hother hm (by simp))]
    exact h.full m hm
  · rw [hqn]
    by_cases e : m = n
    · exact ⟨q, e ▸ hq⟩
    · exact h.owned m hm (hd.node_of_ne e ▸ hs)

end

end Xztl
