import Xztl.Zrocks.Accounting

/-!
# Zrocks — the nodes a write touches

A write of a level uses the current node of that level's queue and nodes of the free list, and
leaves the other queues alone (`Pieces.moves`).  So the nodes that other queues have got no piece of
it, and a queue that takes a node takes one without live pieces (`zrocksWrite_moves`).
-/

namespace Xztl

open Function

/-- Nobody's node: as it was initialised, and not a queue's. -/
def Ztl.Unowned (z : Ztl) (n : Nat) : Prop := (z.vnodes n).Pristine ∧ ∀ r, z.qnode r ≠ some n

/-- What the writing of `ps` on queue `q` does to the queues. -/
structure QueueMoves (z : Ztl) (q : Nat) (ps : List Piece) (z' : Ztl) : Prop where
  other : ∀ r, r ≠ q → z'.qnode r = z.qnode r
  self : ∀ n, z'.qnode q = some n → z.qnode q = some n ∨ z.Unowned n
  node : ∀ p ∈ ps, z.qnode q = some p.nodeId ∨ z.Unowned p.nodeId
  unowned : ∀ n, z'.Unowned n → z.Unowned n

section

variable {w : WriteReq} {z z₁ z' : Ztl} {parts : NodeList → List Nat} {q n b left num : Nat}
  {ps ps' : List Piece}

theorem QueueMoves.refl (z : Ztl) (q : Nat) : QueueMoves z q [] z :=
  ⟨fun _ _ => rfl, fun _ hn => .inl hn, fun _ hp => (by cases hp), fun _ hn => hn⟩

theorem QueueMoves.trans (h : QueueMoves z q ps z₁) (h' : QueueMoves z₁ q ps' z') :
    QueueMoves z q (ps ++ ps') z' := by
  have hback : ∀ n, z₁.qnode q = some n ∨ z₁.Unowned n → z.qnode q = some n ∨ z.Unowned n :=
    fun n hn => hn.elim (h.self n) fun hu => .inr (h.unowned n hu)
  refine ⟨fun r hr => (h'.other r hr).trans (h.other r hr), fun n hn => hback n (h'.self n hn),
    fun p hp => ?_, fun n hn => h.unowned n (h'.unowned n hn)⟩
  rcases List.mem_append.mp hp with hp | hp
  · exact h.node p hp
  · exact hback _ (h'.node p hp)

theorem retire_moves (hq : z.qnode q = some n)
    (hl : (z.vnodes n).left = 0) : QueueMoves z q [] (Xztl.retire z q n) := by
  refine ⟨fun r hr => update_of_ne hr _ _, fun m hm => ?_, fun p hp => (by cases hp),
    fun m hm => ⟨hm.1, fun r hr => ?_⟩⟩
  · have : (none : Option Nat) = some m :=
      (update_self (β := fun _ => Option Nat) q none z.qnode).symm.trans hm
    cases this
  · by_cases e : r = q
    · -- the node has no room, a pristine one has
      subst e
      cases hq.symm.trans hr
      have hleft := hm.1.2.2.1
      rw [show (Xztl.retire z r n).vnodes n = z.vnodes n from rfl, hl] at hleft
      cases hleft
    · exact hm.2 r ((update_of_ne e _ _).trans hr)

theorem Alloc.take_moves (h : Alloc z parts) (hq : z.qnode q = none) (hn : n ∈ parts .freeHead) :
    QueueMoves z q [] (Xztl.take z q n) := by
  have hown : z.Unowned n := ⟨h.free n hn, fun r hr => by cases h.queues.disj hn (h.qnode_mem hr)⟩
  have hself : (Xztl.take z q n).qnode q = some n :=
    update_self (β := fun _ => Option Nat) q (some n) z.qnode
  refine ⟨fun r hr => update_of_ne hr _ _, fun m hm => ?_, fun p hp => (by cases hp),
    fun m hm => ?_⟩
  · cases hself.symm.trans hm
    exact Or.inr hown
  · have hne : m ≠ n := fun e => hm.2 q (e ▸ hself)
    have hnode : (Xztl.take z q n).vnodes m = z.vnodes m := update_of_ne hne _ _
    refine ⟨hnode ▸ hm.1, fun r hr => ?_⟩
    by_cases e : r = q
    · subst e
      cases hq.symm.trans hr
    · exact hm.2 r ((update_of_ne e _ _).trans hr)

theorem Alloc.getNode_moves {ok : Bool} (h : Alloc z parts)
    (e : ztlProGrpGetNode z q = (z', ok)) : QueueMoves z q [] z' := by
  rcases ztlProGrpGetNode_cases z q with ⟨n, -, -, e'⟩ | ⟨z₁, h1, h2⟩
  · cases e.symm.trans e'
    exact .refl z q
  obtain ⟨parts1, ha1, hq1, hm1⟩ : ∃ parts1, Alloc z₁ parts1 ∧ z₁.qnode q = none ∧
      QueueMoves z q [] z₁ := by
    rcases h1 with ⟨hq, rfl⟩ | ⟨n, hq, hl, rfl⟩
    · exact ⟨parts, h, hq, .refl z₁ q⟩
    · exact ⟨_, h.retire hq hl, update_self (β := fun _ => Option Nat) q none z.qnode,
        retire_moves hq hl⟩
  rcases h2 with ⟨-, e'⟩ | ⟨n, hf, e'⟩
  · cases e.symm.trans e'
    exact hm1
  · cases e.symm.trans e'
    rw [(ha1.queues.repr .freeHead).first] at hf
    exact hm1.trans (ha1.take_moves hq1 (List.mem_of_head? hf))

theorem PieceDone.moves (hd : PieceDone w (setLevel z n q) n num b z') (hq : z.qnode q = some n)
    (start : Nat) : QueueMoves z q [⟨n, start, num⟩] z' := by
  have hqn : z'.qnode = z.qnode := hd.qnode
  refine ⟨fun r _ => by rw [hqn], fun m hm => .inl (hqn ▸ hm), fun p hp => .inl ?_, fun m hm => ?_⟩
  · rw [List.mem_singleton.mp hp]
    exact hq
  · have hne : m ≠ n := fun e => hm.2 q (by rw [hqn, e]; exact hq)
    have hnode : z'.vnodes m = z.vnodes m := by
      rw [hd.node_of_ne hne, setLevel, Ztl.setNode_of_ne _ _ hne]
    exact ⟨hnode ▸ hm.1, fun r hr => hm.2 r (hqn ▸ hr)⟩

theorem Pieces.moves {ok : Bool} (hp : Pieces w z b left ps ok z') :
    ∀ {parts}, Alloc z parts → QueueMoves z w.provType ps z' := by
  induction hp with
  | fail e => exact fun h => h.getNode_moves e
  | last e hq hle hd => exact fun h => (h.getNode_moves e).trans (hd.moves hq _)
  | more e hq hlt hd _ ih =>
    intro parts h
    obtain ⟨_, -, -, -, -, h'⟩ := h.step e hq (le_refl _) hd
    exact ((h.getNode_moves e).trans (hd.moves hq _)).trans (ih h')

end

/-! ### A write -/

section

variable {z z' : Ztl} {live : List ZrocksMap} {n : Nat}

/-- A node without units has no live piece. -/
theorem Sound.unowned (h : Sound z live) (hpos : ∀ m ∈ live, 0 < m.num.val) (hn : z.Unowned n) :
    ∀ m ∈ live, m.nodeId.val ≠ n := by
  rintro m hm rfl
  have hv := h.acc.valid _ (h.lt m hm)
  rw [hn.1.2.2.2.1, unitsOn_perm (List.perm_cons_erase hm), unitsOn_cons, if_pos rfl] at hv
  have := hpos m hm
  omega

/-- What a write at queue `q` does to the queues, seen from the pieces. -/
structure LevelMoves (live : List ZrocksMap) (q : Nat) (maps : List ZrocksMap) (z z' : Ztl) : Prop where
  other : ∀ r, r ≠ q → z'.qnode r = z.qnode r
  /-- The queue keeps its node or has one without live pieces. -/
  self : ∀ n, z'.qnode q = some n → z.qnode q = some n ∨ ∀ m ∈ live, m.nodeId.val ≠ n
  /-- The new pieces are on no other queue's node. -/
  node : ∀ m ∈ maps, ∀ r, z'.qnode r = some m.nodeId.val → r = q
  pos : ∀ m ∈ maps, 0 < m.num.val

theorem Sound.write_moves {c : WriteCall} {ans : List MediaAns} {ret : Nat} {maps : List ZrocksMap}
    (h : Sound z live) (hpos : ∀ m ∈ live, 0 < m.num.val) (hc : 0 < c.ncmd)
    (e : zrocksWrite z c ans = .ok (z', ret, maps)) :
    LevelMoves live (clampLevel c.level) maps z z' := by
  obtain ⟨parts, ha⟩ := h.alloc
  obtain ⟨-, ⟨-, rfl, rfl⟩ | ⟨-, ps, ok, parts', hp, ha', rfl, hrc⟩⟩ := zrocksWrite_spec ha e
  · exact ⟨fun _ _ => rfl, fun _ hn => .inl hn, fun _ hm => (by cases hm), fun _ hm => (by cases hm)⟩
  have hm := hp.moves ha
  have hfits := hp.fits ha hrc
  refine ⟨hm.other, fun n hn => (hm.self n hn).imp_right (h.unowned hpos), fun m hmm r hr => ?_,
    fun m hmm => ?_⟩
  · obtain ⟨p, hpm, hnode, -⟩ := mem_toMaps hfits hmm
    rw [hnode] at hr
    by_contra hne
    have hr0 : z.qnode r = some p.nodeId := (hm.other r hne).symm.trans hr
    rcases hm.node p hpm with hq | hu
    · exact hne (ha.inj hr0 hq)
    · exact hu.2 r hr0
  · obtain ⟨p, hpm, -, hnum⟩ := mem_toMaps hfits hmm
    rw [hnum]
    exact hp.pos ha hc p hpm

end

end Xztl
