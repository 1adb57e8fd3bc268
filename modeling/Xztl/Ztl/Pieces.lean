import Xztl.Ztl.Alloc

/-!
# Ztl — the pieces of a write

`Pieces w z b left ps ok z'` says what the `reget` loop does from state `z` on with `left` units
still to write, the first of them unit `b` of the buffer: it writes the pieces `ps`, one node after
the other, and ends in `z'`, either because everything is written (`ok`) or because no node is left.

`Rounds` is the loop as it is written, for a state about which nothing is known (`reget_rounds`).
`reget_spec` reads `Pieces` off it under the allocator's invariant; everything about a write is
then an induction on `Pieces`.
`exists_reget` is the other direction: a request of at most 1024 units for which there is room can
be completed.
-/

namespace Xztl

open List

/-- The run of the `reget` loop. -/
inductive Pieces (w : WriteReq) : Ztl → (b left : Nat) → List Piece → Bool → Ztl → Prop where
  | fail {z z' : Ztl} {b left : Nat} (e : ztlProGrpGetNode z w.provType = (z', false)) :
      Pieces w z b left [] false z'
  | last {z z₁ z' : Ztl} {b left n : Nat} (e : ztlProGrpGetNode z w.provType = (z₁, true))
      (hq : z₁.qnode w.provType = some n) (hle : left ≤ (z₁.vnodes n).left)
      (hd : PieceDone w (setLevel z₁ n w.provType) n left b z') :
      Pieces w z b left [⟨n, (z₁.vnodes n).used, left⟩] true z'
  | more {z z₁ z₂ z' : Ztl} {b left n : Nat} {ps : List Piece} {ok : Bool}
      (e : ztlProGrpGetNode z w.provType = (z₁, true)) (hq : z₁.qnode w.provType = some n)
      (hlt : (z₁.vnodes n).left < left)
      (hd : PieceDone w (setLevel z₁ n w.provType) n (z₁.vnodes n).left b z₂)
      (t : Pieces w z₂ (b + (z₁.vnodes n).left) (left - (z₁.vnodes n).left) ps ok z') :
      Pieces w z b left (⟨n, (z₁.vnodes n).used, (z₁.vnodes n).left⟩ :: ps) ok z'

/-- The rounds of the `reget` loop as they are made, nothing being said about the state. -/
inductive Rounds (w : WriteReq) : Ztl → (boff left : Nat) → List Piece → Bool → Ztl → Prop where
  | fail {z z' : Ztl} {boff left : Nat} (e : ztlProGrpGetNode z w.provType = (z', false)) :
      Rounds w z boff left [] false z'
  | last {z z₁ z' : Ztl} {boff boff' left n status status' : Nat} {ans ans' : List MediaAns}
      (e : ztlProGrpGetNode z w.provType = (z₁, true)) (hq : z₁.qnode w.provType = some n)
      (hle : left ≤ (z₁.vnodes n).left)
      (ew : writePiece w (setLevel z₁ n w.provType) n left boff status ans
        = .ok (z', status', boff', ans')) :
      Rounds w z boff left [⟨n, (z₁.vnodes n).used, left⟩] true z'
  | more {z z₁ z₂ z' : Ztl} {boff boff' left n status status' : Nat} {ans ans' : List MediaAns}
      {ps : List Piece} {ok : Bool} (e : ztlProGrpGetNode z w.provType = (z₁, true))
      (hq : z₁.qnode w.provType = some n) (hlt : (z₁.vnodes n).left < left)
      (ew : writePiece w (setLevel z₁ n w.provType) n (z₁.vnodes n).left boff status ans
        = .ok (z₂, status', boff', ans'))
      (t : Rounds w z₂ boff' (left - (z₁.vnodes n).left) ps ok z') :
      Rounds w z boff left (⟨n, (z₁.vnodes n).used, (z₁.vnodes n).left⟩ :: ps) ok z'

variable {num : Nat} {ps : List Piece} {ok : Bool}

/-- When `reget` returns, it has made its rounds. -/
theorem reget_rounds {w : WriteReq} {z' : Ztl} {u' : Ucmd} (fuel : Nat) :
    ∀ {z : Ztl} {boff left : Nat} {u : Ucmd} {ans : List MediaAns},
      reget w fuel z left boff u ans = .ok (z', u') →
      ∃ ps ok, Rounds w z boff left ps ok z' ∧ u'.pieces = u.pieces ++ ps := by
  induction fuel with
  | zero =>
    intro z boff left u ans e
    cases e
  | succ fuel ih =>
    intro z boff left u ans e
    rw [reget] at e
    rcases hg : ztlProGrpGetNode z w.provType with ⟨z₁, _ | _⟩
    · simp only [hg] at e
      cases e
      exact ⟨[], false, .fail hg, (append_nil _).symm⟩
    · simp only [hg] at e
      cases hq : z₁.qnode w.provType with
      | none =>
        simp only [hq] at e
        cases e
      | some n =>
        simp only [hq] at e
        by_cases hlen : u.pieces.length < ucmdPieceNum
        · rw [if_pos hlen] at e
          obtain ⟨⟨z₂, status, boff', ans1⟩, ew, e⟩ := Except.bind_eq_ok.mp e
          by_cases hle : left ≤ (z₁.vnodes n).left
          · -- the node takes all that is left
            have hnum : (if (z₁.vnodes n).left ≤ left then (z₁.vnodes n).left else left)
                = left := by split <;> omega
            rw [hnum] at ew e
            simp only [Nat.sub_self, lt_irrefl, if_false] at e
            cases e
            exact ⟨_, true, .last hg hq hle ew, rfl⟩
          · have hlt := Nat.lt_of_not_le hle
            rw [if_pos (le_of_lt hlt)] at ew e
            rw [if_pos (by omega)] at e
            obtain ⟨ps, ok, hr, hu⟩ := ih e
            exact ⟨_, ok, .more hg hq hlt ew hr, by rw [hu, append_assoc]; rfl⟩
        · rw [if_neg hlen] at e
          cases e

section

variable {w : WriteReq} {z z' : Ztl} {parts : NodeList → List Nat} {b left n : Nat}

@[simp] theorem setLevel_nnodes (z : Ztl) (n l : Nat) : (setLevel z n l).nnodes = z.nnodes := rfl

@[simp] theorem setLevel_used (z : Ztl) (n l : Nat) :
    ((setLevel z n l).vnodes n).used = (z.vnodes n).used := by simp [setLevel]

@[simp] theorem setLevel_left (z : Ztl) (n l : Nat) :
    ((setLevel z n l).vnodes n).left = (z.vnodes n).left := by simp [setLevel]

/-- What the invariant gives about the node of a round, before and after the piece. -/
theorem Alloc.step {z₁ : Ztl} (h : Alloc z parts)
    (e : ztlProGrpGetNode z w.provType = (z₁, true)) (hq : z₁.qnode w.provType = some n)
    (hle : num ≤ (z₁.vnodes n).left)
    (hd : PieceDone w (Xztl.setLevel z₁ n w.provType) n num b z') :
    ∃ parts1, Alloc z₁ parts1 ∧ Kept z z₁ ∧ (z₁.vnodes n).Open ∧ n ∈ parts1 .usedHead ∧
      Alloc z' parts1 := by
  obtain ⟨parts1, h1, hk, -, hopen⟩ := h.getNode e
  obtain ⟨n', hq', ho, -, -⟩ := hopen rfl
  obtain rfl : n' = n := Option.some.inj (hq'.symm.trans hq)
  have hn := h1.qnode_mem hq
  refine ⟨parts1, h1, hk, ho, hn, (h1.setLevel hn w.provType).piece hq ?_ (by simpa using hle) hd⟩
  simpa [Xztl.setLevel, Node.Open] using ho

/-- A piece of a round, with the facts the invariant gives about its node. -/
theorem Alloc.round {boff' status status' : Nat} {ans ans' : List MediaAns}
    (h : Alloc z parts) (e : ztlProGrpGetNode z w.provType = (z₁, true))
    (hq : z₁.qnode w.provType = some n) (hnum : num ≤ (z₁.vnodes n).left)
    (ew : writePiece w (Xztl.setLevel z₁ n w.provType) n num (unitBytes * b) status ans
      = .ok (z', status', boff', ans')) : num ≤ ztlIoRcNum ∧ boff' = unitBytes * (b + num) ∧
      PieceDone w (Xztl.setLevel z₁ n w.provType) n num b z' ∧ ∃ parts', Alloc z' parts' := by
  obtain ⟨parts1, h1, -⟩ := h.getNode e
  have hn := h1.qnode_mem hq
  have hlt := h1.lt hn
  have h2 := h1.setLevel hn w.provType
  have hb := h1.balance n hlt
  obtain ⟨hrc, hboff, hd⟩ :=
    writePiece_spec h2.geometry hlt (h2.placed n hlt) (by simp; omega) ew
  obtain ⟨parts', -, -, -, -, h'⟩ := h.step e hq hnum hd
  exact ⟨hrc, hboff, hd, parts', h'⟩

/-- **The loop.**  When `reget` returns, its run is a `Pieces`, every piece has at most 1024 units,
and the invariant holds. -/
theorem Rounds.pieces {boff : Nat} (hr : Rounds w z boff left ps ok z') :
    ∀ {parts : NodeList → List Nat} {b : Nat}, boff = unitBytes * b → Alloc z parts →
      ∃ parts', Pieces w z b left ps ok z' ∧ Alloc z' parts' ∧ ∀ p ∈ ps, p.num ≤ ztlIoRcNum := by
  induction hr with
  | fail e =>
    rintro parts b rfl h
    obtain ⟨parts', h', -⟩ := h.getNode e
    exact ⟨parts', .fail e, h', by simp⟩
  | last e hq hle ew =>
    rintro parts b rfl h
    obtain ⟨hrc, -, hd, parts', h'⟩ := h.round e hq hle ew
    exact ⟨parts', .last e hq hle hd, h', by simpa using hrc⟩
  | more e hq hlt ew _ ih =>
    rintro parts b rfl h
    obtain ⟨hrc, hboff, hd, parts', h'⟩ := h.round e hq (le_refl _) ew
    obtain ⟨parts'', hp, h'', hps⟩ := ih hboff h'
    exact ⟨parts'', .more e hq hlt hd hp, h'', forall_mem_cons.mpr ⟨hrc, hps⟩⟩

theorem reget_spec {fuel : Nat} {u' : Ucmd} {ans : List MediaAns} (h : Alloc z parts)
    (e : reget w fuel z left (unitBytes * b) u ans = .ok (z', u')) :
    ∃ ps ok parts', Pieces w z b left ps ok z' ∧ Alloc z' parts' ∧ u'.pieces = u.pieces ++ ps ∧
      ∀ p ∈ ps, p.num ≤ ztlIoRcNum := by
  obtain ⟨ps, ok, hr, hu⟩ := reget_rounds fuel e
  obtain ⟨parts', hp, h', hps⟩ := hr.pieces rfl h
  exact ⟨ps, ok, parts', hp, h', hu, hps⟩

section

variable (hp : Pieces w z b left ps ok z')
include hp

/-- Writing adds no node and queues nothing. -/
theorem Pieces.kept : ∀ {parts}, Alloc z parts →
    z'.nnodes = z.nnodes ∧ z'.submitHead = z.submitHead := by
  induction hp with
  | fail e =>
    intro parts h
    obtain ⟨-, -, hk, -⟩ := h.getNode e
    exact ⟨hk.nnodes, hk.submitHead⟩
  | last e hq hle hd =>
    intro parts h
    obtain ⟨-, -, hk, -⟩ := h.step e hq hle hd
    exact ⟨hd.nnodes.trans hk.nnodes, hd.submitHead.trans hk.submitHead⟩
  | more e hq hlt hd _ ih =>
    intro parts h
    obtain ⟨parts1, -, hk, -, -, h'⟩ := h.step e hq (le_refl _) hd
    obtain ⟨hn, hs⟩ := ih h'
    exact ⟨hn.trans (hd.nnodes.trans hk.nnodes), hs.trans (hd.submitHead.trans hk.submitHead)⟩

/-- Every piece lies within its node. -/
theorem Pieces.within : ∀ {parts}, Alloc z parts →
      ∀ p ∈ ps, p.nodeId < z.nnodes ∧ p.start + p.num ≤ ztlProOptSecNumInnode := by
  induction hp with
  | fail e =>
    intro parts _ p hpm
    cases hpm
  | last e hq hle hd =>
    intro parts h p hpm
    obtain ⟨parts1, h1, hk, -, hn, -⟩ := h.step e hq hle hd
    obtain rfl := mem_singleton.mp hpm
    have hb := h1.balance _ (h1.lt hn)
    exact ⟨hk.nnodes ▸ h1.lt hn, by simp only; omega⟩
  | more e hq hlt hd _ ih =>
    intro parts h p hpm
    obtain ⟨parts1, h1, hk, -, hn, h'⟩ := h.step e hq (le_refl _) hd
    rcases mem_cons.mp hpm with rfl | hpm
    · have hb := h1.balance _ (h1.lt hn)
      exact ⟨hk.nnodes ▸ h1.lt hn, by simp only; omega⟩
    · have := ih h' p hpm
      rwa [hd.nnodes, setLevel_nnodes, hk.nnodes] at this

/-- Nothing is written to a node without room. -/
theorem Pieces.spent {k : Nat} :
    ∀ {parts}, Alloc z parts → (z.vnodes k).left = 0 →
      (z'.vnodes k).left = 0 ∧ (z'.vnodes k).nrValid = (z.vnodes k).nrValid := by
  have hround : ∀ {z z₁ z' : Ztl} {n num b : Nat}, Kept z z₁ → (z₁.vnodes n).Open →
      PieceDone w (Xztl.setLevel z₁ n w.provType) n num b z' → (z.vnodes k).left = 0 →
      (z'.vnodes k).left = 0 ∧ (z'.vnodes k).nrValid = (z.vnodes k).nrValid := by
    intro z z₁ z' n num b hk ho hd hl
    obtain ⟨-, hleft, hvalid, -⟩ := hk.counters k
    have hne : k ≠ n := fun e => ho.2 (e ▸ hleft.trans hl)
    rw [hd.node_of_ne hne, Xztl.setLevel, Ztl.setNode_of_ne _ _ hne]
    exact ⟨hleft.trans hl, hvalid⟩
  induction hp with
  | fail e =>
    intro parts h hl
    obtain ⟨-, -, hk, -⟩ := h.getNode e
    obtain ⟨-, hleft, hvalid, -⟩ := hk.counters k
    exact ⟨hleft.trans hl, hvalid⟩
  | last e hq hle hd =>
    intro parts h hl
    obtain ⟨-, -, hk, ho, -⟩ := h.step e hq hle hd
    exact hround hk ho hd hl
  | more e hq hlt hd _ ih =>
    intro parts h hl
    obtain ⟨parts1, -, hk, ho, -, h'⟩ := h.step e hq (le_refl _) hd
    obtain ⟨hl1, hv1⟩ := hround hk ho hd hl
    obtain ⟨hl2, hv2⟩ := ih h' hl1
    exact ⟨hl2, hv2.trans hv1⟩

end

/-- The units of the pieces. -/
def pieceSum (ps : List Piece) : Nat := (ps.map Piece.num).sum

@[simp] theorem pieceSum_nil : pieceSum [] = 0 := rfl

@[simp] theorem pieceSum_cons (p : Piece) (ps : List Piece) :
    pieceSum (p :: ps) = p.num + pieceSum ps := rfl

/-- An exhausted node leaves its queue without room. -/
theorem room_exhausted {z₁ z₂ : Ztl} {q : Nat} (hq : z₁.qnode q = some n)
    (hd : PieceDone w (setLevel z₁ n q) n (z₁.vnodes n).left b z₂) : z₂.room q = 0 := by
  rw [Ztl.room, hd.qnode, show (setLevel z₁ n q).qnode = z₁.qnode from rfl, hq]
  show (z₂.vnodes n).left = 0
  rw [hd.node_self]
  simp [Node.wrote]

/-- There is room for `left` units: in the current node of the queue, or in a free node. -/
def Enough (z : Ztl) (q left : Nat) : Prop :=
  left ≤ z.room q ∨ (z.lists.head .freeHead).first ≠ none

theorem Alloc.enough_iff (h : Alloc z parts) {q : Nat} :
    Enough z q left ↔ left ≤ z.room q ∨ parts .freeHead ≠ [] := by
  rw [Enough, (h.queues.repr .freeHead).first]
  simp

theorem Pieces.pos (hp : Pieces w z b left ps ok z') :
    ∀ {parts}, Alloc z parts → 0 < left → ∀ p ∈ ps, 0 < p.num := by
  induction hp with
  | fail e =>
    intro parts _ _ p hpm
    cases hpm
  | last e hq hle hd =>
    intro parts _ hpos p hpm
    rw [mem_singleton.mp hpm]
    exact hpos
  | more e hq hlt hd _ ih =>
    intro parts h hpos p hpm
    obtain ⟨_, -, -, ho, -, h'⟩ := h.step e hq (le_refl _) hd
    rcases mem_cons.mp hpm with rfl | hpm
    · exact Nat.pos_of_ne_zero ho.2
    · exact ih h' (by omega) p hpm

/-- Nothing is written exactly when there is no room for a unit. -/
theorem Pieces.eq_nil_iff (hp : Pieces w z b left ps ok z')
    (h : Alloc z parts) : ps = [] ↔ ¬ Enough z w.provType 1 := by
  have hok : ∀ {z₁ ok'}, ztlProGrpGetNode z w.provType = (z₁, ok') →
      (ok' = true ↔ Enough z w.provType 1) := fun e => by
    obtain ⟨-, -, -, hiff, -⟩ := h.getNode e
    rw [hiff, h.enough_iff, Nat.one_le_iff_ne_zero]
  cases hp with
  | fail e => exact ⟨fun _ hen => Bool.false_ne_true ((hok e).mpr hen), fun _ => rfl⟩
  | last e =>
    exact ⟨fun hnil => absurd hnil (cons_ne_nil _ _), fun hno => absurd ((hok e).mp rfl) hno⟩
  | more e =>
    exact ⟨fun hnil => absurd hnil (cons_ne_nil _ _), fun hno => absurd ((hok e).mp rfl) hno⟩

/-- **How much is written.**  Everything when there is room, and otherwise what the current node
has left. -/
theorem Pieces.units (hp : Pieces w z b left ps ok z') :
    ∀ {parts}, Alloc z parts → 0 < left → left ≤ ztlProOptSecNumInnode →
      (Enough z w.provType left → ok = true ∧ pieceSum ps = left) ∧
      (¬ Enough z w.provType left → ok = false ∧ pieceSum ps = z.room w.provType) := by
  induction hp with
  | fail e =>
    intro parts h hpos _
    obtain ⟨-, -, -, hok, -⟩ := h.getNode e
    have hno := mt hok.mpr (by simp)
    push Not at hno
    rw [h.enough_iff, hno.1, hno.2]
    refine ⟨?_, fun _ => ⟨rfl, rfl⟩⟩
    rintro (h' | h')
    · omega
    · exact absurd rfl h'
  | @last z z₁ _ b left n e hq hle hd =>
    intro parts h hpos _
    obtain ⟨parts1, h1, hk, hok, hopen⟩ := h.getNode e
    refine ⟨fun _ => ⟨rfl, by simp⟩, fun hno => absurd ?_ hno⟩
    rw [h.enough_iff]
    obtain ⟨n', hq', -, hne, -⟩ := hopen rfl
    obtain rfl : n' = n := Option.some.inj (hq'.symm.trans hq)
    rcases hok.mp rfl with h0 | hf
    · exact Or.inl ((hne h0).1 ▸ hle)
    · exact Or.inr hf
  | @more z z₁ z₂ _ b left n ps ok e hq hlt hd _ ih =>
    intro parts h hpos hmax
    obtain ⟨parts1, h1, hk, -, hn, h'⟩ := h.step e hq (le_refl _) hd
    obtain ⟨parts2, h2, -, hok, hopen⟩ := h.getNode e
    obtain ⟨n', hq', ho, hne, hzero⟩ := hopen rfl
    obtain rfl : n' = n := Option.some.inj (hq'.symm.trans hq)
    -- a fresh node would have taken everything, so this one was the current node before
    have hroom : z.room w.provType ≠ 0 := fun h0 => by
      rw [hzero h0] at hlt
      omega
    obtain ⟨hleft, rfl⟩ := hne hroom
    have hroom' := room_exhausted hq hd
    obtain ⟨hyes, hno⟩ := ih h' (by omega) (by omega)
    have hfree : parts1 .freeHead = parts2 .freeHead :=
      (h1.queues.repr .freeHead).unique (h2.queues.repr .freeHead)
    rw [h'.enough_iff, hroom', hfree] at hyes hno
    rw [h.enough_iff]
    refine ⟨fun hen => ?_, fun hen => ?_⟩
    · obtain ⟨hok', hsum⟩ := hyes (Or.inr (hen.resolve_left (by omega)))
      refine ⟨hok', ?_⟩
      rw [pieceSum_cons, hsum]
      exact Nat.add_sub_of_le (le_of_lt hlt)
    · push Not at hen
      obtain ⟨hok', hsum⟩ := hno fun hc => hc.elim (by omega) fun hf => hf hen.2
      refine ⟨hok', ?_⟩
      rw [pieceSum_cons, hsum, Nat.add_zero]
      exact hleft

/-- The room that the next units of a queue find together: in its current node, or in a new one when
that has none. -/
def Ztl.nextRoom (z : Ztl) (q : Nat) : Nat :=
  if z.room q = 0 then ztlProOptSecNumInnode else z.room q

theorem Ztl.nextRoom_pos (z : Ztl) (q : Nat) : 1 ≤ z.nextRoom q := by
  rw [Ztl.nextRoom]
  split
  · decide
  · omega

/-- Units that find room together go to a single piece. -/
theorem Pieces.one {k : Nat} (hp : Pieces w z b k ps ok z') (h : Alloc z parts) (hk : 0 < k)
    (hen : Enough z w.provType k) (hfit : k ≤ z.nextRoom w.provType) :
    (∃ n u, ps = [⟨n, u, k⟩]) ∧ z'.room w.provType + k = z.nextRoom w.provType := by
  have hopened : ∀ {z₁ n}, ztlProGrpGetNode z w.provType = (z₁, true) →
      z₁.qnode w.provType = some n → (z₁.vnodes n).left = z.nextRoom w.provType := by
    intro z₁ n e hq
    obtain ⟨_, -, -, -, hopen⟩ := h.getNode e
    obtain ⟨n', hq', -, hroom, hzero⟩ := hopen rfl
    obtain rfl : n' = n := Option.some.inj (hq'.symm.trans hq)
    rw [Ztl.nextRoom]
    by_cases h0 : z.room w.provType = 0
    · rw [if_pos h0, hzero h0]
    · rw [if_neg h0, (hroom h0).1]
  have hne : ps ≠ [] := fun h0 => (hp.eq_nil_iff h).mp h0 (hen.imp (le_trans hk) id)
  cases hp with
  | fail e => exact absurd rfl hne
  | @last _ z₁ _ _ _ n e hq hle hd =>
    refine ⟨⟨_, _, rfl⟩, ?_⟩
    rw [← hopened e hq, Ztl.room, hd.qnode,
      show (setLevel z₁ n w.provType).qnode = z₁.qnode from rfl, hq]
    show (z'.vnodes n).left + k = _
    rw [hd.node_self]
    simp only [Node.wrote, setLevel_left]
    omega
  | more e hq hlt hd => exact absurd hfit (Nat.not_le_of_lt (hopened e hq ▸ hlt))

/-- A round of at most 1024 units can be completed. -/
theorem Alloc.exists_round (h : Alloc z parts)
    (e : ztlProGrpGetNode z w.provType = (z₁, true)) (hq : z₁.qnode w.provType = some n)
    (hnum : num ≤ (z₁.vnodes n).left) (hrc : num ≤ ztlIoRcNum) (boff status : Nat) :
    ∃ pre z' status' boff', ∀ ans,
      writePiece w (Xztl.setLevel z₁ n w.provType) n num boff status (pre ++ ans)
        = .ok (z', status', boff', ans) := by
  obtain ⟨parts1, h1, -⟩ := h.getNode e
  have hn := h1.qnode_mem hq
  have hlt := h1.lt hn
  have h2 := h1.setLevel hn w.provType
  have hb := h1.balance n hlt
  exact exists_writePiece h2.geometry hlt (h2.placed n hlt) (by simp; omega) hrc boff status

section

variable {z₁ z₂ : Ztl} {fuel boff status boff' : Nat} {u : Ucmd} {ans ans' : List MediaAns}

theorem reget_fail (hg : ztlProGrpGetNode z w.provType = (z₁, false)) :
    reget w (fuel + 1) z left boff u ans = .ok (z₁, { u with status := xztlZtlIoSErr }) := by
  rw [reget]
  simp only [hg]

section

variable (hg : ztlProGrpGetNode z w.provType = (z₁, true)) (hq : z₁.qnode w.provType = some n)
  (hlen : u.pieces.length < ucmdPieceNum)
include hg hq hlen

theorem reget_last (hle : left ≤ (z₁.vnodes n).left)
    (ew : writePiece w (setLevel z₁ n w.provType) n left boff u.status ans
      = .ok (z₂, status, boff', ans')) :
    reget w (fuel + 1) z left boff u ans
      = .ok (z₂, ⟨status, u.pieces ++ [⟨n, (z₁.vnodes n).used, left⟩]⟩) := by
  have hnum : (if (z₁.vnodes n).left ≤ left then (z₁.vnodes n).left else left) = left := by
    split <;> omega
  rw [reget]
  simp only [hg, hq, if_pos hlen, hnum, ew]
  simp only [bind, Except.bind, Nat.sub_self, lt_irrefl, if_false]
  rfl

theorem reget_more (hlt : (z₁.vnodes n).left < left)
    (ew : writePiece w (setLevel z₁ n w.provType) n (z₁.vnodes n).left boff u.status ans
      = .ok (z₂, status, boff', ans')) :
    reget w (fuel + 1) z left boff u ans
      = reget w fuel z₂ (left - (z₁.vnodes n).left) boff'
          ⟨status, u.pieces ++ [⟨n, (z₁.vnodes n).used, (z₁.vnodes n).left⟩]⟩ ans' := by
  rw [reget]
  simp only [hg, hq, if_pos hlen, if_pos (le_of_lt hlt), ew]
  simp only [bind, Except.bind, if_pos (show 0 < left - (z₁.vnodes n).left by omega)]

end

end

/-- A round that needs no further one can be completed: the current node has room for everything, or
none at all, and then a fresh node has. -/
theorem exists_reget_last (h : Alloc z parts) (hrc : left ≤ ztlIoRcNum)
    (hroom : left ≤ z.room w.provType ∨ z.room w.provType = 0)
    (hlen : u.pieces.length < ucmdPieceNum) (fuel boff : Nat) :
    ∃ ans r, reget w (fuel + 1) z left boff u ans = .ok r := by
  rcases hg : ztlProGrpGetNode z w.provType with ⟨z₁, _ | _⟩
  · exact ⟨[], _, reget_fail hg⟩
  obtain ⟨parts1, h1, -, -, hopen⟩ := h.getNode hg
  obtain ⟨n, hq, ho, hne, hzero⟩ := hopen rfl
  have hle : left ≤ (z₁.vnodes n).left := by
    by_cases h0 : z.room w.provType = 0
    · rw [hzero h0, ztlProOptSecNumInnode_eq]
      rw [ztlIoRcNum_eq] at hrc
      omega
    · rw [(hne h0).1]
      exact hroom.resolve_right h0
  obtain ⟨pre, z', status', boff', hw⟩ := h.exists_round hg hq hle hrc boff u.status
  exact ⟨pre ++ [], _, reget_last hg hq hlen hle (hw [])⟩

/-- **A request of at most 1024 units can be completed**, with or without room for it. -/
theorem exists_reget (h : Alloc z parts) (hrc : left ≤ ztlIoRcNum)
    (hlen : u.pieces = []) (b : Nat) :
    ∃ ans r, reget w (ucmdPieceNum + 1) z left (unitBytes * b) u ans = .ok r := by
  have hlen0 : u.pieces.length < ucmdPieceNum := by rw [hlen]; decide
  by_cases hroom : left ≤ z.room w.provType ∨ z.room w.provType = 0
  · exact exists_reget_last h hrc hroom hlen0 _ _
  push Not at hroom
  rcases hg : ztlProGrpGetNode z w.provType with ⟨z₁, _ | _⟩
  · exact ⟨[], _, reget_fail hg⟩
  obtain ⟨parts1, h1, -, -, hopen⟩ := h.getNode hg
  obtain ⟨n, hq, -, hne, -⟩ := hopen rfl
  have hlt : (z₁.vnodes n).left < left := by
    rw [(hne hroom.2).1]
    exact hroom.1
  obtain ⟨pre, z₂, status', boff', hw⟩ :=
    h.exists_round hg hq (le_refl _) (by omega) (unitBytes * b) u.status
  obtain ⟨-, -, hd, parts', h'⟩ := h.round hg hq (le_refl _) (hw [])
  -- the node is exhausted, so the next round gets a fresh one
  have hroom' := room_exhausted hq hd
  have hrest : left - (z₁.vnodes n).left ≤ ztlIoRcNum := by omega
  obtain ⟨ans, r, e⟩ := exists_reget_last (w := w)
    (u := ⟨status', u.pieces ++ [⟨n, (z₁.vnodes n).used, (z₁.vnodes n).left⟩]⟩)
    h' hrest (Or.inr hroom') (by simp [hlen, ucmdPieceNum]) (ucmdPieceNum - 1) boff'
  exact ⟨pre ++ ans, r, (reget_more hg hq hlen0 hlt (hw ans)).trans e⟩

end

end Xztl
