import Xztl.Zrocks.Api
import Xztl.Ztl.Init

/-!
# Zrocks — valid units

`nr_valid` counts the units of a node that belong to live pieces.  `Accounted z t` says that every
node's count is `t`, that a full node has valid units and a node to be reset has none, and that the
management queue holds nodes to be reset, each once.

A write adds its pieces to the count (`Pieces.accounted`, `Sound.write`), a trim takes one off
(`Sound.trim`), and the reset of a node without valid units changes no count (`Sound.reset`).
-/

namespace Xztl

open List

/-- The units of `live` on node `n`. -/
def unitsOn (live : List ZrocksMap) (n : Nat) : Nat :=
  (live.map fun m => if m.nodeId.val = n then m.num.val else 0).sum

/-- The units of the pieces `ps` on node `n`. -/
def pieceUnits (ps : List Piece) (n : Nat) : Nat :=
  (ps.map fun p => if p.nodeId = n then p.num else 0).sum

variable {ps : List Piece} {m : ZrocksMap} {ok : Bool} {ret : Nat} {rest : List (Nat × MgmtOp)}

@[simp] theorem unitsOn_nil (n : Nat) : unitsOn [] n = 0 := rfl

@[simp] theorem unitsOn_cons (m : ZrocksMap) (live : List ZrocksMap) (n : Nat) :
    unitsOn (m :: live) n = (if m.nodeId.val = n then m.num.val else 0) + unitsOn live n := rfl

@[simp] theorem unitsOn_append (l l' : List ZrocksMap) (n : Nat) :
    unitsOn (l ++ l') n = unitsOn l n + unitsOn l' n := by simp [unitsOn]

theorem unitsOn_perm {l l' : List ZrocksMap} (h : l.Perm l') (n : Nat) :
    unitsOn l n = unitsOn l' n := (h.map _).sum_eq

theorem unitsOn_eq_zero {ms : List ZrocksMap} {n : Nat} (h : ∀ m ∈ ms, m.nodeId.val ≠ n) :
    unitsOn ms n = 0 := by
  induction ms with
  | nil => rfl
  | cons m ms ih =>
    rw [unitsOn_cons, if_neg (h m mem_cons_self), Nat.zero_add]
    exact ih fun m' hm' => h m' (mem_cons_of_mem _ hm')

@[simp] theorem pieceUnits_nil (n : Nat) : pieceUnits [] n = 0 := rfl

@[simp] theorem pieceUnits_cons (p : Piece) (ps : List Piece) (n : Nat) :
    pieceUnits (p :: ps) n = (if p.nodeId = n then p.num else 0) + pieceUnits ps n := rfl

/-- A piece that fits the bit fields. -/
structure Piece.Fits (p : Piece) : Prop where
  nodeId : p.nodeId < 2 ^ 14
  start : p.start < 2 ^ 22
  num : p.num < 2 ^ 11

namespace ZrocksMap

variable {p : Piece} (h : p.Fits) (padding : Nat)

include h

theorem ofPiece_nodeId : (ofPiece p padding).nodeId.val = p.nodeId := Nat.mod_eq_of_lt h.nodeId
theorem ofPiece_start : (ofPiece p padding).start.val = p.start := Nat.mod_eq_of_lt h.start
theorem ofPiece_num : (ofPiece p padding).num.val = p.num := Nat.mod_eq_of_lt h.num

end ZrocksMap

/-- The packed pieces account for the same units. -/
theorem unitsOn_toMaps (h : ∀ p ∈ ps, p.Fits) (padding n : Nat) :
    unitsOn (toMaps ps padding) n = pieceUnits ps n := by
  induction ps with
  | nil => rfl
  | cons p ps ih =>
    have hp := h p mem_cons_self
    cases ps with
    | nil =>
      simp [toMaps, ZrocksMap.ofPiece_nodeId hp, ZrocksMap.ofPiece_num hp]
    | cons p' ps =>
      rw [toMaps, unitsOn_cons, ih fun q hq => h q (mem_cons_of_mem _ hq),
        ZrocksMap.ofPiece_nodeId hp, ZrocksMap.ofPiece_num hp]
      rfl

/-- The units of returned pieces. -/
def mapUnits (ms : List ZrocksMap) : Nat := (ms.map fun m => m.num.val).sum

@[simp] theorem mapUnits_nil : mapUnits [] = 0 := rfl

@[simp] theorem mapUnits_cons (m : ZrocksMap) (ms : List ZrocksMap) :
    mapUnits (m :: ms) = m.num + mapUnits ms := rfl

theorem mapUnits_toMaps (h : ∀ p ∈ ps, p.Fits) (padding : Nat) :
    mapUnits (toMaps ps padding) = pieceSum ps := by
  induction ps with
  | nil => rfl
  | cons p ps ih =>
    have hp := h p mem_cons_self
    cases ps with
    | nil => simp [toMaps, ZrocksMap.ofPiece_num hp]
    | cons p' ps =>
      rw [toMaps, mapUnits_cons, ih fun q hq => h q (mem_cons_of_mem _ hq),
        ZrocksMap.ofPiece_num hp]
      rfl

/-- A packed piece has the node and the length of a piece. -/
theorem mem_toMaps (h : ∀ p ∈ ps, p.Fits) {padding : Nat}
    (hm : m ∈ toMaps ps padding) : ∃ p ∈ ps, m.nodeId.val = p.nodeId ∧ m.num.val = p.num := by
  induction ps with
  | nil => cases hm
  | cons p ps ih =>
    have hp := h p mem_cons_self
    have hpm : p ∈ p :: ps := mem_cons_self
    cases ps with
    | nil =>
      obtain rfl := mem_singleton.mp hm
      exact ⟨p, hpm, ZrocksMap.ofPiece_nodeId hp _, ZrocksMap.ofPiece_num hp _⟩
    | cons p' ps =>
      rcases mem_cons.mp hm with rfl | hm
      · exact ⟨p, hpm, ZrocksMap.ofPiece_nodeId hp _, ZrocksMap.ofPiece_num hp _⟩
      · obtain ⟨q, hq, e⟩ := ih (fun q hq => h q (mem_cons_of_mem _ hq)) hm
        exact ⟨q, mem_cons_of_mem _ hq, e⟩

/-! ### The invariant -/

/-- Valid counts and the management queue. -/
structure Accounted (z : Ztl) (t : Nat → Nat) : Prop where
  valid : ∀ n < z.nnodes, (z.vnodes n).nrValid = t n
  le : ∀ n < z.nnodes, (z.vnodes n).nrValid ≤ (z.vnodes n).used
  full : ∀ n < z.nnodes, (z.vnodes n).status = .full → (z.vnodes n).nrValid ≠ 0
  reset : ∀ n < z.nnodes, (z.vnodes n).status = .reset → (z.vnodes n).nrValid = 0
  queued : ∀ e ∈ z.submitHead,
    e.2 = .resetZone ∧ e.1 < z.nnodes ∧ (z.vnodes e.1).status = .reset
  once : (z.submitHead.map Prod.fst).Nodup

section

variable {w : WriteReq} {z z' : Ztl} {parts : NodeList → List Nat} {t : Nat → Nat}
  {b left n : Nat}

theorem Accounted.kept (h : Accounted z t) (hk : Kept z z') : Accounted z' t := by
  have hst : ∀ m s, s ≠ .free → s ≠ .used →
      ((z'.vnodes m).status = s ↔ (z.vnodes m).status = s) := by
    intro m s hf hu
    rcases hk.node m with e | ⟨hp, e⟩
    · rw [e]
    · rw [e, hp.1]
      exact ⟨fun h => absurd h.symm hu, fun h => absurd h.symm hf⟩
  refine ⟨fun m hm => ?_, fun m hm => ?_, fun m hm hs => ?_, fun m hm hs => ?_, fun e he => ?_, ?_⟩
  · rw [(hk.counters m).2.2.1]
    exact h.valid m (hk.nnodes ▸ hm)
  · rw [(hk.counters m).2.2.1, (hk.counters m).1]
    exact h.le m (hk.nnodes ▸ hm)
  · rw [(hk.counters m).2.2.1]
    exact h.full m (hk.nnodes ▸ hm) ((hst m _ (by simp) (by simp)).mp hs)
  · rw [(hk.counters m).2.2.1]
    exact h.reset m (hk.nnodes ▸ hm) ((hst m _ (by simp) (by simp)).mp hs)
  · rw [hk.submitHead] at he
    obtain ⟨h1, h2, h3⟩ := h.queued e he
    exact ⟨h1, hk.nnodes ▸ h2, (hst e.1 _ (by simp) (by simp)).mpr h3⟩
  · rw [hk.submitHead]
    exact h.once

/-- A change to one node that keeps its counters and its status. -/
theorem Accounted.setNode (h : Accounted z t) {nd : Node}
    (hv : nd.nrValid = (z.vnodes n).nrValid) (hu : nd.used = (z.vnodes n).used)
    (hs : nd.status = (z.vnodes n).status) : Accounted (z.setNode n nd) t := by
  have hnode : ∀ m, ((z.setNode n nd).vnodes m).nrValid = (z.vnodes m).nrValid ∧
      ((z.setNode n nd).vnodes m).used = (z.vnodes m).used ∧
      ((z.setNode n nd).vnodes m).status = (z.vnodes m).status := by
    intro m
    by_cases e : m = n
    · subst e
      rw [Ztl.setNode_self]
      exact ⟨hv, hu, hs⟩
    · rw [Ztl.setNode_of_ne _ _ e]
      exact ⟨rfl, rfl, rfl⟩
  refine ⟨fun m hm => ?_, fun m hm => ?_, fun m hm hs' => ?_, fun m hm hs' => ?_, fun e he => ?_,
    h.once⟩
  · rw [(hnode m).1]
    exact h.valid m hm
  · rw [(hnode m).1, (hnode m).2.1]
    exact h.le m hm
  · rw [(hnode m).1]
    exact h.full m hm ((hnode m).2.2 ▸ hs')
  · rw [(hnode m).1]
    exact h.reset m hm ((hnode m).2.2 ▸ hs')
  · obtain ⟨h1, h2, h3⟩ := h.queued e he
    exact ⟨h1, h2, (hnode e.1).2.2.trans h3⟩

theorem Accounted.piece {num : Nat} (h : Accounted z t) (ho : (z.vnodes n).Open)
    (hle : num ≤ (z.vnodes n).left) (hd : PieceDone w z n num b z') :
    Accounted z' fun m => t m + if n = m then num else 0 := by
  refine ⟨fun m hm => ?_, fun m hm => ?_, fun m hm hs => ?_, fun m hm hs => ?_, fun e he => ?_, ?_⟩
  · have hv := h.valid m (hd.nnodes ▸ hm)
    by_cases e : m = n
    · subst e
      rw [hd.node_self, if_pos rfl, ← hv]
      rfl
    · rw [hd.node_of_ne e, if_neg (Ne.symm e), hv, Nat.add_zero]
  · have hv := h.le m (hd.nnodes ▸ hm)
    by_cases e : m = n
    · subst e
      rw [hd.node_self]
      simp only [Node.wrote]
      omega
    · rw [hd.node_of_ne e]
      exact hv
  · by_cases e : m = n
    · -- a node that is full now has just received its last units
      subst e
      rw [hd.node_self] at hs ⊢
      simp only [Node.wrote] at hs ⊢
      by_cases h0 : (z.vnodes m).left - num = 0
      · have := ho.2
        omega
      · rw [if_neg h0, ho.1] at hs
        cases hs
    · rw [hd.node_of_ne e] at hs ⊢
      exact h.full m (hd.nnodes ▸ hm) hs
  · by_cases e : m = n
    · subst e
      rw [hd.node_self] at hs
      simp only [Node.wrote, ho.1] at hs
      split at hs <;> cases hs
    · rw [hd.node_of_ne e] at hs ⊢
      exact h.reset m (hd.nnodes ▸ hm) hs
  · rw [hd.submitHead] at he
    obtain ⟨h1, h2, h3⟩ := h.queued e he
    refine ⟨h1, hd.nnodes ▸ h2, ?_⟩
    have hne : e.1 ≠ n := fun hen => by
      rw [hen, ho.1] at h3
      cases h3
    rw [hd.node_of_ne hne]
    exact h3
  · rw [hd.submitHead]
    exact h.once

theorem Accounted.setLevel (h : Accounted z t) (l : Nat) : Accounted (setLevel z n l) t :=
  h.setNode rfl rfl rfl

theorem Accounted.round {z1 : Ztl} {num : Nat} (h : Accounted z t) (hk : Kept z z1)
    (ho : (z1.vnodes n).Open) (hle : num ≤ (z1.vnodes n).left)
    (hd : PieceDone w (Xztl.setLevel z1 n w.provType) n num b z') :
    Accounted z' fun m => t m + if n = m then num else 0 := by
  refine ((h.kept hk).setLevel w.provType).piece ?_ (by simpa using hle) hd
  simpa [Xztl.setLevel, Node.Open] using ho

/-- **A run of the `reget` loop adds its pieces to the counts.** -/
theorem Pieces.accounted (hp : Pieces w z b left ps ok z') :
    ∀ {parts t}, Alloc z parts → Accounted z t → Accounted z' fun m => t m + pieceUnits ps m := by
  induction hp with
  | fail e =>
    intro parts t h ha
    obtain ⟨-, -, hk, -⟩ := h.getNode e
    simpa using ha.kept hk
  | last e hq hle hd =>
    intro parts t h ha
    obtain ⟨-, -, hk, ho, -⟩ := h.step e hq hle hd
    simpa using ha.round hk ho hle hd
  | more e hq hlt hd _ ih =>
    intro parts t h ha
    obtain ⟨parts1, -, hk, ho, -, h'⟩ := h.step e hq (le_refl _) hd
    simpa [Nat.add_assoc] using ih h' (ha.round hk ho (le_refl _) hd)

/-- The pieces of a run fit the bit fields. -/
theorem Pieces.fits (hp : Pieces w z b left ps ok z')
    (h : Alloc z parts) (hrc : ∀ p ∈ ps, p.num ≤ ztlIoRcNum) : ∀ p ∈ ps, p.Fits := by
  intro p hpm
  obtain ⟨hn, hw⟩ := hp.within h p hpm
  have hs := h.small
  have hr := hrc p hpm
  rw [ztlIoRcNum_eq] at hr
  rw [ztlProOptSecNumInnode_eq] at hw
  exact ⟨by omega, by omega, by omega⟩

/-! ### The calls -/

/-- **A write of units that find room together** can return, and then returns one piece. -/
theorem exists_wholeWrite {c : WriteCall} (h : Alloc z parts) (hpos : 0 < c.ncmd)
    (hrc : c.ncmd ≤ ztlIoRcNum) (hen : Enough z (clampLevel c.level) c.ncmd)
    (hfit : c.ncmd ≤ z.nextRoom (clampLevel c.level)) :
    ∃ (ans : List MediaAns) (z' : Ztl) (m : ZrocksMap),
    zrocksWrite z c ans = .ok (z', xztlOk, [m]) ∧ m.num.val = c.ncmd ∧
      m.padding.val = c.padding % 2 ^ 16 ∧ z'.submitHead = z.submitHead ∧
      z'.room (clampLevel c.level) + c.ncmd = z.nextRoom (clampLevel c.level) := by
  obtain ⟨ans, ⟨z', ret, maps⟩, e⟩ := exists_zrocksWrite h c hrc
  rw [ztlIoRcNum_eq] at hrc
  obtain ⟨rfl, ⟨hbig, -⟩ | ⟨-, ps, ok, -, hp, -, rfl, -⟩⟩ := zrocksWrite_spec h e
  · simp only [xztlIoMaxMcmd] at hbig
    omega
  · obtain ⟨⟨n, u, rfl⟩, hroom⟩ := hp.one h hpos hen hfit
    have hnum : c.ncmd % 2 ^ 11 = c.ncmd := Nat.mod_eq_of_lt (by omega)
    exact ⟨ans, z', _, e, hnum, rfl, (hp.kept h).2, hroom⟩

/-- **A write of one unit that finds room.** -/
theorem exists_unitWrite {c : WriteCall} (h : Alloc z parts) (hn : c.ncmd = 1)
    (hen : Enough z (clampLevel c.level) 1) : ∃ (ans : List MediaAns) (z' : Ztl) (m : ZrocksMap),
    zrocksWrite z c ans = .ok (z', xztlOk, [m]) ∧ m.num.val = 1 ∧
      m.padding.val = c.padding % 2 ^ 16 ∧ z'.submitHead = z.submitHead ∧
      z'.room (clampLevel c.level) + 1 = z.nextRoom (clampLevel c.level) := by
  have hw := exists_wholeWrite h (by rw [hn]; decide) (by rw [hn]; decide) (by rw [hn]; exact hen)
    (by rw [hn]; exact z.nextRoom_pos _)
  rwa [hn] at hw

/-- The allocator, the counts of the live pieces, and where these lie. -/
structure Sound (z : Ztl) (live : List ZrocksMap) : Prop where
  alloc : ∃ parts, Alloc z parts
  acc : Accounted z (unitsOn live)
  lt : ∀ m ∈ live, m.nodeId.val < z.nnodes

theorem Sound.fresh (g : GroupSize) (dev : Dev) : Sound (Ztl.fresh g dev) [] where
  alloc := ⟨_, Alloc.fresh g dev⟩
  acc :=
    { valid := fun _ _ => rfl
      le := fun _ _ => le_refl 0
      full := fun _ _ h => by cases h
      reset := fun _ _ h => by cases h
      queued := fun _ h => by cases h
      once := nodup_nil }
  lt := fun _ h => by cases h

variable {live : List ZrocksMap}

/-- The pieces of a run of the `reget` loop join the live ones. -/
theorem Sound.pieces {parts' : NodeList → List Nat}
    (h : Sound z live) (ha : Alloc z parts) (hp : Pieces w z b left ps ok z')
    (ha' : Alloc z' parts') (hrc : ∀ p ∈ ps, p.num ≤ ztlIoRcNum) (padding : Nat) :
    Sound z' (live ++ toMaps ps padding) := by
  have hfits := hp.fits ha hrc
  refine ⟨⟨parts', ha'⟩, ?_, fun m hm => ?_⟩
  · have hacc := hp.accounted ha h.acc
    refine { hacc with valid := fun n hn => ?_ }
    rw [hacc.valid n hn, unitsOn_append, unitsOn_toMaps hfits]
  · rw [(hp.kept ha).1]
    rcases mem_append.mp hm with hm | hm
    · exact h.lt m hm
    · obtain ⟨p, hpm, e, -⟩ := mem_toMaps hfits hm
      rw [e]
      exact (hp.within ha p hpm).1

/-- **A write** that returns adds its pieces to the live ones. -/
theorem Sound.write {c : WriteCall} {ans : List MediaAns} {maps : List ZrocksMap}
    (h : Sound z live) (e : zrocksWrite z c ans = .ok (z', ret, maps)) :
    Sound z' (live ++ maps) := by
  obtain ⟨parts, ha⟩ := h.alloc
  obtain ⟨-, ⟨-, rfl, rfl⟩ | ⟨-, ps, ok, parts', hp, ha', rfl, hrc⟩⟩ := zrocksWrite_spec ha e
  · rw [append_nil]
    exact h
  · exact h.pieces ha hp ha' hrc c.padding

/-- A node without room and without live pieces is marked for its reset. -/
theorem Sound.reset_of_spent (h : Sound z live) (hn : n < z.nnodes) (hl : (z.vnodes n).left = 0)
    (h0 : unitsOn live n = 0) : (z.vnodes n).status = .reset := by
  obtain ⟨parts, ha⟩ := h.alloc
  have hfull : (z.vnodes n).status ≠ .full := fun hs =>
    h.acc.full n hn hs ((h.acc.valid n hn).trans h0)
  have hspent : (z.vnodes n).Spent → (z.vnodes n).status = .reset :=
    fun hsp => hsp.1.resolve_left hfull
  obtain ⟨l, hmem⟩ := (ha.mem n).mpr hn
  cases l with
  | freeHead =>
    obtain ⟨-, -, hleft, -⟩ := ha.free n hmem
    rw [hl] at hleft
    exact absurd hleft (by decide)
  | usedHead => exact (ha.used n hmem).elim (fun ho => absurd hl ho.2) hspent
  | fullHead => exact hspent (ha.full n hmem)

/-- A live piece is within its node's count, so that a trim does not wrap around. -/
theorem Sound.trim_valid (h : Sound z live) (hm : m ∈ live) :
    ((z.vnodes m.nodeId).nrValid + 2 ^ 64 - m.num.val) % 2 ^ 64 = unitsOn (live.erase m) m.nodeId ∧
    (z.vnodes m.nodeId).nrValid = m.num.val + unitsOn (live.erase m) m.nodeId := by
  obtain ⟨parts, ha⟩ := h.alloc
  have hlt := h.lt m hm
  have hv := h.acc.valid _ hlt
  have hle := h.acc.le _ hlt
  have hb := ha.balance _ hlt
  rw [unitsOn_perm (perm_cons_erase hm), unitsOn_cons, if_pos rfl] at hv
  rw [ztlProOptSecNumInnode_eq] at hb
  omega

/-- The counts of the other nodes do not see the piece. -/
theorem unitsOn_erase_other (hm : m ∈ live) (hn : m.nodeId.val ≠ n) :
    unitsOn (live.erase m) n = unitsOn live n := by
  rw [unitsOn_perm (perm_cons_erase hm), unitsOn_cons, if_neg hn, Nat.zero_add]

/-- The node of a trimmed piece, `reset` or not. -/
theorem Sound.setNode (h : Sound z live) (hm : m ∈ live) {s : NodeStatus}
    (hs : s = (z.vnodes m.nodeId).status ∧ (s = .full → unitsOn (live.erase m) m.nodeId ≠ 0) ∨
      s = .reset ∧ (z.vnodes m.nodeId).status = .full ∧ unitsOn (live.erase m) m.nodeId = 0) :
    Sound (z.setNode m.nodeId { z.vnodes m.nodeId with
      nrValid := unitsOn (live.erase m) m.nodeId, status := s }) (live.erase m) := by
  obtain ⟨parts, ha⟩ := h.alloc
  have hlt := h.lt m hm
  have hv := (h.trim_valid hm).2
  have hle := h.acc.le _ hlt
  refine ⟨⟨parts, ha.setNode rfl rfl rfl (fun hf => ?_) (fun hu => ?_) fun hf => ?_⟩, ?_,
    fun m' hm' => h.lt m' (mem_of_mem_erase hm')⟩
  · -- a free node has no units, and its status is not `full`
    obtain ⟨h1, h2, h3, h4, h5⟩ := ha.free _ hf
    rcases hs with ⟨hs, -⟩ | ⟨-, hs, -⟩
    · exact ⟨hs.trans h1, h2, h3, by simp only; omega, h5⟩
    · rw [h1] at hs
      cases hs
  · rcases hs with ⟨hs, -⟩ | ⟨hs, hfull, -⟩
    · simpa [Node.Open, Node.Spent, hs] using ha.used _ hu
    · refine Or.inr ⟨Or.inr hs, ?_⟩
      rcases ha.used _ hu with ho | hsp
      · rw [ho.1] at hfull
        cases hfull
      · exact hsp.2
  · have hsp := ha.full _ hf
    rcases hs with ⟨hs, -⟩ | ⟨hs, -⟩
    · simpa [Node.Spent, hs] using hsp
    · exact ⟨Or.inr hs, hsp.2⟩
  · refine ⟨fun k hk => ?_, fun k hk => ?_, fun k hk hs' => ?_, fun k hk hs' => ?_, fun e he => ?_,
      h.acc.once⟩
    · by_cases e : k = m.nodeId
      · subst e
        rw [Ztl.setNode_self]
      · rw [Ztl.setNode_of_ne _ _ e, unitsOn_erase_other hm (Ne.symm e)]
        exact h.acc.valid k hk
    · by_cases e : k = m.nodeId
      · subst e
        rw [Ztl.setNode_self]
        simp only
        omega
      · rw [Ztl.setNode_of_ne _ _ e]
        exact h.acc.le k hk
    · by_cases e : k = m.nodeId
      · subst e
        rw [Ztl.setNode_self] at hs' ⊢
        rcases hs with ⟨-, hs⟩ | ⟨hs, -⟩
        · exact hs hs'
        · rw [hs] at hs'
          cases hs'
      · rw [Ztl.setNode_of_ne _ _ e] at hs' ⊢
        exact h.acc.full k hk hs'
    · by_cases e : k = m.nodeId
      · subst e
        rw [Ztl.setNode_self] at hs' ⊢
        rcases hs with ⟨hs, -⟩ | ⟨-, -, hs⟩
        · have h0 := h.acc.reset _ hk (hs ▸ hs')
          simp only
          omega
        · exact hs
      · rw [Ztl.setNode_of_ne _ _ e] at hs' ⊢
        exact h.acc.reset k hk hs'
    · obtain ⟨h1, h2, h3⟩ := h.acc.queued e he
      refine ⟨h1, h2, ?_⟩
      by_cases e' : e.1 = m.nodeId
      · rw [e', Ztl.setNode_self]
        rcases hs with ⟨hs, -⟩ | ⟨hs, -⟩
        · rw [← h3, e']
          exact hs
        · exact hs
      · rw [Ztl.setNode_of_ne _ _ e']
        exact h3

/-- Queueing the reset of a node that is marked for it. -/
theorem Sound.submit (h : Sound z live) (hn : n < z.nnodes) (hs : (z.vnodes n).status = .reset)
    (hnew : n ∉ z.submitHead.map Prod.fst)
    (e : ztlMgmtSubmitResetFinish z n .resetZone = .ok (z', ret)) : Sound z' live := by
  rw [ztlMgmtSubmitResetFinish] at e
  split at e
  · cases e
    obtain ⟨parts, ha⟩ := h.alloc
    refine ⟨⟨parts, ha.queue _⟩,
      { h.acc with queued := fun e he => ?_, once := ?_ }, h.lt⟩
    · rcases mem_append.mp he with he | he
      · exact h.acc.queued e he
      · obtain rfl := mem_singleton.mp he
        exact ⟨rfl, hn, hs⟩
    · rw [map_append, nodup_append]
      refine ⟨h.acc.once, by simp, fun a ha b hb e => hnew ?_⟩
      have hbn : b = n := by simpa using hb
      rwa [e, hbn] at ha
  · cases e

/-- **A trim** that returns takes a live piece off. -/
theorem Sound.trim (h : Sound z live) (hm : m ∈ live)
    (e : zrocksTrim z m = .ok (z', ret)) : Sound z' (live.erase m) := by
  have hlt := h.lt m hm
  obtain ⟨hv, hv'⟩ := h.trim_valid hm
  rw [zrocksTrim] at e
  simp only [hv] at e
  by_cases hc : unitsOn (live.erase m) m.nodeId = 0 ∧ (z.vnodes m.nodeId).status = .full
  · rw [if_pos hc] at e
    refine (h.setNode hm (Or.inr ⟨rfl, hc.2, hc.1⟩)).submit hlt (by rw [Ztl.setNode_self]) ?_ e
    -- the node was not queued before: queued nodes are marked `reset`
    intro hq
    obtain ⟨a, ha, ea⟩ := mem_map.mp hq
    have hst := (h.acc.queued a ha).2.2
    rw [ea, hc.2] at hst
    cases hst
  · rw [if_neg hc] at e
    cases e
    exact h.setNode hm (Or.inl ⟨rfl, fun hs h0 => hc ⟨h0, hs⟩⟩)

/-- A node to be reset that is no queue's current node is on the full list. -/
theorem Alloc.reset_full (ha : Alloc z parts) (hn : n < z.nnodes)
    (hs : (z.vnodes n).status = .reset) (hq : ∀ q, z.qnode q ≠ some n) : n ∈ parts .fullHead := by
  obtain ⟨l, hl⟩ := (ha.mem n).mpr hn
  cases l with
  | freeHead =>
    rw [(ha.free n hl).1] at hs
    cases hs
  | usedHead =>
    rcases ha.used n hl with ho | hsp
    · rw [ho.1] at hs
      cases hs
    · obtain ⟨q, hqn⟩ := ha.owned n hl hsp
      exact absurd hqn (hq q)
  | fullHead => exact hl

/-- A node without valid units, no longer queued, is reset. -/
theorem Sound.reset (h : Sound z live) (hn : n < z.nnodes) (hs : (z.vnodes n).status = .reset)
    (hout : n ∉ z.submitHead.map Prod.fst) (hq : ∀ q, z.qnode q ≠ some n)
    (hd : ResetDone z n z') : Sound z' live := by
  obtain ⟨parts, ha⟩ := h.alloc
  have hv0 : unitsOn live n = 0 := by rw [← h.acc.valid n hn, h.acc.reset n hn hs]
  refine ⟨⟨_, ha.reset (ha.reset_full hn hs hq) hd⟩, ?_, fun m hm => hd.nnodes ▸ h.lt m hm⟩
  refine ⟨fun k hk => ?_, fun k hk => ?_, fun k hk hs' => ?_, fun k hk hs' => ?_, fun e he => ?_,
    ?_⟩
  · by_cases ek : k = n
    · subst ek
      rw [hd.node_self, hv0]
    · rw [hd.node_of_ne k ek]
      exact h.acc.valid k (hd.nnodes ▸ hk)
  · by_cases ek : k = n
    · subst ek
      rw [hd.node_self]
    · rw [hd.node_of_ne k ek]
      exact h.acc.le k (hd.nnodes ▸ hk)
  · by_cases ek : k = n
    · subst ek
      rw [hd.node_self] at hs'
      cases hs'
    · rw [hd.node_of_ne k ek] at hs' ⊢
      exact h.acc.full k (hd.nnodes ▸ hk) hs'
  · by_cases ek : k = n
    · subst ek
      rw [hd.node_self]
    · rw [hd.node_of_ne k ek] at hs' ⊢
      exact h.acc.reset k (hd.nnodes ▸ hk) hs'
  · rw [hd.submitHead] at he
    obtain ⟨h1, h2, h3⟩ := h.acc.queued e he
    refine ⟨h1, hd.nnodes ▸ h2, ?_⟩
    have hne : e.1 ≠ n := fun h' => hout (h' ▸ mem_map_of_mem he)
    rw [hd.node_of_ne _ hne]
    exact h3
  · rw [hd.submitHead]
    exact h.acc.once

/-- The first entry leaves the management queue. -/
theorem Sound.dequeue (h : Sound z live) {a : Nat × MgmtOp}
    (e : z.submitHead = a :: rest) : Sound { z with submitHead := rest } live := by
  obtain ⟨parts, ha⟩ := h.alloc
  have honce := h.acc.once
  rw [e, map_cons, nodup_cons] at honce
  refine ⟨⟨parts, ha.queue _⟩,
    { h.acc with queued := fun b hb => ?_, once := honce.2 }, h.lt⟩
  exact h.acc.queued b (by rw [e]; exact mem_cons_of_mem _ hb)

/-- The round of the management thread at the entry `(n, resetZone)`, all zone resets
succeeding. -/
theorem ztlMgmtThdProcess_ok (e : z.submitHead = (n, .resetZone) :: rest) :
    ResetDone { z with submitHead := rest } n (ztlMgmtThdProcess z fun _ => zonesOk) := by
  obtain ⟨hok, hd⟩ := ztlMgmtNodeReset_ok { z with submitHead := rest } n
  simp only [ztlMgmtThdProcess, e, mgmtMaxRetry, mgmtAttempts, hok, ne_eq, not_true_eq_false,
    if_false]
  exact hd

/-- **A reset** carried out while its node is no queue's current node. -/
theorem Sound.mgmt (h : Sound z live) {op : MgmtOp}
    (e : z.submitHead = (n, op) :: rest) (hq : ∀ q, z.qnode q ≠ some n) :
    Sound (ztlMgmtThdProcess z fun _ => zonesOk) live := by
  obtain ⟨rfl, hn, hs⟩ := h.acc.queued (n, op) (e ▸ mem_cons_self)
  have honce := h.acc.once
  rw [e, map_cons, nodup_cons] at honce
  exact (h.dequeue e).reset hn hs honce.1 hq (ztlMgmtThdProcess_ok e)

end

end Xztl
