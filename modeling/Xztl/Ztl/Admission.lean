import Xztl.Ztl.Init
import Xztl.Ztl.Pieces

/-!
# Ztl — the arrays a write command uses (`ztl-io.c`, `ztl_io_write_ucmd`)

A write is admitted when its size is a multiple of a unit and it needs at most `XZTL_IO_MAX_MCMD`
commands.  The commands of a piece then go to arrays that have `ZTL_IO_RC_NUM` or
`XZTL_WIO_MAX_MCMD` entries, their numbers to the rows of `zn_cmd_id`, the number of commands to
16 bits and the number of units to the 11 bits of a piece.

* `Req.indices`: every place of such an array that a piece uses.
* `begun`: the pieces a write begins, whether or not it gets through them; when it does, they are
  the ones it returns (`reget_begun`).
* **`admission_covers_iff`**: all of it is in range exactly when each of the two pieces that the
  room of the current node makes of the write has at most `ZTL_IO_RC_NUM` units.
-/

namespace Xztl

open List

/-- `XZTL_WIO_MAX_MCMD`. -/
def xztlWioMaxMcmd : Nat := 1024

/-- The arrays a piece uses: `q->mcmd`, the three of the `ucmd`, and a row of `zn_cmd_id`. -/
inductive CmdArray where
  | qMcmd
  | ucmdMcmd
  | msec
  | moffset
  | znCmdId
deriving DecidableEq, Repr

def CmdArray.length : CmdArray → Nat
  | .qMcmd => ztlIoRcNum
  | .ucmdMcmd => xztlWioMaxMcmd
  | .msec => xztlWioMaxMcmd
  | .moffset => xztlWioMaxMcmd
  | .znCmdId => 2000

/-- The places a piece uses.  Command `cmd_i` is taken from `q->mcmd`, noted in `ucmd->mcmd` and
`ucmd->msec`, and its callback goes to `ucmd->moffset`; its number is put at the end of its row of
`zn_cmd_id`, and the submit loop reads it there to find the command in `ucmd->mcmd`. -/
def Req.indices (r : Req) : List (CmdArray × Nat) :=
  (r.mcmd.flatMap fun m => [(.qMcmd, m.sequence), (.ucmdMcmd, m.sequence), (.msec, m.sequence),
    (.moffset, m.sequence)]) ++
  ((List.range r.prov.length).flatMap fun znI =>
    ((List.range (r.znCmdId znI).length).map fun index => (.znCmdId, index)) ++
      (r.znCmdId znI).map fun cmdI => (.ucmdMcmd, cmdI))

/-- A piece whose places are all in range, whose number of commands fits `ucmd->nmcmd`, and whose
number of units fits the `num` of a `struct zrocks_map`. -/
structure Req.Fits (r : Req) : Prop where
  index : ∀ x ∈ r.indices, x.2 < x.1.length
  nmcmd : r.num < 2 ^ 16
  map : r.num < 2 ^ 11

/-- The pieces that the `reget` loop begins. -/
def begun (w : WriteReq) :
    (fuel : Nat) → Ztl → (left boff : Nat) → Ucmd → List MediaAns → List Req
  | 0, _, _, _, _, _ => []
  | fuel + 1, z, left, boff, u, ans =>
    match ztlProGrpGetNode z w.provType with
    | (_, false) => []
    | (z, true) =>
      match z.qnode w.provType with
      | none => []
      | some n =>
        let nd := z.vnodes n
        let num := if nd.left ≤ left then nd.left else left
        let z := setLevel z n w.provType
        if u.pieces.length < ucmdPieceNum then
          pieceReq w z n num boff ::
            match writePiece w z n num boff u.status ans with
            | .error _ => []
            | .ok (z, status, boff, ans) =>
              let u := ⟨status, u.pieces ++ [⟨n, nd.used, num⟩]⟩
              if 0 < left - num then begun w fuel z (left - num) boff u ans else []
        else []

/-- The number of commands of a write. -/
def WriteReq.ncmd (w : WriteReq) : Nat := w.size / znsAligment % 2 ^ 32 / ztlIoSecMcmd

/-- The write passes the two checks on its size. -/
def WriteReq.Admitted (w : WriteReq) : Prop :=
  w.size % (znsAligment * ztlIoSecMcmd) = 0 ∧ w.ncmd ≤ xztlIoMaxMcmd

/-- The arrays and counters are large enough for the write, whatever the medium answers. -/
structure Covered (w : WriteReq) (z : Ztl) : Prop where
  nmcmd : w.ncmd < 2 ^ 16
  fits : ∀ ans, ∀ r ∈ begun w (ucmdPieceNum + 1) z w.ncmd 0 ⟨0, []⟩ ans, r.Fits

/-! ### The pieces that are begun -/

section

variable {w : WriteReq} {z z₁ z₂ z' : Ztl} {n num left boff fuel status boff' : Nat} {u u' : Ucmd}
  {ans ans' : List MediaAns} {parts : NodeList → List Nat}

theorem ztlIoWriteUcmd_admitted (h : w.Admitted) (ans : List MediaAns) :
    ztlIoWriteUcmd w z ans = reget w (ucmdPieceNum + 1) z w.ncmd 0 ⟨0, []⟩ ans := by
  rw [ztlIoWriteUcmd]
  have hsize : ¬ w.size % (znsAligment * ztlIoSecMcmd) ≠ 0 := fun hne => hne h.1
  simp only [if_neg hsize]
  exact if_neg (Nat.not_lt.mpr h.2)

theorem begun_fail (hg : ztlProGrpGetNode z w.provType = (z₁, false)) :
    begun w (fuel + 1) z left boff u ans = [] := by
  rw [begun]
  simp only [hg]

/-- A round begins the piece that the node's room makes of what is left. -/
theorem begun_round (hg : ztlProGrpGetNode z w.provType = (z₁, true))
    (hq : z₁.qnode w.provType = some n) (hlen : u.pieces.length < ucmdPieceNum)
    (hnum : min (z₁.vnodes n).left left = num) :
    begun w (fuel + 1) z left boff u ans =
      pieceReq w (setLevel z₁ n w.provType) n num boff ::
        match writePiece w (setLevel z₁ n w.provType) n num boff u.status ans with
        | .error _ => []
        | .ok (z₂, status, boff', ans') =>
          if 0 < left - num then
            begun w fuel z₂ (left - num) boff'
              ⟨status, u.pieces ++ [⟨n, (z₁.vnodes n).used, num⟩]⟩ ans'
          else [] := by
  subst hnum
  rw [begun, min_def]
  simp only [hg, hq, if_pos hlen]

/-- **What is begun and returned.**  The pieces of a write that returns are those it began. -/
theorem reget_begun (fuel : Nat) :
    ∀ {z : Ztl} {left boff : Nat} {u : Ucmd} {ans : List MediaAns},
      reget w fuel z left boff u ans = .ok (z', u') →
      u'.pieces.map Piece.num
        = u.pieces.map Piece.num ++ (begun w fuel z left boff u ans).map Req.num := by
  induction fuel with
  | zero =>
    intro z left boff u ans e
    cases e
  | succ fuel ih =>
    intro z left boff u ans e
    rw [reget] at e
    rcases hg : ztlProGrpGetNode z w.provType with ⟨z₁, _ | _⟩
    · simp only [hg] at e
      cases e
      rw [begun_fail hg]
      simp
    simp only [hg] at e
    cases hq : z₁.qnode w.provType with
    | none =>
      simp only [hq] at e
      cases e
    | some n =>
      simp only [hq] at e
      by_cases hlen : u.pieces.length < ucmdPieceNum
      · rw [if_pos hlen, ← min_def] at e
        obtain ⟨⟨z₂, status, boff', ans'⟩, ew, e⟩ := Except.bind_eq_ok.mp e
        rw [begun_round hg hq hlen rfl, ew]
        simp only at e ⊢
        by_cases hmore : 0 < left - min (z₁.vnodes n).left left
        · rw [if_pos hmore] at e ⊢
          rw [ih e]
          simp [pieceReq]
        · rw [if_neg hmore] at e ⊢
          cases e
          simp [pieceReq]
      · rw [if_neg hlen] at e
        cases e

/-- An admitted write that returns has begun the pieces of its `ucmd`. -/
theorem ztlIoWriteUcmd_begun (h : w.Admitted) (e : ztlIoWriteUcmd w z ans = .ok (z', u')) :
    u'.pieces.map Piece.num
      = (begun w (ucmdPieceNum + 1) z w.ncmd 0 ⟨0, []⟩ ans).map Req.num := by
  rw [ztlIoWriteUcmd_admitted h] at e
  exact reget_begun _ e

/-! ### The places of one piece -/

/-- The commands of a piece are numbered from 0 on, and a row of `zn_cmd_id` has the numbers of the
commands of one address. -/
theorem pieceReq_cmds (hg : Geometry z) (hn : n < z.nnodes) :
    ((pieceReq w z n num boff).mcmd.map Mcmd.sequence = List.range num) ∧
      ∀ i, (pieceReq w z n num boff).znCmdId i
        = (List.range num).filter fun k => k % ztlProZoneNumInnode = i := by
  have hpop : PopInv _ num boff num (populate (pieceReq w z n num boff).prov num boff) :=
    pieceReq_pop hg hn
  refine ⟨?_, hpop.ids⟩
  show (populate (pieceReq w z n num boff).prov num boff).mcmd.map Mcmd.sequence = _
  rw [hpop.mcmd, map_map]
  exact map_id' _

/-- No place is used beyond the number of the piece's units, in any of the arrays. -/
theorem pieceReq_indices_lt (hg : Geometry z) (hn : n < z.nnodes) {x : CmdArray × Nat}
    (hx : x ∈ (pieceReq w z n num boff).indices) : x.2 < num := by
  obtain ⟨hseq, hids⟩ : _ ∧ ∀ i, (pieceReq w z n num boff).znCmdId i = _ := pieceReq_cmds hg hn
  rcases mem_append.mp hx with hx | hx
  · obtain ⟨m, hm, hx⟩ := mem_flatMap.mp hx
    have hm' : m.sequence ∈ List.range num := hseq ▸ mem_map_of_mem hm
    simp only [mem_cons, not_mem_nil, or_false] at hx
    rcases hx with rfl | rfl | rfl | rfl <;> exact mem_range.mp hm'
  · obtain ⟨i, -, hx⟩ := mem_flatMap.mp hx
    rw [hids i] at hx
    rcases mem_append.mp hx with hx | hx
    · obtain ⟨k, hk, rfl⟩ := mem_map.mp hx
      have hle := length_filter_le (fun k => k % ztlProZoneNumInnode = i) (List.range num)
      rw [length_range] at hle
      exact lt_of_lt_of_le (mem_range.mp hk) hle
    · obtain ⟨k, hk, rfl⟩ := mem_map.mp hx
      exact mem_range.mp (mem_of_mem_filter hk)

/-- Every command is taken from its own slot of the queue. -/
theorem pieceReq_slot (hg : Geometry z) (hn : n < z.nnodes) {k : Nat} (hk : k < num) :
    (CmdArray.qMcmd, k) ∈ (pieceReq w z n num boff).indices := by
  have hmem : k ∈ (pieceReq w z n num boff).mcmd.map Mcmd.sequence := by
    rw [(pieceReq_cmds hg hn).1]
    exact mem_range.mpr hk
  obtain ⟨m, hm, rfl⟩ := mem_map.mp hmem
  exact mem_append_left _ (mem_flatMap.mpr ⟨m, hm, mem_cons_self⟩)

theorem ztlIoRcNum_le_length (a : CmdArray) : ztlIoRcNum ≤ a.length := by
  cases a <;> decide

/-- **The places of a piece** are in range exactly when it has at most `ZTL_IO_RC_NUM` units. -/
theorem pieceReq_fits_iff (hg : Geometry z) (hn : n < z.nnodes) :
    (pieceReq w z n num boff).Fits ↔ num ≤ ztlIoRcNum := by
  constructor
  · intro h
    by_contra hlt
    exact lt_irrefl _ (h.index _ (pieceReq_slot hg hn (Nat.not_le.mp hlt)))
  · intro hnum
    have hrc : ztlIoRcNum < 2 ^ 11 := by decide
    refine ⟨fun x hx => ?_, ?_, lt_of_le_of_lt hnum hrc⟩
    · exact (pieceReq_indices_lt hg hn hx).trans_le (hnum.trans (ztlIoRcNum_le_length x.1))
    · exact (lt_of_le_of_lt hnum hrc).trans (by decide)

/-! ### The pieces of a write -/

section

variable (h : Alloc z parts) (hlen : u.pieces.length < ucmdPieceNum)
  (hmax : left ≤ ztlProOptSecNumInnode) (hroom : left ≤ z.room w.provType ∨ z.room w.provType = 0)
include h hlen hmax hroom

/-- A write that the current node has room for, or that starts with a fresh node, begins one
piece. -/
theorem begun_single (hok : z.room w.provType ≠ 0 ∨ parts .freeHead ≠ []) :
    ∃ z₁ n, Geometry z₁ ∧ n < z₁.nnodes ∧
      begun w (fuel + 1) z left boff u ans = [pieceReq w z₁ n left boff] := by
  rcases hg : ztlProGrpGetNode z w.provType with ⟨z₁, _ | _⟩
  · obtain ⟨-, -, -, hiff, -⟩ := h.getNode hg
    exact absurd (hiff.mpr hok) (by simp)
  obtain ⟨parts1, h1, -, -, hopen⟩ := h.getNode hg
  obtain ⟨n, hq, -, hne, hzero⟩ := hopen rfl
  have hn := h1.qnode_mem hq
  have hnum : min (z₁.vnodes n).left left = left := by
    refine min_eq_right ?_
    by_cases h0 : z.room w.provType = 0
    · exact hmax.trans (hzero h0).ge
    · exact (hroom.resolve_right h0).trans (hne h0).1.ge
  refine ⟨setLevel z₁ n w.provType, n, (h1.setLevel hn w.provType).geometry, h1.lt hn, ?_⟩
  rw [begun_round hg hq hlen hnum]
  split
  · rfl
  · rw [if_neg (by omega)]

theorem begun_single_fits_iff :
    (∀ r ∈ begun w (fuel + 1) z left boff u ans, r.Fits) ↔
      (z.room w.provType ≠ 0 ∨ parts .freeHead ≠ [] → left ≤ ztlIoRcNum) := by
  by_cases hok : z.room w.provType ≠ 0 ∨ parts .freeHead ≠ []
  · obtain ⟨z₁, n, hgeo, hn, e⟩ := begun_single h hlen hmax hroom hok
    rw [e, forall_mem_singleton, pieceReq_fits_iff hgeo hn]
    exact ⟨fun hle _ => hle, fun hle => hle hok⟩
  · rcases hg : ztlProGrpGetNode z w.provType with ⟨z₁, _ | _⟩
    · rw [begun_fail hg]
      exact ⟨fun _ hc => absurd hc hok, fun _ r hr => absurd hr not_mem_nil⟩
    · obtain ⟨-, -, -, hiff, -⟩ := h.getNode hg
      exact absurd (hiff.mp rfl) hok

end

/-- A write that the current node has too little room for begins a piece there, and another one when
that is written and a node is free. -/
theorem begun_split_fits_iff {b : Nat} (h : Alloc z parts)
    (hlen : u.pieces.length + 1 < ucmdPieceNum) (hmax : left ≤ ztlProOptSecNumInnode)
    (h0 : z.room w.provType ≠ 0) (hlt : z.room w.provType < left) :
    (∀ ans, ∀ r ∈ begun w (fuel + 2) z left (unitBytes * b) u ans, r.Fits) ↔
      z.room w.provType ≤ ztlIoRcNum ∧
        (parts .freeHead ≠ [] → left - z.room w.provType ≤ ztlIoRcNum) := by
  rcases hg : ztlProGrpGetNode z w.provType with ⟨z₁, _ | _⟩
  · obtain ⟨-, -, -, hok, -⟩ := h.getNode hg
    exact absurd (hok.mpr (Or.inl h0)) (by simp)
  obtain ⟨parts1, h1, -, -, hopen⟩ := h.getNode hg
  obtain ⟨n, hq, -, hne, -⟩ := hopen rfl
  obtain ⟨hleft, rfl⟩ := hne h0
  have hn := h1.qnode_mem hq
  have hfirst : (pieceReq w (setLevel z₁ n w.provType) n (z.room w.provType) (unitBytes * b)).Fits ↔
      z.room w.provType ≤ ztlIoRcNum :=
    pieceReq_fits_iff (h1.setLevel hn w.provType).geometry (h1.lt hn)
  have hlen1 : u.pieces.length < ucmdPieceNum := Nat.lt_of_succ_lt hlen
  have hnum : min (z₁.vnodes n).left left = z.room w.provType := by
    rw [hleft]
    exact min_eq_left hlt.le
  have hmore : 0 < left - z.room w.provType := by omega
  -- a first piece that is written leaves the node without room and the free list as it was
  have hsecond : ∀ {ans z₂ status boff' ans'},
      writePiece w (setLevel z₁ n w.provType) n (z.room w.provType) (unitBytes * b) u.status ans
        = .ok (z₂, status, boff', ans') →
      ((∀ r ∈ begun w (fuel + 1) z₂ (left - z.room w.provType) boff'
          ⟨status, u.pieces ++ [⟨n, (z₁.vnodes n).used, z.room w.provType⟩]⟩ ans', r.Fits) ↔
        (parts1 .freeHead ≠ [] → left - z.room w.provType ≤ ztlIoRcNum)) := by
    intro ans z₂ status boff' ans' ew
    rw [← hleft] at ew
    obtain ⟨-, -, hd, -⟩ := h.round hg hq le_rfl ew
    obtain ⟨parts2, h2, -, -, -, h'⟩ := h.step hg hq le_rfl hd
    have hfree : parts2 .freeHead = parts1 .freeHead :=
      (h2.queues.repr .freeHead).unique (h1.queues.repr .freeHead)
    have hroom : z₂.room w.provType = 0 := room_exhausted hq hd
    rw [begun_single_fits_iff h' (by simpa using hlen) (by omega) (Or.inr hroom), hroom, hfree]
    simp
  constructor
  · intro hall
    have hrc : z.room w.provType ≤ ztlIoRcNum := by
      refine hfirst.mp (hall [] _ ?_)
      rw [begun_round hg hq hlen1 hnum]
      exact mem_cons_self
    obtain ⟨pre, z₂, status, boff', ew⟩ :=
      h.exists_round hg hq hleft.ge hrc (unitBytes * b) u.status
    refine ⟨hrc, (hsecond (ew [])).mp fun r hr => hall (pre ++ []) r ?_⟩
    rw [begun_round hg hq hlen1 hnum, ew []]
    simp only [if_pos hmore]
    exact mem_cons_of_mem _ hr
  · rintro ⟨hrc, hfree⟩ ans r hr
    rw [begun_round hg hq hlen1 hnum] at hr
    rcases mem_cons.mp hr with rfl | hr
    · exact hfirst.mpr hrc
    · rcases ew : writePiece w (setLevel z₁ n w.provType) n (z.room w.provType) (unitBytes * b)
        u.status ans with e | ⟨z₂, status, boff', ans'⟩
      · rw [ew] at hr
        exact absurd hr not_mem_nil
      · rw [ew] at hr
        simp only [if_pos hmore] at hr
        exact (hsecond ew).mpr hfree r hr

/-- **What admission covers.**  An admitted write stays inside the arrays and counters exactly when
its commands fit 16 bits, the current node takes at most `ZTL_IO_RC_NUM` of its units, and, unless
no node is free, at most as many are left for the next one. -/
theorem admission_covers_iff (h : Alloc z parts) (ha : w.Admitted) :
    Covered w z ↔ w.ncmd < 2 ^ 16 ∧ min w.ncmd (z.room w.provType) ≤ ztlIoRcNum ∧
      ((z.lists.head .freeHead).first ≠ none → w.ncmd - z.room w.provType ≤ ztlIoRcNum) := by
  have hmax : w.ncmd ≤ ztlProOptSecNumInnode := ha.2.trans (by decide)
  have hfree : (z.lists.head .freeHead).first ≠ none ↔ parts .freeHead ≠ [] := by
    rw [(h.queues.repr .freeHead).first]
    simp
  have hcov : Covered w z ↔ w.ncmd < 2 ^ 16 ∧
      ∀ ans, ∀ r ∈ begun w (ucmdPieceNum + 1) z w.ncmd (unitBytes * 0) ⟨0, []⟩ ans, r.Fits :=
    ⟨fun hc => ⟨hc.nmcmd, hc.fits⟩, fun hc => ⟨hc.1, hc.2⟩⟩
  rw [hcov, hfree]
  refine and_congr_right fun _ => ?_
  by_cases hroom : w.ncmd ≤ z.room w.provType ∨ z.room w.provType = 0
  · have hone : ∀ ans,
        (∀ r ∈ begun w (ucmdPieceNum + 1) z w.ncmd (unitBytes * 0) ⟨0, []⟩ ans, r.Fits) ↔
          (z.room w.provType ≠ 0 ∨ parts .freeHead ≠ [] → w.ncmd ≤ ztlIoRcNum) :=
      fun ans => begun_single_fits_iff h (by decide) hmax hroom
    simp only [hone, forall_const]
    by_cases h0 : z.room w.provType = 0
    · simp [h0]
    · have hle := hroom.resolve_right h0
      simp [h0, hle]
  · push Not at hroom
    rw [min_eq_right hroom.1.le]
    exact begun_split_fits_iff h (by decide) hmax hroom.2 hroom.1

/-- A write of `size` zero bytes at level 0. -/
def zeroWrite (size : Nat) : WriteReq := ⟨fun _ => 0, size, 0, fun _ _ => 0⟩

/-- 32 MiB on a fresh node. -/
theorem admission_covers_buf : Covered (zeroWrite 33554432) (Ztl.fresh oneNode Dev.blank) :=
  (admission_covers_iff (Alloc.fresh oneNode Dev.blank) ⟨by decide, by decide⟩).mpr
    ⟨by decide, by decide, fun _ => by decide⟩

/-- 64 MiB on a fresh node are admitted, as one piece: its command 1024 has no slot in `q->mcmd`,
and its 2048 units do not fit the 11 bits of `num`. -/
theorem admission_overrun :
    Alloc (Ztl.fresh oneNode Dev.blank) (freshParts 1) ∧ (zeroWrite 67108864).Admitted ∧
      ∀ ans, ∃ r ∈ begun (zeroWrite 67108864) (ucmdPieceNum + 1) (Ztl.fresh oneNode Dev.blank)
          (zeroWrite 67108864).ncmd 0 ⟨0, []⟩ ans,
        (CmdArray.qMcmd, CmdArray.qMcmd.length) ∈ r.indices ∧ r.num = 2 ^ 11 := by
  refine ⟨Alloc.fresh oneNode Dev.blank, ⟨by decide, by decide⟩, fun ans => ?_⟩
  obtain ⟨z₁, n, hg, hn, e⟩ : ∃ z₁ n, Geometry z₁ ∧ n < z₁.nnodes ∧
      begun (zeroWrite 67108864) (ucmdPieceNum + 1) (Ztl.fresh oneNode Dev.blank)
        (zeroWrite 67108864).ncmd 0 ⟨0, []⟩ ans = _ :=
    begun_single (Alloc.fresh oneNode Dev.blank) (by decide) (by decide) (Or.inr rfl)
      (Or.inr (by decide))
  refine ⟨_, e ▸ mem_singleton_self _, pieceReq_slot hg hn (by decide), ?_⟩
  show (zeroWrite 67108864).ncmd = 2 ^ 11
  decide

end

end Xztl
