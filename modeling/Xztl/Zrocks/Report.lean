import Xztl.Zrocks.RoundTrip

/-!
# Zrocks — what the return value of a write says

`zrocks_write` returns `XZTL_OK` whatever happened to the command, and the callers read the outcome
off the pieces.  `WroteAll` is what a caller would like to conclude: every unit of the buffer was
stored at the place the pieces give it, and the pieces cover exactly the size asked for.

**`zrocksWrite_ok_iff`** says when that conclusion is right, for every write that returns: the
size is at most 2 GiB, no unit fails in all its attempts, and there is room.
-/

namespace Xztl

/-- The units of `size` bytes. -/
def unitsOf (size : Nat) : Nat := (size + (unitBytes - 1)) / unitBytes

/-- The node and the unit the pieces give to unit `i` of the buffer. -/
def unitPlace : List ZrocksMap → Nat → Option (Nat × Nat)
  | [], _ => none
  | m :: ms, i => if i < m.num then some (m.nodeId, m.start + i) else unitPlace ms (i - m.num)

/-- What the device recorded between two states. -/
def newWrites (z z' : Ztl) : List WriteRec :=
  z'.dev.log.take (z'.dev.log.length - z.dev.log.length)

/-- The padding of the last piece. -/
def lastPadding (maps : List ZrocksMap) : Nat := (maps.getLast?.map fun m => m.padding.val).getD 0

/-- Every unit of the buffer was stored where the pieces say, and the pieces cover `size` bytes. -/
structure WroteAll (z z' : Ztl) (size : Nat) (maps : List ZrocksMap) : Prop where
  units : ∀ i < unitsOf size, ∃ n u, unitPlace maps i = some (n, u) ∧
    ⟨unitSect n u, unitBytes * i⟩ ∈ newWrites z z'
  size : (unitBytes * mapUnits maps : Int) - lastPadding maps = size

section

variable {w : WriteReq} {z z' : Ztl} {parts : NodeList → List Nat} {b left n : Nat}
  {ps : List Piece}

theorem newWrites_of_append {L : List WriteRec} (h : z'.dev.log = L ++ z.dev.log) :
    newWrites z z' = L := by
  simp [newWrites, h]

/-- The node and the unit of unit `k` of the pieces. -/
def piecePlace : List Piece → Nat → Option (Nat × Nat)
  | [], _ => none
  | p :: ps, k => if k < p.num then some (p.nodeId, p.start + k) else piecePlace ps (k - p.num)

theorem unitPlace_toMaps (h : ∀ p ∈ ps, p.Fits) (padding : Nat) :
    ∀ i, unitPlace (toMaps ps padding) i = piecePlace ps i := by
  induction ps with
  | nil => exact fun _ => rfl
  | cons p ps ih =>
    intro i
    have hp := h p List.mem_cons_self
    have ih := ih fun q hq => h q (List.mem_cons_of_mem _ hq)
    cases ps with
    | nil =>
      simp [toMaps, unitPlace, piecePlace, ZrocksMap.ofPiece_nodeId hp,
        ZrocksMap.ofPiece_start hp, ZrocksMap.ofPiece_num hp]
    | cons p' ps =>
      rw [toMaps, unitPlace, ih, ZrocksMap.ofPiece_nodeId hp, ZrocksMap.ofPiece_start hp,
        ZrocksMap.ofPiece_num hp]
      rfl

theorem lastPadding_toMaps (padding : Nat) :
    lastPadding (toMaps ps padding) = if ps = [] then 0 else padding % 2 ^ 16 := by
  induction ps with
  | nil => rfl
  | cons p ps ih =>
    cases ps with
    | nil => rfl
    | cons p' ps =>
      rw [if_neg (by simp)] at ih ⊢
      rw [← ih, toMaps, lastPadding, lastPadding, List.getLast?_cons]
      cases ps <;> simp [toMaps, List.getLast?_cons]

/-- The pieces have a place for exactly the units they count. -/
theorem piecePlace_isSome : ∀ {k : Nat}, k < pieceSum ps →
    ∃ n u, piecePlace ps k = some (n, u) := by
  induction ps with
  | nil =>
    intro k hk
    cases hk
  | cons p ps ih =>
    intro k hk
    rw [pieceSum_cons] at hk
    rw [piecePlace]
    by_cases h : k < p.num
    · exact ⟨_, _, if_pos h⟩
    · rw [if_neg h]
      exact ih (by omega)

/-- The records of a loop: one for each unit written that is stored. -/
def Recorded (w : WriteReq) (b : Nat) (ps : List Piece) (L : List WriteRec) : Prop :=
  ∀ r, r ∈ L ↔ ∃ k n u, k < pieceSum ps ∧ w.Stores (b + k) ∧ piecePlace ps k = some (n, u) ∧
    r = ⟨unitSect n u, unitBytes * (b + k)⟩

/-- The records of a first piece and of the rest. -/
theorem Recorded.cons {p : Piece} {L L' : List WriteRec}
    (hL : ∀ r, r ∈ L ↔ ∃ k < p.num, w.Stores (b + k) ∧
      r = ⟨unitSect p.nodeId (p.start + k), unitBytes * (b + k)⟩)
    (hL' : Recorded w (b + p.num) ps L') : Recorded w b (p :: ps) (L' ++ L) := by
  intro r
  rw [List.mem_append, hL, hL', pieceSum_cons]
  constructor
  · rintro (⟨k, n, u, hk, hs, hp, rfl⟩ | ⟨k, hk, hs, rfl⟩)
    · refine ⟨p.num + k, n, u, by omega, by rwa [← Nat.add_assoc], ?_, by rw [Nat.add_assoc]⟩
      rw [piecePlace, if_neg (by omega), Nat.add_sub_cancel_left]
      exact hp
    · exact ⟨k, _, _, by omega, hs, by rw [piecePlace, if_pos hk], rfl⟩
  · rintro ⟨k, n, u, hk, hs, hp, rfl⟩
    rw [piecePlace] at hp
    by_cases h : k < p.num
    · rw [if_pos h] at hp
      cases hp
      exact Or.inr ⟨k, h, hs, rfl⟩
    · rw [if_neg h] at hp
      have hb : b + p.num + (k - p.num) = b + k := by omega
      exact Or.inl ⟨k - p.num, n, u, by omega, by rwa [hb], hp, by rw [hb]⟩

/-- **The records of a run of the `reget` loop.** -/
theorem Pieces.recorded {ok : Bool} (hp : Pieces w z b left ps ok z') :
    ∀ {parts}, Alloc z parts → ∃ L, z'.dev.log = L ++ z.dev.log ∧ Recorded w b ps L := by
  induction hp with
  | fail e =>
    intro parts h
    obtain ⟨-, -, hk, -⟩ := h.getNode e
    exact ⟨[], by rw [hk.dev]; rfl, fun r => by simp⟩
  | @last z z1 z' b left n e hq hle hd =>
    intro parts h
    obtain ⟨-, -, hk, -⟩ := h.step e hq hle hd
    obtain ⟨L, hL, hmem⟩ := hd.log
    rw [setLevel_used] at hmem
    refine ⟨[] ++ L, ?_, Recorded.cons hmem fun r => by simp⟩
    rw [hL, ← hk.dev]
    rfl
  | @more z z1 z2 z' b left n ps ok e hq hlt hd _ ih =>
    intro parts h
    obtain ⟨_, -, hk, -, -, h'⟩ := h.step e hq (le_refl _) hd
    obtain ⟨L, hL, hmem⟩ := hd.log
    rw [setLevel_used] at hmem
    obtain ⟨L', hL', hmem'⟩ := ih h'
    refine ⟨L' ++ L, ?_, Recorded.cons hmem hmem'⟩
    rw [hL', hL, ← hk.dev, List.append_assoc]
    rfl

/-- No more is written than asked for. -/
theorem Pieces.sum_le {ok : Bool} (hp : Pieces w z b left ps ok z') : pieceSum ps ≤ left := by
  induction hp with
  | fail => exact Nat.zero_le _
  | last => simp
  | @more z z1 z2 z' b left n ps ok _ _ hlt _ _ ih =>
    rw [pieceSum_cons]
    show (z1.vnodes n).left + pieceSum ps ≤ left
    omega

end

/-! ### When a write that returns has stored its buffer -/

section

variable {z z' : Ztl} {parts : NodeList → List Nat} {c : WriteCall} {ps : List Piece} {ok : Bool}

/-- The size the pieces cover, for a write within the command limit. -/
theorem pieces_size_iff (h1 : 0 < c.size) (h2 : c.size ≤ 2 ^ 31) (hfits : ∀ p ∈ ps, p.Fits)
    (hle : pieceSum ps ≤ unitsOf c.size) :
    (unitBytes * mapUnits (toMaps ps c.padding) : Int) - lastPadding (toMaps ps c.padding) = c.size
      ↔ pieceSum ps = unitsOf c.size := by
  have hsz : newSz c.size = _ := newSz_eq (by omega)
  have hpad : c.padding = unitBytes * unitsOf c.size - c.size ∧ c.padding < 2 ^ 16 := by
    rw [WriteCall.padding, hsz, unitsOf]
    simp only [unitBytes_eq]
    omega
  rw [mapUnits_toMaps hfits, lastPadding_toMaps, Nat.mod_eq_of_lt hpad.2, hpad.1]
  rw [unitsOf, unitBytes_eq] at *
  split
  next hnil =>
    rw [hnil, pieceSum_nil]
    omega
  next => omega

/-- **The pieces of a write within the command limit** tell the truth when every unit is stored and
there is room. -/
theorem Pieces.wroteAll_iff (h : Alloc z parts) (h1 : 0 < c.size) (h2 : c.size ≤ 2 ^ 31)
    (hp : Pieces c.req z 0 (unitsOf c.size) ps ok z') (hfits : ∀ p ∈ ps, p.Fits) :
    WroteAll z z' c.size (toMaps ps c.padding) ↔
      (∀ i < unitsOf c.size, c.req.Stores i) ∧ Enough z (clampLevel c.level) (unitsOf c.size) := by
  have hu : 0 < unitsOf c.size ∧ unitsOf c.size ≤ ztlProOptSecNumInnode := by
    rw [unitsOf, unitBytes_eq, ztlProOptSecNumInnode_eq]
    omega
  obtain ⟨L, hL, hrec⟩ := hp.recorded h
  obtain ⟨hyes, hno⟩ := hp.units h hu.1 hu.2
  have hsize := pieces_size_iff h1 h2 hfits hp.sum_le
  constructor
  · intro hs
    refine ⟨fun i hi => ?_, ?_⟩
    · obtain ⟨n, u, -, hmem⟩ := hs.units i hi
      rw [newWrites_of_append hL, hrec] at hmem
      obtain ⟨k, _, _, -, hst, -, e⟩ := hmem
      have hk : unitBytes * i = unitBytes * (0 + k) := congrArg WriteRec.prp e
      rw [Nat.eq_of_mul_eq_mul_left (by decide) hk]
      exact hst
    · by_contra hen
      obtain ⟨-, hsum⟩ := hno hen
      rw [hsize.mp hs.size] at hsum
      exact hen (Or.inl (le_of_eq hsum))
  · rintro ⟨hst, hen⟩
    obtain ⟨-, hsum⟩ := hyes hen
    refine ⟨fun i hi => ?_, hsize.mpr hsum⟩
    obtain ⟨n, u, e⟩ := piecePlace_isSome (k := i) (hsum ▸ hi)
    refine ⟨n, u, by rw [unitPlace_toMaps hfits, e], ?_⟩
    rw [newWrites_of_append hL, hrec]
    exact ⟨i, n, u, hsum ▸ hi, by rw [Nat.zero_add]; exact hst i hi, e, by rw [Nat.zero_add]⟩

/-- A write of nothing has nothing to store. -/
theorem wroteAll_zero (hp : Pieces c.req z 0 0 ps ok z') (h0 : c.size = 0) :
    WroteAll z z' c.size (toMaps ps c.padding) := by
  have hpad : c.padding = 0 := by
    rw [WriteCall.padding, h0]
    rfl
  rw [h0, hpad]
  refine ⟨fun i hi => absurd hi (by simp [unitsOf, unitBytes_eq]), ?_⟩
  cases hp with
  | fail => rfl
  | last => rfl
  | more _ _ hlt => cases hlt

/-- More than 2 GiB are never covered: the pieces have at most `XZTL_IO_MAX_MCMD` units. -/
theorem not_wroteAll_of_lt (hfits : ∀ p ∈ ps, p.Fits) (hle : pieceSum ps ≤ xztlIoMaxMcmd)
    (h : 2 ^ 31 < c.size) : ¬ WroteAll z z' c.size (toMaps ps c.padding) := fun hs => by
  have := hs.size
  rw [mapUnits_toMaps hfits, unitBytes_eq] at this
  rw [xztlIoMaxMcmd] at hle
  omega

/-- **The return value.**  A write that returns reports success; the report is right for an empty
write, and otherwise when the size is at most 2 GiB, each unit has an attempt that succeeds, and the
level's current node has room for everything or a node is free. -/
theorem zrocksWrite_ok_iff (h : Alloc z parts) {ans : List MediaAns} {ret : Nat}
    {maps : List ZrocksMap} (e : zrocksWrite z c ans = .ok (z', ret, maps)) :
    (ret = xztlOk → WroteAll z z' c.size maps) ↔
      c.size = 0 ∨ c.size ≤ 2 ^ 31 ∧ (∀ i < unitsOf c.size, c.req.Stores i) ∧
        Enough z (clampLevel c.level) (unitsOf c.size) := by
  obtain ⟨rfl, hcase⟩ := zrocksWrite_spec h e
  rw [imp_iff_right rfl]
  by_cases hbig : 2 ^ 31 < c.size
  · -- nothing can cover the buffer, refused or not
    refine iff_of_false ?_ (by omega)
    rcases hcase with ⟨-, -, rfl⟩ | ⟨hmax, ps, ok, -, hp, -, rfl, hrc⟩
    · have hnone : pieceSum [] ≤ xztlIoMaxMcmd := Nat.zero_le _
      exact not_wroteAll_of_lt (by simp) hnone hbig
    · exact not_wroteAll_of_lt (hp.fits h hrc) (hp.sum_le.trans hmax) hbig
  · have hncmd : c.ncmd = unitsOf c.size := c.ncmd_eq (by omega)
    rw [hncmd] at hcase
    obtain ⟨hmax, -⟩ | ⟨-, ps, ok, -, hp, -, rfl, hrc⟩ := hcase
    · rw [xztlIoMaxMcmd, unitsOf, unitBytes_eq] at hmax
      omega
    by_cases h0 : c.size = 0
    · have hu : unitsOf c.size = 0 := by rw [h0]; rfl
      rw [hu] at hp
      exact iff_of_true (wroteAll_zero hp h0) (Or.inl h0)
    · rw [hp.wroteAll_iff h (by omega) (by omega) (hp.fits h hrc), or_iff_right h0,
        and_iff_right (show c.size ≤ 2 ^ 31 by omega)]

/-- One byte on a fresh group, with a working device. -/
theorem zrocksWrite_ok_iff_byte : ∃ ans z' ret maps,
    zrocksWrite (Ztl.fresh ⟨1, by decide⟩ .blank) ⟨fun _ => 7, 1, 0, fun _ _ => 0⟩ ans
      = .ok (z', ret, maps) ∧
    (ret = xztlOk → WroteAll (Ztl.fresh ⟨1, by decide⟩ .blank) z' 1 maps) := by
  have ha := Alloc.fresh ⟨1, by decide⟩ .blank
  obtain ⟨ans, ⟨z', ret, maps⟩, e⟩ :=
    exists_zrocksWrite ha ⟨fun _ => 7, 1, 0, fun _ _ => 0⟩ (by decide)
  refine ⟨ans, z', ret, maps, e, (zrocksWrite_ok_iff ha e).mpr (Or.inr ⟨?_, ?_, Or.inr (by decide)⟩)⟩
  · show 1 ≤ 2 ^ 31
    omega
  · exact fun i _ => ⟨0, by decide, rfl⟩

/-- **A lost byte.**  The device fails all three attempts, and the write reports success. -/
theorem zrocksWrite_ok_lost : ∃ ans z' maps,
    zrocksWrite (Ztl.fresh ⟨1, by decide⟩ .blank) ⟨fun _ => 7, 1, 0, fun _ _ => 1⟩ ans
      = .ok (z', xztlOk, maps) ∧
    ¬ WroteAll (Ztl.fresh ⟨1, by decide⟩ .blank) z' 1 maps := by
  have ha := Alloc.fresh ⟨1, by decide⟩ .blank
  obtain ⟨ans, ⟨z', ret, maps⟩, e⟩ :=
    exists_zrocksWrite ha ⟨fun _ => 7, 1, 0, fun _ _ => 1⟩ (by decide)
  obtain ⟨rfl, ⟨hmax, -⟩ | ⟨-, ps, ok, -, hp, -, rfl, hrc⟩⟩ := zrocksWrite_spec ha e
  · exact absurd hmax (by decide)
  refine ⟨ans, z', _, e, fun hs => ?_⟩
  obtain ⟨j, -, hj⟩ := ((hp.wroteAll_iff ha (by decide) (by decide) (hp.fits ha hrc)).mp hs).1 0
    (by decide)
  cases hj

end

end Xztl
