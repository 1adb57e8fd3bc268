import Xztl.Ztl.Admission
import Xztl.Zrocks.RoundTrip

/-!
# Zrocks — the pieces a write returns (`zrocks.c`, `zrocks_write`)

`zrocks_write` rounds the size up to whole units, lets the command split them at the end of the
current node, and packs the pieces into bit fields, the padding into the last one.

* `Pieces.length_le`: there are at most two pieces, since a free node has room for everything that is
  left.
* **`zrocksWrite_encoded_iff`**: the returned pieces decode to the ones of the command and account
  for every byte exactly when the write found room.  `zrocks_write` returns `XZTL_OK` in any case.
-/

namespace Xztl

open List

/-- The piece that the bit fields stand for. -/
def ZrocksMap.piece (m : ZrocksMap) : Piece := ⟨m.nodeId, m.start, m.num⟩

/-- What the pieces of a write are to be: one or two, decoding to those of the command, the padding
in the last one only, the data in order (as far as the medium stores it), and with the padding as
many bytes as were asked for. -/
structure Encoded (c : WriteCall) (u : Ucmd) (z' : Ztl) (maps : List ZrocksMap) : Prop where
  count : 1 ≤ maps.length ∧ maps.length ≤ ucmdPieceNum
  fields : maps.map ZrocksMap.piece = u.pieces
  padding : maps.map (fun m => m.padding.val)
    = List.replicate (maps.length - 1) 0 ++ [newSz c.size - c.size]
  order : (∀ k < c.ncmd, c.req.Stores k) → Holds z' (chunksAt c.buf 0 maps)
  bytes : (maps.map fun m => m.num.val * unitBytes).sum
    = c.size + (maps.map fun m => m.padding.val).sum

/-! ### Packing -/

section

variable {ps : List Piece} {padding : Nat}

theorem toMaps_length (ps : List Piece) (padding : Nat) :
    (toMaps ps padding).length = ps.length := by
  induction ps with
  | nil => rfl
  | cons p ps ih =>
    cases ps with
    | nil => rfl
    | cons p' ps => exact congrArg (· + 1) ih

/-- Pieces that fit the bit fields come back out of them. -/
theorem map_piece_toMaps (h : ∀ p ∈ ps, p.Fits) :
    (toMaps ps padding).map ZrocksMap.piece = ps := by
  have hone : ∀ {p : Piece} (k : Nat), p.Fits → (ZrocksMap.ofPiece p k).piece = p := by
    intro p k hp
    rw [ZrocksMap.piece, ZrocksMap.ofPiece_nodeId hp, ZrocksMap.ofPiece_start hp,
      ZrocksMap.ofPiece_num hp]
  induction ps with
  | nil => rfl
  | cons p ps ih =>
    have hp := h p mem_cons_self
    have ih := ih fun q hq => h q (mem_cons_of_mem _ hq)
    cases ps with
    | nil => exact congrArg (· :: []) (hone padding hp)
    | cons p' ps => rw [toMaps, map_cons, ih, hone 0 hp]

/-- A padding that fits its bit field comes back out of the last piece, and the others have none. -/
theorem map_padding_toMaps (h : padding < 2 ^ 16) (hne : ps ≠ []) :
    (toMaps ps padding).map (fun m => m.padding.val)
      = List.replicate (ps.length - 1) 0 ++ [padding] := by
  induction ps with
  | nil => exact absurd rfl hne
  | cons p ps ih =>
    cases ps with
    | nil => exact congrArg (· :: []) (Nat.mod_eq_of_lt h)
    | cons p' ps =>
      rw [toMaps, map_cons, ih (cons_ne_nil _ _)]
      rfl

theorem sum_num_mul (maps : List ZrocksMap) :
    (maps.map fun m => m.num.val * unitBytes).sum = unitBytes * mapUnits maps := by
  rw [sum_map_mul_right, Nat.mul_comm]
  rfl

end

/-! ### The number of pieces -/

section

variable {w : WriteReq} {z z' : Ztl} {parts : NodeList → List Nat} {b left : Nat} {ps : List Piece}
  {ok : Bool}

/-- **At most two pieces.**  The first one uses up the current node, and what is left fits a free
node. -/
theorem Pieces.length_le (hp : Pieces w z b left ps ok z') :
    ∀ {parts}, Alloc z parts → left ≤ ztlProOptSecNumInnode →
      ps.length ≤ if z.room w.provType = 0 then 1 else ucmdPieceNum := by
  induction hp with
  | fail e => exact fun _ _ => Nat.zero_le _
  | last e hq hle hd =>
    intro parts _ _
    split <;> exact Nat.le_add_left 1 _
  | @more z z1 z2 _ b left n ps ok e hq hlt hd _ ih =>
    intro parts h hmax
    obtain ⟨parts1, -, -, -, -, h'⟩ := h.step e hq le_rfl hd
    obtain ⟨parts2, -, -, -, hopen⟩ := h.getNode e
    obtain ⟨n', hq', -, -, hzero⟩ := hopen rfl
    obtain rfl : n' = n := Option.some.inj (hq'.symm.trans hq)
    have hroom : z.room w.provType ≠ 0 := fun h0 => by
      rw [hzero h0] at hlt
      omega
    have hrest := ih h' (by omega)
    rw [if_pos (room_exhausted hq hd)] at hrest
    rw [if_neg hroom]
    exact Nat.succ_le_succ hrest

end

/-! ### What a write returns -/

section

variable {z z' : Ztl} {parts : NodeList → List Nat} {c : WriteCall} {ans : List MediaAns}
  {maps : List ZrocksMap}

/-- The padding of a write of up to `ZNS_MAX_BUF` bytes. -/
theorem padding_of_le (h2 : c.size ≤ znsMaxBuf) :
    c.padding = newSz c.size - c.size ∧ newSz c.size - c.size < 2 ^ 16 ∧
      newSz c.size = unitBytes * c.ncmd ∧ c.size ≤ newSz c.size := by
  have h3 : c.size ≤ 33554432 := h2
  have hnew : newSz c.size = unitBytes * c.ncmd := by
    rw [newSz_eq (by omega), c.ncmd_eq (by omega)]
  have hncmd := c.ncmd_eq (by omega)
  rw [WriteCall.padding, hnew]
  simp only [unitBytes_eq] at hncmd ⊢
  refine ⟨?_, ?_, trivial, ?_⟩ <;> omega

/-- The command of a write of up to `ZNS_MAX_BUF` bytes, and its pieces. -/
theorem zrocksWrite_pieces (h : Alloc z parts) (h1 : 1 ≤ c.size) (h2 : c.size ≤ znsMaxBuf)
    (e : zrocksWrite z c ans = .ok (z', xztlOk, maps)) :
    ∃ u ok, ztlIoWriteUcmd c.req z ans = .ok (z', u) ∧ Pieces c.req z 0 c.ncmd u.pieces ok z' ∧
      maps = toMaps u.pieces (newSz c.size - c.size) ∧ ∀ p ∈ u.pieces, p.Fits := by
  rw [zrocksWrite] at e
  obtain ⟨⟨z1, u⟩, eu, e⟩ := Except.bind_eq_ok.mp e
  cases e
  have hadm : c.req.Admitted := by
    refine ⟨newSz_mod c.size, ?_⟩
    exact (WriteCall.ncmd_of_le h1 h2).2.2.trans (by decide)
  have er := eu
  rw [ztlIoWriteUcmd_admitted hadm, ← Nat.mul_zero unitBytes] at er
  obtain ⟨ps, ok, parts', hp, -, hu, hps⟩ := reget_spec h er
  rw [nil_append] at hu
  rw [← hu] at hp hps
  exact ⟨u, ok, eu, hp, by rw [(padding_of_le h2).1], hp.fits h hps⟩

/-- **The encoding of a write.**  The pieces of a write of up to `ZNS_MAX_BUF` bytes are encoded
right exactly when the current node of its level has room for it or a node is free. -/
theorem zrocksWrite_encoded_iff (h : Alloc z parts) (h₁ : 1 ≤ c.size) (h₂ : c.size ≤ znsMaxBuf)
    (e : zrocksWrite z c ans = .ok (z', xztlOk, maps)) :
    (∃ u, ztlIoWriteUcmd c.req z ans = .ok (z', u) ∧ Encoded c u z' maps) ↔
      Enough z (clampLevel c.level) c.ncmd := by
  obtain ⟨u, ok, eu, hp, rfl, hfits⟩ := zrocksWrite_pieces h h₁ h₂ e
  obtain ⟨-, hpad, hnew, hle⟩ := padding_of_le h₂
  obtain ⟨-, hpos, hrc⟩ := WriteCall.ncmd_of_le h₁ h₂
  have hmax : c.ncmd ≤ ztlProOptSecNumInnode := hrc.trans (by decide)
  obtain ⟨hyes, hno⟩ := hp.units h hpos hmax
  have hsum : mapUnits (toMaps u.pieces (newSz c.size - c.size)) = pieceSum u.pieces :=
    mapUnits_toMaps hfits _
  constructor
  · rintro ⟨u', -, henc⟩
    by_contra hen
    obtain ⟨-, hroom⟩ := hno hen
    -- the padding is the whole rounding, so the pieces have all units
    have hbytes := henc.bytes
    rw [sum_num_mul, hsum, hroom, henc.padding] at hbytes
    simp only [sum_append, sum_replicate, sum_singleton, smul_zero,
      Nat.zero_add] at hbytes
    have hlt : z.room c.req.provType < c.ncmd := by
      by_contra hge
      exact hen (Or.inl (Nat.not_lt.mp hge))
    have hmul := Nat.mul_lt_mul_of_pos_left hlt (show 0 < unitBytes by decide)
    omega
  · intro hen
    obtain ⟨-, hall⟩ := hyes hen
    have hne : u.pieces ≠ [] := fun h0 => by
      rw [h0] at hall
      exact hpos.ne hall
    have hpads := map_padding_toMaps hpad hne
    refine ⟨u, eu, ⟨?_, ?_⟩, map_piece_toMaps hfits, ?_, fun hs => ?_, ?_⟩
    · rw [toMaps_length]
      exact length_pos_iff.mpr hne
    · rw [toMaps_length]
      refine (hp.length_le h hmax).trans ?_
      split <;> decide
    · rw [toMaps_length]
      exact hpads
    · have hnil : Holds z [] := by constructor <;> simp
      exact (hnil.write h (hrc.trans (by decide)) hs e).2.1
    · rw [sum_num_mul, hsum, hall, hpads]
      simp only [sum_append, sum_replicate, sum_singleton, smul_zero, Nat.zero_add]
      omega

/-- One byte on a fresh node. -/
theorem zrocksWrite_encoded_byte : ∃ ans u z' maps,
    zrocksWrite (Ztl.fresh oneNode Dev.blank) byteWrite ans = .ok (z', xztlOk, maps) ∧
      Encoded byteWrite u z' maps := by
  have ha := Alloc.fresh oneNode Dev.blank
  obtain ⟨ans, ⟨z', ret, maps⟩, e⟩ := exists_zrocksWrite ha byteWrite (by decide)
  obtain rfl := zrocksWrite_ret e
  obtain ⟨u, -, henc⟩ :=
    (zrocksWrite_encoded_iff ha (by decide) (by decide) e).mpr (enough_fresh _ _ _)
  exact ⟨ans, u, z', maps, e, henc⟩

/-- A group of one node has room for one level only. -/
theorem not_enough_of_one (h : Alloc z parts) (hone : z.nnodes = 1) {q q' k : Nat} (hq : q ≠ q')
    (hroom : z.room q ≠ 0) (hk : 0 < k) : ¬ Enough z q' k := by
  obtain ⟨n, hn⟩ : ∃ n, z.qnode q = some n := by
    cases e : z.qnode q with
    | none => exact absurd (by rw [Ztl.room, e]) hroom
    | some n => exact ⟨n, rfl⟩
  have hmem := h.qnode_mem hn
  have hsame : ∀ {l m}, m ∈ parts l → m = n := fun hm => by
    have := h.lt hm
    have := h.lt hmem
    omega
  have hnone : z.qnode q' = none := by
    cases e : z.qnode q' with
    | none => rfl
    | some m => exact absurd (h.inj hn (hsame (h.qnode_mem e) ▸ e)) hq
  rw [h.enough_iff, Ztl.room, hnone]
  rintro (hle | hfree)
  · exact absurd hle (Nat.not_le.mpr hk)
  · obtain ⟨m, hm⟩ := exists_mem_of_ne_nil _ hfree
    exact absurd (h.queues.disj hm (hsame hm ▸ hmem)) (by decide)

/-- The same byte for the next level. -/
def byteWriteNext : WriteCall := { byteWrite with level := 1 }

/-- On a group of one node, a byte of level 0 takes the node; a byte of level 1 then comes back with
`XZTL_OK` and no piece at all. -/
theorem zrocksWrite_unencoded : ∃ ans z m ans' z',
    zrocksWrite (Ztl.fresh oneNode Dev.blank) byteWrite ans = .ok (z, xztlOk, [m]) ∧
      zrocksWrite z byteWriteNext ans' = .ok (z', xztlOk, []) := by
  have ha := Alloc.fresh oneNode Dev.blank
  obtain ⟨ans, z, m, e, -, -, -, hroom⟩ :=
    exists_unitWrite ha (c := byteWrite) (by decide) (enough_fresh _ _ _)
  obtain ⟨-, ⟨hbig, -⟩ | ⟨-, -, -, parts, -, ha', -⟩⟩ := zrocksWrite_spec ha e
  · exact absurd hbig (by decide)
  have hne : z.room (clampLevel byteWrite.level) ≠ 0 := by
    have hempty : (Ztl.fresh oneNode Dev.blank).room (clampLevel byteWrite.level) = 0 := rfl
    rw [Ztl.nextRoom, if_pos hempty, ztlProOptSecNumInnode_eq] at hroom
    omega
  obtain ⟨ans', ⟨z', ret, maps⟩, e'⟩ := exists_zrocksWrite ha' byteWriteNext (by decide)
  obtain rfl := zrocksWrite_ret e'
  have hnone : maps = [] := by
    rw [zrocksWrite_eq_nil_iff ha' (by decide) e']
    exact not_enough_of_one ha' (zrocksWrite_frame ha e).1 (by decide) hne Nat.one_pos
  exact ⟨ans, z, m, ans', z', e, hnone ▸ e'⟩

end

end Xztl
