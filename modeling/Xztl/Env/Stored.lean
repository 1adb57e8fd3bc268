import Xztl.Env.ReadFile
import Xztl.Zrocks.Encoding

/-!
# Env — pieces that are stored

A piece *lies* on the device when it can be read and is below its node's `used` counter.  Writes go
behind the counters, so **a write disturbs no stored piece** (`Lies.write`); and **a write that is
stored in full leaves pieces that hold its bytes** (`fileBytes_write`), the padding of the last piece
taken off.
-/

namespace Xztl

open Bytes List

/-! ### Pieces that are stored -/

/-- A piece that can be read and lies below its node's `used` counter. -/
structure Lies (z : Ztl) (m : ZrocksMap) : Prop extends Readable z m where
  used : m.start.val + m.num ≤ (z.vnodes m.nodeId).used

/-- The piece without its padding. -/
def ZrocksMap.unpadded (m : ZrocksMap) : ZrocksMap := { m with padding := 0 }

section

variable {z z' : Ztl} {parts : NodeList → List Nat} {c : WriteCall} {ans : List MediaAns} {ret : Nat}
  {m x : ZrocksMap} {ms maps : List ZrocksMap} {d d' : Dev}

theorem Lies.unpadded (h : Lies z m) : Lies z m.unpadded :=
  ⟨⟨h.node, h.num, Nat.zero_le _⟩, h.used⟩

theorem fileBytes_congr (h : ∀ x ∈ ms, pieceBytes d' x = pieceBytes d x) :
    fileBytes d' ms = fileBytes d ms := flatMap_congr h

/-- The chunk of a stored piece, with what the node holds. -/
theorem Lies.holds (h : Lies z x) :
    Holds z [⟨x.nodeId, x.start, x.num, fun i => nodeByte z.dev x.nodeId (unitBytes * x.start + i)⟩]
    where
  lt := fun c hc => by
    obtain rfl := mem_singleton.mp hc
    exact h.node
  used := fun c hc => by
    obtain rfl := mem_singleton.mp hc
    exact h.used
  data := fun c hc i _ => by
    obtain rfl := mem_singleton.mp hc
    rfl
  disj := pairwise_singleton _ _

/-- **A write disturbs no stored piece.** -/
theorem Lies.write (h : Lies z x) (ha : Alloc z parts) (hmax : c.ncmd ≤ xztlIoMaxMcmd)
    (hs : ∀ k < c.ncmd, c.req.Stores k) (e : zrocksWrite z c ans = .ok (z', ret, maps)) :
    Lies z' x ∧ pieceBytes z'.dev x = pieceBytes z.dev x := by
  obtain ⟨-, hh, -⟩ := h.holds.write ha hmax hs e
  have hmem := mem_append_left (chunksAt c.buf 0 maps) (mem_singleton_self
    (⟨x.nodeId, x.start, x.num, fun i => nodeByte z.dev x.nodeId (unitBytes * x.start + i)⟩ : Chunk))
  refine ⟨⟨⟨hh.lt _ hmem, h.num, h.padding⟩, hh.used _ hmem⟩, load_congr fun i hi => ?_⟩
  exact hh.data _ hmem i (by show i < unitBytes * x.num; omega)

/-- What a piece of a write holds. -/
theorem pieceBytes_ofPiece {buf : Nat → UInt8} {p : Piece} (hp : p.Fits) {padding b : Nat}
    (hpad : padding < unitBytes) (h : ∀ i < unitBytes * p.num,
      nodeByte d p.nodeId (unitBytes * p.start + i) = buf (unitBytes * b + i)) :
    pieceBytes d (.ofPiece p padding) = load buf (unitBytes * b) (unitBytes * p.num - padding) := by
  have hval : (ZrocksMap.ofPiece p padding).padding.val = padding :=
    Nat.mod_eq_of_lt (lt_trans hpad (by decide))
  rw [pieceBytes, ZrocksMap.ofPiece_nodeId hp, ZrocksMap.ofPiece_start hp, ZrocksMap.ofPiece_num hp,
    hval]
  exact load_congr fun i hi => h i (lt_of_lt_of_le hi (Nat.sub_le _ _))

/-- What the pieces of a write hold: the units they count without the padding. -/
theorem fileBytes_toMaps {buf : Nat → UInt8} {padding : Nat} (hpad : padding < unitBytes)
    (ps : List Piece) : ∀ {b : Nat}, (∀ p ∈ ps, p.Fits) → (∀ p ∈ ps, 0 < p.num) →
    (∀ c ∈ chunksOf buf b ps, ∀ i < unitBytes * c.num,
      nodeByte d c.nodeId (unitBytes * c.start + i) = c.content i) →
    fileBytes d (toMaps ps padding)
      = load buf (unitBytes * b) (unitBytes * pieceSum ps - padding) := by
  induction ps with
  | nil =>
    intro b _ _ _
    rw [pieceSum_nil, Nat.mul_zero, Nat.zero_sub]
    rfl
  | cons p ps ih =>
    intro b hfits hpos h
    have hp := hfits p mem_cons_self
    have hdata := h _ mem_cons_self
    cases ps with
    | nil =>
      rw [pieceSum_cons, pieceSum_nil, Nat.add_zero]
      exact (append_nil _).trans (pieceBytes_ofPiece hp hpad hdata)
    | cons p' ps =>
      have hp' : 0 < p'.num := hpos p' (mem_cons_of_mem _ mem_cons_self)
      have hrest := ih (b := b + p.num) (fun q hq => hfits q (mem_cons_of_mem _ hq))
        (fun q hq => hpos q (mem_cons_of_mem _ hq)) fun c hc => h c (mem_cons_of_mem _ hc)
      -- the padding is in the units of the pieces behind the first
      have hle : padding ≤ unitBytes * pieceSum (p' :: ps) := by
        rw [pieceSum_cons]
        rw [unitBytes_eq] at *
        omega
      rw [toMaps, fileBytes_cons, hrest, pieceBytes_ofPiece hp (by decide) hdata, Nat.sub_zero,
        pieceSum_cons p, Nat.mul_add unitBytes b, Nat.mul_add unitBytes p.num,
        Nat.add_sub_assoc hle, load_add]

/-- Only the last piece of a write has padding. -/
theorem padding_toMaps_le {ps : List Piece} {padding : Nat} (h : m ∈ toMaps ps padding) :
    m.padding.val ≤ padding := by
  induction ps with
  | nil => cases h
  | cons p ps ih =>
    cases ps with
    | nil =>
      obtain rfl := mem_singleton.mp h
      exact Nat.mod_le _ _
    | cons p' ps =>
      rcases mem_cons.mp h with rfl | h
      · exact Nat.zero_le _
      · exact ih h

/-- **A write that is stored in full**: its pieces lie on the device and hold its bytes. -/
theorem fileBytes_write (ha : Alloc z parts) (h1 : 1 ≤ c.size) (h2 : c.size ≤ znsMaxBuf)
    (hs : ∀ k < c.ncmd, c.req.Stores k) (hen : Enough z (clampLevel c.level) c.ncmd)
    (e : zrocksWrite z c ans = .ok (z', ret, maps)) :
    (∃ parts', Alloc z' parts') ∧ (∀ x ∈ maps, Lies z' x) ∧
      fileBytes z'.dev maps = load c.buf 0 c.size := by
  obtain ⟨hncmd, hpos, hle⟩ := WriteCall.ncmd_of_le h1 h2
  obtain ⟨hpad, -, hnew, hsize⟩ := padding_of_le h2
  have hmax : c.ncmd ≤ xztlIoMaxMcmd := le_trans hle (by decide)
  have hnone : Holds z [] := ⟨by simp, by simp, by simp, by simp⟩
  obtain ⟨ha', hh, hshort⟩ := hnone.write ha hmax hs e
  rw [nil_append] at hh
  obtain ⟨-, ⟨hbig, -⟩ | ⟨-, ps, ok, -, hp, -, rfl, hrc⟩⟩ := zrocksWrite_spec ha e
  · exact absurd hbig (Nat.not_lt_of_le hmax)
  have hfits := hp.fits ha hrc
  have hunits := hp.pos ha hpos
  have hlt : c.padding < unitBytes := by
    rw [hpad, hnew, hncmd]
    rw [unitBytes_eq]
    omega
  refine ⟨ha', fun x hx => ?_, ?_⟩
  · obtain ⟨p, hpm, -, hnum⟩ := mem_toMaps hfits hx
    have hpadle : x.padding.val ≤ unitBytes * x.num := by
      have hone := hunits p hpm
      have := padding_toMaps_le hx
      rw [hnum]
      rw [unitBytes_eq] at *
      omega
    obtain ⟨pre, post, hsplit⟩ := append_of_mem hx
    have hmem : (⟨x.nodeId, x.start, x.num, fun i => c.buf (unitBytes * (0 + mapUnits pre) + i)⟩ :
        Chunk) ∈ chunksAt c.buf 0 (toMaps ps c.padding) := by
      rw [hsplit, chunksAt_append, chunksAt]
      exact mem_append_right _ mem_cons_self
    exact ⟨⟨hh.lt _ hmem, hshort x hx, hpadle⟩, hh.used _ hmem⟩
  · have hsum : pieceSum ps = c.ncmd := (hp.units ha hpos (hle.trans (by decide))).1 hen |>.2
    have hdata := hh.data
    rw [chunksAt_toMaps hfits] at hdata
    have hall : unitBytes * c.ncmd - c.padding = c.size := by
      rw [hpad, hnew]
      omega
    rw [fileBytes_toMaps hlt ps hfits hunits hdata, hsum, hall, Nat.mul_zero]

end

end Xztl
