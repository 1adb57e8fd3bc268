import Xztl.Env.Contents

/-!
# Env — reading a file that is open for writing (`env_zns_io.cc`)

`ZNSRandomAccessFile::Read` and `ZNSSequentialFile::ReadOffset` look once, at the offset, where the
range is: in the write cache, and then the result points there, or in the pieces, and then the range
is read piece by piece.  A range that starts in the pieces and ends in the cache runs off the list of
pieces.

* **`reads_iff`** says for every file whose bytes are in its pieces and its cache which ranges are
  delivered.
* **`positioned_iff`** says when `PositionedRead`, which reads at `read_off` into the caller's buffer,
  returns what `Read` returns at the offset.
-/

namespace Xztl

open Bytes List

/-- A result: a range of `wcache`, or the front of the caller's buffer. -/
inductive Slice where
  | cache (start len : Nat)
  | scratch (len : Nat)

/-- The length that is read: not behind the end of the file; the sum is in 64 bits. -/
def clip (size offset n : Nat) : Nat := if (offset + n) % 2 ^ 64 > size then size - offset else n

/-- `cache_pos`: where the cached bytes start. -/
def ZnsFile.cachePos (f : ZnsFile) : Nat := (f.size + 2 ^ 64 - f.cachedBytes.length) % 2 ^ 64

/-- `ZNSRandomAccessFile::Read` on the object `p`: the status, the result where it is set, and the
caller's buffer. -/
def randomRead (z : Ztl) (t : Table) (p : Option Ptr) (offset n : Nat) (scratch : Buf)
    (reads : Nat → List ReadAns) : Except Stop (Status × Option Slice × Buf) :=
  match p with
  | none => .ok (.ok, none, scratch)
  | some p => do
      let f ← t.get p
      if offset ≥ f.size then return (.ok, none, scratch)
      let n := clip f.size offset n
      if offset ≥ f.cachePos then return (.ok, some (.cache (offset - f.cachePos) n), scratch)
      let (s, len, scratch) ← readOffset z t (some p) offset n scratch reads
      return (s, len.map .scratch, scratch)

/-- `ZNSSequentialFile::ReadOffset` on the object `p`: the same with `readLen`, which is set along with
the result. -/
def sequentialReadOffset (z : Ztl) (t : Table) (p : Option Ptr) (offset n : Nat) (scratch : Buf)
    (reads : Nat → List ReadAns) : Except Stop (Status × Option (Slice × Nat) × Buf) :=
  match p with
  | none => .ok (.ok, none, scratch)
  | some p => do
      let f ← t.get p
      if offset ≥ f.size then return (.ok, none, scratch)
      let n := clip f.size offset n
      if offset ≥ f.cachePos then return (.ok, some (.cache (offset - f.cachePos) n, n), scratch)
      match locate f.map 0 offset with
      | none => return (.ioError, none, scratch)
      | some (ms, pieceOff) =>
        let (s, scratch) ← readPieces z n reads ms 0 n pieceOff scratch
        return (s, if s = .ok then some (.scratch n, n) else none, scratch)

/-- `readLen`, which is zero before the call. -/
def readLen : Option (Slice × Nat) → Nat
  | some (_, len) => len
  | none => 0

/-- `ZNSSequentialFile::PositionedRead` reads at `read_off`, whatever the offset is; the status of the
read is dropped, and the result is the front of the caller's buffer in any case. -/
def positionedRead (z : Ztl) (t : Table) (p : Option Ptr) (readOff _offset n : Nat) (scratch : Buf)
    (reads : Nat → List ReadAns) : Except Stop (Status × Slice × Buf) := do
  let (_, r, scratch) ← sequentialReadOffset z t p readOff n scratch reads
  return (.ok, .scratch (readLen r), scratch)

/-- The bytes of a result, if they are the caller's or the cached ones. -/
def Slice.bytes (cached : List UInt8) (scratch : Buf) : Slice → Option (List UInt8)
  | cache start len =>
    if start + len ≤ cached.length then some ((cached.drop start).take len) else none
  | .scratch len => some (load scratch 0 len)

/-- A read that succeeds with these bytes. -/
def Delivers (cached bytes : List UInt8) (r : Except Stop (Status × Option Slice × Buf)) : Prop :=
  ∃ x scratch, r = .ok (.ok, some x, scratch) ∧ x.bytes cached scratch = some bytes

/-- The same for a sequential read, with its length. -/
def DeliversLen (cached bytes : List UInt8)
    (r : Except Stop (Status × Option (Slice × Nat) × Buf)) : Prop :=
  ∃ x scratch, r = .ok (.ok, some (x, bytes.length), scratch) ∧ x.bytes cached scratch = some bytes

section

variable {h : Handle} {live : List ZrocksMap} {w : World} {bytes : List UInt8} {offset n : Nat}
  {reads : Nat → List ReadAns}

theorem clip_eq (size offset n : Nat) (hn : offset + n < 2 ^ 64) (hoff : offset ≤ size) :
    clip size offset n = min n (size - offset) := by
  rw [clip, Nat.mod_eq_of_lt hn]
  split <;> omega

theorem HoldsBytes.get (hb : HoldsBytes h live w bytes) :
    w.env.tbl.get h.znsFile = .ok (w.file h) := if_neg (by rw [hb.alive]; decide)

theorem HoldsBytes.length_eq (hb : HoldsBytes h live w bytes) : bytes.length
    = (fileBytes w.z.dev (w.file h).map).length + (w.file h).cachedBytes.length := by
  rw [← hb.bytes, length_append]

theorem HoldsBytes.cachePos (hb : HoldsBytes h live w bytes)
    (hsize : (w.file h).size = bytes.length) :
    (w.file h).cachePos = (fileBytes w.z.dev (w.file h).map).length := by
  have hlt := hb.length_lt
  have hlen := hb.length_eq
  rw [ZnsFile.cachePos, hsize]
  omega

/-- The range does not go round 2⁶⁴, and it lies in the pieces or in the cache; `pos` is where the
cached bytes start. -/
def InOnePlace (pos size offset n : Nat) : Prop :=
  offset + n < 2 ^ 64 ∧ (pos ≤ offset ∨ min (offset + n) size ≤ pos)

/-- A length that goes round is not clipped. -/
theorem clip_wrap {size : Nat} (hn : n < 2 ^ 64) (hoff : offset < size) (hwrap : 2 ^ 64 ≤ offset + n)
    (hsize : size < 2 ^ 64) : clip size offset n = n := by
  rw [clip, if_neg]
  omega

theorem clip_clip {size : Nat} (hoff : offset < size) (hsize : size < 2 ^ 64) :
    clip size offset (clip size offset n) = clip size offset n := by
  rw [clip, if_neg]
  rw [clip]
  split
  · rw [Nat.add_sub_of_le (le_of_lt hoff), Nat.mod_eq_of_lt hsize]
    exact lt_irrefl _
  · assumption

/-- **A range that starts in the cache.** -/
theorem HoldsBytes.cache_bytes_iff (hb : HoldsBytes h live w bytes) (hoff : offset < bytes.length)
    (hn : n < 2 ^ 64) (hpos : (fileBytes w.z.dev (w.file h).map).length ≤ offset) (scratch : Buf) :
    (Slice.cache (offset - (fileBytes w.z.dev (w.file h).map).length)
        (clip bytes.length offset n)).bytes (w.file h).cachedBytes scratch
        = some ((bytes.drop offset).take n) ↔ offset + n < 2 ^ 64 := by
  have hlen := hb.length_eq
  have hlt := hb.length_lt
  have hdrop : bytes.drop offset
      = (w.file h).cachedBytes.drop (offset - (fileBytes w.z.dev (w.file h).map).length) := by
    rw [← hb.bytes, drop_append, drop_eq_nil_of_le hpos, nil_append]
  rw [Slice.bytes, hdrop]
  by_cases hwrap : offset + n < 2 ^ 64
  · rw [clip_eq bytes.length offset n hwrap (le_of_lt hoff)]
    refine iff_of_true ?_ hwrap
    rw [if_pos (by omega)]
    refine congrArg some ?_
    rw [← take_take, take_of_length_le (l := List.drop _ _)]
    rw [length_drop]
    omega
  · rw [clip_wrap hn hoff (Nat.le_of_not_lt hwrap) hlt]
    refine iff_of_false ?_ hwrap
    rw [if_neg (by omega)]
    exact fun e => by cases e

/-- **A range that starts in the pieces.** -/
theorem HoldsBytes.readOffset_pieces (hb : HoldsBytes h live w bytes)
    (hsize : (w.file h).size = bytes.length) (hr : GoodReads reads) (hn : n < 2 ^ 64)
    (hpos : offset < (fileBytes w.z.dev (w.file h).map).length) (scratch : Buf) :
    (InOnePlace (fileBytes w.z.dev (w.file h).map).length bytes.length offset n ∧
      readOffset w.z w.env.tbl (some h.znsFile) offset (clip bytes.length offset n) scratch reads
        = .ok (.ok, some ((bytes.drop offset).take n).length,
            memcpy scratch 0 ((bytes.drop offset).take n))) ∨
    (¬ InOnePlace (fileBytes w.z.dev (w.file h).map).length bytes.length offset n ∧
      readOffset w.z w.env.tbl (some h.znsFile) offset (clip bytes.length offset n) scratch reads
        = .error .outOfBounds) := by
  have hlen := hb.length_eq
  have hlt := hb.length_lt
  have hoff : offset < bytes.length := by omega
  obtain ⟨parts, ha⟩ := hb.sound.alloc
  have hspec := readOffset_eq ha.geometry hr hb.alive (fun m hm => (hb.lies m hm).toReadable) offset
    (clip bytes.length offset n) scratch
  have hclip : (if (offset + clip bytes.length offset n) % 2 ^ 64 > bytes.length then
      bytes.length - offset else clip bytes.length offset n) = clip bytes.length offset n :=
    clip_clip hoff hlt
  rw [hspec, show (w.env.tbl.objs h.znsFile).size = bytes.length from hsize, readSpec,
    if_neg (Nat.not_le_of_lt hoff)]
  simp only [hclip]
  rw [if_neg (show ¬ (fileBytes w.z.dev (w.env.tbl.objs h.znsFile).map).length ≤ offset from
    Nat.not_le_of_lt hpos)]
  by_cases hwrap : offset + n < 2 ^ 64
  · rw [clip_eq bytes.length offset n hwrap (le_of_lt hoff)]
    by_cases hfit : offset + min n (bytes.length - offset)
        ≤ (fileBytes w.z.dev (w.file h).map).length
    · have hbytes : ((fileBytes w.z.dev (w.file h).map).drop offset).take
          (min n (bytes.length - offset)) = (bytes.drop offset).take n := by
        have hall : (bytes.drop offset).take n
            = (bytes.drop offset).take (min n (bytes.length - offset)) := by
          rw [← take_take, take_of_length_le (le_of_eq length_drop)]
        have hdrop : bytes.drop offset = (fileBytes w.z.dev (w.file h).map).drop offset
            ++ (w.file h).cachedBytes := by
          rw [← hb.bytes, drop_append_of_le_length (le_of_lt hpos)]
        rw [hall, hdrop, take_append_of_le_length]
        rw [length_drop]
        omega
      have hnum : ((bytes.drop offset).take n).length = min n (bytes.length - offset) := by
        rw [length_take, length_drop]
      refine Or.inl ⟨⟨hwrap, Or.inr (by omega)⟩, ?_⟩
      rw [hnum, ← hbytes]
      exact if_pos hfit
    · refine Or.inr ⟨fun hin => hfit ?_, if_neg hfit⟩
      obtain ⟨-, hin | hin⟩ := hin
      · exact absurd hin (Nat.not_le_of_lt hpos)
      · omega
  · rw [clip_wrap hn hoff (Nat.le_of_not_lt hwrap) hlt]
    refine Or.inr ⟨fun hin => hwrap hin.1, if_neg ?_⟩
    show ¬ offset + n ≤ (fileBytes w.z.dev (w.file h).map).length
    omega

/-- A range that starts in the pieces is left to `ReadOffset`. -/
theorem randomRead_eq {z : Ztl} {t : Table} {p : Ptr} {f : ZnsFile} (hf : t.get p = .ok f)
    (hoff : offset < f.size) (hpos : offset < f.cachePos) (scratch : Buf) :
    randomRead z t (some p) offset n scratch reads
      = (readOffset z t (some p) offset (clip f.size offset n) scratch reads).map fun r =>
          (r.1, r.2.1.map Slice.scratch, r.2.2) := by
  rw [randomRead]
  simp only [hf, bind, Except.bind]
  rw [if_neg (Nat.not_le_of_lt hoff), if_neg (Nat.not_le_of_lt hpos)]
  cases readOffset z t (some p) offset (clip f.size offset n) scratch reads <;> rfl

/-- The sequential read does the same with its own loops. -/
theorem sequentialReadOffset_eq {z : Ztl} {t : Table} {p : Ptr} {f : ZnsFile}
    (hf : t.get p = .ok f) (hoff : offset < f.size) (hsize : f.size < 2 ^ 64)
    (hpos : offset < f.cachePos) (scratch : Buf) :
    sequentialReadOffset z t (some p) offset n scratch reads
      = (readOffset z t (some p) offset (clip f.size offset n) scratch reads).map fun r =>
          (r.1, r.2.1.map fun n => (Slice.scratch n, n), r.2.2) := by
  have hclip : (if (offset + clip f.size offset n) % 2 ^ 64 > f.size then f.size - offset
      else clip f.size offset n) = clip f.size offset n := clip_clip hoff hsize
  rw [sequentialReadOffset, readOffset]
  simp only [hf, bind, Except.bind, hclip]
  rw [if_neg (Nat.not_le_of_lt hoff), if_neg (Nat.not_le_of_lt hoff),
    if_neg (Nat.not_le_of_lt hpos)]
  cases locate f.map 0 offset with
  | none => rfl
  | some x =>
    simp only
    cases readPieces z (clip f.size offset n) reads x.1 0 (clip f.size offset n) x.2 scratch with
    | error e => rfl
    | ok r =>
      simp only [pure, Except.pure, Except.map]
      split <;> rfl

theorem load_memcpy_bytes (scratch : Buf) (bs : List UInt8) :
    load (memcpy scratch 0 bs) 0 bs.length = bs := load_memcpy_self

section

variable (hb : HoldsBytes h live w bytes) (hsize : (w.file h).size = bytes.length)
  (hr : GoodReads reads) (hoff : offset < bytes.length) (hn : n < 2 ^ 64) (scratch : Buf)
include hb hsize hr hoff hn scratch

theorem HoldsBytes.randomRead_iff :
    Delivers (w.file h).cachedBytes ((bytes.drop offset).take n)
        (randomRead w.z w.env.tbl (some h.znsFile) offset n scratch reads) ↔
      InOnePlace (fileBytes w.z.dev (w.file h).map).length bytes.length offset n := by
  by_cases hpos : (fileBytes w.z.dev (w.file h).map).length ≤ offset
  · rw [randomRead]
    simp only [hb.get, bind, Except.bind, hsize, hb.cachePos hsize]
    rw [if_neg (Nat.not_le_of_lt hoff), if_pos hpos]
    have hiff := hb.cache_bytes_iff hoff hn hpos scratch
    constructor
    · rintro ⟨x, b, he, hx⟩
      cases he
      exact ⟨hiff.mp hx, Or.inl hpos⟩
    · exact fun hin => ⟨_, _, rfl, hiff.mpr hin.1⟩
  · rw [randomRead_eq hb.get (by rw [hsize]; exact hoff)
      (by rw [hb.cachePos hsize]; exact Nat.lt_of_not_le hpos), hsize]
    rcases hb.readOffset_pieces hsize hr hn (Nat.lt_of_not_le hpos) scratch with
      ⟨hin, he⟩ | ⟨hout, he⟩
    · rw [he]
      exact iff_of_true ⟨_, _, rfl, congrArg some (load_memcpy_bytes scratch _)⟩ hin
    · rw [he]
      exact iff_of_false (fun ⟨x, b, e, _⟩ => by cases e) hout

theorem HoldsBytes.sequentialRead_iff :
    DeliversLen (w.file h).cachedBytes ((bytes.drop offset).take n)
        (sequentialReadOffset w.z w.env.tbl (some h.znsFile) offset n scratch reads) ↔
      InOnePlace (fileBytes w.z.dev (w.file h).map).length bytes.length offset n := by
  have hlt := hb.length_lt
  by_cases hpos : (fileBytes w.z.dev (w.file h).map).length ≤ offset
  · rw [sequentialReadOffset]
    simp only [hb.get, bind, Except.bind, hsize, hb.cachePos hsize]
    rw [if_neg (Nat.not_le_of_lt hoff), if_pos hpos]
    have hiff := hb.cache_bytes_iff hoff hn hpos scratch
    constructor
    · rintro ⟨x, b, he, hx⟩
      simp only [pure, Except.pure, Except.ok.injEq, Prod.mk.injEq, Option.some.injEq] at he
      obtain ⟨-, ⟨rfl, -⟩, rfl⟩ := he
      exact ⟨hiff.mp hx, Or.inl hpos⟩
    · intro hin
      have hnum : ((bytes.drop offset).take n).length = clip bytes.length offset n := by
        rw [clip_eq bytes.length offset n hin.1 (le_of_lt hoff), length_take, length_drop]
      exact ⟨_, _, by rw [hnum]; rfl, hiff.mpr hin.1⟩
  · rw [sequentialReadOffset_eq hb.get (by rw [hsize]; exact hoff) (by rw [hsize]; exact hlt)
      (by rw [hb.cachePos hsize]; exact Nat.lt_of_not_le hpos), hsize]
    rcases hb.readOffset_pieces hsize hr hn (Nat.lt_of_not_le hpos) scratch with
      ⟨hin, he⟩ | ⟨hout, he⟩
    · rw [he]
      exact iff_of_true ⟨_, _, rfl, congrArg some (load_memcpy_bytes scratch _)⟩ hin
    · rw [he]
      exact iff_of_false (fun ⟨x, b, e, _⟩ => by cases e) hout

end

end

/-- A file of two bytes, one in a piece and one in the cache. -/
theorem exists_mixed : ∃ (w : World) (reads : Nat → List ReadAns),
    HoldsBytes ⟨nameA, 0⟩ [] w [0, 1] ∧ (w.file ⟨nameA, 0⟩).size = ([0, 1] : List UInt8).length ∧
    (w.file ⟨nameA, 0⟩).cachedBytes = [1] ∧
    (fileBytes w.z.dev (w.file ⟨nameA, 0⟩).map).length = 1 ∧ GoodReads reads := by
  obtain ⟨e, -, ht, hl, -, -⟩ := load_fresh smallMd 0
  have hone : ([] ++ [0] : List UInt8).length ≤ znsMaxBuf := by decide
  have ho := (OnlyFile.fresh Dev.blank ht hl).setFile (g := { newA with cache := some [0], size := 1 })
    [0] rfl rfl rfl rfl rfl rfl hone
  obtain ⟨-, w, -, -, ho, hnil, hsize⟩ := ho.exists_sync (by
    rw [World.file_setFile (h := ⟨nameA, 0⟩)]
    exact cons_ne_nil 0 [])
  have hbytes := ho.holds.bytes
  rw [hnil, append_nil] at hbytes
  have hmixed := ho.setFile (g := { w.file ⟨nameA, 0⟩ with cache := some [1], size := 2 })
    [0, 1] rfl rfl rfl rfl rfl (by rw [hbytes]; rfl) hone
  obtain ⟨reads, hr⟩ := exists_goodReads
  refine ⟨_, reads, hmixed.holds, ?_, ?_, ?_, hr⟩ <;> rw [World.file_setFile (h := ⟨nameA, 0⟩)]
  · rfl
  · rfl
  · exact congrArg List.length hbytes

/-- **Reads across the cache boundary.**  Of a file whose bytes are in its pieces and its cache both
reads deliver a range exactly when it lies in one of the two places and does not go round 2⁶⁴. -/
theorem reads_iff {h : Handle} {live : List ZrocksMap} {w : World} {bytes : List UInt8}
    {offset n : Nat} {reads : Nat → List ReadAns} (hb : HoldsBytes h live w bytes)
    (hsize : (w.file h).size = bytes.length) (hr : GoodReads reads) (hoff : offset < bytes.length)
    (hn : n < 2 ^ 64) (scratch : Buf) :
    Delivers (w.file h).cachedBytes ((bytes.drop offset).take n)
        (randomRead w.z w.env.tbl (some h.znsFile) offset n scratch reads) ∧
      DeliversLen (w.file h).cachedBytes ((bytes.drop offset).take n)
        (sequentialReadOffset w.z w.env.tbl (some h.znsFile) offset n scratch reads) ↔
      InOnePlace (fileBytes w.z.dev (w.file h).map).length bytes.length offset n := by
  rw [hb.randomRead_iff hsize hr hoff hn scratch, hb.sequentialRead_iff hsize hr hoff hn scratch,
    and_self]

/-- The byte in the cache, and the one in the piece. -/
theorem reads_iff_mixed : ∃ (w : World) (reads : Nat → List ReadAns),
    Delivers [1] [1] (randomRead w.z w.env.tbl (some 0) 1 1 (fun _ => 0) reads) ∧
      DeliversLen [1] [1] (sequentialReadOffset w.z w.env.tbl (some 0) 1 1 (fun _ => 0) reads) ∧
    Delivers [1] [0] (randomRead w.z w.env.tbl (some 0) 0 1 (fun _ => 0) reads) ∧
      DeliversLen [1] [0] (sequentialReadOffset w.z w.env.tbl (some 0) 0 1 (fun _ => 0) reads) := by
  obtain ⟨w, reads, hb, hsize, hcached, hlen, hr⟩ := exists_mixed
  have h₁ := (reads_iff hb hsize hr (show 1 < 2 by decide) (n := 1) (by decide) fun _ => 0).mpr
    ⟨by decide, Or.inl (le_of_eq hlen)⟩
  have h₀ := (reads_iff hb hsize hr (show 0 < 2 by decide) (n := 1) (by decide) fun _ => 0).mpr
    ⟨by decide, Or.inr (le_of_eq hlen.symm)⟩
  rw [hcached] at h₁ h₀
  exact ⟨w, _, h₁.1, h₁.2, h₀.1, h₀.2⟩

/-- **A range across the boundary.**  Both bytes are asked for: the list of pieces ends after the
first, and `at` throws. -/
theorem reads_across : ∃ (w : World) (bytes : List UInt8) (reads : Nat → List ReadAns),
    HoldsBytes ⟨nameA, 0⟩ [] w bytes ∧ (w.file ⟨nameA, 0⟩).size = bytes.length ∧
    (w.file ⟨nameA, 0⟩).map ≠ [] ∧ (w.file ⟨nameA, 0⟩).cachedBytes ≠ [] ∧ GoodReads reads ∧
    randomRead w.z w.env.tbl (some 0) 0 2 (fun _ => 0) reads = .error .outOfBounds ∧
    sequentialReadOffset w.z w.env.tbl (some 0) 0 2 (fun _ => 0) reads = .error .outOfBounds := by
  obtain ⟨w, reads, hb, hsize, hcached, hlen, hr⟩ := exists_mixed
  have hout : ¬ InOnePlace (fileBytes w.z.dev (w.file ⟨nameA, 0⟩).map).length 2 0 2 := by
    rw [hlen]
    rintro ⟨-, h | h⟩
    · exact absurd h (by decide)
    · exact absurd h (by decide)
  have hlt : 0 < (fileBytes w.z.dev (w.file ⟨nameA, 0⟩).map).length := by rw [hlen]; decide
  have hread := (hb.readOffset_pieces hsize hr (n := 2) (by decide) hlt fun _ => 0).resolve_left
    fun hin => hout hin.1
  have hpos : 0 < (w.file ⟨nameA, 0⟩).cachePos := by rw [hb.cachePos hsize]; exact hlt
  have hoff : 0 < (w.file ⟨nameA, 0⟩).size := by rw [hsize]; decide
  refine ⟨w, [0, 1], _, hb, hsize, fun hnil => ?_, by rw [hcached]; exact cons_ne_nil 1 [], hr,
    ?_, ?_⟩
  · rw [hnil] at hlen
    cases hlen
  · rw [randomRead_eq hb.get hoff hpos, hsize, hread.2]
    rfl
  · rw [sequentialReadOffset_eq hb.get hoff (by rw [hsize]; decide) hpos, hsize, hread.2]
    rfl

/-! ### Positioned reads on the two handles -/

/-- A positioned read that succeeds with these bytes. -/
def DeliversAt (cached bytes : List UInt8) (r : Except Stop (Status × Slice × Buf)) : Prop :=
  ∃ x scratch, r = .ok (.ok, x, scratch) ∧ x.bytes cached scratch = some bytes

/-- What the sequential handle has at `read_off` is what the file has at `offset`: nothing is asked
for; or the range at `read_off` is in the pieces and the bytes are the same; or it starts in the
cache, and the caller's buffer has the bytes already. -/
def SameBytes (pos : Nat) (bytes : List UInt8) (readOff offset n : Nat) (scratch : Buf) : Prop :=
  bytes.length ≤ readOff ∧ n = 0 ∨
  readOff < pos ∧ InOnePlace pos bytes.length readOff n ∧
    (bytes.drop readOff).take n = (bytes.drop offset).take n ∨
  pos ≤ readOff ∧ readOff < bytes.length ∧
    load scratch 0 (clip bytes.length readOff n) = (bytes.drop offset).take n

section

variable {h : Handle} {live : List ZrocksMap} {w : World} {bytes bs : List UInt8}
  {offset readOff n : Nat} {reads : Nat → List ReadAns}

section

variable (hb : HoldsBytes h live w bytes) (hsize : (w.file h).size = bytes.length)
  (hr : GoodReads reads) (hoff : offset < bytes.length) (hn : n < 2 ^ 64)
include hb hsize hr hoff hn

/-- `Read` delivers the bytes of the range or none. -/
theorem HoldsBytes.eq_of_delivers {scratch : Buf}
    (hd : Delivers (w.file h).cachedBytes bs
      (randomRead w.z w.env.tbl (some h.znsFile) offset n scratch reads)) :
    bs = (bytes.drop offset).take n := by
  have hlt := hb.length_lt
  have hlen := hb.length_eq
  obtain ⟨x, b, he, hx⟩ := hd
  by_cases hpos : (fileBytes w.z.dev (w.file h).map).length ≤ offset
  · rw [randomRead] at he
    simp only [hb.get, bind, Except.bind, hsize, hb.cachePos hsize] at he
    rw [if_neg (Nat.not_le_of_lt hoff), if_pos hpos] at he
    cases he
    by_cases hwrap : offset + n < 2 ^ 64
    · have hiff := (hb.cache_bytes_iff hoff hn hpos scratch).mpr hwrap
      exact Option.some.inj (hx.symm.trans hiff)
    · rw [clip_wrap hn hoff (Nat.le_of_not_lt hwrap) hlt, Slice.bytes, if_neg (by omega)] at hx
      cases hx
  · rw [randomRead_eq hb.get (by rw [hsize]; exact hoff)
      (by rw [hb.cachePos hsize]; exact Nat.lt_of_not_le hpos), hsize] at he
    rcases hb.readOffset_pieces hsize hr hn (Nat.lt_of_not_le hpos) scratch with
      ⟨-, he'⟩ | ⟨-, he'⟩
    · rw [he'] at he
      cases he
      exact (Option.some.inj hx).symm.trans (load_memcpy_bytes scratch _)
    · rw [he'] at he
      cases he

/-- **What `PositionedRead` delivers**, at any `read_off`. -/
theorem HoldsBytes.positionedRead_iff (scratch : Buf) :
    DeliversAt (w.file h).cachedBytes ((bytes.drop offset).take n)
        (positionedRead w.z w.env.tbl (some h.znsFile) readOff offset n scratch reads) ↔
      SameBytes (fileBytes w.z.dev (w.file h).map).length bytes readOff offset n scratch := by
  have hlt := hb.length_lt
  have hlen := hb.length_eq
  rw [SameBytes]
  by_cases hend : bytes.length ≤ readOff
  · -- at the end `readLen` stays zero
    have hread : sequentialReadOffset w.z w.env.tbl (some h.znsFile) readOff n scratch reads
        = .ok (.ok, none, scratch) := by
      rw [sequentialReadOffset]
      simp only [hb.get, bind, Except.bind, hsize, ge_iff_le, if_pos hend]
      rfl
    have hzero : n = 0 ↔ (bytes.drop offset).take n = [] := by
      rw [take_eq_nil_iff, drop_eq_nil_iff]
      exact ⟨Or.inl, fun h => h.resolve_right (Nat.not_le_of_lt hoff)⟩
    rw [positionedRead, hread, hzero]
    constructor
    · rintro ⟨x, b, he, hx⟩
      cases he
      exact Or.inl ⟨hend, (Option.some.inj hx).symm⟩
    · rintro (⟨-, hnil⟩ | ⟨h1, -⟩ | ⟨-, h2, -⟩)
      · exact ⟨_, _, rfl, congrArg some hnil.symm⟩
      · omega
      · omega
  · have hin : readOff < bytes.length := Nat.lt_of_not_le hend
    by_cases hpos : (fileBytes w.z.dev (w.file h).map).length ≤ readOff
    · -- in the cache the caller's buffer is not written
      have hread : sequentialReadOffset w.z w.env.tbl (some h.znsFile) readOff n scratch reads
          = .ok (.ok, some (.cache (readOff - (fileBytes w.z.dev (w.file h).map).length)
              (clip bytes.length readOff n), clip bytes.length readOff n), scratch) := by
        rw [sequentialReadOffset]
        simp only [hb.get, bind, Except.bind, hsize, hb.cachePos hsize]
        rw [if_neg (Nat.not_le_of_lt hin), if_pos hpos]
        rfl
      rw [positionedRead, hread]
      constructor
      · rintro ⟨x, b, he, hx⟩
        cases he
        exact Or.inr (Or.inr ⟨hpos, hin, Option.some.inj hx⟩)
      · rintro (⟨h1, -⟩ | ⟨h1, -⟩ | ⟨-, -, hbytes⟩)
        · exact absurd h1 hend
        · omega
        · exact ⟨_, _, rfl, congrArg some hbytes⟩
    · have hpos' := Nat.lt_of_not_le hpos
      have hread : sequentialReadOffset w.z w.env.tbl (some h.znsFile) readOff n scratch reads = _ :=
        sequentialReadOffset_eq hb.get (by rw [hsize]; exact hin) (by rw [hsize]; exact hlt)
          (by rw [hb.cachePos hsize]; exact hpos') scratch
      rw [positionedRead, hread, hsize]
      rcases hb.readOffset_pieces hsize hr hn hpos' scratch with ⟨hone, he'⟩ | ⟨hout, he'⟩
      · rw [he']
        have hload := load_memcpy_bytes scratch ((bytes.drop readOff).take n)
        constructor
        · rintro ⟨x, b, he, hx⟩
          cases he
          exact Or.inr (Or.inl ⟨hpos', hone, hload.symm.trans (Option.some.inj hx)⟩)
        · rintro (⟨h1, -⟩ | ⟨-, -, hbytes⟩ | ⟨h1, -⟩)
          · exact absurd h1 hend
          · exact ⟨_, _, rfl, congrArg some (hload.trans hbytes)⟩
          · exact absurd h1 hpos
      · rw [he']
        constructor
        · rintro ⟨x, b, he, hx⟩
          cases he
        · rintro (⟨h1, -⟩ | ⟨-, h2, -⟩ | ⟨h1, -⟩)
          · exact absurd h1 hend
          · exact absurd h2 hout
          · exact absurd h1 hpos

end

end

/-- **Positional reads.**  For a range in the pieces or in the cache, `PositionedRead` on a sequential
handle, wherever its `read_off` is, returns the status and the bytes of `Read` exactly when the range
does not go round 2⁶⁴ and the bytes at `read_off` (or those the buffer has) are the ones at
`offset`. -/
theorem positioned_iff {h : Handle} {live : List ZrocksMap} {w : World} {bytes : List UInt8}
    {offset readOff n : Nat} {reads reads' : Nat → List ReadAns} (hb : HoldsBytes h live w bytes)
    (hsize : (w.file h).size = bytes.length) (hr : GoodReads reads) (hr' : GoodReads reads')
    (hoff : offset < bytes.length) (hn : n < 2 ^ 64)
    (hin : (fileBytes w.z.dev (w.file h).map).length ≤ offset ∨
      min (offset + n) bytes.length ≤ (fileBytes w.z.dev (w.file h).map).length)
    (scratch scratch' : Buf) :
    (∃ bs, Delivers (w.file h).cachedBytes bs
        (randomRead w.z w.env.tbl (some h.znsFile) offset n scratch reads) ∧
      DeliversAt (w.file h).cachedBytes bs
        (positionedRead w.z w.env.tbl (some h.znsFile) readOff offset n scratch' reads')) ↔
    offset + n < 2 ^ 64 ∧
      SameBytes (fileBytes w.z.dev (w.file h).map).length bytes readOff offset n scratch' := by
  have hread := hb.randomRead_iff hsize hr hoff hn scratch
  have hpos : DeliversAt (w.file h).cachedBytes ((bytes.drop offset).take n)
      (positionedRead w.z w.env.tbl (some h.znsFile) readOff offset n scratch' reads') ↔ _ :=
    hb.positionedRead_iff hsize hr' hoff hn scratch'
  constructor
  · rintro ⟨bs, h₁, h₂⟩
    obtain rfl := hb.eq_of_delivers hsize hr hoff hn h₁
    exact ⟨(hread.mp h₁).1, hpos.mp h₂⟩
  · rintro ⟨hwrap, hsame⟩
    exact ⟨_, hread.mpr ⟨hwrap, hin⟩, hpos.mpr hsame⟩

/-- The first byte, with a handle that has not read yet. -/
theorem positioned_iff_mixed : ∃ (w : World) (reads : Nat → List ReadAns) (bs : List UInt8),
    Delivers [1] bs (randomRead w.z w.env.tbl (some 0) 0 1 (fun _ => 7) reads) ∧
    DeliversAt [1] bs (positionedRead w.z w.env.tbl (some 0) 0 0 1 (fun _ => 7) reads) := by
  obtain ⟨w, reads, hb, hsize, hcached, hlen, hr⟩ := exists_mixed
  have hone : InOnePlace (fileBytes w.z.dev (w.file ⟨nameA, 0⟩).map).length 2 0 1 :=
    ⟨by decide, Or.inr (le_of_eq hlen.symm)⟩
  obtain ⟨bs, h₁, h₂⟩ := (positioned_iff hb hsize hr hr (show 0 < 2 by decide)
    (show 1 < 2 ^ 64 by decide) hone.2 (fun _ => 7) fun _ => 7).mpr
    ⟨hone.1, Or.inr (Or.inl ⟨by rw [hlen]; decide, hone, rfl⟩)⟩
  rw [hcached] at h₁ h₂
  exact ⟨w, _, bs, h₁, h₂⟩

/-- **The offset is not used.**  Asked for the second byte, which is in the cache, a handle that has
not read yet returns the first one. -/
theorem positioned_first : ∃ (w : World) (reads : Nat → List ReadAns),
    HoldsBytes ⟨nameA, 0⟩ [] w [0, 1] ∧ (w.file ⟨nameA, 0⟩).cachedBytes = [1] ∧ GoodReads reads ∧
    Delivers [1] [1] (randomRead w.z w.env.tbl (some 0) 1 1 (fun _ => 7) reads) ∧
    DeliversAt [1] [0] (positionedRead w.z w.env.tbl (some 0) 0 1 1 (fun _ => 7) reads) := by
  obtain ⟨w, reads, hb, hsize, hcached, hlen, hr⟩ := exists_mixed
  have h₁ := (hb.randomRead_iff hsize hr (show 1 < 2 by decide) (show 1 < 2 ^ 64 by decide)
    fun _ => 7).mpr ⟨by decide, Or.inl (le_of_eq hlen)⟩
  -- the offset is not used: this is the read of the first byte
  have h₀ := (hb.positionedRead_iff hsize hr (show 0 < 2 by decide) (show 1 < 2 ^ 64 by decide)
    fun _ => 7).mpr (Or.inr (Or.inl ⟨by rw [hlen]; decide,
      ⟨by decide, Or.inr (le_of_eq hlen.symm)⟩, rfl⟩))
  rw [hcached] at h₁ h₀
  exact ⟨w, _, hb, hcached, hr, h₁, h₀⟩

end Xztl
