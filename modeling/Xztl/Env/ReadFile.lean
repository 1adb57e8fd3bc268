import Xztl.Env.Files
import Xztl.Zrocks.RoundTrip

/-!
# Env — reading a file (`env_zns_io.cc`, `ZNSRandomAccessFile::ReadOffset`)

The content of a file is what its pieces hold, one after the other and each without its padding
(`fileBytes`).  `ReadOffset` looks for the piece with the offset and then issues one read per piece.

**`readOffset_spec`** says that when the reads of the pieces deliver their bytes the result depends on
the file's size and on its content only, not on how the content is cut into pieces; `readOffset_eq` is
the same on pieces that can be read.

The index of the loops has 32 bits.  A device has at most 2¹⁴ nodes of 196608 units, fewer than 2³²
units, so that a list of pieces is never long enough for the index to go round.
-/

namespace Xztl

open Bytes List

/-- The bytes of the caller in a piece, in 64 bits. -/
def ZrocksMap.msize (m : ZrocksMap) : Nat :=
  (m.num.val * znsAligment * ztlIoSecMcmd + 2 ^ 64 - m.padding.val) % 2 ^ 64

/-- The loop that looks for `offset`, at the piece that starts at `off`: the pieces from the one that
has it on, and `piece_off`. -/
def locate : List ZrocksMap → (off offset : Nat) → Option (List ZrocksMap × Nat)
  | [], _, _ => none
  | m :: ms, off, offset =>
    if off + m.msize > offset then some (m :: ms, m.msize - (off + m.msize - offset))
    else locate ms (off + m.msize) offset

/-- One read per piece, `i` of them done; `at` throws behind the last piece. -/
def readPieces (z : Ztl) (n : Nat) (reads : Nat → List ReadAns) :
    List ZrocksMap → (i left pieceOff : Nat) → Buf → Except Stop (Status × Buf)
  | [], _, left, _, scratch => if left = 0 then .ok (.ok, scratch) else .error .outOfBounds
  | m :: ms, i, left, pieceOff, scratch =>
    if left = 0 then .ok (.ok, scratch)
    else do
      let msize := if m.msize - pieceOff > left then left else m.msize - pieceOff
      let off := m.start.val * znsAligment * ztlIoSecMcmd + pieceOff
      let (ret, buf) ← zrocksRead z m.nodeId off msize (fun j => scratch (n - left + j)) (reads i)
      let scratch : Buf := fun j => if j < n - left then scratch j else buf (j - (n - left))
      if ret ≠ 0 then return (.ioError, scratch)
      readPieces z n reads ms (i + 1) (left - msize) 0 scratch

/-- `ZNSRandomAccessFile::ReadOffset` on the object `p`: the status, the length of the result where
it is set, and the caller's buffer.  `reads i` are the answers to the `i`-th read. -/
def readOffset (z : Ztl) (t : Table) (p : Option Ptr) (offset n : Nat) (scratch : Buf)
    (reads : Nat → List ReadAns) : Except Stop (Status × Option Nat × Buf) :=
  match p with
  | none => .ok (.ok, none, scratch)
  | some p => do
      let f ← t.get p
      if offset ≥ f.size then return (.ok, none, scratch)
      let n := if (offset + n) % 2 ^ 64 > f.size then f.size - offset else n
      match locate f.map 0 offset with
      | none => return (.ioError, none, scratch)
      | some (ms, pieceOff) =>
        let (s, scratch) ← readPieces z n reads ms 0 n pieceOff scratch
        return (s, if s = .ok then some n else none, scratch)

/-! ### The content of a file -/

/-- The bytes of a piece. -/
def pieceBytes (d : Dev) (m : ZrocksMap) : List UInt8 :=
  load (nodeByte d m.nodeId) (unitBytes * m.start) (unitBytes * m.num - m.padding)

/-- The content of a file with these pieces. -/
def fileBytes (d : Dev) (ms : List ZrocksMap) : List UInt8 := ms.flatMap (pieceBytes d)

/-- What a read of a file of this size and content gives. -/
def readSpec (bytes : List UInt8) (size offset n : Nat) (scratch : Buf) :
    Except Stop (Status × Option Nat × Buf) :=
  if offset ≥ size then .ok (.ok, none, scratch)
  else
    let n := if (offset + n) % 2 ^ 64 > size then size - offset else n
    if bytes.length ≤ offset then .ok (.ioError, none, scratch)
    else if offset + n ≤ bytes.length then
      .ok (.ok, some n, memcpy scratch 0 ((bytes.drop offset).take n))
    else .error .outOfBounds

/-- The padding is not longer than the units. -/
def ZrocksMap.Padded (m : ZrocksMap) : Prop := m.padding.val ≤ unitBytes * m.num

/-- A read of any part of the bytes of a piece delivers them. -/
def Serves (z : Ztl) (m : ZrocksMap) (ans : List ReadAns) : Prop :=
  ∀ k len buf, k + len ≤ unitBytes * m.num - m.padding →
    zrocksRead z m.nodeId (m.start.val * znsAligment * ztlIoSecMcmd + k) len buf ans
      = .ok (xztlOk, readBuf z.dev m.nodeId (unitBytes * m.start + k) len buf)

/-- A piece that can be read: it lies on a node, it has at most 1024 units, and the padding is not
longer than these. -/
structure Readable (z : Ztl) (m : ZrocksMap) : Prop where
  node : m.nodeId.val < z.nnodes
  num : m.num.val ≤ ztlIoRcNum
  padding : m.padding.val ≤ unitBytes * m.num

/-- All reads succeed in the first attempt. -/
def GoodReads (reads : Nat → List ReadAns) : Prop := ∀ i, ∃ a as, reads i = a :: as ∧ a.Good

theorem exists_goodReads : ∃ reads, GoodReads reads := by
  obtain ⟨a, hgood⟩ := exists_good
  exact ⟨fun _ => [a], fun _ => ⟨a, [], rfl, hgood⟩⟩

section

variable {z : Ztl} {d : Dev} {m : ZrocksMap} {ms : List ZrocksMap} {reads : Nat → List ReadAns}

@[simp] theorem pieceBytes_length : (pieceBytes d m).length = unitBytes * m.num - m.padding :=
  load_length

@[simp] theorem fileBytes_nil : fileBytes d [] = [] := rfl

@[simp] theorem fileBytes_cons : fileBytes d (m :: ms) = pieceBytes d m ++ fileBytes d ms := rfl

theorem ZrocksMap.Padded.msize (h : m.Padded) : m.msize = unitBytes * m.num - m.padding := by
  have h2 : m.padding.val ≤ unitBytes * m.num := h
  rw [ZrocksMap.msize]
  simp only [unitBytes_eq, znsAligment, ztlIoSecMcmd] at *
  omega

theorem locate_eq (ms : List ZrocksMap) : ∀ {off offset : Nat}, (∀ m ∈ ms, m.Padded) →
    off ≤ offset →
    (fileBytes d ms).length ≤ offset - off ∧ locate ms off offset = none ∨
      ∃ m ms' k, locate ms off offset = some (m :: ms', k) ∧ (∀ x ∈ m :: ms', x ∈ ms) ∧
        k < (pieceBytes d m).length ∧
        (fileBytes d ms).drop (offset - off) = (fileBytes d (m :: ms')).drop k := by
  induction ms with
  | nil => exact fun _ _ => Or.inl ⟨Nat.zero_le _, rfl⟩
  | cons m ms ih =>
    intro off offset h hle
    have hm := (h m mem_cons_self).msize
    have hlen : (pieceBytes d m).length = m.msize := by rw [pieceBytes_length, hm]
    rw [locate]
    by_cases hin : off + m.msize > offset
    · rw [if_pos hin]
      have hk : m.msize - (off + m.msize - offset) = offset - off := by omega
      exact Or.inr ⟨m, ms, _, rfl, fun _ hx => hx, by omega, by rw [hk]⟩
    · rw [if_neg hin]
      have hsub : offset - off = (pieceBytes d m).length + (offset - (off + m.msize)) := by omega
      rcases ih (fun x hx => h x (mem_cons_of_mem _ hx)) (Nat.le_of_not_lt hin) with
        ⟨h1, h2⟩ | ⟨x, ms', k, h1, h2, h3, h4⟩
      · refine Or.inl ⟨?_, h2⟩
        rw [fileBytes_cons, length_append]
        omega
      · refine Or.inr ⟨x, ms', k, h1, fun y hy => mem_cons_of_mem _ (h2 y hy), h3, ?_⟩
        rw [fileBytes_cons, hsub, drop_append, drop_eq_nil_of_le (by omega),
          nil_append, Nat.add_sub_cancel_left]
        exact h4

/-- The buffer after a read, seen as a copy. -/
theorem readBuf_copy (d : Dev) (n off size : Nat) (b : Buf) (a : Nat) :
    (fun j => if j < a then b j else readBuf d n off size (fun j => b (a + j)) (j - a))
      = memcpy b a (load (nodeByte d n) off size) := by
  funext j
  rw [memcpy, load_length]
  by_cases h1 : j < a
  · rw [if_pos h1, if_neg (by omega)]
  · rw [if_neg h1, readBuf]
    by_cases h2 : j - a < size
    · rw [if_pos h2, if_pos (by omega), getD_eq_getElem?_getD, byte_of_load h2]
      rfl
    · rw [if_neg h2, if_neg (by omega), Nat.add_sub_of_le (by omega)]

theorem readPieces_zero (n i k : Nat) (scratch : Buf) :
    readPieces z n reads ms i 0 k scratch = .ok (.ok, scratch) := by
  cases ms <;> rfl

theorem Readable.read (hg : Geometry z) (h : Readable z m) {k len : Nat}
    (hlen : k + len ≤ unitBytes * m.num) {a : ReadAns} (ha : a.Good) (as : List ReadAns)
    (buf : Nat → UInt8) :
    zrocksRead z m.nodeId (m.start.val * znsAligment * ztlIoSecMcmd + k) len buf (a :: as)
      = .ok (xztlOk, readBuf z.dev m.nodeId (unitBytes * m.start + k) len buf) := by
  have hoff : m.start.val * znsAligment * ztlIoSecMcmd = unitBytes * m.start := by
    rw [Nat.mul_assoc, Nat.mul_comm]
    rfl
  have hnum := h.num
  rw [hoff]
  refine zrocksRead_good hg h.node ?_ ha as buf
  rw [unitBytes_eq] at *
  omega

theorem Readable.serves (hg : Geometry z) (h : Readable z m) {a : ReadAns} (ha : a.Good)
    (as : List ReadAns) : Serves z m (a :: as) :=
  fun _ _ buf hlen => h.read hg (hlen.trans (Nat.sub_le _ _)) ha as buf

/-- **The reads** deliver the bytes of the pieces in order, as far as there are any. -/
theorem readPieces_eq {n : Nat} (ms : List ZrocksMap) :
    ∀ {i left k : Nat} (scratch : Buf), (∀ m ∈ ms, m.Padded) →
      (∀ m ∈ ms, ∀ i, Serves z m (reads i)) → left ≤ n →
      (∀ m ∈ ms.head?, k ≤ (pieceBytes z.dev m).length) →
      readPieces z n reads ms i left k scratch =
        if left ≤ ((fileBytes z.dev ms).drop k).length then
          .ok (.ok, memcpy scratch (n - left) (((fileBytes z.dev ms).drop k).take left))
        else .error .outOfBounds := by
  induction ms with
  | nil =>
    intro i left k scratch _ _ _ _
    rw [readPieces, fileBytes_nil, drop_nil, length_nil, take_nil, memcpy_nil]
    by_cases h0 : left = 0
    · rw [if_pos h0, if_pos (by omega)]
    · rw [if_neg h0, if_neg (by omega)]
  | cons m ms ih =>
    intro i left k scratch h hs hle hk
    have hk : k ≤ unitBytes * m.num - m.padding := by
      have := hk m rfl
      rwa [pieceBytes_length] at this
    rw [readPieces]
    by_cases h0 : left = 0
    · subst h0
      rw [if_pos rfl, if_pos (Nat.zero_le _), take_zero, memcpy_nil]
    rw [if_neg h0, (h m mem_cons_self).msize]
    -- the part of this piece, and what the others are to deliver
    set part := if unitBytes * m.num - m.padding - k > left then left
      else unitBytes * m.num - m.padding - k with hpart
    have hlen : k + part ≤ unitBytes * m.num - m.padding := by
      rw [hpart]
      split <;> omega
    have hread := hs m mem_cons_self i k part (fun j => scratch (n - left + j)) hlen
    simp only [hread, bind, Except.bind, readBuf_copy, xztlOk, ne_eq, not_true_eq_false,
      if_false]
    have hdrop : (fileBytes z.dev (m :: ms)).drop k
        = load (nodeByte z.dev m.nodeId) (unitBytes * m.start + k)
            (unitBytes * m.num - m.padding - k) ++ fileBytes z.dev ms := by
      rw [fileBytes_cons, drop_append_of_le_length (by rw [pieceBytes_length]; exact hk),
        pieceBytes, drop_load hk]
    rw [hdrop, length_append, load_length]
    by_cases hgt : unitBytes * m.num - m.padding - k > left
    · rw [hpart, if_pos hgt, Nat.sub_self, readPieces_zero, if_pos (by omega),
        take_append_of_le_length (by rw [load_length]; omega), take_load (by omega)]
    · have htake : ∀ b a (F : List UInt8), (load b a (unitBytes * m.num - m.padding - k) ++ F).take
          left = load b a (unitBytes * m.num - m.padding - k)
            ++ F.take (left - (unitBytes * m.num - m.padding - k)) := fun b a F => by
        rw [take_append, load_length]
        exact congrArg (· ++ _) (take_of_length_le (by rw [load_length]; omega))
      rw [hpart, if_neg hgt, ih _ (fun x hx => h x (mem_cons_of_mem _ hx))
        (fun x hx => hs x (mem_cons_of_mem _ hx)) (by omega) (fun _ _ => Nat.zero_le _),
        drop_zero, htake, memcpy_append, load_length]
      have hpos : n - (left - (unitBytes * m.num - m.padding - k))
          = n - left + (unitBytes * m.num - m.padding - k) := by omega
      rw [hpos]
      by_cases hfit : left ≤ unitBytes * m.num - m.padding - k + (fileBytes z.dev ms).length
      · rw [if_pos hfit, if_pos (by omega)]
      · rw [if_neg hfit, if_neg (by omega)]

/-- **What `ReadOffset` gives** depends on the size and the content only, if every read of a piece
delivers its bytes. -/
theorem readOffset_spec {t : Table} {p : Ptr} (hf : t.freed p = false)
    (hp : ∀ m ∈ (t.objs p).map, m.Padded) (hs : ∀ m ∈ (t.objs p).map, ∀ i, Serves z m (reads i))
    (offset n : Nat) (scratch : Buf) :
    readOffset z t (some p) offset n scratch reads
      = readSpec (fileBytes z.dev (t.objs p).map) (t.objs p).size offset n scratch := by
  have hget : t.get p = .ok (t.objs p) := by rw [Table.get, if_neg (by simp [hf])]
  rw [readOffset, readSpec]
  simp only [hget, bind, Except.bind]
  by_cases hout : offset ≥ (t.objs p).size
  · rw [if_pos hout, if_pos hout]
    rfl
  rw [if_neg hout, if_neg hout]
  generalize (if (offset + n) % 2 ^ 64 > (t.objs p).size then (t.objs p).size - offset else n) = n'
  rcases locate_eq (d := z.dev) (t.objs p).map hp (Nat.zero_le offset) with
    ⟨hlen, hloc⟩ | ⟨m, ms, k, hloc, hms, hk, hdrop⟩
  · rw [Nat.sub_zero] at hlen
    simp only [hloc, if_pos hlen]
    rfl
  · rw [Nat.sub_zero] at hdrop
    have hlt : offset < (fileBytes z.dev (t.objs p).map).length := by
      have := congrArg List.length hdrop
      rw [length_drop, length_drop, fileBytes_cons, length_append] at this
      omega
    rw [if_neg (Nat.not_le_of_lt hlt)]
    have hrd := readPieces_eq (z := z) (n := n') (i := 0) (k := k) (m :: ms) scratch
      (fun x hx => hp x (hms x hx)) (fun x hx => hs x (hms x hx)) (le_refl _)
      (fun x hx => by cases hx; exact le_of_lt hk)
    rw [← hdrop, length_drop, Nat.sub_self] at hrd
    simp only [hloc, hrd]
    by_cases hfit : offset + n' ≤ (fileBytes z.dev (t.objs p).map).length
    · rw [if_pos hfit, if_pos (by omega)]
      rfl
    · rw [if_neg hfit, if_neg (by omega)]

theorem readOffset_eq (hg : Geometry z) (hr : GoodReads reads) {t : Table} {p : Ptr}
    (hf : t.freed p = false) (h : ∀ m ∈ (t.objs p).map, Readable z m) (offset n : Nat)
    (scratch : Buf) :
    readOffset z t (some p) offset n scratch reads
      = readSpec (fileBytes z.dev (t.objs p).map) (t.objs p).size offset n scratch := by
  refine readOffset_spec hf (fun m hm => (h m hm).padding) (fun m hm i => ?_) offset n scratch
  obtain ⟨a, as, hra, ha⟩ := hr i
  rw [hra]
  exact (h m hm).serves hg ha as

end

end Xztl
