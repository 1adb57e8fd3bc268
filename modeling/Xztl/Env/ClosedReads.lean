import Xztl.Env.CacheReads

/-!
# Env — reading a file whose content is in its pieces (`env_zns_io.cc`)

A file that has been closed has nothing in its cache: `ReadOffset` finds the piece with the offset
and reads through the ones behind it.  `InPieces` is such a file, with pieces of any length and
padding on any nodes.  All that is asked of the device is that a read of a part of a piece delivers
the bytes there.

* **`closed_reads_iff`**: both handles deliver every range that does not go round 2⁶⁴, and run off the
  list of pieces on the others.
* **`sequential_reads_iff`**: a sequence of `Read`s and `Skip`s gives the slices a plain file gives
  exactly when no `Read` goes round 2⁶⁴, and each one at the end of the file is given an empty slice
  to begin with.
-/

namespace Xztl

open Bytes List

/-- The object `p` is a file with all of its content in its pieces. -/
structure InPieces (z : Ztl) (t : Table) (p : Ptr) (content : List UInt8) : Prop where
  alive : t.freed p = false
  padded : ∀ m ∈ (t.objs p).map, m.Padded
  cache : (t.objs p).cachedBytes = []
  bytes : fileBytes z.dev (t.objs p).map = content
  size : (t.objs p).size = content.length
  lt : content.length < 2 ^ 64

/-- The reads of the pieces of the file deliver their bytes. -/
def ReadsServe (z : Ztl) (t : Table) (p : Ptr) (reads : Nat → List ReadAns) : Prop :=
  ∀ m ∈ (t.objs p).map, ∀ i, Serves z m (reads i)

section

variable {z : Ztl} {t : Table} {p : Ptr} {content : List UInt8} {offset n : Nat}
  {reads : Nat → List ReadAns}

theorem InPieces.get (hc : InPieces z t p content) : t.get p = .ok (t.objs p) :=
  if_neg (by rw [hc.alive]; decide)

theorem InPieces.cachePos (hc : InPieces z t p content) :
    (t.objs p).cachePos = content.length := by
  have hlt := hc.lt
  rw [ZnsFile.cachePos, hc.cache, hc.size, length_nil]
  omega

section

variable (hc : InPieces z t p content) (hs : ReadsServe z t p reads)
  (hoff : offset < content.length)
include hc hs hoff

/-- **One range of the file**: it is delivered, or it goes round 2⁶⁴, is not clipped, and is longer
than what the pieces have. -/
theorem InPieces.readOffset_cases (hn : n < 2 ^ 64) (scratch : Buf) :
    (offset + n < 2 ^ 64 ∧ readOffset z t (some p) offset n scratch reads
      = .ok (.ok, some ((content.drop offset).take n).length,
          memcpy scratch 0 ((content.drop offset).take n))) ∨
    (¬ offset + n < 2 ^ 64 ∧
      readOffset z t (some p) offset n scratch reads = .error .outOfBounds) := by
  have hlt := hc.lt
  have hspec := readOffset_spec hc.alive hc.padded hs offset n scratch
  rw [hc.bytes, hc.size, readSpec, if_neg (Nat.not_le_of_lt hoff)] at hspec
  have hspec : readOffset z t (some p) offset n scratch reads
      = if content.length ≤ offset then .ok (.ioError, none, scratch)
        else if offset + clip content.length offset n ≤ content.length then
          .ok (.ok, some (clip content.length offset n),
            memcpy scratch 0 ((content.drop offset).take (clip content.length offset n)))
        else .error .outOfBounds := hspec
  rw [if_neg (Nat.not_le_of_lt hoff)] at hspec
  by_cases hwrap : offset + n < 2 ^ 64
  · refine Or.inl ⟨hwrap, ?_⟩
    rw [clip_eq _ _ _ hwrap (le_of_lt hoff)] at hspec
    have hlen : ((content.drop offset).take n).length = min n (content.length - offset) := by
      rw [length_take, length_drop]
    have htake : (content.drop offset).take (min n (content.length - offset))
        = (content.drop offset).take n := by
      rw [← take_take, take_of_length_le (i := content.length - offset)
        (le_of_eq length_drop)]
    rw [hspec, if_pos (by omega), hlen, htake]
  · refine Or.inr ⟨hwrap, ?_⟩
    rw [clip_wrap hn hoff (Nat.le_of_not_lt hwrap) hlt, if_neg (by omega)] at hspec
    exact hspec

/-- The sequential handle does what the other one does. -/
theorem InPieces.sequentialReadOffset_eq (scratch : Buf) :
    sequentialReadOffset z t (some p) offset n scratch reads
      = (readOffset z t (some p) offset n scratch reads).map fun r =>
          (r.1, r.2.1.map fun n => (Slice.scratch n, n), r.2.2) := by
  have hlt := hc.lt
  have hclip : readOffset z t (some p) offset (clip content.length offset n) scratch reads
      = readOffset z t (some p) offset n scratch reads := by
    rw [readOffset_spec hc.alive hc.padded hs, readOffset_spec hc.alive hc.padded hs, hc.size,
      readSpec, readSpec]
    have hcc := clip_clip (n := n) hoff hlt
    rw [clip] at hcc
    rw [hcc]
    rfl
  rw [Xztl.sequentialReadOffset_eq hc.get (by rw [hc.size]; exact hoff) (by rw [hc.size]; exact hlt)
    (by rw [hc.cachePos]; exact hoff), hc.size, hclip]

end

end

/-! ### A range of the file -/

/-- The piece of one byte in unit `i` of node 0. -/
def bytePiece (i : Nat) : ZrocksMap := .ofPiece ⟨0, i, 1⟩ 32767

/-- A closed file of two bytes, each in a piece of its own, and a device that answers well. -/
theorem exists_pair {d : Dev} {a b : UInt8} (ha : nodeByte d 0 0 = a)
    (hb : nodeByte d 0 unitBytes = b) : ∃ (z : Ztl) (t : Table) (reads : Nat → List ReadAns),
    InPieces z t 0 [a, b] ∧ ReadsServe z t 0 reads ∧ (t.objs 0).map = [bytePiece 0, bytePiece 1] := by
  obtain ⟨x, hgood⟩ := exists_good
  have hmem : ∀ m ∈ [bytePiece 0, bytePiece 1], m.Padded ∧ Readable (Ztl.fresh oneNode d) m := by
    intro m hm
    obtain rfl | rfl : m = bytePiece 0 ∨ m = bytePiece 1 := by simpa using hm
    · exact ⟨by show _ ≤ _; decide, Nat.one_pos, by decide, by decide⟩
    · exact ⟨by show _ ≤ _; decide, Nat.one_pos, by decide, by decide⟩
  refine ⟨Ztl.fresh oneNode d,
    .single { ZnsFile.new nameA 0 with map := [bytePiece 0, bytePiece 1], size := 2, cache := none },
    fun _ => [x], ⟨rfl, fun m hm => (hmem m hm).1, rfl, ?_, rfl, show 2 < 2 ^ 64 by decide⟩, fun m hm _ =>
      (hmem m hm).2.serves (Alloc.fresh oneNode _).geometry hgood [], rfl⟩
  rw [← ha, ← hb]
  rfl

/-- **Reads of closed files.**  Both handles place the bytes of the range in the caller's buffer,
exactly when its end is below 2⁶⁴. -/
theorem closed_reads_iff {z : Ztl} {t : Table} {p : Ptr} {content : List UInt8} {offset n : Nat}
    {reads : Nat → List ReadAns} (hc : InPieces z t p content) (hs : ReadsServe z t p reads)
    (hoff : offset < content.length) (hn : n < 2 ^ 64) (scratch : Buf) :
    readOffset z t (some p) offset n scratch reads
        = .ok (.ok, some ((content.drop offset).take n).length,
            memcpy scratch 0 ((content.drop offset).take n)) ∧
      sequentialReadOffset z t (some p) offset n scratch reads
        = .ok (.ok, some (.scratch ((content.drop offset).take n).length,
              ((content.drop offset).take n).length),
            memcpy scratch 0 ((content.drop offset).take n)) ↔
      offset + n < 2 ^ 64 := by
  rw [hc.sequentialReadOffset_eq hs hoff]
  rcases hc.readOffset_cases hs hoff hn scratch with ⟨hlt, he⟩ | ⟨hge, he⟩
  · rw [he]
    exact iff_of_true ⟨rfl, rfl⟩ hlt
  · rw [he]
    exact iff_of_false (fun h => by cases h.1) hge

/-- A range over two pieces of one byte each. -/
theorem closed_reads_across : ∃ (z : Ztl) (t : Table) (reads : Nat → List ReadAns),
    InPieces z t 0 [1, 2] ∧ ReadsServe z t 0 reads ∧ (t.objs 0).map = [bytePiece 0, bytePiece 1] ∧
    readOffset z t (some 0) 0 5 (fun _ => 7) reads
      = .ok (.ok, some 2, memcpy (fun _ => 7) 0 [1, 2]) ∧
    sequentialReadOffset z t (some 0) 0 5 (fun _ => 7) reads
      = .ok (.ok, some (.scratch 2, 2), memcpy (fun _ => 7) 0 [1, 2]) := by
  obtain ⟨z, t, reads, hc, hs, hmap⟩ := exists_pair
    (d := ⟨fun s _ => if s = unitSect 0 0 then 1 else 2, []⟩) (a := 1) (b := 2) (by decide) (by decide)
  obtain ⟨h₁, h₂⟩ := (closed_reads_iff hc hs (show 0 < 2 by decide) (n := 5) (by decide)
    fun _ => 7).mpr (by decide)
  exact ⟨z, t, reads, hc, hs, hmap, h₁, h₂⟩

/-- **A length that goes round.**  Asked for everything from the second byte on, with the largest
length there is, both handles run off the list of pieces. -/
theorem closed_reads_wrap : ∃ (z : Ztl) (t : Table) (reads : Nat → List ReadAns),
    InPieces z t 0 [0, 0] ∧ ReadsServe z t 0 reads ∧
    readOffset z t (some 0) 1 (2 ^ 64 - 1) (fun _ => 7) reads = .error .outOfBounds ∧
    sequentialReadOffset z t (some 0) 1 (2 ^ 64 - 1) (fun _ => 7) reads
      = .error .outOfBounds := by
  obtain ⟨z, t, reads, hc, hs, -⟩ := exists_pair (d := .blank) (a := 0) (b := 0) rfl rfl
  have hoff : 1 < ([0, 0] : List UInt8).length := by decide
  obtain ⟨-, he⟩ := (hc.readOffset_cases hs hoff (n := 2 ^ 64 - 1) (by decide)
    fun _ => 7).resolve_left fun h => absurd h.1 (by decide)
  refine ⟨z, t, reads, hc, hs, he, ?_⟩
  rw [hc.sequentialReadOffset_eq hs hoff, he]
  rfl

/-! ### The sequential handle -/

/-- `ZNSSequentialFile::Read`: the status, the result where it is set, the caller's buffer, and
`read_off` after the call. -/
def sequentialRead (z : Ztl) (t : Table) (p : Option Ptr) (readOff n : Nat) (scratch : Buf)
    (reads : Nat → List ReadAns) : Except Stop (Status × Option Slice × Buf × Nat) := do
  let (s, r, scratch) ← sequentialReadOffset z t p readOff n scratch reads
  return (s, r.map Prod.fst, scratch, if s = .ok then (readOff + readLen r) % 2 ^ 64 else readOff)

/-- `Skip` follows `znsfile` without looking whether there is one. -/
def skip (t : Table) (p : Option Ptr) (readOff n : Nat) : Except Stop (Status × Nat) :=
  match p with
  | none => .error .dangling
  | some p => do
      let f ← t.get p
      return (.ok, if (readOff + n) % 2 ^ 64 ≤ f.size then (readOff + n) % 2 ^ 64 else readOff)

/-- A call on a sequential handle.  A Read is given the bytes the caller's slice has before it, the
buffer, and the answers of the device. -/
inductive SeqCall where
  | read (n : Nat) (result : List UInt8) (scratch : Buf) (reads : Nat → List ReadAns)
  | skip (n : Nat)

/-- A call at `read_off`: its status, the bytes of the caller's slice after it, and the new
`read_off`.  A Skip has no slice. -/
def SeqCall.run (z : Ztl) (t : Table) (p : Ptr) (off : Nat) :
    SeqCall → Except Stop (Status × Option (List UInt8) × Nat)
  | read n result scratch reads => do
      let (s, r, scratch, off) ← sequentialRead z t (some p) off n scratch reads
      match r with
      | none => return (s, some result, off)
      | some x => return (s, x.bytes (t.objs p).cachedBytes scratch, off)
  | .skip n => do
      let (s, off) ← Xztl.skip t (some p) off n
      return (s, some [], off)

/-- The calls one after the other, from `read_off` on. -/
def seqRun (z : Ztl) (t : Table) (p : Ptr) :
    Nat → List SeqCall → Except Stop (List (Status × Option (List UInt8)) × Nat)
  | off, [] => .ok ([], off)
  | off, c :: cs => do
      let (s, bs, off) ← c.run z t p off
      let (outs, off) ← seqRun z t p off cs
      return ((s, bs) :: outs, off)

/-- **A plain file**: what a call on the bytes that are left gives, and what it leaves. -/
def SeqCall.plain : List UInt8 → SeqCall → List UInt8 × List UInt8
  | rest, read n _ _ _ => (rest.take n, rest.drop n)
  | rest, .skip n => ([], rest.drop n)

def plainRun : List UInt8 → List SeqCall → List (List UInt8)
  | _, [] => []
  | rest, c :: cs => (c.plain rest).1 :: plainRun (c.plain rest).2 cs

/-- Where a call on a file of this size leaves `read_off`. -/
def SeqCall.next (size off : Nat) : SeqCall → Nat
  | read n _ _ _ => min (off + n) size
  | .skip n => off + n

/-- Reads have a positive size, and the device serves them; Skips stay within the file. -/
def SeqCall.Within (z : Ztl) (t : Table) (p : Ptr) (size off : Nat) : SeqCall → Prop
  | read n _ _ reads => 0 < n ∧ n < 2 ^ 64 ∧ ReadsServe z t p reads
  | .skip n => off + n ≤ size

/-- A Read in the file does not go round 2⁶⁴, and one at its end is given an empty slice. -/
def SeqCall.Fits (size off : Nat) : SeqCall → Prop
  | read n result _ _ => if off < size then off + n < 2 ^ 64 else result = []
  | .skip _ => True

def SeqCall.IsRead : SeqCall → Prop
  | read n _ _ _ => 0 < n
  | .skip _ => False

section

variable {z : Ztl} {t : Table} {p : Ptr} {content : List UInt8} {off : Nat}

section

variable (hc : InPieces z t p content)
include hc

theorem InPieces.skip_eq {n : Nat} (hn : off + n ≤ content.length) :
    (SeqCall.skip n).run z t p off = .ok (.ok, some [], off + n) := by
  have hlt := hc.lt
  have hmod : (off + n) % 2 ^ 64 = off + n := Nat.mod_eq_of_lt (by omega)
  rw [SeqCall.run, Xztl.skip]
  simp only [hc.get, bind, Except.bind, hc.size, hmod, if_pos hn]
  rfl

/-- At the end `ReadOffset` sets neither the result nor `readLen`. -/
theorem InPieces.read_end (hoff : content.length ≤ off) (n : Nat) (result : List UInt8)
    (scratch : Buf) (reads : Nat → List ReadAns) :
    (SeqCall.read n result scratch reads).run z t p off
      = .ok (.ok, some result, off % 2 ^ 64) := by
  have hread : sequentialReadOffset z t (some p) off n scratch reads = .ok (.ok, none, scratch) := by
    rw [sequentialReadOffset]
    simp only [hc.get, bind, Except.bind, hc.size, ge_iff_le, if_pos hoff]
    rfl
  rw [SeqCall.run, sequentialRead, hread]
  rfl

/-- A Read in the file: the bytes, or none of them. -/
theorem InPieces.read_cases {n : Nat} {reads : Nat → List ReadAns} (hs : ReadsServe z t p reads)
    (hoff : off < content.length) (hn : n < 2 ^ 64) (result : List UInt8) (scratch : Buf) :
    (off + n < 2 ^ 64 ∧ (SeqCall.read n result scratch reads).run z t p off
      = .ok (.ok, some ((content.drop off).take n), min (off + n) content.length)) ∨
    (¬ off + n < 2 ^ 64 ∧
      (SeqCall.read n result scratch reads).run z t p off = .error .outOfBounds) := by
  rw [SeqCall.run, sequentialRead, hc.sequentialReadOffset_eq hs hoff]
  rcases hc.readOffset_cases hs hoff hn scratch with ⟨hwrap, he⟩ | ⟨hwrap, he⟩
  · have hend : (off + ((content.drop off).take n).length) % 2 ^ 64
        = min (off + n) content.length := by
      rw [length_take, length_drop, Nat.mod_eq_of_lt (by omega)]
      omega
    rw [he]
    refine Or.inl ⟨hwrap, ?_⟩
    show Except.ok (Status.ok, some (load (memcpy scratch 0 ((content.drop off).take n)) 0
      ((content.drop off).take n).length), (off + ((content.drop off).take n).length) % 2 ^ 64) = _
    rw [load_memcpy_bytes, hend]
  · rw [he]
    exact Or.inr ⟨hwrap, rfl⟩

/-- **One call** gives what the plain file gives exactly when it meets the condition. -/
theorem InPieces.call_iff {c : SeqCall} (hw : c.Within z t p content.length off) :
    (∃ off', c.run z t p off = .ok (.ok, some (c.plain (content.drop off)).1, off')) ↔
      c.Fits content.length off := by
  cases c with
  | skip n => exact iff_of_true ⟨_, hc.skip_eq hw⟩ trivial
  | read n result scratch reads =>
    obtain ⟨-, hn, hs⟩ := hw
    rw [SeqCall.Fits]
    by_cases hin : off < content.length
    · rw [if_pos hin]
      rcases hc.read_cases hs hin hn result scratch with ⟨hwrap, he⟩ | ⟨hwrap, he⟩
      · exact iff_of_true ⟨_, he⟩ hwrap
      · refine iff_of_false ?_ hwrap
        rintro ⟨off', he'⟩
        cases he.symm.trans he'
    · have hnil : content.drop off = [] := drop_eq_nil_of_le (Nat.le_of_not_lt hin)
      rw [if_neg hin, hc.read_end (Nat.le_of_not_lt hin), SeqCall.plain, hnil, take_nil]
      constructor
      · rintro ⟨off', he⟩
        simp only [Except.ok.injEq, Prod.mk.injEq, Option.some.injEq] at he
        exact he.2.1
      · rintro rfl
        exact ⟨_, rfl⟩

/-- A call that meets the condition leaves `read_off` where the plain file stands. -/
theorem InPieces.call_next (hoff : off ≤ content.length) {c : SeqCall}
    (hw : c.Within z t p content.length off) (hf : c.Fits content.length off) :
    c.run z t p off
      = .ok (.ok, some (c.plain (content.drop off)).1, c.next content.length off) := by
  have hlt := hc.lt
  obtain ⟨off', he⟩ := (hc.call_iff hw).mpr hf
  cases c with
  | skip n => exact hc.skip_eq hw
  | read n result scratch reads =>
    obtain ⟨-, hn, hs⟩ := hw
    by_cases hin : off < content.length
    · rcases hc.read_cases hs hin hn result scratch with ⟨-, he'⟩ | ⟨-, he'⟩
      · exact he'
      · cases he.symm.trans he'
    · have hend : off % 2 ^ 64 = min (off + n) content.length := by
        rw [Nat.mod_eq_of_lt (by omega)]
        omega
      rw [hc.read_end (Nat.le_of_not_lt hin), hend] at he ⊢
      simp only [Except.ok.injEq, Prod.mk.injEq, true_and] at he
      rw [he.1]
      rfl

end

theorem SeqCall.plain_rest {c : SeqCall} (hw : c.Within z t p content.length off) :
    (c.plain (content.drop off)).2 = content.drop (c.next content.length off) ∧
      c.next content.length off ≤ content.length := by
  cases c with
  | skip n => exact ⟨drop_drop, hw⟩
  | read n result scratch reads =>
    refine ⟨?_, Nat.min_le_right _ _⟩
    show (content.drop off).drop n = content.drop (min (off + n) content.length)
    rw [drop_drop]
    by_cases hle : off + n ≤ content.length
    · rw [Nat.min_eq_left hle]
    · rw [Nat.min_eq_right (by omega), drop_length, drop_eq_nil_of_le (by omega)]

/-- A call that gives what the plain file gives, or does not, decides about the run. -/
theorem seqRun_cons {c : SeqCall} {cs : List SeqCall}
    {outs : List (Status × Option (List UInt8))} {x : Status × Option (List UInt8)} {off' : Nat} :
    seqRun z t p off (c :: cs) = .ok (x :: outs, off') ↔
      ∃ off1, c.run z t p off = .ok (x.1, x.2, off1) ∧ seqRun z t p off1 cs = .ok (outs, off') := by
  rw [seqRun]
  constructor
  · intro h
    obtain ⟨⟨s, bs, off1⟩, h1, h⟩ := Except.bind_eq_ok.mp h
    obtain ⟨⟨outs', off2⟩, h2, h⟩ := Except.bind_eq_ok.mp h
    cases h
    exact ⟨off1, h1, h2⟩
  · rintro ⟨off1, h1, h2⟩
    rw [h1]
    show (seqRun z t p off1 cs >>= fun r => pure ((x.1, x.2) :: r.1, r.2)) = _
    rw [h2]
    rfl

/-- **The run**, by induction on the calls: `read_off` always stands where the plain file does. -/
theorem InPieces.seqRun_iff (hc : InPieces z t p content) {calls : List SeqCall} {off' : Nat}
    (hw : Runs (fun off c => some (SeqCall.next content.length off c))
      (fun off c => c.Within z t p content.length off) off calls off') (hoff : off ≤ content.length) :
    seqRun z t p off calls
        = .ok ((plainRun (content.drop off) calls).map fun bs => (.ok, some bs), off') ↔
      Runs (fun off c => some (SeqCall.next content.length off c))
        (fun off c => c.Fits content.length off) off calls off' := by
  induction hw with
  | nil off => exact iff_of_true rfl (.nil off)
  | @cons off off1 off' c cs g h _ ih =>
    cases h
    obtain ⟨hrest, hle⟩ := SeqCall.plain_rest g
    rw [plainRun, map_cons, seqRun_cons, hrest]
    constructor
    · rintro ⟨off1, h1, h2⟩
      have hf := (hc.call_iff g).mp ⟨_, h1⟩
      rw [hc.call_next hoff g hf] at h1
      cases h1
      exact .cons hf rfl ((ih hle).mp h2)
    · intro hrun
      cases hrun with
      | cons hf h t =>
        cases h
        exact ⟨_, hc.call_next hoff g hf, (ih hle).mpr t⟩

end

/-- A caller that reads until the result is empty has read everything. -/
theorem flatten_plainRun {calls : List SeqCall} (hr : ∀ c ∈ calls, c.IsRead) :
    ∀ rest : List UInt8, (plainRun rest calls).getLast? = some [] →
      (plainRun rest calls).flatten = rest := by
  induction calls with
  | nil =>
    intro rest h
    cases h
  | cons c cs ih =>
    intro rest h
    cases c with
    | skip n => exact (hr _ mem_cons_self).elim
    | read n result scratch reads =>
      have hn : 0 < n := hr _ mem_cons_self
      rw [plainRun, SeqCall.plain] at h ⊢
      rw [flatten_cons]
      cases cs with
      | nil =>
        have hnil : rest.take n = [] := Option.some.inj h
        rcases take_eq_nil_iff.mp hnil with h0 | rfl
        · exact absurd h0 (Nat.ne_of_gt hn)
        · rw [take_nil]
          rfl
      | cons c' cs' =>
        rw [ih (fun c hc => hr c (mem_cons_of_mem _ hc)), take_append_drop]
        rw [plainRun, List.getLast?_cons_cons] at h
        rw [plainRun]
        exact h

/-- **Sequential reading.**  The slices of a sequence of Reads and Skips are those of a plain file,
all with status OK, exactly when no Read in the file goes round 2⁶⁴ and each Read at its end finds an
empty slice; and a plain file that is read until a slice is empty has been read as a whole. -/
theorem sequential_reads_iff {z : Ztl} {t : Table} {p : Ptr} {content : List UInt8}
    {calls : List SeqCall} {off : Nat} (hc : InPieces z t p content)
    (hw : Runs (fun off c => some (SeqCall.next content.length off c))
      (fun off c => c.Within z t p content.length off) 0 calls off) :
    (seqRun z t p 0 calls = .ok ((plainRun content calls).map fun bs => (.ok, some bs), off) ↔
      Runs (fun off c => some (SeqCall.next content.length off c))
        (fun off c => c.Fits content.length off) 0 calls off) ∧
    ((∀ c ∈ calls, c.IsRead) → (plainRun content calls).getLast? = some [] →
      (plainRun content calls).flatten = content) :=
  ⟨hc.seqRun_iff hw (Nat.zero_le _), fun hr hlast => flatten_plainRun hr content hlast⟩

/-- Two bytes read one by one, with an empty slice for each Read. -/
theorem sequential_reads_pair : ∃ (z : Ztl) (t : Table) (reads : Nat → List ReadAns) (c : SeqCall),
    c = .read 1 [] (fun _ => 7) reads ∧
    seqRun z t 0 0 [c, c, c] = .ok ([(.ok, some [0]), (.ok, some [0]), (.ok, some [])], 2) ∧
    (plainRun [0, 0] [c, c, c]).flatten = [0, 0] := by
  obtain ⟨z, t, reads, hc, hs, -⟩ := exists_pair (d := .blank) (a := 0) (b := 0) rfl rfl
  obtain ⟨c, hcall⟩ : ∃ c, c = SeqCall.read 1 [] (fun _ => 7) reads := ⟨_, rfl⟩
  have hw : ∀ off, c.Within z t 0 2 off := fun off => by
    rw [hcall]
    exact ⟨by decide, by decide, hs⟩
  have hf : ∀ off < 3, c.Fits 2 off := fun off hoff => by
    rw [hcall, SeqCall.Fits]
    split
    · omega
    · rfl
  have hn₀ : c.next 2 0 = 1 := by rw [hcall]; rfl
  have hn₁ : c.next 2 1 = 2 := by rw [hcall]; rfl
  have hn₂ : c.next 2 2 = 2 := by rw [hcall]; rfl
  have hrun : ∀ G : Nat → SeqCall → Prop, G 0 c → G 1 c → G 2 c →
      Runs (fun off c => some (SeqCall.next 2 off c)) G 0 [c, c, c] 2 := fun G h₀ h₁ h₂ =>
    .cons h₀ (congrArg some hn₀) (.cons h₁ (congrArg some hn₁) (.one h₂ (congrArg some hn₂)))
  obtain ⟨hiff, hall⟩ := sequential_reads_iff hc (hrun _ (hw 0) (hw 1) (hw 2))
  refine ⟨z, t, reads, c, hcall, ?_, hall ?_ ?_⟩
  · refine (hiff.mpr (hrun _ (hf 0 (by decide)) (hf 1 (by decide)) (hf 2 (by decide)))).trans ?_
    rw [hcall]
    rfl
  · intro x hx
    rw [mem_cons, mem_cons, mem_singleton] at hx
    rcases hx with rfl | rfl | rfl
    all_goals
      rw [hcall]
      exact Nat.one_pos
  · rw [hcall]
    rfl

/-- **A slice that is used again.**  The first Read delivers the whole file; the second one, at its
end, returns OK and leaves the slice as it was, with both bytes in it. -/
theorem sequential_reads_again : ∃ (z : Ztl) (t : Table) (reads : Nat → List ReadAns),
    InPieces z t 0 [0, 0] ∧ ReadsServe z t 0 reads ∧
    seqRun z t 0 0 [.read 2 [] (fun _ => 7) reads, .read 2 [0, 0] (fun _ => 7) reads]
      = .ok ([(.ok, some [0, 0]), (.ok, some [0, 0])], 2) := by
  obtain ⟨z, t, reads, hc, hs, -⟩ := exists_pair (d := .blank) (a := 0) (b := 0) rfl rfl
  obtain ⟨-, h₁⟩ := (hc.read_cases hs (show 0 < ([0, 0] : List UInt8).length by decide)
    (show 2 < 2 ^ 64 by decide) [] fun _ => 7).resolve_right fun h => h.1 (by decide)
  have h₂ := hc.read_end (show ([0, 0] : List UInt8).length ≤ 2 by decide) 2 [0, 0] (fun _ => 7)
    reads
  exact ⟨z, t, reads, hc, hs, seqRun_cons.mpr ⟨2, h₁, seqRun_cons.mpr ⟨2, h₂, rfl⟩⟩⟩

end Xztl
