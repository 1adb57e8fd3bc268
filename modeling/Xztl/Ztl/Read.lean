import Xztl.Ztl.Init

/-!
# Ztl — the read command (`ztl-io.c`, `ztl_io_read_ucmd`)

A read computes the zone and the sector of its first byte, walks over the zones of the node and
builds one command per unit it touches.  A single command is submitted synchronously; several are
submitted until all are accepted and then drained, each completion copying its part of the bounce
buffer to the caller.  As for writes, what the device does is input.

`nodeByte dev n off` is byte `off` of node `n`, seen through the placement of `unitSect`.
`ztlIoRead_good` says that a read whose commands succeed delivers these bytes, in whatever order
the commands complete.
-/

namespace Xztl

open List

/-- The fields of `struct xztl_io_mcmd` a read uses: first sector and number of sectors, the offset
into the bounce buffer (kept in `sequence`), and where and how much to copy. -/
structure ReadCmd where
  sect : Nat
  nsec : Nat
  misalign : Nat
  bufOff : Nat
  cpsize : Nat
deriving DecidableEq, Repr

/-- The `while (sec_left)` loop.  `sect` gives the start sector of the zone at each slot.  Each round
takes at least one sector, so `sec_size` rounds of fuel are enough. -/
def readLoop (sect : Nat → Nat) :
    (fuel secLeft zindex nlevel zoneSecOff readNum bytesOff left misalign : Nat) → List ReadCmd
  | 0, _, _, _, _, _, _, _, _ => []
  | fuel + 1, secLeft, zindex, nlevel, zoneSecOff, readNum, bytesOff, left, misalign =>
    if secLeft = 0 then [] else
      let cpsize := if readNum * znsAligment - misalign > left then left
        else readNum * znsAligment - misalign
      let cmd : ReadCmd := ⟨sect zindex + zoneSecOff, readNum, misalign, bytesOff, cpsize⟩
      let secLeft := secLeft - readNum
      if secLeft = 0 then [cmd] else
        let zindex := (zindex + 1) % ztlProZoneNumInnode
        let nlevel := if zindex = 0 then nlevel + 1 else nlevel
        cmd :: readLoop sect fuel secLeft zindex nlevel (nlevel * ztlIoSecMcmd)
          (if secLeft > ztlIoSecMcmd then ztlIoSecMcmd else secLeft) (bytesOff + cpsize)
          (left - cpsize) 0

/-- The commands of a read. -/
def readCmds (sect : Nat → Nat) (offset size : Nat) : List ReadCmd :=
  let misalign := offset % znsAligment
  let secSize := (size + misalign) / znsAligment
    + if (size + misalign) % znsAligment ≠ 0 then 1 else 0
  let secStart := offset / znsAligment
  let levelSecs := ztlProZoneNumInnode * ztlIoSecMcmd
  let nlevel := secStart / levelSecs
  let zindex := secStart % levelSecs / ztlIoSecMcmd
  let zoneSecOff := nlevel * ztlIoSecMcmd + secStart % levelSecs % ztlIoSecMcmd
  let readNum := ztlIoSecMcmd - secStart % levelSecs % ztlIoSecMcmd
  let readNum := if secSize > readNum then readNum else secSize
  readLoop sect secSize secSize zindex nlevel zoneSecOff readNum 0 size misalign

/-- A completion of a read command. -/
structure ReadCpl where
  cmd : Nat
  status : Nat
  resubmit : Bool
deriving DecidableEq, Repr

/-- The answers during one call of `ztl_io_read`: whether a read resource is free, the return value
of the synchronous read and what the bounce buffer held before, which submissions are accepted in
each pass, the completions, and whether the drain gives up after them. -/
structure ReadAns where
  rs : Bool
  ret : Nat
  stale : Nat → UInt8
  accept : List (Nat → Bool)
  cpls : List ReadCpl
  giveUp : Bool

/-- The state of the drain: commands in flight, their error counts, `ucmd->status` and the caller's
buffer. -/
structure ReadState where
  outstanding : List Nat
  errCnt : Nat → Nat
  status : Nat
  buf : Nat → UInt8

/-- `memcpy` of a command's part from a bounce buffer. -/
def ReadCmd.copy (c : ReadCmd) (prp buf : Nat → UInt8) : Nat → UInt8 := fun i =>
  if c.bufOff ≤ i ∧ i < c.bufOff + c.cpsize then prp (c.misalign + (i - c.bufOff)) else buf i

/-- What a successful read leaves in the bounce buffer. -/
def ReadCmd.prp (c : ReadCmd) (d : Dev) : Nat → UInt8 := fun j =>
  d.data (c.sect + j / znsAligment) (j % znsAligment)

/-- `ztl_io_read_callback_mcmd`.  A failed command that is resubmitted without success is lost: its
part is not copied and no status is set. -/
def ztlIoReadCallbackMcmd (d : Dev) (cmds : List ReadCmd) (s : ReadState) (c : ReadCpl) :
    ReadState :=
  if c.status ≠ 0 then
    let e := s.errCnt c.cmd + 1
    let s := { s with errCnt := Function.update s.errCnt c.cmd e }
    if e < maxCallbackErrCnt then
      if c.resubmit then { s with outstanding := c.cmd :: s.outstanding } else s
    else { s with status := c.status % 2 ^ 8 }
  else
    let m := cmds.getD c.cmd ⟨0, 0, 0, 0, 0⟩
    { s with buf := m.copy (m.prp d) s.buf }

variable {c : ReadCmd} {bytesOff i status : Nat} {sect : Nat → Nat} {z : Ztl}

theorem ztlIoReadCallbackMcmd_zero (d : Dev) (cmds : List ReadCmd) (s : ReadState) {c : ReadCpl}
    (h0 : c.status = 0) : ztlIoReadCallbackMcmd d cmds s c =
      { s with
        buf := (cmds.getD c.cmd ⟨0, 0, 0, 0, 0⟩).copy ((cmds.getD c.cmd ⟨0, 0, 0, 0, 0⟩).prp d) s.buf } :=
  if_neg (not_not.mpr h0)

/-- `xnvme_queue_drain`: completions until nothing is in flight, or until it gives up with an error,
which is only logged. -/
def readDrain (d : Dev) (cmds : List ReadCmd) (giveUp : Bool) :
    List ReadCpl → ReadState → Except Stop ReadState
  | [], s => if s.outstanding = [] ∨ giveUp = true then .ok s else .error .waiting
  | c :: cs, s =>
    if s.outstanding = [] then .ok s
    else if c.cmd ∈ s.outstanding then
      readDrain d cmds giveUp cs
        (ztlIoReadCallbackMcmd d cmds { s with outstanding := s.outstanding.erase c.cmd } c)
    else readDrain d cmds giveUp cs s

/-- The passes of the submission loop over the commands not yet accepted. -/
def readSubmit : List (Nat → Bool) → List Nat → Except Stop Unit
  | [], pending => if pending = [] then .ok () else .error .waiting
  | a :: as, pending =>
    if pending = [] then .ok () else readSubmit as (pending.filter fun i => !a i)

/-- `ztl_io_read_ucmd`: the return value, `ucmd->status` and the caller's buffer. -/
def ztlIoReadUcmd (z : Ztl) (nodeId offset size status : Nat) (buf : Nat → UInt8) (a : ReadAns) :
    Except Stop (Nat × Nat × (Nat → UInt8)) :=
  let cmds := readCmds (fun i => (z.vzones ((z.vnodes nodeId).vzones i)).sect) offset size
  if ztlIoRcNum < cmds.length then .error .outOfBounds
  else
    match cmds with
    | [c] => .ok (a.ret, status, c.copy (if a.ret = 0 then c.prp z.dev else a.stale) buf)
    | _ => do
        readSubmit a.accept (List.range cmds.length)
        let s ← readDrain z.dev cmds a.giveUp a.cpls
          { outstanding := List.range cmds.length, errCnt := fun _ => 0, status := status,
            buf := buf }
        return (0, s.status, s.buf)

/-- `XZTL_ZTL_IO_ERR`. -/
def xztlZtlIoErr : Nat := 0x16

/-- `ztl_io_read`. -/
def ztlIoRead (z : Ztl) (nodeId offset size status : Nat) (buf : Nat → UInt8) (a : ReadAns) :
    Except Stop (Nat × Nat × (Nat → UInt8)) :=
  if a.rs then ztlIoReadUcmd z nodeId offset size status buf a
  else .ok (xztlZtlIoErr, status, buf)

/-! ### The bytes of a node -/

/-- Byte `off` of node `n`. -/
def nodeByte (d : Dev) (n off : Nat) : UInt8 :=
  d.data (unitSect n (off / unitBytes) + off % unitBytes / znsAligment) (off % znsAligment)

/-- Command `c` copies the bytes of node `n` from `offset` on to their place. -/
structure ReadCmd.Serves (c : ReadCmd) (n offset : Nat) : Prop where
  byte : ∀ d i, c.bufOff ≤ i → i < c.bufOff + c.cpsize →
    c.prp d (c.misalign + (i - c.bufOff)) = nodeByte d n (offset + i)

/-- Command `c` starts where byte `bufOff` of the read lives, stays within that unit and copies no
more than it reads. -/
structure ReadCmd.At (c : ReadCmd) (n offset : Nat) : Prop where
  sect : c.sect = unitSect n ((offset + c.bufOff) / unitBytes)
    + (offset + c.bufOff) % unitBytes / znsAligment
  unit : (offset + c.bufOff) % unitBytes / znsAligment + c.nsec ≤ ztlIoSecMcmd
  misalign : c.misalign = (offset + c.bufOff) % znsAligment
  fits : c.misalign + c.cpsize ≤ c.nsec * znsAligment

/-- A round of the loop at sector `s` of the node. -/
theorem at_of_sector {s misalign readNum cpsize : Nat}
    (hmis : misalign < znsAligment) (hoff : offset + bytesOff = s * znsAligment + misalign)
    (hnum : readNum ≤ ztlIoSecMcmd - s % ztlIoSecMcmd)
    (hcp : misalign + cpsize ≤ readNum * znsAligment) :
    ReadCmd.At ⟨(ztlProZoneNumInnode * n + s / ztlIoSecMcmd % ztlProZoneNumInnode
        + metadataZoneNum) * ztlProSecNumInzone
        + (s / ztlIoSecMcmd / ztlProZoneNumInnode * ztlIoSecMcmd + s % ztlIoSecMcmd),
      readNum, misalign, bytesOff, cpsize⟩ n offset := by
  have hu : (offset + bytesOff) / unitBytes = s / ztlIoSecMcmd := by
    simp only [unitBytes_eq, znsAligment, ztlIoSecMcmd] at *
    omega
  have hs : (offset + bytesOff) % unitBytes / znsAligment = s % ztlIoSecMcmd := by
    simp only [unitBytes_eq, znsAligment, ztlIoSecMcmd] at *
    omega
  refine ⟨?_, ?_, ?_, hcp⟩
  · rw [hu, hs, unitSect]
    ring
  · rw [hs]
    simp only [ztlIoSecMcmd] at *
    omega
  · simp only [znsAligment] at *
    omega

/-- **Where a byte comes from.**  Byte `i` is taken from its sector of its unit, at its place there. -/
theorem ReadCmd.At.source (h : c.At n offset) (hlo : c.bufOff ≤ i) (hhi : i < c.bufOff + c.cpsize) :
    c.sect + (c.misalign + (i - c.bufOff)) / znsAligment =
        unitSect n ((offset + i) / unitBytes) + (offset + i) % unitBytes / znsAligment ∧
      (c.misalign + (i - c.bufOff)) % znsAligment = (offset + i) % znsAligment := by
  obtain ⟨hsect, hunit, hmis, hfits⟩ := h
  have hu : (offset + i) / unitBytes = (offset + c.bufOff) / unitBytes := by
    simp only [unitBytes_eq, znsAligment, ztlIoSecMcmd] at *
    omega
  rw [hsect, hu, Nat.add_assoc]
  refine ⟨?_, ?_⟩
  · congr 1
    simp only [unitBytes_eq, znsAligment, ztlIoSecMcmd] at *
    omega
  · simp only [znsAligment] at *
    omega

theorem ReadCmd.At.serves (h : c.At n offset) : c.Serves n offset where
  byte := fun d i hlo hhi => by
    obtain ⟨hs, hb⟩ := h.source hlo hhi
    rw [ReadCmd.prp, hs, hb]
    rfl

/-- Command `c` writes byte `i` of the caller's buffer. -/
def ReadCmd.Writes (c : ReadCmd) (i : Nat) : Prop := c.bufOff ≤ i ∧ i < c.bufOff + c.cpsize

theorem ReadCmd.copy_of_writes (h : c.Writes i) (prp buf : Nat → UInt8) :
    c.copy prp buf i = prp (c.misalign + (i - c.bufOff)) := if_pos h

theorem ReadCmd.copy_of_not_writes (h : ¬ c.Writes i) (prp buf : Nat → UInt8) :
    c.copy prp buf i = buf i := if_neg h

/-- What the loop's commands do together: each serves the bytes from `offset` on, they write the
`left` bytes from `bytesOff` on and no others, and there are at most as many as units touched. -/
structure Reads (cmds : List ReadCmd) (n offset bytesOff left units : Nat) : Prop where
  serves : ∀ c ∈ cmds, c.Serves n offset
  within : ∀ c ∈ cmds, ∀ i, c.Writes i → bytesOff ≤ i ∧ i < bytesOff + left
  covers : ∀ i, bytesOff ≤ i → i < bytesOff + left → ∃ c ∈ cmds, c.Writes i
  length : cmds.length ≤ units

/-- The copy ranges follow one another from `lo` to `hi`. -/
def Tiled : List ReadCmd → (lo hi : Nat) → Prop
  | [], lo, hi => lo = hi
  | c :: cs, lo, hi => c.bufOff = lo ∧ Tiled cs (lo + c.cpsize) hi

/-- The commands of the loop: they tile the `left` bytes from `bytesOff` on, each at its place, with
something to copy as long as there is anything to read. -/
structure Tiles (cmds : List ReadCmd) (n offset bytesOff left units : Nat) : Prop where
  place : ∀ c ∈ cmds, c.At n offset
  tiled : Tiled cmds bytesOff (bytesOff + left)
  pos : 0 < left → ∀ c ∈ cmds, 0 < c.cpsize
  length : cmds.length ≤ units

theorem Tiled.le : ∀ {lo hi : Nat}, Tiled cmds lo hi → lo ≤ hi := by
  induction cmds with
  | nil => exact fun h => le_of_eq h
  | cons c cs ih => exact fun h => (Nat.le_add_right _ _).trans (ih h.2)

/-- Tiles stay within the range. -/
theorem Tiled.within : ∀ {lo hi : Nat}, Tiled cmds lo hi →
    ∀ c ∈ cmds, ∀ i, c.Writes i → lo ≤ i ∧ i < hi := by
  induction cmds with
  | nil => exact fun _ c hc => by cases hc
  | cons c cs ih =>
    rintro lo hi ⟨hoff, ht⟩ d hd i hi'
    rcases mem_cons.mp hd with rfl | hd
    · have := ht.le
      simp only [ReadCmd.Writes, hoff] at hi'
      omega
    · have := ih ht d hd i hi'
      omega

/-- Tiles cover the range. -/
theorem Tiled.covers : ∀ {lo hi : Nat}, Tiled cmds lo hi →
    ∀ i, lo ≤ i → i < hi → ∃ c ∈ cmds, c.Writes i := by
  induction cmds with
  | nil =>
    intro lo hi h i hlo hhi
    exact absurd (h ▸ hlo) (by omega)
  | cons c cs ih =>
    rintro lo hi ⟨hoff, ht⟩ i hlo hhi
    by_cases hi' : i < lo + c.cpsize
    · exact ⟨c, mem_cons_self, by rw [hoff]; exact hlo, by rw [hoff]; exact hi'⟩
    · obtain ⟨d, hd, hw⟩ := ih ht i (by omega) hhi
      exact ⟨d, mem_cons_of_mem _ hd, hw⟩

theorem Tiles.reads {left units : Nat}
    (h : Tiles cmds n offset bytesOff left units) : Reads cmds n offset bytesOff left units where
  serves := fun c hc => (h.place c hc).serves
  within := h.tiled.within
  covers := h.tiled.covers
  length := h.length

theorem Tiles.cons {left units units' cpsize : Nat}
    (h : Tiles cmds n offset (bytesOff + cpsize) (left - cpsize) units) (hc : c.At n offset)
    (hoff : c.bufOff = bytesOff) (hcp : c.cpsize = cpsize) (hle : cpsize ≤ left)
    (hpos : 0 < left → 0 < cpsize ∧ (cmds ≠ [] → 0 < left - cpsize)) (hu : units + 1 ≤ units') :
    Tiles (c :: cmds) n offset bytesOff left units' where
  place := forall_mem_cons.mpr ⟨hc, h.place⟩
  tiled := by
    refine ⟨hoff, ?_⟩
    have ht := h.tiled
    rwa [show bytesOff + cpsize + (left - cpsize) = bytesOff + left by omega, ← hcp] at ht
  pos := fun hl d hd => by
    obtain ⟨h1, h2⟩ := hpos hl
    rcases mem_cons.mp hd with rfl | hd
    · exact hcp ▸ h1
    · exact h.pos (h2 (ne_nil_of_mem hd)) d hd
  length := le_trans (Nat.succ_le_succ h.length) hu

/-- The two values of a conditional, with what decides between them. -/
theorem ite_cases (p : Prop) [Decidable p] (a b : Nat) :
    p ∧ (if p then a else b) = a ∨ ¬ p ∧ (if p then a else b) = b := by
  by_cases h : p
  · exact Or.inl ⟨h, if_pos h⟩
  · exact Or.inr ⟨h, if_neg h⟩

section

variable (hsect : ∀ i < ztlProZoneNumInnode,
  sect i = (ztlProZoneNumInnode * n + i + metadataZoneNum) * ztlProSecNumInzone)
include hsect

/-- **The loop.**  The invariant is the node sector `s` the next command starts at. -/
theorem readLoop_spec :
    ∀ (fuel s secLeft bytesOff left misalign : Nat), misalign < znsAligment →
      secLeft = (left + misalign + (znsAligment - 1)) / znsAligment →
      offset + bytesOff = s * znsAligment + misalign → secLeft ≤ fuel →
      Tiles (readLoop sect fuel secLeft (s / ztlIoSecMcmd % ztlProZoneNumInnode)
          (s / ztlIoSecMcmd / ztlProZoneNumInnode)
          (s / ztlIoSecMcmd / ztlProZoneNumInnode * ztlIoSecMcmd + s % ztlIoSecMcmd)
          (if secLeft > ztlIoSecMcmd - s % ztlIoSecMcmd then ztlIoSecMcmd - s % ztlIoSecMcmd
            else secLeft) bytesOff left misalign)
        n offset bytesOff left ((s % ztlIoSecMcmd + secLeft + (ztlIoSecMcmd - 1)) / ztlIoSecMcmd) := by
  intro fuel
  induction fuel with
  | zero =>
    intro s secLeft bytesOff left misalign hmis hsec hoff hf
    have hleft : left = 0 := by simp only [znsAligment] at *; omega
    exact ⟨by simp [readLoop], by simp [readLoop, Tiled, hleft], by simp [readLoop],
      by simp [readLoop]⟩
  | succ fuel ih =>
    intro s secLeft bytesOff left misalign hmis hsec hoff hf
    set readNum := if secLeft > ztlIoSecMcmd - s % ztlIoSecMcmd
      then ztlIoSecMcmd - s % ztlIoSecMcmd else secLeft with hrn
    rw [readLoop]
    by_cases h0 : secLeft = 0
    · have hleft : left = 0 := by simp only [znsAligment] at *; omega
      rw [if_pos h0]
      exact ⟨by simp, by simp [Tiled, hleft], by simp, by simp⟩
    · rw [if_neg h0]
      set cpsize := if readNum * znsAligment - misalign > left then left
        else readNum * znsAligment - misalign with hcp
      have hrn' := ite_cases (secLeft > ztlIoSecMcmd - s % ztlIoSecMcmd)
        (ztlIoSecMcmd - s % ztlIoSecMcmd) secLeft
      have hcp' := ite_cases (readNum * znsAligment - misalign > left) left
        (readNum * znsAligment - misalign)
      rw [← hrn] at hrn'
      rw [← hcp] at hcp'
      have hnum : readNum ≤ ztlIoSecMcmd - s % ztlIoSecMcmd := by omega
      have hpos : 0 < readNum := by
        simp only [ztlIoSecMcmd] at *
        omega
      have hcple : cpsize ≤ left ∧ misalign + cpsize ≤ readNum * znsAligment := by
        simp only [znsAligment] at *
        omega
      have hplace : ReadCmd.At ⟨sect (s / ztlIoSecMcmd % ztlProZoneNumInnode)
          + (s / ztlIoSecMcmd / ztlProZoneNumInnode * ztlIoSecMcmd + s % ztlIoSecMcmd),
          readNum, misalign, bytesOff, cpsize⟩ n offset := by
        rw [hsect _ (Nat.mod_lt _ (by decide))]
        exact at_of_sector hmis hoff hnum hcple.2
      have hcpos : 0 < left → 0 < cpsize := fun hl => by
        simp only [znsAligment] at *
        omega
      by_cases hlast : secLeft - readNum = 0
      · -- the last command takes everything that is left
        simp only [hlast, if_true]
        have hall : cpsize = left := by
          simp only [znsAligment] at *
          omega
        have hnone : Tiles [] n offset (bytesOff + cpsize) (left - cpsize) 0 :=
          ⟨by simp, by simp [Tiled, hall], by simp, by simp⟩
        refine hnone.cons hplace rfl rfl hcple.1 (fun hl => ⟨hcpos hl, fun h => absurd rfl h⟩) ?_
        simp only [ztlIoSecMcmd]
        omega
      · simp only [hlast, if_false]
        have hfull : readNum = ztlIoSecMcmd - s % ztlIoSecMcmd := by omega
        have hmod : (s + readNum) % ztlIoSecMcmd = 0 := by
          rw [hfull]
          simp only [ztlIoSecMcmd]
          omega
        have hdiv : (s + readNum) / ztlIoSecMcmd = s / ztlIoSecMcmd + 1 := by
          rw [hfull]
          simp only [ztlIoSecMcmd]
          omega
        have hrec := ih (s + readNum) (secLeft - readNum) (bytesOff + cpsize) (left - cpsize) 0
          (by simp [znsAligment]) (by simp only [znsAligment] at *; omega)
          (by simp only [znsAligment] at *; omega) (by omega)
        have hz : (s / ztlIoSecMcmd + 1) % ztlProZoneNumInnode
            = (s / ztlIoSecMcmd % ztlProZoneNumInnode + 1) % ztlProZoneNumInnode := by
          rw [Nat.mod_add_mod]
        have hl : (s / ztlIoSecMcmd + 1) / ztlProZoneNumInnode
            = if (s / ztlIoSecMcmd % ztlProZoneNumInnode + 1) % ztlProZoneNumInnode = 0
              then s / ztlIoSecMcmd / ztlProZoneNumInnode + 1
              else s / ztlIoSecMcmd / ztlProZoneNumInnode := by
          have hc := ite_cases
            ((s / ztlIoSecMcmd % ztlProZoneNumInnode + 1) % ztlProZoneNumInnode = 0)
            (s / ztlIoSecMcmd / ztlProZoneNumInnode + 1) (s / ztlIoSecMcmd / ztlProZoneNumInnode)
          simp only [ztlProZoneNumInnode] at hc ⊢
          omega
        rw [hdiv, hmod, hz, hl, Nat.add_zero, Nat.sub_zero] at hrec
        have hmore : 0 < left - cpsize := by
          simp only [znsAligment] at *
          omega
        refine hrec.cons hplace rfl rfl hcple.1 (fun hl => ⟨hcpos hl, fun _ => hmore⟩) ?_
        simp only [ztlIoSecMcmd] at *
        omega

/-- **The commands of a read** of `size` bytes from `offset` on. -/
theorem readCmds_tiles (offset size : Nat) : Tiles (readCmds sect offset size) n offset 0 size
      ((offset % unitBytes + size + (unitBytes - 1)) / unitBytes) := by
  set s := offset / znsAligment with hs
  set secSize := (size + offset % znsAligment)  / znsAligment
    + if (size + offset % znsAligment) % znsAligment ≠ 0 then 1 else 0 with hsec
  have hsec' : secSize = (size + offset % znsAligment + (znsAligment - 1)) / znsAligment := by
    have hc := ite_cases ((size + offset % znsAligment) % znsAligment ≠ 0) 1 0
    simp only [znsAligment] at *
    omega
  have hspec := readLoop_spec hsect secSize s secSize 0 size
    (offset % znsAligment) (Nat.mod_lt _ (by decide)) hsec'
    (by rw [Nat.add_zero, Nat.mul_comm, hs, Nat.div_add_mod]) (le_refl _)
  have hz : s % (ztlProZoneNumInnode * ztlIoSecMcmd) / ztlIoSecMcmd
      = s / ztlIoSecMcmd % ztlProZoneNumInnode := by
    simp only [ztlProZoneNumInnode, ztlIoSecMcmd]
    omega
  have hl : s / (ztlProZoneNumInnode * ztlIoSecMcmd)
      = s / ztlIoSecMcmd / ztlProZoneNumInnode := by
    simp only [ztlProZoneNumInnode, ztlIoSecMcmd]
    omega
  have hm : s % (ztlProZoneNumInnode * ztlIoSecMcmd) % ztlIoSecMcmd = s % ztlIoSecMcmd := by
    simp only [ztlProZoneNumInnode, ztlIoSecMcmd]
    omega
  have he : readCmds sect offset size = readLoop sect secSize secSize
      (s / ztlIoSecMcmd % ztlProZoneNumInnode) (s / ztlIoSecMcmd / ztlProZoneNumInnode)
      (s / ztlIoSecMcmd / ztlProZoneNumInnode * ztlIoSecMcmd + s % ztlIoSecMcmd)
      (if secSize > ztlIoSecMcmd - s % ztlIoSecMcmd then ztlIoSecMcmd - s % ztlIoSecMcmd
        else secSize) 0 size (offset % znsAligment) := by
    simp only [readCmds, ← hs, ← hsec, hz, hl, hm]
  rw [he]
  refine { hspec with length := le_trans hspec.length ?_ }
  simp only [unitBytes_eq, znsAligment, ztlIoSecMcmd] at *
  omega

theorem readCmds_spec (offset size : Nat) : Reads (readCmds sect offset size) n offset 0 size
      ((offset % unitBytes + size + (unitBytes - 1)) / unitBytes) :=
  (readCmds_tiles hsect offset size).reads

end

/-- The first sector of the zone at slot `i` of node `n`. -/
def Ztl.slotSect (z : Ztl) (n i : Nat) : Nat := (z.vzones ((z.vnodes n).vzones i)).sect

theorem Geometry.slotSect (hg : Geometry z) (hn : n < z.nnodes) (hi : i < ztlProZoneNumInnode) :
    z.slotSect n i = (ztlProZoneNumInnode * n + i + metadataZoneNum) * ztlProSecNumInzone := by
  rw [Ztl.slotSect, hg.slot n hn i hi]
  refine hg.sect _ ?_
  simp only [ztlProZoneNumInnode] at *
  omega

/-- All submissions are accepted, the statuses are zero and every command completes, in some
order. -/
structure ReadAns.Good (a : ReadAns) : Prop where
  rs : a.rs = true
  ret : a.ret = 0
  accept : ∃ rest, a.accept = (fun _ => true) :: rest
  status : ∀ c ∈ a.cpls, c.status = 0
  all : ∀ k < ztlIoRcNum, ∃ c ∈ a.cpls, c.cmd = k

/-- A read whose first `n` commands succeed, in order. -/
def goodAns (n : Nat) : ReadAns where
  rs := true
  ret := 0
  stale := fun _ => 0
  accept := [fun _ => true]
  cpls := (List.range n).map fun k => ⟨k, 0, true⟩
  giveUp := false

theorem goodAns_good (hn : ztlIoRcNum ≤ n) : (goodAns n).Good where
  rs := rfl
  ret := rfl
  accept := ⟨[], rfl⟩
  status := fun c hc => by
    obtain ⟨k, -, rfl⟩ := mem_map.mp hc
    rfl
  all := fun k hk => ⟨⟨k, 0, true⟩,
    mem_map.mpr ⟨k, mem_range.mpr (lt_of_lt_of_le hk hn), rfl⟩, rfl⟩

theorem exists_good : ∃ a : ReadAns, a.Good := ⟨goodAns ztlIoRcNum, goodAns_good (le_refl _)⟩

/-- The buffer after the read. -/
def readBuf (d : Dev) (n offset size : Nat) (buf : Nat → UInt8) : Nat → UInt8 := fun i =>
  if i < size then nodeByte d n (offset + i) else buf i

section

variable {d : Dev} {cmds : List ReadCmd} {n offset size units : Nat} {buf : Nat → UInt8}

/-- The buffer while the commands `os` are in flight: what the others write is in place. -/
structure DrainInv (d : Dev) (cmds : List ReadCmd) (n offset status : Nat) (buf : Nat → UInt8)
    (s : ReadState) : Prop where
  lt : ∀ k ∈ s.outstanding, k < cmds.length
  nodup : s.outstanding.Nodup
  status : s.status = status
  done : ∀ k (hk : k < cmds.length), k ∉ s.outstanding → ∀ i, (cmds.get ⟨k, hk⟩).Writes i →
    s.buf i = nodeByte d n (offset + i)
  other : ∀ i, (∀ c ∈ cmds, ¬ c.Writes i) → s.buf i = buf i

/-- The state before the drain: every command in flight, nothing copied yet. -/
def ReadState.start (m status : Nat) (buf : Nat → UInt8) : ReadState :=
  { outstanding := List.range m, errCnt := fun _ => 0, status := status, buf := buf }

theorem DrainInv.start (d : Dev) (cmds : List ReadCmd) (n offset status : Nat) (buf : Nat → UInt8) :
    DrainInv d cmds n offset status buf (.start cmds.length status buf) :=
  ⟨fun _ hk => mem_range.mp hk, nodup_range, rfl,
    fun _ hk hout => absurd (mem_range.mpr hk) hout, fun _ _ => rfl⟩

/-- A single command copies the whole read. -/
theorem Reads.copy_single (hr : Reads [c] n offset 0 size units) (d : Dev)
    (buf : Nat → UInt8) : c.copy (c.prp d) buf = readBuf d n offset size buf := by
  funext i
  rw [Xztl.readBuf]
  by_cases hi : i < size
  · obtain ⟨c', hc', hw⟩ := hr.covers i (Nat.zero_le _) (by omega)
    obtain rfl := mem_singleton.mp hc'
    rw [if_pos hi, ReadCmd.copy_of_writes hw]
    exact (hr.serves _ hc').byte _ i hw.1 hw.2
  · rw [if_neg hi, ReadCmd.copy_of_not_writes fun hw => hi ?_]
    have := hr.within c (mem_singleton.mpr rfl) i hw
    omega

theorem DrainInv.step {s : ReadState} (h : DrainInv d cmds n offset status buf s)
    (hr : Reads cmds n offset 0 size units) {c : ReadCpl} (hc : c.cmd ∈ s.outstanding)
    (h0 : c.status = 0) : DrainInv d cmds n offset status buf
      (ztlIoReadCallbackMcmd d cmds { s with outstanding := s.outstanding.erase c.cmd } c) := by
  have hlt := h.lt _ hc
  have hget : cmds.getD c.cmd ⟨0, 0, 0, 0, 0⟩ = cmds.get ⟨c.cmd, hlt⟩ := by
    simp [getD_eq_getElem?_getD, hlt]
  have hmem : cmds.get ⟨c.cmd, hlt⟩ ∈ cmds := get_mem _ _
  have hserve := hr.serves _ hmem
  rw [ztlIoReadCallbackMcmd_zero d cmds _ h0, hget]
  refine ⟨fun k hk => h.lt k (mem_of_mem_erase hk), h.nodup.erase _, h.status,
    fun k hk hout i hi => ?_, fun i hi => ?_⟩
  · by_cases hw : (cmds.get ⟨c.cmd, hlt⟩).Writes i
    · exact (ReadCmd.copy_of_writes hw _ _).trans (hserve.byte d i hw.1 hw.2)
    · refine (ReadCmd.copy_of_not_writes hw _ _).trans ?_
      have hne : k ≠ c.cmd := fun e => hw (by subst e; exact hi)
      exact h.done k hk (fun hm => hout ((mem_erase_of_ne hne).mpr hm)) i hi
  · exact (ReadCmd.copy_of_not_writes (hi _ hmem) _ _).trans (h.other i hi)

/-- **The drain ends**, with everything in place. -/
theorem readDrain_good (hr : Reads cmds n offset 0 size units)
    (giveUp : Bool) (cpls : List ReadCpl) :
    ∀ {s : ReadState}, DrainInv d cmds n offset status buf s → (∀ c ∈ cpls, c.status = 0) →
      (∀ k ∈ s.outstanding, ∃ c ∈ cpls, c.cmd = k) →
      ∃ s', readDrain d cmds giveUp cpls s = .ok s' ∧ DrainInv d cmds n offset status buf s' ∧
        s'.outstanding = [] := by
  induction cpls with
  | nil =>
    intro s h _ hall
    have hnil : s.outstanding = [] := by
      rw [eq_nil_iff_forall_not_mem]
      intro k hk
      obtain ⟨c, hc, -⟩ := hall k hk
      cases hc
    exact ⟨s, by rw [readDrain, if_pos (Or.inl hnil)], h, hnil⟩
  | cons c cs ih =>
    intro s h hst hall
    by_cases hnil : s.outstanding = []
    · exact ⟨s, by rw [readDrain, if_pos hnil], h, hnil⟩
    have hst' : ∀ c' ∈ cs, c'.status = 0 := fun c' hc' => hst c' (mem_cons_of_mem _ hc')
    rw [readDrain, if_neg hnil]
    by_cases hc : c.cmd ∈ s.outstanding
    · rw [if_pos hc]
      have h0 := hst c mem_cons_self
      refine ih (h.step hr hc h0) hst' fun k hk => ?_
      have hk' : k ∈ s.outstanding.erase c.cmd := by
        rwa [ztlIoReadCallbackMcmd_zero d cmds _ h0] at hk
      obtain ⟨hne, hk'⟩ := h.nodup.mem_erase_iff.mp hk'
      obtain ⟨c', hc', e⟩ := hall k hk'
      rcases mem_cons.mp hc' with rfl | hc'
      · exact absurd e.symm hne
      · exact ⟨c', hc', e⟩
    · rw [if_neg hc]
      refine ih h hst' fun k hk => ?_
      obtain ⟨c', hc', e⟩ := hall k hk
      rcases mem_cons.mp hc' with rfl | hc'
      · exact absurd (e ▸ hk) hc
      · exact ⟨c', hc', e⟩

/-- When nothing is in flight the buffer holds the bytes of the node. -/
theorem DrainInv.readBuf {s : ReadState}
    (h : DrainInv d cmds n offset status buf s) (hr : Reads cmds n offset 0 size units)
    (hnil : s.outstanding = []) : s.buf = readBuf d n offset size buf := by
  funext i
  rw [Xztl.readBuf]
  by_cases hi : i < size
  · rw [if_pos hi]
    obtain ⟨c, hc, hw⟩ := hr.covers i (Nat.zero_le _) (by omega)
    obtain ⟨⟨k, hk⟩, rfl⟩ := mem_iff_get.mp hc
    exact h.done k hk (by rw [hnil]; simp) i hw
  · rw [if_neg hi]
    refine h.other i fun c hc hw => hi ?_
    have := hr.within c hc i hw
    omega

end

/-- **A read whose commands succeed** returns zero and delivers the bytes of the node. -/
theorem ztlIoRead_good (hg : Geometry z) {size : Nat} (hn : n < z.nnodes)
    (hrc : (offset % unitBytes + size + (unitBytes - 1)) / unitBytes ≤ ztlIoRcNum)
    {a : ReadAns} (ha : a.Good) (status : Nat) (buf : Nat → UInt8) :
    ztlIoRead z n offset size status buf a = .ok (0, status, readBuf z.dev n offset size buf) := by
  have hsect : ∀ i < ztlProZoneNumInnode, (z.vzones ((z.vnodes n).vzones i)).sect =
      (ztlProZoneNumInnode * n + i + metadataZoneNum) * ztlProSecNumInzone := fun i hi => by
    rw [hg.slot n hn i hi]
    exact hg.sect _ (by simp only [ztlProZoneNumInnode] at *; omega)
  have hr := readCmds_spec hsect offset size
  have hlen : ¬ ztlIoRcNum < (readCmds (fun i => (z.vzones ((z.vnodes n).vzones i)).sect) offset
      size).length := Nat.not_lt_of_le (le_trans hr.length hrc)
  simp only [ztlIoRead, ha.rs, if_true, ztlIoReadUcmd, if_neg hlen]
  generalize readCmds (fun i => (z.vzones ((z.vnodes n).vzones i)).sect) offset size = cmds at *
  have h₀ := DrainInv.start z.dev cmds n offset status buf
  obtain ⟨s', e, h', hnil⟩ := readDrain_good hr a.giveUp a.cpls h₀ ha.status fun k hk =>
    ha.all k (by have := mem_range.mp hk; omega)
  obtain ⟨rest, hacc⟩ := ha.accept
  have hsub : readSubmit a.accept (List.range cmds.length) = .ok () := by
    have hfil : (List.range cmds.length).filter (fun _ => !true) = [] := by simp
    rw [hacc, readSubmit]
    split
    · rfl
    · rw [hfil]
      cases rest <;> simp [readSubmit]
  split
  next c =>
    -- a single command is read synchronously
    rw [ha.ret, if_pos rfl, hr.copy_single]
  next =>
    rw [ReadState.start] at e
    rw [hsub, e]
    show Except.ok (0, s'.status, s'.buf) = _
    rw [h'.status, h'.readBuf hr hnil]

end Xztl
