import Xztl.Support.Bytes
import Xztl.Zrocks.Api

/-!
# Env — the metadata zones (`ztl-metadata.c`)

Two zones in front of the nodes hold the metadata log.  A write goes to the write pointer of the
current zone, in chunks of `MAX_WRITE_NLB_NUM` sectors with up to three attempts each; one that does
not leave a sector free switches to the other zone, which is reset, and reports `MD_WRITE_FULL`
without writing.

The medium is byte-addressed, sector `s` at `4096 * s`.  `ok k` is the outcome of the `k`-th device
command, so every pattern of failing writes, reads and resets is a value of it; a read past the last
sector of the device fails whatever `ok` says.
`zrocksWriteFileMetadata_ok`, `zrocksWriteFileMetadata_full` and `zrocksReadMetadata_ok` say what the
loops do when the commands succeed.
-/

namespace Xztl

open Function Bytes

/-- `MAX_WRITE_NLB_NUM`. -/
def maxWriteNlbNum : Nat := 64

/-- `MAX_READ_NLB_NUM`. -/
def maxReadNlbNum : Nat := 128

/-- `META_WRITE_MAX_RETRY` and `META_READ_MAX_RETRY`. -/
def metaMaxRetry : Nat := 3

/-- `XZTL_ZTL_MD_READ_ERR`. -/
def mdReadErr : Nat := 0x1b

/-- `XZTL_ZTL_MD_WRITE_ERR`. -/
def mdWriteErr : Nat := 0x1c

/-- `XZTL_ZTL_MD_WRITE_FULL`, and `MD_WRITE_FULL` of the environment. -/
def mdWriteFull : Nat := 0x1d

/-- A metadata zone: first sector, capacity in sectors, write pointer. -/
structure MetaZone where
  sect : Nat
  capacity : Nat
  wptr : Nat

/-- `struct ztl_metadata` and the sectors of its zones on a device of `nsect` sectors.  The outcomes
of the device's commands are input. -/
structure Metadata where
  zone : Nat → MetaZone
  currZoneIndex : Nat
  media : Buf
  nsect : Nat
  ok : Nat → Bool
  cmds : Nat

/-- The medium after the reset of a zone: its sectors read as zero. -/
def cleared (media : Buf) (z : MetaZone) : Buf := fun a =>
  if znsAligment * z.sect ≤ a ∧ a < znsAligment * (z.sect + z.capacity) then 0 else media a

/-- `zrocks_reset_file_md`. -/
def zrocksResetFileMd (m : Metadata) (z : MetaZone) : Metadata :=
  let m' := { m with cmds := m.cmds + 1 }
  if m.ok m.cmds then { m' with media := cleared m.media z } else m'

/-- `zrocks_switch_zone`: the first zone that does not start at `slbas` becomes the current one and
is reset; the outcome of the reset is not looked at. -/
def zrocksSwitchZone (m : Metadata) (slbas : Nat) : Metadata :=
  match (List.range metadataZoneNum).find? fun i => (m.zone i).sect ≠ slbas with
  | none => m
  | some i =>
    let z := m.zone i
    let m := zrocksResetFileMd { m with currZoneIndex := i } z
    { m with zone := update m.zone i { z with wptr := z.sect } }

/-- Up to `n` attempts at a device command, and whether one succeeded. -/
def attempts : Nat → Metadata → Metadata × Bool
  | 0, m => (m, false)
  | n + 1, m =>
    let m' := { m with cmds := m.cmds + 1 }
    if m.ok m.cmds then (m', true) else attempts n m'

/-- The attempts at reading `n` sectors from `slba` on: none succeeds past the end of the device. -/
def metaReadAttempts (slba n : Nat) (m : Metadata) : Metadata × Bool :=
  if slba + n ≤ m.nsect then attempts metaMaxRetry m
  else ({ m with cmds := m.cmds + metaMaxRetry }, false)

/-- The loop of `zrocks_write_file_metadata` over the chunks, for the zone with index `i`; `remain`
bytes are left, the first of them at `off` in the buffer. -/
def metaWriteLoop (buf : Buf) (i : Nat) :
    (fuel remain off : Nat) → Metadata → Metadata × Bool
  | 0, _, _, m => (m, true)
  | fuel + 1, remain, off, m =>
    if remain = 0 then (m, true)
    else
      let maxLen := maxWriteNlbNum * znsAligment
      let writeLen := if remain > maxLen then maxLen else remain
      let nlb := writeLen / znsAligment
      match attempts metaMaxRetry m with
      | (m, false) => (m, false)
      | (m, true) =>
        let z := m.zone i
        metaWriteLoop buf i fuel (remain - writeLen) (off + writeLen)
          { m with
            media := memcpy m.media (znsAligment * z.wptr) (load buf off (znsAligment * nlb))
            zone := update m.zone i { z with wptr := z.wptr + nlb } }

/-- `zrocks_write_file_metadata`.  Every round of the loop writes at least one byte, so `length`
rounds are enough. -/
def zrocksWriteFileMetadata (m : Metadata) (buf : Buf) (length : Nat) : Metadata × Nat :=
  let z := m.zone m.currZoneIndex
  if z.wptr + length / znsAligment ≥ z.sect + z.capacity then
    (zrocksSwitchZone m z.sect, mdWriteFull)
  else
    match metaWriteLoop buf m.currZoneIndex length length 0 m with
    | (m, true) => (m, xztlOk)
    | (m, false) => (m, mdWriteErr)

/-- The loop of `zrocks_read_metadata`; the data goes to `buf` from `a` on. -/
def metaReadLoop : (fuel leftNlb slba a : Nat) → Buf → Metadata → Metadata × Buf × Bool
  | 0, _, _, _, buf, m => (m, buf, true)
  | fuel + 1, leftNlb, slba, a, buf, m =>
    if leftNlb = 0 then (m, buf, true)
    else
      let readNlb := if leftNlb > maxReadNlbNum then maxReadNlbNum else leftNlb
      match metaReadAttempts slba readNlb m with
      | (m, false) => (m, buf, false)
      | (m, true) =>
        metaReadLoop fuel (leftNlb - readNlb) (slba + readNlb) (a + znsAligment * readNlb)
          (memcpy buf a (load m.media (znsAligment * slba) (znsAligment * readNlb))) m

/-- `zrocks_read_metadata`; the number of sectors is kept in 16 bits. -/
def zrocksReadMetadata (m : Metadata) (slba : Nat) (buf : Buf) (a length : Nat) :
    Metadata × Buf × Nat :=
  let nlb := length / znsAligment % 2 ^ 16
  match metaReadLoop nlb nlb slba a buf m with
  | (m, buf, true) => (m, buf, xztlOk)
  | (m, buf, false) => (m, buf, mdReadErr)

/-! ### What commands leave alone -/

theorem attempts_md (n : Nat) : ∀ m, ∃ c, (attempts n m).1 = { m with cmds := c } := by
  induction n with
  | zero => exact fun m => ⟨m.cmds, rfl⟩
  | succ n ih =>
    intro m
    rw [attempts]
    split
    · exact ⟨m.cmds + 1, rfl⟩
    · obtain ⟨c, h⟩ := ih { m with cmds := m.cmds + 1 }
      exact ⟨c, h⟩

theorem metaReadLoop_md (fuel : Nat) : ∀ (k slba a : Nat) (buf : Buf) (m : Metadata),
    ∃ c, (metaReadLoop fuel k slba a buf m).1 = { m with cmds := c } := by
  induction fuel with
  | zero => exact fun _ _ _ _ m => ⟨m.cmds, rfl⟩
  | succ fuel ih =>
    intro k slba a buf m
    rw [metaReadLoop]
    split
    · exact ⟨m.cmds, rfl⟩
    · generalize (if k > maxReadNlbNum then maxReadNlbNum else k) = j
      obtain ⟨c, hc⟩ : ∃ c, (metaReadAttempts slba j m).1 = { m with cmds := c } := by
        rw [metaReadAttempts]
        split
        · exact attempts_md _ m
        · exact ⟨_, rfl⟩
      obtain ⟨⟨m', b⟩, hb⟩ : ∃ r, metaReadAttempts slba j m = r := ⟨_, rfl⟩
      rw [hb] at hc
      obtain rfl : m' = { m with cmds := c } := hc
      simp only [hb]
      cases b with
      | false => exact ⟨c, rfl⟩
      | true =>
        obtain ⟨c', hc'⟩ := ih (k - j) (slba + j) (a + znsAligment * j)
          (memcpy buf a (load m.media (znsAligment * slba) (znsAligment * j)))
          { m with cmds := c }
        exact ⟨c', hc'⟩

/-- A read changes nothing. -/
theorem zrocksReadMetadata_md (m : Metadata) (slba : Nat) (buf : Buf) (a length : Nat) :
    ∃ c, (zrocksReadMetadata m slba buf a length).1 = { m with cmds := c } := by
  obtain ⟨c, hc⟩ := metaReadLoop_md (length / znsAligment % 2 ^ 16)
    (length / znsAligment % 2 ^ 16) slba a buf m
  refine ⟨c, ?_⟩
  rw [← hc, zrocksReadMetadata]
  obtain ⟨⟨m', buf', b⟩, hb⟩ : ∃ r, metaReadLoop (length / znsAligment % 2 ^ 16)
    (length / znsAligment % 2 ^ 16) slba a buf m = r := ⟨_, rfl⟩
  simp only [hb]
  cases b <;> rfl

/-! ### When the commands succeed -/

/-- Every command of the device succeeds. -/
def Metadata.AllOk (m : Metadata) : Prop := ∀ k, m.ok k = true

section

variable {m : Metadata} {buf : Buf}

theorem attempts_ok (h : m.AllOk) (n : Nat) :
    attempts (n + 1) m = ({ m with cmds := m.cmds + 1 }, true) := by
  rw [attempts, if_pos (h _)]

theorem attempts_true (n : Nat) : ∀ {m : Metadata}, (∃ i < n, m.ok (m.cmds + i) = true) →
    ∃ c, attempts n m = ({ m with cmds := c }, true) := by
  induction n with
  | zero =>
    rintro m ⟨i, hi, -⟩
    exact absurd hi (Nat.not_lt_zero i)
  | succ n ih =>
    rintro m ⟨i, hi, hok⟩
    rw [attempts]
    by_cases h0 : m.ok m.cmds = true
    · exact ⟨m.cmds + 1, if_pos h0⟩
    · rw [if_neg h0]
      cases i with
      | zero => exact absurd hok h0
      | succ i =>
        refine ih (m := { m with cmds := m.cmds + 1 }) ⟨i, Nat.lt_of_succ_lt_succ hi, ?_⟩
        rwa [Nat.add_assoc, Nat.add_comm 1 i]

/-- Of three commands in a row one succeeds. -/
def Metadata.Patient (m : Metadata) : Prop := ∀ c, ∃ i < metaMaxRetry, m.ok (c + i) = true

theorem Metadata.AllOk.patient (h : m.AllOk) : m.Patient := fun _ => ⟨0, by decide, h _⟩

theorem metaWriteLoop_ok (buf : Buf) (i fuel : Nat) : ∀ {m : Metadata} (k off : Nat), m.Patient →
    znsAligment * k ≤ fuel →
    ∃ c, metaWriteLoop buf i fuel (znsAligment * k) off m =
      ({ m with
          media := memcpy m.media (znsAligment * (m.zone i).wptr) (load buf off (znsAligment * k))
          zone := update m.zone i { m.zone i with wptr := (m.zone i).wptr + k }
          cmds := c }, true) := by
  induction fuel with
  | zero =>
    intro m k off _ hk
    obtain rfl : k = 0 := by
      rw [znsAligment] at hk
      omega
    refine ⟨m.cmds, ?_⟩
    simp [metaWriteLoop]
  | succ fuel ih =>
    intro m k off h hk
    by_cases h0 : k = 0
    · subst h0
      exact ⟨m.cmds, by simp [metaWriteLoop]⟩
    · -- the chunk takes `j` of the `k` sectors
      obtain ⟨j, hj, hjk, hlen⟩ : ∃ j, 0 < j ∧ j ≤ k ∧
          (if znsAligment * k > maxWriteNlbNum * znsAligment then maxWriteNlbNum * znsAligment
            else znsAligment * k) = znsAligment * j := by
        by_cases hbig : znsAligment * k > maxWriteNlbNum * znsAligment
        · refine ⟨maxWriteNlbNum, by decide, ?_, by rw [if_pos hbig, Nat.mul_comm]⟩
          rw [Nat.mul_comm] at hbig
          exact le_of_lt (Nat.lt_of_mul_lt_mul_right hbig)
        · exact ⟨k, by omega, le_refl k, if_neg hbig⟩
      have hne : ¬ znsAligment * k = 0 := by
        rw [znsAligment]
        omega
      have hsub : znsAligment * k - znsAligment * j = znsAligment * (k - j) :=
        (Nat.mul_sub _ _ _).symm
      have hdiv : znsAligment * j / znsAligment = j := Nat.mul_div_cancel_left _ (by decide)
      obtain ⟨c1, hatt⟩ := attempts_true metaMaxRetry (h m.cmds)
      rw [metaWriteLoop, if_neg hne]
      simp only [hlen, hatt, hsub, hdiv]
      obtain ⟨c, e⟩ := ih (m := { m with
        cmds := c1
        media := memcpy m.media (znsAligment * (m.zone i).wptr)
          (load buf off (znsAligment * j))
        zone := update m.zone i { m.zone i with wptr := (m.zone i).wptr + j } })
        (k - j) (off + znsAligment * j) h (by rw [znsAligment] at *; omega)
      refine ⟨c, e.trans ?_⟩
      have hk' : znsAligment * k = znsAligment * j + znsAligment * (k - j) := by
        rw [← Nat.mul_add, Nat.add_sub_cancel' hjk]
      rw [hk', load_add, memcpy_append, load_length]
      simp [Nat.mul_add, Nat.add_assoc, Nat.add_sub_cancel' hjk]

/-- **One sector** is written, or three commands have failed. -/
theorem metaWriteLoop_sector (buf : Buf) (i : Nat) {fuel : Nat} (hfuel : 2 ≤ fuel) (m : Metadata) :
    ∃ c, (¬ m.Patient ∧ metaWriteLoop buf i fuel (znsAligment * 1) 0 m = ({ m with cmds := c }, false)) ∨
      metaWriteLoop buf i fuel (znsAligment * 1) 0 m = ({ m with
        media := memcpy m.media (znsAligment * (m.zone i).wptr) (load buf 0 (znsAligment * 1))
        zone := update m.zone i { m.zone i with wptr := (m.zone i).wptr + 1 }
        cmds := c }, true) := by
  obtain ⟨fuel, rfl⟩ := Nat.exists_eq_add_of_le' hfuel
  obtain ⟨c, hc⟩ := attempts_md metaMaxRetry m
  refine ⟨c, ?_⟩
  rw [metaWriteLoop, if_neg (by decide)]
  cases hb : attempts metaMaxRetry m with
  | mk m' b =>
    rw [hb] at hc
    obtain rfl : m' = { m with cmds := c } := hc
    cases b with
    | false =>
      refine Or.inl ⟨fun hp => ?_, rfl⟩
      obtain ⟨_, htrue⟩ := attempts_true metaMaxRetry (hp m.cmds)
      rw [hb] at htrue
      cases htrue
    | true =>
      right
      dsimp only
      rw [metaWriteLoop]
      rfl

/-- **A write with room** stores the buffer at the write pointer. -/
theorem zrocksWriteFileMetadata_ok (h : m.Patient) {z : MetaZone} (hz : m.zone m.currZoneIndex = z)
    {k : Nat} (hroom : z.wptr + k < z.sect + z.capacity) :
    ∃ c, zrocksWriteFileMetadata m buf (znsAligment * k) =
      ({ m with
          media := memcpy m.media (znsAligment * z.wptr) (load buf 0 (znsAligment * k))
          zone := update m.zone m.currZoneIndex { z with wptr := z.wptr + k }
          cmds := c }, xztlOk) := by
  obtain ⟨c, e⟩ := metaWriteLoop_ok buf m.currZoneIndex (znsAligment * k) k 0 h (le_refl _)
  have hdiv : znsAligment * k / znsAligment = k := Nat.mul_div_cancel_left _ (by decide)
  refine ⟨c, ?_⟩
  rw [zrocksWriteFileMetadata]
  simp only [hz, hdiv, if_neg (Nat.not_le_of_lt hroom), e]

/-- The other zone becomes the current one. -/
theorem zrocksSwitchZone_ok (h : m.ok m.cmds = true) (hne : (m.zone 0).sect ≠ (m.zone 1).sect) {i : Nat}
    (hi : i < 2) {z z' : MetaZone} (hz : m.zone i = z) (hz' : m.zone (1 - i) = z') :
    zrocksSwitchZone m z.sect =
      { m with
        currZoneIndex := 1 - i
        media := cleared m.media z'
        zone := update m.zone (1 - i) { z' with wptr := z'.sect }
        cmds := m.cmds + 1 } := by
  have hfind : ((List.range metadataZoneNum).find? fun j => (m.zone j).sect ≠ z.sect)
      = some (1 - i) := by
    rw [← hz, show List.range metadataZoneNum = [0, 1] from rfl]
    obtain rfl | rfl : i = 0 ∨ i = 1 := by omega
    · simp [Ne.symm hne]
    · simp [hne]
  rw [zrocksSwitchZone, hfind]
  simp only [zrocksResetFileMd, if_pos h, hz']

/-- **A write without room** switches to the other zone. -/
theorem zrocksWriteFileMetadata_full (h : m.ok m.cmds = true)
    (hne : (m.zone 0).sect ≠ (m.zone 1).sect) (hi : m.currZoneIndex < 2) {z z' : MetaZone}
    (hz : m.zone m.currZoneIndex = z) (hz' : m.zone (1 - m.currZoneIndex) = z') {k : Nat}
    (hfull : z.sect + z.capacity ≤ z.wptr + k) :
    zrocksWriteFileMetadata m buf (znsAligment * k) =
      ({ m with
          currZoneIndex := 1 - m.currZoneIndex
          media := cleared m.media z'
          zone := update m.zone (1 - m.currZoneIndex) { z' with wptr := z'.sect }
          cmds := m.cmds + 1 }, mdWriteFull) := by
  have hdiv : znsAligment * k / znsAligment = k := Nat.mul_div_cancel_left _ (by decide)
  rw [zrocksWriteFileMetadata]
  simp only [hz, hdiv, if_pos hfull]
  rw [zrocksSwitchZone_ok h hne hi hz hz']

theorem metaReadAttempts_ok (h : m.AllOk) {slba n : Nat} (hin : slba + n ≤ m.nsect) :
    metaReadAttempts slba n m = ({ m with cmds := m.cmds + 1 }, true) := by
  rw [metaReadAttempts, if_pos hin, metaMaxRetry, attempts_ok h]

/-- A chunk of a read: how many sectors it has. -/
theorem exists_readNlb {k : Nat} (h0 : k ≠ 0) :
    ∃ j, 0 < j ∧ j ≤ k ∧ (if k > maxReadNlbNum then maxReadNlbNum else k) = j := by
  by_cases hbig : k > maxReadNlbNum
  · exact ⟨_, by decide, le_of_lt hbig, if_pos hbig⟩
  · exact ⟨k, Nat.pos_of_ne_zero h0, le_refl k, if_neg hbig⟩

theorem metaReadLoop_ok (fuel : Nat) : ∀ {m : Metadata} (buf : Buf) (k slba a : Nat), m.AllOk →
    k ≤ fuel → slba + k ≤ m.nsect →
    ∃ c, metaReadLoop fuel k slba a buf m =
      ({ m with cmds := c },
        memcpy buf a (load m.media (znsAligment * slba) (znsAligment * k)), true) := by
  induction fuel with
  | zero =>
    intro m buf k slba a _ hk _
    obtain rfl : k = 0 := by omega
    exact ⟨m.cmds, by simp [metaReadLoop]⟩
  | succ fuel ih =>
    intro m buf k slba a h hk hin
    by_cases h0 : k = 0
    · subst h0
      exact ⟨m.cmds, by simp [metaReadLoop]⟩
    · obtain ⟨j, hj, hjk, hlen⟩ := exists_readNlb h0
      rw [metaReadLoop, if_neg h0]
      simp only [hlen, metaReadAttempts_ok h (show slba + j ≤ m.nsect by omega)]
      obtain ⟨c, e⟩ := ih (m := { m with cmds := m.cmds + 1 }) _ (k - j) (slba + j)
        (a + znsAligment * j) h (by omega) (show slba + j + (k - j) ≤ m.nsect by omega)
      refine ⟨c, e.trans ?_⟩
      have hk' : znsAligment * k = znsAligment * j + znsAligment * (k - j) := by
        rw [← Nat.mul_add, Nat.add_sub_cancel' hjk]
      rw [hk', load_add, memcpy_append, load_length, Nat.mul_add]

/-- A read that does not end on the device fails. -/
theorem metaReadLoop_past (fuel : Nat) : ∀ {m : Metadata} (buf : Buf) (k slba a : Nat), m.AllOk →
    k ≤ fuel → 0 < k → m.nsect < slba + k →
    ∃ m' buf', metaReadLoop fuel k slba a buf m = (m', buf', false) := by
  induction fuel with
  | zero =>
    intro m buf k slba a _ hk hpos _
    omega
  | succ fuel ih =>
    intro m buf k slba a h hk hpos hout
    obtain ⟨j, hj, hjk, hlen⟩ := exists_readNlb (Nat.ne_of_gt hpos)
    rw [metaReadLoop, if_neg (Nat.ne_of_gt hpos)]
    by_cases hin : slba + j ≤ m.nsect
    · simp only [hlen, metaReadAttempts_ok h hin]
      exact ih (m := { m with cmds := m.cmds + 1 }) _ (k - j) (slba + j) (a + znsAligment * j) h
        (by omega) (by omega) (show m.nsect < slba + j + (k - j) by omega)
    · simp only [hlen, metaReadAttempts, if_neg hin]
      exact ⟨_, _, rfl⟩

/-- A read of as many sectors as 16 bits leave of the length. -/
theorem zrocksReadMetadata_nlb (buf : Buf) (h : m.AllOk) {length k : Nat}
    (hk : length / znsAligment % 2 ^ 16 = k) {slba : Nat} (hin : slba + k ≤ m.nsect) (a : Nat) :
    ∃ c, zrocksReadMetadata m slba buf a length =
      ({ m with cmds := c },
        memcpy buf a (load m.media (znsAligment * slba) (znsAligment * k)), xztlOk) := by
  obtain ⟨c, e⟩ := metaReadLoop_ok k buf k slba a h (le_refl _) hin
  refine ⟨c, ?_⟩
  rw [zrocksReadMetadata]
  simp only [hk, e]

theorem zrocksReadMetadata_past (buf : Buf) (h : m.AllOk) {length k : Nat}
    (hk : length / znsAligment % 2 ^ 16 = k) (hpos : 0 < k) {slba : Nat}
    (hout : m.nsect < slba + k) (a : Nat) :
    ∃ m' buf', zrocksReadMetadata m slba buf a length = (m', buf', mdReadErr) := by
  obtain ⟨m', buf', e⟩ := metaReadLoop_past k buf k slba a h (le_refl _) hpos hout
  refine ⟨m', buf', ?_⟩
  rw [zrocksReadMetadata]
  simp only [hk, e]

theorem zrocksReadMetadata_ok (buf : Buf) (h : m.AllOk) {k : Nat} (hk : k < 2 ^ 16) {slba : Nat}
    (hin : slba + k ≤ m.nsect) (a : Nat) :
    ∃ c, zrocksReadMetadata m slba buf a (znsAligment * k) =
      ({ m with cmds := c },
        memcpy buf a (load m.media (znsAligment * slba) (znsAligment * k)), xztlOk) := by
  refine zrocksReadMetadata_nlb buf h ?_ hin a
  rw [Nat.mul_div_cancel_left _ (by decide), Nat.mod_eq_of_lt hk]

end

end Xztl
