import Xztl.Env.Codec
import Xztl.Env.Loading
import Xztl.Env.Writers

/-!
# Env — where snapshots are written (`env_zns.cc`, `ztl-metadata.c`)

A snapshot goes to the write pointer of the current zone, and `LoadMetaData` looks for zone heads at
the first sector of a zone only.  A flush that finds the zone full switches to the other zone, which
is reset, so its snapshot is at the start.  The snapshot at the end of `LoadMetaData` is so when a zone
head was found, since the zones are switched then; otherwise it goes wherever the write pointer of the
current zone is.

`HeadWritten` is what becomes of a zone head: where it is written, and which zone a load right after
it would take.  **`snapshots_found_iff`** is about every run of flushes behind a first load, on zones
with any contents and write pointers.
-/

namespace Xztl

open Function Bytes List Except Option

/-! ### Where a snapshot goes -/

/-- The metadata zones in which `FlushMetaData` writes a snapshot of `dataLen` bytes: as they are, or
switched when there is no room. -/
def Metadata.snapshotZones (m : Metadata) (dataLen : Nat) : Metadata :=
  if m.curr.wptr + dataLen / znsAligment < m.curr.sect + m.curr.capacity then m
  else zrocksSwitchZone m m.curr.sect

/-- The zone and the sector where `FlushMetaData` writes the zone head, if it does. -/
def snapshotPlace (e : Env) : Option (Nat × Nat) :=
  match layOut e.tbl e.sequence with
  | .ok (some (_, dataLen)) =>
    let m := e.md.snapshotZones dataLen
    if m.curr.wptr + dataLen / znsAligment < m.curr.sect + m.curr.capacity then
      some (m.currZoneIndex, m.curr.wptr)
    else none
  | _ => none

variable {st : Status} {i : Nat} {op : Operation} {buf : Buf}

section

variable {e e' : Env} {m : Metadata}

theorem exists_layOut_of_flush {r : Env × Status} (h : flushMetaData e = .ok r) :
    ∃ x, layOut e.tbl e.sequence = .ok x := by
  rw [flushMetaData] at h
  obtain ⟨⟨t, x⟩, hx, -⟩ := bind_eq_ok.mp h
  rw [layOut]
  simp only [hx, bind, Except.bind]
  cases x with
  | none => exact ⟨_, rfl⟩
  | some x => exact ⟨_, rfl⟩

/-- A table that does not fit the buffer: nothing is written. -/
theorem flushMetaData_none (h : layOut e.tbl e.sequence = .ok none)
    (hf : flushMetaData e = .ok (e', st)) :
    e'.md = e.md ∧ e'.sequence = (e.sequence + 1) % 2 ^ 64 := by
  rw [layOut] at h
  obtain ⟨⟨t, x⟩, hx, h⟩ := bind_eq_ok.mp h
  cases x with
  | none =>
    rw [flushMetaData] at hf
    simp only [hx, bind, Except.bind] at hf
    cases hf
    exact ⟨rfl, rfl⟩
  | some x => cases h

theorem MdGeometry.switchZone (h : MdGeometry m) : zrocksSwitchZone m m.curr.sect = m.switched :=
  zrocksSwitchZone_ok (h.ok _) h.ne h.curr rfl rfl

/-- A snapshot that is accepted is written, in one of the zones. -/
theorem flushMetaData_some (hg : MdGeometry e.md) (hs : SnapOk e.tbl)
    (hf : flushMetaData e = .ok (e', st)) :
    ∃ m c, (m = e.md ∨ m = e.md.switched ∧ e.md.curr.sect + e.md.curr.capacity
          ≤ e.md.curr.wptr + (1 + (Rec.base e.tbl.snapshot).sectors)) ∧
      snapshotPlace e = some (m.currZoneIndex, m.curr.wptr) ∧
      m.curr.wptr + (1 + (Rec.base e.tbl.snapshot).sectors) < m.curr.sect + m.curr.capacity ∧
      e'.sequence = (e.sequence + 1) % 2 ^ 64 ∧
      e'.md = m.setCurr (memcpy m.media (znsAligment * m.curr.wptr)
          (zoneHeadBytes e.sequence ++ (Rec.base e.tbl.snapshot).bytes))
        { m.curr with wptr := m.curr.wptr + (1 + (Rec.base e.tbl.snapshot).sectors) } c := by
  obtain ⟨buf, dataLen, hacc⟩ := hs.exists_layOut e.sequence
  obtain ⟨t, hf'⟩ := flushMetaData_layOut hacc
  rw [hf'] at hf
  obtain ⟨-, hbuf, hlen⟩ := layOut_eq_some.mp hacc
  have hdiv : dataLen / znsAligment = 1 + (Rec.base e.tbl.snapshot).sectors := by
    rw [hlen, Nat.mul_div_cancel_left _ (by decide)]
  have hload : load buf 0 dataLen
      = zoneHeadBytes e.sequence ++ (Rec.base e.tbl.snapshot).bytes := by
    have hat := snapshot_buf e.sequence e.tbl.snapshot
    rw [← hbuf, At, length_append, zoneHeadBytes_length, Rec.bytes_length] at hat
    rwa [hlen, Nat.mul_add, Nat.mul_one]
  by_cases hroom : e.md.curr.wptr + (1 + (Rec.base e.tbl.snapshot).sectors)
      < e.md.curr.sect + e.md.curr.capacity
  · obtain ⟨c, hw⟩ := @zrocksWriteFileMetadata_ok e.md buf hg.ok.patient e.md.curr rfl _ hroom
    rw [← hlen, hload] at hw
    have hzones : e.md.snapshotZones dataLen = e.md := by
      rw [Metadata.snapshotZones, hdiv, if_pos hroom]
    refine ⟨e.md, c, Or.inl rfl, ?_, hroom, ?_, ?_⟩
    · rw [snapshotPlace, hacc]
      simp only [hzones, hdiv, if_pos hroom]
    · cases hf
      rfl
    · have hmd := congrArg (fun r => r.1.md) (Except.ok.inj hf)
      simp only [hw] at hmd
      exact hmd.symm
  · have hfull : zrocksWriteFileMetadata e.md buf dataLen = (e.md.switched, mdWriteFull) := by
      rw [hlen]
      exact zrocksWriteFileMetadata_full (hg.ok _) hg.ne hg.curr rfl rfl (Nat.le_of_not_lt hroom)
    have hcap : fileMetadataBufSize / znsAligment < e.md.switched.curr.capacity :=
      hg.switched.cap _ hg.switched.curr
    have hroom' : e.md.switched.curr.wptr + (1 + (Rec.base e.tbl.snapshot).sectors)
        < e.md.switched.curr.sect + e.md.switched.curr.capacity := by
      have hmax := (snapshot_sectors hs.fits).2
      rw [Metadata.curr_switched] at hcap ⊢
      exact Nat.add_lt_add_left (lt_of_le_of_lt hmax hcap) _
    obtain ⟨c, hw⟩ := @zrocksWriteFileMetadata_ok e.md.switched buf hg.switched.ok.patient
      e.md.switched.curr rfl _ hroom'
    rw [← hlen, hload] at hw
    have hzones : e.md.snapshotZones dataLen = e.md.switched := by
      rw [Metadata.snapshotZones, hdiv, if_neg hroom, hg.switchZone]
    refine ⟨e.md.switched, c, Or.inr ⟨rfl, Nat.le_of_not_lt hroom⟩, ?_, hroom', ?_, ?_⟩
    · rw [snapshotPlace, hacc]
      simp only [hzones, hdiv, if_pos hroom']
    · cases hf
      rfl
    · have hmd := congrArg (fun r => r.1.md) (Except.ok.inj hf)
      simp only [hfull, if_true, hw] at hmd
      exact hmd.symm

/-! ### The numbers in the zone heads -/

/-- The number of a zone is read from its first sector. -/
theorem zoneSeq_congr {m m' : Metadata} (hs : (m'.zone i).sect = (m.zone i).sect)
    (hm : ∀ j < znsAligment, m'.media (znsAligment * (m.zone i).sect + j)
      = m.media (znsAligment * (m.zone i).sect + j)) : zoneSeq m' i = zoneSeq m i := by
  have h0 := hm 0 (by decide)
  rw [Nat.add_zero] at h0
  have h4 : load m'.media (znsAligment * (m.zone i).sect + 4) 4
      = load m.media (znsAligment * (m.zone i).sect + 4) 4 := by
    refine load_congr fun j hj => ?_
    rw [Nat.add_assoc]
    exact hm (4 + j) (lt_trans (Nat.add_lt_add_left hj 4) (by decide))
  rw [zoneSeq, zoneSeq, hs, h0, h4]

section

variable {bytes : List UInt8} {k c : Nat} {z : MetaZone}

/-- A write to the current zone leaves the other zone's number alone. -/
theorem MdGeometry.zoneSeq_other (h : MdGeometry m) (hptr : m.curr.sect ≤ m.curr.wptr)
    (hlen : bytes.length = znsAligment * k)
    (hroom : m.curr.wptr + k < m.curr.sect + m.curr.capacity) (hz : z.sect = m.curr.sect) :
    zoneSeq (m.setCurr (memcpy m.media (znsAligment * m.curr.wptr) bytes) z c)
        (1 - m.currZoneIndex) = zoneSeq m (1 - m.currZoneIndex) := by
  have hcurr := h.curr
  have hother : (m.setCurr (memcpy m.media (znsAligment * m.curr.wptr) bytes) z c).other = m.other :=
    Metadata.other_setCurr hcurr
  refine zoneSeq_congr (congrArg MetaZone.sect hother) fun j hj => memcpy_of_not_mem ?_
  have hcap := Nat.zero_lt_of_lt (h.cap (1 - m.currZoneIndex) (by omega))
  have hmem : m.other.Mem (znsAligment * (m.zone (1 - m.currZoneIndex)).sect + j) := by
    refine ⟨Nat.le_add_right _ _, ?_⟩
    show _ < znsAligment * ((m.zone (1 - m.currZoneIndex)).sect
      + (m.zone (1 - m.currZoneIndex)).capacity)
    simp only [znsAligment] at *
    omega
  by_contra hc
  refine h.not_mem ⟨?_, ?_⟩ hmem
  · simp only [znsAligment] at *
    omega
  · simp only [hlen, znsAligment] at *
    omega

/-- A write behind the first sector leaves the zone's own number alone. -/
theorem zoneSeq_behind (hptr : m.curr.sect < m.curr.wptr) (hz : z.sect = m.curr.sect) :
    zoneSeq (m.setCurr (memcpy m.media (znsAligment * m.curr.wptr) bytes) z c) m.currZoneIndex
      = zoneSeq m m.currZoneIndex := by
  have hcurr : (m.setCurr (memcpy m.media (znsAligment * m.curr.wptr) bytes) z c).zone
      m.currZoneIndex = z := update_self _ _ _
  refine zoneSeq_congr (by rw [hcurr]; exact hz) fun j hj => memcpy_of_not_mem (Or.inl ?_)
  show znsAligment * m.curr.sect + j < _
  simp only [znsAligment] at *
  omega

end

/-- After a switch the current zone has no head, and the other one is as it was. -/
theorem MdGeometry.zoneSeq_switched (h : MdGeometry m) :
    zoneSeq m.switched (1 - m.currZoneIndex) = none ∧
      zoneSeq m.switched m.currZoneIndex = zoneSeq m m.currZoneIndex := by
  have hcurr := h.curr
  constructor
  · refine zoneSeq_none ?_
    have hz : m.switched.zone (1 - m.currZoneIndex) = _ := Metadata.curr_switched
    rw [hz]
    exact if_pos h.head_mem
  · have hz : m.switched.zone m.currZoneIndex = m.zone m.currZoneIndex :=
      update_of_ne (by omega) _ _
    refine zoneSeq_congr (congrArg MetaZone.sect hz) fun j hj => if_neg (h.not_mem ⟨?_, ?_⟩)
    · exact Nat.le_add_right _ _
    · have hcap := Nat.zero_lt_of_lt (h.cap _ hcurr)
      show znsAligment * m.curr.sect + j < znsAligment * (m.curr.sect + m.curr.capacity)
      have hcap : 0 < m.curr.capacity := hcap
      simp only [znsAligment] at *
      omega

end

/-! ### Flushes -/

/-- A zone head that was written: the zone, the sector, and the zone a load would take right after. -/
structure HeadWritten where
  zone : Nat
  sector : Nat
  newest : Option Nat

/-- It is found again: it is at the start of its zone, and that zone is the newest. -/
def HeadWritten.Found (m₀ : Metadata) (x : HeadWritten) : Prop :=
  x.sector = (m₀.zone x.zone).sect ∧ x.newest = some x.zone

/-- The head that was written at `place`; `e` is the state after it. -/
def headsOf (place : Option (Nat × Nat)) (e : Env) : List HeadWritten :=
  place.toList.map fun x => ⟨x.1, x.2, newestZone e.md⟩

/-- Where a flush of a record writes a zone head: nowhere, unless the zone is full. -/
def flushPlace (e : Env) (dataLen : Nat) : Option (Nat × Nat) :=
  let z := e.md.curr
  if z.wptr + sectorAlign dataLen / znsAligment ≥ z.sect + z.capacity then
    snapshotPlace { e with md := zrocksSwitchZone e.md z.sect }
  else none

/-- The numbers of the zone heads are below the next one. -/
structure HeadsBelow (m₀ : Metadata) (e : Env) : Prop where
  geo : MdGeometry e.md
  sect : ∀ i, (e.md.zone i).sect = (m₀.zone i).sect
  ptr : e.md.curr.sect ≤ e.md.curr.wptr
  below : ∀ i < 2, ∀ q, zoneSeq e.md i = some q → q < e.sequence

section

variable {m₀ : Metadata} {e e' : Env} {c : Nat}

theorem Metadata.sect_setCurr {m : Metadata} {media : Buf} {z : MetaZone}
    (hz : z.sect = m.curr.sect) (i : Nat) :
    ((m.setCurr media z c).zone i).sect = (m.zone i).sect := by
  by_cases hi : i = m.currZoneIndex
  · subst hi
    rw [show (m.setCurr media z c).zone m.currZoneIndex = z from update_self _ _ _]
    exact hz
  · rw [show (m.setCurr media z c).zone i = m.zone i from update_of_ne hi _ _]

theorem Metadata.sect_switched (m : Metadata) (i : Nat) :
    (m.switched.zone i).sect = (m.zone i).sect := by
  by_cases hi : i = 1 - m.currZoneIndex
  · subst hi
    rw [show m.switched.zone (1 - m.currZoneIndex) = _ from Metadata.curr_switched]
    rfl
  · rw [show m.switched.zone i = m.zone i from update_of_ne hi _ _]

/-- The two zones are the current one and the other one. -/
theorem forall_zones {k : Nat} (hk : k < 2) {p : Nat → Prop} (h : p k) (h' : p (1 - k)) :
    ∀ i < 2, p i := by
  intro i hi
  obtain rfl | rfl : i = k ∨ i = 1 - k := by omega
  · exact h
  · exact h'

theorem HeadsBelow.switched (h : HeadsBelow m₀ e) : HeadsBelow m₀ { e with md := e.md.switched } where
  geo := h.geo.switched
  sect := fun i => (e.md.sect_switched i).trans (h.sect i)
  ptr := by
    rw [Metadata.curr_switched]
  below := by
    obtain ⟨hnew, hold⟩ := h.geo.zoneSeq_switched
    refine forall_zones h.geo.curr (fun q hq => ?_) fun q hq => ?_
    · exact h.below _ h.geo.curr q (hold.symm.trans hq)
    · rw [show zoneSeq e.md.switched (1 - e.md.currZoneIndex) = none from hnew] at hq
      cases hq

theorem HeadsBelow.write (h : HeadsBelow m₀ e) {bytes : List UInt8} {k : Nat} {t : Table}
    {sequence : Nat} (hlen : bytes.length = znsAligment * k)
    (hroom : e.md.curr.wptr + k < e.md.curr.sect + e.md.curr.capacity) (hseq : e.sequence ≤ sequence)
    (hown : ∀ q, zoneSeq (e.md.setCurr (memcpy e.md.media (znsAligment * e.md.curr.wptr) bytes)
      { e.md.curr with wptr := e.md.curr.wptr + k } c) e.md.currZoneIndex = some q → q < sequence) :
    HeadsBelow m₀ { e with
      tbl := t
      sequence := sequence
      md := e.md.setCurr (memcpy e.md.media (znsAligment * e.md.curr.wptr) bytes)
        { e.md.curr with wptr := e.md.curr.wptr + k } c } where
  geo := h.geo.setCurr rfl rfl
  sect := fun i => (Metadata.sect_setCurr
    (z := { e.md.curr with wptr := e.md.curr.wptr + k }) rfl i).trans (h.sect i)
  ptr := by
    rw [Metadata.curr_setCurr]
    exact le_trans h.ptr (Nat.le_add_right _ _)
  below := by
    have hcurr := h.geo.curr
    refine forall_zones hcurr hown fun q hq => ?_
    have hother := h.geo.zoneSeq_other (c := c) (z := { e.md.curr with wptr := e.md.curr.wptr + k })
      h.ptr hlen hroom rfl
    exact lt_of_lt_of_le (h.below _ (by omega) q (hother.symm.trans hq)) hseq

/-- **A snapshot at the start of a zone is found again.** -/
theorem HeadsBelow.flush (h : HeadsBelow m₀ e) (hseq : e.sequence < 2 ^ 32)
    (hf : flushMetaData e = .ok (e', st))
    (hblank : e.md.curr.wptr = e.md.curr.sect ∨ e.md.curr.sect + e.md.curr.capacity
      ≤ e.md.curr.wptr + (1 + (Rec.base e.tbl.snapshot).sectors)) :
    HeadsBelow m₀ e' ∧ ∀ x ∈ headsOf (snapshotPlace e) e', x.Found m₀ := by
  obtain ⟨x, hacc⟩ := exists_layOut_of_flush hf
  have hmod : (e.sequence + 1) % 2 ^ 64 = e.sequence + 1 :=
    Nat.mod_eq_of_lt (lt_of_le_of_lt hseq (by decide))
  cases x with
  | none =>
    obtain ⟨hmd, hnext⟩ := flushMetaData_none hacc hf
    rw [hmod] at hnext
    have hplace : snapshotPlace e = none := by rw [snapshotPlace, hacc]
    refine ⟨⟨hmd ▸ h.geo, hmd ▸ h.sect, hmd ▸ h.ptr, fun i hi q hq => ?_⟩, ?_⟩
    · rw [hmd] at hq
      rw [hnext]
      exact Nat.lt_succ_of_lt (h.below i hi q hq)
    · rw [hplace]
      exact fun x hx => absurd hx not_mem_nil
  | some x =>
    have hs := (layOut_eq_some.mp hacc).1
    obtain ⟨m, c, hm, hplace, hroom, hnext, hmd⟩ := flushMetaData_some h.geo hs hf
    have hbelow : HeadsBelow m₀ { e with md := m } := by
      rcases hm with rfl | ⟨rfl, -⟩
      · exact h
      · exact h.switched
    have hstart : m.curr.wptr = m.curr.sect := by
      rcases hm with rfl | ⟨rfl, -⟩
      · exact hblank.resolve_right (Nat.not_le_of_lt hroom)
      · rw [Metadata.curr_switched]
    have hbytes : (zoneHeadBytes e.sequence ++ (Rec.base e.tbl.snapshot).bytes).length
        = znsAligment * (1 + (Rec.base e.tbl.snapshot).sectors) := by
      rw [length_append, zoneHeadBytes_length, Rec.bytes_length, Nat.mul_add, Nat.mul_one]
    generalize hk : 1 + (Rec.base e.tbl.snapshot).sectors = k at hbytes hroom hmd
    have hown : zoneSeq (m.setCurr (memcpy m.media (znsAligment * m.curr.wptr)
        (zoneHeadBytes e.sequence ++ (Rec.base e.tbl.snapshot).bytes))
        { m.curr with wptr := m.curr.wptr + k } c) m.currZoneIndex = some e.sequence := by
      refine zoneSeq_head hseq ?_
      rw [Metadata.sect_setCurr (z := { m.curr with wptr := m.curr.wptr + k }) rfl]
      rw [hstart]
      exact (at_append.mp At.self).1
    have hother := hbelow.geo.zoneSeq_other (c := c)
      (z := { m.curr with wptr := m.curr.wptr + k }) hbelow.ptr hbytes hroom rfl
    have hnew := hbelow.write (t := e'.tbl) (c := c) hbytes hroom (Nat.le_succ e.sequence)
      fun q hq => Option.some.inj (hown.symm.trans hq) ▸ Nat.lt_succ_self e.sequence
    refine ⟨⟨hmd ▸ hnew.geo, hmd ▸ hnew.sect, hmd ▸ hnew.ptr, ?_⟩, fun x hx => ?_⟩
    · rw [hmd, hnext, hmod]
      exact hnew.below
    · rw [hplace, headsOf, toList_some, map_singleton, mem_singleton] at hx
      subst hx
      refine ⟨hstart.trans (hbelow.sect _), ?_⟩
      rw [hmd]
      refine newestZone_of_lt hbelow.geo.curr hown fun q hq => ?_
      have hlt : 1 - m.currZoneIndex < 2 := lt_of_le_of_lt (Nat.sub_le 1 _) Nat.one_lt_two
      exact hbelow.below _ hlt q (hother.symm.trans hq)

theorem zrocksWriteFileMetadata_sector (buf : Buf) {m : Metadata}
    (hroom : m.curr.wptr + 1 < m.curr.sect + m.curr.capacity) :
    ∃ c, (¬ m.Patient ∧
        zrocksWriteFileMetadata m buf (znsAligment * 1) = ({ m with cmds := c }, mdWriteErr)) ∨
      zrocksWriteFileMetadata m buf (znsAligment * 1) = (m.setCurr
        (memcpy m.media (znsAligment * m.curr.wptr) (load buf 0 (znsAligment * 1)))
        { m.curr with wptr := m.curr.wptr + 1 } c, xztlOk) := by
  obtain ⟨c, h⟩ := metaWriteLoop_sector buf m.currZoneIndex (show 2 ≤ znsAligment * 1 by decide) m
  refine ⟨c, ?_⟩
  have hfit : ¬ (m.zone m.currZoneIndex).wptr + znsAligment * 1 / znsAligment
      ≥ (m.zone m.currZoneIndex).sect + (m.zone m.currZoneIndex).capacity := Nat.not_le_of_lt hroom
  rw [zrocksWriteFileMetadata, if_neg hfit]
  rcases h with ⟨hp, h⟩ | h
  · exact Or.inl ⟨hp, by rw [h]⟩
  · exact Or.inr (by rw [h]; rfl)

/-- **A record of one sector**: it is written behind the last one, or three commands fail, or a snapshot
is written in the other zone. -/
theorem flushRecord_fate (h : flushRecord e op buf znsAligment = .ok e')
    (hne : (e.md.zone 0).sect ≠ (e.md.zone 1).sect) (hi : e.md.currZoneIndex < 2)
    (hreset : e.Full → e.md.ok e.md.cmds = true) :
    ¬ e.Full ∧ (∃ c, ¬ e.md.Patient ∧ e' = { e with md := { e.md with cmds := c } } ∨ e' = { e with
        md := e.md.setCurr (memcpy e.md.media (znsAligment * e.md.curr.wptr)
            (load (memcpy buf 0 (headBytes op (znsAligment - metadataHeadLen))) 0 (znsAligment * 1)))
          { e.md.curr with wptr := e.md.curr.wptr + 1 } c }) ∨
      e.Full ∧ ∃ st, flushMetaData { e with md := e.md.switched } = .ok (e', st) := by
  rw [flushRecord, sectorAlign_one (by decide) (le_refl _)] at h
  by_cases hfull : e.Full
  · have hw := @zrocksWriteFileMetadata_full e.md
      (memcpy buf 0 (headBytes op (znsAligment - metadataHeadLen))) (hreset hfull) hne hi e.md.curr
      e.md.other rfl rfl 1 hfull
    rw [show znsAligment * 1 = znsAligment from rfl] at hw
    simp only [hw, if_true] at h
    obtain ⟨⟨e1, st⟩, hf, h⟩ := bind_eq_ok.mp h
    cases h
    exact Or.inr ⟨hfull, st, hf⟩
  · obtain ⟨c, hw⟩ := zrocksWriteFileMetadata_sector
      (memcpy buf 0 (headBytes op (znsAligment - metadataHeadLen))) (Nat.lt_of_not_le hfull)
    rw [show zrocksWriteFileMetadata e.md _ (znsAligment * 1)
      = zrocksWriteFileMetadata e.md _ znsAligment from rfl] at hw
    refine Or.inl ⟨hfull, c, ?_⟩
    rcases hw with ⟨hp, hw⟩ | hw
    · simp only [hw] at h
      cases h
      exact Or.inl ⟨hp, rfl⟩
    · simp only [hw] at h
      cases h
      exact Or.inr rfl

/-- Without failures it is written behind the last one, or a snapshot is written in the other zone. -/
theorem flushRecord_cases (hg : MdGeometry e.md) (h : flushRecord e op buf znsAligment = .ok e') :
    (e.md.curr.wptr + 1 < e.md.curr.sect + e.md.curr.capacity ∧ ∃ c, e' = { e with
        md := e.md.setCurr (memcpy e.md.media (znsAligment * e.md.curr.wptr)
            (load (memcpy buf 0 (headBytes op (znsAligment - metadataHeadLen))) 0 (znsAligment * 1)))
          { e.md.curr with wptr := e.md.curr.wptr + 1 } c }) ∨
      (e.md.curr.sect + e.md.curr.capacity ≤ e.md.curr.wptr + 1 ∧
        ∃ st, flushMetaData { e with md := e.md.switched } = .ok (e', st)) := by
  rcases flushRecord_fate h hg.ne hg.curr (fun _ => hg.ok _) with
    ⟨hroom, c, ⟨hp, -⟩ | he⟩ | hfull
  · exact absurd hg.ok.patient hp
  · exact Or.inl ⟨Nat.lt_of_not_le hroom, c, he⟩
  · exact Or.inr hfull

/-- A record's first byte, that of its checksum field, is not the magic. -/
theorem record_head {b : Buf} {a a' n : Nat} (h : a = a') :
    memcpy b (znsAligment * a') (load (memcpy buf 0 (headBytes op n)) 0 (znsAligment * 1))
      (znsAligment * a) = 0 := by
  subst h
  have hcopy : load (memcpy b (znsAligment * a)
      (load (memcpy buf 0 (headBytes op n)) 0 (znsAligment * 1))) (znsAligment * a + 0) 1
      = load (memcpy buf 0 (headBytes op n)) (0 + 0) 1 := load_memcpy_load (by decide)
  have hfirst : memcpy buf 0 (headBytes op n) (0 + 0) = 0 :=
    memcpy_of_lt (by rw [headBytes_length]; decide)
  exact (head_eq_of_cons_eq hcopy).trans hfirst

/-- **A flush keeps the zone heads where they are found.** -/
theorem HeadsBelow.flushRecord (h : HeadsBelow m₀ e) (hseq : e.sequence < 2 ^ 32)
    (hf : Xztl.flushRecord e op buf znsAligment = .ok e') :
    HeadsBelow m₀ e' ∧ ∀ x ∈ headsOf (flushPlace e znsAligment) e', x.Found m₀ := by
  have hdiv : sectorAlign znsAligment / znsAligment = 1 := by decide
  rcases flushRecord_cases h.geo hf with ⟨hroom, c, rfl⟩ | ⟨hfull, st, hf⟩
  · have hplace : flushPlace e znsAligment = none := by
      rw [flushPlace]
      simp only [hdiv, ge_iff_le, if_neg (Nat.not_le_of_lt hroom)]
    refine ⟨h.write load_length hroom (le_refl _) fun q hq => ?_, ?_⟩
    · rcases Nat.lt_or_eq_of_le h.ptr with hlt | heq
      · exact h.below _ h.geo.curr q ((zoneSeq_behind
          (z := { e.md.curr with wptr := e.md.curr.wptr + 1 }) hlt rfl).symm.trans hq)
      · -- a record in the first sector is not a zone head
        rw [zoneSeq_none] at hq
        · cases hq
        · rw [Metadata.sect_setCurr (z := { e.md.curr with wptr := e.md.curr.wptr + 1 }) rfl]
          exact record_head heq
    · rw [hplace]
      exact fun x hx => absurd hx not_mem_nil
  · have hplace : flushPlace e znsAligment = snapshotPlace { e with md := e.md.switched } := by
      rw [flushPlace]
      simp only [hdiv, ge_iff_le, if_pos hfull, h.geo.switchZone]
    rw [hplace]
    refine h.switched.flush hseq hf (Or.inl ?_)
    rw [Metadata.curr_switched]

theorem snapshotPlace_none (h : ¬ SnapOk e.tbl) : snapshotPlace e = none := by
  rw [snapshotPlace]
  split
  · exact absurd (layOut_eq_some.mp ‹_›).1 h
  · rfl

/-- What is marked as recorded has no part in where a snapshot goes. -/
theorem snapshotPlace_same {t : Table} (h : e.tbl.Same t) :
    snapshotPlace { e with tbl := t } = snapshotPlace e := by
  by_cases hs : SnapOk e.tbl
  · obtain ⟨buf, dataLen, hacc⟩ := hs.exists_layOut e.sequence
    have hacc' : layOut t e.sequence = .ok (some (buf, dataLen)) := by
      rw [layOut_eq_some, h.snapshot]
      exact ⟨hs.same h, (layOut_eq_some.mp hacc).2⟩
    rw [snapshotPlace, snapshotPlace]
    simp only [hacc, hacc']
  · rw [snapshotPlace_none hs]
    exact snapshotPlace_none fun hs' => hs (hs'.same h.symm)

/-- Where a writer writes a zone head. -/
def RecordWrite.place (e : Env) (w : RecordWrite) : Option (Nat × Nat) :=
  if w.dataLen e = 0 then none else flushPlace e (w.dataLen e)

/-- **A writer keeps the zone heads where they are found.** -/
theorem HeadsBelow.recordWrite (h : HeadsBelow m₀ e) (hseq : e.sequence < 2 ^ 32) {w : RecordWrite}
    (hrun : w.run e = .ok e') :
    HeadsBelow m₀ e' ∧ ∀ x ∈ headsOf (w.place e) e', x.Found m₀ := by
  obtain ⟨hlen, rfl⟩ | ⟨hlen, t, buf, hsame, hf⟩ := RecordWrite.run_cases hrun
  · rw [RecordWrite.place, if_pos hlen]
    exact ⟨h, fun x hx => absurd hx not_mem_nil⟩
  · have hplace : w.place e = flushPlace { e with tbl := t } znsAligment := by
      rw [RecordWrite.place, hlen, if_neg (by decide), flushPlace, flushPlace]
      have hsnap := snapshotPlace_same (e := { e with md := zrocksSwitchZone e.md e.md.curr.sect })
        hsame
      rw [← hsnap]
    rw [hplace]
    exact HeadsBelow.flushRecord (e := { e with tbl := t }) ⟨h.geo, h.sect, h.ptr, h.below⟩ hseq hf

end

/-! ### Runs of flushes behind a first load -/

/-- An environment, and the zone heads that have been written. -/
structure HeadRun where
  env : Env
  heads : List HeadWritten

/-- A flush of a record, with what has become of the table before. -/
structure FlushCall where
  tbl : Table
  write : RecordWrite

/-- The flush. -/
def HeadRun.step (s : HeadRun) (c : FlushCall) : Option HeadRun :=
  let e := { s.env with tbl := c.tbl }
  match c.write.run e with
  | .ok e' => some ⟨e', s.heads ++ headsOf (c.write.place e) e'⟩
  | .error _ => none

/-- The first `LoadMetaData`; it writes a snapshot when the records have been read. -/
def firstLoad (fuel : Nat) (e : Env) : Option HeadRun :=
  match replay fuel e, loadMetaData fuel e with
  | .ok (e', .ok), .ok (e₁, .ok) => some ⟨e₁, headsOf (snapshotPlace e') e₁⟩
  | _, _ => none

/-- The state of a run in which every zone head is found again. -/
def HeadRun.Inv (m₀ : Metadata) (s : HeadRun) : Prop :=
  HeadsBelow m₀ s.env ∧ ∀ x ∈ s.heads, x.Found m₀

section

variable {m₀ : Metadata} {s s' : HeadRun} {c : FlushCall} {e e' : Env} {fuel : Nat}

theorem HeadRun.step_eq_some : s.step c = some s' ↔
    c.write.run { s.env with tbl := c.tbl } = .ok s'.env ∧
      s'.heads = s.heads ++ headsOf (c.write.place { s.env with tbl := c.tbl }) s'.env := by
  rw [HeadRun.step]
  constructor
  · intro h
    cases hr : c.write.run { s.env with tbl := c.tbl } with
    | ok e' =>
      simp only [hr, Option.some.injEq] at h
      subst h
      exact ⟨rfl, rfl⟩
    | error x => simp only [hr, reduceCtorEq] at h
  · rintro ⟨hr, hh⟩
    simp only [hr, Option.some.injEq]
    rw [← hh]

theorem HeadRun.Inv.step (h : s.Inv m₀) (hseq : s.env.sequence < 2 ^ 32) (hs : s.step c = some s') :
    s'.Inv m₀ := by
  obtain ⟨hrun, hheads⟩ := HeadRun.step_eq_some.mp hs
  have hbelow : HeadsBelow m₀ { s.env with tbl := c.tbl } :=
    ⟨h.1.geo, h.1.sect, h.1.ptr, h.1.below⟩
  obtain ⟨hnew, hfound⟩ := hbelow.recordWrite hseq hrun
  refine ⟨hnew, fun x hx => ?_⟩
  rw [hheads, mem_append] at hx
  exact hx.elim (h.2 x) (hfound x)

theorem firstLoad_load (h : firstLoad fuel e = some s) : loadMetaData fuel e = .ok (s.env, .ok) := by
  rw [firstLoad] at h
  split at h
  · cases h
    assumption
  · cases h

theorem firstLoad_eq_some (h : firstLoad fuel e = some s) :
    ∃ e' st, replay fuel e = .ok (e', .ok) ∧ flushMetaData e' = .ok (s.env, st) ∧
      s.heads = headsOf (snapshotPlace e') s.env := by
  rw [firstLoad] at h
  split at h
  · rename_i e' e1 hr hl
    cases h
    rw [loadMetaData, hr] at hl
    obtain ⟨⟨e2, st⟩, hf, hl⟩ := bind_eq_ok.mp hl
    cases hf
    obtain ⟨⟨e2, st⟩, hf, hl⟩ := bind_eq_ok.mp hl
    cases hl
    exact ⟨e', st, hr, hf, rfl⟩
  · cases h

theorem newestZone_eq_none {m : Metadata} :
    newestZone m = none ↔ ∀ i < 2, zoneSeq m i = none := by
  rw [newestZone]
  constructor
  · intro h i hi
    obtain rfl | rfl : i = 0 ∨ i = 1 := by omega
    · cases h0 : zoneSeq m 0 with
      | none => rfl
      | some a => cases h1 : zoneSeq m 1 <;> simp only [h0, h1, reduceCtorEq] at h
    · cases h1 : zoneSeq m 1 with
      | none => rfl
      | some a => cases h0 : zoneSeq m 0 <;> simp only [h0, h1, reduceCtorEq] at h
  · intro h
    rw [h 0 (by decide), h 1 (by decide)]

/-- A write behind the first sector makes no zone head. -/
theorem MdGeometry.newestZone_behind {m : Metadata} {bytes : List UInt8} {k c : Nat} {z : MetaZone}
    (h : MdGeometry m) (hptr : m.curr.sect < m.curr.wptr) (hlen : bytes.length = znsAligment * k)
    (hroom : m.curr.wptr + k < m.curr.sect + m.curr.capacity) (hz : z.sect = m.curr.sect)
    (hnone : newestZone m = none) :
    newestZone (m.setCurr (memcpy m.media (znsAligment * m.curr.wptr) bytes) z c) = none := by
  have hno := newestZone_eq_none.mp hnone
  refine newestZone_eq_none.mpr (forall_zones h.curr ?_ ?_)
  · rw [zoneSeq_behind hptr hz]
    exact hno _ h.curr
  · rw [h.zoneSeq_other (le_of_lt hptr) hlen hroom hz]
    exact hno _ (lt_of_le_of_lt (Nat.sub_le 1 _) Nat.one_lt_two)

theorem newestZone_lt {m : Metadata} (h : newestZone m = some i) : i < 2 := by
  rw [newestZone] at h
  split at h
  · cases h
    split <;> decide
  · cases h
    decide
  · cases h
    decide
  · cases h

theorem zoneSeq_le_loaded (m : Metadata) (sequence : Nat) {q : Nat} (hi : i < 2)
    (h : zoneSeq m i = some q) : q ≤ loadedSeq m sequence := by
  rw [loadedSeq]
  obtain rfl | rfl : i = 0 ∨ i = 1 := by omega
  · rw [h, getD_some]
    exact le_max_of_le_right (le_max_left _ _)
  · rw [h, getD_some]
    exact le_max_left _ _

/-- The number behind those of the zones fits a zone head. -/
def NumbersLeft (m : Metadata) : Prop := ∀ i < 2, ∀ q, zoneSeq m i = some q → q + 1 < 2 ^ 32

theorem NumbersLeft.loaded {m : Metadata} (h : NumbersLeft m) : loadedSeq m 0 + 1 < 2 ^ 32 := by
  have hone : ∀ i < 2, (zoneSeq m i).getD 0 + 1 < 2 ^ 32 := by
    intro i hi
    cases hq : zoneSeq m i with
    | none => decide
    | some q => exact h i hi q hq
  have h0 := hone 0 (by decide)
  have h1 := hone 1 (by decide)
  rw [loadedSeq]
  omega

/-- **What loading leaves**: without a zone head the zones stay as they are, with one they are
switched. -/
theorem replay_cases (hg : MdGeometry e.md) (h : replay fuel e.restart = .ok (e', .ok)) :
    (newestZone e.md = none ∧ ∃ c, e' = { e.restart with md := { e.restart.md with cmds := c } }) ∨
      ∃ i c t, newestZone e.md = some i ∧ e' = { e.restart with
        tbl := t
        md := Metadata.switched { e.md with currZoneIndex := i, cmds := c }
        sequence := (loadedSeq e.md 0 + 1) % 2 ^ 64 } := by
  have hin : ∀ i < 2, (e.restart.md.zone i).sect < e.restart.md.nsect := fun i hi => hg.sect_lt hi
  cases hz : newestZone e.md with
  | none =>
    obtain ⟨c, hr⟩ := replay_none (e := e.restart) hg.ok hin hz
    have hseq : loadedSeq e.restart.md e.restart.sequence = 0 := by
      have hno := newestZone_eq_none.mp hz
      rw [loadedSeq]
      show max ((zoneSeq e.md 1).getD 0) (max ((zoneSeq e.md 0).getD 0) 0) = 0
      rw [hno 0 (by decide), hno 1 (by decide)]
      rfl
    rw [hr, hseq] at h
    cases h
    exact Or.inl ⟨rfl, c, rfl⟩
  | some i =>
    have hi := newestZone_lt hz
    obtain ⟨c, hr⟩ := replay_some (e := e.restart) hg.ok hin hz
    rw [hr] at h
    obtain ⟨⟨t, m, st⟩, hl, h⟩ := bind_eq_ok.mp h
    obtain ⟨c', rfl⟩ : ∃ c', m = { e.restart.md with cmds := c' } := replayLoop_md fuel hl
    split at h
    · cases h
    · have hsw := zrocksSwitchZone_ok (m := { e.restart.md with cmds := c' }) (hg.ok _) hg.ne hi
        (z := e.md.zone i) rfl rfl
      have hsw : zrocksSwitchZone { e.restart.md with cmds := c' } (e.restart.md.zone i).sect
          = Metadata.switched { e.md with currZoneIndex := i, cmds := c' } := hsw
      cases h
      refine Or.inr ⟨i, c', t, rfl, ?_⟩
      rw [← hsw]
      rfl

theorem getCurrMetadataZone_lt (m : Metadata) : getCurrMetadataZone m < 2 := by
  rw [getCurrMetadataZone]
  cases hf : (List.range metadataZoneNum).find? fun i =>
      (m.zone i).wptr < (m.zone i).sect + (m.zone i).capacity with
  | none => decide
  | some i => exact mem_range.mp (mem_of_find?_eq_some hf)

/-- The snapshot of the first load starts a zone: a zone head is found, or the current zone is empty
or has no room for the snapshot of no files. -/
def StartsAtHead (m : Metadata) : Prop :=
  newestZone m ≠ none ∨
    let z := m.zone (getCurrMetadataZone m)
    z.wptr = z.sect ∨ z.sect + z.capacity ≤ z.wptr + 2

instance (m : Metadata) : Decidable (StartsAtHead m) := inferInstanceAs (Decidable (_ ∨ _))

/-- **The records are read.**  The numbers of the zones are below the next one. -/
theorem HeadsBelow.loaded (hg : MdGeometry e.md)
    (hptr : ∀ i < 2, (e.md.zone i).sect ≤ (e.md.zone i).wptr) (hn : NumbersLeft e.md)
    (h : replay fuel e.restart = .ok (e', .ok)) :
    HeadsBelow e.md e' ∧ e'.sequence < 2 ^ 32 := by
  rcases replay_cases hg h with ⟨hz, c, rfl⟩ | ⟨i, c, t, hz, rfl⟩
  · have hno := newestZone_eq_none.mp hz
    refine ⟨⟨?_, fun _ => rfl, hptr _ (getCurrMetadataZone_lt e.md), fun i hi q hq => ?_⟩,
      show 0 < 2 ^ 32 by decide⟩
    · exact ⟨hg.ok, getCurrMetadataZone_lt e.md, hg.disj, hg.cap, hg.inside⟩
    · have hq : zoneSeq e.md i = some q := hq
      rw [hno i hi] at hq
      cases hq
  · have hi := newestZone_lt hz
    have hseq := hn.loaded
    have hmod : (loadedSeq e.md 0 + 1) % 2 ^ 64 = loadedSeq e.md 0 + 1 :=
      Nat.mod_eq_of_lt (lt_trans hseq (by decide))
    rw [hmod]
    have hbefore : HeadsBelow e.md { e.restart with
        tbl := t
        md := { e.md with currZoneIndex := i, cmds := c }
        sequence := loadedSeq e.md 0 + 1 } := by
      refine ⟨⟨hg.ok, hi, hg.disj, hg.cap, hg.inside⟩, fun _ => rfl, hptr i hi, fun j hj q hq => ?_⟩
      exact Nat.lt_succ_of_le (zoneSeq_le_loaded e.md 0 hj hq)
    exact ⟨hbefore.switched, hseq⟩

theorem sectors_empty : 1 + (Rec.base Table.empty.snapshot).sectors = 2 := by decide

section

variable (hg : MdGeometry e.md) (hptr : ∀ i < 2, (e.md.zone i).sect ≤ (e.md.zone i).wptr)
include hg hptr

/-- **The snapshot of the first load.** -/
theorem firstLoad_found (hn : NumbersLeft e.md) (h : firstLoad fuel e.restart = some s)
    (hstart : StartsAtHead e.md) : s.Inv e.md := by
  obtain ⟨e', st, hr, hf, hheads⟩ := firstLoad_eq_some h
  obtain ⟨hbelow, hseq⟩ := HeadsBelow.loaded hg hptr hn hr
  have hblank : e'.md.curr.wptr = e'.md.curr.sect ∨ e'.md.curr.sect + e'.md.curr.capacity
      ≤ e'.md.curr.wptr + (1 + (Rec.base e'.tbl.snapshot).sectors) := by
    rcases replay_cases hg hr with ⟨hz, c, rfl⟩ | ⟨i, c, t, hz, rfl⟩
    · rw [show 1 + (Rec.base e.restart.tbl.snapshot).sectors = 2 from sectors_empty]
      exact hstart.resolve_left fun hne => hne hz
    · left
      rw [Metadata.curr_switched]
  rw [HeadRun.Inv, hheads]
  exact hbelow.flush hseq hf hblank

/-- Otherwise its zone head is not at the start of the zone, and the next load finds no head. -/
theorem firstLoad_lost (h : firstLoad fuel e.restart = some s) (hstart : ¬ StartsAtHead e.md) :
    ∃ x ∈ s.heads, x.sector ≠ (e.md.zone x.zone).sect ∧ x.newest = none := by
  obtain ⟨e', st, hr, hf, hheads⟩ := firstLoad_eq_some h
  rw [StartsAtHead, not_or, not_not] at hstart
  obtain ⟨hz, hstart⟩ := hstart
  simp only [not_or, not_le] at hstart
  have hcurr := getCurrMetadataZone_lt e.md
  rcases replay_cases hg hr with ⟨-, c, rfl⟩ | ⟨i, c, t, hz', -⟩
  · have hg' : MdGeometry { e.restart.md with cmds := c } :=
      ⟨hg.ok, hcurr, hg.disj, hg.cap, hg.inside⟩
    obtain ⟨m, c', hm, hplace, hroom, -, hmd⟩ := flushMetaData_some hg' SnapOk.empty hf
    have hlen : (zoneHeadBytes e.restart.sequence
        ++ (Rec.base e.restart.tbl.snapshot).bytes).length
        = znsAligment * (1 + (Rec.base e.restart.tbl.snapshot).sectors) := by
      rw [length_append, zoneHeadBytes_length, Rec.bytes_length, Nat.mul_add, Nat.mul_one]
    rw [show 1 + (Rec.base e.restart.tbl.snapshot).sectors = 2 from sectors_empty] at *
    obtain rfl : m = { e.restart.md with cmds := c } :=
      hm.resolve_right fun hfull => Nat.not_le_of_lt hstart.2 hfull.2
    have hbehind : (e.md.zone (getCurrMetadataZone e.md)).sect
        < (e.md.zone (getCurrMetadataZone e.md)).wptr :=
      lt_of_le_of_ne (hptr _ hcurr) fun heq => hstart.1 heq.symm
    have hnone : newestZone s.env.md = none := by
      rw [hmd]
      exact hg'.newestZone_behind hbehind hlen hroom rfl hz
    refine ⟨⟨getCurrMetadataZone e.md, (e.md.zone (getCurrMetadataZone e.md)).wptr,
      newestZone s.env.md⟩, ?_, hstart.1, hnone⟩
    rw [hheads, hplace, headsOf, toList_some, map_singleton, mem_singleton]
    rfl
  · rw [hz] at hz'
    cases hz'

end

/-- Without a zone head the first load comes to its end. -/
theorem exists_firstLoad (hg : MdGeometry e.md) (hz : newestZone e.md = none) (fuel : Nat) :
    ∃ s, firstLoad fuel e.restart = some s := by
  obtain ⟨c, hr⟩ := replay_none (e := e.restart) hg.ok (fun i hi => hg.sect_lt hi) hz
  obtain ⟨buf, dataLen, hacc⟩ := SnapOk.empty.exists_layOut (loadedSeq e.restart.md e.restart.sequence)
  obtain ⟨t, hf⟩ := flushMetaData_layOut (e := { e.restart with
    md := { e.restart.md with cmds := c }
    sequence := loadedSeq e.restart.md e.restart.sequence }) hacc
  have hl : ∃ e1, loadMetaData fuel e.restart = .ok (e1, .ok) := by
    rw [loadMetaData, hr fuel]
    simp only [bind, Except.bind]
    rw [if_neg (by simp)]
    exact ⟨_, rfl⟩
  obtain ⟨e1, hl⟩ := hl
  rw [firstLoad, hr fuel]
  simp only [hl]
  exact ⟨_, rfl⟩

theorem HeadRun.heads_step (hs : s.step c = some s') : ∀ x ∈ s.heads, x ∈ s'.heads := by
  obtain ⟨-, hheads⟩ := HeadRun.step_eq_some.mp hs
  intro x hx
  rw [hheads]
  exact mem_append_left _ hx

end

/-- **Snapshots are found again** exactly when the first one starts a zone: every zone head, that of
the first load and those of every run of flushes behind it, is at the first sector of its zone, and
that zone is the newest one, as long as the numbers of the snapshots fit 32 bits. -/
theorem snapshots_found_iff {e : Env} {fuel : Nat} {s₀ s : HeadRun} {as : List FlushCall}
    (hg : MdGeometry e.md) (hptr : ∀ i < 2, (e.md.zone i).sect ≤ (e.md.zone i).wptr)
    (hn : NumbersLeft e.md) (h₀ : firstLoad fuel e.restart = some s₀)
    (h : Runs HeadRun.step (fun s _ => s.env.sequence < 2 ^ 32) s₀ as s) :
    (∀ x ∈ s.heads, x.Found e.md) ↔ StartsAtHead e.md := by
  constructor
  · intro hfound
    by_contra hstart
    obtain ⟨x, hx, hlost, -⟩ := firstLoad_lost hg hptr h₀ hstart
    have hmem : x ∈ s.heads := Runs.invariant (I := fun s : HeadRun => x ∈ s.heads)
      (fun s c s' hx _ hs => HeadRun.heads_step hs x hx) h hx
    exact hlost (hfound x hmem).1
  · intro hstart
    have hinv : s.Inv e.md := Runs.invariant (I := HeadRun.Inv e.md)
      (fun s c s' hi hseq hs => hi.step hseq hs) h (firstLoad_found hg hptr hn h₀ hstart)
    exact hinv.2

/-- Empty zones, and a record behind the first snapshot. -/
theorem snapshots_found_fresh : ∃ s₀ s, firstLoad 0 (Env.fresh smallMd).restart = some s₀ ∧
    Runs HeadRun.step (fun s _ => s.env.sequence < 2 ^ 32) s₀ [⟨.empty, .delete nameA⟩] s ∧
    ∀ x ∈ s.heads, x.Found (Env.fresh smallMd).md := by
  have hg := Metadata.fresh_geometry smallMd
  have hz : newestZone (Env.fresh smallMd).md = none := by decide
  obtain ⟨s₀, h₀⟩ := exists_firstLoad (e := Env.fresh smallMd) hg hz 0
  have hlogged : Logged s₀.env 0 [.base []] := by
    obtain ⟨e, hl, -, hlog, -⟩ := load_fresh smallMd 0
    have hl' : loadMetaData 0 (Env.fresh smallMd) = .ok (s₀.env, .ok) := firstLoad_load h₀
    rw [hl] at hl'
    cases hl'
    exact hlog
  obtain ⟨e', _, _, hdel, -⟩ := (hlogged.setTbl .empty).flushDel (n := nameA)
    (show 1 ≤ fileNameLen by decide) SnapOk.empty
  have hstep : s₀.step ⟨.empty, .delete nameA⟩ = some ⟨e', s₀.heads
      ++ headsOf ((RecordWrite.delete nameA).place { s₀.env with tbl := .empty }) e'⟩ :=
    HeadRun.step_eq_some.mpr ⟨hdel, rfl⟩
  have hseq : s₀.env.sequence < 2 ^ 32 := by
    rw [hlogged.sequence]
    decide
  have hrun := Runs.one (G := fun s _ => s.env.sequence < 2 ^ 32) hseq hstep
  refine ⟨s₀, _, h₀, hrun, (snapshots_found_iff hg (fun i _ => le_refl _) ?_ h₀ hrun).mpr ?_⟩
  · intro i hi q hq
    rw [newestZone_eq_none.mp hz i hi] at hq
    cases hq
  · decide

/-- Write pointers have no part in the geometry. -/
theorem MdGeometry.setWptr {m : Metadata} (h : MdGeometry m) (wptr : Nat → Nat) :
    MdGeometry { m with zone := fun i => { m.zone i with wptr := wptr i } } :=
  ⟨h.ok, h.curr, h.disj, h.cap, h.inside⟩

/-- Zones whose first sector is written and is no zone head. -/
def strayZone : Env :=
  { Env.fresh smallMd with
    md := { Metadata.fresh smallMd with
      zone := fun i =>
        { (Metadata.fresh smallMd).zone i with wptr := ((Metadata.fresh smallMd).zone i).sect + 1 } } }

/-- **A snapshot that is lost.**  The first load finds no zone head and the current zone is not empty:
its snapshot goes behind what is there, and the next load finds nothing. -/
theorem snapshots_lost : MdGeometry strayZone.md ∧
    (∀ i < 2, (strayZone.md.zone i).sect ≤ (strayZone.md.zone i).wptr ∧
      (strayZone.md.zone i).wptr ≤ (strayZone.md.zone i).sect + (strayZone.md.zone i).capacity) ∧
    ∃ s, firstLoad 0 strayZone.restart = some s ∧
      ∃ x ∈ s.heads, x.sector ≠ (strayZone.md.zone x.zone).sect ∧ x.newest = none := by
  have hg : MdGeometry strayZone.md := (Metadata.fresh_geometry smallMd).setWptr _
  have hptr : ∀ i < 2, (strayZone.md.zone i).sect ≤ (strayZone.md.zone i).wptr :=
    fun i _ => Nat.le_succ _
  have hz : newestZone strayZone.md = none := by decide
  obtain ⟨s, hs⟩ := exists_firstLoad hg hz 0
  refine ⟨hg, fun i hi => ⟨hptr i hi, ?_⟩, s, hs, firstLoad_lost hg hptr hs ?_⟩
  · exact Nat.add_le_add_left (show 1 ≤ 20482 by decide) _
  · decide

end Xztl
