import Mathlib
import Xztl.Ztl.NodeInit

/-!
# Ztl — the geometry and the addresses of zones

`xztl_media_check` compares each field of a device's geometry with a limit of its own and then
multiplies them, most of them in 32 bits.  `ztl_zmd_create` packs a zone's group, number and first
sector in the 5, 20 and 36 bits of `struct xztl_maddr`, and `znd_media_zone_manage` computes the
first sector again from the group and the number.

**No limit of the check bounds a product**, so three groups of geometries are set apart:

* `derived_exact_iff`: where the calculated fields are the products;
* `packed_iff`: where an address gives back the zone it was made for;
* `managed_iff`: where a management command goes to the first sector of its zone.

The fields have the widths of the source: `UInt32` and `UInt64` for the integers, bit vectors for
the bit fields.
-/

namespace Xztl

/-! ### The check of the geometry -/

/-- `XZTL_MEDIA_MAX_GRP`. -/
def xztlMediaMaxGrp : UInt32 := 128

/-- `XZTL_MEDIA_MAX_PUGRP`. -/
def xztlMediaMaxPugrp : UInt32 := 8

/-- `XZTL_MEDIA_MAX_ZNPU`. -/
def xztlMediaMaxZnpu : UInt32 := 8388608

/-- `XZTL_MEDIA_MAX_SECZN`. -/
def xztlMediaMaxSeczn : UInt32 := 8388608

/-- `XZTL_MEDIA_MAX_SECSZ`. -/
def xztlMediaMaxSecsz : UInt32 := 1048576

/-- `XZTL_MEDIA_MAX_OOBSZ`. -/
def xztlMediaMaxOobsz : UInt32 := 128

/-- `struct xztl_mgeo`. -/
structure Mgeo where
  ngrps : UInt32
  puGrp : UInt32
  znPu : UInt32
  secZn : UInt32
  nbytes : UInt32
  nbytesOob : UInt32
  -- calculated values
  znDev : UInt32 := 0
  znGrp : UInt32 := 0
  secDev : UInt32 := 0
  secGrp : UInt32 := 0
  secPu : UInt32 := 0
  nbytesZn : UInt64 := 0
  nbytesGrp : UInt64 := 0
  oobGrp : UInt32 := 0
  oobPu : UInt32 := 0
  oobZn : UInt32 := 0
deriving DecidableEq, Repr

/-- The part of `struct xztl_media` that the check reads: which functions are set, and the
geometry. -/
structure Media where
  initFn : Bool
  exitFn : Bool
  submitIo : Bool
  zoneFn : Bool
  dmaAlloc : Bool
  dmaFree : Bool
  geo : Mgeo
deriving DecidableEq, Repr

/-- The errors of the check: `XZTL_NOINIT`, `XZTL_NOEXIT`, `XZTL_MEDIA_NOIO`, `XZTL_MEDIA_NOZONE`,
`XZTL_MEDIA_NOALLOC`, `XZTL_MEDIA_NOFREE`, `XZTL_MEDIA_GEO`. -/
inductive MediaErr where
  | noinit | noexit | noio | nozone | noalloc | nofree | geo
deriving DecidableEq, Repr

/-- The limits of `xztl_media_check`. -/
def Mgeo.Limits (g : Mgeo) : Prop :=
  ¬ (g.ngrps = 0 ∨ g.ngrps > xztlMediaMaxGrp ∨ g.puGrp = 0 ∨ g.puGrp > xztlMediaMaxPugrp ∨
    g.znPu = 0 ∨ g.znPu > xztlMediaMaxZnpu ∨ g.secZn = 0 ∨ g.secZn > xztlMediaMaxSeczn ∨
    g.nbytes = 0 ∨ g.nbytes > xztlMediaMaxSecsz ∨ g.nbytesOob > xztlMediaMaxOobsz)

instance (g : Mgeo) : Decidable g.Limits := by
  unfold Mgeo.Limits
  infer_instance

/-- The fields `xztl_media_check` fills in, in its order. -/
def Mgeo.fill (g : Mgeo) : Mgeo :=
  let g := { g with znGrp := g.puGrp * g.znPu }
  let g := { g with znDev := g.znGrp * g.ngrps }
  let g := { g with secGrp := g.znGrp * g.secZn }
  let g := { g with secPu := g.znPu * g.secZn }
  let g := { g with secDev := g.secGrp * g.ngrps }
  let g := { g with nbytesZn := (g.nbytes * g.secZn).toUInt64 * 1 }
  let g := { g with nbytesGrp := g.nbytesZn * g.znGrp.toUInt64 }
  let g := { g with oobGrp := g.secGrp * g.nbytesOob }
  let g := { g with oobPu := g.secPu * g.nbytesOob }
  { g with oobZn := g.secZn * g.nbytesOob }

/-- `xztl_media_check`, with the geometry it leaves. -/
def xztlMediaCheck (m : Media) : Except MediaErr Mgeo :=
  if !m.initFn then .error .noinit
  else if !m.exitFn then .error .noexit
  else if !m.submitIo then .error .noio
  else if !m.zoneFn then .error .nozone
  else if !m.dmaAlloc then .error .noalloc
  else if !m.dmaFree then .error .nofree
  else if ¬ m.geo.Limits then .error .geo
  else .ok m.geo.fill

theorem xztlMediaCheck_ok {m : Media} {g : Mgeo} (h : xztlMediaCheck m = .ok g) :
    m.geo.Limits ∧ g = m.geo.fill := by
  unfold xztlMediaCheck at h
  split_ifs at h with h1 h2 h3 h4 h5 h6 h7
  cases h
  exact ⟨h7, rfl⟩

/-- The limits as numbers. -/
structure Mgeo.Bounded (g : Mgeo) : Prop where
  ngrps : 0 < g.ngrps.toNat ∧ g.ngrps.toNat ≤ 2 ^ 7
  puGrp : 0 < g.puGrp.toNat ∧ g.puGrp.toNat ≤ 2 ^ 3
  znPu : 0 < g.znPu.toNat ∧ g.znPu.toNat ≤ 2 ^ 23
  secZn : 0 < g.secZn.toNat ∧ g.secZn.toNat ≤ 2 ^ 23
  nbytes : 0 < g.nbytes.toNat ∧ g.nbytes.toNat ≤ 2 ^ 20
  nbytesOob : g.nbytesOob.toNat ≤ 2 ^ 7

theorem Mgeo.Limits.bounded {g : Mgeo} (h : g.Limits) : g.Bounded := by
  unfold Mgeo.Limits xztlMediaMaxGrp xztlMediaMaxPugrp xztlMediaMaxZnpu xztlMediaMaxSeczn
    xztlMediaMaxSecsz xztlMediaMaxOobsz at h
  simp only [not_or, gt_iff_lt, UInt32.lt_iff_toNat_lt, ← UInt32.toNat_inj, not_lt] at h
  obtain ⟨h1, h2, h3, h4, h5, h6, h7, h8, h9, h10, h11⟩ := h
  exact ⟨⟨Nat.pos_of_ne_zero h1, h2⟩, ⟨Nat.pos_of_ne_zero h3, h4⟩, ⟨Nat.pos_of_ne_zero h5, h6⟩,
    ⟨Nat.pos_of_ne_zero h7, h8⟩, ⟨Nat.pos_of_ne_zero h9, h10⟩, h11⟩

/-! ### The device -/

/-- The geometry that xNVMe reports: 32-bit counts of groups, units and zones, and a 64-bit count
of sectors. -/
structure DevGeo where
  npugrp : UInt32
  npunit : UInt32
  nzone : UInt32
  nsect : UInt64
  nbytes : UInt32
  nbytesOob : UInt32
deriving DecidableEq, Repr

/-- The media that `znd_media_register` hands to `xztl_media_set`: every function is set, and the
sectors of a zone are taken in 32 bits. -/
def zndMediaRegister (d : DevGeo) : Media where
  initFn := true
  exitFn := true
  submitIo := true
  zoneFn := true
  dmaAlloc := true
  dmaFree := true
  geo :=
    { ngrps := d.npugrp
      puGrp := d.npunit
      znPu := d.nzone
      secZn := d.nsect.toUInt32
      nbytes := d.nbytes
      nbytesOob := d.nbytesOob }

/-- A device with one group and one unit, as xNVMe reports a zoned namespace. -/
def DevGeo.zoned (nzone : UInt32) (nsect : UInt64) (nbytes : UInt32) : DevGeo :=
  ⟨1, 1, nzone, nsect, nbytes, 0⟩

/-! ### The calculated fields -/

/-- Each calculated field is the product it stands for, computed without a bound. -/
structure Mgeo.Exact (g : Mgeo) : Prop where
  znGrp : g.znGrp.toNat = g.puGrp.toNat * g.znPu.toNat
  znDev : g.znDev.toNat = g.puGrp.toNat * g.znPu.toNat * g.ngrps.toNat
  secGrp : g.secGrp.toNat = g.puGrp.toNat * g.znPu.toNat * g.secZn.toNat
  secPu : g.secPu.toNat = g.znPu.toNat * g.secZn.toNat
  secDev : g.secDev.toNat = g.puGrp.toNat * g.znPu.toNat * g.secZn.toNat * g.ngrps.toNat
  nbytesZn : g.nbytesZn.toNat = g.nbytes.toNat * g.secZn.toNat
  nbytesGrp : g.nbytesGrp.toNat
    = g.nbytes.toNat * g.secZn.toNat * (g.puGrp.toNat * g.znPu.toNat)
  oobGrp : g.oobGrp.toNat
    = g.puGrp.toNat * g.znPu.toNat * g.secZn.toNat * g.nbytesOob.toNat
  oobPu : g.oobPu.toNat = g.znPu.toNat * g.secZn.toNat * g.nbytesOob.toNat
  oobZn : g.oobZn.toNat = g.secZn.toNat * g.nbytesOob.toNat

/-- The sectors of the device, the bytes of a zone and the out-of-band bytes of a group can be
counted in 32 bits. -/
def Mgeo.Fits (g : Mgeo) : Prop :=
  g.puGrp.toNat * g.znPu.toNat * g.secZn.toNat * g.ngrps.toNat < 2 ^ 32 ∧
    g.nbytes.toNat * g.secZn.toNat < 2 ^ 32 ∧
    g.puGrp.toNat * g.znPu.toNat * g.secZn.toNat * g.nbytesOob.toNat < 2 ^ 32

instance (g : Mgeo) : Decidable g.Fits := by
  unfold Mgeo.Fits
  infer_instance

/-- A 32-bit product of two numbers, where it fits. -/
theorem toNat_mul_of_lt {a b : UInt32} {x y : Nat} (ha : a.toNat = x) (hb : b.toNat = y)
    (h : x * y < 2 ^ 32) : (a * b).toNat = x * y := by
  rw [UInt32.toNat_mul, ha, hb, Nat.mod_eq_of_lt h]

namespace Mgeo.Bounded
variable {g : Mgeo}

/-- The zones of a group are the one product that the limits bound. -/
theorem znGrp_lt (hb : g.Bounded) : g.puGrp.toNat * g.znPu.toNat ≤ 2 ^ 26 :=
  (Nat.mul_le_mul hb.puGrp.2 hb.znPu.2).trans (by norm_num)

theorem znGrp_pos (hb : g.Bounded) : 0 < g.puGrp.toNat * g.znPu.toNat :=
  Nat.mul_pos hb.puGrp.1 hb.znPu.1

theorem fill_znGrp (hb : g.Bounded) : g.fill.znGrp.toNat = g.puGrp.toNat * g.znPu.toNat :=
  toNat_mul_of_lt rfl rfl (lt_of_le_of_lt hb.znGrp_lt (by norm_num))

theorem fill_secGrp (hb : g.Bounded) :
    g.fill.secGrp.toNat = g.puGrp.toNat * g.znPu.toNat * g.secZn.toNat % 2 ^ 32 := by
  show (g.fill.znGrp * g.secZn).toNat = _
  rw [UInt32.toNat_mul, hb.fill_znGrp]

theorem fill_exact (hb : g.Bounded) (hf : g.Fits) : g.fill.Exact := by
  obtain ⟨hdev, hzn, hoob⟩ := hf
  have hgrp : g.puGrp.toNat * g.znPu.toNat * g.secZn.toNat < 2 ^ 32 :=
    lt_of_le_of_lt (Nat.le_mul_of_pos_right _ hb.ngrps.1) hdev
  have hpu : g.znPu.toNat * g.secZn.toNat ≤ g.puGrp.toNat * g.znPu.toNat * g.secZn.toNat := by
    rw [Nat.mul_assoc]
    exact Nat.le_mul_of_pos_left _ hb.puGrp.1
  have hsz : g.secZn.toNat ≤ g.znPu.toNat * g.secZn.toNat := Nat.le_mul_of_pos_left _ hb.znPu.1
  have hzdev : g.puGrp.toNat * g.znPu.toNat * g.ngrps.toNat < 2 ^ 32 := by
    refine lt_of_le_of_lt (Nat.mul_le_mul_right _ ?_) hdev
    exact Nat.le_mul_of_pos_right _ hb.secZn.1
  have esecGrp : g.fill.secGrp.toNat = g.puGrp.toNat * g.znPu.toNat * g.secZn.toNat := by
    rw [hb.fill_secGrp, Nat.mod_eq_of_lt hgrp]
  have esecPu : g.fill.secPu.toNat = g.znPu.toNat * g.secZn.toNat :=
    toNat_mul_of_lt rfl rfl (lt_of_le_of_lt hpu hgrp)
  have enbytesZn : g.fill.nbytesZn.toNat = g.nbytes.toNat * g.secZn.toNat := by
    show ((g.nbytes * g.secZn).toUInt64 * 1).toNat = _
    rw [UInt64.mul_one, UInt32.toNat_toUInt64, toNat_mul_of_lt rfl rfl hzn]
  refine ⟨hb.fill_znGrp, ?_, esecGrp, esecPu, ?_, enbytesZn, ?_, ?_, ?_, ?_⟩
  · exact toNat_mul_of_lt (a := g.fill.znGrp) hb.fill_znGrp rfl hzdev
  · exact toNat_mul_of_lt (a := g.fill.secGrp) esecGrp rfl hdev
  · show (g.fill.nbytesZn * g.fill.znGrp.toUInt64).toNat = _
    rw [UInt64.toNat_mul, UInt32.toNat_toUInt64, enbytesZn, hb.fill_znGrp]
    refine Nat.mod_eq_of_lt (lt_of_le_of_lt (Nat.mul_le_mul hzn.le hb.znGrp_lt) (by norm_num))
  · exact toNat_mul_of_lt (a := g.fill.secGrp) esecGrp rfl hoob
  · exact toNat_mul_of_lt (a := g.fill.secPu) esecPu rfl
      (lt_of_le_of_lt (Nat.mul_le_mul_right _ hpu) hoob)
  · exact toNat_mul_of_lt rfl rfl
      (lt_of_le_of_lt (Nat.mul_le_mul_right _ (hsz.trans hpu)) hoob)

end Mgeo.Bounded

/-- A field cannot hold a product that does not fit. -/
theorem Mgeo.Exact.fits {g : Mgeo} (h : g.fill.Exact) : g.Fits := by
  refine ⟨?_, ?_, ?_⟩
  · exact lt_of_eq_of_lt h.secDev.symm g.fill.secDev.toNat_lt
  · have hz : g.fill.nbytesZn.toNat = (g.nbytes * g.secZn).toNat := by
      show ((g.nbytes * g.secZn).toUInt64 * 1).toNat = _
      rw [UInt64.mul_one, UInt32.toNat_toUInt64]
    exact lt_of_eq_of_lt (h.nbytesZn.symm.trans hz) (g.nbytes * g.secZn).toNat_lt
  · exact lt_of_eq_of_lt h.oobGrp.symm g.fill.oobGrp.toNat_lt

/-- **The calculated fields of an accepted geometry are exact precisely where they fit.** -/
theorem derived_exact_iff {m : Media} {g : Mgeo} (h : xztlMediaCheck m = .ok g) :
    g.Exact ↔ m.geo.Fits := by
  obtain ⟨hl, rfl⟩ := xztlMediaCheck_ok h
  exact ⟨Mgeo.Exact.fits, hl.bounded.fill_exact⟩

/-- A device of 4096 zones of 96 MiB. -/
theorem derived_exact_iff_zoned :
    (zndMediaRegister (.zoned 4096 24576 4096)).geo.Fits ∧
      (zndMediaRegister (.zoned 4096 24576 4096)).geo.fill.Exact :=
  ⟨by decide, (derived_exact_iff (m := zndMediaRegister (.zoned 4096 24576 4096)) rfl).mpr
    (by decide)⟩

/-- **A device of 8192 zones of 2 GiB is accepted**, and has no sectors. -/
theorem derived_wraps :
    ∃ g, xztlMediaCheck (zndMediaRegister (.zoned 8192 524288 4096)) = .ok g ∧ g.secGrp = 0 ∧
      g.secDev = 0 ∧ ¬ g.Exact := by
  refine ⟨(zndMediaRegister (.zoned 8192 524288 4096)).geo.fill, rfl, by decide, by decide, ?_⟩
  intro h
  have hf := h.fits
  revert hf
  decide

/-! ### The address of a zone -/

/-- The word `addr` of the union. -/
def Maddr.addr (a : Maddr) : BitVec 64 := a.sect ++ a.zone ++ a.punit ++ a.grp

/-- The fields `g` of the union that has this word. -/
def Maddr.ofAddr (w : BitVec 64) : Maddr where
  grp := w.extractLsb' 0 5
  punit := w.extractLsb' 5 3
  zone := w.extractLsb' 8 20
  sect := w.extractLsb' 28 36

/-- The two members of the union are views of one value. -/
theorem Maddr.ofAddr_addr (a : Maddr) : Maddr.ofAddr a.addr = a := by
  ext i hi <;> simp [Maddr.ofAddr, Maddr.addr] <;> grind

/-- The entry of zone `znI` on a device of this geometry. -/
def zmdEntry (g : Mgeo) (id : UInt16) (znI : UInt64) : ZmdRecord := zmdFill g.secGrp g.secZn id znI

/-- `ztl_zmd_create`: the table of the group has an entry for each of its zones
(`zmd->entries = g->zn_grp`). -/
def Mgeo.ztlZmdCreate (g : Mgeo) (id : UInt16) : List ZmdRecord :=
  (List.range g.znGrp.toNat).map fun znI => zmdEntry g id (UInt64.ofNat znI)

theorem zmdTable_getElem? {g : Mgeo} {id : UInt16} {z : Nat} (hz : z < g.znGrp.toNat) :
    (g.ztlZmdCreate id)[z]? = some (zmdEntry g id (UInt64.ofNat z)) := by
  unfold Mgeo.ztlZmdCreate
  rw [List.getElem?_map, List.getElem?_range hz]
  rfl

theorem zmdTable_eq_some {g : Mgeo} {id : UInt16} {z : Nat} {e : ZmdRecord}
    (h : (g.ztlZmdCreate id)[z]? = some e) :
    z < g.znGrp.toNat ∧ e = zmdEntry g id (UInt64.ofNat z) := by
  have hz : z < g.znGrp.toNat := by
    have hl := (List.getElem?_eq_some_iff.mp h).1
    simpa only [Mgeo.ztlZmdCreate, List.length_map, List.length_range] using hl
  exact ⟨hz, Option.some.inj (h.symm.trans (zmdTable_getElem? hz))⟩

/-- The sectors of the zone that an entry stands for. -/
def ZmdRecord.sectors (e : ZmdRecord) (g : Mgeo) : Set Nat :=
  Set.Ico e.addr.sect.toNat (e.addr.sect.toNat + g.secZn.toNat)

/-- The word of an entry gives back the zone it was made for, and zones have words and sectors of
their own. -/
structure Mgeo.Packs (g : Mgeo) : Prop where
  decode : ∀ i < g.ngrps.toNat, ∀ z < g.znGrp.toNat,
    ∃ e, (g.ztlZmdCreate (.ofNat i))[z]? = some e ∧
      (Maddr.ofAddr e.addr.addr).grp.toNat = i ∧
      (Maddr.ofAddr e.addr.addr).zone.toNat = z ∧
      (Maddr.ofAddr e.addr.addr).sect.toNat = (i * g.znGrp.toNat + z) * g.secZn.toNat
  distinct : ∀ i < g.ngrps.toNat, ∀ j < g.ngrps.toNat, ∀ {z w : Nat} {e f : ZmdRecord},
    (g.ztlZmdCreate (.ofNat i))[z]? = some e → (g.ztlZmdCreate (.ofNat j))[w]? = some f →
    (i, z) ≠ (j, w) → e.addr.addr ≠ f.addr.addr ∧ Disjoint (e.sectors g) (f.sectors g)

/-- The groups, the zones of a group and the first sector of the last zone fit in their bit fields,
and the first sector of the last group in 32 bits. -/
def Mgeo.Packable (g : Mgeo) : Prop :=
  g.ngrps.toNat ≤ 2 ^ 5 ∧ g.puGrp.toNat * g.znPu.toNat ≤ 2 ^ 20 ∧
    (g.ngrps.toNat - 1) * (g.puGrp.toNat * g.znPu.toNat * g.secZn.toNat) < 2 ^ 32 ∧
    (g.ngrps.toNat * (g.puGrp.toNat * g.znPu.toNat) - 1) * g.secZn.toNat < 2 ^ 36

instance (g : Mgeo) : Decidable g.Packable := by
  unfold Mgeo.Packable
  infer_instance

section Fields
variable {g : Mgeo} {i z : Nat}

theorem zmdEntry_grp (hi : i < 2 ^ 16) (w : UInt64) :
    (zmdEntry g (.ofNat i) w).addr.grp.toNat = i % 2 ^ 5 := by
  show (BitVec.setWidth 5 (UInt16.ofNat i).toBitVec).toNat = _
  rw [BitVec.toNat_setWidth]
  show (UInt16.ofNat i).toNat % 2 ^ 5 = _
  rw [UInt16.toNat_ofNat_of_lt' hi]

theorem zmdEntry_zone (hz : z < 2 ^ 64) (id : UInt16) :
    (zmdEntry g id (.ofNat z)).addr.zone.toNat = z % 2 ^ 20 := by
  show (BitVec.setWidth 20 (UInt64.ofNat z).toBitVec).toNat = _
  rw [BitVec.toNat_setWidth]
  show (UInt64.ofNat z).toNat % 2 ^ 20 = _
  rw [UInt64.toNat_ofNat_of_lt' hz]

/-- The first sector that the entry records: the group's part has lost what is over 32 bits, and
the sum what is over 36. -/
theorem zmdEntry_sect (hb : g.Bounded) (hi : i < 2 ^ 16) (hz : z < 2 ^ 26) :
    (zmdEntry g.fill (.ofNat i) (.ofNat z)).addr.sect.toNat
      = (g.puGrp.toNat * g.znPu.toNat * g.secZn.toNat * i % 2 ^ 32 + g.secZn.toNat * z)
          % 2 ^ 36 := by
  have hzn : g.secZn.toNat * z ≤ 2 ^ 23 * 2 ^ 26 := Nat.mul_le_mul hb.secZn.2 hz.le
  have hgrp : (g.fill.secGrp * (UInt16.ofNat i).toUInt32).toNat
      = g.puGrp.toNat * g.znPu.toNat * g.secZn.toNat * i % 2 ^ 32 := by
    rw [UInt32.toNat_mul, hb.fill_secGrp, UInt16.toNat_toUInt32, UInt16.toNat_ofNat_of_lt' hi,
      Nat.mod_mul_mod]
  have hz64 : z < 2 ^ 64 := by omega
  have hprod : (g.secZn.toUInt64 * UInt64.ofNat z).toNat = g.secZn.toNat * z := by
    rw [UInt64.toNat_mul, UInt32.toNat_toUInt64, UInt64.toNat_ofNat_of_lt' hz64]
    exact Nat.mod_eq_of_lt (by omega)
  show (BitVec.setWidth 36 ((g.fill.secGrp * (UInt16.ofNat i).toUInt32).toUInt64
    + g.secZn.toUInt64 * UInt64.ofNat z).toBitVec).toNat = _
  rw [BitVec.toNat_setWidth, UInt64.toNat_toBitVec, UInt64.toNat_add, UInt32.toNat_toUInt64, hgrp,
    hprod]
  omega

/-- Where the parts of the sum fit, the recorded sector is the first sector of the zone. -/
theorem sect_exact {n s : Nat} (hg : n * s * i < 2 ^ 32) (ht : (i * n + z) * s < 2 ^ 36) :
    (n * s * i % 2 ^ 32 + s * z) % 2 ^ 36 = (i * n + z) * s := by
  have he : n * s * i + s * z = (i * n + z) * s := by ring
  rw [Nat.mod_eq_of_lt hg, he, Nat.mod_eq_of_lt ht]

end Fields

/-- The number of a zone in its device tells its group and its number in the group. -/
theorem zone_number_injective {n i j z w : Nat} (hz : z < n) (hw : w < n)
    (h : i * n + z = j * n + w) : i = j ∧ z = w := by
  have hn : 0 < n := by omega
  have hdiv := congrArg (· / n) h
  have hmod := congrArg (· % n) h
  simp only [Nat.mul_comm _ n, Nat.mul_add_div hn, Nat.div_eq_of_lt hz, Nat.div_eq_of_lt hw,
    Nat.add_zero, Nat.mul_add_mod, Nat.mod_eq_of_lt hz, Nat.mod_eq_of_lt hw] at hdiv hmod
  exact ⟨hdiv, hmod⟩

theorem zone_number_le {n k i z : Nat} (hi : i < k) (hz : z < n) : i * n + z ≤ k * n - 1 := by
  have hle := Nat.mul_le_mul_right n (Nat.succ_le_of_lt hi)
  rw [Nat.succ_mul] at hle
  omega

theorem last_zone_number {n k : Nat} (hk : 0 < k) (hn : 0 < n) :
    k * n - 1 = (k - 1) * n + (n - 1) := by
  rw [Nat.sub_mul, Nat.one_mul]
  have hle := Nat.le_mul_of_pos_left n hk
  omega

/-- The sectors of zones of different numbers are disjoint. -/
theorem zone_sectors_disjoint {p q s : Nat} (h : p ≠ q) :
    Disjoint (Set.Ico (p * s) (p * s + s)) (Set.Ico (q * s) (q * s + s)) := by
  rw [Set.Ico_disjoint_Ico]
  rcases Nat.lt_or_gt_of_ne h with hlt | hlt
  · have hle : (p + 1) * s ≤ q * s := Nat.mul_le_mul_right _ hlt
    rw [Nat.add_mul, Nat.one_mul] at hle
    omega
  · have hle : (q + 1) * s ≤ p * s := Nat.mul_le_mul_right _ hlt
    rw [Nat.add_mul, Nat.one_mul] at hle
    omega

namespace Mgeo.Bounded
variable {g : Mgeo}

/-- What an entry of a packable geometry says. -/
theorem decode (hb : g.Bounded) (hp : g.Packable) {i z : Nat} (hi : i < g.ngrps.toNat)
    (hz : z < g.fill.znGrp.toNat) :
    (zmdEntry g.fill (.ofNat i) (.ofNat z)).addr.grp.toNat = i ∧
      (zmdEntry g.fill (.ofNat i) (.ofNat z)).addr.zone.toNat = z ∧
      (zmdEntry g.fill (.ofNat i) (.ofNat z)).addr.sect.toNat
        = (i * g.fill.znGrp.toNat + z) * g.secZn.toNat := by
  obtain ⟨hgrp, hzone, hlast, hsect⟩ := hp
  rw [hb.fill_znGrp] at hz ⊢
  refine ⟨?_, ?_, ?_⟩
  · rw [zmdEntry_grp (by omega), Nat.mod_eq_of_lt (by omega)]
  · rw [zmdEntry_zone (by omega), Nat.mod_eq_of_lt (by omega)]
  · rw [zmdEntry_sect hb (by omega) (by omega)]
    refine sect_exact ?_ ?_
    · rw [Nat.mul_comm]
      exact lt_of_le_of_lt (Nat.mul_le_mul_right _ (by omega)) hlast
    · exact lt_of_le_of_lt (Nat.mul_le_mul_right _ (zone_number_le hi hz)) hsect

theorem packs (hb : g.Bounded) (hp : g.Packable) : g.fill.Packs := by
  refine ⟨?_, ?_⟩
  · intro i hi z hz
    refine ⟨_, zmdTable_getElem? hz, ?_⟩
    rw [Maddr.ofAddr_addr]
    exact hb.decode hp hi hz
  · intro i hi j hj z w e f he hf hne
    obtain ⟨hz, rfl⟩ := zmdTable_eq_some he
    obtain ⟨hw, rfl⟩ := zmdTable_eq_some hf
    obtain ⟨hg1, hz1, hs1⟩ := hb.decode hp hi hz
    obtain ⟨hg2, hz2, hs2⟩ := hb.decode hp hj hw
    refine ⟨?_, ?_⟩
    · intro heq
      have ha := congrArg Maddr.ofAddr heq
      rw [Maddr.ofAddr_addr, Maddr.ofAddr_addr] at ha
      rw [ha] at hg1 hz1
      exact hne (Prod.ext (hg1.symm.trans hg2) (hz1.symm.trans hz2))
    · unfold ZmdRecord.sectors
      rw [hs1, hs2]
      refine zone_sectors_disjoint fun heq => hne ?_
      obtain ⟨rfl, rfl⟩ := zone_number_injective hz hw heq
      rfl

/-- The last group and the last zone tell whether the fields are wide enough. -/
theorem packable (hb : g.Bounded) (h : g.fill.Packs) : g.Packable := by
  have hN := hb.ngrps
  have hn0 := hb.znGrp_pos
  have hz0 : 0 < g.fill.znGrp.toNat := by rw [hb.fill_znGrp]; exact hn0
  have hz1 : g.puGrp.toNat * g.znPu.toNat - 1 < g.fill.znGrp.toNat := by
    rw [hb.fill_znGrp]; omega
  have hlast : g.ngrps.toNat - 1 < g.fill.ngrps.toNat := Nat.sub_lt hN.1 Nat.one_pos
  obtain ⟨e, he, hgrp, -, hsect⟩ := h.decode _ hlast 0 hz0
  obtain ⟨-, rfl⟩ := zmdTable_eq_some he
  obtain ⟨f, hf, -, hzone, htop⟩ := h.decode _ hlast _ hz1
  obtain ⟨-, rfl⟩ := zmdTable_eq_some hf
  rw [Maddr.ofAddr_addr] at hgrp hsect hzone htop
  refine ⟨?_, ?_, ?_, ?_⟩
  · have hlt := (zmdEntry g.fill (.ofNat (g.ngrps.toNat - 1)) (.ofNat 0)).addr.grp.isLt
    omega
  · have hlt := (zmdEntry g.fill (.ofNat (g.ngrps.toNat - 1))
      (.ofNat (g.puGrp.toNat * g.znPu.toNat - 1))).addr.zone.isLt
    omega
  · rw [zmdEntry_sect hb (by omega) (by norm_num), hb.fill_znGrp, Nat.mul_zero, Nat.add_zero,
      Nat.add_zero] at hsect
    rw [← Nat.mul_assoc]
    refine lt_of_eq_of_lt hsect.symm ?_
    have hlt := Nat.mod_lt (g.puGrp.toNat * g.znPu.toNat * g.secZn.toNat * (g.ngrps.toNat - 1))
      (show 0 < 2 ^ 32 by norm_num)
    omega
  · have hlt := (zmdEntry g.fill (.ofNat (g.ngrps.toNat - 1))
      (.ofNat (g.puGrp.toNat * g.znPu.toNat - 1))).addr.sect.isLt
    rw [hb.fill_znGrp, ← last_zone_number hN.1 hn0] at htop
    exact lt_of_eq_of_lt htop.symm hlt

end Mgeo.Bounded

/-- **The addresses of an accepted geometry are packed without loss precisely where they fit.** -/
theorem packed_iff {m : Media} {g : Mgeo} (h : xztlMediaCheck m = .ok g) :
    g.Packs ↔ m.geo.Packable := by
  obtain ⟨hl, rfl⟩ := xztlMediaCheck_ok h
  exact ⟨hl.bounded.packable, hl.bounded.packs⟩

/-- A device of 4096 zones of 96 MiB. -/
theorem packed_iff_zoned :
    (zndMediaRegister (.zoned 4096 24576 4096)).geo.Packable ∧
      (zndMediaRegister (.zoned 4096 24576 4096)).geo.fill.Packs :=
  ⟨by decide, (packed_iff (m := zndMediaRegister (.zoned 4096 24576 4096)) rfl).mpr (by decide)⟩

/-- **Two zones with one number**: of 1048577 zones, the first and the last have the number 0 in
their addresses. -/
theorem zone_number_truncated :
    ∃ g e f, xztlMediaCheck (zndMediaRegister (.zoned 1048577 4096 4096)) = .ok g ∧
      (g.ztlZmdCreate 0)[0]? = some e ∧ (g.ztlZmdCreate 0)[1048576]? = some f ∧
      (Maddr.ofAddr e.addr.addr).zone = 0 ∧ (Maddr.ofAddr f.addr.addr).zone = 0 ∧ ¬ g.Packs := by
  have hl : (zndMediaRegister (.zoned 1048577 4096 4096)).geo.Limits := by decide
  refine ⟨(zndMediaRegister (.zoned 1048577 4096 4096)).geo.fill, _, _, rfl,
    zmdTable_getElem? (by decide), zmdTable_getElem? (by decide), by decide, by decide, ?_⟩
  intro h
  have hp := hl.bounded.packable h
  revert hp
  decide

/-! ### Management commands -/

/-- The management operations of `enum xztl_zone_mgmt_opcode`. -/
inductive ZoneMgmt where
  | close | finish | open | reset | report
deriving DecidableEq, Repr

/-- The part of `struct xztl_zn_mcmd` that the media layer reads. -/
structure ZnMcmd where
  opcode : ZoneMgmt
  addr : Maddr
  nzones : UInt32
deriving DecidableEq, Repr

/-- What the device is asked: `xnvme_znd_mgmt_send` for one zone or for all of them, or
`xnvme_znd_report_from_dev` from the first sector on. -/
inductive MgmtSend where
  | send (lba : UInt64) (selectAll : Bool) (op : ZoneMgmt)
  | report (lba : UInt64)
deriving DecidableEq, Repr

/-- `znd_media_zone_manage`, what it sends.  The bit fields are promoted to `int`, so the number of
the zone is counted in 32 bits; it is multiplied in the 64 bits of `nsect`, and `lba` is a `uint32_t`. -/
def DevGeo.zndMediaZoneManage (d : DevGeo) (cmd : ZnMcmd) (op : ZoneMgmt) : MgmtSend :=
  let lba : UInt32 :=
    ((d.nzone * UInt32.ofNat cmd.addr.grp.toNat + UInt32.ofNat cmd.addr.zone.toNat).toUInt64
      * d.nsect).toUInt32
  let selectAll := decide (cmd.nzones > 1)
  .send lba.toUInt64 selectAll op

/-- `znd_media_zone_mgmt`. -/
def DevGeo.zndMediaZoneMgmt (d : DevGeo) (cmd : ZnMcmd) : MgmtSend :=
  match cmd.opcode with
  | .close => d.zndMediaZoneManage cmd .close
  | .finish => d.zndMediaZoneManage cmd .finish
  | .open => d.zndMediaZoneManage cmd .open
  | .reset => d.zndMediaZoneManage cmd .reset
  | .report => .report 0

/-- The command of `ztl_mgmt_node_reset_zn` and of its like for one zone: the word of the entry's
address is copied. -/
def ZmdRecord.mgmtCmd (e : ZmdRecord) (op : ZoneMgmt) : ZnMcmd :=
  { opcode := op, addr := .ofAddr e.addr.addr, nzones := 1 }

/-- Each operation on a zone goes to that zone alone, at the first sector that its entry records,
which is the first sector it has on the device. -/
def Mgeo.Managed (g : Mgeo) (d : DevGeo) : Prop :=
  ∀ i < g.ngrps.toNat, ∀ z < g.znGrp.toNat, ∀ op ≠ ZoneMgmt.report,
    ∃ e lba, (g.ztlZmdCreate (.ofNat i))[z]? = some e ∧
      d.zndMediaZoneMgmt (e.mgmtCmd op) = .send lba false op ∧
      lba.toNat = e.addr.sect.toNat ∧
      lba.toNat = (i * g.znGrp.toNat + z) * g.secZn.toNat

/-- The groups are the units, or there is only one; the groups and the zones of a group fit in
their bit fields, and the first sector of the last zone in 32 bits. -/
def Mgeo.Manageable (g : Mgeo) : Prop :=
  (g.ngrps.toNat = 1 ∨ g.puGrp.toNat = 1) ∧ g.ngrps.toNat ≤ 2 ^ 5 ∧
    g.puGrp.toNat * g.znPu.toNat ≤ 2 ^ 20 ∧
    (g.ngrps.toNat * (g.puGrp.toNat * g.znPu.toNat) - 1) * g.secZn.toNat < 2 ^ 32

instance (g : Mgeo) : Decidable g.Manageable := by
  unfold Mgeo.Manageable
  infer_instance

/-- The first sector that a management command names, of the group and the zone in its address. -/
def mgmtLba (d : DevGeo) (a : Maddr) : Nat :=
  (d.nzone.toNat * a.grp.toNat + a.zone.toNat) * d.nsect.toUInt32.toNat % 2 ^ 32

theorem zoneMgmt_send (d : DevGeo) (e : ZmdRecord) {op : ZoneMgmt}
    (hop : op ≠ .report) :
    ∃ lba : UInt64, d.zndMediaZoneMgmt (e.mgmtCmd op) = .send lba false op ∧
      lba.toNat = mgmtLba d e.addr := by
  have hgrp : (UInt32.ofNat e.addr.grp.toNat).toNat = e.addr.grp.toNat :=
    UInt32.toNat_ofNat_of_lt' (lt_of_lt_of_le e.addr.grp.isLt (by decide))
  have hzone : (UInt32.ofNat e.addr.zone.toNat).toNat = e.addr.zone.toNat :=
    UInt32.toNat_ofNat_of_lt' (lt_of_lt_of_le e.addr.zone.isLt (by decide))
  have hsend : ∃ lba : UInt64, d.zndMediaZoneManage (e.mgmtCmd op) op = .send lba false op ∧
      lba.toNat = mgmtLba d e.addr := by
    refine ⟨_, rfl, ?_⟩
    unfold mgmtLba ZmdRecord.mgmtCmd
    rw [Maddr.ofAddr_addr, UInt32.toNat_toUInt64, UInt64.toNat_toUInt32, UInt64.toNat_mul,
      UInt32.toNat_toUInt64, UInt32.toNat_add, UInt32.toNat_mul, hgrp, hzone, UInt64.toNat_toUInt32,
      Nat.mod_mod_of_dvd _ (by norm_num), Nat.mod_add_mod, Nat.mod_mul_mod, Nat.mul_mod_mod]
  cases op with
  | report => exact absurd rfl hop
  | close | finish | «open» | reset => exact hsend

/-- A command names the first sector of its zone if it names that of every zone in range. -/
theorem managed_iff_lba {d : DevGeo} {g : Mgeo} :
    g.Managed d ↔ ∀ i < g.ngrps.toNat, ∀ z < g.znGrp.toNat,
      mgmtLba d (zmdEntry g (.ofNat i) (.ofNat z)).addr
          = (zmdEntry g (.ofNat i) (.ofNat z)).addr.sect.toNat ∧
        mgmtLba d (zmdEntry g (.ofNat i) (.ofNat z)).addr
          = (i * g.znGrp.toNat + z) * g.secZn.toNat := by
  constructor
  · intro h i hi z hz
    obtain ⟨e, lba, he, hsend, hsect, hexact⟩ := h i hi z hz .reset (by decide)
    obtain ⟨-, rfl⟩ := zmdTable_eq_some he
    obtain ⟨lba', hsend', hlba⟩ := zoneMgmt_send d
      (zmdEntry g (.ofNat i) (.ofNat z)) (show ZoneMgmt.reset ≠ .report by decide)
    obtain rfl : lba' = lba := by
      rw [hsend] at hsend'
      cases hsend'
      rfl
    exact ⟨hlba.symm.trans hsect, hlba.symm.trans hexact⟩
  · intro h i hi z hz op hop
    obtain ⟨hsect, hexact⟩ := h i hi z hz
    obtain ⟨lba, hsend, hlba⟩ := zoneMgmt_send d (zmdEntry g (.ofNat i) (.ofNat z)) hop
    exact ⟨_, lba, zmdTable_getElem? hz, hsend, hlba.trans hsect, hlba.trans hexact⟩

theorem Mgeo.Manageable.packable {g : Mgeo} (h : g.Manageable) (hb : g.Bounded) :
    g.Packable := by
  obtain ⟨-, hgrp, hzone, hlast⟩ := h
  refine ⟨hgrp, hzone, lt_of_le_of_lt ?_ hlast, hlast.trans (by norm_num)⟩
  rw [← Nat.mul_assoc, Nat.sub_mul, Nat.one_mul]
  have hpos := hb.znGrp_pos
  exact Nat.mul_le_mul_right _ (by omega)

section Managed
variable {d : DevGeo}

theorem Mgeo.Manageable.managed (h : (zndMediaRegister d).geo.Manageable)
    (hb : (zndMediaRegister d).geo.Bounded) : (zndMediaRegister d).geo.fill.Managed d := by
  refine managed_iff_lba.mpr fun i hi z hz => ?_
  obtain ⟨hg, hz', hs⟩ := hb.decode (h.packable hb) hi hz
  obtain ⟨hone, -, -, hlast⟩ := h
  rw [hb.fill_znGrp] at hz hs ⊢
  -- `nzone` counts the zones of a unit; it counts those of a group where the two are one
  have hnum : d.nzone.toNat * i = i * (d.npunit.toNat * d.nzone.toNat) := by
    rcases hone with hgrp | hpu
    · have hi0 : i = 0 := Nat.lt_one_iff.mp (lt_of_lt_of_eq hi hgrp)
      rw [hi0, Nat.mul_zero, Nat.zero_mul]
    · rw [show d.npunit.toNat = 1 from hpu, Nat.one_mul, Nat.mul_comm]
  have hlba : mgmtLba d (zmdEntry (zndMediaRegister d).geo.fill (.ofNat i) (.ofNat z)).addr
      = (i * (d.npunit.toNat * d.nzone.toNat) + z) * d.nsect.toUInt32.toNat := by
    unfold mgmtLba
    rw [hg, hz', hnum]
    exact Nat.mod_eq_of_lt
      (lt_of_le_of_lt (Nat.mul_le_mul_right _ (zone_number_le hi hz)) hlast)
  exact ⟨hlba.trans hs.symm, hlba⟩

/-- Group 32 and zone 1048576 have the number 0 in their addresses; group 1 is taken to start
after the zones of one unit; and the sector of the last zone is sent in 32 bits. -/
theorem Mgeo.Managed.manageable (h : (zndMediaRegister d).geo.fill.Managed d)
    (hb : (zndMediaRegister d).geo.Bounded) : (zndMediaRegister d).geo.Manageable := by
  have hpos : 0 < d.npunit.toNat * d.nzone.toNat := hb.znGrp_pos
  have hle : d.npunit.toNat * d.nzone.toNat ≤ 2 ^ 26 := hb.znGrp_lt
  have hG : 0 < d.npugrp.toNat ∧ d.npugrp.toNat ≤ 2 ^ 7 := hb.ngrps
  have hS : 0 < d.nsect.toUInt32.toNat := hb.secZn.1
  have hlba : ∀ i < d.npugrp.toNat, ∀ z < d.npunit.toNat * d.nzone.toNat,
      (d.nzone.toNat * (i % 2 ^ 5) + z % 2 ^ 20) * d.nsect.toUInt32.toNat % 2 ^ 32
        = (i * (d.npunit.toNat * d.nzone.toNat) + z) * d.nsect.toUInt32.toNat := by
    intro i hi z hz
    have he := (managed_iff_lba.mp h i hi z (by rw [hb.fill_znGrp]; exact hz)).2
    unfold mgmtLba at he
    rw [zmdEntry_grp (by omega), zmdEntry_zone (by omega), hb.fill_znGrp] at he
    exact he
  refine ⟨?_, ?_, ?_, ?_⟩
  · rcases Nat.lt_or_ge 1 d.npugrp.toNat with hlt | hge
    · refine .inr ?_
      have h1 := hlba 1 hlt 0 hpos
      have hle1 := Nat.mod_le (d.nzone.toNat * d.nsect.toUInt32.toNat) (2 ^ 32)
      rw [show (1 % 2 ^ 5 : Nat) = 1 from rfl, Nat.mul_one, Nat.zero_mod, Nat.add_zero, Nat.one_mul,
        Nat.add_zero] at h1
      rw [h1] at hle1
      have hpu := Nat.le_of_mul_le_mul_right hle1 hS
      have hone : d.npunit.toNat ≤ 1 := by
        refine Nat.le_of_mul_le_mul_right ?_ hb.znPu.1
        rw [Nat.one_mul]
        exact hpu
      exact le_antisymm hone hb.puGrp.1
    · exact .inl (le_antisymm hge hG.1)
  · by_contra hgt
    have h32 := hlba 32 (not_le.mp hgt) 0 hpos
    rw [show (32 % 2 ^ 5 : Nat) = 0 from rfl, Nat.mul_zero, Nat.zero_mod, Nat.add_zero, Nat.zero_mul,
      Nat.zero_mod, Nat.add_zero] at h32
    exact (Nat.mul_pos (Nat.mul_pos (by norm_num) hpos) hS).ne h32
  · by_contra hgt
    have h20 := hlba 0 hG.1 (2 ^ 20) (not_le.mp hgt)
    rw [Nat.zero_mod, Nat.mul_zero, Nat.mod_self, Nat.add_zero, Nat.zero_mul, Nat.zero_mod,
      Nat.zero_mul, Nat.zero_add] at h20
    exact (Nat.mul_pos (by norm_num) hS).ne h20
  · have hlast := hlba (d.npugrp.toNat - 1) (by omega) (d.npunit.toNat * d.nzone.toNat - 1)
      (by omega)
    have hnum : d.npugrp.toNat * (d.npunit.toNat * d.nzone.toNat) - 1
        = (d.npugrp.toNat - 1) * (d.npunit.toNat * d.nzone.toNat)
          + (d.npunit.toNat * d.nzone.toNat - 1) :=
      last_zone_number hG.1 hpos
    show (d.npugrp.toNat * (d.npunit.toNat * d.nzone.toNat) - 1) * d.nsect.toUInt32.toNat < 2 ^ 32
    rw [hnum, ← hlast]
    exact Nat.mod_lt _ (by norm_num)

end Managed

/-- **A command goes to the first sector of its zone precisely where the geometry is
manageable.** -/
theorem managed_iff {d : DevGeo} {g : Mgeo} (h : xztlMediaCheck (zndMediaRegister d) = .ok g) :
    g.Managed d ↔ (zndMediaRegister d).geo.Manageable := by
  obtain ⟨hl, rfl⟩ := xztlMediaCheck_ok h
  exact ⟨fun hm => hm.manageable hl.bounded, fun hm => hm.managed hl.bounded⟩

/-- A device of 4096 zones of 96 MiB. -/
theorem managed_iff_zoned :
    (zndMediaRegister (.zoned 4096 24576 4096)).geo.Manageable ∧
      (zndMediaRegister (.zoned 4096 24576 4096)).geo.fill.Managed (.zoned 4096 24576 4096) :=
  ⟨by decide, (managed_iff (d := .zoned 4096 24576 4096) rfl).mpr (by decide)⟩

/-- **A reset of another zone**: of 8193 zones of 2 GiB, the reset of the last goes to the
first. -/
theorem reset_wraps :
    ∃ g e, xztlMediaCheck (zndMediaRegister (.zoned 8193 524288 4096)) = .ok g ∧
      (g.ztlZmdCreate 0)[8192]? = some e ∧ e.addr.sect = 4294967296 ∧
      (DevGeo.zoned 8193 524288 4096).zndMediaZoneMgmt (e.mgmtCmd .reset) = .send 0 false .reset ∧
      ¬ g.Managed (.zoned 8193 524288 4096) := by
  have hl : (zndMediaRegister (.zoned 8193 524288 4096)).geo.Limits := by decide
  refine ⟨(zndMediaRegister (.zoned 8193 524288 4096)).geo.fill, _, rfl,
    zmdTable_getElem? (by decide), by decide, by decide, ?_⟩
  intro h
  have hm := h.manageable hl.bounded
  revert hm
  decide

end Xztl
