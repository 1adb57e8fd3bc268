import Xztl.Env.Restart

/-!
# Env — when loading ends (`env_zns.cc`, the loop of `LoadMetaData`)

The loop over the records goes from head to head by the length each head gives, rounded down to
sectors, and stops at a length of zero or when a read fails.  Nothing else stops it, and nothing that
it reads is checked: a short length does not move it at all, a long one is read past the end of
`metaBuf`, and so may the entries and strings of a record be.

`HeadsOrderly` follows the heads of a medium in the same way, without the table.  **`load_ends_iff`**: on
any medium, when reads inside the device succeed, the loop ends exactly when the heads from the newest
zone on are orderly.
-/

namespace Xztl

open Bytes Except Option

/-! ### Following the heads -/

/-- The record in `metaBuf` can be applied: what it leads to lies inside `metaBuf`, and a snapshot has
less than `2 ^ 16` files. -/
def RecordInside (buf : Buf) : Prop :=
  let praseLen := metadataHeadLen
  if buf 8 = Operation.base.tag then
    let fileNum := leVal (load buf praseLen 4)
    fileNum < 2 ^ 16 ∧ EntriesInside fileNum buf (praseLen + 4)
  else if buf 8 = Operation.update.tag then EntryInside buf praseLen
  else if buf 8 = Operation.replace.tag then
    StrInside buf praseLen ∧ StrInside buf (praseLen + fileNameLen)
  else if buf 8 = Operation.delete.tag then StrInside buf praseLen
  else if buf 8 = Operation.gcChange.tag then EntryInside buf praseLen
  else True

/-- The heads from sector `s` on, one after the other as their lengths lead, until a length of zero or
the end of the device: each record fits `metaBuf`, and unless it is cut off by the end of the device
it can be applied and its length, with the head, is at least a sector. -/
def HeadsOrderly (media : Buf) (nsect : Nat) : (fuel s : Nat) → Buf → Prop
  | 0, _, _ => True
  | fuel + 1, s, buf =>
    let buf := withHead media s buf
    let dataLength := leVal (load buf 4 4)
    let k := restSectors dataLength
    nsect ≤ s ∨ dataLength = 0 ∨
      znsAligment * (1 + k) ≤ fileMetadataBufSize ∧
        (nsect < s + 1 + k ∨
          RecordInside (withRest media s k buf) ∧ znsAligment ≤ metadataHeadLen + dataLength ∧
            HeadsOrderly media nsect fuel (s + (metadataHeadLen + dataLength) / znsAligment)
              (withRest media s k buf))

/-! ### One round -/

section

variable {m : Metadata} {s : Nat} {buf : Buf} {t : Table}

theorem exists_inMetaBuf {p : Prop} [Decidable p] : (∃ t', inMetaBuf p t = .ok t') ↔ p :=
  ⟨fun ⟨_, h⟩ => (inMetaBuf_eq_ok.mp h).1, fun h => ⟨t, inMetaBuf_ok h⟩⟩

/-- Whether a record can be applied does not depend on the table. -/
theorem exists_applyRecord : (∃ t', applyRecord t buf = .ok t') ↔ RecordInside buf := by
  rw [applyRecord, RecordInside]
  simp only
  split
  · split
    · rename_i hge
      refine ⟨?_, fun h => absurd h.1 (Nat.not_lt_of_le hge)⟩
      rintro ⟨_, ⟨⟩⟩
    · rename_i hlt
      rw [exists_inMetaBuf, and_iff_right (Nat.lt_of_not_le hlt)]
  split
  · exact exists_inMetaBuf
  split
  · exact exists_inMetaBuf
  split
  · exact exists_inMetaBuf
  split
  · exact exists_inMetaBuf
  · exact ⟨fun _ => trivial, fun _ => ⟨t, rfl⟩⟩

theorem replayLoop_past (h : m.AllOk) (hs : m.nsect ≤ s) (fuel : Nat) (buf : Buf) (t : Table) :
    ∃ m', replayLoop (fuel + 1) s buf t m = .ok (t, m', .ioError) := by
  obtain ⟨m', buf', e⟩ := zrocksReadMetadata_past buf h
    (show znsAligment / znsAligment % 2 ^ 16 = 1 by decide) Nat.one_pos (Nat.lt_succ_of_le hs) 0
  refine ⟨m', ?_⟩
  rw [replayLoop]
  simp only [e]
  rfl

section

variable {dataLength k : Nat} (h : m.AllOk) (hs : s < m.nsect)
  (hlen : leVal (load (withHead m.media s buf) 4 4) = dataLength) (hpos : dataLength ≠ 0)
  (hk : restSectors dataLength = k)

include h hs hlen hpos hk

/-- A record that does not fit `metaBuf`. -/
theorem replayLoop_overflow (hbig : fileMetadataBufSize < znsAligment * (1 + k)) (fuel : Nat) :
    replayLoop (fuel + 1) s buf t m = .error .outOfBounds := by
  obtain ⟨c, e⟩ := read_head h hs buf
  rw [restSectors] at hk
  rw [replayLoop]
  simp only [e, hlen, if_neg hpos, hk, if_pos hbig]
  rfl

/-- A record that the end of the device cuts off. -/
theorem replayLoop_cut (hfit : znsAligment * (1 + k) ≤ fileMetadataBufSize)
    (hout : m.nsect < s + 1 + k) (fuel : Nat) (t : Table) :
    ∃ m', replayLoop (fuel + 1) s buf t m = .ok (t, m', .ioError) := by
  obtain ⟨c, e⟩ := read_head h hs buf
  rw [restSectors] at hk
  obtain ⟨m', buf', e'⟩ := zrocksReadMetadata_past (m := { m with cmds := c })
    (withHead m.media s buf) h hk (by omega) (show m.nsect < s + 1 + k from hout) znsAligment
  refine ⟨m', ?_⟩
  rw [replayLoop]
  simp only [e, hlen, if_neg hpos, hk, if_neg (Nat.not_lt_of_le hfit),
    show s + znsAligment / znsAligment = s + 1 from rfl, e']
  rfl

end

/-- Reading the records changes nothing on the device. -/
theorem replayLoop_md (fuel : Nat) : ∀ {s : Nat} {b : Buf} {t : Table} {m : Metadata}
    {r : Table × Metadata × Status}, replayLoop fuel s b t m = .ok r →
    ∃ c, r.2.1 = { m with cmds := c } := by
  induction fuel with
  | zero =>
    intro s b t m r e
    cases e
  | succ fuel ih =>
    intro s b t m r e
    rw [replayLoop] at e
    obtain ⟨⟨m1, b1, ret1⟩, h1⟩ : ∃ x, zrocksReadMetadata m s b 0 znsAligment = x := ⟨_, rfl⟩
    obtain ⟨c1, hc1⟩ := zrocksReadMetadata_md m s b 0 znsAligment
    rw [h1] at hc1
    obtain rfl : m1 = { m with cmds := c1 } := hc1
    simp only [h1] at e
    split at e
    · cases e
      exact ⟨c1, rfl⟩
    split at e
    · cases e
      exact ⟨c1, rfl⟩
    generalize leVal (load b1 4 4) = d at e
    generalize (if d + metadataHeadLen > znsAligment then d + metadataHeadLen - znsAligment
      else 0) = rest at e
    split at e
    · cases e
    obtain ⟨⟨m2, b2, ret2⟩, h2⟩ : ∃ x, zrocksReadMetadata { m with cmds := c1 }
      (s + znsAligment / znsAligment) b1 znsAligment rest = x := ⟨_, rfl⟩
    obtain ⟨c2, hc2⟩ := zrocksReadMetadata_md { m with cmds := c1 }
      (s + znsAligment / znsAligment) b1 znsAligment rest
    rw [h2] at hc2
    obtain rfl : m2 = { m with cmds := c2 } := hc2
    simp only [h2] at e
    split at e
    · cases e
      exact ⟨c2, rfl⟩
    obtain ⟨t', -, e⟩ := bind_eq_ok.mp e
    obtain ⟨c, hc⟩ := ih e
    exact ⟨c, hc⟩

/-! ### The loop -/

@[simp] theorem withRest_zero (media buf : Buf) (s : Nat) : withRest media s 0 buf = buf := by
  rw [withRest, Nat.mul_zero, load_zero, memcpy_nil]

/-- A record that is shorter than a sector leaves nothing behind its sector to read. -/
theorem restSectors_of_lt {n : Nat} (h : metadataHeadLen + n < znsAligment) : restSectors n = 0 := by
  rw [restSectors, if_neg (by omega)]
  rfl

/-- **A record shorter than a sector** is read for ever. -/
theorem replayLoop_stuck (hs : s < m.nsect)
    (hpos : leVal (load (withHead m.media s buf) 4 4) ≠ 0)
    (hlt : metadataHeadLen + leVal (load (withHead m.media s buf) 4 4) < znsAligment) :
    ∀ (fuel : Nat) {b : Buf} {t : Table} {c : Nat} {r : Table × Metadata × Status}, m.AllOk →
      withHead m.media s b = withHead m.media s buf →
      replayLoop fuel s b t { m with cmds := c } ≠ .ok r := by
  intro fuel
  induction fuel with
  | zero =>
    intro b t c r _ _ e
    cases e
  | succ fuel ih =>
    intro b t c r h hb e
    obtain ⟨c', e'⟩ := replayLoop_next (m := { m with cmds := c }) h hs
      (congrArg (fun b => leVal (load b 4 4)) hb) hpos (restSectors_of_lt hlt) (by decide) hs
    rw [e' fuel t, Nat.div_eq_of_lt hlt] at e
    obtain ⟨t', -, e⟩ := bind_eq_ok.mp e
    refine ih h ?_ e
    rw [withRest_zero, withHead_withHead, hb]

/-- **The loop ends** on orderly heads, and only on these. -/
theorem replayLoop_ends_iff (fuel : Nat) : ∀ {s : Nat} {b : Buf} {t : Table} {m : Metadata},
    m.AllOk → m.nsect ≤ s + fuel →
    ((∃ n r, replayLoop n s b t m = .ok r) ↔ HeadsOrderly m.media m.nsect fuel s b) := by
  induction fuel with
  | zero =>
    intro s buf t m h hs
    obtain ⟨m', e⟩ := replayLoop_past h hs 0 buf t
    exact ⟨fun _ => trivial, fun _ => ⟨1, _, e⟩⟩
  | succ fuel ih =>
    intro s buf t m h hs
    rw [HeadsOrderly]
    by_cases hpast : m.nsect ≤ s
    · obtain ⟨m', e⟩ := replayLoop_past h hpast 0 buf t
      exact ⟨fun _ => Or.inl hpast, fun _ => ⟨1, _, e⟩⟩
    have hlt := Nat.lt_of_not_le hpast
    rw [or_iff_right hpast]
    obtain ⟨d, hd⟩ : ∃ d, leVal (load (withHead m.media s buf) 4 4) = d := ⟨_, rfl⟩
    rw [hd]
    by_cases hzero : d = 0
    · obtain ⟨c, e⟩ := replayLoop_end h hlt (hd.trans hzero) 0 t
      exact ⟨fun _ => Or.inl hzero, fun _ => ⟨1, _, e⟩⟩
    rw [or_iff_right hzero]
    by_cases hfit : znsAligment * (1 + restSectors d) ≤ fileMetadataBufSize
    swap
    · refine ⟨fun ⟨n, r, e⟩ => ?_, fun hc => absurd hc.1 hfit⟩
      cases n with
      | zero => cases e
      | succ n =>
        rw [replayLoop_overflow h hlt hd hzero rfl (Nat.lt_of_not_le hfit)] at e
        cases e
    rw [and_iff_right hfit]
    by_cases hcut : m.nsect < s + 1 + restSectors d
    · obtain ⟨m', e⟩ := replayLoop_cut h hlt hd hzero rfl hfit hcut 0 t
      exact ⟨fun _ => Or.inl hcut, fun _ => ⟨1, _, e⟩⟩
    rw [or_iff_right hcut]
    obtain ⟨c, hnext⟩ := replayLoop_next h hlt hd hzero rfl hfit (Nat.le_of_not_lt hcut)
    by_cases hmove : znsAligment ≤ metadataHeadLen + d
    swap
    · refine ⟨fun ⟨n, r, e⟩ => ?_, fun hc => absurd hc.2.1 hmove⟩
      exact absurd e (replayLoop_stuck hlt (hd ▸ hzero) (hd ▸ Nat.lt_of_not_le hmove) n h rfl)
    have hadv : 1 ≤ (metadataHeadLen + d) / znsAligment :=
      (Nat.one_le_div_iff (by decide)).mpr hmove
    have hleft : m.nsect ≤ s + (metadataHeadLen + d) / znsAligment + fuel := by omega
    have hih := fun t' (b : Buf) => ih (m := { m with cmds := c }) (t := t') (b := b) h hleft
    rw [and_iff_right hmove]
    generalize withRest m.media s (restSectors d) (withHead m.media s buf) = b at hnext ⊢
    constructor
    · rintro ⟨n, r, e⟩
      cases n with
      | zero => cases e
      | succ n =>
        rw [hnext n t] at e
        obtain ⟨t', ht', e⟩ := bind_eq_ok.mp e
        exact ⟨exists_applyRecord.mp ⟨t', ht'⟩, (hih t' b).mp ⟨n, r, e⟩⟩
    · rintro ⟨hrec, hord⟩
      obtain ⟨t', ht'⟩ := (exists_applyRecord (t := t)).mpr hrec
      obtain ⟨n, r, e⟩ := (hih t' b).mpr hord
      refine ⟨n + 1, r, ?_⟩
      rw [hnext n t, ht']
      exact e

end

/-! ### Loading -/

/-- `LoadMetaData` comes to its end, with a table or an error. -/
def LoadEnds (e : Env) : Prop :=
  ∃ fuel e' st, replay fuel e = .ok (e', st) ∧ (st = .ok ∨ st = .ioError)

section

variable {m : Metadata} {e : Env}

theorem loadEnds_none (h : e.md.AllOk) (hin : ∀ i < 2, (e.md.zone i).sect < e.md.nsect)
    (hz : newestZone e.md = none) : LoadEnds e := by
  obtain ⟨c, hr⟩ := replay_none h hin hz
  exact ⟨0, _, .ok, hr 0, Or.inl rfl⟩

/-- Loading ends when the loop does. -/
theorem loadEnds_some (h : e.md.AllOk) (hin : ∀ i < 2, (e.md.zone i).sect < e.md.nsect) {i : Nat}
    (hz : newestZone e.md = some i) : ∃ c, LoadEnds e ↔ ∃ n r,
      replayLoop n ((e.md.zone i).sect + 1) (withHead e.md.media (e.md.zone 1).sect fun _ => 0)
        e.tbl.clear { e.md with cmds := c } = .ok r := by
  obtain ⟨c, hreplay⟩ := replay_some h hin hz
  refine ⟨c, fun ⟨fuel, e', st, hr, _⟩ => ?_, fun ⟨n, r, hr⟩ => ?_⟩
  · rw [hreplay] at hr
    obtain ⟨r, hr, -⟩ := bind_eq_ok.mp hr
    exact ⟨fuel, r, hr⟩
  · by_cases hst : r.2.2 = .ok
    · exact ⟨n, _, .ok, (hreplay n).trans
        (bind_eq_ok.mpr ⟨r, hr, if_neg (not_not_intro hst)⟩), Or.inl rfl⟩
    · exact ⟨n, _, .ioError, (hreplay n).trans (bind_eq_ok.mpr ⟨r, hr, if_pos hst⟩),
        Or.inr rfl⟩

/-- **Loading ends on a medium** exactly when the heads behind that of the newest zone are orderly.
Commands succeed, and the zone heads lie on the device; the contents of the medium are arbitrary. -/
theorem load_ends_iff (h : e.md.AllOk) (hin : ∀ i < 2, (e.md.zone i).sect < e.md.nsect) :
    LoadEnds e ↔ ∀ i, newestZone e.md = some i →
      HeadsOrderly e.md.media e.md.nsect e.md.nsect ((e.md.zone i).sect + 1)
        (withHead e.md.media (e.md.zone 1).sect fun _ => 0) := by
  cases hz : newestZone e.md with
  | none => exact ⟨fun _ i hi => (nomatch hi), fun _ => loadEnds_none h hin hz⟩
  | some i =>
    obtain ⟨c, hc⟩ := loadEnds_some h hin hz
    have hloop := replayLoop_ends_iff e.md.nsect (m := { e.md with cmds := c })
      (b := withHead e.md.media (e.md.zone 1).sect fun _ => 0) (s := (e.md.zone i).sect + 1)
      (t := e.tbl.clear) h (Nat.le_add_left _ _)
    rw [hc, hloop]
    refine ⟨fun ho j hj => ?_, fun ho => ho i rfl⟩
    cases hj
    exact ho

/-- A log with a snapshot and the record of a Sync behind it: loading ends, and the heads are
orderly. -/
theorem load_ends_synced : ∃ e i, LogOk e 0 [.base [], .update ⟨nameA, 0, 0, [⟨0, 0, 1, 0⟩]⟩] ∧
    newestZone e.restart.md = some i ∧ LoadEnds e.restart ∧
    HeadsOrderly e.restart.md.media e.restart.md.nsect e.restart.md.nsect
      ((e.restart.md.zone i).sect + 1)
      (withHead e.restart.md.media (e.restart.md.zone 1).sect fun _ => 0) := by
  obtain ⟨e₀, e, f, -, hone, -⟩ := exists_oneFile ⟨0, 0, 1, 0⟩
  have hlog := hone.inv.follows.log
  have hgeo := hlog.log.geo
  obtain ⟨hnew, -⟩ := hlog.log.newest hlog.lt
  obtain ⟨e', hr, -⟩ := hlog.replay (show 2 < 3 by decide)
  have hends : LoadEnds e.restart := ⟨3, e', .ok, hr, Or.inl rfl⟩
  exact ⟨e, _, hlog, hnew, hends,
    (load_ends_iff (e := e.restart) hgeo.ok fun i hi => hgeo.sect_lt hi).mp hends _ hnew⟩

end

/-- A zone head, and behind it a record whose length is one byte. -/
def shortRecord : Env :=
  { Env.fresh smallMd with
    md := { Metadata.fresh smallMd with
      media := memcpy (memcpy (fun _ => 0) 0 (zoneHeadBytes 0)) (znsAligment + 4) (le 4 1) } }

/-- **A medium on which loading does not end.**  The length of the first record is one byte: the loop
reads the same sector for ever. -/
theorem load_never_ends : shortRecord.md.AllOk ∧
    (∀ i < 2, (shortRecord.md.zone i).sect < shortRecord.md.nsect) ∧ ¬ LoadEnds shortRecord := by
  have hg := Metadata.fresh_geometry smallMd
  have hok : shortRecord.md.AllOk := fun _ => rfl
  have hin : ∀ i < 2, (shortRecord.md.zone i).sect < shortRecord.md.nsect := fun i hi => hg.sect_lt hi
  refine ⟨hok, hin, fun hends => ?_⟩
  have hz : newestZone shortRecord.md = some 0 := by decide +kernel
  obtain ⟨c, hc⟩ := loadEnds_some hok hin hz
  obtain ⟨n, r, e⟩ := hc.mp hends
  have hlen : leVal (load (withHead shortRecord.md.media 1
      (withHead shortRecord.md.media (shortRecord.md.zone 1).sect fun _ => 0)) 4 4) = 1 := by
    rw [load_withHead]
    decide +kernel
  exact replayLoop_stuck (m := shortRecord.md) (show 1 < 40964 by decide) (by rw [hlen]; decide)
    (by rw [hlen]; decide) n hok rfl e

end Xztl
