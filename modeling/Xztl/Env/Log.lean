import Xztl.Env.Flush

/-!
# Env — the log on the medium

`ZoneHolds media z seq recs` says that a metadata zone starts with the head number `seq`, that the
records `recs` follow, that the write pointer is behind them and that the rest of the zone is zero.
`Logged e seq recs` says this of the current zone of an environment; the other zone is either without
a head or holds an older log.

**`Logged.flush`** is what everything else uses: a record that fits is appended to the log, and
otherwise the log becomes a snapshot of the table in the other zone.
-/

namespace Xztl

open Function Bytes List

/-! ### Records in a row -/

/-- The records from sector `s` on. -/
def LogAt (media : Buf) : Nat → List Rec → Prop
  | _, [] => True
  | s, r :: rs => At media (znsAligment * s) r.bytes ∧ LogAt media (s + r.sectors) rs

/-- The sectors of records. -/
def recSectors (rs : List Rec) : Nat := (rs.map Rec.sectors).sum

variable {a : Nat} {b : Buf} {n : Name} {p : Ptr}

@[simp] theorem recSectors_cons (r : Rec) (rs : List Rec) :
    recSectors (r :: rs) = r.sectors + recSectors rs := rfl

@[simp] theorem recSectors_append (rs rs' : List Rec) :
    recSectors (rs ++ rs') = recSectors rs + recSectors rs' := by simp [recSectors]

section

variable {media media' : Buf} {z : MetaZone} {seq : Nat} {recs : List Rec}

theorem LogAt.append {rs rs' : List Rec} : ∀ {s : Nat}, LogAt media s rs →
    LogAt media (s + recSectors rs) rs' → LogAt media s (rs ++ rs') := by
  induction rs with
  | nil => exact fun _ h => h
  | cons r rs ih =>
    rintro s ⟨h1, h2⟩ h
    rw [recSectors_cons, ← Nat.add_assoc] at h
    exact ⟨h1, ih h2 h⟩

theorem LogAt.congr {rs : List Rec} : ∀ {s : Nat}, LogAt media s rs →
    (∀ a, znsAligment * s ≤ a → a < znsAligment * (s + recSectors rs) → media' a = media a) →
    LogAt media' s rs := by
  induction rs with
  | nil => exact fun _ _ => trivial
  | cons r rs ih =>
    rintro s ⟨h1, h2⟩ h
    rw [recSectors_cons] at h
    refine ⟨h1.congr fun i hi => h _ ?_ ?_, ih h2 fun a ha ha' => h a ?_ ?_⟩
    · exact Nat.le_add_right _ _
    · rw [r.bytes_length] at hi
      rw [Nat.mul_add, Nat.mul_add]
      omega
    · rw [Nat.mul_add] at ha
      omega
    · rwa [Nat.add_assoc] at ha'

/-! ### A zone -/

/-- A zone with its head, its records and zeros behind them. -/
structure ZoneHolds (media : Buf) (z : MetaZone) (seq : Nat) (recs : List Rec) : Prop where
  head : At media (znsAligment * z.sect) (zoneHeadBytes seq)
  log : LogAt media (z.sect + 1) recs
  wptr : z.wptr = z.sect + 1 + recSectors recs
  room : z.wptr < z.sect + z.capacity
  rest : ∀ a, znsAligment * z.wptr ≤ a → a < znsAligment * (z.sect + z.capacity) → media a = 0

/-- The addresses of a zone. -/
def MetaZone.Mem (z : MetaZone) (a : Nat) : Prop :=
  znsAligment * z.sect ≤ a ∧ a < znsAligment * (z.sect + z.capacity)

@[simp] theorem zoneHeadBytes_length (seq : Nat) :
    (zoneHeadBytes seq).length = znsAligment := by
  rw [zoneHeadBytes, padTo_length]
  · rfl
  · simp [metaZoneHeadLen, znsAligment]

theorem ZoneHolds.congr (h : ZoneHolds media z seq recs)
    (e : ∀ a, z.Mem a → media' a = media a) : ZoneHolds media' z seq recs where
  head := h.head.congr fun i hi => e _ (by
    have := h.wptr
    have := h.room
    rw [zoneHeadBytes_length] at hi
    simp only [MetaZone.Mem, znsAligment] at *
    omega)
  log := h.log.congr fun a ha ha' => e _ (by
    have := h.wptr
    have := h.room
    simp only [MetaZone.Mem, znsAligment] at *
    omega)
  wptr := h.wptr
  room := h.room
  rest := fun a ha ha' => by
    rw [e a, h.rest a ha ha']
    have := h.wptr
    simp only [MetaZone.Mem, znsAligment] at *
    omega

/-- **A record at the write pointer** extends the log. -/
theorem ZoneHolds.append (h : ZoneHolds media z seq recs) (r : Rec)
    (hroom : z.wptr + r.sectors < z.sect + z.capacity) :
    ZoneHolds (memcpy media (znsAligment * z.wptr) r.bytes) { z with wptr := z.wptr + r.sectors }
      seq (recs ++ [r]) where
  head := h.head.memcpy (Or.inl (by
    have := h.wptr
    simp only [zoneHeadBytes_length, znsAligment] at *
    omega))
  log := by
    refine LogAt.append (h.log.congr fun a ha ha' => memcpy_of_not_mem (Or.inl ?_)) ⟨?_, trivial⟩
    · rwa [← h.wptr] at ha'
    · rw [← h.wptr]
      exact At.self
  wptr := by
    rw [recSectors_append, ← Nat.add_assoc, ← h.wptr]
    rfl
  room := hroom
  rest := fun a ha ha' => by
    have ha : znsAligment * (z.wptr + r.sectors) ≤ a := ha
    rw [memcpy_of_not_mem (Or.inr (by rwa [r.bytes_length, ← Nat.mul_add]))]
    exact h.rest a (le_trans (Nat.mul_le_mul_left _ (Nat.le_add_right _ _)) ha) ha'

/-- **A snapshot on an empty zone** is a log of one record. -/
theorem ZoneHolds.base (hz : ∀ a, z.Mem a → media a = 0) (r : Rec)
    (hroom : 1 + r.sectors < z.capacity) :
    ZoneHolds (memcpy media (znsAligment * z.sect) (zoneHeadBytes seq ++ r.bytes))
      { z with wptr := z.sect + (1 + r.sectors) } seq [r] where
  head := (at_append.mp At.self).1
  log := by
    refine ⟨?_, trivial⟩
    have hself : At (memcpy media (znsAligment * z.sect) (zoneHeadBytes seq ++ r.bytes))
      (znsAligment * z.sect) (zoneHeadBytes seq ++ r.bytes) := At.self
    have := (at_append.mp hself).2
    rwa [zoneHeadBytes_length] at this
  wptr := by
    show z.sect + (1 + r.sectors) = z.sect + 1 + (r.sectors + 0)
    omega
  room := by
    show z.sect + (1 + r.sectors) < z.sect + z.capacity
    omega
  rest := fun a ha ha' => by
    have ha : znsAligment * (z.sect + (1 + r.sectors)) ≤ a := ha
    have ha' : a < znsAligment * (z.sect + z.capacity) := ha'
    rw [memcpy_of_not_mem (Or.inr ?_), hz a ⟨?_, ha'⟩]
    · exact le_trans (Nat.mul_le_mul_left _ (Nat.le_add_right _ _)) ha
    · rw [length_append, zoneHeadBytes_length, r.bytes_length]
      rw [Nat.mul_add, Nat.mul_add, Nat.mul_one] at ha
      exact ha

end

/-! ### The buffer of a record -/

/-- A buffer with the head, the body and zeros behind it holds the record. -/
theorem at_record {buf : Buf} {r : Rec}
    (hh : At buf a (headBytes r.op (znsAligment * r.sectors - metadataHeadLen)))
    (hb : At buf (a + metadataHeadLen) r.body)
    (hz : ∀ i, a + metadataHeadLen + r.body.length ≤ i → i < a + znsAligment * r.sectors →
      buf i = 0) : At buf a r.bytes := by
  have hle := r.head_body_le
  rw [Rec.bytes, padTo, at_append, at_append, headBytes_length]
  refine ⟨⟨hh, hb⟩, ?_⟩
  rw [At, length_replicate]
  refine load_const fun i hi hi' => hz i ?_ ?_
  · rw [length_append, headBytes_length] at hi
    omega
  · rw [length_append, headBytes_length] at hi'
    omega

/-- A buffer that is empty but for the body of a record. -/
structure BodyAt (b : Buf) (r : Rec) : Prop where
  body : At b metadataHeadLen r.body
  rest : ∀ i, metadataHeadLen + r.body.length ≤ i → b i = 0

/-- With its head in front of it, the body is a record. -/
theorem BodyAt.record {r : Rec} (h : BodyAt b r) :
    At (memcpy b 0 (headBytes r.op (znsAligment * r.sectors - metadataHeadLen))) 0 r.bytes := by
  refine at_record At.self ?_ fun i hi _ => ?_
  · rw [Nat.zero_add]
    exact h.body.memcpy (Or.inr (by rw [headBytes_length, Nat.zero_add]))
  · rw [Nat.zero_add] at hi
    rw [memcpy_of_not_mem (Or.inr (by rw [headBytes_length, Nat.zero_add]; omega))]
    exact h.rest i hi

theorem bodyAt_copy (r : Rec) : BodyAt (memcpy (fun _ => 0) metadataHeadLen r.body) r :=
  ⟨At.self, fun _ hi => memcpy_of_not_mem (Or.inr hi)⟩

/-- A field for a name, in an otherwise empty buffer. -/
theorem at_field (hn : n.length ≤ fileNameLen) (ha : At b a n)
    (hz : ∀ i, a + n.length ≤ i → i < a + fileNameLen → b i = 0) : At b a (padTo fileNameLen n) := by
  rw [padTo, at_append]
  refine ⟨ha, ?_⟩
  rw [At, length_replicate]
  exact load_const fun i hi hi' => hz i hi (by omega)

theorem bodyAt_delete (hn : n.length ≤ fileNameLen) :
    BodyAt (memcpy (fun _ => 0) metadataHeadLen n) (.delete n) where
  body := at_field hn At.self fun i hi _ => memcpy_of_not_mem (Or.inr hi)
  rest := fun i hi => by
    rw [Rec.body, padTo_length hn] at hi
    exact memcpy_of_not_mem (Or.inr (by omega))

theorem bodyAt_replace {src dst : Name} (hsrc : src.length ≤ fileNameLen)
    (hdst : dst.length ≤ fileNameLen) :
    BodyAt (memcpy (memcpy (fun _ => 0) metadataHeadLen src) (metadataHeadLen + fileNameLen) dst)
      (.replace src dst) where
  body := by
    rw [Rec.body, at_append, padTo_length hsrc]
    refine ⟨at_field hsrc (At.self.memcpy (Or.inl (by omega))) fun i hi hi' => ?_,
      at_field hdst At.self fun i hi _ => ?_⟩
    · rw [memcpy_of_not_mem (Or.inl hi'), memcpy_of_not_mem (Or.inr hi)]
    · rw [memcpy_of_not_mem (Or.inr hi), memcpy_of_not_mem (Or.inr (by omega))]
  rest := fun i hi => by
    rw [Rec.body, length_append, padTo_length hsrc, padTo_length hdst] at hi
    rw [memcpy_of_not_mem (Or.inr (by omega)), memcpy_of_not_mem (Or.inr (by omega))]

/-- The snapshot of a table. -/
def Table.snapshot (t : Table) : List FileRec :=
  t.files.toList.filterMap fun x => x.2.map fun p => (t.objs p).entry 0

/-- The table after the loop of `FlushMetaData`. -/
def Table.markAll : List (Name × Option Ptr) → Table → Table
  | [], t => t
  | (_, none) :: fs, t => markAll fs t
  | (_, some p) :: fs, t => markAll fs (t.set p (t.objs p).marked)

/-- The table after a snapshot. -/
def Table.recorded (t : Table) : Table := t.markAll t.files.toList

/-- The table can be written: no object is deleted, the names fit, and so does the whole. -/
structure SnapOk (t : Table) : Prop where
  live : ∀ n p, t.find n = some p → t.freed p = false ∧ (t.objs p).name.length ≤ fileNameLen
  fits : metaZoneHeadLen + metadataHeadLen + 4 + (t.snapshot.flatMap FileRec.bytes).length
    < fileMetadataBufSize

theorem entry_set_marked (t : Table) (p q : Ptr) :
    ((t.set p (t.objs p).marked).objs q).entry 0 = (t.objs q).entry 0 := by
  rw [Table.objs_set]
  by_cases h : q = p
  · subst h
    rw [update_self]
    rfl
  · rw [update_of_ne h]

theorem getFileMetaLen_eq {f : ZnsFile} (h : f.name.length ≤ fileNameLen) :
    getFileMetaLen f = (f.entry 0).bytes.length := by
  rw [FileRec.bytes_length h, getFileMetaLen, Nat.mul_comm]
  rfl

/-- **The loop over the table** writes the entries one behind the other. -/
theorem flushFiles_ok (fs : List (Name × Option Ptr)) : ∀ (buf : Buf) (dataLen fileNum : Nat)
    (t : Table) (es : List FileRec),
    (fs.filterMap fun x => x.2.map fun p => (t.objs p).entry 0) = es →
    (∀ x ∈ fs, ∀ p, x.2 = some p →
      t.freed p = false ∧ (t.objs p).name.length ≤ fileNameLen) →
    dataLen + (es.flatMap FileRec.bytes).length < fileMetadataBufSize →
    flushFiles fs buf dataLen fileNum t = .ok (Table.markAll fs t,
      some (memcpy buf dataLen (es.flatMap FileRec.bytes),
        dataLen + (es.flatMap FileRec.bytes).length, fileNum + es.length)) := by
  induction fs with
  | nil =>
    rintro buf dataLen fileNum t _ rfl - -
    simp [flushFiles, Table.markAll]
  | cons x fs ih =>
    intro buf dataLen fileNum t es he hl hfit
    obtain ⟨n, _ | p⟩ := x
    · rw [flushFiles, Table.markAll]
      exact ih buf dataLen fileNum t es he (fun y hy => hl y (mem_cons_of_mem _ hy)) hfit
    · obtain ⟨hf, hn⟩ := hl _ mem_cons_self p rfl
      rw [filterMap_cons] at he
      simp only [Option.map_some] at he
      subst he
      rw [flatMap_cons, length_append] at hfit ⊢
      have hlen := getFileMetaLen_eq hn
      have hsame : (fs.filterMap fun x => x.2.map fun q =>
          ((t.set p (t.objs p).marked).objs q).entry 0)
          = fs.filterMap fun x => x.2.map fun q => (t.objs q).entry 0 := by
        simp only [entry_set_marked]
      have hl' : ∀ y ∈ fs, ∀ q, y.2 = some q → (t.set p (t.objs p).marked).freed q = false ∧
          ((t.set p (t.objs p).marked).objs q).name.length ≤ fileNameLen := by
        intro y hy q hq
        obtain ⟨h1, h2⟩ := hl y (mem_cons_of_mem _ hy) q hq
        have := congrArg FileRec.name (entry_set_marked t p q)
        exact ⟨h1, (congrArg List.length this).trans_le h2⟩
      rw [flushFiles, hf, if_neg (by simp), if_neg (by omega), writeMetaToBuf_ok hn]
      simp only [bind, Except.bind, Bool.false_eq_true, if_false]
      rw [ih _ _ _ _ _ hsame hl' (by omega), Table.markAll, memcpy_append, length_cons,
        Nat.add_assoc, Nat.add_assoc, Nat.add_comm 1]

/-- The sectors of a snapshot that fits the buffer. -/
theorem snapshot_sectors {fs : List FileRec}
    (h : metaZoneHeadLen + metadataHeadLen + 4 + (fs.flatMap FileRec.bytes).length
      < fileMetadataBufSize) :
    sectorAlign (metaZoneHeadLen + metadataHeadLen + 4 + (fs.flatMap FileRec.bytes).length)
        = znsAligment * (1 + (Rec.base fs).sectors) ∧
      1 + (Rec.base fs).sectors ≤ fileMetadataBufSize / znsAligment := by
  rw [sectorAlign_eq, Rec.sectors, Rec.body, length_append, le_length]
  simp only [metaZoneHeadLen, metadataHeadLen, znsAligment, fileMetadataBufSize] at *
  omega

/-- The buffer of a snapshot: the zone head and the record. -/
theorem snapshot_buf (seq : Nat) (fs : List FileRec) :
    At (memcpy (memcpy (memcpy (memcpy (fun _ => 0) 0 (zoneHeadBytes seq))
          (metaZoneHeadLen + metadataHeadLen + 4) (fs.flatMap FileRec.bytes))
        (metaZoneHeadLen + metadataHeadLen) (le 4 fs.length))
      metaZoneHeadLen (headBytes .base (znsAligment * (Rec.base fs).sectors - metadataHeadLen)))
      0 (zoneHeadBytes seq ++ (Rec.base fs).bytes) := by
  have hhead : ∀ n, (headBytes .base n).length = 12 := fun n => headBytes_length _ _
  rw [at_append]
  constructor
  · refine ((At.self.memcpy (Or.inl ?_)).memcpy (Or.inl ?_)).memcpy (Or.inl ?_) <;>
      simp [metaZoneHeadLen, metadataHeadLen, znsAligment]
  · rw [zoneHeadBytes_length, Nat.zero_add]
    refine at_record At.self (at_append.mpr ⟨?_, ?_⟩) fun i hi hi' => ?_
    · refine At.self.memcpy (Or.inr ?_)
      simp [metaZoneHeadLen, metadataHeadLen, hhead]
    · rw [le_length]
      refine (At.self.memcpy (Or.inr ?_)).memcpy (Or.inr ?_) <;>
        simp [metaZoneHeadLen, metadataHeadLen, hhead]
    · rw [Rec.body, length_append, le_length] at hi
      simp only [metadataHeadLen, znsAligment] at hi
      rw [memcpy_of_not_mem, memcpy_of_not_mem, memcpy_of_not_mem, memcpy_of_not_mem] <;>
        simp only [zoneHeadBytes_length, le_length, headBytes_length, metaZoneHeadLen,
          metadataHeadLen, znsAligment] <;> omega

/-! ### The environment -/

/-- The two zones: they lie on the device and do not overlap, each has room for the largest snapshot,
one of them is the current one; and the device's commands succeed. -/
structure MdGeometry (m : Metadata) : Prop where
  ok : m.AllOk
  curr : m.currZoneIndex < 2
  disj : (m.zone 0).sect + (m.zone 0).capacity ≤ (m.zone 1).sect
  cap : ∀ i < 2, fileMetadataBufSize / znsAligment < (m.zone i).capacity
  inside : ∀ i < 2, (m.zone i).sect + (m.zone i).capacity ≤ m.nsect

/-- The current zone. -/
def Metadata.curr (m : Metadata) : MetaZone := m.zone m.currZoneIndex

/-- The other zone. -/
def Metadata.other (m : Metadata) : MetaZone := m.zone (1 - m.currZoneIndex)

/-- The addresses of the zones are disjoint. -/
theorem MdGeometry.not_mem (h : MdGeometry m) (ha : m.curr.Mem a) : ¬ m.other.Mem a := by
  have hd := h.disj
  have hc := h.curr
  simp only [Metadata.curr, Metadata.other, MetaZone.Mem, znsAligment] at *
  obtain e | e : m.currZoneIndex = 0 ∨ m.currZoneIndex = 1 := by omega
  · rw [e] at ha ⊢
    simp only [Nat.sub_zero]
    omega
  · rw [e] at ha ⊢
    simp only [Nat.sub_self]
    omega

theorem MdGeometry.ne (h : MdGeometry m) : (m.zone 0).sect ≠ (m.zone 1).sect := by
  have hd := h.disj
  have hc := Nat.zero_lt_of_lt (h.cap 0 (by decide))
  omega

theorem MdGeometry.sect_lt (h : MdGeometry m) {i : Nat} (hi : i < 2) :
    (m.zone i).sect < m.nsect := by
  have hc := Nat.zero_lt_of_lt (h.cap i hi)
  have hin := h.inside i hi
  omega

/-- A metadata state with another current zone descriptor. -/
def Metadata.setCurr (m : Metadata) (media : Buf) (z : MetaZone) (cmds : Nat) : Metadata :=
  { m with media := media, zone := update m.zone m.currZoneIndex z, cmds := cmds }

section

variable {m : Metadata} {media : Buf} {z : MetaZone} {c : Nat}

@[simp] theorem Metadata.curr_setCurr : (m.setCurr media z c).curr = z := update_self _ _ _

theorem Metadata.other_setCurr (h : m.currZoneIndex < 2) :
    (m.setCurr media z c).other = m.other := update_of_ne (by
  show 1 - m.currZoneIndex ≠ m.currZoneIndex
  omega) _ _

/-- Only the write pointer of the zone may change. -/
theorem MdGeometry.setCurr (h : MdGeometry m) (hs : z.sect = m.curr.sect)
    (hc : z.capacity = m.curr.capacity) : MdGeometry (m.setCurr media z c) := by
  have hz : ∀ i, ((m.setCurr media z c).zone i).sect = (m.zone i).sect ∧
      ((m.setCurr media z c).zone i).capacity = (m.zone i).capacity := by
    intro i
    by_cases e : i = m.currZoneIndex
    · subst e
      rw [show (m.setCurr media z c).zone m.currZoneIndex = z from update_self _ _ _]
      exact ⟨hs, hc⟩
    · rw [show (m.setCurr media z c).zone i = m.zone i from update_of_ne e _ _]
      exact ⟨rfl, rfl⟩
  refine ⟨h.ok, h.curr, ?_, fun i hi => ?_, fun i hi => ?_⟩
  · rw [(hz 0).1, (hz 0).2, (hz 1).1]
    exact h.disj
  · rw [(hz i).2]
    exact h.cap i hi
  · rw [(hz i).1, (hz i).2]
    exact h.inside i hi

end

/-- **A snapshot on a fresh zone.** -/
theorem flushMetaData_blank {e : Env} (hp : e.md.Patient) (hs : SnapOk e.tbl)
    (hw : e.md.curr.wptr = e.md.curr.sect)
    (hroom : 1 + (Rec.base e.tbl.snapshot).sectors < e.md.curr.capacity) :
    ∃ c, flushMetaData e = .ok ({ e with
      tbl := e.tbl.recorded
      sequence := (e.sequence + 1) % 2 ^ 64
      md := e.md.setCurr
        (memcpy e.md.media (znsAligment * e.md.curr.sect)
          (zoneHeadBytes e.sequence ++ (Rec.base e.tbl.snapshot).bytes))
        { e.md.curr with wptr := e.md.curr.sect + (1 + (Rec.base e.tbl.snapshot).sectors) } c },
      .ok) := by
  obtain ⟨halign, -⟩ := snapshot_sectors hs.fits
  have hfiles := flushFiles_ok e.tbl.files.toList (memcpy (fun _ => 0) 0 (zoneHeadBytes e.sequence))
    (metaZoneHeadLen + metadataHeadLen + 4) 0 e.tbl e.tbl.snapshot rfl
    (fun x hx p hp => hs.live x.1 p (by
      rw [Table.find_eq_some, ← hp]
      exact hx)) hs.fits
  have hlen : znsAligment * (1 + (Rec.base e.tbl.snapshot).sectors) - metadataHeadLen
      - metaZoneHeadLen = znsAligment * (Rec.base e.tbl.snapshot).sectors - metadataHeadLen := by
    simp only [metaZoneHeadLen, metadataHeadLen, znsAligment]
    omega
  have hbuf := snapshot_buf e.sequence e.tbl.snapshot
  rw [At, length_append, zoneHeadBytes_length, Rec.bytes_length,
    show znsAligment + znsAligment * (Rec.base e.tbl.snapshot).sectors
      = znsAligment * (1 + (Rec.base e.tbl.snapshot).sectors) by rw [Nat.mul_add, Nat.mul_one]] at hbuf
  obtain ⟨c, hwrite⟩ := zrocksWriteFileMetadata_ok hp (z := e.md.curr) rfl
    (k := 1 + (Rec.base e.tbl.snapshot).sectors)
    (by rw [hw]; exact Nat.add_lt_add_left hroom _)
  rw [hbuf, hw] at hwrite
  refine ⟨c, ?_⟩
  rw [flushMetaData]
  simp only [hfiles, bind, Except.bind, Nat.zero_add, halign, hlen, hwrite]
  rfl

/-- **The log in the zones.**  The current zone holds snapshot number `seq` and what followed; the
other zone has no head, or holds the log in front of the snapshot. -/
structure LogIn (m : Metadata) (seq : Nat) (recs : List Rec) : Prop where
  geo : MdGeometry m
  holds : ZoneHolds m.media m.curr seq recs
  other : m.media (znsAligment * m.other.sect) ≠ metadataMagic ∨
    ∃ recs', 0 < seq ∧ ZoneHolds m.media m.other (seq - 1) recs'

section

variable {m : Metadata} {seq c : Nat} {recs : List Rec} {r : Rec}

/-- The addresses from the write pointer on are not in the other zone. -/
theorem LogIn.not_mem_other (h : LogIn m seq recs)
    (hroom : m.curr.wptr + r.sectors < m.curr.sect + m.curr.capacity)
    (ha : m.other.Mem a) : a < znsAligment * m.curr.wptr ∨
      znsAligment * m.curr.wptr + r.bytes.length ≤ a := by
  by_contra hc
  refine h.geo.not_mem ⟨?_, ?_⟩ ha
  · have := h.holds.wptr
    simp only [r.bytes_length, znsAligment] at *
    omega
  · simp only [r.bytes_length, znsAligment] at *
    omega

theorem MdGeometry.head_mem (h : MdGeometry m) : m.other.Mem (znsAligment * m.other.sect) := by
  have hc := Nat.zero_lt_of_lt (h.cap (1 - m.currZoneIndex) (by have := h.curr; omega))
  refine ⟨le_refl _, Nat.mul_lt_mul_of_pos_left ?_ (by decide)⟩
  exact Nat.lt_add_of_pos_right hc

/-- A record at the write pointer. -/
theorem LogIn.append (h : LogIn m seq recs)
    (hroom : m.curr.wptr + r.sectors < m.curr.sect + m.curr.capacity) :
    LogIn (m.setCurr (memcpy m.media (znsAligment * m.curr.wptr) r.bytes)
      { m.curr with wptr := m.curr.wptr + r.sectors } c) seq (recs ++ [r]) := by
  have hkeep : ∀ a, m.other.Mem a →
      memcpy m.media (znsAligment * m.curr.wptr) r.bytes a = m.media a := fun a ha =>
    memcpy_of_not_mem (h.not_mem_other hroom ha)
  refine ⟨h.geo.setCurr rfl rfl, ?_, ?_⟩
  · rw [Metadata.curr_setCurr]
    exact h.holds.append r hroom
  · rw [Metadata.other_setCurr h.geo.curr]
    rcases h.other with ho | ⟨recs', hpos, ho⟩
    · left
      exact (hkeep _ h.geo.head_mem).trans_ne ho
    · exact Or.inr ⟨recs', hpos, ho.congr hkeep⟩

/-- The metadata state after a write that found the zone full. -/
def Metadata.switched (m : Metadata) : Metadata :=
  { m with
    currZoneIndex := 1 - m.currZoneIndex
    media := cleared m.media m.other
    zone := update m.zone (1 - m.currZoneIndex) { m.other with wptr := m.other.sect }
    cmds := m.cmds + 1 }

theorem Metadata.curr_switched : m.switched.curr = { m.other with wptr := m.other.sect } :=
  update_self _ _ _

theorem Metadata.other_switched (h : m.currZoneIndex < 2) : m.switched.other = m.curr := by
  show update m.zone (1 - m.currZoneIndex) _ (1 - (1 - m.currZoneIndex)) = _
  rw [update_of_ne (by omega), show 1 - (1 - m.currZoneIndex) = m.currZoneIndex by omega]
  rfl

theorem MdGeometry.switched (h : MdGeometry m) : MdGeometry m.switched := by
  have hz : ∀ i, (m.switched.zone i).sect = (m.zone i).sect ∧
      (m.switched.zone i).capacity = (m.zone i).capacity := by
    intro i
    by_cases e : i = 1 - m.currZoneIndex
    · subst e
      rw [show m.switched.zone (1 - m.currZoneIndex) = _ from Metadata.curr_switched]
      exact ⟨rfl, rfl⟩
    · rw [show m.switched.zone i = m.zone i from update_of_ne e _ _]
      exact ⟨rfl, rfl⟩
  refine ⟨h.ok, ?_, ?_, fun i hi => ?_, fun i hi => ?_⟩
  · show 1 - m.currZoneIndex < 2
    omega
  · rw [(hz 0).1, (hz 0).2, (hz 1).1]
    exact h.disj
  · rw [(hz i).2]
    exact h.cap i hi
  · rw [(hz i).1, (hz i).2]
    exact h.inside i hi

/-- A snapshot in the other zone; the old log stays where it is. -/
theorem LogIn.snapshot (h : LogIn m seq recs) (hroom : 1 + r.sectors < m.other.capacity) :
    ∃ m', m' = m.switched.setCurr
      (memcpy m.switched.media (znsAligment * m.other.sect) (zoneHeadBytes (seq + 1) ++ r.bytes))
      { m.other with wptr := m.other.sect + (1 + r.sectors) } c ∧
      ZoneHolds m'.media m'.other seq recs ∧ LogIn m' (seq + 1) [r] := by
  refine ⟨_, rfl, ?_⟩
  have hg := h.geo.switched
  have hclear : ∀ a, m.other.Mem a → m.switched.media a = 0 := fun a ha => if_pos ha
  have hkept : ZoneHolds (memcpy m.switched.media (znsAligment * m.other.sect)
      (zoneHeadBytes (seq + 1) ++ r.bytes)) m.curr seq recs := by
    refine h.holds.congr fun a ha => ?_
    have hno := h.geo.not_mem ha
    rw [memcpy_of_not_mem ?_]
    · exact if_neg hno
    · by_contra hc
      refine hno ?_
      rw [length_append, zoneHeadBytes_length, r.bytes_length] at hc
      simp only [MetaZone.Mem, znsAligment] at *
      omega
  rw [Metadata.other_setCurr hg.curr, Metadata.other_switched h.geo.curr]
  refine ⟨hkept, hg.setCurr ?_ ?_, ?_, Or.inr ⟨recs, Nat.succ_pos _, ?_⟩⟩
  · rw [Metadata.curr_switched]
  · rw [Metadata.curr_switched]
  · rw [Metadata.curr_setCurr]
    exact ZoneHolds.base hclear r hroom
  · rw [Metadata.other_setCurr hg.curr, Metadata.other_switched h.geo.curr, Nat.add_sub_cancel]
    exact hkept

end

/-- The log of an environment. -/
structure Logged (e : Env) (seq : Nat) (recs : List Rec) : Prop where
  log : LogIn e.md seq recs
  sequence : e.sequence = (seq + 1) % 2 ^ 64

/-- The current zone has room for a record. -/
def Env.Room (e : Env) (r : Rec) : Prop :=
  e.md.curr.wptr + r.sectors < e.md.curr.sect + e.md.curr.capacity

/-- What a record does to the log, and to the table: nothing, or it marks the files as recorded.  The
last two arguments are the number and the records of the new log. -/
inductive Flushed (e : Env) (seq : Nat) (recs : List Rec) (r : Rec) (e' : Env) :
    Nat → List Rec → Prop where
  | append (room : e.Room r) (tbl : e'.tbl = e.tbl)
      (curr : e'.md.curr = { e.md.curr with wptr := e.md.curr.wptr + r.sectors }) :
      Flushed e seq recs r e' seq (recs ++ [r])
  | snapshot (full : ¬ e.Room r) (tbl : e'.tbl = e.tbl.recorded)
      (kept : ZoneHolds e'.md.media e'.md.other seq recs) :
      Flushed e seq recs r e' (seq + 1) [.base e.tbl.snapshot]

theorem zoneHeadBytes_mod (seq : Nat) : zoneHeadBytes (seq % 2 ^ 64) = zoneHeadBytes seq := by
  rw [zoneHeadBytes, zoneHeadBytes, ← le_mod 4 (seq % 2 ^ 64), ← le_mod 4 seq]
  congr 3
  omega

/-- A zone head has 32 bits of the number. -/
theorem zoneHeadBytes_mod32 (seq : Nat) : zoneHeadBytes (seq % 2 ^ 32) = zoneHeadBytes seq := by
  rw [zoneHeadBytes, zoneHeadBytes, ← le_mod 4 (seq % 2 ^ 32), ← le_mod 4 seq, Nat.mod_mod_of_dvd]
  exact dvd_refl _

section

variable {e : Env} {seq : Nat} {recs : List Rec} {r : Rec} {buf : Buf} {dataLen : Nat}

/-- The snapshot after a switch. -/
theorem Logged.snapshot (h : Logged e seq recs) (hs : SnapOk e.tbl) :
    ∃ e', flushMetaData { e with md := e.md.switched } = .ok (e', .ok) ∧
      e'.nidFileMap = e.nidFileMap ∧ e'.tbl = e.tbl.recorded ∧
      ZoneHolds e'.md.media e'.md.other seq recs ∧
      Logged e' (seq + 1) [.base e.tbl.snapshot] := by
  have hg := h.log.geo
  obtain ⟨-, hmax⟩ := snapshot_sectors hs.fits
  have hcap := lt_of_le_of_lt hmax (hg.cap (1 - e.md.currZoneIndex) (by have := hg.curr; omega))
  obtain ⟨c, hsnap⟩ := flushMetaData_blank (e := { e with md := e.md.switched })
    hg.ok.patient hs (by rw [Metadata.curr_switched]) (by rwa [Metadata.curr_switched])
  have hseq : zoneHeadBytes e.sequence = zoneHeadBytes (seq + 1) := by
    rw [h.sequence, zoneHeadBytes_mod]
  simp only [Metadata.curr_switched, hseq] at hsnap
  obtain ⟨m', hm', hkept, hlog⟩ := h.log.snapshot hcap
  rw [← hm'] at hsnap
  refine ⟨_, hsnap, rfl, rfl, hkept, hlog, ?_⟩
  rw [h.sequence, Nat.mod_add_mod]

/-- **A record of the log.**  It is appended, or replaced by a snapshot in the other zone. -/
theorem Logged.flush (h : Logged e seq recs)
    (halign : sectorAlign dataLen = znsAligment * r.sectors)
    (hbuf : At (memcpy buf 0 (headBytes r.op (znsAligment * r.sectors - metadataHeadLen))) 0 r.bytes)
    (hs : ¬ e.Room r → SnapOk e.tbl) :
    ∃ e' seq' recs', flushRecord e r.op buf dataLen = .ok e' ∧ e'.nidFileMap = e.nidFileMap ∧
      Flushed e seq recs r e' seq' recs' ∧ Logged e' seq' recs' := by
  have hg := h.log.geo
  rw [At, Rec.bytes_length] at hbuf
  by_cases hroom : e.Room r
  · obtain ⟨c, hwrite⟩ := zrocksWriteFileMetadata_ok hg.ok.patient (z := e.md.curr) rfl
      (k := r.sectors) hroom
    rw [hbuf] at hwrite
    obtain ⟨m', hw, hc, hl⟩ : ∃ m', zrocksWriteFileMetadata e.md
        (memcpy buf 0 (headBytes r.op (znsAligment * r.sectors - metadataHeadLen)))
        (znsAligment * r.sectors) = (m', xztlOk) ∧
        m'.curr = { e.md.curr with wptr := e.md.curr.wptr + r.sectors } ∧
        LogIn m' seq (recs ++ [r]) :=
      ⟨_, hwrite, Metadata.curr_setCurr, h.log.append hroom⟩
    refine ⟨{ e with md := m' }, _, _, ?_, rfl, .append hroom rfl hc, hl, h.sequence⟩
    rw [flushRecord]
    simp only [halign, hw]
    rfl
  · have hwrite : zrocksWriteFileMetadata e.md
        (memcpy buf 0 (headBytes r.op (znsAligment * r.sectors - metadataHeadLen)))
        (znsAligment * r.sectors) = (e.md.switched, mdWriteFull) :=
      zrocksWriteFileMetadata_full (hg.ok _) hg.ne hg.curr rfl rfl (Nat.le_of_not_lt hroom)
    obtain ⟨e', hsnap, hnid, htbl, hkept, hl⟩ := h.snapshot (hs hroom)
    refine ⟨e', _, _, ?_, hnid, .snapshot hroom htbl hkept, hl⟩
    rw [flushRecord]
    simp only [halign, hwrite, if_true, hsnap]
    rfl

theorem Logged.setTbl (h : Logged e seq recs) (t : Table) : Logged { e with tbl := t } seq recs :=
  ⟨h.log, h.sequence⟩

/-- A record whose body stands in an otherwise empty buffer. -/
theorem Logged.flushBody (h : Logged e seq recs) (hb : BodyAt b r)
    (hs : ¬ e.Room r → SnapOk e.tbl) :
    ∃ e' seq' recs', flushRecord e r.op b (metadataHeadLen + r.body.length) = .ok e' ∧
      e'.nidFileMap = e.nidFileMap ∧ Flushed e seq recs r e' seq' recs' ∧ Logged e' seq' recs' :=
  h.flush (sectorAlign_eq _) hb.record hs

/-! ### The four kinds of records -/

/-- The most pieces that fit a sector behind the head and the file's data: 491. -/
def maxPieces : Nat := (znsAligment - metadataHeadLen - zrocksFileMetaLen) / zrocksMapLen

section

variable (h : Logged e seq recs)
include h

theorem Logged.flushFile {op : Operation} {update : Bool} {i : Nat}
    (hi : i = if update then (e.tbl.objs p).startIndex else 0) (hop : r.op = op)
    (hr : r.body = ((e.tbl.objs p).entry i).bytes)
    (hname : (e.tbl.objs p).name.length ≤ fileNameLen)
    (hmax : ((e.tbl.objs p).map.drop i).length ≤ maxPieces)
    (hs : SnapOk (e.tbl.set p (e.tbl.objs p).marked)) :
    ∃ e' seq' recs', Xztl.flushFile e p op update = .ok e' ∧ e'.nidFileMap = e.nidFileMap ∧
      Flushed { e with tbl := e.tbl.set p (e.tbl.objs p).marked } seq recs r e' seq' recs' ∧
      Logged e' seq' recs' := by
  have hlen : r.body.length = zrocksFileMetaLen + zrocksMapLen * ((e.tbl.objs p).map.drop i).length :=
    hr ▸ FileRec.bytes_length hname
  obtain ⟨e', seq', recs', he, hnid, hfl⟩ :=
    (h.setTbl (e.tbl.set p (e.tbl.objs p).marked)).flushBody (bodyAt_copy r) fun _ => hs
  refine ⟨e', seq', recs', ?_, hnid, hfl⟩
  rw [Xztl.flushFile, writeMetaToBuf_ok hname]
  simp only [bind, Except.bind, ← hi, ← hr]
  rw [if_neg, ← hop]
  · exact he
  · rw [hlen]
    simp only [maxPieces, metadataHeadLen, zrocksFileMetaLen, zrocksMapLen, znsAligment] at *
    omega

/-- **An update** records the pieces from `startIndex` on. -/
theorem Logged.flushUpdate (hne : (e.tbl.objs p).startIndex ≠ (e.tbl.objs p).map.length)
    (hname : (e.tbl.objs p).name.length ≤ fileNameLen)
    (hmax : ((e.tbl.objs p).map.drop (e.tbl.objs p).startIndex).length ≤ maxPieces)
    (hs : SnapOk (e.tbl.set p (e.tbl.objs p).marked)) :
    ∃ e' seq' recs', flushUpdateMetaData e p = .ok e' ∧ e'.nidFileMap = e.nidFileMap ∧
      Flushed { e with tbl := e.tbl.set p (e.tbl.objs p).marked } seq recs
        (.update ((e.tbl.objs p).entry (e.tbl.objs p).startIndex)) e' seq' recs' ∧
      Logged e' seq' recs' := by
  rw [flushUpdateMetaData, if_neg hne]
  exact h.flushFile (if_pos rfl).symm rfl rfl hname hmax hs

theorem Logged.flushGCChange (hname : (e.tbl.objs p).name.length ≤ fileNameLen)
    (hmax : (e.tbl.objs p).map.length ≤ maxPieces)
    (hs : SnapOk (e.tbl.set p (e.tbl.objs p).marked)) :
    ∃ e' seq' recs', flushGCChangeMetaData e p = .ok e' ∧ e'.nidFileMap = e.nidFileMap ∧
      Flushed { e with tbl := e.tbl.set p (e.tbl.objs p).marked } seq recs
        (.gcChange ((e.tbl.objs p).entry 0)) e' seq' recs' ∧ Logged e' seq' recs' :=
  h.flushFile (if_neg (by simp)).symm rfl rfl hname hmax hs

theorem Logged.flushDel (hn : n.length ≤ fileNameLen) (hs : SnapOk e.tbl) :
    ∃ e' seq' recs', flushDelMetaData e n = .ok e' ∧ e'.nidFileMap = e.nidFileMap ∧
      Flushed e seq recs (.delete n) e' seq' recs' ∧ Logged e' seq' recs' := by
  have hlen : (Rec.delete n).body.length = fileNameLen := padTo_length hn
  rw [flushDelMetaData, if_neg]
  · have := h.flushBody (bodyAt_delete hn) fun _ => hs
    rwa [hlen] at this
  · simp only [metadataHeadLen, fileNameLen, znsAligment] at *
    omega

theorem Logged.flushReplace {src dst : Name} (hsrc : src.length ≤ fileNameLen)
    (hdst : dst.length ≤ fileNameLen) (hs : SnapOk e.tbl) :
    ∃ e' seq' recs', flushReplaceMetaData e src dst = .ok e' ∧ e'.nidFileMap = e.nidFileMap ∧
      Flushed e seq recs (.replace src dst) e' seq' recs' ∧ Logged e' seq' recs' := by
  have hlen : (Rec.replace src dst).body.length = fileNameLen + fileNameLen := by
    rw [Rec.body, length_append, padTo_length hsrc, padTo_length hdst]
  rw [flushReplaceMetaData, if_neg]
  · have := h.flushBody (bodyAt_replace hsrc hdst) fun _ => hs
    rwa [hlen, ← Nat.add_assoc] at this
  · simp only [metadataHeadLen, fileNameLen, znsAligment] at *
    omega

end

end

end Xztl
