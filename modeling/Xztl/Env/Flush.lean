import Xztl.Env.Record

/-!
# Env — writing the log (`env_zns.cc`, the `Flush…MetaData` functions)

Each change of a file is written as one record, built in a buffer of one sector; when the metadata
zone is full the write switches zones and a snapshot of the whole table is written instead
(`FlushMetaData`).  The four functions that write a record end in the same way, `flushRecord`.

`writeMetaToBuf` marks the pieces it writes as recorded (`startIndex`), before it is known whether
the record reaches the log.  Copying past the end of a buffer stops the model, and so does a deleted
object in the table.

Whatever happens on the device, writing to the log changes nothing in memory but these marks:
`Table.Same` is that relation, and each function has a lemma that says so.
-/

namespace Xztl

open Function Bytes Except

/-- `ZNSFile::WriteMetaToBuf`: the buffer with the entry at `a`, its length, and the file.  With
`update` only the pieces from `startIndex` on are written. -/
def writeMetaToBuf (f : ZnsFile) (buf : Buf) (a : Nat) (update : Bool) :
    Except Stop (Buf × Nat × ZnsFile) :=
  let i := if update then f.startIndex else 0
  if f.name.length > fileNameLen then .error .outOfBounds
  else
    .ok (memcpy buf a (fileMetaBytes f.level f.size (f.map.length - i) f.name ++
        (f.map.drop i).flatMap fun m => le 8 m.word),
      zrocksFileMetaLen + zrocksMapLen * (f.map.length - i),
      { f with startIndex := f.map.length })

/-- `ZNSFile::GetFileMetaLen`. -/
def getFileMetaLen (f : ZnsFile) : Nat := zrocksFileMetaLen + f.map.length * zrocksMapLen

/-- The loop of `FlushMetaData` over the table, with the buffer, its length and the number of files
so far; without them when the buffer would overflow. -/
def flushFiles : List (Name × Option Ptr) → Buf → (dataLen fileNum : Nat) → Table →
    Except Stop (Table × Option (Buf × Nat × Nat))
  | [], buf, dataLen, fileNum, t => .ok (t, some (buf, dataLen, fileNum))
  | (_, none) :: fs, buf, dataLen, fileNum, t => flushFiles fs buf dataLen fileNum t
  | (_, some p) :: fs, buf, dataLen, fileNum, t =>
    if t.freed p then .error .dangling
    else if dataLen + getFileMetaLen (t.objs p) ≥ fileMetadataBufSize then .ok (t, none)
    else do
      let (buf, length, f) ← writeMetaToBuf (t.objs p) buf dataLen false
      flushFiles fs buf (dataLen + length) (fileNum + 1) (t.set p f)

/-- `ZNSEnv::FlushMetaData`. -/
def flushMetaData (e : Env) : Except Stop (Env × Status) := do
  let buf := memcpy (fun _ => 0) 0 (zoneHeadBytes e.sequence)
  let dataLen := metaZoneHeadLen + metadataHeadLen + 4
  let (tbl, r) ← flushFiles e.tbl.files.toList buf dataLen 0 e.tbl
  let e := { e with tbl := tbl, sequence := (e.sequence + 1) % 2 ^ 64 }
  match r with
  | none => return (e, .memoryLimit)
  | some (buf, dataLen, fileNum) =>
    let buf := memcpy buf (metaZoneHeadLen + metadataHeadLen) (le 4 fileNum)
    let dataLen := sectorAlign dataLen
    let buf := memcpy buf metaZoneHeadLen
      (headBytes .base (dataLen - metadataHeadLen - metaZoneHeadLen))
    let (md, ret) := zrocksWriteFileMetadata e.md buf dataLen
    let md := if ret = mdWriteFull then (zrocksWriteFileMetadata md buf dataLen).1 else md
    return ({ e with md := md }, .ok)

/-- The common end of the functions below: align, put the head in front, write, and write a snapshot
when the zone is full. -/
def flushRecord (e : Env) (op : Operation) (buf : Buf) (dataLen : Nat) : Except Stop Env := do
  let dataLen := sectorAlign dataLen
  let buf := memcpy buf 0 (headBytes op (dataLen - metadataHeadLen))
  let (md, ret) := zrocksWriteFileMetadata e.md buf dataLen
  let e := { e with md := md }
  if ret = mdWriteFull then
    let (e, _) ← flushMetaData e
    return e
  else return e

/-- A record with the entry of a file. -/
def flushFile (e : Env) (p : Ptr) (op : Operation) (update : Bool) : Except Stop Env := do
  let (buf, length, f) ← writeMetaToBuf (e.tbl.objs p) (fun _ => 0) metadataHeadLen update
  if metadataHeadLen + length > znsAligment then .error .outOfBounds
  else flushRecord { e with tbl := e.tbl.set p f } op buf (metadataHeadLen + length)

/-- `ZNSEnv::FlushUpdateMetaData`. -/
def flushUpdateMetaData (e : Env) (p : Ptr) : Except Stop Env :=
  let f := e.tbl.objs p
  if f.startIndex = f.map.length then .ok e else flushFile e p .update true

/-- `ZNSEnv::FlushGCChangeMetaData`. -/
def flushGCChangeMetaData (e : Env) (p : Ptr) : Except Stop Env := flushFile e p .gcChange false

/-- `ZNSEnv::FlushDelMetaData`. -/
def flushDelMetaData (e : Env) (fileName : Name) : Except Stop Env :=
  if metadataHeadLen + fileName.length > znsAligment then .error .outOfBounds
  else
    flushRecord e .delete (memcpy (fun _ => 0) metadataHeadLen fileName)
      (metadataHeadLen + fileNameLen)

/-- `ZNSEnv::FlushReplaceMetaData`. -/
def flushReplaceMetaData (e : Env) (srcName destName : Name) : Except Stop Env :=
  if metadataHeadLen + srcName.length > znsAligment ∨
      metadataHeadLen + fileNameLen + destName.length > znsAligment then .error .outOfBounds
  else
    flushRecord e .replace
      (memcpy (memcpy (fun _ => 0) metadataHeadLen srcName) (metadataHeadLen + fileNameLen) destName)
      (metadataHeadLen + fileNameLen + fileNameLen)

/-! ### The entries of files -/

/-- The conversion of a level to `int8_t`. -/
def toInt8 (l : Int) : Int := (l + 128) % 256 - 128

/-- The entry of a file, its pieces from `i` on. -/
def ZnsFile.entry (f : ZnsFile) (i : Nat) : FileRec where
  name := f.name
  level := toInt8 f.level
  size := f.size % 2 ^ 64
  pieces := f.map.drop i

/-- A file whose pieces are all marked as recorded. -/
def ZnsFile.marked (f : ZnsFile) : ZnsFile := { f with startIndex := f.map.length }

/-- What `WriteMetaToBuf` writes is the entry. -/
theorem entry_bytes (f : ZnsFile) (i : Nat) :
    (f.entry i).bytes = fileMetaBytes f.level f.size (f.map.length - i) f.name ++
      (f.map.drop i).flatMap fun m => le 8 m.word := by
  have hl : toInt8 f.level % 256 = f.level % 256 := by
    rw [toInt8]
    omega
  simp only [FileRec.bytes, ZnsFile.entry, fileMetaBytes, hl, List.length_drop]
  rw [show f.size % 2 ^ 64 = f.size % 256 ^ 8 from rfl, le_mod]

theorem writeMetaToBuf_ok {f : ZnsFile} (h : f.name.length ≤ fileNameLen) (buf : Buf) (a : Nat)
    (update : Bool) :
    writeMetaToBuf f buf a update =
      .ok (memcpy buf a (f.entry (if update then f.startIndex else 0)).bytes,
        (f.entry (if update then f.startIndex else 0)).bytes.length, f.marked) := by
  rw [writeMetaToBuf]
  simp only [if_neg (Nat.not_lt_of_le h)]
  rw [FileRec.bytes_length h, entry_bytes]
  simp [ZnsFile.entry, ZnsFile.marked]

/-! ### What the log leaves alone -/

/-- Two tables that differ only in what is marked as recorded. -/
structure Table.Same (t t' : Table) : Prop where
  files : t'.files = t.files
  freed : t'.freed = t.freed
  next : t'.next = t.next
  objs : ∀ p, ∃ i, t'.objs p = { t.objs p with startIndex := i }

namespace Table.Same

variable {t t' t'' : Table}

theorem refl (t : Table) : t.Same t := ⟨rfl, rfl, rfl, fun p => ⟨(t.objs p).startIndex, rfl⟩⟩

theorem trans (h : t.Same t') (h' : t'.Same t'') : t.Same t'' where
  files := h'.files.trans h.files
  freed := h'.freed.trans h.freed
  next := h'.next.trans h.next
  objs := fun p => by
    obtain ⟨i, hi⟩ := h.objs p
    obtain ⟨j, hj⟩ := h'.objs p
    exact ⟨j, by rw [hj, hi]⟩

theorem find (h : t.Same t') (n : Name) : t'.find n = t.find n := by
  rw [Table.find, h.files, Table.find]

theorem map (h : t.Same t') (p : Ptr) : (t'.objs p).map = (t.objs p).map := by
  obtain ⟨i, hi⟩ := h.objs p
  rw [hi]

theorem marked (t : Table) (p : Ptr) : t.Same (t.set p (t.objs p).marked) := by
  refine ⟨rfl, rfl, rfl, fun q => ?_⟩
  rw [objs_set]
  by_cases e : q = p
  · subst e
    exact ⟨_, update_self _ _ _⟩
  · exact ⟨(t.objs q).startIndex, update_of_ne e _ _⟩

end Table.Same

section

variable {e e' : Env} {p : Ptr} {buf : Buf} {a dataLen : Nat}

theorem writeMetaToBuf_marked {f f' : ZnsFile} {update : Bool} {buf' : Buf} {length : Nat}
    (h : writeMetaToBuf f buf a update = .ok (buf', length, f')) : f' = f.marked := by
  rw [writeMetaToBuf] at h
  split at h
  · cases h
  · cases h
    rfl

theorem flushFiles_same (fs : List (Name × Option Ptr)) : ∀ {buf : Buf} {dataLen fileNum : Nat}
    {t t' : Table} {r : Option (Buf × Nat × Nat)},
    flushFiles fs buf dataLen fileNum t = .ok (t', r) → t.Same t' := by
  induction fs with
  | nil =>
    intro buf dataLen fileNum t t' r h
    cases h
    exact .refl t
  | cons x fs ih =>
    obtain ⟨n, _ | p⟩ := x
    · exact fun h => ih h
    · intro buf dataLen fileNum t t' r h
      rw [flushFiles] at h
      by_cases hf : t.freed p = true
      · rw [if_pos hf] at h
        cases h
      rw [if_neg hf] at h
      by_cases hb : dataLen + getFileMetaLen (t.objs p) ≥ fileMetadataBufSize
      · rw [if_pos hb] at h
        cases h
        exact .refl t
      rw [if_neg hb] at h
      obtain ⟨⟨buf', length, f⟩, hw, h⟩ := bind_eq_ok.mp h
      obtain rfl := writeMetaToBuf_marked hw
      exact (Table.Same.marked t p).trans (ih h)

theorem flushMetaData_same {st : Status} (h : flushMetaData e = .ok (e', st)) :
    e.tbl.Same e'.tbl ∧ e'.nidFileMap = e.nidFileMap := by
  rw [flushMetaData] at h
  obtain ⟨⟨t, r⟩, hf, h⟩ := bind_eq_ok.mp h
  have hs := flushFiles_same _ hf
  cases r with
  | none =>
    cases h
    exact ⟨hs, rfl⟩
  | some x =>
    cases h
    exact ⟨hs, rfl⟩

theorem flushRecord_same {op : Operation} (h : flushRecord e op buf dataLen = .ok e') :
    e.tbl.Same e'.tbl ∧ e'.nidFileMap = e.nidFileMap := by
  rw [flushRecord] at h
  simp only at h
  split at h
  · obtain ⟨⟨e1, st⟩, hf, h⟩ := bind_eq_ok.mp h
    cases h
    obtain ⟨hs, hn⟩ := flushMetaData_same hf
    exact ⟨hs, hn⟩
  · cases h
    exact ⟨.refl _, rfl⟩

theorem flushFile_same {op : Operation} {update : Bool} (h : flushFile e p op update = .ok e') :
    e.tbl.Same e'.tbl ∧ e'.nidFileMap = e.nidFileMap := by
  rw [flushFile] at h
  obtain ⟨⟨buf, length, f⟩, hw, h⟩ := bind_eq_ok.mp h
  obtain rfl := writeMetaToBuf_marked hw
  simp only at h
  split at h
  · cases h
  · obtain ⟨hs, hn⟩ := flushRecord_same h
    exact ⟨(Table.Same.marked _ p).trans hs, hn⟩

theorem flushUpdateMetaData_same (h : flushUpdateMetaData e p = .ok e') :
    e.tbl.Same e'.tbl ∧ e'.nidFileMap = e.nidFileMap := by
  rw [flushUpdateMetaData] at h
  split at h
  · cases h
    exact ⟨.refl _, rfl⟩
  · exact flushFile_same h

theorem flushDelMetaData_same {n : Name} (h : flushDelMetaData e n = .ok e') :
    e.tbl.Same e'.tbl ∧ e'.nidFileMap = e.nidFileMap := by
  rw [flushDelMetaData] at h
  split at h
  · cases h
  · exact flushRecord_same h

theorem flushReplaceMetaData_same {src dst : Name} (h : flushReplaceMetaData e src dst = .ok e') :
    e.tbl.Same e'.tbl ∧ e'.nidFileMap = e.nidFileMap := by
  rw [flushReplaceMetaData] at h
  split at h
  · cases h
  · exact flushRecord_same h

/-! ### Records that can be written -/

/-- The entries are there and their names fit. -/
def Table.Flushable (t : Table) : Prop :=
  ∀ n p, t.find n = some p → t.freed p = false ∧ (t.objs p).name.length ≤ fileNameLen

theorem exists_flushFiles (fs : List (Name × Option Ptr)) : ∀ (buf : Buf) (dataLen fileNum : Nat)
    (t : Table), (∀ x ∈ fs, ∀ p, x.2 = some p →
      t.freed p = false ∧ (t.objs p).name.length ≤ fileNameLen) →
    ∃ r, flushFiles fs buf dataLen fileNum t = .ok r := by
  induction fs with
  | nil => exact fun _ _ _ _ _ => ⟨_, rfl⟩
  | cons x fs ih =>
    intro buf dataLen fileNum t h
    have hrest := fun y (hy : y ∈ fs) => h y (List.mem_cons_of_mem _ hy)
    obtain ⟨n, _ | p⟩ := x
    · exact ih buf dataLen fileNum t hrest
    · obtain ⟨hfreed, hname⟩ := h _ List.mem_cons_self p rfl
      rw [flushFiles, if_neg (by simp [hfreed])]
      split
      · exact ⟨_, rfl⟩
      · rw [writeMetaToBuf_ok hname]
        refine ih _ _ _ _ fun y hy q hq => ?_
        refine ⟨(hrest y hy q hq).1, ?_⟩
        by_cases e : q = p
        · subst e
          rw [Table.objs_set, update_self]
          exact hname
        · rw [Table.objs_set, update_of_ne e]
          exact (hrest y hy q hq).2

/-- A snapshot returns, whatever the device does. -/
theorem exists_flushMetaData (h : e.tbl.Flushable) : ∃ r, flushMetaData e = .ok r := by
  have hfiles : ∀ x ∈ e.tbl.files.toList, ∀ p, x.2 = some p →
      e.tbl.freed p = false ∧ (e.tbl.objs p).name.length ≤ fileNameLen := by
    rintro ⟨n, q⟩ hx p rfl
    exact h n p ((e.tbl.find_eq_some n p).mpr hx)
  obtain ⟨⟨t, r⟩, hr⟩ := exists_flushFiles e.tbl.files.toList
    (memcpy (fun _ => 0) 0 (zoneHeadBytes e.sequence)) (metaZoneHeadLen + metadataHeadLen + 4) 0
    e.tbl hfiles
  rw [flushMetaData]
  simp only [hr, bind, Except.bind]
  cases r with
  | none => exact ⟨_, rfl⟩
  | some x => exact ⟨_, rfl⟩

/-- And so does the writing of a record. -/
theorem exists_flushRecord (h : e.tbl.Flushable) (op : Operation) (buf : Buf) (dataLen : Nat) :
    ∃ e', flushRecord e op buf dataLen = .ok e' := by
  rw [flushRecord]
  simp only
  split
  · obtain ⟨⟨e', st⟩, he⟩ := exists_flushMetaData (e := { e with md :=
      (zrocksWriteFileMetadata e.md (memcpy buf 0 (headBytes op (sectorAlign dataLen -
        metadataHeadLen))) (sectorAlign dataLen)).1 }) h
    exact ⟨e', bind_eq_ok.mpr ⟨(e', st), he, rfl⟩⟩
  · exact ⟨_, rfl⟩

end

end Xztl
