import Xztl.Env.Replay
import Xztl.Env.Files

/-!
# Env — the buffers of the record writers (`env_zns.cc`, `WriteMetaToBuf` and the `Flush…` functions)

A record is built in a buffer of one sector.  None of the four functions checks that it fits: the
entry of a file is as long as its list of pieces makes it, and a name is copied with its own length
into a field of `FILE_NAME_LEN` bytes.

`RecordWrite.copies` lists the `memcpy` calls of a function, each with the array it writes to.
**`RecordWrite.safe_iff`** says which names and which numbers of pieces stay inside: an Update writes
only the pieces from `startIndex` on, a GC change the whole map.  Where all copies stay inside, the
function writes its record (`RecordWrite.run_of_fits`).
-/

namespace Xztl

open Bytes List

/-- A `memcpy`: where it begins in an array, its length, and the size of the array. -/
structure Copy where
  start : Nat
  len : Nat
  size : Nat

/-- It stays inside the array. -/
def Copy.Inside (c : Copy) : Prop := c.start + c.len ≤ c.size

instance (c : Copy) : Decidable c.Inside := inferInstanceAs (Decidable (_ ≤ _))

/-- The copies of `WriteMetaToBuf` to `buf + a`: the name into `ZrocksFileMeta`, that into the
buffer, and the pieces behind it. -/
def entryCopies (f : ZnsFile) (a : Nat) (update : Bool) : List Copy :=
  let i := if update then f.startIndex else 0
  ⟨0, f.name.length, fileNameLen⟩ :: ⟨a, zrocksFileMetaLen, znsAligment⟩ ::
    (List.range (f.map.length - i)).map fun j =>
      ⟨a + zrocksFileMetaLen + zrocksMapLen * j, zrocksMapLen, znsAligment⟩

/-- A name is copied into its field, which is a part of the buffer. -/
def nameCopies (n : Name) (a : Nat) : List Copy :=
  [⟨0, n.length, fileNameLen⟩, ⟨a, n.length, znsAligment⟩]

/-- The head of the record, last. -/
def headCopy : Copy := ⟨0, metadataHeadLen, znsAligment⟩

/-- A call of one of the functions that write a record. -/
inductive RecordWrite
  | update (p : Ptr)
  | gcChange (p : Ptr)
  | delete (fileName : Name)
  | replace (srcName destName : Name)

namespace RecordWrite

/-- The call. -/
def run (e : Env) : RecordWrite → Except Stop Env
  | update p => flushUpdateMetaData e p
  | gcChange p => flushGCChangeMetaData e p
  | delete fileName => flushDelMetaData e fileName
  | replace srcName destName => flushReplaceMetaData e srcName destName

def op : RecordWrite → Operation
  | update _ => .update
  | gcChange _ => .gcChange
  | delete _ => .delete
  | replace _ _ => .replace

/-- The copies of the call; `FlushUpdateMetaData` returns at once when there is no new piece. -/
def copies (e : Env) : RecordWrite → List Copy
  | update p =>
    let f := e.tbl.objs p
    if f.startIndex = f.map.length then [] else entryCopies f metadataHeadLen true ++ [headCopy]
  | gcChange p => entryCopies (e.tbl.objs p) metadataHeadLen false ++ [headCopy]
  | delete fileName => nameCopies fileName metadataHeadLen ++ [headCopy]
  | replace srcName destName =>
    nameCopies srcName metadataHeadLen ++ nameCopies destName (metadataHeadLen + fileNameLen) ++
      [headCopy]

/-- The length that is passed to `zrocks_write_file_metadata`. -/
def dataLen (e : Env) : RecordWrite → Nat
  | update p =>
    let f := e.tbl.objs p
    if f.startIndex = f.map.length then 0
    else sectorAlign (metadataHeadLen +
      (zrocksFileMetaLen + zrocksMapLen * (f.map.length - f.startIndex)))
  | gcChange p =>
    sectorAlign (metadataHeadLen + (zrocksFileMetaLen + zrocksMapLen * (e.tbl.objs p).map.length))
  | delete _ => sectorAlign (metadataHeadLen + fileNameLen)
  | replace _ _ => sectorAlign (metadataHeadLen + fileNameLen + fileNameLen)

/-- Everything stays inside the buffer and the name fields. -/
def Safe (e : Env) (w : RecordWrite) : Prop :=
  (∀ c ∈ w.copies e, c.Inside) ∧ w.dataLen e ≤ znsAligment

/-- The names fit their fields and the pieces fit the sector. -/
def Fits (e : Env) : RecordWrite → Prop
  | update p =>
    let f := e.tbl.objs p
    f.startIndex = f.map.length ∨
      f.name.length ≤ fileNameLen ∧ f.map.length - f.startIndex ≤ maxPieces
  | gcChange p =>
    (e.tbl.objs p).name.length ≤ fileNameLen ∧ (e.tbl.objs p).map.length ≤ maxPieces
  | delete fileName => fileName.length ≤ fileNameLen
  | replace srcName destName => srcName.length ≤ fileNameLen ∧ destName.length ≤ fileNameLen

end RecordWrite

/-! ### What fits -/

theorem sectorAlign_le_iff {n : Nat} : sectorAlign n ≤ znsAligment ↔ n ≤ znsAligment := by
  rw [sectorAlign_eq, znsAligment]
  omega

theorem sectorAlign_idem (n : Nat) : sectorAlign (sectorAlign n) = sectorAlign n := by
  rw [sectorAlign_eq (sectorAlign n), sectorAlign_eq n, znsAligment]
  omega

theorem headCopy_inside : headCopy.Inside := by decide

/-- The pieces fit behind the head and the file's data. -/
theorem le_maxPieces {k : Nat} :
    metadataHeadLen + (zrocksFileMetaLen + zrocksMapLen * k) ≤ znsAligment ↔ k ≤ maxPieces := by
  simp only [maxPieces, znsAligment, metadataHeadLen, zrocksFileMetaLen, zrocksMapLen]
  omega

/-- **The entry of a file** stays inside the sector when the name fits its field and there is room for
the pieces; the length that is passed says the same of the pieces. -/
theorem entryCopies_inside_iff (f : ZnsFile) (update : Bool) {k : Nat}
    (hk : f.map.length - (if update then f.startIndex else 0) = k) :
    (∀ c ∈ entryCopies f metadataHeadLen update ++ [headCopy], c.Inside) ∧
        sectorAlign (metadataHeadLen + (zrocksFileMetaLen + zrocksMapLen * k)) ≤ znsAligment ↔
      f.name.length ≤ fileNameLen ∧ k ≤ maxPieces := by
  rw [sectorAlign_le_iff, le_maxPieces, entryCopies, hk]
  refine and_congr_left fun hle => ?_
  simp only [cons_append, forall_mem_cons]
  constructor
  · rintro ⟨hname, -⟩
    rwa [Copy.Inside, Nat.zero_add] at hname
  · intro hname
    refine ⟨by rwa [Copy.Inside, Nat.zero_add], show _ ≤ _ by decide, fun c hc => ?_⟩
    rcases mem_append.mp hc with hc | hc
    · obtain ⟨j, hj, rfl⟩ := mem_map.mp hc
      have hj := mem_range.mp hj
      have hend := le_maxPieces.mpr hle
      simp only [Copy.Inside, zrocksMapLen] at *
      omega
    · rw [mem_singleton.mp hc]
      exact headCopy_inside

/-- A name that fits its field stays inside the buffer. -/
theorem nameCopies_inside_iff (n : Name) {a : Nat} (ha : a + fileNameLen ≤ znsAligment) :
    (∀ c ∈ nameCopies n a, c.Inside) ↔ n.length ≤ fileNameLen := by
  simp only [nameCopies, forall_mem_cons, Copy.Inside, Nat.zero_add]
  refine ⟨fun h => h.1, fun h => ⟨h, ?_, fun c hc => absurd hc not_mem_nil⟩⟩
  exact le_trans (Nat.add_le_add_left h a) ha

/-- **The record writers stay inside their buffers** exactly when the names fit their fields and the
pieces that are written fit the sector. -/
theorem RecordWrite.safe_iff (e : Env) (w : RecordWrite) : w.Safe e ↔ w.Fits e := by
  cases w with
  | update p =>
    simp only [Safe, Fits, copies, dataLen]
    by_cases hs : (e.tbl.objs p).startIndex = (e.tbl.objs p).map.length
    · simp only [hs, true_or, iff_true]
      exact ⟨fun c hc => absurd hc not_mem_nil, Nat.zero_le _⟩
    · simp only [hs, false_or]
      exact entryCopies_inside_iff _ true rfl
  | gcChange p => exact entryCopies_inside_iff _ false (Nat.sub_zero _)
  | delete n =>
    simp only [Safe, Fits, copies, dataLen, forall_mem_append,
      nameCopies_inside_iff n (a := metadataHeadLen) (by decide)]
    refine ⟨fun h => h.1.1, fun h => ⟨⟨h, fun c hc => ?_⟩, by decide⟩⟩
    rw [mem_singleton.mp hc]
    exact headCopy_inside
  | replace src dst =>
    simp only [Safe, Fits, copies, dataLen, forall_mem_append,
      nameCopies_inside_iff src (a := metadataHeadLen) (by decide),
      nameCopies_inside_iff dst (a := metadataHeadLen + fileNameLen) (by decide)]
    refine ⟨fun h => h.1.1, fun h => ⟨⟨h, fun c hc => ?_⟩, by decide⟩⟩
    rw [mem_singleton.mp hc]
    exact headCopy_inside

theorem not_safe_gcChange {e : Env} {p : Ptr} (h : maxPieces < (e.tbl.objs p).map.length) :
    ¬ (RecordWrite.gcChange p).Safe e := fun hs =>
  Nat.not_le_of_lt h ((entryCopies_inside_iff (e.tbl.objs p) false (Nat.sub_zero _)).mp hs).2

/-- A name that is longer than its field. -/
def longName : Name := List.replicate 129 97

/-- A file with one piece more than fits a sector. -/
def manyPieces : ZnsFile := { ZnsFile.new [97] 0 with map := List.replicate 492 ⟨0, 0, 1, 0⟩ }

/-- **Records that leave their buffers.**  A file is created under a name of 129 bytes: recording its
deletion runs over the name field, and so does its entry.  A file of 492 pieces is moved by the garbage
collector: its entry runs over the sector. -/
theorem record_writes_outside : (∃ e h, newWritableFile (Env.fresh smallMd) longName = .ok (e, h) ∧
      ¬ (RecordWrite.delete longName).Safe e ∧ ¬ (RecordWrite.gcChange h.znsFile).Safe e) ∧
    ¬ (RecordWrite.gcChange 0).Safe { Env.fresh smallMd with tbl := Table.single manyPieces } := by
  constructor
  · refine ⟨_, _, rfl, fun h => ?_, fun h => ?_⟩
    · exact absurd (h.1 ⟨0, 129, fileNameLen⟩ mem_cons_self) (by decide)
    · exact absurd (h.1 ⟨0, 129, fileNameLen⟩ mem_cons_self) (by decide)
  · refine not_safe_gcChange ?_
    have hlen : manyPieces.map.length = 492 := length_replicate
    rw [Table.objs_single, hlen]
    decide

/-! ### The functions of the model -/

theorem flushRecord_sectorAlign (e : Env) (op : Operation) (buf : Buf) (n : Nat) :
    flushRecord e op buf (sectorAlign n) = flushRecord e op buf n := by
  rw [flushRecord, flushRecord, sectorAlign_idem]

section

variable {e : Env} {p : Ptr} {update : Bool} {k : Nat}

theorem flushFile_of_fits (op : Operation) (update : Bool) {r : Rec}
    (hr : r.body = ((e.tbl.objs p).entry (if update then (e.tbl.objs p).startIndex else 0)).bytes)
    (hk : (e.tbl.objs p).map.length - (if update then (e.tbl.objs p).startIndex else 0) = k)
    (hname : (e.tbl.objs p).name.length ≤ fileNameLen) (hle : k ≤ maxPieces) :
    ∃ t buf, e.tbl.Same t ∧ r.sectors = 1 ∧ BodyAt buf r ∧
      flushFile e p op update = flushRecord { e with tbl := t } op buf
        (sectorAlign (metadataHeadLen + (zrocksFileMetaLen + zrocksMapLen * k))) := by
  have hlen : r.body.length = zrocksFileMetaLen + zrocksMapLen * k := by
    rw [hr, FileRec.bytes_length hname, ZnsFile.entry, length_drop, hk]
  have hfit := le_maxPieces.mpr hle
  refine ⟨_, _, .marked e.tbl p, Rec.sectors_one (by rwa [hlen]), bodyAt_copy r, ?_⟩
  rw [flushRecord_sectorAlign, flushFile, writeMetaToBuf_ok hname]
  simp only [bind, Except.bind, ← hr, hlen]
  rw [if_neg (Nat.not_lt_of_le hfit)]

theorem flushFile_unfit (op : Operation)
    (hk : (e.tbl.objs p).map.length - (if update then (e.tbl.objs p).startIndex else 0) = k)
    (h : ¬ ((e.tbl.objs p).name.length ≤ fileNameLen ∧ k ≤ maxPieces)) :
    flushFile e p op update = .error .outOfBounds := by
  rw [flushFile]
  by_cases hname : (e.tbl.objs p).name.length ≤ fileNameLen
  · have hgt : metadataHeadLen + (zrocksFileMetaLen + zrocksMapLen * k) > znsAligment :=
      Nat.lt_of_not_le fun hle => h ⟨hname, le_maxPieces.mp hle⟩
    rw [writeMetaToBuf_ok hname]
    simp only [bind, Except.bind]
    rw [FileRec.bytes_length hname, ZnsFile.entry, length_drop, hk, if_pos hgt]
  · rw [writeMetaToBuf, if_pos (Nat.lt_of_not_le hname)]
    rfl

/-- **What fits is written**: one record of a sector, of the length passed. -/
theorem RecordWrite.run_of_fits {w : RecordWrite} (h : w.Fits e) (hw : w.dataLen e ≠ 0) :
    ∃ t buf r, e.tbl.Same t ∧ r.op = w.op ∧ r.sectors = 1 ∧ BodyAt buf r ∧
      w.run e = flushRecord { e with tbl := t } w.op buf (w.dataLen e) := by
  cases w with
  | update p =>
    simp only [dataLen] at hw ⊢
    by_cases hs : (e.tbl.objs p).startIndex = (e.tbl.objs p).map.length
    · rw [if_pos hs] at hw
      exact absurd rfl hw
    · obtain ⟨hname, hle⟩ := h.resolve_left hs
      rw [if_neg hs, run, flushUpdateMetaData, if_neg hs]
      obtain ⟨t, buf, hsame, hone, hbody, hrun⟩ :=
        flushFile_of_fits .update true (r := .update _) rfl rfl hname hle
      exact ⟨t, buf, _, hsame, rfl, hone, hbody, hrun⟩
  | gcChange p =>
    obtain ⟨t, buf, hsame, hone, hbody, hrun⟩ :=
      flushFile_of_fits .gcChange false (r := .gcChange _) rfl (Nat.sub_zero _) h.1 h.2
    exact ⟨t, buf, _, hsame, rfl, hone, hbody, hrun⟩
  | delete n =>
    have h : n.length ≤ fileNameLen := h
    have hone : (Rec.delete n).sectors = 1 :=
      Rec.sectors_one (by rw [Rec.body, padTo_length h]; decide)
    refine ⟨e.tbl, _, _, .refl _, rfl, hone, bodyAt_delete h, ?_⟩
    rw [run, flushDelMetaData, dataLen, flushRecord_sectorAlign, if_neg]
    · rfl
    · simp only [metadataHeadLen, fileNameLen, znsAligment] at *
      omega
  | replace src dst =>
    obtain ⟨hsrc, hdst⟩ : src.length ≤ fileNameLen ∧ dst.length ≤ fileNameLen := h
    have hone : (Rec.replace src dst).sectors = 1 := Rec.sectors_one (by
      rw [Rec.body, length_append, padTo_length hsrc, padTo_length hdst]
      decide)
    refine ⟨e.tbl, _, _, .refl _, rfl, hone, bodyAt_replace hsrc hdst, ?_⟩
    rw [run, flushReplaceMetaData, dataLen, flushRecord_sectorAlign, if_neg]
    · rfl
    · simp only [metadataHeadLen, fileNameLen, znsAligment] at *
      omega

/-- A sector for everything that fits one. -/
theorem sectorAlign_one {n : Nat} (h0 : 0 < n) (hn : n ≤ znsAligment) :
    sectorAlign n = znsAligment := by
  rw [sectorAlign_eq]
  simp only [znsAligment] at *
  omega

theorem flushFile_written {e' : Env} {op : Operation}
    (hk : (e.tbl.objs p).map.length - (if update then (e.tbl.objs p).startIndex else 0) = k)
    (h : flushFile e p op update = .ok e') :
    sectorAlign (metadataHeadLen + (zrocksFileMetaLen + zrocksMapLen * k)) = znsAligment ∧
      ∃ t buf, e.tbl.Same t ∧ flushRecord { e with tbl := t } op buf znsAligment = .ok e' := by
  by_cases hfit : (e.tbl.objs p).name.length ≤ fileNameLen ∧ k ≤ maxPieces
  · obtain ⟨t, buf, hsame, -, -, hrun⟩ :=
      flushFile_of_fits op update (r := .gcChange _) rfl hk hfit.1 hfit.2
    have hone : sectorAlign (metadataHeadLen + (zrocksFileMetaLen + zrocksMapLen * k))
        = znsAligment := sectorAlign_one (Nat.add_pos_left (by decide) _) (le_maxPieces.mpr hfit.2)
    rw [hrun, hone] at h
    exact ⟨hone, t, buf, hsame, h⟩
  · rw [flushFile_unfit op hk hfit] at h
    cases h

/-- **What a writer does**: nothing, or one record of a sector. -/
theorem RecordWrite.run_cases {e' : Env} {w : RecordWrite} (h : w.run e = .ok e') :
    w.dataLen e = 0 ∧ e' = e ∨ w.dataLen e = znsAligment ∧ ∃ t buf, e.tbl.Same t ∧
      flushRecord { e with tbl := t } w.op buf znsAligment = .ok e' := by
  cases w with
  | update p =>
    by_cases hs : (e.tbl.objs p).startIndex = (e.tbl.objs p).map.length
    · rw [run, flushUpdateMetaData, if_pos hs] at h
      cases h
      exact Or.inl ⟨if_pos hs, rfl⟩
    · rw [run, flushUpdateMetaData, if_neg hs] at h
      rw [dataLen, if_neg hs]
      exact Or.inr (flushFile_written rfl h)
  | gcChange p => exact Or.inr (flushFile_written (Nat.sub_zero _) h)
  | delete n =>
    rw [run, flushDelMetaData] at h
    split at h
    · cases h
    · rw [← flushRecord_sectorAlign] at h
      exact Or.inr ⟨rfl, e.tbl, _, .refl _, h⟩
  | replace src dst =>
    rw [run, flushReplaceMetaData] at h
    split at h
    · cases h
    · rw [← flushRecord_sectorAlign] at h
      exact Or.inr ⟨rfl, e.tbl, _, .refl _, h⟩

end

end Xztl
