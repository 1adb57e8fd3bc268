import Xztl.Env.Restart

/-!
# Env — snapshots as a code (`env_zns.cc`, `FlushMetaData` and the Base case of `LoadMetaData`)

`FlushMetaData` lays the table out in `metaBuf` and `LoadMetaData` reads such a record back.  The two
compute the offsets of the entries on their own: the writer adds up the lengths it has written, the
reader goes from entry to entry by the number of pieces in each.

`layOut` is the first half of `FlushMetaData`, up to the write; **`layOut_eq_some`** says which tables
are accepted and what is laid out.

* **`snapshot_decodes_iff`**: reading the record gives the table back exactly when each file is listed
  under its own name; the record names the files by the names of the objects, not by the keys.
* **`base_loads_iff`**: the loop of the reader ends exactly when there are less than `2 ^ 16` files; its
  counter has 16 bits, the number in the record has 32.
-/

namespace Xztl

open Bytes List Table

/-! ### The writer -/

/-- `FlushMetaData` up to the write: the contents of `metaBuf` and their length, or nothing when they
would not fit. -/
def layOut (t : Table) (sequence : Nat) : Except Stop (Option (Buf × Nat)) := do
  let buf := memcpy (fun _ => 0) 0 (zoneHeadBytes sequence)
  let dataLen := metaZoneHeadLen + metadataHeadLen + 4
  let (_, r) ← flushFiles t.files.toList buf dataLen 0 t
  match r with
  | none => return none
  | some (buf, dataLen, fileNum) =>
    let buf := memcpy buf (metaZoneHeadLen + metadataHeadLen) (le 4 fileNum)
    let dataLen := sectorAlign dataLen
    let buf := memcpy buf metaZoneHeadLen
      (headBytes .base (dataLen - metadataHeadLen - metaZoneHeadLen))
    return some (buf, dataLen)

section

variable {e : Env} {t : Table} {buf metaBuf : Buf} {seq dataLen : Nat}

/-- What is laid out is what `FlushMetaData` writes. -/
theorem flushMetaData_layOut (h : layOut e.tbl e.sequence = .ok (some (buf, dataLen))) :
    ∃ t, flushMetaData e = .ok ({ e with
      tbl := t
      sequence := (e.sequence + 1) % 2 ^ 64
      md :=
        let (md, ret) := zrocksWriteFileMetadata e.md buf dataLen
        if ret = mdWriteFull then (zrocksWriteFileMetadata md buf dataLen).1 else md }, .ok) := by
  rw [layOut] at h
  obtain ⟨⟨t, r⟩, hf, h⟩ := Except.bind_eq_ok.mp h
  cases r with
  | none => cases h
  | some x =>
    obtain ⟨buf', dataLen', fileNum⟩ := x
    cases h
    refine ⟨t, ?_⟩
    rw [flushMetaData]
    simp only [hf, bind, Except.bind]
    rfl

/-- The loop that has come to its end has found every object alive, every name short enough, and room
for every entry. -/
theorem flushFiles_accepts (fs : List (Name × Option Ptr)) : ∀ {buf : Buf} {dataLen fileNum : Nat}
    {t t' : Table} {x : Buf × Nat × Nat},
    flushFiles fs buf dataLen fileNum t = .ok (t', some x) → dataLen < fileMetadataBufSize →
    (∀ x ∈ fs, ∀ p, x.2 = some p →
        t.freed p = false ∧ (t.objs p).name.length ≤ fileNameLen) ∧
      dataLen + ((fs.filterMap fun x => x.2.map fun p => (t.objs p).entry 0).flatMap
        FileRec.bytes).length < fileMetadataBufSize := by
  induction fs with
  | nil =>
    intro buf dataLen fileNum t t' x _ hlt
    exact ⟨fun x hx => absurd hx not_mem_nil, hlt⟩
  | cons y fs ih =>
    obtain ⟨n, _ | p⟩ := y
    · intro buf dataLen fileNum t t' x h hlt
      obtain ⟨hl, hfit⟩ := ih h hlt
      refine ⟨fun x hx q hq => ?_, hfit⟩
      rcases mem_cons.mp hx with rfl | hx
      · cases hq
      · exact hl x hx q hq
    · intro buf dataLen fileNum t t' x h hlt
      rw [flushFiles] at h
      by_cases hf : t.freed p = true
      · rw [if_pos hf] at h
        cases h
      rw [if_neg hf] at h
      by_cases hb : dataLen + getFileMetaLen (t.objs p) ≥ fileMetadataBufSize
      · rw [if_pos hb] at h
        cases h
      rw [if_neg hb] at h
      obtain ⟨⟨buf', length, f⟩, hw, h⟩ := Except.bind_eq_ok.mp h
      have hname : (t.objs p).name.length ≤ fileNameLen := by
        by_contra hlong
        rw [writeMetaToBuf, if_pos (Nat.lt_of_not_le hlong)] at hw
        cases hw
      rw [writeMetaToBuf_ok hname] at hw
      cases hw
      rw [getFileMetaLen_eq hname] at hb
      obtain ⟨hl, hfit⟩ := ih h (Nat.lt_of_not_le hb)
      simp only [entry_set_marked] at hfit
      constructor
      · intro y hy q hq
        rcases mem_cons.mp hy with rfl | hy
        · cases hq
          exact ⟨Bool.eq_false_of_not_eq_true hf, hname⟩
        · obtain ⟨h1, h2⟩ := hl y hy q hq
          have hsame := congrArg FileRec.name (entry_set_marked t p q)
          exact ⟨h1, (congrArg List.length hsame).symm.trans_le h2⟩
      · rw [filterMap_cons]
        simp only [Option.map_some, flatMap_cons, length_append]
        rw [← Nat.add_assoc]
        exact hfit

/-- **Which tables are laid out, and how**: the zone head, the head of the record, the number of files
and the entries. -/
theorem layOut_eq_some : layOut t seq = .ok (some (buf, dataLen)) ↔ SnapOk t ∧
    buf = memcpy (memcpy (memcpy (memcpy (fun _ => 0) 0 (zoneHeadBytes seq))
          (metaZoneHeadLen + metadataHeadLen + 4) (t.snapshot.flatMap FileRec.bytes))
        (metaZoneHeadLen + metadataHeadLen) (le 4 t.snapshot.length))
      metaZoneHeadLen
      (headBytes .base (znsAligment * (Rec.base t.snapshot).sectors - metadataHeadLen)) ∧
    dataLen = znsAligment * (1 + (Rec.base t.snapshot).sectors) := by
  have hfind : ∀ {n : Name} {q : Option Ptr} {p : Ptr}, (n, q) ∈ t.files.toList → q = some p →
      t.find n = some p := fun {n q p} hx hq => (t.find_eq_some n p).mpr (hq ▸ hx)
  have hout : SnapOk t → layOut t seq = .ok (some (memcpy (memcpy (memcpy
      (memcpy (fun _ => 0) 0 (zoneHeadBytes seq)) (metaZoneHeadLen + metadataHeadLen + 4)
        (t.snapshot.flatMap FileRec.bytes)) (metaZoneHeadLen + metadataHeadLen)
        (le 4 t.snapshot.length)) metaZoneHeadLen
        (headBytes .base (znsAligment * (Rec.base t.snapshot).sectors - metadataHeadLen)),
      znsAligment * (1 + (Rec.base t.snapshot).sectors))) := by
    intro hs
    have hfiles := flushFiles_ok t.files.toList (memcpy (fun _ => 0) 0 (zoneHeadBytes seq))
      (metaZoneHeadLen + metadataHeadLen + 4) 0 t t.snapshot rfl
      (fun x hx p hp => hs.live x.1 p (hfind hx hp)) hs.fits
    have hlen : znsAligment * (1 + (Rec.base t.snapshot).sectors) - metadataHeadLen
        - metaZoneHeadLen = znsAligment * (Rec.base t.snapshot).sectors - metadataHeadLen := by
      simp only [znsAligment, metadataHeadLen, metaZoneHeadLen]
      omega
    rw [layOut]
    simp only [hfiles, bind, Except.bind, Nat.zero_add, (snapshot_sectors hs.fits).1, hlen]
    rfl
  constructor
  · intro h
    have hs : SnapOk t := by
      have hh := h
      rw [layOut] at hh
      obtain ⟨⟨t', r⟩, hf, hh⟩ := Except.bind_eq_ok.mp hh
      cases r with
      | none => cases hh
      | some x =>
        obtain ⟨hl, hfit⟩ := flushFiles_accepts _ hf (by decide)
        exact ⟨fun n p hn => hl _ ((t.find_eq_some n p).mp hn) p rfl, hfit⟩
    rw [hout hs] at h
    cases h
    exact ⟨hs, rfl, rfl⟩
  · rintro ⟨hs, rfl, rfl⟩
    exact hout hs

theorem SnapOk.exists_layOut (h : SnapOk t) (seq : Nat) :
    ∃ buf dataLen, layOut t seq = .ok (some (buf, dataLen)) :=
  ⟨_, _, layOut_eq_some.mpr ⟨h, rfl, rfl⟩⟩

/-- The record behind the zone head. -/
theorem layOut_record (h : layOut t seq = .ok (some (buf, dataLen)))
    (hrec : At metaBuf 0 (load buf metaZoneHeadLen (dataLen - metaZoneHeadLen))) :
    At metaBuf 0 (Rec.base t.snapshot).bytes := by
  obtain ⟨-, rfl, rfl⟩ := layOut_eq_some.mp h
  have hbuf := (at_append.mp (snapshot_buf seq t.snapshot)).2
  rw [zoneHeadBytes_length, Nat.zero_add] at hbuf
  have hlen : znsAligment * (1 + (Rec.base t.snapshot).sectors) - metaZoneHeadLen
      = (Rec.base t.snapshot).bytes.length := by
    rw [Rec.bytes_length, Nat.mul_add, Nat.mul_one]
    exact Nat.add_sub_cancel_left ..
  rw [hlen] at hrec
  exact Eq.mp (congrArg (At metaBuf 0) hbuf) hrec

/-! ### The record is read back -/

/-- The number of files. -/
def Table.fileNum (t : Table) : Nat := (t.files.toList.filterMap Prod.snd).length

@[simp] theorem Table.length_snapshot : t.snapshot.length = t.fileNum := by
  rw [Table.snapshot, ← map_filterMap, length_map, Table.fileNum]

/-- Reading the record in `metaBuf` into an empty table gives the files of `t`, and the length in its
head leads from the sector behind the zone head to the first sector behind the record; `dataLen` is
the length that was laid out. -/
structure Decodes (t : Table) (dataLen : Nat) (metaBuf : Buf) : Prop where
  table : ∀ t₀ : Table, t₀.files = ∅ → ∃ t', applyRecord t₀ metaBuf = .ok t' ∧ t'.data = t.data
  next : znsAligment * (metaZoneHeadLen / znsAligment +
    (metadataHeadLen + leVal (load metaBuf 4 4)) / znsAligment) = dataLen

/-- The values of a file that the entry can hold. -/
structure ZnsFile.Fits (f : ZnsFile) : Prop where
  name : NameOk f.name
  level : -128 ≤ f.level ∧ f.level < 128
  size : f.size < 2 ^ 64

/-- An entry is not longer than all of them together. -/
theorem length_bytes_le {fs : List FileRec} {f : FileRec} (h : f ∈ fs) :
    f.bytes.length ≤ (fs.flatMap FileRec.bytes).length := by
  obtain ⟨xs, ys, rfl⟩ := append_of_mem h
  rw [flatMap_append, flatMap_cons]
  simp only [length_append]
  omega

/-- The numbers of pieces fit the 32 bits they have. -/
theorem SnapOk.pieces_lt (h : SnapOk t) {f : FileRec} (hf : f ∈ t.snapshot) :
    f.pieces.length < 2 ^ 31 := by
  obtain ⟨n, p, hn, rfl⟩ := mem_snapshot.mp hf
  have hle := length_bytes_le hf
  rw [FileRec.bytes_length (h.live n p hn).2] at hle
  have hfits := h.fits
  simp only [zrocksMapLen, fileMetadataBufSize] at *
  omega

theorem SnapOk.wf (h : SnapOk t) (hnum : t.fileNum < 2 ^ 16)
    (hfile : ∀ n p, t.find n = some p → NameOk (t.objs p).name) : (Rec.base t.snapshot).WF where
  sane := by
    refine ⟨by rwa [length_snapshot], fun f hf => ?_⟩
    have hpieces := h.pieces_lt hf
    obtain ⟨n, p, hn, rfl⟩ := mem_snapshot.mp hf
    refine ⟨hfile n p hn, ?_, Nat.mod_lt _ (by decide), hpieces⟩
    simp only [ZnsFile.entry, toInt8]
    omega
  fits := le_trans (Nat.le_add_left _ _) (snapshot_sectors h.fits).2

theorem Table.Tidy.of_files (h : t.files = ∅) : t.Tidy ∧ t.data = fun _ => none := by
  have hfind : ∀ n, t.find n = none := fun n => by
    rw [Table.find, h]
    simp
  refine ⟨⟨fun hn => ?_, fun hn => ?_, fun hn => ?_⟩, funext fun n => data_none (hfind n)⟩ <;>
  · rw [hfind] at hn
    cases hn

/-- **The Base case on the record**: the table that is read has the contents of the snapshot. -/
theorem applyRecord_snapshot (hwf : (Rec.base t.snapshot).WF)
    (hrec : At metaBuf 0 (Rec.base t.snapshot).bytes) {t0 : Table} (h0 : t0.files = ∅) :
    ∃ t', applyRecord t0 metaBuf = .ok t' ∧ t'.Tidy ∧
      t'.data = Contents.replay [.base t.snapshot] := by
  obtain ⟨htidy, hdata⟩ := Table.Tidy.of_files h0
  obtain ⟨htidy', hdata'⟩ := htidy.recoverAll t.snapshot
  refine ⟨_, applyRecord_at hwf hrec, htidy', hdata'.trans ?_⟩
  rw [hdata]
  rfl

theorem next_of_record (h : SnapOk t) (hrec : At metaBuf 0 (Rec.base t.snapshot).bytes) :
    metadataHeadLen + leVal (load metaBuf 4 4) = znsAligment * (Rec.base t.snapshot).sectors := by
  have hlen := (at_bytes hrec).1
  have hle := (Rec.base t.snapshot).head_body_le
  have hmax := (snapshot_sectors h.fits).2
  rw [Nat.zero_add] at hlen
  rw [hlen, Nat.mod_eq_of_lt]
  · omega
  · simp only [znsAligment, metadataHeadLen, fileMetadataBufSize] at *
    omega

/-- A table that is read back lists its files under their own names. -/
theorem Decodes.named (hwf : (Rec.base t.snapshot).WF)
    (hrec : At metaBuf 0 (Rec.base t.snapshot).bytes) (h : Decodes t dataLen metaBuf) : t.Named := by
  intro n p hn
  obtain ⟨t', ht', hdata⟩ := h.table Table.empty rfl
  obtain ⟨t'', ht'', htidy, -⟩ := applyRecord_snapshot hwf hrec (show Table.empty.files = ∅ from rfl)
  cases ht'.symm.trans ht''
  have hcongr := congrFun hdata n
  rw [Table.data, Table.data, hn] at hcongr
  obtain ⟨q, hq, hrecq⟩ := Option.map_eq_some_iff.mp hcongr
  have hname : (t'.objs q).name = (t.objs p).name := congrArg FileRec.name hrecq
  rw [← hname, htidy.name hq]

/-- **A snapshot is read back** exactly when each file is listed under its own name.  The table has
less than `2 ^ 16` files, whose names, levels and sizes fit their fields, and `FlushMetaData` accepts
it; `metaBuf` holds the record that it lays out, with anything behind it. -/
theorem snapshot_decodes_iff (hacc : layOut t seq = .ok (some (buf, dataLen)))
    (hnum : t.fileNum ≤ 65535) (hfile : ∀ n p, t.find n = some p → (t.objs p).Fits)
    (hrec : At metaBuf 0 (load buf metaZoneHeadLen (dataLen - metaZoneHeadLen))) :
    Decodes t dataLen metaBuf ↔ t.Named := by
  replace hrec := layOut_record hacc hrec
  obtain ⟨hs, -, hlen⟩ := layOut_eq_some.mp hacc
  have hwf := hs.wf (Nat.lt_succ_of_le hnum) fun n p hn => (hfile n p hn).name
  refine ⟨fun h => h.named hwf hrec, fun hname => ⟨fun t₀ h₀ => ?_, ?_⟩⟩
  · obtain ⟨t', ht', -, hdata⟩ := applyRecord_snapshot hwf hrec h₀
    refine ⟨t', ht', hdata.trans (hname.replay_snapshot_data fun n r hr => ?_)⟩
    obtain ⟨p, hp, rfl⟩ := Option.map_eq_some_iff.mp hr
    exact ⟨(hfile n p hp).level, (hfile n p hp).size⟩
  · rw [next_of_record hs hrec, Nat.mul_div_cancel_left _ (by decide), hlen]
    rfl

/-- The file `a` with two pieces, and the file `b` with one. -/
def twoFiles : Table :=
  ((Table.single { ZnsFile.new nameA 0 with map := [⟨0, 0, 1, 0⟩, ⟨0, 1, 1, 0⟩], size := 65536 }).alloc
    { ZnsFile.new nameB 1 with map := [⟨1, 0, 1, 0⟩], size := 32768 }).1.put nameB (some 1)

theorem find_twoFiles {n : Name} {p : Ptr} (h : twoFiles.find n = some p) :
    n = nameB ∧ p = 1 ∨ n = nameA ∧ p = 0 := by
  rw [twoFiles, find_put, find_alloc, find_single] at h
  split at h
  · next e =>
    cases h
    exact Or.inl ⟨e.symm, rfl⟩
  · split at h
    · next e =>
      cases h
      exact Or.inr ⟨e.symm, rfl⟩
    · cases h

theorem twoFiles_ok : SnapOk twoFiles where
  live := fun n p h => by
    obtain ⟨-, rfl⟩ | ⟨-, rfl⟩ := find_twoFiles h <;> decide
  fits := by
    have hlen : ∀ r ∈ twoFiles.snapshot, r.bytes.length = zrocksFileMetaLen +
        zrocksMapLen * r.pieces.length := fun r hr => FileRec.bytes_length (by
      obtain ⟨n, p, hn, rfl⟩ := mem_snapshot.mp hr
      obtain ⟨-, rfl⟩ | ⟨-, rfl⟩ := find_twoFiles hn <;> decide)
    rw [length_flatMap, map_congr_left hlen]
    decide

/-- Two files with pieces. -/
theorem snapshot_decodes_two : ∃ buf dataLen metaBuf,
    layOut twoFiles 0 = .ok (some (buf, dataLen)) ∧
    At metaBuf 0 (load buf metaZoneHeadLen (dataLen - metaZoneHeadLen)) ∧
    Decodes twoFiles dataLen metaBuf := by
  obtain ⟨buf, dataLen, hacc⟩ := twoFiles_ok.exists_layOut 0
  refine ⟨buf, dataLen, _, hacc, At.self (b := fun _ => 0), ?_⟩
  refine (snapshot_decodes_iff hacc (by decide) (fun n p hn => ?_) At.self).mpr fun n p hn => ?_
  · obtain ⟨-, rfl⟩ | ⟨-, rfl⟩ := find_twoFiles hn
    · exact ⟨nameB_ok, ⟨by decide, by decide⟩, by decide⟩
    · exact ⟨nameA_ok, ⟨by decide, by decide⟩, by decide⟩
  · obtain ⟨rfl, rfl⟩ | ⟨rfl, rfl⟩ := find_twoFiles hn <;> rfl

/-- **A renamed file is not read back.**  In the table that is loaded from a log with a rename the file
is listed under the new name and has the old one; its snapshot has the old one only. -/
theorem snapshot_loses_name : ∃ buf dataLen metaBuf,
    layOut (renamedTable ⟨0, 0, 1, 0⟩) 0 = .ok (some (buf, dataLen)) ∧
    At metaBuf 0 (load buf metaZoneHeadLen (dataLen - metaZoneHeadLen)) ∧
    (renamedTable ⟨0, 0, 1, 0⟩).fileNum = 1 ∧
    (∀ n p, (renamedTable ⟨0, 0, 1, 0⟩).find n = some p →
      ((renamedTable ⟨0, 0, 1, 0⟩).objs p).Fits) ∧
    ¬ Decodes (renamedTable ⟨0, 0, 1, 0⟩) dataLen metaBuf := by
  obtain ⟨hfind, hname, hs⟩ := renamedTable_spec ⟨0, 0, 1, 0⟩
  obtain ⟨buf, dataLen, hacc⟩ := hs.exists_layOut 0
  have hnum : (renamedTable ⟨0, 0, 1, 0⟩).fileNum = 1 := rfl
  have hall : ∀ n p, (renamedTable ⟨0, 0, 1, 0⟩).find n = some p → p = 0 := fun n p hn => by
    have hmem := (find_eq_some _ _ _).mp hn
    rw [show (renamedTable ⟨0, 0, 1, 0⟩).files.toList = [(nameB, some 0)] from rfl,
      mem_singleton] at hmem
    cases hmem
    rfl
  have hfits : ∀ n p, (renamedTable ⟨0, 0, 1, 0⟩).find n = some p →
      ((renamedTable ⟨0, 0, 1, 0⟩).objs p).Fits := fun n p hn => by
    rw [hall n p hn]
    exact ⟨hname ▸ nameA_ok, ⟨by decide, by decide⟩, by decide⟩
  refine ⟨buf, dataLen, _, hacc, At.self (b := fun _ => 0), hnum, hfits, fun hdec => ?_⟩
  have hwf := hs.wf (by rw [hnum]; decide) fun n p hn => (hfits n p hn).name
  have hrec := layOut_record hacc (At.self (b := fun _ => 0))
  exact absurd (hname.symm.trans (hdec.named hwf hrec nameB 0 hfind)) (by decide)

/-! ### The loop of the reader -/

/-- The loop of the Base case as the source has it, with a counter of 16 bits: the table, and where
the entries were read and how many bytes each time. -/
def baseLoop (fileNum : Nat) (buf : Buf) :
    (fuel i praseLen : Nat) → Table → Option (Table × List (Nat × Nat))
  | 0, _, _, _ => none
  | fuel + 1, i, praseLen, t =>
    if i < fileNum then
      let (t, fileMetaLen) := recoverFileFromBuf t buf praseLen false
      (baseLoop fileNum buf fuel ((i + 1) % 2 ^ 16) (praseLen + fileMetaLen) t).map
        fun (t, reads) => (t, (praseLen, fileMetaLen) :: reads)
    else some (t, [])

/-- Where `n` entries in a row are read. -/
def entryReads (buf : Buf) : (n praseLen : Nat) → List (Nat × Nat)
  | 0, _ => []
  | n + 1, praseLen =>
    (praseLen, entryLen buf praseLen) :: entryReads buf n (praseLen + entryLen buf praseLen)

/-- A counter that does not wrap around reaches the number of files. -/
theorem baseLoop_ends {fileNum : Nat} (h : fileNum < 2 ^ 16) (n : Nat) :
    ∀ {fuel i a : Nat} {t : Table}, i + n = fileNum → n < fuel →
    baseLoop fileNum buf fuel i a t = some (recoverFiles n t buf a, entryReads buf n a) := by
  induction n with
  | zero =>
    intro fuel i a t hi hfuel
    obtain ⟨fuel, rfl⟩ := Nat.exists_eq_add_one.mpr hfuel
    rw [baseLoop, if_neg (by omega)]
    rfl
  | succ n ih =>
    intro fuel i a t hi hfuel
    obtain ⟨fuel, rfl⟩ := Nat.exists_eq_add_one.mpr (Nat.zero_lt_of_lt hfuel)
    rw [baseLoop, if_pos (by omega), Nat.mod_eq_of_lt (by omega)]
    simp only [recoverFileFromBuf]
    rw [ih (by omega) (by omega)]
    rfl

/-- A counter that wraps around does not. -/
theorem baseLoop_none {fileNum : Nat} (h : 2 ^ 16 ≤ fileNum) (fuel : Nat) :
    ∀ {i a : Nat} {t : Table}, i < 2 ^ 16 → baseLoop fileNum buf fuel i a t = none := by
  induction fuel with
  | zero => exact fun _ => rfl
  | succ fuel ih =>
    intro i a t hi
    rw [baseLoop, if_pos (by omega)]
    simp only
    rw [ih (Nat.mod_lt _ (by decide))]
    rfl

/-- The Base case on the record in `metaBuf` ends, after as many entries as the record has, and all
that is read lies inside the length in its head. -/
def BaseLoads (metaBuf : Buf) (t : Table) : Prop :=
  ∃ fuel t' reads,
    baseLoop (leVal (load metaBuf metadataHeadLen 4)) metaBuf fuel 0 (metadataHeadLen + 4) t
      = some (t', reads) ∧
    reads.length = leVal (load metaBuf metadataHeadLen 4) ∧
    ∀ r ∈ reads, r.1 + r.2 ≤ metadataHeadLen + leVal (load metaBuf 4 4)

theorem entryReads_length (buf : Buf) (n : Nat) : ∀ a, (entryReads buf n a).length = n := by
  induction n with
  | zero => exact fun _ => rfl
  | succ n ih =>
    intro a
    rw [entryReads, length_cons, ih]

/-- The reader follows the entries: each begins where the one in front of it ends. -/
theorem entryReads_le {fs : List FileRec} : ∀ {a : Nat},
    (∀ f ∈ fs, f.name.length ≤ fileNameLen ∧ f.pieces.length < 2 ^ 31) →
    At buf a (fs.flatMap FileRec.bytes) → ∀ r ∈ entryReads buf fs.length a,
      r.1 + r.2 ≤ a + (fs.flatMap FileRec.bytes).length := by
  induction fs with
  | nil => exact fun _ _ r hr => absurd hr not_mem_nil
  | cons f fs ih =>
    intro a hfs h r hr
    obtain ⟨hname, hpieces⟩ := hfs f mem_cons_self
    rw [flatMap_cons, at_append] at h
    have hlen : entryLen buf a = f.bytes.length := by
      rw [entryLen, FileRec.pieceNum_at hpieces h.1, FileRec.bytes_length hname]
    rw [length_cons, entryReads, hlen] at hr
    rw [flatMap_cons, length_append, ← Nat.add_assoc]
    rcases mem_cons.mp hr with rfl | hr
    · exact Nat.le_add_right _ _
    · exact ih (fun g hg => hfs g (mem_cons_of_mem _ hg)) h.2 r hr

theorem length_le_bytes {fs : List FileRec} (h : ∀ f ∈ fs, f.name.length ≤ fileNameLen) :
    fs.length ≤ (fs.flatMap FileRec.bytes).length := by
  induction fs with
  | nil => exact le_refl 0
  | cons f fs ih =>
    have hf := FileRec.bytes_length (h f mem_cons_self)
    have hfs := ih fun g hg => h g (mem_cons_of_mem _ hg)
    rw [flatMap_cons, length_append, length_cons]
    simp only [zrocksFileMetaLen] at hf
    omega

/-- The number of files in the record. -/
theorem fileNum_of_record (h : SnapOk t) (hrec : At metaBuf 0 (Rec.base t.snapshot).bytes) :
    leVal (load metaBuf metadataHeadLen 4) = t.fileNum ∧
      At metaBuf (metadataHeadLen + 4) (t.snapshot.flatMap FileRec.bytes) := by
  have hbody := (at_bytes hrec).2.2
  rw [Nat.zero_add, Rec.body, at_append, le_length, length_snapshot] at hbody
  refine ⟨?_, hbody.2⟩
  have hle := length_le_bytes fun f hf => by
    obtain ⟨n, p, hn, rfl⟩ := mem_snapshot.mp hf
    exact (h.live n p hn).2
  have hfits := h.fits
  rw [hbody.1.leVal, Nat.mod_eq_of_lt]
  rw [length_snapshot] at hle
  simp only [fileMetadataBufSize] at hfits
  omega

/-- Too many files. -/
theorem not_baseLoads (h : SnapOk t) (hrec : At metaBuf 0 (Rec.base t.snapshot).bytes)
    (hnum : 2 ^ 16 ≤ t.fileNum) (t0 : Table) : ¬ BaseLoads metaBuf t0 := by
  rintro ⟨fuel, t', reads, e, -, -⟩
  rw [(fileNum_of_record h hrec).1, baseLoop_none hnum fuel (by decide)] at e
  cases e

/-- **A snapshot is loaded**, whatever is in its entries, exactly when there are less than `2 ^ 16`
files. -/
theorem base_loads_iff (hacc : layOut t seq = .ok (some (buf, dataLen)))
    (hrec : At metaBuf 0 (load buf metaZoneHeadLen (dataLen - metaZoneHeadLen))) (t₀ : Table) :
    BaseLoads metaBuf t₀ ↔ t.fileNum < 2 ^ 16 := by
  replace hrec := layOut_record hacc hrec
  obtain ⟨hs, -, -⟩ := layOut_eq_some.mp hacc
  refine ⟨fun h => Nat.lt_of_not_le fun hnum => not_baseLoads hs hrec hnum t₀ h, fun hnum => ?_⟩
  obtain ⟨hfile, hentries⟩ := fileNum_of_record hs hrec
  rw [BaseLoads, hfile, next_of_record hs hrec]
  refine ⟨_, _, _, baseLoop_ends hnum _ (Nat.zero_add _) (Nat.lt_succ_self _),
    entryReads_length _ _ _, fun r hr => ?_⟩
  rw [← length_snapshot] at hr
  have hle := entryReads_le (fun f hf => ?_) hentries r hr
  · have hbody := (Rec.base t.snapshot).head_body_le
    rw [Rec.body, length_append, le_length] at hbody
    omega
  · obtain ⟨n, p, hn, rfl⟩ := mem_snapshot.mp hf
    exact ⟨(hs.live n p hn).2, hs.pieces_lt hf⟩

/-- Two files with pieces. -/
theorem base_loads_two : ∃ buf dataLen metaBuf, layOut twoFiles 0 = .ok (some (buf, dataLen)) ∧
    At metaBuf 0 (load buf metaZoneHeadLen (dataLen - metaZoneHeadLen)) ∧
    BaseLoads metaBuf Table.empty := by
  obtain ⟨buf, dataLen, hacc⟩ := twoFiles_ok.exists_layOut 0
  exact ⟨buf, dataLen, _, hacc, At.self (b := fun _ => 0),
    (base_loads_iff hacc At.self Table.empty).mpr (by decide)⟩

end

/-! ### Many files -/

/-- `NewWritableFile` on each name. -/
def createAll : List Name → Env → Except Stop Env
  | [], e => .ok e
  | n :: ns, e => do
      let (e, _) ← newWritableFile e n
      createAll ns e

/-- A table of new files with the names `ns`. -/
structure Created (t : Table) (ns : List Name) : Prop where
  tidy : t.Tidy
  isSome : ∀ x ∈ t.files.toList, x.2.isSome
  size : t.files.size = ns.length
  mem : ∀ n p, t.find n = some p → n ∈ ns
  new : ∀ n p, t.find n = some p → (t.objs p).map = []

section

variable {t : Table} {e : Env} {ns : List Name} {n : Name}

theorem Created.find_none (h : Created t ns) (hn : n ∉ ns) : t.find n = none := by
  cases hf : t.find n with
  | none => rfl
  | some p => exact absurd (h.mem n p hf) hn

theorem Created.not_mem (h : Created t ns) (hn : n ∉ ns) : n ∉ t.files := by
  intro hmem
  obtain ⟨q, hq⟩ : ∃ q, t.files[n]? = some q :=
    Option.isSome_iff_exists.mp (Std.ExtTreeMap.mem_iff_isSome_getElem?.mp hmem)
  obtain ⟨p, rfl⟩ := Option.isSome_iff_exists.mp
    (h.isSome (n, q) (Std.ExtTreeMap.mem_toList_iff_getElem?_eq_some.mpr hq))
  have hnone := h.find_none hn
  rw [Table.find, hq] at hnone
  cases hnone

theorem Created.put (h : Created t ns) (hn : n ∉ ns) {f : ZnsFile} (hname : f.name = n)
    (hmap : f.map = []) : Created (((t.erase n).alloc f).1.put n (some t.next)) (n :: ns) := by
  have hfind : ∀ m, (((t.erase n).alloc f).1.put n (some t.next)).find m
      = if n = m then some t.next else t.find m := fun m => by
    rw [find_put, find_alloc, find_erase]
    by_cases hm : n = m
    · rw [if_pos hm, if_pos hm]
    · rw [if_neg hm, if_neg hm, if_neg hm]
  refine ⟨(h.tidy.erase n).alloc hname, ?_, ?_, fun m p hm => ?_, fun m p hm => ?_⟩
  · rintro ⟨m, q⟩ hx
    have hx : ((t.files.erase n).insert n (some t.next))[m]? = some q :=
      Std.ExtTreeMap.mem_toList_iff_getElem?_eq_some.mp hx
    rw [Std.ExtTreeMap.getElem?_insert] at hx
    split at hx
    · cases hx
      rfl
    · rw [Std.ExtTreeMap.getElem?_erase] at hx
      split at hx
      · cases hx
      · exact h.isSome (m, q) (Std.ExtTreeMap.mem_toList_iff_getElem?_eq_some.mpr hx)
  · show ((t.files.erase n).insert n (some t.next)).size = ns.length + 1
    have hnot : ¬ (t.files.contains n = true) := fun hc =>
      h.not_mem hn (Std.ExtTreeMap.contains_iff_mem.mp hc)
    rw [Std.ExtTreeMap.size_insert, Std.ExtTreeMap.size_erase, if_neg (by simp), if_neg hnot, h.size]
  · rw [hfind] at hm
    split at hm
    · rename_i e
      exact e ▸ mem_cons_self
    · exact mem_cons_of_mem _ (h.mem m p hm)
  · rw [hfind] at hm
    split at hm
    · cases hm
      exact (congrArg ZnsFile.map (Function.update_self _ _ _)).trans hmap
    · exact (congrArg ZnsFile.map (Function.update_of_ne (Nat.ne_of_lt (h.tidy.lt hm)) _ _)).trans
        (h.new m p hm)

theorem Created.newWritableFile (h : Created e.tbl ns) (hn : n ∉ ns) :
    ∃ r, Xztl.newWritableFile e n = .ok r ∧ Created r.1.tbl (n :: ns) := by
  refine ⟨(e.setTbl (((e.tbl.erase n).alloc { ZnsFile.new n 0 with isWriting := true }).1.put n
    (some e.tbl.next)), ⟨n, e.tbl.next⟩), ?_, h.put hn rfl rfl⟩
  rw [Xztl.newWritableFile, Table.drop, h.find_none hn]
  rfl

/-- **Files with different names can be created**, however many. -/
theorem Created.createAll {ns' : List Name} : ∀ {e : Env} {ns : List Name}, Created e.tbl ns →
    ns'.Nodup → (∀ n ∈ ns', n ∉ ns) →
    ∃ e', Xztl.createAll ns' e = .ok e' ∧ Created e'.tbl (ns'.reverse ++ ns) := by
  induction ns' with
  | nil => exact fun h _ _ => ⟨_, rfl, h⟩
  | cons n ns' ih =>
    intro e ns h hnd hnew
    obtain ⟨hn, hnd⟩ := nodup_cons.mp hnd
    obtain ⟨r, hr, h1⟩ := h.newWritableFile (hnew n mem_cons_self)
    obtain ⟨e', he', h2⟩ := ih h1 hnd fun m hm hmem => by
      rcases mem_cons.mp hmem with rfl | hmem
      · exact hn hm
      · exact hnew m (mem_cons_of_mem _ hm) hmem
    refine ⟨e', ?_, ?_⟩
    · rw [Xztl.createAll, hr]
      exact he'
    · rw [reverse_cons, append_assoc]
      exact h2

theorem Created.fileNum (h : Created t ns) : t.fileNum = ns.length := by
  rw [Table.fileNum, filterMap_length_eq_length.mpr h.isSome, Std.ExtTreeMap.length_toList,
    h.size]

theorem Created.name_le (h : Created t ns) (hname : ∀ n ∈ ns, n.length ≤ fileNameLen) {p : Ptr}
    (hn : t.find n = some p) : (t.objs p).name.length ≤ fileNameLen := by
  rw [h.tidy.name hn]
  exact hname n (h.mem n p hn)

/-- They can be written as long as their heads fit the buffer. -/
theorem Created.snapOk (h : Created t ns) (hname : ∀ n ∈ ns, n.length ≤ fileNameLen)
    (hfit : metaZoneHeadLen + metadataHeadLen + 4 + ns.length * zrocksFileMetaLen
      < fileMetadataBufSize) : SnapOk t where
  live := fun n p hn => ⟨h.tidy.live hn, h.name_le hname hn⟩
  fits := by
    have hlen : ∀ f ∈ t.snapshot, f.bytes.length = zrocksFileMetaLen := fun f hf => by
      obtain ⟨n, p, hn, rfl⟩ := mem_snapshot.mp hf
      rw [FileRec.bytes_length (h.name_le hname hn)]
      simp [ZnsFile.entry, h.new n p hn]
    rw [length_flatMap, map_congr_left hlen, map_const', sum_replicate,
      length_snapshot, h.fileNum]
    exact hfit

end

/-- The names of the files below. -/
def numberedName (i : Nat) : Name :=
  [UInt8.ofNat (64 + i / 4096), UInt8.ofNat (64 + i / 64 % 64), UInt8.ofNat (64 + i % 64)]

theorem numberedName_inj {i j : Nat} (hi : i < 2 ^ 17) (hj : j < 2 ^ 17)
    (h : numberedName i = numberedName j) : i = j := by
  have hval : ∀ {x y : Nat}, x < 2 ^ 8 → y < 2 ^ 8 → UInt8.ofNat x = UInt8.ofNat y → x = y := by
    intro x y hx hy e
    have := congrArg UInt8.toNat e
    rwa [UInt8.toNat_ofNat', UInt8.toNat_ofNat', Nat.mod_eq_of_lt hx, Nat.mod_eq_of_lt hy] at this
  rw [numberedName, numberedName] at h
  simp only [List.cons.injEq, and_true] at h
  have h1 := hval (by omega) (by omega) h.1
  have h2 := hval (by omega) (by omega) h.2.1
  have h3 := hval (by omega) (by omega) h.2.2
  omega

/-- **Too many files for the counter.**  `65536` files are created; `FlushMetaData` accepts the table,
and the loop that reads the record does not end. -/
theorem base_loads_never : ∃ e buf dataLen metaBuf,
    createAll ((List.range 65536).map numberedName) (Env.fresh smallMd) = .ok e ∧
    layOut e.tbl 0 = .ok (some (buf, dataLen)) ∧
    At metaBuf 0 (load buf metaZoneHeadLen (dataLen - metaZoneHeadLen)) ∧
    ∀ t₀, ¬ BaseLoads metaBuf t₀ := by
  have hstart : Created (Env.fresh smallMd).tbl [] :=
    ⟨.empty, fun _ hx => absurd hx not_mem_nil, rfl,
      fun n p hn => absurd hn (by rw [show (Env.fresh smallMd).tbl = .empty from rfl]; simp),
      fun n p hn => absurd hn (by rw [show (Env.fresh smallMd).tbl = .empty from rfl]; simp)⟩
  have hnd : ((List.range 65536).map numberedName).Nodup := by
    refine List.Nodup.map_on (fun i hi j hj h => numberedName_inj ?_ ?_ h) nodup_range
    · exact lt_trans (mem_range.mp hi) (by decide)
    · exact lt_trans (mem_range.mp hj) (by decide)
  obtain ⟨e, he, hc⟩ := hstart.createAll hnd fun _ _ => not_mem_nil
  rw [append_nil] at hc
  have hlen : ((List.range 65536).map numberedName).reverse.length = 65536 := by
    rw [length_reverse, length_map, length_range]
  have hs : SnapOk e.tbl := hc.snapOk (fun n hn => by
    obtain ⟨i, -, rfl⟩ := mem_map.mp (mem_reverse.mp hn)
    exact show 3 ≤ fileNameLen by decide) (by rw [hlen]; decide)
  obtain ⟨buf, dataLen, hacc⟩ := hs.exists_layOut 0
  refine ⟨e, buf, dataLen, _, he, hacc, At.self (b := fun _ => 0), fun t₀ => ?_⟩
  exact not_baseLoads hs (layOut_record hacc At.self) (by rw [hc.fileNum, hlen]; decide) t₀

end Xztl
