import Xztl.Env.Types

/-!
# Env — the records of the metadata log

A record is a `MetadataHead` (checksum, length, operation), a body and zero bytes up to the next
sector.  The body of a snapshot is the number of files and their entries; updates and GC changes have
one entry, deletions one name and renames two.  An entry is a `ZrocksFileMeta` and its pieces, eight
bytes each.

`Rec` is a record as a value and `Rec.bytes` its bytes; `parseFile_at` reads an entry back from a
buffer that holds it.  The unused bytes of the structures are written as zero.
-/

namespace Xztl

open Bytes List

/-! ### Constants and sizes -/

/-- `FILE_METADATA_BUF_SIZE`. -/
def fileMetadataBufSize : Nat := 80 * 1024 * 1024

/-- `FILE_NAME_LEN`. -/
def fileNameLen : Nat := 128

/-- `METADATA_MAGIC`. -/
def metadataMagic : UInt8 := 0x3D

/-- `sizeof(MetaZoneHead)`. -/
def metaZoneHeadLen : Nat := znsAligment

/-- `sizeof(MetadataHead)`. -/
def metadataHeadLen : Nat := 12

/-- `sizeof(ZrocksFileMeta)`. -/
def zrocksFileMetaLen : Nat := 152

/-- `sizeof(struct zrocks_map)`. -/
def zrocksMapLen : Nat := 8

/-- The alignment of a length to whole sectors. -/
def sectorAlign (dataLen : Nat) : Nat :=
  if dataLen % znsAligment ≠ 0 then (dataLen / znsAligment + 1) * znsAligment else dataLen

/-- `enum Operation`. -/
inductive Operation where
  | base | update | replace | delete | gcChange
deriving DecidableEq, Repr

/-- The number of an operation. -/
def Operation.tag : Operation → UInt8
  | .base => 0
  | .update => 1
  | .replace => 2
  | .delete => 3
  | .gcChange => 4

/-! ### Bytes -/

/-- The 64 bits of `struct zrocks_map`. -/
def ZrocksMap.word (m : ZrocksMap) : Nat :=
  m.nodeId + 2 ^ 14 * m.start + 2 ^ 36 * m.num + 2 ^ 47 * m.padding

/-- The fields of 64 bits. -/
def ZrocksMap.ofWord (v : Nat) : ZrocksMap where
  nodeId := Fin.ofNat _ v
  start := Fin.ofNat _ (v / 2 ^ 14)
  num := Fin.ofNat _ (v / 2 ^ 36)
  padding := Fin.ofNat _ (v / 2 ^ 47)

/-- What a file entry carries. -/
structure FileRec where
  name : Name
  level : Int
  size : Nat
  pieces : List ZrocksMap
deriving DecidableEq, Repr

/-- `struct ZrocksFileMeta`: level, size, number of pieces and name. -/
def fileMetaBytes (level : Int) (filesize pieceNum : Nat) (filename : Name) : List UInt8 :=
  le 1 (level % 256).toNat ++ List.replicate 7 0 ++ le 8 filesize ++ le 4 pieceNum ++
    padTo fileNameLen filename ++ List.replicate 4 0

/-- An entry: the head and the pieces. -/
def FileRec.bytes (r : FileRec) : List UInt8 :=
  fileMetaBytes r.level r.size r.pieces.length r.name ++ r.pieces.flatMap fun m => le 8 m.word

/-- `struct MetadataHead`. -/
def headBytes (op : Operation) (dataLength : Nat) : List UInt8 :=
  le 4 0 ++ le 4 dataLength ++ [op.tag] ++ List.replicate 3 0

/-- `struct MetaZoneHead`, the sequence number in 32 bits. -/
def zoneHeadBytes (sequence : Nat) : List UInt8 :=
  padTo metaZoneHeadLen ([metadataMagic] ++ List.replicate 3 0 ++ le 4 sequence)

/-- A record of the log. -/
inductive Rec where
  | base (fs : List FileRec)
  | update (f : FileRec)
  | replace (src dst : Name)
  | delete (name : Name)
  | gcChange (f : FileRec)
deriving DecidableEq, Repr

/-- The operation of a record. -/
def Rec.op : Rec → Operation
  | .base _ => .base
  | .update _ => .update
  | .replace _ _ => .replace
  | .delete _ => .delete
  | .gcChange _ => .gcChange

/-- The body of a record. -/
def Rec.body : Rec → List UInt8
  | .base fs => le 4 fs.length ++ fs.flatMap FileRec.bytes
  | .update f => f.bytes
  | .replace src dst => padTo fileNameLen src ++ padTo fileNameLen dst
  | .delete n => padTo fileNameLen n
  | .gcChange f => f.bytes

/-- The sectors of a record. -/
def Rec.sectors (r : Rec) : Nat :=
  (metadataHeadLen + r.body.length + (znsAligment - 1)) / znsAligment

/-- The bytes of a record. -/
def Rec.bytes (r : Rec) : List UInt8 :=
  padTo (znsAligment * r.sectors)
    (headBytes r.op (znsAligment * r.sectors - metadataHeadLen) ++ r.body)

/-! ### Lengths -/

@[simp] theorem headBytes_length (op : Operation) (n : Nat) :
    (headBytes op n).length = metadataHeadLen := by
  simp [headBytes, metadataHeadLen]

theorem fileMetaBytes_length {level : Int} {filesize pieceNum : Nat} {n : Name}
    (h : n.length ≤ fileNameLen) :
    (fileMetaBytes level filesize pieceNum n).length = zrocksFileMetaLen := by
  simp only [fileMetaBytes, length_append, le_length, length_replicate, padTo_length h]
  rfl

theorem pieces_length (ps : List ZrocksMap) :
    (ps.flatMap fun m => le 8 m.word).length = zrocksMapLen * ps.length := by
  simp [length_flatMap, zrocksMapLen, Nat.mul_comm]

theorem FileRec.bytes_length {r : FileRec} (h : r.name.length ≤ fileNameLen) :
    r.bytes.length = zrocksFileMetaLen + zrocksMapLen * r.pieces.length := by
  rw [FileRec.bytes, length_append, fileMetaBytes_length h, pieces_length]

theorem sectorAlign_eq (n : Nat) :
    sectorAlign n = znsAligment * ((n + (znsAligment - 1)) / znsAligment) := by
  rw [sectorAlign, znsAligment]
  split <;> omega

theorem Rec.sectors_pos (r : Rec) : 0 < r.sectors := by
  rw [Rec.sectors, metadataHeadLen, znsAligment]
  omega

theorem Rec.sectors_one {r : Rec} (h : metadataHeadLen + r.body.length ≤ znsAligment) :
    r.sectors = 1 := by
  simp only [Rec.sectors, metadataHeadLen, znsAligment] at *
  omega

theorem Rec.head_body_le (r : Rec) : metadataHeadLen + r.body.length ≤ znsAligment * r.sectors := by
  rw [Rec.sectors, znsAligment]
  omega

@[simp] theorem Rec.bytes_length (r : Rec) : r.bytes.length = znsAligment * r.sectors := by
  rw [Rec.bytes, padTo_length]
  rw [length_append, headBytes_length]
  exact r.head_body_le

/-! ### Reading an entry -/

/-- A byte as `int8_t`. -/
def int8 (x : UInt8) : Int := if x.toNat < 128 then x.toNat else x.toNat - 256

/-- Four bytes as `int32_t`. -/
def int32 (v : Nat) : Int := if v < 2 ^ 31 then v else v - 2 ^ 32

/-- The entry at `a`, as `RecoverFileFromBuf` reads it. -/
def parseFile (buf : Buf) (a : Nat) : FileRec where
  name := cstr (load buf (a + 20) fileNameLen)
  level := int8 (buf a)
  size := leVal (load buf (a + 8) 8)
  pieces := (List.range (int32 (leVal (load buf (a + 16) 4))).toNat).map fun i =>
    .ofWord (leVal (load buf (a + zrocksFileMetaLen + zrocksMapLen * i) 8))

/-- A name that fits its field: shorter than the field and without NUL bytes. -/
def NameOk (n : Name) : Prop := n.length < fileNameLen ∧ 0 ∉ n

/-- An entry that survives the encoding. -/
structure FileRec.WF (r : FileRec) : Prop where
  name : NameOk r.name
  level : -128 ≤ r.level ∧ r.level < 128
  size : r.size < 2 ^ 64
  pieces : r.pieces.length < 2 ^ 31

theorem ZrocksMap.ofWord_word (m : ZrocksMap) : ofWord m.word = m := by
  obtain ⟨⟨n, hn⟩, ⟨s, hs⟩, ⟨k, hk⟩, ⟨p, hp⟩⟩ := m
  simp only [ofWord, word, Fin.ofNat_eq_cast, mk.injEq, Fin.ext_iff, Fin.val_natCast]
  omega

theorem ZrocksMap.word_lt (m : ZrocksMap) : m.word < 256 ^ 8 := by
  obtain ⟨⟨n, hn⟩, ⟨s, hs⟩, ⟨k, hk⟩, ⟨p, hp⟩⟩ := m
  simp only [word]
  omega

theorem pieces_at {buf : Buf} {ps : List ZrocksMap} : ∀ {a : Nat},
    At buf a (ps.flatMap fun m => le 8 m.word) →
    ((List.range ps.length).map fun i => ZrocksMap.ofWord (leVal (load buf (a + zrocksMapLen * i) 8)))
      = ps := by
  induction ps with
  | nil => exact fun _ => rfl
  | cons m ps ih =>
    intro a h
    rw [flatMap_cons, at_append, le_length] at h
    obtain ⟨h1, h2⟩ := h
    rw [length_cons, range_succ_eq_map, map_cons, map_map]
    refine congrArg₂ List.cons ?_ ?_
    · rw [Nat.mul_zero, Nat.add_zero, h1.leVal, Nat.mod_eq_of_lt m.word_lt, m.ofWord_word]
    · refine Eq.trans (map_congr_left fun i _ => ?_) (ih h2)
      simp only [Function.comp, zrocksMapLen, Nat.mul_succ, Nat.add_assoc, Nat.add_comm]

/-- The byte of a level. -/
theorem int8_level {l : Int} (h : -128 ≤ l ∧ l < 128) :
    int8 (UInt8.ofNat (l % 256).toNat) = l := by
  have hlt : (l % 256).toNat < 256 := by omega
  simp only [int8, UInt8.toNat_ofNat', Nat.mod_eq_of_lt (show (l % 256).toNat < 2 ^ 8 from hlt)]
  split <;> omega

theorem FileRec.name_at {buf : Buf} {a : Nat} {r : FileRec} (h : At buf a r.bytes) :
    At buf (a + 20) (padTo fileNameLen r.name) := by
  rw [FileRec.bytes, fileMetaBytes] at h
  simp only [at_append, le_length, length_append, length_replicate] at h
  exact h.1.1.2

theorem FileRec.pieceNum_at {buf : Buf} {a : Nat} {r : FileRec} (hp : r.pieces.length < 2 ^ 31)
    (h : At buf a r.bytes) : (parseFile buf a).pieces.length = r.pieces.length := by
  rw [FileRec.bytes, fileMetaBytes] at h
  simp only [at_append, le_length, length_append, length_replicate] at h
  have hnum : leVal (load buf (a + 16) 4) = r.pieces.length := by
    rw [h.1.1.1.2.leVal, Nat.mod_eq_of_lt (lt_trans hp (by decide))]
  rw [parseFile, length_map, length_range, hnum, int32, if_pos hp, Int.toNat_natCast]

theorem parseFile_at {buf : Buf} {a : Nat} {r : FileRec} (hr : r.WF) (h : At buf a r.bytes) :
    parseFile buf a = r := by
  have hname : r.name.length ≤ fileNameLen := le_of_lt hr.name.1
  rw [FileRec.bytes, at_append, fileMetaBytes_length hname] at h
  obtain ⟨hm, hp⟩ := h
  simp only [fileMetaBytes, at_append, le_length, length_append, length_replicate] at hm
  obtain ⟨⟨⟨⟨⟨hl, -⟩, hs⟩, hn⟩, hf⟩, -⟩ := hm
  have hlevel : buf a = UInt8.ofNat (r.level % 256).toNat := by
    have := byte_of_load (b := buf) (a := a) (i := 0) (n := 1) (by decide)
    rw [show load buf a 1 = le 1 (r.level % 256).toNat from hl] at this
    exact (Option.some.inj this).symm
  have hnum : leVal (load buf (a + 16) 4) = r.pieces.length := by
    rw [hn.leVal, Nat.mod_eq_of_lt (lt_trans hr.pieces (by decide))]
  have hsize : leVal (load buf (a + 8) 8) = r.size := by
    rw [hs.leVal, Nat.mod_eq_of_lt (show r.size < 256 ^ 8 from hr.size)]
  have hcstr := hf.cstr_field hr.name.2 hr.name.1 hr.name.1
  have hint : (int32 r.pieces.length).toNat = r.pieces.length := by
    rw [int32, if_pos hr.pieces, Int.toNat_natCast]
  obtain ⟨name, level, size, pieces⟩ := r
  simp only [parseFile, FileRec.mk.injEq]
  refine ⟨hcstr, ?_, hsize, ?_⟩
  · rw [hlevel]
    exact int8_level hr.level
  · rw [hnum, hint]
    exact pieces_at hp

end Xztl
