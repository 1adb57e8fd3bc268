import Xztl.Env.Log

/-!
# Env — loading the log (`env_zns.cc`, `LoadMetaData`)

Loading looks for the zone with the newest head, clears the table, and applies the records of that
zone one after the other until a record of length zero; then it switches to the other zone and writes
a snapshot there.  `RecoverFileFromBuf` finds the object by the name in the entry and puts it into
the table under the object's own name; the two differ after a rename has been replayed.

The loop over the records has no bound in the source and runs on fuel here.  **`replay_logged`** says
that on a well-formed log it ends, with the table `Table.replay recs`, and **`load_logged`** that the
snapshot of that table is then the log.

`SetNodesInfo` and `zrocks_clear_invalid_nodes` work on the translation layer only.
-/

namespace Xztl

open Bytes List Table

/-! ### Applying records -/

/-- `RecoverFileFromBuf` on the entry `r`. -/
def Table.recover (t : Table) (r : FileRec) (replace : Bool) : Table :=
  match t.find r.name with
  | some p =>
    let f := { t.objs p with
      map := (if replace then [] else (t.objs p).map) ++ r.pieces
      size := r.size
      level := r.level }
    (t.set p f).put f.name (some p)
  | none =>
    let (t, p) := t.alloc { ZnsFile.new r.name (-1) with
      map := r.pieces
      size := r.size
      level := r.level }
    t.put r.name (some p)

/-- The cases of the `switch` in `LoadMetaData`, on a record as a value. -/
def Table.apply (t : Table) : Rec → Table
  | .base fs => fs.foldl (fun t f => t.recover f false) t
  | .update f => t.recover f false
  | .replace src dst => (t.erase src).put dst (t.find src)
  | .delete n => t.erase n
  | .gcChange f => t.recover f true

/-- The table after a log. -/
def Table.replay (recs : List Rec) : Table := recs.foldl Table.apply Table.empty

/-! ### Reading records -/

/-- The number of bytes `RecoverFileFromBuf` reads. -/
def entryLen (buf : Buf) (a : Nat) : Nat :=
  zrocksFileMetaLen + zrocksMapLen * (parseFile buf a).pieces.length

/-- `RecoverFileFromBuf`: the table and `praseLen`. -/
def recoverFileFromBuf (t : Table) (buf : Buf) (a : Nat) (replace : Bool) : Table × Nat :=
  (t.recover (parseFile buf a) replace, entryLen buf a)

/-- The loop over the entries of a snapshot. -/
def recoverFiles : (fileNum : Nat) → Table → Buf → Nat → Table
  | 0, t, _, _ => t
  | n + 1, t, buf, praseLen =>
    let (t, fileMetaLen) := recoverFileFromBuf t buf praseLen false
    recoverFiles n t buf (praseLen + fileMetaLen)

/-- The string at `a` in `metaBuf`. -/
def strAt (buf : Buf) (a : Nat) : Name := cstr (load buf a (fileMetadataBufSize - a))

/-- The entry at `a` is read inside `metaBuf`, and its name ends inside the field. -/
def EntryInside (buf : Buf) (a : Nat) : Prop :=
  0 ∈ load buf (a + 20) fileNameLen ∧ a + entryLen buf a ≤ fileMetadataBufSize

/-- So are the entries of a snapshot. -/
def EntriesInside : (fileNum : Nat) → Buf → Nat → Prop
  | 0, _, _ => True
  | n + 1, buf, praseLen =>
    EntryInside buf praseLen ∧ EntriesInside n buf (praseLen + entryLen buf praseLen)

/-- The string at `a` ends inside `metaBuf`. -/
def StrInside (buf : Buf) (a : Nat) : Prop := 0 ∈ load buf a (fileMetadataBufSize - a)

instance (buf : Buf) (a : Nat) : Decidable (EntryInside buf a) := inferInstanceAs (Decidable (_ ∧ _))

instance (buf : Buf) (a : Nat) : Decidable (StrInside buf a) := inferInstanceAs (Decidable (_ ∈ _))

instance decidableEntriesInside : ∀ (fileNum : Nat) (buf : Buf) (a : Nat),
    Decidable (EntriesInside fileNum buf a)
  | 0, _, _ => isTrue trivial
  | n + 1, buf, a =>
    have := decidableEntriesInside n buf (a + entryLen buf a)
    inferInstanceAs (Decidable (_ ∧ _))

/-- A table read from `metaBuf`, when all that is read lies in it. -/
def inMetaBuf (p : Prop) [Decidable p] (t : Table) : Except Stop Table :=
  if p then .ok t else .error .outOfBounds

/-- The record in `metaBuf`.  The counter of the snapshot loop has 16 bits, so it does not end when
there are more files. -/
def applyRecord (t : Table) (buf : Buf) : Except Stop Table :=
  let praseLen := metadataHeadLen
  if buf 8 = Operation.base.tag then
    let fileNum := leVal (load buf praseLen 4)
    if fileNum ≥ 2 ^ 16 then .error .waiting
    else inMetaBuf (EntriesInside fileNum buf (praseLen + 4))
      (recoverFiles fileNum t buf (praseLen + 4))
  else if buf 8 = Operation.update.tag then
    inMetaBuf (EntryInside buf praseLen) (recoverFileFromBuf t buf praseLen false).1
  else if buf 8 = Operation.replace.tag then
    let srcFileName := strAt buf praseLen
    let dstFileName := strAt buf (praseLen + fileNameLen)
    inMetaBuf (StrInside buf praseLen ∧ StrInside buf (praseLen + fileNameLen))
      ((t.erase srcFileName).put dstFileName (t.find srcFileName))
  else if buf 8 = Operation.delete.tag then
    inMetaBuf (StrInside buf praseLen) (t.erase (strAt buf praseLen))
  else if buf 8 = Operation.gcChange.tag then
    inMetaBuf (EntryInside buf praseLen) (recoverFileFromBuf t buf praseLen true).1
  else .ok t

/-- The loop over the records from sector `readSlba` on; `metaBuf` keeps what earlier rounds left in
it. -/
def replayLoop : (fuel readSlba : Nat) → Buf → Table → Metadata →
    Except Stop (Table × Metadata × Status)
  | 0, _, _, _, _ => .error .waiting
  | fuel + 1, readSlba, buf, t, m => do
      let readLen := znsAligment
      let (m, buf, ret) := zrocksReadMetadata m readSlba buf 0 readLen
      if ret ≠ xztlOk then return (t, m, .ioError)
      let dataLength := leVal (load buf 4 4)
      if dataLength = 0 then return (t, m, .ok)
      let rest := if dataLength + metadataHeadLen > readLen
        then dataLength + metadataHeadLen - readLen else 0
      if readLen * (1 + rest / znsAligment % 2 ^ 16) > fileMetadataBufSize then .error .outOfBounds
      let (m, buf, ret) := zrocksReadMetadata m (readSlba + readLen / znsAligment) buf readLen rest
      if ret ≠ xztlOk then return (t, m, .ioError)
      let t ← applyRecord t buf
      replayLoop fuel (readSlba + (metadataHeadLen + dataLength) / znsAligment) buf t m

/-- The last entry of `seqSlbaMap` after another zone head; of two equal numbers the second one
stays. -/
def takeHead (newest : Option (Nat × Nat)) (seq slba : Nat) : Option (Nat × Nat) :=
  match newest with
  | some (best, slba') => if best ≤ seq then some (seq, slba) else some (best, slba')
  | none => some (seq, slba)

/-- The loop over the zone heads: the newest head found and its zone, and `sequence`.  Of
`seqSlbaMap` only the last entry is ever used. -/
def loadHeads : List Nat → Metadata → Buf → (newest : Option (Nat × Nat)) → (sequence : Nat) →
    Metadata × Buf × Option (Nat × Nat) × Nat × Status
  | [], m, buf, newest, sequence => (m, buf, newest, sequence, .ok)
  | i :: is, m, buf, newest, sequence =>
    let slba := (m.zone i).sect
    let (m, buf, ret) := zrocksReadMetadata m slba buf 0 metaZoneHeadLen
    if ret ≠ xztlOk then (m, buf, newest, sequence, .ioError)
    else if buf 0 = metadataMagic then
      let seq := leVal (load buf 4 4)
      loadHeads is m buf (takeHead newest seq slba) (if seq > sequence then seq else sequence)
    else loadHeads is m buf newest sequence

/-- `ClearMetaData`. -/
def Table.clear (t : Table) : Table :=
  let t := t.files.toList.foldl (fun t x => x.2.elim t t.delete) t
  { t with files := ∅ }

/-- `LoadMetaData` up to `LOAD_END`. -/
def replay (fuel : Nat) (e : Env) : Except Stop (Env × Status) := do
  let (m, buf, newest, sequence, st) :=
    loadHeads (List.range metadataZoneNum) e.md (fun _ => 0) none e.sequence
  let e := { e with md := m, sequence := sequence }
  if st ≠ .ok then return (e, .ioError)
  match newest with
  | none => return (e, .ok)
  | some (_, slba) =>
    let (t, m, st) ←
      replayLoop fuel (slba + metaZoneHeadLen / znsAligment) buf e.tbl.clear m
    if st ≠ .ok then return ({ e with tbl := t, md := m }, .ioError)
    return ({ e with tbl := t, md := zrocksSwitchZone m slba,
                     sequence := (sequence + 1) % 2 ^ 64 }, .ok)

/-- `ZNSEnv::LoadMetaData`. -/
def loadMetaData (fuel : Nat) (e : Env) : Except Stop (Env × Status) := do
  let (e, st) ← replay fuel e
  if st ≠ .ok then return (e, st)
  let (e, _) ← flushMetaData e
  return (e, .ok)

/-- `get_curr_metadata_zone`. -/
def getCurrMetadataZone (m : Metadata) : Nat :=
  ((List.range metadataZoneNum).find? fun i =>
    (m.zone i).wptr < (m.zone i).sect + (m.zone i).capacity).getD 0

/-- A new process on the same device: an empty environment, and `ztl_metadata_init` with the true
write pointers. -/
def Env.restart (e : Env) : Env where
  tbl := .empty
  sequence := 0
  nidFileMap := fun _ => []
  md := { e.md with currZoneIndex := getCurrMetadataZone e.md }

/-! ### A well-formed log -/

/-- A record that survives the encoding. -/
def Rec.Sane : Rec → Prop
  | .base fs => fs.length < 2 ^ 16 ∧ ∀ f ∈ fs, f.WF
  | .update f => f.WF
  | .replace src dst => NameOk src ∧ NameOk dst
  | .delete n => NameOk n
  | .gcChange f => f.WF

/-- A record that can be loaded: it survives the encoding and fits `metaBuf`. -/
structure Rec.WF (r : Rec) : Prop where
  sane : r.Sane
  fits : r.sectors ≤ fileMetadataBufSize / znsAligment

variable {a i q : Nat} {r : Rec} {fs : List FileRec} {media : Buf}

section

variable {buf : Buf} {t : Table} {m : Metadata}

theorem at_bytes (h : At buf a r.bytes) :
    leVal (load buf (a + 4) 4) = (znsAligment * r.sectors - metadataHeadLen) % 256 ^ 4 ∧
      buf (a + 8) = r.op.tag ∧ At buf (a + metadataHeadLen) r.body := by
  rw [Rec.bytes, padTo, at_append, at_append, headBytes_length] at h
  obtain ⟨⟨hh, hb⟩, -⟩ := h
  simp only [headBytes, at_append, le_length, length_append] at hh
  obtain ⟨⟨⟨-, hl⟩, ht⟩, -⟩ := hh
  refine ⟨hl.leVal, ?_, hb⟩
  exact head_eq_of_cons_eq ht

/-- Nothing outside the entry is read. -/
theorem entryLen_at {f : FileRec} (hf : f.WF) (h : At buf a f.bytes) :
    entryLen buf a = f.bytes.length := by
  rw [entryLen, parseFile_at hf h, FileRec.bytes_length (le_of_lt hf.name.1)]

theorem recoverFiles_at : ∀ {a : Nat} {t : Table}, (∀ f ∈ fs, f.WF) →
    At buf a (fs.flatMap FileRec.bytes) →
    recoverFiles fs.length t buf a = fs.foldl (fun t f => t.recover f false) t := by
  induction fs with
  | nil => exact fun _ _ => rfl
  | cons f fs ih =>
    intro a t hwf h
    have hf := hwf f mem_cons_self
    rw [flatMap_cons, at_append] at h
    rw [length_cons, recoverFiles]
    simp only [recoverFileFromBuf, parseFile_at hf h.1, entryLen_at hf h.1]
    exact ih (fun g hg => hwf g (mem_cons_of_mem _ hg)) h.2

theorem entryInside_at {f : FileRec} (hf : f.WF) (h : At buf a f.bytes)
    (ha : a + f.bytes.length ≤ fileMetadataBufSize) : EntryInside buf a :=
  ⟨(FileRec.name_at h).zero_mem_field hf.name.1 (le_refl _), by rwa [entryLen_at hf h]⟩

theorem entriesInside_at : ∀ {a : Nat}, (∀ f ∈ fs, f.WF) → At buf a (fs.flatMap FileRec.bytes) →
    a + (fs.flatMap FileRec.bytes).length ≤ fileMetadataBufSize →
    EntriesInside fs.length buf a := by
  induction fs with
  | nil => exact fun _ _ _ => trivial
  | cons f fs ih =>
    intro a hwf h ha
    have hf := hwf f mem_cons_self
    rw [flatMap_cons, at_append] at h
    rw [flatMap_cons, length_append] at ha
    refine ⟨entryInside_at hf h.1 (by omega), ?_⟩
    rw [entryLen_at hf h.1]
    exact ih (fun g hg => hwf g (mem_cons_of_mem _ hg)) h.2 (by omega)

theorem strInside_field {n : Name} (hn : NameOk n)
    (ha : a + fileNameLen ≤ fileMetadataBufSize) (h : At buf a (padTo fileNameLen n)) :
    StrInside buf a := by
  rw [StrInside]
  exact h.zero_mem_field hn.1 (Nat.le_sub_of_add_le' ha)

theorem strAt_field {n : Name} (hn : NameOk n) (ha : a + fileNameLen ≤ fileMetadataBufSize)
    (h : At buf a (padTo fileNameLen n)) : strAt buf a = n :=
  h.cstr_field hn.2 hn.1 (by have := hn.1; omega)

theorem inMetaBuf_ok {p : Prop} [Decidable p] (h : p) : inMetaBuf p t = .ok t := if_pos h

theorem inMetaBuf_eq_ok {p : Prop} [Decidable p] {t' : Table} :
    inMetaBuf p t = .ok t' ↔ p ∧ t = t' := by
  rw [inMetaBuf]
  by_cases h : p
  · rw [if_pos h, Except.ok.injEq, and_iff_right h]
  · rw [if_neg h]
    exact ⟨fun e => (nomatch e), fun e => absurd e.1 h⟩

/-- **A record in `metaBuf`** is applied. -/
theorem applyRecord_at (hr : r.WF) (h : At buf 0 r.bytes) :
    applyRecord t buf = .ok (t.apply r) := by
  obtain ⟨-, htag, hbody⟩ := at_bytes h
  rw [Nat.zero_add] at htag hbody
  have hend : metadataHeadLen + r.body.length ≤ fileMetadataBufSize :=
    calc metadataHeadLen + r.body.length ≤ znsAligment * r.sectors := r.head_body_le
      _ ≤ znsAligment * (fileMetadataBufSize / znsAligment) := Nat.mul_le_mul_left _ hr.fits
      _ = fileMetadataBufSize := by decide
  have hs := hr.sane
  rw [applyRecord]
  cases r with
  | base fs =>
    rw [show buf 8 = Operation.base.tag from htag, if_pos rfl]
    rw [Rec.body, at_append, le_length] at hbody
    rw [Rec.body, length_append, le_length, ← Nat.add_assoc] at hend
    have hnum : leVal (load buf metadataHeadLen 4) = fs.length := by
      rw [hbody.1.leVal, Nat.mod_eq_of_lt (lt_trans hs.1 (by decide))]
    simp only [hnum, if_neg (Nat.not_le_of_lt hs.1)]
    rw [recoverFiles_at hs.2 hbody.2, inMetaBuf_ok (entriesInside_at hs.2 hbody.2 hend)]
    rfl
  | update f =>
    rw [show buf 8 = Operation.update.tag from htag, if_neg (by decide), if_pos rfl]
    rw [recoverFileFromBuf, parseFile_at hs hbody, inMetaBuf_ok (entryInside_at hs hbody hend)]
    rfl
  | replace src dst =>
    rw [show buf 8 = Operation.replace.tag from htag, if_neg (by decide), if_neg (by decide),
      if_pos rfl]
    rw [Rec.body, at_append, padTo_length (le_of_lt hs.1.1)] at hbody
    simp only [strAt_field hs.1 (by decide) hbody.1, strAt_field hs.2 (by decide) hbody.2]
    exact inMetaBuf_ok ⟨strInside_field hs.1 (by decide) hbody.1,
      strInside_field hs.2 (by decide) hbody.2⟩
  | delete n =>
    rw [show buf 8 = Operation.delete.tag from htag, if_neg (by decide), if_neg (by decide),
      if_neg (by decide), if_pos rfl]
    simp only [strAt_field hs (by decide) hbody]
    exact inMetaBuf_ok (strInside_field hs (by decide) hbody)
  | gcChange f =>
    rw [show buf 8 = Operation.gcChange.tag from htag, if_neg (by decide), if_neg (by decide),
      if_neg (by decide), if_neg (by decide), if_pos rfl]
    rw [recoverFileFromBuf, parseFile_at hs hbody, inMetaBuf_ok (entryInside_at hs hbody hend)]
    rfl

/-! ### The bytes determine the records -/

theorem Operation.tag_inj {o o' : Operation} (h : o.tag = o'.tag) : o = o' := by
  cases o <;> cases o' <;> first | rfl | exact absurd h (by decide)

/-- Entries in a row are determined by their bytes. -/
theorem entries_unique : ∀ {fs' : List FileRec} {a : Nat},
    (∀ f ∈ fs, f.WF) → (∀ f ∈ fs', f.WF) → fs.length = fs'.length →
    At buf a (fs.flatMap FileRec.bytes) → At buf a (fs'.flatMap FileRec.bytes) → fs = fs' := by
  induction fs with
  | nil =>
    intro fs' a _ _ hlen _ _
    exact (length_eq_zero_iff.mp hlen.symm).symm
  | cons f fs ih =>
    intro fs' a hwf hwf' hlen h h'
    cases fs' with
    | nil => cases hlen
    | cons f' fs' =>
      rw [flatMap_cons, at_append] at h h'
      have hf := hwf f mem_cons_self
      have hf' := hwf' f' mem_cons_self
      obtain rfl : f = f' := (parseFile_at hf h.1).symm.trans (parseFile_at hf' h'.1)
      refine congrArg (List.cons f) (ih (fun g hg => hwf g (mem_cons_of_mem _ hg))
        (fun g hg => hwf' g (mem_cons_of_mem _ hg)) (Nat.succ.inj hlen) h.2 h'.2)

/-- **A record is determined by its bytes.** -/
theorem Rec.Sane.unique {r' : Rec} (hr : r.Sane) (hr' : r'.Sane) (h : At buf a r.bytes)
    (h' : At buf a r'.bytes) : r = r' := by
  obtain ⟨-, ht, hb⟩ := at_bytes h
  obtain ⟨-, ht', hb'⟩ := at_bytes h'
  have hop := Operation.tag_inj (ht.symm.trans ht')
  have hfield : ∀ {n n' : Name} {a : Nat}, NameOk n → NameOk n' → At buf a (padTo fileNameLen n) →
      At buf a (padTo fileNameLen n') → n = n' := fun hn hn' h h' =>
    (h.cstr_field hn.2 hn.1 hn.1).symm.trans (h'.cstr_field hn'.2 hn'.1 hn'.1)
  cases r with
  | base fs =>
    cases r' with
    | base fs' =>
      rw [Rec.body, at_append, le_length] at hb hb'
      have hlen := hb.1.leVal.symm.trans hb'.1.leVal
      rw [Nat.mod_eq_of_lt (lt_trans hr.1 (by decide)),
        Nat.mod_eq_of_lt (lt_trans hr'.1 (by decide))] at hlen
      exact congrArg _ (entries_unique hr.2 hr'.2 hlen hb.2 hb'.2)
    | _ => cases hop
  | update f =>
    cases r' with
    | update f' => exact congrArg _ ((parseFile_at hr hb).symm.trans (parseFile_at hr' hb'))
    | _ => cases hop
  | replace src dst =>
    cases r' with
    | replace src' dst' =>
      rw [Rec.body, at_append, padTo_length (le_of_lt hr.1.1)] at hb
      rw [Rec.body, at_append, padTo_length (le_of_lt hr'.1.1)] at hb'
      rw [hfield hr.1 hr'.1 hb.1 hb'.1, hfield hr.2 hr'.2 hb.2 hb'.2]
    | _ => cases hop
  | delete n =>
    cases r' with
    | delete n' => exact congrArg _ (hfield hr hr' hb hb')
    | _ => cases hop
  | gcChange f =>
    cases r' with
    | gcChange f' => exact congrArg _ ((parseFile_at hr hb).symm.trans (parseFile_at hr' hb'))
    | _ => cases hop

/-- The length of a record, as its head gives it. -/
theorem Rec.WF.dataLength (h : r.WF) : (znsAligment * r.sectors - metadataHeadLen) % 256 ^ 4
      = znsAligment * r.sectors - metadataHeadLen := by
  have := h.fits
  simp only [fileMetadataBufSize, znsAligment, metadataHeadLen] at *
  omega

/-! ### One round -/

/-- `metaBuf` after the read of sector `s`. -/
def withHead (media : Buf) (s : Nat) (buf : Buf) : Buf :=
  memcpy buf 0 (load media (znsAligment * s) znsAligment)

/-- `metaBuf` after the read of the `k` sectors behind it. -/
def withRest (media : Buf) (s k : Nat) (buf : Buf) : Buf :=
  memcpy buf znsAligment (load media (znsAligment * (s + 1)) (znsAligment * k))

/-- How many sectors behind the head's are read; the number has 16 bits. -/
def restSectors (dataLength : Nat) : Nat :=
  (if dataLength + metadataHeadLen > znsAligment
    then dataLength + metadataHeadLen - znsAligment else 0) / znsAligment % 2 ^ 16

theorem withHead_zero (media buf : Buf) (s : Nat) :
    withHead media s buf 0 = media (znsAligment * s) := by
  have hlt : withHead media s buf (0 + 0) = _ := memcpy_of_lt (by rw [load_length]; decide)
  rw [hlt, List.getD_eq_getElem?_getD, byte_of_load (by decide)]
  rfl

theorem load_withHead (media buf : Buf) (s : Nat) :
    load (withHead media s buf) 4 4 = load media (znsAligment * s + 4) 4 := by
  have : load (withHead media s buf) (0 + 4) 4 = _ := load_memcpy_load (by decide)
  rwa [Nat.zero_add] at this

theorem read_head (h : m.AllOk) (hs : s < m.nsect) (buf : Buf) :
    ∃ c, zrocksReadMetadata m s buf 0 znsAligment
      = ({ m with cmds := c }, withHead m.media s buf, xztlOk) := by
  obtain ⟨c, e⟩ := zrocksReadMetadata_ok buf h (k := 1) (by decide) hs 0
  rw [Nat.mul_one] at e
  exact ⟨c, e⟩

theorem replayLoop_end (h : m.AllOk) (hs : s < m.nsect)
    (hlen : leVal (load (withHead m.media s buf) 4 4) = 0) (fuel : Nat) (t : Table) :
    ∃ c, replayLoop (fuel + 1) s buf t m = .ok (t, { m with cmds := c }, .ok) := by
  obtain ⟨c, e⟩ := read_head h hs buf
  refine ⟨c, ?_⟩
  rw [replayLoop]
  simp only [e, hlen]
  rfl

theorem replayLoop_next {dataLength k : Nat} (h : m.AllOk) (hs : s < m.nsect)
    (hlen : leVal (load (withHead m.media s buf) 4 4) = dataLength) (hpos : dataLength ≠ 0)
    (hk : restSectors dataLength = k) (hfit : znsAligment * (1 + k) ≤ fileMetadataBufSize)
    (hin : s + 1 + k ≤ m.nsect) :
    ∃ c, ∀ fuel t, replayLoop (fuel + 1) s buf t m
      = (applyRecord t (withRest m.media s k (withHead m.media s buf))).bind fun t' =>
          replayLoop fuel (s + (metadataHeadLen + dataLength) / znsAligment)
            (withRest m.media s k (withHead m.media s buf)) t' { m with cmds := c } := by
  obtain ⟨c, e⟩ := read_head h hs buf
  rw [restSectors] at hk
  obtain ⟨c', e'⟩ := zrocksReadMetadata_nlb (m := { m with cmds := c })
    (withHead m.media s buf) h hk (show s + 1 + k ≤ m.nsect from hin) znsAligment
  refine ⟨c', fun fuel t => ?_⟩
  rw [replayLoop]
  simp only [e, hlen, if_neg hpos, hk, if_neg (Nat.not_lt_of_le hfit),
    show s + znsAligment / znsAligment = s + 1 from rfl, e']
  rfl

/-- **The loop over the records** ends at the first sector without a record. -/
theorem replayLoop_ok : ∀ {fuel s : Nat} {b : Buf} {t : Table} {m : Metadata},
    m.AllOk → s + recSectors recs < m.nsect → LogAt m.media s recs → (∀ r ∈ recs, r.WF) →
    leVal (load m.media (znsAligment * (s + recSectors recs) + 4) 4) = 0 → recs.length < fuel →
    ∃ c, replayLoop fuel s b t m = .ok (recs.foldl Table.apply t, { m with cmds := c }, .ok) := by
  induction recs with
  | nil =>
    intro fuel s buf t m hok hin _ _ hend hfuel
    obtain ⟨fuel, rfl⟩ : ∃ k, fuel = k + 1 := ⟨fuel - 1, by simp at hfuel; omega⟩
    exact replayLoop_end hok hin ((congrArg leVal (load_withHead ..)).trans hend) fuel t
  | cons r recs ih =>
    rintro fuel s buf t m hok hin ⟨hr, hlog⟩ hwf hend hfuel
    rw [recSectors_cons, ← Nat.add_assoc] at hin hend
    obtain ⟨fuel, rfl⟩ : ∃ k, fuel = k + 1 := ⟨fuel - 1, by simp at hfuel; omega⟩
    have hw := hwf r mem_cons_self
    have hpos := r.sectors_pos
    have hfits := hw.fits
    have hle : metadataHeadLen ≤ znsAligment * r.sectors :=
      le_trans (Nat.le_add_right _ _) r.head_body_le
    have hrest : restSectors (znsAligment * r.sectors - metadataHeadLen) = r.sectors - 1 := by
      have hif : (if znsAligment * r.sectors > znsAligment then znsAligment * r.sectors - znsAligment
          else 0) = znsAligment * (r.sectors - 1) := by
        simp only [znsAligment]
        grind
      rw [restSectors, Nat.sub_add_cancel hle, hif, Nat.mul_div_cancel_left _ (by decide)]
      exact Nat.mod_eq_of_lt (lt_of_le_of_lt (le_trans (Nat.sub_le _ _) hfits) (by decide))
    have hlen : leVal (load (withHead m.media s buf) 4 4)
        = znsAligment * r.sectors - metadataHeadLen := by
      rw [load_withHead, (at_bytes hr).1, hw.dataLength]
    have hbuf : withRest m.media s (r.sectors - 1) (withHead m.media s buf)
        = memcpy buf 0 r.bytes := by
      have hsplit : znsAligment * r.sectors = znsAligment + znsAligment * (r.sectors - 1) := by
        simp only [znsAligment]
        omega
      rw [At, r.bytes_length, hsplit, load_add] at hr
      rw [withRest, withHead, ← hr, memcpy_append, load_length, Nat.zero_add, Nat.mul_add,
        Nat.mul_one]
    obtain ⟨c, e⟩ := replayLoop_next hok (by omega) hlen
      (by simp only [znsAligment, metadataHeadLen]; omega) hrest
      (by rw [Nat.add_sub_cancel' hpos]; exact Nat.mul_le_mul_left znsAligment hfits) (by omega)
    rw [hbuf] at e
    obtain ⟨c', e'⟩ := ih (b := memcpy buf 0 r.bytes) (m := { m with cmds := c })
      (t := t.apply r) hok hin hlog (fun r' hr' => hwf r' (mem_cons_of_mem _ hr')) hend
      (Nat.lt_of_succ_lt_succ hfuel)
    refine ⟨c', ?_⟩
    rw [e, applyRecord_at hw At.self, Nat.add_sub_cancel' hle,
      Nat.mul_div_cancel_left _ (by decide)]
    exact e'

/-! ### The newest zone -/

/-- The number in the head of a zone, if it has one. -/
def zoneSeq (m : Metadata) (i : Nat) : Option Nat :=
  if m.media (znsAligment * (m.zone i).sect) = metadataMagic then
    some (leVal (load m.media (znsAligment * (m.zone i).sect + 4) 4))
  else none

/-- The zone with the newest head, of two equal numbers the second one. -/
def newestZone (m : Metadata) : Option Nat :=
  match zoneSeq m 0, zoneSeq m 1 with
  | some a, some b => some (if a ≤ b then 1 else 0)
  | some _, none => some 0
  | none, some _ => some 1
  | none, none => none

/-- `sequence` after the heads have been read. -/
def loadedSeq (m : Metadata) (sequence : Nat) : Nat :=
  max ((zoneSeq m 1).getD 0) (max ((zoneSeq m 0).getD 0) sequence)

theorem zoneSeq_head (hq : q < 2 ^ 32)
    (h : At m.media (znsAligment * (m.zone i).sect) (zoneHeadBytes q)) : zoneSeq m i = some q := by
  rw [zoneHeadBytes, padTo, at_append, at_append, at_append] at h
  obtain ⟨⟨⟨hmagic, -⟩, hnum⟩, -⟩ := h
  have hnum : leVal (load m.media (znsAligment * (m.zone i).sect + 4) 4) = q := by
    have hval := hnum.leVal
    rwa [Nat.mod_eq_of_lt (show q < 256 ^ 4 from hq)] at hval
  have hbyte : m.media (znsAligment * (m.zone i).sect) = metadataMagic :=
    head_eq_of_cons_eq hmagic
  rw [zoneSeq, if_pos hbyte, hnum]

theorem zoneSeq_none (h : m.media (znsAligment * (m.zone i).sect) = 0) : zoneSeq m i = none := by
  rw [zoneSeq, h, if_neg (by decide)]

section

variable (hi : i < 2) (h : zoneSeq m i = some q)
  (hother : ∀ q', zoneSeq m (1 - i) = some q' → q' < q)
include hi h hother

/-- The greater of two different numbers is the newest. -/
theorem newestZone_of_lt : newestZone m = some i := by
  rw [newestZone]
  obtain rfl | rfl : i = 0 ∨ i = 1 := by omega
  · rw [h]
    cases h1 : zoneSeq m 1 with
    | none => rfl
    | some q' => exact congrArg some (if_neg (Nat.not_le_of_lt (hother q' h1)))
  · rw [h]
    cases h0 : zoneSeq m 0 with
    | none => rfl
    | some q' => exact congrArg some (if_pos (le_of_lt (hother q' h0)))

theorem loadedSeq_of_lt : loadedSeq m 0 = q := by
  have hle : (zoneSeq m (1 - i)).getD 0 ≤ q := by
    cases hz : zoneSeq m (1 - i) with
    | none => exact Nat.zero_le q
    | some q' => exact le_of_lt (hother q' hz)
  have hq : (zoneSeq m i).getD 0 = q := by rw [h]; rfl
  rw [loadedSeq]
  obtain rfl | rfl : i = 0 ∨ i = 1 := by omega
  · rw [hq, Nat.max_zero, max_eq_right hle]
  · rw [hq, Nat.max_zero, max_eq_left hle]

end

/-- A head is read over the one before it. -/
theorem withHead_withHead (media buf : Buf) (s s' : Nat) :
    withHead media s (withHead media s' buf) = withHead media s buf := by
  funext i
  by_cases hi : i < znsAligment
  · have hlt : ∀ b, memcpy b 0 (load media (znsAligment * s) znsAligment) (0 + i) = _ := fun b =>
      memcpy_of_lt (by rwa [load_length])
    rw [Nat.zero_add] at hlt
    rw [withHead, hlt, withHead, hlt]
  · have hge : ∀ s b, withHead media s b i = b i := fun s b =>
      memcpy_of_not_mem (Or.inr (by rw [load_length]; omega))
    rw [hge, hge, hge]

theorem loadHeads_cons (h : m.AllOk) (hin : (m.zone i).sect < m.nsect) (is : List Nat)
    (buf : Buf) (newest : Option (Nat × Nat)) (sequence : Nat) :
    ∃ c, loadHeads (i :: is) m buf newest sequence
      = loadHeads is { m with cmds := c } (withHead m.media (m.zone i).sect buf)
          ((zoneSeq m i).elim newest fun seq => takeHead newest seq (m.zone i).sect)
          (max ((zoneSeq m i).getD 0) sequence) := by
  obtain ⟨c, e⟩ := read_head h hin buf
  rw [loadHeads]
  simp only [metaZoneHeadLen, e, withHead_zero, load_withHead, zoneSeq, ne_eq, not_true_eq_false,
    if_false]
  refine ⟨c, ?_⟩
  by_cases hmagic : m.media (znsAligment * (m.zone i).sect) = metadataMagic
  · rw [if_pos hmagic, if_pos hmagic, Option.getD_some]
    split
    · rw [max_eq_left (le_of_lt ‹_›)]
      rfl
    · rw [max_eq_right (Nat.le_of_not_lt ‹_›)]
      rfl
  · rw [if_neg hmagic, if_neg hmagic, Option.getD_none, Nat.zero_max]
    rfl

/-- **The heads lead to the newest zone.** -/
theorem loadHeads_newest (h : m.AllOk) (hin : ∀ i < 2, (m.zone i).sect < m.nsect) (sequence : Nat) :
    ∃ c newest, loadHeads (List.range metadataZoneNum) m (fun _ => 0) none sequence
      = ({ m with cmds := c }, withHead m.media (m.zone 1).sect (fun _ => 0), newest,
          loadedSeq m sequence, .ok) ∧
      newest.map Prod.snd = (newestZone m).map fun i => (m.zone i).sect := by
  obtain ⟨c1, e1⟩ := loadHeads_cons h (hin 0 Nat.zero_lt_two) [1] (fun _ => 0) none sequence
  obtain ⟨c2, e2⟩ := loadHeads_cons (m := { m with cmds := c1 }) h (hin 1 Nat.one_lt_two) []
    (withHead m.media (m.zone 0).sect fun _ => 0)
    ((zoneSeq m 0).elim none fun seq => takeHead none seq (m.zone 0).sect)
    (max ((zoneSeq m 0).getD 0) sequence)
  refine ⟨c2, (zoneSeq m 1).elim
    ((zoneSeq m 0).elim none fun seq => takeHead none seq (m.zone 0).sect) fun seq =>
      takeHead ((zoneSeq m 0).elim none fun seq => takeHead none seq (m.zone 0).sect) seq
        (m.zone 1).sect, ?_, ?_⟩
  · rw [← withHead_withHead m.media (fun _ => 0) (m.zone 1).sect (m.zone 0).sect]
    exact e1.trans e2
  · rw [newestZone]
    cases h0 : zoneSeq m 0 with
    | none =>
      cases h1 : zoneSeq m 1 with
      | none => rfl
      | some b => rfl
    | some a =>
      cases h1 : zoneSeq m 1 with
      | none => rfl
      | some b =>
        simp only [Option.elim, takeHead, Option.map_some]
        split <;> rfl

/-- Without a zone head nothing is read. -/
theorem replay_none (h : e.md.AllOk) (hin : ∀ i < 2, (e.md.zone i).sect < e.md.nsect)
    (hz : newestZone e.md = none) : ∃ c, ∀ fuel, replay fuel e
      = .ok ({ e with md := { e.md with cmds := c }, sequence := loadedSeq e.md e.sequence }, .ok) := by
  obtain ⟨c, newest, hheads, hnew⟩ := loadHeads_newest h hin e.sequence
  rw [hz, Option.map_none, Option.map_eq_none_iff] at hnew
  subst hnew
  refine ⟨c, fun fuel => ?_⟩
  rw [replay]
  simp only [hheads]
  rfl

/-- With one, the records behind it are read, and the zones are switched. -/
theorem replay_some (h : e.md.AllOk) (hin : ∀ i < 2, (e.md.zone i).sect < e.md.nsect)
    (hz : newestZone e.md = some i) : ∃ c, ∀ fuel, replay fuel e
      = (replayLoop fuel ((e.md.zone i).sect + 1)
          (withHead e.md.media (e.md.zone 1).sect fun _ => 0) e.tbl.clear
          { e.md with cmds := c }).bind fun r => if r.2.2 ≠ .ok then
          .ok ({ e with tbl := r.1, md := r.2.1, sequence := loadedSeq e.md e.sequence }, .ioError)
        else .ok ({ e with
          tbl := r.1
          md := zrocksSwitchZone r.2.1 (e.md.zone i).sect
          sequence := (loadedSeq e.md e.sequence + 1) % 2 ^ 64 }, .ok) := by
  obtain ⟨c, newest, hheads, hnew⟩ := loadHeads_newest h hin e.sequence
  rw [hz, Option.map_some] at hnew
  obtain ⟨⟨seq, slba⟩, rfl, rfl⟩ := Option.map_eq_some_iff.mp hnew
  refine ⟨c, fun fuel => ?_⟩
  rw [replay]
  simp only [hheads]
  rw [if_neg (by simp)]
  rfl

/-- **The current zone is the newest one**, as long as the numbers have not wrapped around. -/
theorem LogIn.newest (h : LogIn m seq recs) (hseq : seq < 2 ^ 32) :
    newestZone m = some m.currZoneIndex ∧ loadedSeq m 0 = seq := by
  have hcurr : zoneSeq m m.currZoneIndex = some seq := zoneSeq_head hseq h.holds.head
  have hother : zoneSeq m (1 - m.currZoneIndex) = none ∨
      0 < seq ∧ zoneSeq m (1 - m.currZoneIndex) = some (seq - 1) :=
    h.other.imp (fun ho => if_neg ho) fun ⟨_, hpos, ho⟩ =>
      ⟨hpos, zoneSeq_head (lt_of_le_of_lt (Nat.sub_le _ _) hseq) ho.head⟩
  have hlt : ∀ q, zoneSeq m (1 - m.currZoneIndex) = some q → q < seq := by
    intro q hq
    rw [hq] at hother
    rcases hother with ho | ⟨hpos, ho⟩
    · cases ho
    · cases ho
      exact Nat.sub_lt hpos Nat.one_pos
  refine ⟨newestZone_of_lt h.geo.curr hcurr hlt, ?_⟩
  exact loadedSeq_of_lt h.geo.curr hcurr hlt

/-! ### Loading a log -/

theorem LogIn.setCmds (h : LogIn m seq recs) (c : Nat) : LogIn { m with cmds := c } seq recs :=
  ⟨⟨h.geo.ok, h.geo.curr, h.geo.disj, h.geo.cap, h.geo.inside⟩, h.holds, h.other⟩

/-- Behind the last record there is none. -/
theorem ZoneHolds.end_zero {z : MetaZone} (h : ZoneHolds media z seq recs) :
    leVal (load media (znsAligment * (z.sect + 1 + recSectors recs) + 4) 4) = 0 := by
  have hw := h.wptr
  have hr := h.room
  rw [← hw, load_const, leVal_replicate]
  intro i hi hi'
  refine h.rest i ?_ ?_
  · omega
  · simp only [znsAligment] at *
    omega

/-- A record is not taken for the end of the log. -/
theorem Rec.WF.length_ne (h : r.WF) (hr : At media a r.bytes) :
    leVal (load media (a + 4) 4) ≠ 0 := by
  rw [(at_bytes hr).1, h.dataLength]
  have := r.sectors_pos
  simp only [znsAligment, metadataHeadLen]
  omega

theorem logAt_unique : ∀ {recs' : List Rec} {s : Nat},
    LogAt media s recs → LogAt media s recs' → (∀ r ∈ recs, r.WF) → (∀ r ∈ recs', r.WF) →
    leVal (load media (znsAligment * (s + recSectors recs) + 4) 4) = 0 →
    leVal (load media (znsAligment * (s + recSectors recs') + 4) 4) = 0 → recs = recs' := by
  induction recs with
  | nil =>
    intro recs' s _ h' _ hwf' hend _
    cases recs' with
    | nil => rfl
    | cons r' recs' => exact absurd hend ((hwf' r' mem_cons_self).length_ne h'.1)
  | cons r recs ih =>
    intro recs' s h h' hwf hwf' hend hend'
    cases recs' with
    | nil => exact absurd hend' ((hwf r mem_cons_self).length_ne h.1)
    | cons r' recs' =>
      obtain rfl : r = r' :=
        (hwf r mem_cons_self).sane.unique (hwf' r' mem_cons_self).sane h.1 h'.1
      rw [recSectors_cons, ← Nat.add_assoc] at hend hend'
      exact congrArg _ (ih h.2 h'.2 (fun x hx => hwf x (mem_cons_of_mem _ hx))
        (fun x hx => hwf' x (mem_cons_of_mem _ hx)) hend hend')

/-- **The zone determines its log.** -/
theorem LogIn.unique {seq' : Nat} {recs' : List Rec} (h : LogIn m seq recs)
    (h' : LogIn m seq' recs') (hwf : ∀ r ∈ recs, r.WF) (hwf' : ∀ r ∈ recs', r.WF) : recs = recs' :=
  logAt_unique h.holds.log h'.holds.log hwf hwf' h.holds.end_zero h'.holds.end_zero

@[simp] theorem Table.clear_empty : Table.empty.clear = Table.empty := by
  rw [Table.clear, show Table.empty.files.toList = [] from rfl]
  rfl

variable {e : Env} {seq fuel : Nat} {recs : List Rec}

/-- **Replay of a zone.**  When the newest zone holds a well-formed log, the loop ends and yields the
table of that log. -/
theorem replay_zone (hg : MdGeometry e.md) (hi : i < 2) (hnew : newestZone e.md = some i)
    (hz : ZoneHolds e.md.media (e.md.zone i) seq recs) (hwf : ∀ r ∈ recs, r.WF)
    (hfuel : recs.length < fuel) : ∃ c, replay fuel e.restart = .ok ({ e.restart with
      tbl := Table.replay recs
      md := zrocksSwitchZone { e.restart.md with cmds := c } (e.md.zone i).sect
      sequence := (loadedSeq e.md 0 + 1) % 2 ^ 64 }, .ok) := by
  obtain ⟨c, hr⟩ := replay_some (e := e.restart) hg.ok (fun i hi => hg.sect_lt hi) hnew
  obtain ⟨c', hl⟩ := replayLoop_ok (t := .empty) (m := { e.restart.md with cmds := c }) hg.ok
    (hz.wptr ▸ lt_of_lt_of_le hz.room (hg.inside i hi)) hz.log hwf hz.end_zero hfuel
  refine ⟨c', (hr fuel).trans ?_⟩
  rw [show e.restart.tbl = .empty from rfl, clear_empty, show e.restart.md.zone = e.md.zone from rfl,
    hl]
  rfl

/-- **Replay.**  On a well-formed log whose number has not wrapped around, the loop ends and yields
the table of the log. -/
theorem replay_logged (h : LogIn e.md seq recs) (hseq : seq < 2 ^ 32) (hwf : ∀ r ∈ recs, r.WF)
    (hfuel : recs.length < fuel) :
    ∃ c, replay fuel e.restart = .ok ({ e.restart with
      tbl := Table.replay recs
      md := Metadata.switched { e.md with cmds := c }
      sequence := (seq + 1) % 2 ^ 64 }, .ok) := by
  obtain ⟨hnew, hnum⟩ := h.newest hseq
  obtain ⟨c, hr⟩ := replay_zone h.geo h.geo.curr hnew h.holds hwf hfuel
  have hsw := zrocksSwitchZone_ok
    (m := { e.md with currZoneIndex := getCurrMetadataZone e.md, cmds := c }) (h.geo.ok _)
    h.geo.ne h.geo.curr (z := e.md.curr) rfl rfl
  refine ⟨c, hr.trans ?_⟩
  rw [hnum, show zrocksSwitchZone { e.restart.md with cmds := c } (e.md.zone _).sect = _ from hsw]
  rfl

/-- **Loading.**  The replayed table, and its snapshot as the new log. -/
theorem load_logged (h : LogIn e.md seq recs) (hseq : seq < 2 ^ 32) (hwf : ∀ r ∈ recs, r.WF)
    (hs : SnapOk (Table.replay recs)) (hfuel : recs.length < fuel) :
    ∃ e', loadMetaData fuel e.restart = .ok (e', .ok) ∧
      e'.tbl = (Table.replay recs).recorded ∧
      Logged e' (seq + 1) [.base (Table.replay recs).snapshot] := by
  obtain ⟨c, er⟩ := replay_logged h hseq hwf hfuel
  obtain ⟨e', ef, -, htbl, -, hl⟩ := Logged.snapshot
    (e := { e.restart with
      tbl := Table.replay recs, md := { e.md with cmds := c }, sequence := (seq + 1) % 2 ^ 64 })
    ⟨h.setCmds c, rfl⟩ hs
  refine ⟨e', ?_, htbl, hl⟩
  rw [loadMetaData]
  simp only [er, bind, Except.bind]
  rw [if_neg (by simp)]
  simp only [ef]
  rfl

end

/-! ### The first load -/

/-- The size of the metadata zones and of the device, in sectors; the largest snapshot leaves a
sector free. -/
structure MdSize where
  zoneSize : Nat
  capacity : Nat
  nsect : Nat
  le : capacity ≤ zoneSize
  fits : fileMetadataBufSize / znsAligment < capacity
  inside : metadataZoneNum * zoneSize ≤ nsect

/-- Zones that just hold the largest snapshot. -/
def smallMd : MdSize := ⟨20482, 20482, 40964, le_refl _, by decide, by decide⟩

/-- Two empty zones. -/
def Metadata.fresh (g : MdSize) : Metadata where
  zone i := ⟨i * g.zoneSize, g.capacity, i * g.zoneSize⟩
  currZoneIndex := 0
  media := fun _ => 0
  nsect := g.nsect
  ok := fun _ => true
  cmds := 0

/-- A new environment on empty zones. -/
def Env.fresh (g : MdSize) : Env where
  tbl := .empty
  sequence := 0
  nidFileMap := fun _ => []
  md := .fresh g

theorem Metadata.fresh_geometry (g : MdSize) : MdGeometry (Metadata.fresh g) where
  ok := fun _ => rfl
  curr := Nat.zero_lt_two
  disj := by
    show 0 * g.zoneSize + g.capacity ≤ 1 * g.zoneSize
    rw [Nat.zero_mul, Nat.zero_add, Nat.one_mul]
    exact g.le
  cap := fun _ _ => g.fits
  inside := fun i hi => by
    calc i * g.zoneSize + g.capacity ≤ i * g.zoneSize + g.zoneSize := Nat.add_le_add_left g.le _
      _ = (i + 1) * g.zoneSize := (Nat.succ_mul i g.zoneSize).symm
      _ ≤ metadataZoneNum * g.zoneSize := Nat.mul_le_mul_right _ hi
      _ ≤ g.nsect := g.inside

theorem Table.snapshot_empty : Table.empty.snapshot = [] := rfl

theorem SnapOk.empty : SnapOk Table.empty where
  live := fun n p h => by
    rw [find_empty] at h
    cases h
  fits := by
    rw [snapshot_empty]
    decide

/-- **The first load** writes an empty snapshot. -/
theorem load_fresh (g : MdSize) (fuel : Nat) :
    ∃ e, loadMetaData fuel (Env.fresh g) = .ok (e, .ok) ∧ e.tbl = .empty ∧
      Logged e 0 [.base []] ∧ (∀ i, (e.md.zone i).capacity = g.capacity) ∧
      ∀ k, e.nidFileMap k = [] := by
  have hg := Metadata.fresh_geometry g
  obtain ⟨c, hnone⟩ := replay_none (e := Env.fresh g) hg.ok (fun i hi => hg.sect_lt hi) rfl
  obtain ⟨e0, he0⟩ : ∃ e0 : Env, e0 = { Env.fresh g with
    md := { Metadata.fresh g with cmds := c } } := ⟨_, rfl⟩
  have hrep : replay fuel (Env.fresh g) = .ok (e0, .ok) := he0 ▸ hnone fuel
  have hg' : MdGeometry e0.md := he0 ▸ ⟨hg.ok, hg.curr, hg.disj, hg.cap, hg.inside⟩
  have htbl : e0.tbl = .empty := by rw [he0]; rfl
  have hzone : e0.md.zone = (Metadata.fresh g).zone := by rw [he0]
  have hcurr : e0.md.currZoneIndex = 0 := by rw [he0]; rfl
  have hmedia : e0.md.media = fun _ => 0 := by rw [he0]; rfl
  have hcap : 1 + (Rec.base []).sectors < g.capacity := lt_trans (by decide) g.fits
  obtain ⟨c, ef⟩ := flushMetaData_blank hg'.ok.patient (htbl ▸ SnapOk.empty)
    (by rw [Metadata.curr, hzone, hcurr]; rfl)
    (by rw [htbl, snapshot_empty, Metadata.curr, hzone]; exact hcap)
  rw [htbl, snapshot_empty] at ef
  have hload : loadMetaData fuel (Env.fresh g) = (flushMetaData e0).map fun r => (r.1, .ok) := by
    rw [loadMetaData, hrep, ef]
    simp only [bind, Except.bind]
    rw [if_neg (by simp), ef]
    rfl
  rw [hload, ef]
  refine ⟨_, rfl, rfl, ⟨⟨hg'.setCurr rfl rfl, ?_, Or.inl ?_⟩, ?_⟩, fun i => ?_,
    fun k => by rw [he0]; rfl⟩
  · rw [Metadata.curr_setCurr, show e0.sequence = 0 by rw [he0]; rfl]
    refine ZoneHolds.base (fun a _ => by rw [hmedia]) _ ?_
    rw [Metadata.curr, hzone]
    exact hcap
  · -- the head of the other zone lies behind what was written
    rw [Metadata.other_setCurr hg'.curr]
    refine (memcpy_of_not_mem (Or.inr ?_)).trans_ne (by
      rw [hmedia]
      exact show (0 : UInt8) ≠ metadataMagic by decide)
    rw [length_append, zoneHeadBytes_length, Rec.bytes_length, Metadata.curr, Metadata.other,
      hzone, hcurr, show (Rec.base []).sectors = 1 by decide]
    show znsAligment * (0 * g.zoneSize) + (znsAligment + znsAligment * 1)
      ≤ znsAligment * (1 * g.zoneSize)
    have := g.le
    rw [show (Rec.base []).sectors = 1 by decide] at hcap
    simp only [znsAligment]
    omega
  · rw [he0]
    rfl
  · by_cases hi : i = e0.md.currZoneIndex
    · subst hi
      rw [show (e0.md.setCurr _ _ c).zone e0.md.currZoneIndex = _ from Function.update_self _ _ _,
        Metadata.curr, hzone]
      rfl
    · rw [show (e0.md.setCurr _ _ c).zone i = _ from Function.update_of_ne hi _ _, hzone]
      rfl

end Xztl
