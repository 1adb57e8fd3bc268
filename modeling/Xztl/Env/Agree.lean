import Xztl.Env.Replay
import Xztl.Env.Files

/-!
# Env — the log follows the table

`Table.Agrees t A`: the table `t` is tidy and the contents `A` have, for each of its files, the pieces
in front of `startIndex`, and nothing for other names.  The operations of the environment change the
table and write a record that means the same change; a snapshot means the table itself.

`Follows e seq recs` says that the log of an environment is well formed, that its number has not wrapped
around and that it agrees with the table.  **`Follows.record`** is the common step: a table that agrees
with what the record means is followed, whether the record is appended or a snapshot takes its place.
-/

namespace Xztl

open Function Bytes List Table

/-! ### Tables that differ in marks -/

namespace Table

variable {t t' : Table}

theorem Same.symm (h : t.Same t') : t'.Same t where
  files := h.files.symm
  freed := h.freed.symm
  next := h.next.symm
  objs := fun p => by
    obtain ⟨i, hi⟩ := h.objs p
    exact ⟨(t.objs p).startIndex, by rw [hi]⟩

theorem Same.recorded (t : Table) : t.Same t.recorded := by
  obtain ⟨h1, h2, h3, h4⟩ := markAll_spec t.files.toList t
  refine ⟨h1, h2, h3, fun p => ?_⟩
  by_cases hp : some p ∈ t.files.toList.map Prod.snd
  · exact ⟨_, (h4 p).1 hp⟩
  · exact ⟨_, (h4 p).2 hp⟩

theorem Same.name (h : t.Same t') (p : Ptr) : (t'.objs p).name = (t.objs p).name := by
  obtain ⟨i, hi⟩ := h.objs p
  rw [hi]

/-- The snapshot does not depend on the marks. -/
theorem Same.snapshot (h : t.Same t') : t'.snapshot = t.snapshot := by
  have hentry : ∀ p, (t'.objs p).entry 0 = (t.objs p).entry 0 := fun p => by
    obtain ⟨i, hi⟩ := h.objs p
    rw [hi]
    rfl
  rw [Table.snapshot, Table.snapshot, h.files]
  simp only [hentry]

theorem Tidy.same (h : t.Tidy) (hs : t.Same t') : t'.Tidy where
  name := fun {n p} hn => by
    rw [hs.find] at hn
    rw [hs.name, h.name hn]
  lt := fun {n p} hn => by
    rw [hs.find] at hn
    rw [hs.next]
    exact h.lt hn
  live := fun {n p} hn => by
    rw [hs.find] at hn
    rw [hs.freed]
    exact h.live hn

/-- The bounds in which every record fits its buffer: names that fit their field, at most 65535 files
of at most 491 pieces, and a snapshot smaller than the buffer. -/
structure Bounded (t : Table) : Prop where
  name : ∀ {n p}, t.find n = some p → NameOk (t.objs p).name
  pieces : ∀ {n p}, t.find n = some p → (t.objs p).map.length ≤ maxPieces
  files : t.snapshot.length < 2 ^ 16
  fits : metaZoneHeadLen + metadataHeadLen + 4 + (t.snapshot.flatMap FileRec.bytes).length
    < fileMetadataBufSize

theorem Bounded.same (h : t.Bounded) (hs : t.Same t') : t'.Bounded where
  name := fun {n p} hn => by
    rw [hs.find] at hn
    rw [hs.name]
    exact h.name hn
  pieces := fun {n p} hn => by
    rw [hs.find] at hn
    rw [hs.map]
    exact h.pieces hn
  files := by rw [hs.snapshot]; exact h.files
  fits := by rw [hs.snapshot]; exact h.fits

theorem Bounded.snapOk (h : t.Bounded) (ht : t.Tidy) : SnapOk t where
  live := fun _ _ hn => ⟨ht.live hn, le_of_lt (h.name hn).1⟩
  fits := h.fits

end Table

theorem SnapOk.same {t t' : Table} (h : SnapOk t) (hs : t.Same t') : SnapOk t' where
  live := fun n p hp => by
    rw [hs.find] at hp
    rw [hs.freed, hs.name]
    exact h.live n p hp
  fits := by
    rw [hs.snapshot]
    exact h.fits

theorem Table.Bounded.single {f : ZnsFile} (hname : NameOk f.name) (hmap : f.map.length ≤ maxPieces) :
    (Table.single f).Bounded where
  name := fun {n p} hn => by
    rw [find_single] at hn
    split at hn <;> cases hn
    rw [objs_single]
    exact hname
  pieces := fun {n p} hn => by
    rw [find_single] at hn
    split at hn <;> cases hn
    rw [objs_single]
    exact hmap
  files := by rw [snapshot_single]; exact show 1 < 2 ^ 16 by decide
  fits := (SnapOk.single (le_of_lt hname.1) hmap).fits

/-! ### Records that fit -/

/-- A record that survives the encoding and fits a sector. -/
structure Rec.Small (r : Rec) : Prop where
  sane : r.Sane
  fits : metadataHeadLen + r.body.length ≤ znsAligment

theorem Rec.Small.sectors {r : Rec} (h : r.Small) : r.sectors = 1 := Rec.sectors_one h.fits

theorem Rec.Small.wf {r : Rec} (h : r.Small) : r.WF := ⟨h.sane, by rw [h.sectors]; decide⟩

section Small

variable {f : ZnsFile} (hname : NameOk f.name) (hmap : f.map.length ≤ maxPieces)
include hname hmap

theorem ZnsFile.entry_wf (i : Nat) : (f.entry i).WF where
  name := hname
  level := by
    show -128 ≤ toInt8 f.level ∧ toInt8 f.level < 128
    rw [toInt8]
    omega
  size := Nat.mod_lt _ (by decide)
  pieces := by
    rw [ZnsFile.entry, length_drop]
    exact lt_of_le_of_lt (Nat.sub_le _ _) (lt_of_le_of_lt hmap (by decide))

theorem small_entry (i : Nat) :
    metadataHeadLen + (f.entry i).bytes.length ≤ znsAligment := by
  rw [FileRec.bytes_length (le_of_lt hname.1), ZnsFile.entry, length_drop]
  simp only [maxPieces, metadataHeadLen, zrocksFileMetaLen, zrocksMapLen, znsAligment] at *
  omega

theorem small_update (i : Nat) : (Rec.update (f.entry i)).Small :=
  ⟨f.entry_wf hname hmap i, small_entry hname hmap i⟩

theorem small_gcChange : (Rec.gcChange (f.entry 0)).Small :=
  ⟨f.entry_wf hname hmap 0, small_entry hname hmap 0⟩

end Small

theorem small_delete {n : Name} (hn : NameOk n) : (Rec.delete n).Small := by
  refine ⟨hn, ?_⟩
  rw [Rec.body, padTo_length (le_of_lt hn.1)]
  decide

theorem small_replace {src dst : Name} (hs : NameOk src) (hd : NameOk dst) :
    (Rec.replace src dst).Small := by
  refine ⟨⟨hs, hd⟩, ?_⟩
  rw [Rec.body, length_append, padTo_length (le_of_lt hs.1), padTo_length (le_of_lt hd.1)]
  decide

theorem Table.Bounded.snapshot_wf {t : Table} (h : t.Bounded) : (Rec.base t.snapshot).WF := by
  refine ⟨⟨h.files, fun f hf => ?_⟩, ?_⟩
  · obtain ⟨n, p, hn, rfl⟩ := mem_snapshot.mp hf
    exact (t.objs p).entry_wf (h.name hn) (h.pieces hn) 0
  · exact le_trans (Nat.le_add_left _ _) (snapshot_sectors h.fits).2

/-! ### The log as it is loaded -/

/-- The metadata zone has no room for a sector more. -/
def Env.Full (e : Env) : Prop :=
  e.md.curr.sect + e.md.curr.capacity ≤ e.md.curr.wptr + 1

theorem Rec.Small.room_iff {r : Rec} (h : r.Small) {e : Env} : e.Room r ↔ ¬ e.Full := by
  rw [Env.Room, Env.Full, h.sectors, Nat.not_le]

/-- A zone with a short log is not full. -/
theorem Logged.not_full {e : Env} {seq : Nat} {recs : List Rec} (h : Logged e seq recs)
    (hs : recSectors recs + 2 ≤ fileMetadataBufSize / znsAligment) : ¬ e.Full := by
  have hw := h.log.holds.wptr
  have hc := h.log.geo.cap _ h.log.geo.curr
  rw [Env.Full, hw, Nat.not_le]
  show _ < e.md.curr.sect + (e.md.zone e.md.currZoneIndex).capacity
  omega

/-- A log that can be loaded. -/
structure LogOk (e : Env) (seq : Nat) (recs : List Rec) : Prop extends Logged e seq recs where
  lt : seq < 2 ^ 32
  wf : ∀ r ∈ recs, r.WF

section

variable {e e' : Env} {seq seq' fuel : Nat} {recs recs' : List Rec} {r : Rec} {n : Name} {p : Ptr}

theorem LogOk.setTbl (h : LogOk e seq recs) (t : Table) : LogOk (e.setTbl t) seq recs :=
  ⟨h.toLogged.setTbl t, h.lt, h.wf⟩

section

variable {h : Handle} {maps : List ZrocksMap} {f : ZnsFile} (hp : Pushed h maps e e' f)
include hp

theorem Pushed.sequence_lt (hseq : e.Full → e.sequence < 2 ^ 32) :
    e'.Full → e'.sequence < 2 ^ 32 := by
  rw [Env.Full, hp.md, hp.sequence]
  exact hseq

theorem Pushed.logOk (hl : LogOk e seq recs) : LogOk e' seq recs :=
  ⟨⟨hp.md ▸ hl.log, hp.sequence ▸ hl.sequence⟩, hl.lt, hl.wf⟩

theorem Pushed.tidy (ht : e.tbl.Tidy) : e'.tbl.Tidy := by
  obtain ⟨c, hf⟩ := hp.file
  rw [hp.tbl]
  exact ht.set (by rw [hf])

end

theorem LogOk.replay (h : LogOk e seq recs) (hfuel : recs.length < fuel) :
    ∃ e', Xztl.replay fuel e.restart = .ok (e', .ok) ∧ e'.tbl = Table.replay recs := by
  obtain ⟨c, hr⟩ := replay_logged h.log h.lt h.wf hfuel
  exact ⟨_, hr, rfl⟩

/-- A record keeps the log good, as long as the numbers do not wrap around. -/
theorem LogOk.flushed (h : LogOk e seq recs) (hr : r.Small) (hb : e.tbl.Bounded)
    (hseq : e.Full → e.sequence < 2 ^ 32) (hf : Flushed e seq recs r e' seq' recs')
    (hl : Logged e' seq' recs') : LogOk e' seq' recs' := by
  have hlt := h.lt
  cases hf with
  | append room tbl curr =>
    refine ⟨hl, h.lt, fun r' hr' => ?_⟩
    rcases mem_append.mp hr' with hr' | hr'
    · exact h.wf r' hr'
    · rw [mem_singleton.mp hr']
      exact hr.wf
  | snapshot full tbl kept =>
    have hnum := hseq (not_not.mp fun hc => full (hr.room_iff.mpr hc))
    rw [h.sequence] at hnum
    refine ⟨hl, by omega, fun r' hr' => ?_⟩
    rw [mem_singleton.mp hr']
    exact hb.snapshot_wf

end

section

variable {e : Env} {seq : Nat} {recs : List Rec} {n : Name} {p : Ptr}

/-- **`FlushUpdateMetaData`** returns, with a record of the pieces behind the mark if there are any. -/
theorem LogOk.flushUpdate (h : LogOk e seq recs) (ht : e.tbl.Tidy) (hb : e.tbl.Bounded)
    (hp : e.tbl.find n = some p) (hseq : e.Full → e.sequence < 2 ^ 32) :
    ∃ e' seq' recs', flushUpdateMetaData e p = .ok e' ∧ LogOk e' seq' recs' ∧
      ((e.tbl.objs p).startIndex = (e.tbl.objs p).map.length ∧ e' = e ∧ seq' = seq ∧ recs' = recs ∨
        (e.tbl.objs p).startIndex ≠ (e.tbl.objs p).map.length ∧
        Flushed (e.setTbl (e.tbl.set p (e.tbl.objs p).marked)) seq recs
          (.update ((e.tbl.objs p).entry (e.tbl.objs p).startIndex)) e' seq' recs') := by
  by_cases hi : (e.tbl.objs p).startIndex = (e.tbl.objs p).map.length
  · exact ⟨e, seq, recs, by rw [flushUpdateMetaData, if_pos hi], h, Or.inl ⟨hi, rfl, rfl, rfl⟩⟩
  have hname := hb.name hp
  have hmap := hb.pieces hp
  have hb' := hb.same (.marked e.tbl p)
  have hdrop : ((e.tbl.objs p).map.drop (e.tbl.objs p).startIndex).length ≤ maxPieces := by
    rw [length_drop]
    exact le_trans (Nat.sub_le _ _) hmap
  obtain ⟨e', seq', recs', he, -, hf, hl⟩ := h.toLogged.flushUpdate hi (le_of_lt hname.1) hdrop
    (hb'.snapOk (ht.set rfl))
  exact ⟨e', seq', recs', he,
    (h.setTbl _).flushed (small_update hname hmap _) hb' hseq hf hl, Or.inr ⟨hi, hf⟩⟩

end

/-! ### Contents that follow the table -/

/-- What the contents say of the name `n`: the pieces `old`, and then those of the table's file that
are in front of its mark. -/
structure Table.Shows (t : Table) (A : Contents) (old : List ZrocksMap) (n : Name) : Prop where
  le : ∀ {p}, t.find n = some p → (t.objs p).startIndex ≤ (t.objs p).map.length
  pieces : ∀ {p}, t.find n = some p →
    A.pieces n = old ++ (t.objs p).map.take (t.objs p).startIndex
  absent : t.find n = none → A n = none

/-- The contents follow the table. -/
structure Table.Agrees (t : Table) (A : Contents) : Prop where
  tidy : t.Tidy
  shows : ∀ n, t.Shows A [] n

section

variable {t t' : Table} {A : Contents} {old : List ZrocksMap} {n m src dst : Name} {p : Ptr}
  {f : ZnsFile}

/-- A change of an object, with the pieces in front of the mark as they were. -/
theorem Table.Shows.set (h : t.Shows A old n)
    (hf : t.find n = some p → f.startIndex ≤ f.map.length ∧
      f.map.take f.startIndex = (t.objs p).map.take (t.objs p).startIndex) :
    (t.set p f).Shows A old n := by
  refine ⟨fun {q} hq => ?_, fun {q} hq => ?_, h.absent⟩ <;> rw [find_set] at hq <;>
    rw [objs_set] <;> by_cases e : q = p
  · subst e
    rw [update_self]
    exact (hf hq).1
  · rw [update_of_ne e]
    exact h.le hq
  · subst e
    rw [update_self, (hf hq).2]
    exact h.pieces hq
  · rw [update_of_ne e]
    exact h.pieces hq

/-- What an entry for another file does not touch. -/
theorem Table.Shows.other (h : t.Shows A old n) (ht : t.Tidy) (hm : t.find m = some p) (hne : n ≠ m)
    {A' : Contents} (hA : A' n = A n) : (t.set p f).Shows A' old n := by
  have hq : t.find n ≠ some p := fun hn => hne (ht.inj hn hm)
  obtain ⟨h1, h2, h3⟩ := h.set (f := f) (fun hn => absurd hn hq)
  refine ⟨h1, fun hp => ?_, fun hp => hA.trans (h3 hp)⟩
  rw [Contents.pieces, hA]
  exact h2 hp

/-- A file whose pieces are all recorded. -/
theorem Table.Shows.marked (hn : t.find n = some p) (hp : A.pieces n = old ++ f.map) :
    (t.set p f.marked).Shows A old n := by
  refine ⟨fun {q} hq => ?_, fun {q} hq => ?_, fun hnone => ?_⟩
  · cases hn.symm.trans hq
    rw [objs_set, update_self]
    exact le_refl _
  · cases hn.symm.trans hq
    rw [objs_set, update_self, hp]
    exact congrArg (old ++ ·) (take_length).symm
  · cases hn.symm.trans hnone

/-- **An update** adds the pieces behind the mark. -/
theorem Table.Shows.update (h : t.Shows A old n) (ht : t.Tidy) (hm : t.find m = some p) :
    (t.set p (t.objs p).marked).Shows
      (A.apply (.update ((t.objs p).entry (t.objs p).startIndex))) old n := by
  have hname : ((t.objs p).entry (t.objs p).startIndex).name = m := ht.name hm
  by_cases e : n = m
  · subst e
    refine .marked hm ?_
    rw [Contents.apply, Contents.pieces, ← hname, Contents.recover_self, hname]
    show A.pieces n ++ (t.objs p).map.drop (t.objs p).startIndex = _
    rw [h.pieces hm, append_assoc, take_append_drop]
  · exact h.other ht hm e (A.recover_of_ne _ _ (by rwa [hname]))

/-- **A GC change** records the whole of a new map. -/
theorem Table.Agrees.gcChange (h : t.Agrees A) (hm : t.find m = some p)
    (hf : f.name = (t.objs p).name) :
    (t.set p f.marked).Agrees (A.apply (.gcChange (f.entry 0))) := by
  have hname : (f.entry 0).name = m := hf.trans (h.tidy.name hm)
  refine ⟨h.tidy.set hf, fun n => ?_⟩
  by_cases e : n = m
  · subst e
    refine .marked hm ?_
    rw [Contents.apply, Contents.pieces, ← hname, Contents.recover_self]
    rfl
  · exact (h.shows n).other h.tidy hm e (A.recover_of_ne _ _ (by rwa [hname]))

theorem Table.Agrees.update (h : t.Agrees A) (hm : t.find m = some p) :
    (t.set p (t.objs p).marked).Agrees
      (A.apply (.update ((t.objs p).entry (t.objs p).startIndex))) :=
  ⟨h.tidy.set rfl, fun n => (h.shows n).update h.tidy hm⟩

theorem Table.Agrees.set (h : t.Agrees A) (hname : f.name = (t.objs p).name)
    (hf : f.startIndex ≤ f.map.length ∧
      f.map.take f.startIndex = (t.objs p).map.take (t.objs p).startIndex) :
    (t.set p f).Agrees A :=
  ⟨h.tidy.set hname, fun n => (h.shows n).set fun _ => hf⟩

theorem Table.Tidy.delete (h : t.Tidy) (hm : t.find m = some p) : ((t.delete p).erase m).Tidy := by
  have ht := h.erase m
  refine ⟨fun hn => ht.name hn, fun hn => ht.lt hn, fun {n q} hn => ?_⟩
  -- the freed object belonged to the name that has gone
  have hn' : (t.erase m).find n = some q := hn
  rw [find_erase] at hn'
  by_cases e : m = n
  · rw [if_pos e] at hn'
    cases hn'
  · rw [if_neg e] at hn'
    have hq : q ≠ p := fun hq => e (h.inj hm (hq ▸ hn'))
    exact (update_of_ne hq _ _).trans (h.live hn')

theorem newWritableFile_tidy {e e' : Env} {hd : Handle} (h : e.tbl.Tidy)
    (hs : newWritableFile e n = .ok (e', hd)) : e'.tbl.Tidy := by
  cases hfind : e.tbl.find n with
  | none =>
    cases (newWritableFile_fresh hfind).symm.trans hs
    exact (h.erase n).alloc rfl
  | some p =>
    cases (newWritableFile_exists hfind (h.live hfind)).symm.trans hs
    exact (h.delete hfind).alloc rfl

theorem Table.Agrees.delete (h : t.Agrees A) (hm : t.find m = some p) :
    ((t.delete p).erase m).Agrees (A.apply (.delete m)) := by
  have hfind : ∀ n, ((t.delete p).erase m).find n = if m = n then none else t.find n := fun n =>
    find_erase _ _ _
  have hother : ∀ {n q}, ((t.delete p).erase m).find n = some q → m ≠ n ∧ t.find n = some q := by
    intro n q hn
    rw [hfind] at hn
    by_cases e : m = n
    · rw [if_pos e] at hn
      cases hn
    · rw [if_neg e] at hn
      exact ⟨e, hn⟩
  have hA : ∀ {n}, m ≠ n → (A.apply (.delete m)) n = A n := fun e =>
    update_of_ne (Ne.symm e) _ _
  refine ⟨h.tidy.delete hm,
    fun n => ⟨fun hn => (h.shows n).le (hother hn).2, fun {q} hn => ?_, fun hn => ?_⟩⟩
  · obtain ⟨e, hn⟩ := hother hn
    rw [Contents.pieces, hA e]
    exact (h.shows n).pieces hn
  · by_cases e : m = n
    · subst e
      exact update_self _ _ _
    · rw [hfind, if_neg e] at hn
      exact (hA e).trans ((h.shows n).absent hn)

theorem Table.Agrees.create (h : t.Agrees A) (hm : t.find m = none) (hname : f.name = m)
    (hi : f.startIndex = 0) :
    ((t.alloc f).1.put m (some t.next)).Agrees A := by
  have hfind : ∀ n, ((t.alloc f).1.put m (some t.next)).find n
      = if m = n then some t.next else t.find n := fun n => find_put _ _ _ _
  have hnew : ((t.alloc f).1.put m (some t.next)).objs t.next = f := update_self _ _ _
  have hold : ∀ {n q}, t.find n = some q →
      ((t.alloc f).1.put m (some t.next)).objs q = t.objs q := fun hn =>
    update_of_ne (Nat.ne_of_lt (h.tidy.lt hn)) _ _
  refine ⟨h.tidy.alloc hname, fun n => ?_⟩
  by_cases e : m = n
  · subst e
    refine ⟨fun {q} hn => ?_, fun {q} hn => ?_, fun hn => ?_⟩ <;> rw [hfind, if_pos rfl] at hn
    · cases hn
      rw [hnew, hi]
      exact Nat.zero_le _
    · cases hn
      rw [hnew, hi, Contents.pieces, (h.shows m).absent hm]
      rfl
    · cases hn
  · refine ⟨fun {q} hn => ?_, fun {q} hn => ?_, fun hn => ?_⟩ <;> rw [hfind, if_neg e] at hn
    · rw [hold hn]
      exact (h.shows n).le hn
    · rw [hold hn]
      exact (h.shows n).pieces hn
    · exact (h.shows n).absent hn

/-- The table after a rename. -/
def Table.renamed (t : Table) (src dst : Name) (p : Ptr) : Table :=
  ((t.set p { t.objs p with name := dst }).put dst (some p)).erase src

/-- **What a rename does.** -/
theorem renameFile_cases {e e' : Env} (hs : renameFile e src dst = .ok e') :
    e.tbl.find src = none ∧ e' = e ∨ ∃ p, e.tbl.find src = some p ∧
      (e.tbl.renamed src dst p).Same e'.tbl ∧ e'.nidFileMap = e.nidFileMap := by
  rw [renameFile] at hs
  cases hfind : e.tbl.find src with
  | none =>
    rw [hfind] at hs
    cases hs
    exact Or.inl ⟨rfl, rfl⟩
  | some p =>
    rw [hfind] at hs
    obtain ⟨f, hf, hs⟩ := Except.bind_eq_ok.mp hs
    obtain rfl := get_eq_ok hf
    exact Or.inr ⟨p, rfl, flushReplaceMetaData_same hs⟩

theorem Table.find_renamed (n : Name) : (t.renamed src dst p).find n
    = if src = n then none else if dst = n then some p else t.find n := by
  rw [Table.renamed, find_erase, find_put, find_set]

theorem Table.objs_renamed : (t.renamed src dst p).objs p = { t.objs p with name := dst } :=
  update_self _ _ _

/-- Another name than the target is as it was. -/
theorem Table.Tidy.renamed_other (h : t.Tidy) (hs : t.find src = some p) {q : Ptr}
    (hn : n ≠ dst) (hq : (t.renamed src dst p).find n = some q) :
    src ≠ n ∧ t.find n = some q ∧ (t.renamed src dst p).objs q = t.objs q := by
  rw [find_renamed, if_neg (Ne.symm hn)] at hq
  by_cases e : src = n
  · rw [if_pos e] at hq
    cases hq
  · rw [if_neg e] at hq
    have hqp : q ≠ p := fun e' => e (h.inj hs (e' ▸ hq))
    exact ⟨e, hq, update_of_ne hqp _ _⟩

theorem Table.Tidy.renamed (h : t.Tidy) (hs : t.find src = some p) (hne : src ≠ dst) :
    (t.renamed src dst p).Tidy := by
  have hdst : (t.renamed src dst p).find dst = some p := by
    rw [find_renamed, if_neg hne, if_pos rfl]
  refine ⟨fun {n q} hn => ?_, fun {n q} hn => ?_, fun {n q} hn => ?_⟩ <;> by_cases e : n = dst
  · subst e
    cases hdst.symm.trans hn
    rw [objs_renamed]
  · obtain ⟨-, hq, ho⟩ := h.renamed_other hs e hn
    rw [ho]
    exact h.name hq
  · subst e
    cases hdst.symm.trans hn
    exact h.lt hs
  · exact h.lt (h.renamed_other hs e hn).2.1
  · subst e
    cases hdst.symm.trans hn
    exact h.live hs
  · exact h.live (h.renamed_other hs e hn).2.1

/-- **A rename.**  What the target was before is out of the table and forgotten by the log. -/
theorem Table.Agrees.rename (h : t.Agrees A) (hs : t.find src = some p) (hne : src ≠ dst) :
    (t.renamed src dst p).Agrees (A.apply (.replace src dst)) := by
  have hdst : (t.renamed src dst p).find dst = some p := by
    rw [find_renamed, if_neg hne, if_pos rfl]
  have hA : ∀ {n}, n ≠ dst → src ≠ n → (A.apply (.replace src dst)) n = A n := fun hn e =>
    (update_of_ne hn _ _).trans (update_of_ne (Ne.symm e) _ _)
  have hAdst : (A.apply (.replace src dst)) dst = A src := update_self _ _ _
  refine ⟨h.tidy.renamed hs hne, fun n => ?_⟩
  by_cases e : n = dst
  · subst e
    refine ⟨fun {q} hn => ?_, fun {q} hn => ?_, fun hn => ?_⟩ <;> cases hdst.symm.trans hn <;>
      rw [objs_renamed]
    · exact (h.shows src).le hs
    · rw [Contents.pieces, hAdst]
      exact (h.shows src).pieces hs
  · refine ⟨fun {q} hn => ?_, fun {q} hn => ?_, fun hn => ?_⟩
    · obtain ⟨-, hq, ho⟩ := h.tidy.renamed_other hs e hn
      rw [ho]
      exact (h.shows n).le hq
    · obtain ⟨e', hq, ho⟩ := h.tidy.renamed_other hs e hn
      rw [ho, Contents.pieces, hA e e']
      exact (h.shows n).pieces hq
    · rw [find_renamed, if_neg (Ne.symm e)] at hn
      by_cases e' : src = n
      · subst e'
        exact (update_of_ne e _ _).trans (update_self _ _ _)
      · rw [if_neg e'] at hn
        exact (hA e e').trans ((h.shows n).absent hn)

/-- **A snapshot** agrees with the table it is of. -/
theorem Table.Tidy.agrees_snapshot (h : t.Tidy) :
    t.recorded.Agrees (Contents.replay [.base t.snapshot]) := by
  refine ⟨h.recorded, fun n => ⟨fun {p} hn => ?_, fun {p} hn => ?_, fun hn => ?_⟩⟩ <;>
    rw [find_recorded] at hn
  · rw [objs_recorded hn]
    exact le_refl _
  · rw [objs_recorded hn, Contents.pieces, h.replay_snapshot, hn]
    exact (take_length).symm
  · rw [h.replay_snapshot, hn]
    rfl

end

/-! ### The environment and its log -/

/-- The log is good and agrees with the table. -/
structure Follows (e : Env) (seq : Nat) (recs : List Rec) : Prop where
  log : LogOk e seq recs
  agrees : e.tbl.Agrees (Contents.replay recs)
  bounded : e.tbl.Bounded

section

variable {e e' : Env} {seq seq' : Nat} {recs recs' : List Rec} {r : Rec} {n m src dst : Name} {p : Ptr}

theorem Flushed.same (h : Flushed e seq recs r e' seq' recs') : e.tbl.Same e'.tbl := by
  cases h with
  | append room tbl curr => exact tbl ▸ .refl _
  | snapshot full tbl kept => exact tbl ▸ .recorded _

/-- **The step of the log.**  The table agrees with what the record means; so the new log agrees with
the table. -/
theorem Follows.record (hlog : LogOk e seq recs)
    (ha : e.tbl.Agrees ((Contents.replay recs).apply r)) (hb : e.tbl.Bounded) (hr : r.Small)
    (hseq : e.Full → e.sequence < 2 ^ 32) (hf : Flushed e seq recs r e' seq' recs')
    (hl : Logged e' seq' recs') : Follows e' seq' recs' := by
  refine ⟨hlog.flushed hr hb hseq hf hl, ?_, hb.same hf.same⟩
  cases hf with
  | append room tbl curr =>
    rw [tbl, Contents.replay_append]
    exact ha
  | snapshot full tbl kept =>
    rw [tbl]
    exact ha.tidy.agrees_snapshot

section

variable (h : Follows e seq recs)
include h

/-- A change in memory only. -/
theorem Follows.setTbl {t : Table} (ha : t.Agrees (Contents.replay recs)) (hb : t.Bounded) :
    Follows (e.setTbl t) seq recs := ⟨h.log.setTbl t, ha, hb⟩

/-- A change of an object in what the log does not follow. -/
theorem Follows.touch {f : ZnsFile} (hname : f.name = (e.tbl.objs p).name)
    (hmap : f.map = (e.tbl.objs p).map) (hi : f.startIndex = (e.tbl.objs p).startIndex)
    (hp : e.tbl.find n = some p) (hb : (e.setFile p f).tbl.Bounded) :
    Follows (e.setFile p f) seq recs := by
  refine h.setTbl (h.agrees.set hname ⟨?_, by rw [hmap, hi]⟩) hb
  rw [hmap, hi]
  exact (h.agrees.shows n).le hp

section

variable (hp : e.tbl.find n = some p)
include hp

theorem Follows.push {maps : List ZrocksMap} (hb : (pushPieces ⟨n, p⟩ e maps).tbl.Bounded) :
    Follows (pushPieces ⟨n, p⟩ e maps) seq recs := by
  obtain ⟨c, nf, hpush⟩ := pushPieces_eq ⟨n, p⟩ maps e
  rw [hpush] at hb ⊢
  have hle := (h.agrees.shows n).le hp
  refine ⟨⟨⟨h.log.log, h.log.sequence⟩, h.log.lt, h.log.wf⟩, h.agrees.set rfl ⟨?_, ?_⟩, hb⟩
  · rw [length_append]
    exact le_trans hle (Nat.le_add_right _ _)
  · exact take_append_of_le_length hle

theorem Follows.flushUpdate (hseq : e.Full → e.sequence < 2 ^ 32) :
    ∃ e' seq' recs', flushUpdateMetaData e p = .ok e' ∧ Follows e' seq' recs' ∧
      ((e.tbl.objs p).startIndex = (e.tbl.objs p).map.length ∧ e' = e ∧ seq' = seq ∧ recs' = recs ∨
        (e.tbl.objs p).startIndex ≠ (e.tbl.objs p).map.length ∧
        Flushed (e.setTbl (e.tbl.set p (e.tbl.objs p).marked)) seq recs
          (.update ((e.tbl.objs p).entry (e.tbl.objs p).startIndex)) e' seq' recs') := by
  obtain ⟨e', seq', recs', he, hlog, hcases⟩ := h.log.flushUpdate h.agrees.tidy h.bounded hp hseq
  refine ⟨e', seq', recs', he, ?_, hcases⟩
  rcases hcases with ⟨-, rfl, rfl, rfl⟩ | ⟨-, hf⟩
  · exact h
  · exact .record (h.log.setTbl _) (h.agrees.update hp) (h.bounded.same (.marked e.tbl p))
      (small_update (h.bounded.name hp) (h.bounded.pieces hp) _) hseq hf hlog.toLogged

/-- **`FlushGCChangeMetaData`**, after the map has been replaced. -/
theorem Follows.flushGCChange {f : ZnsFile} (hf : f.name = (e.tbl.objs p).name)
    (hb : (e.tbl.set p f).Bounded) (hseq : e.Full → e.sequence < 2 ^ 32) :
    ∃ e' seq' recs', flushGCChangeMetaData (e.setFile p f) p = .ok e' ∧ Follows e' seq' recs' ∧
      Flushed (e.setTbl (e.tbl.set p f.marked)) seq recs (.gcChange (f.entry 0)) e' seq' recs' := by
  have hobj : (e.setFile p f).tbl.objs p = f := update_self _ _ _
  have hset : (e.setFile p f).tbl.set p f.marked = e.tbl.set p f.marked := by
    rw [Env.setFile, Env.setTbl, Table.set, Table.set, update_idem]
    rfl
  have hname : NameOk f.name := hobj ▸ hb.name (p := p) hp
  have hmap : f.map.length ≤ maxPieces := hobj ▸ hb.pieces (p := p) hp
  have ha := h.agrees.gcChange hp hf
  have hb' : (e.tbl.set p f.marked).Bounded := by
    have := hb.same (.marked (e.tbl.set p f) p)
    rwa [show (e.tbl.set p f).objs p = f from hobj, show (e.tbl.set p f).set p f.marked = _ from hset]
      at this
  obtain ⟨e', seq', recs', he, -, hfl, hl⟩ := Logged.flushGCChange (e := e.setFile p f) (p := p)
    (h.log.toLogged.setTbl (e.tbl.set p f)) (by rw [hobj]; exact le_of_lt hname.1)
    (by rw [hobj]; exact hmap) (by rw [hobj, hset]; exact hb'.snapOk ha.tidy)
  rw [hobj, hset] at hfl
  exact ⟨e', seq', recs', he, .record (h.log.setTbl _) ha hb' (small_gcChange hname hmap) hseq hfl hl,
    hfl⟩

theorem Follows.removeFile (hb : ((e.tbl.delete p).erase n).Bounded)
    (hseq : e.Full → e.sequence < 2 ^ 32) :
    ∃ e' seq' recs', Xztl.removeFile e p n = .ok e' ∧ Follows e' seq' recs' ∧
      Flushed (e.setTbl ((e.tbl.delete p).erase n)) seq recs (.delete n) e' seq' recs' := by
  have hname : NameOk n := h.agrees.tidy.name hp ▸ h.bounded.name hp
  have ha := h.agrees.delete hp
  obtain ⟨e', seq', recs', he, -, hf, hl⟩ := Logged.flushDel
    (h.log.toLogged.setTbl ((e.tbl.delete p).erase n)) (le_of_lt hname.1) (hb.snapOk ha.tidy)
  exact ⟨e', seq', recs', he, .record (h.log.setTbl _) ha hb (small_delete hname) hseq hf hl, hf⟩

end

theorem Follows.renameFile (hp : e.tbl.find src = some p) (hne : src ≠ dst) (hdst : NameOk dst)
    (hb : (e.tbl.renamed src dst p).Bounded) (hseq : e.Full → e.sequence < 2 ^ 32) :
    ∃ e' seq' recs', Xztl.renameFile e src dst = .ok e' ∧ Follows e' seq' recs' ∧
      Flushed (e.setTbl (e.tbl.renamed src dst p)) seq recs (.replace src dst) e' seq' recs' := by
  have hname : NameOk src := h.agrees.tidy.name hp ▸ h.bounded.name hp
  have ha := h.agrees.rename hp hne
  obtain ⟨e', seq', recs', he, -, hf, hl⟩ := Logged.flushReplace
    (h.log.toLogged.setTbl (e.tbl.renamed src dst p)) (le_of_lt hname.1) (le_of_lt hdst.1)
    (hb.snapOk ha.tidy)
  refine ⟨e', seq', recs', ?_, .record (h.log.setTbl _) ha hb (small_replace hname hdst) hseq hf hl,
    hf⟩
  rw [Xztl.renameFile, hp]
  simp only [Table.get, h.agrees.tidy.live hp]
  exact he

theorem Follows.newWritableFile (hn : e.tbl.find n = none) {x : Env × Handle}
    (he : Xztl.newWritableFile e n = .ok x) (hb : x.1.tbl.Bounded) : Follows x.1 seq recs := by
  cases (newWritableFile_fresh hn).symm.trans he
  refine h.setTbl (Table.Agrees.create (t := e.tbl.erase n) ?_ ?_ rfl rfl) hb
  · have hfind : ∀ m, (e.tbl.erase n).find m = e.tbl.find m := fun m => by
      rw [find_erase]
      by_cases e' : n = m
      · rw [if_pos e', ← e', hn]
      · rw [if_neg e']
    refine ⟨h.agrees.tidy.erase n, fun m => ⟨fun hm => ?_, fun hm => ?_, fun hm => ?_⟩⟩ <;>
      rw [hfind] at hm
    · exact (h.agrees.shows m).le hm
    · exact (h.agrees.shows m).pieces hm
    · exact (h.agrees.shows m).absent hm
  · rw [find_erase, if_pos rfl]

end

end

end Xztl
