import Xztl.Env.Snapshots

/-!
# Env — the log and failing commands (`zrocks_write_file_metadata`, `zrocks_reset_file_md`)

A flush comes with the answers of the device to its commands.  The record of a flush takes one sector,
so it is written or it is not, and the log stays well formed whatever becomes of it.  The snapshot of a
full zone is another matter: the zone has been switched and reset before its first command.  When that
fails three times the zone is left empty, and the record of the next flush becomes its first one.

`log_wellFormed`: the log stays well formed as long as the flushes that find the zone full can write
their snapshot.
-/

namespace Xztl

open Bytes Except List

/-- A flush, and which commands of the device succeed meanwhile. -/
structure FlushTry extends FlushCall where
  ok : Nat → Bool

/-- The environment of the flush. -/
def FlushTry.env (c : FlushTry) (e : Env) : Env :=
  { e with tbl := c.tbl, md := { e.md with ok := c.ok } }

/-- The flush. -/
def flushTry (e : Env) (c : FlushTry) : Option Env := (c.write.run (c.env e)).toOption

/-- The names and the pieces fit, and a flush that finds the zone full can write a snapshot: the reset
succeeds, no command fails three times, and the files fit the buffer. -/
structure FlushTry.Served (e : Env) (c : FlushTry) : Prop where
  fits : c.write.Fits (c.env e)
  snapshot : e.Full → c.ok e.md.cmds = true ∧ (c.env e).md.Patient ∧ SnapOk c.tbl

/-- **A well-formed log.**  The current zone is empty, or it holds a zone head, a snapshot and complete
records up to the write pointer, with at least a sector of zeros behind it. -/
def Metadata.WellFormed (m : Metadata) : Prop :=
  m.curr.wptr = m.curr.sect ∧ (∀ a, m.curr.Mem a → m.media a = 0) ∨
    ∃ seq fs recs, ZoneHolds m.media m.curr seq (.base fs :: recs)

/-- The zones on a device that does not fail. -/
def Metadata.calm (m : Metadata) : Metadata := { m with ok := fun _ => true, cmds := 0 }

theorem MdGeometry.calm {m : Metadata} (h : MdGeometry m) : MdGeometry m.calm :=
  ⟨fun _ => rfl, h.curr, h.disj, h.cap, h.inside⟩

/-- The log begins with a snapshot. -/
structure Metadata.Formed (m : Metadata) : Prop where
  geo : MdGeometry m.calm
  log : ∃ seq fs recs, ZoneHolds m.media m.curr seq (.base fs :: recs)

section

variable {e e₀ e₁ e' : Env} {m : Metadata} {c : FlushTry} {fuel : Nat}

theorem Metadata.switched_blank : ∀ a, m.switched.curr.Mem a → m.switched.media a = 0 := fun a ha =>
  if_pos (by rwa [Metadata.curr_switched] at ha)

theorem MdGeometry.formed (hg : MdGeometry m.calm) (hw : m.curr.wptr = m.curr.sect)
    (hz : ∀ a, m.curr.Mem a → m.media a = 0) {fs : List FileRec}
    (hroom : m.curr.wptr + (1 + (Rec.base fs).sectors) < m.curr.sect + m.curr.capacity) (seq k : Nat) :
    (m.setCurr (memcpy m.media (znsAligment * m.curr.wptr) (zoneHeadBytes seq ++ (Rec.base fs).bytes))
      { m.curr with wptr := m.curr.wptr + (1 + (Rec.base fs).sectors) } k).Formed := by
  refine ⟨hg.setCurr (c := 0) rfl rfl, seq, fs, [], ?_⟩
  rw [Metadata.curr_setCurr, hw]
  rw [hw] at hroom
  exact ZoneHolds.base hz _ (Nat.lt_of_add_lt_add_left hroom)

/-- **A flush keeps the log well formed.** -/
theorem Metadata.Formed.flush (h : e.md.Formed) (hs : c.Served e) (hrun : flushTry e c = some e') :
    e'.md.Formed := by
  obtain ⟨seq, fs, recs, hz⟩ := h.log
  have hrun := toOption_eq_some.mp hrun
  obtain ⟨-, rfl⟩ | ⟨hlen, -⟩ := RecordWrite.run_cases hrun
  · exact ⟨h.geo, seq, fs, recs, hz⟩
  obtain ⟨t, buf, r, hsame, hop, hone, hbody, hr⟩ :=
    RecordWrite.run_of_fits hs.fits (by rw [hlen]; decide)
  rw [hr, hlen] at hrun
  rcases flushRecord_fate hrun h.geo.ne h.geo.curr fun hf => (hs.snapshot hf).1 with
    ⟨hroom, k, ⟨-, rfl⟩ | rfl⟩ | ⟨hfull, st, hf⟩
  · -- the record is not written
    exact ⟨h.geo, seq, fs, recs, hz⟩
  · have hbytes := hbody.record
    rw [At, r.bytes_length, hone, hop] at hbytes
    refine ⟨h.geo.setCurr (c := 0) rfl rfl, seq, fs, recs ++ [r], ?_⟩
    have happend := hz.append r (hone ▸ Nat.lt_of_not_le hroom)
    rw [hone, ← hbytes] at happend
    rw [Metadata.curr_setCurr]
    exact happend
  · obtain ⟨-, hp, hsnap⟩ := hs.snapshot hfull
    have hsnap : SnapOk t := hsnap.same hsame
    have hg : MdGeometry e.md.switched.calm := h.geo.switched.calm
    have hroom := lt_of_le_of_lt (snapshot_sectors hsnap.fits).2 (hg.cap _ hg.curr)
    obtain ⟨k, hb⟩ := flushMetaData_blank
      (e := { c.env e with tbl := t, md := (c.env e).md.switched }) hp hsnap
      (by rw [Metadata.curr_switched]) hroom
    rw [hb] at hf
    cases hf
    have hw : e.md.switched.curr.wptr = e.md.switched.curr.sect := by rw [Metadata.curr_switched]
    have hf := hg.formed (m := e.md.switched) hw Metadata.switched_blank
      (by rw [hw]; exact Nat.add_lt_add_left hroom _) e.sequence k
    rw [hw] at hf
    exact ⟨hf.geo, hf.log⟩

/-- What lies behind the write pointers is not written. -/
def Metadata.Unwritten (m : Metadata) : Prop :=
  ∀ i < 2, ∀ a, znsAligment * (m.zone i).wptr ≤ a →
    a < znsAligment * ((m.zone i).sect + (m.zone i).capacity) → m.media a = 0

/-- **A log that has been loaded is well formed.** -/
theorem Metadata.Formed.loaded (hg : MdGeometry e.md) (hz : e.md.Unwritten) (hstart : StartsAtHead e.md)
    (hr : replay fuel e.restart = .ok (e₁, .ok)) (hs : SnapOk e₁.tbl)
    (h : loadMetaData fuel e.restart = .ok (e₀, .ok)) : e₀.md.Formed := by
  have hlt := getCurrMetadataZone_lt e.md
  obtain ⟨st, hf⟩ : ∃ st, flushMetaData e₁ = .ok (e₀, st) := by
    rw [loadMetaData, hr] at h
    simp only [bind, Except.bind, ne_eq, not_true_eq_false, if_false] at h
    obtain ⟨⟨e2, st⟩, hf, h⟩ := bind_eq_ok.mp h
    cases h
    exact ⟨st, hf⟩
  have hblank : MdGeometry e₁.md ∧ (e₁.md.curr.wptr = e₁.md.curr.sect ∧
      (∀ a, e₁.md.curr.Mem a → e₁.md.media a = 0) ∨ e₁.md.curr.sect + e₁.md.curr.capacity
        ≤ e₁.md.curr.wptr + (1 + (Rec.base e₁.tbl.snapshot).sectors)) := by
    rcases replay_cases hg hr with ⟨hnone, k, rfl⟩ | ⟨i, k, t, hsome, rfl⟩
    · refine ⟨⟨hg.ok, hlt, hg.disj, hg.cap, hg.inside⟩, ?_⟩
      rw [show 1 + (Rec.base e.restart.tbl.snapshot).sectors = 2 from sectors_empty]
      refine (hstart.resolve_left fun hne => hne hnone).imp_left fun hw => ⟨hw, fun a ha => ?_⟩
      refine hz _ hlt a (le_of_eq_of_le ?_ ha.1) ha.2
      exact congrArg (znsAligment * ·) hw
    · have hg' : MdGeometry { e.md with currZoneIndex := i, cmds := k } :=
        ⟨hg.ok, newestZone_lt hsome, hg.disj, hg.cap, hg.inside⟩
      refine ⟨hg'.switched, Or.inl ⟨?_, Metadata.switched_blank⟩⟩
      rw [Metadata.curr_switched]
  obtain ⟨m, k, hm, -, hroom, -, hmd⟩ := flushMetaData_some hblank.1 hs hf
  rw [hmd]
  rcases hm with rfl | ⟨rfl, -⟩
  · obtain ⟨hw, hz⟩ := hblank.2.resolve_right (Nat.not_le_of_lt hroom)
    exact hblank.1.calm.formed hw hz hroom _ k
  · exact hblank.1.switched.calm.formed (by rw [Metadata.curr_switched]) Metadata.switched_blank hroom
      _ k

end

/-- The deletion of the file `a`, with an empty table. -/
def deletion (ok : Nat → Bool) : FlushTry := ⟨⟨.empty, .delete nameA⟩, ok⟩

theorem exists_deletion (e : Env) (ok : Nat → Bool) : ∃ e' buf,
    flushTry e (deletion ok) = some e' ∧
      flushRecord ((deletion ok).env e) .delete buf znsAligment = .ok e' := by
  obtain ⟨buf, hrun⟩ : ∃ buf, flushDelMetaData ((deletion ok).env e) nameA
      = flushRecord ((deletion ok).env e) .delete buf znsAligment :=
    ⟨_, (if_neg (by decide)).trans (flushRecord_sectorAlign ..).symm⟩
  obtain ⟨e', he⟩ : ∃ e', flushRecord ((deletion ok).env e) .delete buf znsAligment = .ok e' := by
    rw [flushRecord]
    dsimp only
    split
    · obtain ⟨_, _, hacc⟩ := SnapOk.empty.exists_layOut e.sequence
      obtain ⟨_, hf⟩ := flushMetaData_layOut (e := { (deletion ok).env e with
        md := (zrocksWriteFileMetadata ((deletion ok).env e).md _ (sectorAlign znsAligment)).1 }) hacc
      rw [hf]
      exact ⟨_, rfl⟩
    · exact ⟨_, rfl⟩
  exact ⟨e', buf, toOption_eq_some.mpr (hrun.trans he), he⟩

section

variable {e : Env}

/-- With room its record is appended. -/
theorem deletion_appends (hg : MdGeometry e.md.calm) (hroom : ¬ e.Full) : ∃ e',
    flushTry e (deletion fun _ => true) = some e' ∧ MdGeometry e'.md.calm ∧
      e'.md.curr = { e.md.curr with wptr := e.md.curr.wptr + 1 } := by
  obtain ⟨e', buf, hrun, hf⟩ := exists_deletion e fun _ => true
  rcases flushRecord_fate hf hg.ne hg.curr fun hfull => absurd hfull hroom with
    ⟨-, k, ⟨hp, -⟩ | rfl⟩ | ⟨hfull, -⟩
  · exact absurd (fun _ => ⟨0, by decide, rfl⟩) hp
  · exact ⟨_, hrun, hg.setCurr (c := 0) rfl rfl, Metadata.curr_setCurr⟩
  · exact absurd hfull hroom

theorem exists_deletions (k : Nat) : ∀ {e : Env}, MdGeometry e.md.calm →
    e.md.curr.sect + e.md.curr.capacity = e.md.curr.wptr + 1 + k →
    ∃ (oks : List (Nat → Bool)) (e' : Env),
      Runs flushTry (fun _ _ => True) e (oks.map deletion) e' ∧ MdGeometry e'.md.calm ∧ e'.Full := by
  induction k with
  | zero => exact fun {e} h hk => ⟨[], e, .nil _, h, le_of_eq hk⟩
  | succ k ih =>
    intro e h hk
    obtain ⟨e₁, hstep, h1, hcurr⟩ := deletion_appends h (by rw [Env.Full]; omega)
    obtain ⟨oks, e', hrun, h', hfull⟩ := ih h1 (by
      rw [hcurr]
      show e.md.curr.sect + e.md.curr.capacity = e.md.curr.wptr + 1 + 1 + k
      omega)
    exact ⟨_ :: oks, e', .cons trivial hstep hrun, h', hfull⟩

theorem attempts_false (n : Nat) : ∀ {m : Metadata}, (∀ i, m.ok (m.cmds + i) = false) →
    ∃ k, attempts n m = ({ m with cmds := k }, false) := by
  induction n with
  | zero => exact fun {m} _ => ⟨m.cmds, rfl⟩
  | succ n ih =>
    intro m h
    rw [attempts, if_neg (by rw [show m.ok m.cmds = false from h 0]; decide)]
    refine ih (m := { m with cmds := m.cmds + 1 }) fun i => ?_
    rw [Nat.add_assoc]
    exact h _

/-- **A snapshot fails**: of three attempts at its first command none succeeds. -/
theorem flushMetaData_fails {e' : Env} {st : Status} (h : flushMetaData e = .ok (e', st))
    (hs : SnapOk e.tbl) (hw : e.md.curr.wptr = e.md.curr.sect)
    (hroom : 1 + (Rec.base e.tbl.snapshot).sectors < e.md.curr.capacity)
    (hok : ∀ i, e.md.ok (e.md.cmds + i) = false) :
    ∃ k, e'.md = { e.md with cmds := k } := by
  obtain ⟨buf, dataLen, hacc⟩ := hs.exists_layOut e.sequence
  obtain ⟨t, hf⟩ := flushMetaData_layOut hacc
  obtain ⟨-, -, hlen⟩ := layOut_eq_some.mp hacc
  obtain ⟨k, htry⟩ := attempts_false metaMaxRetry hok
  obtain ⟨n, hn⟩ : ∃ n, dataLen = n + 1 := ⟨dataLen - 1, by rw [znsAligment] at hlen; omega⟩
  have hloop : metaWriteLoop buf e.md.currZoneIndex dataLen dataLen 0 e.md
      = ({ e.md with cmds := k }, false) := by
    rw [hn, metaWriteLoop, if_neg (Nat.succ_ne_zero n), htry]
  have hwrite : zrocksWriteFileMetadata e.md buf dataLen = ({ e.md with cmds := k }, mdWriteErr) := by
    have hfull : ¬ e.md.curr.wptr + dataLen / znsAligment ≥ e.md.curr.sect + e.md.curr.capacity := by
      rw [hlen, Nat.mul_div_cancel_left _ (by decide), hw]
      omega
    exact (if_neg hfull).trans (by rw [hloop])
  rw [hf] at h
  cases h
  exact ⟨k, by simp only [hwrite]; rfl⟩

/-- In a full zone the snapshot of a deletion can fail. -/
theorem deletion_fails (hg : MdGeometry e.md.calm) (hfull : e.Full) : ∃ ok e',
    flushTry e (deletion ok) = some e' ∧ MdGeometry e'.md.calm ∧
      e'.md.curr.wptr = e'.md.curr.sect := by
  -- the reset succeeds, and nothing after it
  obtain ⟨e', buf, hrun, hf⟩ := exists_deletion e fun j => decide (j = e.md.cmds)
  have hg' := hg.switched
  have hroom := lt_of_le_of_lt (snapshot_sectors SnapOk.empty.fits).2 (hg'.cap _ hg'.curr)
  rcases flushRecord_fate hf hg.ne hg.curr fun _ => decide_eq_true rfl with
    ⟨hno, -⟩ | ⟨-, st, hsnap⟩
  · exact absurd hfull hno
  · obtain ⟨k, hmd⟩ := flushMetaData_fails hsnap SnapOk.empty
      (by rw [Metadata.curr_switched]) hroom
      fun i => decide_eq_false (show e.md.cmds + 1 + i ≠ e.md.cmds by omega)
    refine ⟨_, e', hrun, ?_, ?_⟩
    · rw [hmd]
      exact hg'.calm
    · rw [hmd]
      show (Metadata.switched _).curr.wptr = (Metadata.switched _).curr.sect
      rw [Metadata.curr_switched]

end

/-- **The log stays well formed** in every run of flushes behind a load, whatever commands fail, as
long as the flushes that find the zone full can write their snapshot. -/
theorem log_wellFormed {e e₀ e₁ e' : Env} {fuel : Nat} {cs : List FlushTry} (hg : MdGeometry e.md)
    (hz : e.md.Unwritten) (hstart : StartsAtHead e.md)
    (hr : replay fuel e.restart = .ok (e₁, .ok)) (hs : SnapOk e₁.tbl)
    (h₀ : loadMetaData fuel e.restart = .ok (e₀, .ok))
    (h : Runs flushTry (fun e c => c.Served e) e₀ cs e') : e'.md.WellFormed :=
  Or.inr (h.invariant (I := fun e : Env => e.md.Formed) (fun _ _ _ hf hc hstep => hf.flush hc hstep)
    (.loaded hg hz hstart hr hs h₀)).log

/-- Two deletions behind a load of empty zones: all commands of the first one fail. -/
theorem log_wellFormed_deletions : ∃ e₀ e', loadMetaData 0 (Env.fresh smallMd).restart = .ok (e₀, .ok) ∧
    Runs flushTry (fun e c => c.Served e) e₀ [deletion fun _ => false, deletion fun _ => true] e' ∧
    e'.md.WellFormed := by
  have hg := Metadata.fresh_geometry smallMd
  obtain ⟨e₀, hload, -, hl, hcap, -⟩ := load_fresh smallMd 0
  obtain ⟨k, hrep⟩ := replay_none (e := (Env.fresh smallMd).restart) hg.ok (fun i hi => hg.sect_lt hi)
    (by decide)
  have hserved : ∀ {e : Env} {ok}, ¬ e.Full → (deletion ok).Served e := fun hf =>
    ⟨show 1 ≤ fileNameLen by decide, fun h => absurd h hf⟩
  have hptr : e₀.md.curr.wptr = e₀.md.curr.sect + 1 + 1 := hl.log.holds.wptr
  have hcap : e₀.md.curr.capacity = 20482 := hcap _
  obtain ⟨e₁, buf, hstep₁, hf⟩ := exists_deletion e₀ fun _ => false
  have hfull : ¬ e₀.Full := by
    rw [Env.Full, hptr, hcap]
    omega
  have hfull₁ : ¬ e₁.Full := by
    rcases flushRecord_fate hf hl.log.geo.ne hl.log.geo.curr fun h => absurd h hfull with
      ⟨-, c, ⟨-, rfl⟩ | rfl⟩ | ⟨h, -⟩
    · exact hfull
    · rw [Env.Full, Metadata.curr_setCurr]
      show ¬ e₀.md.curr.sect + e₀.md.curr.capacity ≤ e₀.md.curr.wptr + 1 + 1
      rw [hptr, hcap]
      omega
    · exact absurd h hfull
  obtain ⟨e', -, hstep₂, -⟩ := exists_deletion e₁ fun _ => true
  have hrun := Runs.cons (G := fun e c => FlushTry.Served e c) (hserved hfull) hstep₁
    (.one (hserved hfull₁) hstep₂)
  exact ⟨e₀, e', hload, hrun, log_wellFormed hg (fun _ _ _ _ _ => rfl) (by decide) (hrep 0)
    SnapOk.empty hload hrun⟩

/-- **A log that is not well formed.**  The zone is full; the snapshot of a deletion fails, and the
record of the next deletion is the first of the zone. -/
theorem log_malformed : ∃ (e₀ e' : Env) (oks : List (Nat → Bool)),
    loadMetaData 0 (Env.fresh smallMd).restart = .ok (e₀, .ok) ∧
    Runs flushTry (fun _ _ => True) e₀ (oks.map deletion) e' ∧ ¬ e'.md.WellFormed := by
  obtain ⟨e₀, hload, -, hl, -⟩ := load_fresh smallMd 0
  have hroom := hl.log.holds.room
  obtain ⟨oks, e₁, hrun, hg₁, hfull⟩ := exists_deletions
    (e₀.md.curr.sect + e₀.md.curr.capacity - (e₀.md.curr.wptr + 1)) hl.log.geo.calm (by omega)
  obtain ⟨ok, e₂, hstep₂, hg₂, hw⟩ := deletion_fails hg₁ hfull
  have hcap : 1 < e₂.md.curr.capacity := lt_trans (by decide) (hg₂.cap _ hg₂.curr)
  obtain ⟨e₃, hstep₃, -, hcurr⟩ := deletion_appends hg₂ (by rw [Env.Full]; omega)
  refine ⟨e₀, e₃, oks ++ [ok, fun _ => true], hload, ?_, ?_⟩
  · rw [map_append]
    exact hrun.append (.cons trivial hstep₂ (.one trivial hstep₃))
  · rintro (⟨hempty, -⟩ | ⟨seq, fs, recs, hz⟩)
    · rw [hcurr] at hempty
      have hempty : e₂.md.curr.wptr + 1 = e₂.md.curr.sect := hempty
      omega
    · have hptr := hz.wptr
      rw [hcurr, recSectors_cons] at hptr
      have hptr : e₂.md.curr.wptr + 1 = e₂.md.curr.sect + 1 + _ := hptr
      have := (Rec.base fs).sectors_pos
      omega

end Xztl
