import Xztl.Env.Restart

/-!
# Env — creating a file again

`NewWritableFile` on a name of the table deletes the old object and writes nothing to the log, so the
log still has the old pieces under the name, and each Sync of the new file adds its pieces to them.
Only a snapshot puts an end to this.

**`recreate_iff`** says when the log has just the pieces of the new file: when it had none of the old
one, or when the Syncs since have filled the metadata zone.
-/

namespace Xztl

open Function Bytes List Except Table

/-- The pieces written. -/
def written : List WriteStep → List ZrocksMap
  | [] => []
  | .put _ :: as => written as
  | .grow _ :: as => written as
  | .sync maps :: as => maps ++ written as

/-- The number of Syncs that have something to record. -/
def recordCount : List WriteStep → Nat
  | [] => 0
  | .put _ :: as => recordCount as
  | .grow _ :: as => recordCount as
  | .sync maps :: as => (if maps = [] then 0 else 1) + recordCount as

/-- A step within the bounds, and with a number for the snapshot that fits 32 bits when the metadata
zone is full. -/
structure WriteStep.Allowed (h : Handle) (e : Env) (a : WriteStep) : Prop where
  bounded : ∀ e', writeStep h e a = some e' → e'.tbl.Bounded
  sequence : e.Full → e.sequence < 2 ^ 32

/-! ### The invariant -/

/-- After `k` records with the pieces `ms`, when there was room for fewer than `R` records and the log
had the pieces `old` of the name. -/
structure Rewritten (h : Handle) (old : List ZrocksMap) (R : Nat) (e : Env) (ms : List ZrocksMap)
    (k seq : Nat) (recs : List Rec) : Prop where
  log : LogOk e seq recs
  tidy : e.tbl.Tidy
  bounded : e.tbl.Bounded
  find : e.tbl.find h.fileName = some h.znsFile
  map : (e.tbl.objs h.znsFile).map = ms
  clean : (e.tbl.objs h.znsFile).startIndex = (e.tbl.objs h.znsFile).map.length
  pieces : k < R ∧ e.md.curr.sect + e.md.curr.capacity + k = e.md.curr.wptr + R ∧
      (Table.replay recs).data.pieces h.fileName = old ++ ms ∨
    R ≤ k ∧ (Table.replay recs).data.pieces h.fileName = ms

section

variable {h : Handle} {old ms maps : List ZrocksMap} {R k seq seq' : Nat} {e e' : Env}
  {recs recs' : List Rec} {r : Rec}

/-- A change of the object in what the log does not follow. -/
theorem Rewritten.touch (hi : Rewritten h old R e ms k seq recs) {f : ZnsFile}
    (hname : f.name = (e.tbl.objs h.znsFile).name) (hmap : f.map = (e.tbl.objs h.znsFile).map)
    (hs : f.startIndex = (e.tbl.objs h.znsFile).startIndex)
    (hb : (e.setFile h.znsFile f).tbl.Bounded) :
    Rewritten h old R (e.setFile h.znsFile f) ms k seq recs := by
  have hobj : (e.setFile h.znsFile f).tbl.objs h.znsFile = f := update_self _ _ _
  refine ⟨hi.log.setTbl _, hi.tidy.set hname, hb, hi.find, ?_, ?_, hi.pieces⟩
  · rw [hobj, hmap]
    exact hi.map
  · rw [hobj, hs, hmap]
    exact hi.clean

/-- An update adds its pieces to what a table has under the name, whatever else is in it. -/
theorem Table.recover_pieces (t : Table) (r : FileRec) :
    (t.recover r false).data.pieces r.name = t.data.pieces r.name ++ r.pieces := by
  rw [Table.recover]
  cases hf : t.find r.name with
  | none =>
    have hfind : ∀ f, ((t.alloc f).1.put r.name (some t.next)).find r.name = some t.next :=
      fun f => (find_put _ _ _ _).trans (if_pos rfl)
    refine (data_pieces (hfind _)).trans ?_
    rw [Contents.pieces, data_none hf]
    show (update t.objs t.next _ t.next).map = r.pieces
    rw [update_self]
  | some p =>
    have hfind : ∀ f m, ((t.set p f).put m (some p)).find r.name = some p := fun f m => by
      rw [find_put, find_set, hf, ite_self]
    refine (data_pieces (hfind _ _)).trans ?_
    rw [data_pieces hf]
    show (update t.objs p _ p).map = (t.objs p).map ++ r.pieces
    rw [update_self]
    rfl

theorem Rewritten.sync (hi : Rewritten h old R e ms k seq recs)
    (hseq : e.Full → e.sequence < 2 ^ 32) (he : syncFlush h (pushPieces h e maps) = .ok e')
    (hb : e'.tbl.Bounded) :
    ∃ seq' recs',
      Rewritten h old R e' (ms ++ maps) (k + if maps = [] then 0 else 1) seq' recs' := by
  obtain ⟨f, hp⟩ := exists_pushed h maps e
  generalize pushPieces h e maps = e1 at he hp
  obtain ⟨c, hf⟩ := hp.file
  have hfmap : f.map = ms ++ maps := by rw [hf, ← hi.map]
  have hstart : f.startIndex = ms.length := by rw [hf, ← hi.map]; exact hi.clean
  have hobj := hp.obj
  have htidy := hp.tidy hi.tidy
  have hfind := (hp.find _).trans hi.find
  have hlog := hp.logOk hi.log
  -- the record, and the change of the cache behind it
  obtain ⟨e2, hupd, he⟩ := bind_eq_ok.mp he
  cases he
  obtain ⟨hsame, -⟩ := flushUpdateMetaData_same hupd
  have hb2 : e2.tbl.Bounded := Table.Bounded.of_set (t := e2.tbl) hb (htidy.same hsame) rfl rfl
  obtain ⟨e3, seq', recs', hupd', hlog', hcases⟩ :=
    hlog.flushUpdate htidy (hb2.same hsame.symm) hfind (hp.sequence_lt hseq)
  cases hupd.symm.trans hupd'
  suffices hr : Rewritten h old R e2 (ms ++ maps) (k + if maps = [] then 0 else 1) seq' recs' from
    ⟨seq', recs', hr.touch rfl rfl rfl hb⟩
  have hmap2 : (e2.tbl.objs h.znsFile).map = ms ++ maps := by rw [hsame.map, hobj, hfmap]
  have hfind2 : e2.tbl.find h.fileName = some h.znsFile := by rw [hsame.find, hfind]
  rcases hcases with ⟨hi', rfl, rfl, rfl⟩ | ⟨hi', hfl⟩
  · -- nothing to record
    rw [hobj, hstart, hfmap, length_append] at hi'
    obtain rfl : maps = [] := length_eq_zero_iff.mp (by omega)
    refine ⟨hlog, htidy, hb2, hfind, hmap2, ?_, ?_⟩
    · rw [hobj, hstart, hfmap, append_nil]
    · rw [append_nil, if_pos rfl, Nat.add_zero, hp.md]
      exact hi.pieces
  · have hne : maps ≠ [] := fun h0 => hi' (by
      rw [hobj, hstart, hfmap, h0, append_nil])
    have hsmall := small_update (f := e1.tbl.objs h.znsFile) (hb2.same hsame.symm |>.name hfind)
      (hb2.same hsame.symm |>.pieces hfind) (e1.tbl.objs h.znsFile).startIndex
    have hclean : (e2.tbl.objs h.znsFile).startIndex = (e2.tbl.objs h.znsFile).map.length :=
      hfl.clean (n := h.fileName) hfind (by
        show ((e1.tbl.set h.znsFile _).objs h.znsFile).startIndex
          = ((e1.tbl.set h.znsFile _).objs h.znsFile).map.length
        rw [objs_set, update_self]
        rfl)
    refine ⟨hlog', htidy.same hsame, hb2, hfind2, hmap2, hclean, ?_⟩
    rw [if_neg hne]
    cases hfl with
    | append room tbl curr =>
      have hroom := hsmall.room_iff.mp room
      have hadd : (Table.replay (recs ++ [.update ((e1.tbl.objs h.znsFile).entry
          (e1.tbl.objs h.znsFile).startIndex)])).data.pieces h.fileName
          = (Table.replay recs).data.pieces h.fileName ++ maps := by
        have hkey : ((e1.tbl.objs h.znsFile).entry (e1.tbl.objs h.znsFile).startIndex).name
            = h.fileName := htidy.name hfind
        rw [Table.replay, foldl_append, ← hkey]
        refine (recover_pieces _ _).trans (congrArg _ ?_)
        show (e1.tbl.objs h.znsFile).map.drop (e1.tbl.objs h.znsFile).startIndex = maps
        rw [hobj, hfmap, hstart, drop_left]
      have hcurr : e2.md.curr = { e.md.curr with wptr := e.md.curr.wptr + 1 } := by
        rw [curr, hsmall.sectors, ← hp.md]
        rfl
      have hroom : ¬ e.md.curr.sect + e.md.curr.capacity ≤ e.md.curr.wptr + 1 := by
        have hroom : ¬ e1.Full := hroom
        rwa [Env.Full, hp.md] at hroom
      rcases hi.pieces with ⟨hk, hw, ho⟩ | ⟨hk, ho⟩
      · refine Or.inl ⟨by omega, ?_, by rw [hadd, ho, append_assoc]⟩
        rw [hcurr]
        show e.md.curr.sect + e.md.curr.capacity + (k + 1) = e.md.curr.wptr + 1 + R
        omega
      · exact Or.inr ⟨by omega, by rw [hadd, ho]⟩
    | snapshot full tbl kept =>
      have hfull : e.md.curr.sect + e.md.curr.capacity ≤ e.md.curr.wptr + 1 := by
        have hfull : e1.Full := not_not.mp fun hc => full (hsmall.room_iff.mpr hc)
        rwa [Env.Full, hp.md] at hfull
      refine Or.inr ⟨?_, ?_⟩
      · rcases hi.pieces with ⟨hk, hw, -⟩ | ⟨hk, -⟩ <;> omega
      · have hshows := (htidy.set (p := h.znsFile) (f := (e1.tbl.objs h.znsFile).marked)
          rfl).agrees_snapshot.shows h.fileName
        rw [show (e1.tbl.set h.znsFile (e1.tbl.objs h.znsFile).marked).recorded = e2.tbl from
          tbl.symm] at hshows
        rw [(replay_refines (show Quiet _ [.base _] from ⟨trivial, trivial⟩)).2]
        refine (hshows.pieces hfind2).trans ?_
        rw [hclean, take_length, nil_append, hmap2]

theorem Rewritten.step {a : WriteStep} (hi : Rewritten h old R e ms k seq recs)
    (hg : a.Allowed h e) (he : writeStep h e a = some e') :
    ∃ seq' recs', Rewritten h old R e' (ms ++ written [a]) (k + recordCount [a]) seq' recs' := by
  have hb := hg.bounded e' he
  cases a with
  | put bs =>
    obtain ⟨c, -, -, rfl⟩ := cachePut_eq_ok.mp (toOption_eq_some.mp he)
    refine ⟨seq, recs, ?_⟩
    rw [show written [.put bs] = [] from rfl, append_nil]
    exact hi.touch rfl rfl rfl hb
  | grow size =>
    cases he
    refine ⟨seq, recs, ?_⟩
    rw [show written [.grow size] = [] from rfl, append_nil]
    exact hi.touch rfl rfl rfl hb
  | sync maps =>
    rw [show written [.sync maps] = maps from append_nil maps]
    exact hi.sync hg.sequence (toOption_eq_some.mp he) hb

theorem written_cons (a : WriteStep) (as : List WriteStep) :
    written (a :: as) = written [a] ++ written as := by
  cases a with
  | sync maps => simp only [written, append_nil]
  | _ => rfl

theorem recordCount_cons (a : WriteStep) (as : List WriteStep) :
    recordCount (a :: as) = recordCount [a] + recordCount as := by
  cases a with
  | sync maps => rfl
  | _ => exact (Nat.zero_add _).symm

theorem Rewritten.run {as : List WriteStep}
    (hrun : Runs (writeStep h) (fun e a => WriteStep.Allowed h e a) e as e') :
    ∀ {ms k seq recs}, Rewritten h old R e ms k seq recs →
      ∃ seq' recs', Rewritten h old R e' (ms ++ written as) (k + recordCount as) seq' recs' := by
  induction hrun with
  | nil s =>
    intro ms k seq recs hi
    exact ⟨seq, recs, by rwa [show written [] = [] from rfl, append_nil]⟩
  | @cons s s1 s' a as hg hs _ ih =>
    intro ms k seq recs hi
    obtain ⟨seq1, recs1, hi1⟩ := hi.step hg hs
    obtain ⟨seq2, recs2, hi2⟩ := ih hi1
    rw [append_assoc, ← written_cons, Nat.add_assoc, ← recordCount_cons] at hi2
    exact ⟨seq2, recs2, hi2⟩

/-- **The new file.**  The log is as it was, and so has the pieces of the old one. -/
theorem Rewritten.start {n : Name} {p : Ptr} {e1 : Env} (hlog : LogOk e seq recs)
    (htidy : e.tbl.Tidy) (hn : e.tbl.find n = some p) (hnew : newWritableFile e n = .ok (e1, h))
    (hb : e1.tbl.Bounded) :
    h.fileName = n ∧ Rewritten h ((Table.replay recs).data.pieces n)
      (e.md.curr.sect + e.md.curr.capacity - e.md.curr.wptr) e1 [] 0 seq recs := by
  cases (newWritableFile_exists hn (htidy.live hn)).symm.trans hnew
  have hroom := hlog.log.holds.room
  obtain ⟨hfind, hobj⟩ := (newWritableFile_new hnew).object
  refine ⟨rfl, hlog.setTbl _, newWritableFile_tidy htidy hnew, hb, hfind, ?_, ?_,
    Or.inl ⟨?_, ?_, (append_nil _).symm⟩⟩
  · rw [hobj]
    rfl
  · rw [hobj]
    rfl
  · omega
  · show e.md.curr.sect + e.md.curr.capacity + 0 = e.md.curr.wptr + _
    omega

end

/-! ### The file `a`, created again -/

/-- A table with no other name than `a`. -/
theorem bounded_sole {t : Table} {ms : List ZrocksMap} (ht : t.Tidy)
    (hsole : ∀ n q, t.find n = some q → n = nameA ∧ (t.objs q).map = ms)
    (hms : ms.length ≤ maxPieces) : t.Bounded := by
  obtain ⟨f, hname, hmap⟩ : ∃ f : ZnsFile, f.name = nameA ∧ f.map = ms :=
    ⟨{ ZnsFile.new nameA 0 with map := ms }, rfl, rfl⟩
  refine (Table.Bounded.single (hname ▸ nameA_ok) (hmap ▸ hms)).of_sub (.single f) ht
    fun n q hn => ?_
  obtain ⟨rfl, hq⟩ := hsole n q hn
  exact ⟨0, find_nameA hname, by rw [objs_single, hmap, hq]⟩

/-- **The file `a` is written, closed, created again and synced**, with a piece each time. -/
theorem exists_recreated (m m' : ZrocksMap) : ∃ e0 steps e e1 e' h,
    loadMetaData 0 (Env.fresh smallMd) = .ok (e0, .ok) ∧
    Runs SyncState.step (fun s a => a.NoRename ∧ a.Allowed s) ⟨e0, []⟩ steps ⟨e, []⟩ ∧
    LogOk e 0 [.base [], .update ⟨nameA, 0, 0, [m]⟩] ∧ e.tbl.Tidy ∧ e.tbl.find nameA = some 0 ∧
    newWritableFile e nameA = .ok (e1, h) ∧ e1.tbl.Bounded ∧
    Runs (writeStep h) (WriteStep.Allowed h) e1 [.sync [m']] e' ∧ ¬ e.Full := by
  obtain ⟨e0, e, f, hload, hone, -⟩ := exists_oneFile m
  obtain ⟨steps, hrun⟩ := hone.run
  have hlog := hone.inv.follows.log
  have htidy := hone.inv.follows.agrees.tidy
  have hfind : e.tbl.find nameA = some 0 := by rw [hone.tbl, find_nameA hone.name]
  have hfull : ¬ e.Full := hone.not_full
  obtain ⟨e1, h, hnew⟩ : ∃ e1 h, newWritableFile e nameA = .ok (e1, h) :=
    ⟨_, _, newWritableFile_exists hfind (htidy.live hfind)⟩
  have hf := newWritableFile_new hnew
  obtain ⟨hf1, -⟩ := hf.object
  have hsole : ∀ n q, e1.tbl.find n = some q → n = nameA ∧ (e1.tbl.objs q).map = [] := by
    intro n q hn
    rw [hf.find] at hn
    by_cases hk : nameA = n
    · rw [if_pos hk] at hn
      cases hn
      rw [hf.objs, update_self]
      exact ⟨hk.symm, rfl⟩
    · rw [if_neg hk, hone.tbl, find_single, if_neg (by rw [hone.name]; exact hk)] at hn
      cases hn
  have htidy1 := newWritableFile_tidy htidy hnew
  have hb1 := bounded_sole htidy1 hsole (Nat.zero_le _)
  have hlog1 := hlog.setTbl e1.tbl
  rw [show Env.setTbl _ e1.tbl = e1 from hf.tbl.symm] at hlog1
  have hseq : e1.Full → e1.sequence < 2 ^ 32 := fun _ => by
    rw [hlog1.sequence]
    decide
  obtain ⟨e', he, hb'⟩ := hlog1.exists_syncFlush [m'] htidy1 hf1 hseq fun f hn hm =>
    bounded_sole (htidy1.set hn) (fun n q hq => by
      obtain ⟨rfl, -⟩ := hsole n q hq
      cases ((hsole _ _ hf1).1 ▸ hf1).symm.trans hq
      rw [objs_set, update_self, hm, (hsole _ _ hf1).2]
      exact ⟨rfl, rfl⟩) (show [m'].length ≤ maxPieces from (by decide : 1 ≤ maxPieces))
  have hs : writeStep h e1 (.sync [m']) = some e' := toOption_eq_some.mpr he
  have ha : WriteStep.Allowed h e1 (.sync [m']) :=
    ⟨fun e'' he'' => by cases hs.symm.trans he''; exact hb', hseq⟩
  exact ⟨e0, steps, e, _, e', _, hload, hrun, hlog, htidy, hfind, hnew, hb1, .one ha hs, hfull⟩

/-! ### What is loaded -/

/-- **Creating a file again.**  The environment has each file under its own name and a log that can be
loaded; a name of the table is created again and written.  Loading the log then gives the name the
pieces written since, if and only if the log had no pieces under the name, or the Syncs that had
something to record filled up the metadata zone. -/
theorem recreate_iff {e e₁ e' : Env} {seq : Nat} {recs : List Rec} {n : Name} {p : Ptr} {h : Handle}
    {steps : List WriteStep} (hlog : LogOk e seq recs) (htidy : e.tbl.Tidy)
    (hn : e.tbl.find n = some p) (hnew : newWritableFile e n = .ok (e₁, h)) (hb : e₁.tbl.Bounded)
    (hrun : Runs (writeStep h) (WriteStep.Allowed h) e₁ steps e') :
    ∃ seq' recs', LogIn e'.md seq' recs' ∧ ∀ fuel, recs'.length < fuel →
      ∃ e'', replay fuel e'.restart = .ok (e'', .ok) ∧
        (e''.tbl.data.pieces n = written steps ↔ (Table.replay recs).data.pieces n = [] ∨
          e.md.curr.sect + e.md.curr.capacity ≤ e.md.curr.wptr + recordCount steps) := by
  obtain ⟨rfl, hstart⟩ := Rewritten.start hlog htidy hn hnew hb
  obtain ⟨seq', recs', hi⟩ := Rewritten.run hrun hstart
  refine ⟨seq', recs', hi.log.log, fun fuel hfuel => ?_⟩
  obtain ⟨e'', hr, htbl⟩ := hi.log.replay hfuel
  refine ⟨e'', hr, ?_⟩
  rw [htbl]
  have hpieces := hi.pieces
  rw [nil_append, Nat.zero_add] at hpieces
  rcases hpieces with ⟨hk, -, hp⟩ | ⟨hk, hp⟩
  · rw [hp, append_left_eq_self]
    exact ⟨Or.inl, fun ho => ho.resolve_right (by omega)⟩
  · exact ⟨fun _ => Or.inr (by omega), fun _ => hp⟩

/-- The file `a`, created again and synced. -/
theorem recreate_iff_synced : ∃ e e₁ e' h seq recs steps, LogOk e seq recs ∧ e.tbl.Tidy ∧
    newWritableFile e nameA = .ok (e₁, h) ∧ e₁.tbl.Bounded ∧
    Runs (writeStep h) (WriteStep.Allowed h) e₁ steps e' ∧
    ∃ seq' recs', LogIn e'.md seq' recs' ∧ ∀ fuel, recs'.length < fuel →
      ∃ e'', replay fuel e'.restart = .ok (e'', .ok) ∧
        (e''.tbl.data.pieces nameA = written steps ↔ (Table.replay recs).data.pieces nameA = [] ∨
          e.md.curr.sect + e.md.curr.capacity ≤ e.md.curr.wptr + recordCount steps) := by
  obtain ⟨e₀, steps, e, e₁, e', h, -, -, hlog, htidy, hfind, hnew, hb, hrun, -⟩ :=
    exists_recreated ⟨0, 0, 1, 0⟩ ⟨0, 1, 1, 0⟩
  exact ⟨e, e₁, e', h, 0, _, _, hlog, htidy, hnew, hb, hrun,
    recreate_iff hlog htidy hfind hnew hb hrun⟩

/-- **The old piece comes back.**  The file `a` is written with the piece at unit 0 and closed, then
created again and synced with the piece at unit 1; after a restart it has both. -/
theorem recreate_mixed : ∃ e₀ steps e e₁ e' h,
    loadMetaData 0 (Env.fresh smallMd) = .ok (e₀, .ok) ∧
    Runs SyncState.step (fun s a => a.NoRename ∧ a.Allowed s) ⟨e₀, []⟩ steps ⟨e, []⟩ ∧
    newWritableFile e nameA = .ok (e₁, h) ∧
    Runs (writeStep h) (WriteStep.Allowed h) e₁ [.sync [⟨0, 1, 1, 0⟩]] e' ∧
    ∃ k, ∀ fuel, k < fuel → ∃ e'', replay fuel e'.restart = .ok (e'', .ok) ∧
      e''.tbl.data.pieces nameA = [⟨0, 0, 1, 0⟩, ⟨0, 1, 1, 0⟩] := by
  obtain ⟨e₀, steps, e, e₁, e', h, hload, hrun₀, hlog, htidy, hfind, hnew, hb, hrun, hfull⟩ :=
    exists_recreated ⟨0, 0, 1, 0⟩ ⟨0, 1, 1, 0⟩
  obtain ⟨hname, hstart⟩ := Rewritten.start hlog htidy hfind hnew hb
  obtain ⟨seq', recs', hi⟩ := Rewritten.run hrun hstart
  refine ⟨e₀, steps, e, e₁, e', h, hload, hrun₀, hnew, hrun, recs'.length, fun fuel hfuel => ?_⟩
  obtain ⟨e'', hr, htbl⟩ := hi.log.replay hfuel
  refine ⟨e'', hr, ?_⟩
  rw [Env.Full] at hfull
  have hold : (Table.replay [.base [], .update ⟨nameA, 0, 0, [⟨0, 0, 1, 0⟩]⟩]).data.pieces nameA
      = [⟨0, 0, 1, 0⟩] := rfl
  rcases hi.pieces with ⟨-, -, hp⟩ | ⟨hk, -⟩
  · rw [htbl, ← hname, hp, hold]
    rfl
  · have hone : recordCount [.sync [(⟨0, 1, 1, 0⟩ : ZrocksMap)]] = 1 := rfl
    omega

end Xztl
