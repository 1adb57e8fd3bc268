import Xztl.Env.Refine

/-!
# Env — restarts

A restart is `LoadMetaData` in a new process: the log is replayed and a snapshot of the table is
written.  When a rename is replayed the file gets its new key in the table but keeps its old name, and
entries and snapshots go by that name.

**`restart_run`**: after a run whose log has no rename that finds its source, every number of restarts
gives the same table, with the pieces each name had in memory and each file under its own name.
**`restart_renamed`** is a run with one rename, after which a restart leaves the file under a key that
is not its name.
-/

namespace Xztl

open Function Bytes List Table

/-! ### The replayed table is not larger -/

/-- The name and the pieces of an entry. -/
def FileRec.key (f : FileRec) : Name × List ZrocksMap := (f.name, f.pieces)

/-- The bytes of entries, by their keys. -/
theorem entries_length {fs : List FileRec} (h : ∀ f ∈ fs, f.name.length ≤ fileNameLen) :
    (fs.flatMap FileRec.bytes).length
      = ((fs.map FileRec.key).map fun k => zrocksFileMetaLen + zrocksMapLen * k.2.length).sum := by
  rw [length_flatMap, map_map]
  exact congrArg List.sum (map_congr_left fun f hf => FileRec.bytes_length (h f hf))

section

variable {t t' : Table}

theorem Table.Same.data (h : t.Same t') : t'.data = t.data := by
  funext n
  rw [Table.data, h.find, Table.data]
  refine congrFun (congrArg Option.map (funext fun p => ?_)) _
  obtain ⟨i, hi⟩ := h.objs p
  rw [hi]

/-- A table whose files are also in another one, with the same pieces, is bounded by it. -/
theorem Table.Bounded.of_sub (h : t.Bounded) (ht : t.Tidy) (ht' : t'.Tidy)
    (hsub : ∀ n q, t'.find n = some q → ∃ p, t.find n = some p ∧ (t.objs p).map = (t'.objs q).map) :
    t'.Bounded := by
  have hname : ∀ {n q}, t'.find n = some q → NameOk (t'.objs q).name := fun {n q} hn => by
    obtain ⟨p, hp, -⟩ := hsub n q hn
    rw [ht'.name hn, ← ht.name hp]
    exact h.name hp
  have hperm : (t'.snapshot.map FileRec.key).Subperm (t.snapshot.map FileRec.key) := by
    refine subperm_of_subset ?_ fun k hk => ?_
    · have := ht'.named.snapshot_nodup
      rw [show FileRec.name = Prod.fst ∘ FileRec.key from rfl, ← map_map] at this
      exact this.of_map _
    · obtain ⟨f, hf, rfl⟩ := mem_map.mp hk
      obtain ⟨n, q, hq, rfl⟩ := mem_snapshot.mp hf
      obtain ⟨p, hp, hmap⟩ := hsub n q hq
      refine mem_map.mpr ⟨(t.objs p).entry 0, mem_snapshot.mpr ⟨n, p, hp, rfl⟩, ?_⟩
      show ((t.objs p).name, (t.objs p).map) = ((t'.objs q).name, (t'.objs q).map)
      rw [ht.name hp, ht'.name hq, hmap]
  have hsnap : ∀ {t : Table}, (∀ {n q}, t.find n = some q → NameOk (t.objs q).name) →
      ∀ f ∈ t.snapshot, f.name.length ≤ fileNameLen := fun {t} hn f hf => by
    obtain ⟨n, q, hq, rfl⟩ := mem_snapshot.mp hf
    exact le_of_lt (hn hq).1
  refine ⟨hname, fun {n q} hn => ?_, ?_, ?_⟩
  · obtain ⟨p, hp, hmap⟩ := hsub n q hn
    rw [← hmap]
    exact h.pieces hp
  · have := hperm.length_le
    rw [length_map, length_map] at this
    exact lt_of_le_of_lt this h.files
  · refine lt_of_le_of_lt (Nat.add_le_add_left ?_ _) h.fits
    rw [entries_length (hsnap hname), entries_length (hsnap h.name)]
    obtain ⟨l, hl, hsl⟩ := hperm
    rw [← (hl.map _).sum_eq]
    exact (hsl.map _).sum_le_sum fun _ _ => Nat.zero_le _

/-- The bounds do not depend on what an object has beside its name and its pieces. -/
theorem Table.Bounded.of_set {p : Ptr} {f : ZnsFile} (h : (t.set p f).Bounded) (ht : t.Tidy)
    (hname : f.name = (t.objs p).name) (hmap : f.map = (t.objs p).map) : t.Bounded := by
  refine h.of_sub (ht.set hname) ht fun n q hn => ⟨q, hn, ?_⟩
  rw [objs_set]
  by_cases e : q = p
  · subst e
    rw [update_self, hmap]
  · rw [update_of_ne e]

/-- The table in front of the record of a Sync. -/
theorem Table.Bounded.pushed {h : Handle} {e e' : Env} {maps : List ZrocksMap} (ht : e.tbl.Tidy)
    (hb : e'.tbl.Bounded) (he : syncFlush h (pushPieces h e maps) = .ok e') :
    (pushPieces h e maps).tbl.Bounded := by
  obtain ⟨f, hp⟩ := exists_pushed h maps e
  have ht' := hp.tidy ht
  obtain ⟨e1, hupd, he⟩ := Except.bind_eq_ok.mp he
  cases he
  obtain ⟨hsame, -⟩ := flushUpdateMetaData_same hupd
  exact (Table.Bounded.of_set hb (ht'.same hsame) rfl rfl).same hsame.symm

/-- A Sync can be recorded when the table stays within the bounds. -/
theorem LogOk.exists_syncFlush {h : Handle} {e : Env} {seq : Nat} {recs : List Rec}
    (hl : LogOk e seq recs) (maps : List ZrocksMap) (ht : e.tbl.Tidy)
    (hfind : e.tbl.find h.fileName = some h.znsFile) (hseq : e.Full → e.sequence < 2 ^ 32)
    (hb : ∀ f : ZnsFile, f.name = (e.tbl.objs h.znsFile).name →
      f.map = (e.tbl.objs h.znsFile).map ++ maps → (e.tbl.set h.znsFile f).Bounded) :
    ∃ e', syncFlush h (pushPieces h e maps) = .ok e' ∧ e'.tbl.Bounded := by
  obtain ⟨f, hp⟩ := exists_pushed h maps e
  obtain ⟨c, hf⟩ := hp.file
  obtain ⟨e1, seq', recs', hupd, -⟩ := (hp.logOk hl).flushUpdate (hp.tidy ht)
    (by rw [hp.tbl]; exact hb f (by rw [hf]) (by rw [hf])) ((hp.find _).trans hfind)
    (hp.sequence_lt hseq)
  have he : syncFlush h (pushPieces h e maps) = .ok (e1.setFile h.znsFile
      { e1.tbl.objs h.znsFile with cache := some [] }) := Except.bind_eq_ok.mpr ⟨e1, hupd, rfl⟩
  obtain ⟨c', hsame⟩ := syncFlush_push he
  refine ⟨_, he, Bounded.same ?_ hsame⟩
  exact hb _ rfl rfl

/-! ### Attributes that survive -/

/-- The levels and sizes fit their fields. -/
def Contents.Ranged (A : Contents) : Prop :=
  ∀ n r, A n = some r → (-128 ≤ r.level ∧ r.level < 128) ∧ r.size < 2 ^ 64

theorem Contents.Ranged.recover {A : Contents} (h : A.Ranged) {r : FileRec} (hr : r.WF)
    (replace : Bool) : (A.recover r replace).Ranged := by
  intro n x hx
  by_cases e : n = r.name
  · subst e
    rw [A.recover_self] at hx
    cases hx
    exact ⟨hr.level, hr.size⟩
  · rw [A.recover_of_ne r replace e] at hx
    exact h n x hx

theorem Contents.Ranged.apply {A : Contents} (h : A.Ranged) {r : Rec} (hr : r.Sane) :
    (A.apply r).Ranged := by
  cases r with
  | base fs =>
    have hfs : ∀ f ∈ fs, f.WF := hr.2
    clear hr
    induction fs generalizing A with
    | nil => exact h
    | cons f fs ih =>
      exact ih (h.recover (hfs f mem_cons_self) false)
        fun g hg => hfs g (mem_cons_of_mem _ hg)
  | update f => exact h.recover hr false
  | replace src dst =>
    intro n x hx
    have hx : update (update A src none) dst (A src) n = some x := hx
    by_cases e : n = dst
    · subst e
      rw [update_self] at hx
      exact h src x hx
    · rw [update_of_ne e] at hx
      by_cases e' : n = src
      · subst e'
        rw [update_self] at hx
        cases hx
      · rw [update_of_ne e'] at hx
        exact h n x hx
  | delete m =>
    intro n x hx
    have hx : update A m none n = some x := hx
    by_cases e : n = m
    · subst e
      rw [update_self] at hx
      cases hx
    · rw [update_of_ne e] at hx
      exact h n x hx
  | gcChange f => exact h.recover hr true

theorem Contents.ranged_replay {recs : List Rec} (h : ∀ r ∈ recs, r.WF) :
    (Contents.replay recs).Ranged := by
  induction recs using List.reverseRecOn with
  | nil => exact fun n r hr => nomatch hr
  | append_singleton recs r ih =>
    rw [Contents.replay_append]
    exact (ih fun x hx => h x (mem_append_left _ hx)).apply
      (h r (mem_append_right _ (mem_singleton_self r))).sane

/-- Values that fit are written as they are. -/
theorem Table.Named.replay_snapshot_data (h : t.Named) (hr : t.data.Ranged) :
    Contents.replay [.base t.snapshot] = t.data := by
  funext n
  rw [h.replay_snapshot, Table.data]
  cases hn : t.find n with
  | none => rfl
  | some p =>
    obtain ⟨hl, hs⟩ := hr n _ (by rw [Table.data, hn]; rfl)
    have hl : -128 ≤ (t.objs p).level ∧ (t.objs p).level < 128 := hl
    have hs : (t.objs p).size < 2 ^ 64 := hs
    have hlevel : toInt8 (t.objs p).level = (t.objs p).level := by
      rw [toInt8]
      omega
    rw [Option.map_some, Option.map_some, ZnsFile.entry, hlevel, Nat.mod_eq_of_lt hs, drop_zero]

/-! ### One restart -/

/-- All pieces are recorded. -/
def Table.Clean (t : Table) : Prop :=
  ∀ n p, t.find n = some p → (t.objs p).startIndex = (t.objs p).map.length

theorem Table.Clean.recorded (t : Table) : t.recorded.Clean := fun n p hn => by
  rw [find_recorded] at hn
  rw [objs_recorded hn]
  rfl

variable {e : Env} {seq fuel : Nat} {recs : List Rec}

/-- The contents of a log that follows a recorded table. -/
theorem Follows.pieces (h : Follows e seq recs) (hc : e.tbl.Clean) (n : Name) :
    (Contents.replay recs).pieces n = e.tbl.data.pieces n := by
  cases hn : e.tbl.find n with
  | none => rw [Contents.pieces, (h.agrees.shows n).absent hn, Contents.pieces, data_none hn]
  | some p =>
    rw [(h.agrees.shows n).pieces hn, hc n p hn, take_length, nil_append,
      data_pieces hn]

/-- **A restart** on a quiet log gives the table of the log, whose snapshot is the new log. -/
theorem Follows.restart (h : Follows e seq recs) (hc : e.tbl.Clean)
    (hq : Quiet (fun _ => none) recs) (hseq : seq + 1 < 2 ^ 32) (hfuel : recs.length < fuel) :
    ∃ e', loadMetaData fuel e.restart = .ok (e', .ok) ∧
      Follows e' (seq + 1) [.base e'.tbl.snapshot] ∧ e'.tbl.Clean ∧
      e'.tbl.data = Contents.replay recs := by
  obtain ⟨ht, hdata⟩ := replay_refines hq
  have hb : (Table.replay recs).Bounded := h.bounded.of_sub h.agrees.tidy ht fun n q hn => by
    have hA : (Contents.replay recs).pieces n = ((Table.replay recs).objs q).map := by
      rw [← hdata, data_pieces hn]
    cases hp : e.tbl.find n with
    | none =>
      have := (h.agrees.shows n).absent hp
      rw [← hdata, Table.data, hn] at this
      cases this
    | some p =>
      refine ⟨p, rfl, ?_⟩
      rw [← hA, h.pieces hc, data_pieces hp]
  obtain ⟨e', hload, htbl, hl⟩ := load_logged h.log.log h.log.lt h.log.wf (hb.snapOk ht) hfuel
  have hsame : (Table.replay recs).Same e'.tbl := htbl ▸ .recorded _
  refine ⟨e', hload, ⟨⟨by rw [hsame.snapshot]; exact hl, hseq, fun r hr => ?_⟩, ?_, hb.same hsame⟩,
    htbl ▸ Table.Clean.recorded _, by rw [hsame.data, hdata]⟩
  · rw [mem_singleton.mp hr, hsame.snapshot]
    exact hb.snapshot_wf
  · rw [hsame.snapshot, htbl]
    exact ht.agrees_snapshot

/-! ### Any number of restarts -/

/-- Restarts in a row. -/
def restarts (fuel : Nat) : Nat → Env → Except Stop Env
  | 0, e => .ok e
  | k + 1, e => do
      let e ← restarts fuel k e
      let (e, _) ← loadMetaData fuel e.restart
      return e

/-- **Restarts give the same table.** -/
theorem Follows.restarts (h : Follows e seq recs) (hc : e.tbl.Clean)
    (hq : Quiet (fun _ => none) recs) (hfuel : recs.length < fuel) (hfuel' : 1 < fuel) (k : Nat)
    (hseq : seq + k + 1 < 2 ^ 32) :
    ∃ e', Xztl.restarts fuel (k + 1) e = .ok e' ∧
      Follows e' (seq + k + 1) [.base e'.tbl.snapshot] ∧ e'.tbl.Clean ∧
      e'.tbl.data = Contents.replay recs := by
  induction k with
  | zero =>
    obtain ⟨e', hload, h'⟩ := h.restart hc hq hseq hfuel
    refine ⟨e', ?_, h'⟩
    rw [Xztl.restarts, Xztl.restarts]
    simp only [bind, Except.bind, hload]
    rfl
  | succ k ih =>
    obtain ⟨e1, hr, h1, hc1, hdata1⟩ := ih (by omega)
    have hno : NoReplace [.base e1.tbl.snapshot] := fun r hr => by
      rw [mem_singleton.mp hr]
      exact nofun
    obtain ⟨e', hload, h', hc', hdata'⟩ := h1.restart hc1 hno.quiet (by omega) hfuel'
    refine ⟨e', ?_, h', hc', ?_⟩
    · rw [Xztl.restarts, hr]
      simp only [bind, Except.bind, hload]
      rfl
    · rw [hdata', h1.agrees.tidy.named.replay_snapshot_data, hdata1]
      rw [hdata1]
      exact Contents.ranged_replay h.log.wf

end

/-! ### A file is renamed -/

/-- The name `b`. -/
def nameB : Name := [98]

theorem nameB_ok : NameOk nameB := ⟨by decide, by decide⟩

theorem rename_single {f : ZnsFile} (hn : f.name = nameA) :
    (Table.single f).renamed nameA nameB 0 = Table.single { f with name := nameB } := by
  have hfiles : ((Table.single f).renamed nameA nameB 0).files
      = (Table.single { f with name := nameB }).files := by
    show ((((∅ : Std.ExtTreeMap Name (Option Ptr)).insert f.name (some 0)).insert nameB
      (some 0)).erase nameA) = (∅ : Std.ExtTreeMap Name (Option Ptr)).insert nameB (some 0)
    rw [hn]
    rfl
  have hobjs : ((Table.single f).renamed nameA nameB 0).objs
      = (Table.single { f with name := nameB }).objs := update_idem _ _ _
  rw [Table.mk.injEq]
  exact ⟨hfiles, hobjs, rfl, rfl⟩

/-- The table that is loaded when the rename is in the log. -/
def renamedTable (m : ZrocksMap) : Table :=
  Table.replay [.base [], .update ⟨nameA, 0, 0, [m]⟩, .replace nameA nameB]

/-- The file is found under its new name and has the old one. -/
theorem renamedTable_spec (m : ZrocksMap) : (renamedTable m).find nameB = some 0 ∧
    ((renamedTable m).objs 0).name = nameA ∧ SnapOk (renamedTable m) := by
  obtain ⟨f, hf⟩ : ∃ f : ZnsFile,
    f = { ZnsFile.new nameA (-1) with map := [m], size := 0, level := 0 } := ⟨_, rfl⟩
  have heq : renamedTable m = ((Table.single f).erase nameA).put nameB (some 0) := by rw [hf]; rfl
  have hname : f.name = nameA := by rw [hf]; rfl
  have hfind : ∀ n, (renamedTable m).find n = if nameB = n then some 0 else none := fun n => by
    rw [heq, find_put, find_erase, find_single, hname]
    by_cases e : nameA = n
    · rw [if_pos e]
    · rw [if_neg e, if_neg e]
  have hobj : (renamedTable m).objs 0 = f := by
    rw [heq]
    exact objs_single f
  refine ⟨by rw [hfind, if_pos rfl], by rw [hobj, hname], fun n p hn => ?_, ?_⟩
  · rw [hfind] at hn
    split at hn <;> cases hn
    refine ⟨rfl, ?_⟩
    rw [hobj, hname]
    decide
  · rw [show (renamedTable m).snapshot = [⟨nameA, 0, 0, [m]⟩] from rfl, flatMap_singleton,
      FileRec.bytes_length (r := ⟨nameA, 0, 0, [m]⟩) (show (1 : Nat) ≤ fileNameLen by decide)]
    show metaZoneHeadLen + metadataHeadLen + 4 + (zrocksFileMetaLen + zrocksMapLen * 1)
      < fileMetadataBufSize
    decide

/-- **Restarts after a run.**  The run is within the bounds, with snapshots whose numbers fit 32 bits,
and in the log it leaves no rename finds its source.  Then all restarts give the same contents, those
of the table in memory, with each file under its own name and no file under two names. -/
theorem restart_run {g : MdSize} {fuel₀ : Nat} {e₀ : Env} {steps : List FileStep} {s : SyncState}
    (hload : loadMetaData fuel₀ (Env.fresh g) = .ok (e₀, .ok))
    (hrun : Runs SyncState.step (fun s a => a.Allowed s) ⟨e₀, []⟩ steps s) (hdone : s.started = [])
    {seq fuel : Nat} {recs : List Rec} (hlog : LogIn s.env.md seq recs) (hwf : ∀ r ∈ recs, r.WF)
    (hquiet : Quiet (fun _ => none) recs) (hfuel : recs.length < fuel) (hfuel' : 1 < fuel) :
    ∃ A : Contents, (∀ n, A.pieces n = s.env.tbl.data.pieces n) ∧
      ∀ k, s.env.sequence + k < 2 ^ 32 → ∃ e', restarts fuel (k + 1) s.env = .ok e' ∧
        e'.tbl.data = A ∧ (∀ n q, e'.tbl.find n = some q → (e'.tbl.objs q).name = n) ∧
        ∀ n n' q, e'.tbl.find n = some q → e'.tbl.find n' = some q → n = n' := by
  obtain ⟨e₁, he₁, ht, hl, -⟩ := load_fresh g fuel₀
  cases he₁.symm.trans hload
  obtain ⟨seq', recs', hinv⟩ := hrun.invariant (I := fun s => ∃ seq recs, SyncInv s seq recs)
    (fun s a s' ⟨seq, recs, h⟩ ha hs => by
      obtain ⟨seq', recs', -, h'⟩ := h.step ha hs
      exact ⟨seq', recs', h'⟩) ⟨0, _, SyncInv.fresh hl ht⟩
  obtain rfl := hinv.follows.log.log.unique hlog hinv.follows.log.wf hwf
  have hc : s.env.tbl.Clean := fun n p hn => hinv.clean hn (hdone ▸ not_mem_nil)
  refine ⟨Contents.replay recs', hinv.follows.pieces hc, fun k hk => ?_⟩
  have hnum := hinv.follows.log.sequence
  have hlt := hinv.follows.log.lt
  obtain ⟨e', hr, h', -, hdata⟩ := hinv.follows.restarts hc hquiet hfuel hfuel' k (by omega)
  exact ⟨e', hr, hdata, fun n q hn => h'.agrees.tidy.name hn,
    fun n n' q hn hn' => h'.agrees.tidy.inj hn hn'⟩

/-- The file `a` is written and closed, and has its piece after every restart. -/
theorem restart_run_written : ∃ e₀ steps s,
    loadMetaData 0 (Env.fresh smallMd) = .ok (e₀, .ok) ∧
    Runs SyncState.step (fun s a => a.Allowed s) ⟨e₀, []⟩ steps s ∧ s.started = [] ∧
    ∀ k, s.env.sequence + k < 2 ^ 32 → ∃ e', restarts 3 (k + 1) s.env = .ok e' ∧
      e'.tbl.data.pieces nameA = [⟨0, 0, 1, 0⟩] ∧
      ∀ n q, e'.tbl.find n = some q → (e'.tbl.objs q).name = n := by
  obtain ⟨e₀, e, f, hload, h, hmap⟩ := exists_oneFile ⟨0, 0, 1, 0⟩
  obtain ⟨steps, hrun⟩ := h.run
  have hrun' := hrun.mono fun s a ha => ha.2
  have hlog := h.inv.follows.log
  obtain ⟨A, hA, hall⟩ := restart_run hload hrun' rfl hlog.log hlog.wf h.noReplace.quiet
    (show _ < 3 by decide) (by decide)
  refine ⟨e₀, steps, _, hload, hrun', rfl, fun k hk => ?_⟩
  obtain ⟨e', hr, hdata, hnames, -⟩ := hall k hk
  refine ⟨e', hr, ?_, hnames⟩
  rw [hdata, hA, data_pieces (show e.tbl.find nameA = some 0 by rw [h.tbl, find_nameA h.name]),
    h.tbl, objs_single]
  exact hmap

/-- **A restart leaves a file under another name.**  The file `a` is written, closed and renamed to
`b`; after a restart the table has it under `b`, with the name `a`. -/
theorem restart_renamed : ∃ e₀ steps s, loadMetaData 0 (Env.fresh smallMd) = .ok (e₀, .ok) ∧
    Runs SyncState.step (fun s a => a.Allowed s) ⟨e₀, []⟩ steps s ∧ s.started = [] ∧
    ∀ fuel, 3 < fuel → ∃ e' q, restarts fuel 1 s.env = .ok e' ∧ e'.tbl.find nameB = some q ∧
      (e'.tbl.objs q).name = nameA := by
  obtain ⟨e₀, e, f, hload, h, hmap⟩ := exists_oneFile ⟨0, 0, 1, 0⟩
  obtain ⟨steps, hrun⟩ := h.run
  have hlog := h.inv.follows.log
  have hp : e.tbl.find nameA = some 0 := by rw [h.tbl, find_nameA h.name]
  have hone : f.marked.map.length ≤ maxPieces := by
    rw [show f.marked.map = _ from hmap]
    exact show 1 ≤ maxPieces by decide
  have hfull : ¬ e.Full := h.not_full
  have htbl : e.tbl.renamed nameA nameB 0 = .single { f.marked with name := nameB } := by
    rw [h.tbl, rename_single h.name]
  obtain ⟨e', seq', recs', he, hk, hf⟩ := h.inv.follows.renameFile hp (by decide) nameB_ok
    (by
      rw [htbl]
      exact .single nameB_ok hone) fun hc => absurd hc hfull
  have hs : (SyncState.mk e []).step (.rename nameA nameB) = some ⟨e', []⟩ := by
    rw [SyncState.step]
    simp only [show renameFile e nameA nameB = _ from he]
    rfl
  have ha : FileStep.Allowed ⟨e, []⟩ (.rename nameA nameB) := by
    refine ⟨⟨⟨not_mem_nil, not_mem_nil, by decide⟩, fun s' hs' => ?_⟩,
      fun hc => absurd hc hfull⟩
    cases hs.symm.trans hs'
    exact hk.bounded
  refine ⟨e₀, steps ++ [.rename nameA nameB], ⟨e', []⟩, hload,
    (hrun.mono fun s a ha => ha.2).append (.one ha hs), rfl, fun fuel hfuel => ?_⟩
  cases hf with
  | snapshot full tbl kept => exact absurd ((small_replace nameA_ok nameB_ok).room_iff.mpr hfull) full
  | append room tbl curr =>
    obtain ⟨hfind, hname, hok⟩ := renamedTable_spec ⟨0, 0, 1, 0⟩
    obtain ⟨e₂, hload₂, htbl₂, -⟩ := load_logged hk.log.log hk.log.lt hk.log.wf hok hfuel
    have htbl₂ : e₂.tbl = (renamedTable ⟨0, 0, 1, 0⟩).recorded := htbl₂
    refine ⟨e₂, 0, ?_, ?_, ?_⟩
    · rw [restarts, restarts]
      simp only [bind, Except.bind, show loadMetaData fuel e'.restart = _ from hload₂]
      rfl
    · rw [htbl₂, find_recorded]
      exact hfind
    · rw [htbl₂, objs_recorded hfind]
      exact hname

end Xztl
