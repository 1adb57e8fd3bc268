import Xztl.Env.Agree

/-!
# Env — loading gives the table back

Runs of creations, Syncs, deletions and GC changes.  A Sync is two steps, pushing its pieces and
recording them, with steps of other files in between; `started` has the files whose Sync has pushed
and not recorded.

**`replay_run`**: when no Sync is under way, replaying the log gives each file with pieces exactly
these pieces, and the level and size of its last entry — in runs in which a snapshot is written only
while its number fits the 32 bits of a zone head.  **`replay_wrapped`** is what happens at the next
number: the head of the new snapshot is zero, and the old log is loaded.
-/

namespace Xztl

open Function Bytes List Except Option Table

/-! ### Runs -/

/-- A step of a run.  An Append and a hint change the size and the level, a Sync is `push` and
`flush`, and `close` is what a Close does after its Sync. -/
inductive FileStep where
  | create (n : Name)
  | grow (n : Name) (size : Nat)
  | hint (n : Name) (level : Int)
  | push (n : Name) (maps : List ZrocksMap)
  | flush (n : Name)
  | delete (n : Name)
  | close (n : Name)
  | gcChange (n : Name) (map : List ZrocksMap)
  | rename (src dst : Name)

/-- A file with another map. -/
def ZnsFile.setMap (f : ZnsFile) (map : List ZrocksMap) : ZnsFile := { f with map := map }

/-- An environment, and the files with a Sync under way. -/
structure SyncState where
  env : Env
  started : List Name

/-- A step, for a file of the table. -/
def SyncState.step (s : SyncState) : FileStep → Option SyncState
  | .create n => do
      let (e, _) ← (newWritableFile s.env n).toOption
      some ⟨e, s.started⟩
  | .grow n size => do
      let p ← s.env.tbl.find n
      some ⟨growSize s.env ⟨n, p⟩ size, s.started⟩
  | .hint n level => do
      let p ← s.env.tbl.find n
      let e ← (setWriteLifeTimeHint s.env ⟨n, p⟩ level).toOption
      some ⟨e, s.started⟩
  | .push n maps => do
      let p ← s.env.tbl.find n
      some ⟨pushPieces ⟨n, p⟩ s.env maps, n :: s.started⟩
  | .flush n => do
      let p ← s.env.tbl.find n
      let e ← (syncFlush ⟨n, p⟩ s.env).toOption
      some ⟨e, s.started.filter (· ≠ n)⟩
  | .delete n => do
      let p ← s.env.tbl.find n
      let e ← (removeFile s.env p n).toOption
      some ⟨e, s.started⟩
  | .close n => do
      let p ← s.env.tbl.find n
      some ⟨release s.env ⟨n, p⟩, s.started⟩
  | .gcChange n map => do
      let p ← s.env.tbl.find n
      let e ← (flushGCChangeMetaData (s.env.setFile p ((s.env.tbl.objs p).setMap map)) p).toOption
      some ⟨e, s.started⟩
  | .rename src dst => do
      let e ← (renameFile s.env src dst).toOption
      some ⟨e, s.started⟩

/-- Only new names are created, no file is deleted or renamed in the middle of its Sync, and none is
renamed to itself. -/
def FileStep.InOrder (s : SyncState) : FileStep → Prop
  | .create n => s.env.tbl.find n = none
  | .delete n => n ∉ s.started
  | .rename src dst => src ∉ s.started ∧ dst ∉ s.started ∧ src ≠ dst
  | _ => True

/-- Not a rename. -/
def FileStep.NoRename : FileStep → Prop
  | .rename _ _ => False
  | _ => True

/-- The steps of a run: in order, and within the bounds. -/
structure FileStep.InBounds (s : SyncState) (a : FileStep) : Prop where
  order : a.InOrder s
  bounded : ∀ s', s.step a = some s' → s'.env.tbl.Bounded

/-- And when the metadata zone is full, the number of the snapshot fits 32 bits. -/
structure FileStep.Allowed (s : SyncState) (a : FileStep) : Prop extends a.InBounds s where
  sequence : s.env.Full → s.env.sequence < 2 ^ 32

/-! ### The invariant -/

/-- The log agrees with the table, and the files without a Sync under way are recorded. -/
structure SyncInv (s : SyncState) (seq : Nat) (recs : List Rec) : Prop where
  follows : Follows s.env seq recs
  clean : ∀ {n p}, s.env.tbl.find n = some p → n ∉ s.started →
    (s.env.tbl.objs p).startIndex = (s.env.tbl.objs p).map.length

section

variable {s s' : SyncState} {e e' : Env} {seq seq' : Nat} {recs recs' : List Rec} {r : Rec}
  {n : Name} {p : Ptr}

theorem Flushed.noReplace (h : Flushed e seq recs r e' seq' recs') (hr : r.op ≠ .replace)
    (hrecs : NoReplace recs) : NoReplace recs' := by
  intro x hx
  cases h with
  | append room tbl curr =>
    rcases mem_append.mp hx with hx | hx
    · exact hrecs x hx
    · rw [mem_singleton.mp hx]
      exact hr
  | snapshot full tbl kept =>
    rw [mem_singleton.mp hx]
    exact nofun

/-- What is recorded stays so. -/
theorem Flushed.clean (h : Flushed e seq recs r e' seq' recs') (hn : e.tbl.find n = some p)
    (hc : (e.tbl.objs p).startIndex = (e.tbl.objs p).map.length) :
    (e'.tbl.objs p).startIndex = (e'.tbl.objs p).map.length := by
  cases h with
  | append room tbl curr =>
    rw [tbl]
    exact hc
  | snapshot full tbl kept =>
    rw [tbl, objs_recorded hn]
    rfl

/-- A change of an object in what the log does not follow. -/
theorem SyncInv.touch (h : SyncInv s seq recs) {f : ZnsFile} (hname : f.name = (s.env.tbl.objs p).name)
    (hmap : f.map = (s.env.tbl.objs p).map) (hi : f.startIndex = (s.env.tbl.objs p).startIndex)
    (hp : s.env.tbl.find n = some p) (hb : (s.env.setFile p f).tbl.Bounded) :
    SyncInv ⟨s.env.setFile p f, s.started⟩ seq recs := by
  refine ⟨h.follows.touch hname hmap hi hp hb, fun {m q} hm hms => ?_⟩
  · show (update s.env.tbl.objs p f q).startIndex
      = (update s.env.tbl.objs p f q).map.length
    by_cases e : q = p
    · subst e
      rw [update_self, hmap, hi]
      exact h.clean hm hms
    · rw [update_of_ne e]
      exact h.clean hm hms

/-- A record, when the table in front of it is clean but for the files `st`. -/
theorem SyncInv.record {t : Table} {st : List Name}
    (hf : Flushed (s.env.setTbl t) seq recs r e' seq' recs') (hk : Follows e' seq' recs')
    (hc : ∀ {n p}, t.find n = some p → n ∉ st → (t.objs p).startIndex = (t.objs p).map.length) :
    SyncInv ⟨e', st⟩ seq' recs' := by
  refine ⟨hk, fun {m q} hm hms => ?_⟩
  have hm' : t.find m = some q := (hf.same.find m).symm.trans hm
  exact hf.clean hm' (hc hm' hms)

/-- The mark of one file more. -/
theorem SyncInv.clean_marked (h : SyncInv s seq recs) (hp : s.env.tbl.find n = some p) (f : ZnsFile)
    {m : Name} {q : Ptr} (hm : s.env.tbl.find m = some q) (hms : m ∉ s.started ∨ m = n) :
    ((s.env.tbl.set p f.marked).objs q).startIndex
      = ((s.env.tbl.set p f.marked).objs q).map.length := by
  rw [objs_set]
  by_cases e : q = p
  · subst e
    rw [update_self]
    rfl
  · rw [update_of_ne e]
    refine h.clean hm (hms.resolve_right fun hmn => ?_)
    subst hmn
    exact e (Option.some.inj (hm.symm.trans hp))

/-! ### The steps -/

section

variable (h : SyncInv s seq recs)
include h

theorem SyncInv.create (hn : s.env.tbl.find n = none) {x : Env × Handle}
    (he : newWritableFile s.env n = .ok x) (hb : x.1.tbl.Bounded) :
    SyncInv ⟨x.1, s.started⟩ seq recs := by
  refine ⟨h.follows.newWritableFile hn he hb, fun {m q} hm hms => ?_⟩
  have hnew := newWritableFile_new he
  have hm : x.1.tbl.find m = some q := hm
  show (x.1.tbl.objs q).startIndex = (x.1.tbl.objs q).map.length
  rw [hnew.find] at hm
  rw [hnew.objs]
  by_cases e : n = m
  · rw [if_pos e] at hm
    cases hm
    rw [update_self]
    rfl
  · rw [if_neg e] at hm
    rw [update_of_ne (Nat.ne_of_lt (h.follows.agrees.tidy.lt hm))]
    exact h.clean hm hms

section

variable (hp : s.env.tbl.find n = some p)
include hp

theorem SyncInv.push {maps : List ZrocksMap} (hb : (pushPieces ⟨n, p⟩ s.env maps).tbl.Bounded) :
    SyncInv ⟨pushPieces ⟨n, p⟩ s.env maps, n :: s.started⟩ seq recs := by
  refine ⟨h.follows.push hp hb, fun {m q} hm hms => ?_⟩
  obtain ⟨c, nf, hpush⟩ := pushPieces_eq ⟨n, p⟩ maps s.env
  have hm : (pushPieces ⟨n, p⟩ s.env maps).tbl.find m = some q := hm
  rw [hpush] at hm ⊢
  have hmn : m ≠ n := fun e => hms (e ▸ mem_cons_self)
  have hq : q ≠ p := fun e => hmn (h.follows.agrees.tidy.inj hm (e ▸ hp))
  rw [objs_set, update_of_ne hq]
  exact h.clean hm fun hs => hms (mem_cons_of_mem _ hs)

theorem SyncInv.flush (hseq : s.env.Full → s.env.sequence < 2 ^ 32)
    (he : syncFlush ⟨n, p⟩ s.env = .ok e') (hb : e'.tbl.Bounded) :
    ∃ seq' recs', (NoReplace recs → NoReplace recs') ∧
      SyncInv ⟨e', s.started.filter (· ≠ n)⟩ seq' recs' := by
  obtain ⟨e1, seq', recs', he1, hk, hcases⟩ := h.follows.flushUpdate hp hseq
  obtain ⟨e2, he2, he⟩ := bind_eq_ok.mp he
  cases he1.symm.trans he2
  cases he
  -- in front of the change of the cache
  obtain ⟨hno, hinv⟩ : (NoReplace recs → NoReplace recs') ∧
      SyncInv ⟨e1, s.started.filter (· ≠ n)⟩ seq' recs' := by
    have hmem : ∀ {m}, m ∉ s.started.filter (· ≠ n) → m ∉ s.started ∨ m = n := by
      intro m hm
      by_contra hc
      rw [not_or, not_not] at hc
      exact hm (mem_filter.mpr ⟨hc.1, by simpa using hc.2⟩)
    rcases hcases with ⟨hi, rfl, rfl, rfl⟩ | ⟨-, hf⟩
    · refine ⟨id, hk, fun {m q} hm hms => ?_⟩
      rcases hmem hms with hms | rfl
      · exact h.clean hm hms
      · cases hp.symm.trans hm
        exact hi
    · exact ⟨hf.noReplace nofun,
        .record hf hk fun hm hms => h.clean_marked hp _ hm (hmem hms)⟩
  have hp1 : e1.tbl.find n = some p := by
    rw [(flushUpdateMetaData_same he1).1.find]
    exact hp
  exact ⟨seq', recs', hno, hinv.touch rfl rfl rfl hp1 hb⟩

theorem SyncInv.delete (hseq : s.env.Full → s.env.sequence < 2 ^ 32)
    (he : removeFile s.env p n = .ok e') (hb : e'.tbl.Bounded) :
    ∃ seq' recs', (NoReplace recs → NoReplace recs') ∧
      SyncInv ⟨e', s.started⟩ seq' recs' := by
  have hb1 := hb.same (flushDelMetaData_same he).1.symm
  obtain ⟨e1, seq', recs', he1, hk, hf⟩ := h.follows.removeFile hp hb1 hseq
  cases he1.symm.trans he
  refine ⟨seq', recs', hf.noReplace nofun, .record hf hk fun {m q} hm hms => ?_⟩
  rw [find_erase, find_delete] at hm
  by_cases e : n = m
  · rw [if_pos e] at hm
    cases hm
  · rw [if_neg e] at hm
    exact h.clean hm hms

theorem SyncInv.gcChange (hseq : s.env.Full → s.env.sequence < 2 ^ 32) {map : List ZrocksMap}
    (he : flushGCChangeMetaData (s.env.setFile p ((s.env.tbl.objs p).setMap map)) p = .ok e')
    (hb : e'.tbl.Bounded) :
    ∃ seq' recs', (NoReplace recs → NoReplace recs') ∧
      SyncInv ⟨e', s.started⟩ seq' recs' := by
  have hb1 := hb.same (flushFile_same he).1.symm
  obtain ⟨e1, seq', recs', he1, hk, hf⟩ := h.follows.flushGCChange hp
    (f := (s.env.tbl.objs p).setMap map) rfl hb1 hseq
  cases he1.symm.trans he
  exact ⟨seq', recs', hf.noReplace nofun,
    .record hf hk fun hm hms => h.clean_marked hp _ hm (Or.inl hms)⟩

end

theorem SyncInv.rename {src dst : Name} (ho : src ∉ s.started ∧ dst ∉ s.started ∧ src ≠ dst)
    (hseq : s.env.Full → s.env.sequence < 2 ^ 32) (he : renameFile s.env src dst = .ok e')
    (hb : e'.tbl.Bounded) : ∃ seq' recs', SyncInv ⟨e', s.started⟩ seq' recs' := by
  obtain ⟨-, rfl⟩ | ⟨p, hp, hsame, -⟩ := renameFile_cases he
  · exact ⟨seq, recs, h⟩
  · obtain ⟨t, ht⟩ : ∃ t, t = s.env.tbl.renamed src dst p := ⟨_, rfl⟩
    have hb1 : t.Bounded := ht ▸ hb.same hsame.symm
    have hfind : ∀ n, t.find n = if src = n then none else if dst = n then some p
        else s.env.tbl.find n := fun n => by
      rw [ht, find_renamed]
    have hdst : t.find dst = some p := by rw [hfind, if_neg ho.2.2, if_pos rfl]
    have hobj : t.objs p = { s.env.tbl.objs p with name := dst } := by
      rw [ht, objs_renamed]
    have hname : NameOk dst := by
      have := hb1.name hdst
      rwa [hobj] at this
    obtain ⟨e1, seq', recs', he1, hk, hf⟩ :=
      h.follows.renameFile hp ho.2.2 hname (ht ▸ hb1) hseq
    cases he1.symm.trans he
    rw [← ht] at hf
    refine ⟨seq', recs', .record hf hk fun {m q} hm hms => ?_⟩
    by_cases e : dst = m
    · subst e
      cases hdst.symm.trans hm
      rw [hobj]
      exact h.clean hp ho.1
    · rw [hfind, if_neg e] at hm
      by_cases e' : src = m
      · rw [if_pos e'] at hm
        cases hm
      · rw [if_neg e'] at hm
        have hq : q ≠ p := fun hq => e' (h.follows.agrees.tidy.inj hp (hq ▸ hm))
        rw [show t.objs q = s.env.tbl.objs q by rw [ht]; exact update_of_ne hq _ _]
        exact h.clean hm hms

theorem SyncInv.step {a : FileStep} (ha : a.Allowed s) (hs : s.step a = some s') :
    ∃ seq' recs', (a.NoRename → NoReplace recs → NoReplace recs') ∧
      SyncInv s' seq' recs' := by
  have hb := ha.bounded s' hs
  cases a with
  | create n =>
    obtain ⟨x, hx, ⟨⟩⟩ := toOption_bind_eq_some.mp hs
    exact ⟨seq, recs, fun _ => id, h.create ha.order hx hb⟩
  | grow n size =>
    obtain ⟨p, hp, hs⟩ := bind_eq_some_iff.mp hs
    cases hs
    exact ⟨seq, recs, fun _ => id, h.touch rfl rfl rfl hp hb⟩
  | hint n level =>
    obtain ⟨p, hp, hs⟩ := bind_eq_some_iff.mp hs
    obtain ⟨e, he, ⟨⟩⟩ := toOption_bind_eq_some.mp hs
    obtain ⟨f, hf, he⟩ := bind_eq_ok.mp he
    rw [Table.get, if_neg (by simp [h.follows.agrees.tidy.live hp])] at hf
    cases hf
    cases he
    exact ⟨seq, recs, fun _ => id, h.touch rfl rfl rfl hp hb⟩
  | push n maps =>
    obtain ⟨p, hp, hs⟩ := bind_eq_some_iff.mp hs
    cases hs
    exact ⟨seq, recs, fun _ => id, h.push hp hb⟩
  | flush n =>
    obtain ⟨p, hp, hs⟩ := bind_eq_some_iff.mp hs
    obtain ⟨e, he, ⟨⟩⟩ := toOption_bind_eq_some.mp hs
    obtain ⟨seq', recs', hno, h'⟩ :=
      h.flush hp ha.sequence he hb
    exact ⟨seq', recs', fun _ => hno, h'⟩
  | delete n =>
    obtain ⟨p, hp, hs⟩ := bind_eq_some_iff.mp hs
    obtain ⟨e, he, ⟨⟩⟩ := toOption_bind_eq_some.mp hs
    obtain ⟨seq', recs', hno, h'⟩ :=
      h.delete hp ha.sequence he hb
    exact ⟨seq', recs', fun _ => hno, h'⟩
  | close n =>
    obtain ⟨p, hp, hs⟩ := bind_eq_some_iff.mp hs
    cases hs
    exact ⟨seq, recs, fun _ => id, h.touch rfl rfl rfl hp hb⟩
  | gcChange n map =>
    obtain ⟨p, hp, hs⟩ := bind_eq_some_iff.mp hs
    obtain ⟨e, he, ⟨⟩⟩ := toOption_bind_eq_some.mp hs
    obtain ⟨seq', recs', hno, h'⟩ :=
      h.gcChange hp ha.sequence he hb
    exact ⟨seq', recs', fun _ => hno, h'⟩
  | rename src dst =>
    obtain ⟨e, he, ⟨⟩⟩ := toOption_bind_eq_some.mp hs
    obtain ⟨seq', recs', h'⟩ := h.rename ha.order ha.sequence he hb
    exact ⟨seq', recs', False.elim, h'⟩

end

/-! ### What is loaded -/

/-- What the log has of a file with pieces. -/
theorem SyncInv.loaded (h : SyncInv s seq recs) (hno : NoReplace recs) (hn : s.env.tbl.find n = some p)
    (hs : n ∉ s.started) (hne : (s.env.tbl.objs p).map ≠ []) : ∃ q r,
      (Table.replay recs).find n = some q ∧ ((Table.replay recs).objs q).map = (s.env.tbl.objs p).map ∧
        lastEntry recs n = some r ∧ ((Table.replay recs).objs q).level = r.level ∧
        ((Table.replay recs).objs q).size = r.size := by
  obtain ⟨-, hdata⟩ := replay_refines hno.quiet
  have hpieces := (h.follows.agrees.shows n).pieces hn
  rw [h.clean hn hs, take_length, nil_append] at hpieces
  -- the contents have an entry, for they have pieces
  obtain ⟨r, hrec⟩ : ∃ r, Contents.replay recs n = some r := by
    cases hc : Contents.replay recs n with
    | some r => exact ⟨r, rfl⟩
    | none =>
      rw [Contents.pieces, hc] at hpieces
      exact absurd hpieces.symm hne
  obtain ⟨r', hlast, hattrs⟩ := map_eq_some_iff.mp
    (Contents.replay_attrs recs n hno hrec)
  rw [Contents.pieces, hrec] at hpieces
  rw [← hdata] at hrec
  obtain ⟨q, hq, rfl⟩ := map_eq_some_iff.mp hrec
  exact ⟨q, r', hq, hpieces, hlast, (congrArg Prod.fst hattrs).symm, (congrArg Prod.snd hattrs).symm⟩

/-- **The log gives the table back**, when no Sync is under way. -/
theorem SyncInv.replay (h : SyncInv s seq recs) (hno : NoReplace recs) (hdone : s.started = [])
    {fuel : Nat} (hfuel : recs.length < fuel) :
    ∃ e', Xztl.replay fuel s.env.restart = .ok (e', .ok) ∧
      (∀ n p, s.env.tbl.find n = some p → (s.env.tbl.objs p).map ≠ [] → ∃ q r,
        e'.tbl.find n = some q ∧ (e'.tbl.objs q).map = (s.env.tbl.objs p).map ∧
          lastEntry recs n = some r ∧ (e'.tbl.objs q).level = r.level ∧
          (e'.tbl.objs q).size = r.size) ∧
      ∀ n, s.env.tbl.find n = none → e'.tbl.find n = none := by
  obtain ⟨e', hr, htbl⟩ := h.follows.log.replay hfuel
  refine ⟨e', hr, fun n p hn hne => ?_, fun n hn => ?_⟩
  · rw [htbl]
    exact h.loaded hno hn (hdone ▸ not_mem_nil) hne
  · obtain ⟨-, hdata⟩ := replay_refines hno.quiet
    have hnone := (h.follows.agrees.shows n).absent hn
    rw [← hdata] at hnone
    rw [htbl]
    exact map_eq_none_iff.mp hnone

theorem Table.Bounded.empty : Table.empty.Bounded where
  name := fun h => by rw [find_empty] at h; cases h
  pieces := fun h => by rw [find_empty] at h; cases h
  files := by rw [snapshot_empty]; decide
  fits := SnapOk.empty.fits

theorem NoReplace.fresh : NoReplace [.base []] := fun r hr => by
  rw [mem_singleton.mp hr]
  exact nofun

theorem SyncInv.fresh (hl : Logged e 0 [.base []]) (ht : e.tbl = .empty) :
    SyncInv ⟨e, []⟩ 0 [.base []] where
  follows := by
    have hagree := Table.Tidy.empty.agrees_snapshot
    rw [show Table.empty.recorded = Table.empty from rfl, snapshot_empty] at hagree
    refine ⟨⟨hl, by decide, fun r hr => ?_⟩, by rw [ht]; exact hagree, by rw [ht]; exact .empty⟩
    rw [mem_singleton.mp hr]
    exact Table.Bounded.empty.snapshot_wf
  clean := fun {n p} hn => by
    rw [show (SyncState.mk e []).env.tbl = .empty from ht, find_empty] at hn
    cases hn

end

/-! ### Runs with one file -/

/-- The name `a`. -/
def nameA : Name := [97]

theorem nameA_ok : NameOk nameA := ⟨by decide, by decide⟩

/-- A run has brought the environment here, the file `a` is the only one and no Sync is under way. -/
structure OneFile (e₀ e : Env) (f : ZnsFile) (seq : Nat) (recs : List Rec) : Prop where
  run : ∃ steps,
    Runs SyncState.step (fun s a => a.NoRename ∧ a.Allowed s) ⟨e₀, []⟩ steps ⟨e, []⟩
  tbl : e.tbl = .single f
  name : f.name = nameA
  inv : SyncInv ⟨e, []⟩ seq recs
  noReplace : NoReplace recs

section

variable {e₀ e e' : Env} {seq seq' : Nat} {recs recs' : List Rec} {r : Rec} {f : ZnsFile}
  {map : List ZrocksMap}

theorem find_nameA (hn : f.name = nameA) : (Table.single f).find nameA = some 0 := by
  rw [← hn, find_single_self]

theorem Flushed.tbl_single (hf : Flushed e seq recs r e' seq' recs') (ht : e.tbl = .single f.marked) :
    e'.tbl = .single f.marked := by
  cases hf with
  | append room tbl curr => rw [tbl, ht]
  | snapshot full tbl kept =>
    rw [tbl, ht, recorded_single]
    rfl

/-- **A GC change** of the file returns. -/
theorem exists_gcChange (hl : Logged e seq recs) (ht : e.tbl = .single f) (hn : f.name = nameA)
    (hmap : map.length ≤ maxPieces) :
    ∃ e' seq' recs', (SyncState.mk e []).step (.gcChange nameA map) = some ⟨e', []⟩ ∧
      e'.tbl = .single (f.setMap map).marked ∧
      Flushed (e.setTbl (.single (f.setMap map).marked)) seq recs
        (.gcChange ((f.setMap map).entry 0)) e' seq' recs' ∧ Logged e' seq' recs' := by
  obtain ⟨f', hf'⟩ : ∃ f' : ZnsFile, f' = f.setMap map := ⟨_, rfl⟩
  rw [← hf']
  have hn' : f'.name = nameA := by rw [hf']; exact hn
  have hset : e.tbl.set 0 f' = .single f' := by
    rw [ht, set_single f (hn'.trans hn.symm)]
  have hobj : (e.setFile 0 f').tbl.objs 0 = f' := by
    show update e.tbl.objs 0 f' 0 = f'
    exact update_self _ _ _
  have hset' : (e.setFile 0 f').tbl.set 0 f'.marked = .single f'.marked := by
    rw [Env.setFile, Env.setTbl]
    simp only [hset]
    exact set_single f' rfl
  have hname : f'.name.length ≤ fileNameLen := by rw [hn']; decide
  have hmap' : f'.map.length ≤ maxPieces := by rw [hf']; exact hmap
  obtain ⟨e', seq', recs', he, -, hf, hl'⟩ := Logged.flushGCChange (e := e.setFile 0 f') (p := 0)
    (hl.setTbl _) (by rw [hobj]; exact hname) (by rw [hobj]; exact hmap')
    (by rw [hobj, hset']; exact SnapOk.single hname hmap')
  rw [hobj, hset'] at hf
  refine ⟨e', seq', recs', ?_, hf.tbl_single rfl, hf, hl'⟩
  rw [SyncState.step, ht, find_nameA hn]
  simp only [bind_eq_bind, bind_some, objs_single, ← hf', he]
  rfl

/-- A step that leads to a table with one file is within the bounds. -/
theorem inBounds_single {s s' : SyncState} {a : FileStep} (ha : a.InOrder s) (hs : s.step a = some s')
    (ht : s'.env.tbl = .single f) (hn : f.name = nameA) (hmap : f.map.length ≤ maxPieces) :
    a.InBounds s := by
  refine ⟨ha, fun s'' hs'' => ?_⟩
  cases hs.symm.trans hs''
  rw [ht]
  exact .single (hn ▸ nameA_ok) hmap

/-- **A run goes on with a GC change.** -/
theorem OneFile.gcChange (h : OneFile e₀ e f seq recs) (hmap : map.length ≤ maxPieces)
    (hseq : e.Full → e.sequence < 2 ^ 32) :
    ∃ e' seq' recs', OneFile e₀ e' (f.setMap map).marked seq' recs' ∧
      Flushed (e.setTbl (.single (f.setMap map).marked)) seq recs
        (.gcChange ((f.setMap map).entry 0)) e' seq' recs' := by
  obtain ⟨e', seq', recs', hs, ht, hf, hl⟩ :=
    exists_gcChange h.inv.follows.log.toLogged h.tbl h.name hmap
  obtain ⟨steps, hrun⟩ := h.run
  have ha : (FileStep.gcChange nameA map).NoRename ∧ FileStep.Allowed ⟨e, []⟩ (.gcChange nameA map) :=
    ⟨trivial, inBounds_single trivial hs ht h.name hmap, hseq⟩
  have hname : NameOk (f.setMap map).name := h.name ▸ nameA_ok
  -- the table in front of the record agrees with what it means
  have hagree := h.inv.follows.agrees.gcChange (f := f.setMap map) (p := 0) (m := nameA)
    (by show e.tbl.find nameA = some 0; rw [h.tbl, find_nameA h.name])
    (by show f.name = (e.tbl.objs 0).name; rw [h.tbl, objs_single])
  rw [show (SyncState.mk e []).env.tbl = .single f from h.tbl,
    show (Table.single f).set 0 (f.setMap map).marked = _ from set_single f rfl] at hagree
  have hk : Follows e' seq' recs' := .record (h.inv.follows.log.setTbl _) hagree
    (.single hname hmap) (small_gcChange hname hmap) hseq hf hl
  refine ⟨e', seq', recs', ⟨⟨steps ++ [.gcChange nameA map], hrun.append (.one ha hs)⟩, ht,
    h.name, ⟨hk, fun {n p} hp _ => ?_⟩, hf.noReplace nofun h.noReplace⟩, hf⟩
  have hp : e'.tbl.find n = some p := hp
  rw [ht, find_single] at hp
  split at hp <;> cases hp
  rw [ht, objs_single]
  rfl

/-- **The zone is filled up** with GC changes. -/
theorem OneFile.exists_full (hmap : f.map.length ≤ maxPieces) (k : Nat) :
    ∀ {e : Env} {recs : List Rec}, OneFile e₀ e f.marked seq recs →
    e.md.curr.sect + e.md.curr.capacity = e.md.curr.wptr + 1 + k →
    ∃ e' recs', OneFile e₀ e' f.marked seq recs' ∧ e'.Full := by
  induction k with
  | zero => exact fun {e recs} h hk => ⟨e, recs, h, le_of_eq hk⟩
  | succ k ih =>
    intro e recs h hk
    have hfull : ¬ e.Full := by
      rw [Env.Full]
      omega
    have hsmall := small_gcChange (f := f.marked.setMap f.map) (h.name ▸ nameA_ok) hmap
    obtain ⟨e', seq', recs', h', hf⟩ := h.gcChange hmap fun hc => absurd hc hfull
    cases hf with
    | append room tbl curr =>
      refine ih h' ?_
      rw [curr, hsmall.sectors]
      show e.md.curr.sect + e.md.curr.capacity = e.md.curr.wptr + 1 + 1 + k
      omega
    | snapshot full tbl kept => exact absurd (hsmall.room_iff.mpr hfull) full

theorem OneFile.fill (h : OneFile e₀ e f.marked seq recs) (hmap : f.map.length ≤ maxPieces) :
    ∃ e' recs', OneFile e₀ e' f.marked seq recs' ∧ e'.Full := by
  have hroom : e.md.curr.wptr < e.md.curr.sect + e.md.curr.capacity :=
    h.inv.follows.log.log.holds.room
  exact exists_full hmap (e.md.curr.sect + e.md.curr.capacity - (e.md.curr.wptr + 1)) h (by omega)

/-- **Every number that fits 32 bits is reached.** -/
theorem OneFile.exists_sequence (h : OneFile e₀ e f.marked seq recs) (hmap : f.map.length ≤ maxPieces)
    (k : Nat) (hk : seq + k < 2 ^ 32) :
    ∃ e' recs', OneFile e₀ e' f.marked (seq + k) recs' ∧ e'.Full := by
  induction k with
  | zero => exact h.fill hmap
  | succ k ih =>
    obtain ⟨e1, recs1, h1, hfull⟩ := ih (by omega)
    have hnum : e1.sequence < 2 ^ 32 := by
      rw [show e1.sequence = _ from h1.inv.follows.log.sequence]
      omega
    have hsmall := small_gcChange (f := f.marked.setMap f.map) (h.name ▸ nameA_ok) hmap
    obtain ⟨e', seq', recs', h', hf⟩ := h1.gcChange hmap fun _ => hnum
    cases hf with
    | append room tbl curr => exact absurd hfull (hsmall.room_iff.mp room)
    | snapshot full tbl kept => exact h'.fill hmap

/-! ### A file is written and closed -/

/-- A new file `a`. -/
def newA : ZnsFile := { ZnsFile.new nameA 0 with isWriting := true }

/-- The file `a` with a byte in its cache. -/
def newByte : ZnsFile := { newA with cache := some [0], size := 1 }

/-- The same, before the size is changed. -/
def cachedByte : ZnsFile := { newA with cache := some [0] }

theorem newWritableFile_nameA (ht : e.tbl = .empty) :
    newWritableFile e nameA = .ok (e.setTbl (.single newA), ⟨nameA, 0⟩) := by
  rw [newWritableFile_fresh (by rw [ht, find_empty]), ht]
  rfl

theorem step_create (h : SyncInv ⟨e, []⟩ seq recs) (ht : e.tbl = .empty) :
    (SyncState.mk e []).step (.create nameA) = some ⟨e.setTbl (.single newA), []⟩ ∧
      SyncInv ⟨e.setTbl (.single newA), []⟩ seq recs := by
  have hnone : e.tbl.find nameA = none := by rw [ht, find_empty]
  have hnew := newWritableFile_nameA ht
  constructor
  · rw [SyncState.step]
    simp only [hnew]
    rfl
  · exact h.create hnone hnew (.single nameA_ok (Nat.zero_le _))

theorem step_push (h : SyncInv ⟨e, []⟩ seq recs) (ht : e.tbl = .single f) (hn : f.name = nameA)
    (hmap : (f.map ++ map).length ≤ maxPieces) :
    ∃ e' c, (SyncState.mk e []).step (.push nameA map) = some ⟨e', [nameA]⟩ ∧
      e'.tbl = .single { f with map := f.map ++ map, currentNid := c } ∧
      SyncInv ⟨e', [nameA]⟩ seq recs := by
  have hp : e.tbl.find nameA = some 0 := by rw [ht, find_nameA hn]
  obtain ⟨c, nf, hpush⟩ := pushPieces_eq ⟨nameA, 0⟩ map e
  have ht' : (pushPieces ⟨nameA, 0⟩ e map).tbl
      = .single { f with map := f.map ++ map, currentNid := c } := by
    rw [hpush]
    simp only [ht, objs_single]
    exact set_single f rfl
  refine ⟨pushPieces ⟨nameA, 0⟩ e map, c, ?_, ht', h.push hp ?_⟩
  · rw [SyncState.step]
    simp only [ht, find_nameA hn]
    rfl
  · rw [ht']
    exact .single (hn ▸ nameA_ok) hmap

theorem step_flush (h : SyncInv ⟨e, [nameA]⟩ seq recs) (ht : e.tbl = .single f) (hn : f.name = nameA)
    (hi : f.startIndex ≠ f.map.length)
    (hs : recSectors recs + 2 ≤ fileMetadataBufSize / znsAligment) :
    ∃ e', (SyncState.mk e [nameA]).step (.flush nameA) = some ⟨e', []⟩ ∧
      e'.tbl = .single { f.marked with cache := some [] } ∧
      SyncInv ⟨e', []⟩ seq (recs ++ [.update (f.entry f.startIndex)]) := by
  have hp : e.tbl.find nameA = some 0 := by rw [ht, find_nameA hn]
  have hobj : e.tbl.objs 0 = f := by rw [ht, objs_single]
  have hfull : ¬ e.Full := h.follows.log.toLogged.not_full hs
  have hmap : f.map.length ≤ maxPieces := hobj ▸ h.follows.bounded.pieces hp
  obtain ⟨e1, seq', recs', he1, hk, ⟨hi', -⟩ | ⟨-, hf⟩⟩ :=
    h.follows.flushUpdate hp fun hc => absurd hc hfull
  · exact absurd (hobj ▸ hi') hi
  have ht1 : e1.tbl = .single f.marked := by
    refine hf.tbl_single ?_
    rw [hobj, ht]
    exact set_single f rfl
  have hfind1 : e1.tbl.find nameA = some 0 := by
    rw [ht1]
    exact find_nameA hn
  have hinv : SyncInv ⟨e1, []⟩ seq' recs' := .record hf hk fun hm _ => h.clean_marked hp _ hm (by
    rw [mem_singleton]
    exact (em _).symm)
  have ht2 : e1.tbl.set 0 { e1.tbl.objs 0 with cache := some [] }
      = .single { f.marked with cache := some [] } := by
    rw [ht1, objs_single]
    exact set_single f.marked rfl
  refine ⟨e1.setFile 0 { e1.tbl.objs 0 with cache := some [] }, ?_, ht2, ?_⟩
  · rw [SyncState.step, show (SyncState.mk e [nameA]).env.tbl.find nameA = some 0 from hp]
    simp only [bind_eq_bind, bind_some, syncFlush,
      show flushUpdateMetaData (SyncState.mk e [nameA]).env 0 = _ from he1]
    rfl
  · have hinv' := hinv.touch (f := { e1.tbl.objs 0 with cache := some [] }) rfl rfl rfl hfind1 (by
      show (e1.tbl.set 0 _).Bounded
      rw [ht2]
      exact .single (hn ▸ nameA_ok) hmap)
    have hsmall := small_update (f := e.tbl.objs 0) (by rw [hobj, hn]; exact nameA_ok)
      (by rw [hobj]; exact hmap) (e.tbl.objs 0).startIndex
    cases hf with
    | append room tbl curr =>
      rw [hobj] at hinv'
      exact hinv'
    | snapshot full tbl kept => exact absurd (hsmall.room_iff.mpr hfull) full

theorem step_close (h : SyncInv ⟨e, []⟩ seq recs) (ht : e.tbl = .single f) (hn : f.name = nameA) :
    ∃ e', (SyncState.mk e []).step (.close nameA) = some ⟨e', []⟩ ∧
      e'.tbl = .single { f with cache := none, isWriting := false } ∧ SyncInv ⟨e', []⟩ seq recs := by
  have hp : e.tbl.find nameA = some 0 := by rw [ht, find_nameA hn]
  have ht' : (release e ⟨nameA, 0⟩).tbl = .single { f with cache := none, isWriting := false } := by
    show e.tbl.set 0 _ = _
    rw [show (Handle.mk nameA 0).znsFile = 0 from rfl, ht, objs_single]
    exact set_single f rfl
  have hmap : f.map.length ≤ maxPieces := by
    have := h.follows.bounded.pieces hp
    rwa [show (SyncState.mk e []).env.tbl = .single f from ht, objs_single] at this
  refine ⟨release e ⟨nameA, 0⟩, ?_, ht', h.touch rfl rfl rfl hp ?_⟩
  · rw [SyncState.step]
    simp only [ht, find_nameA hn]
    rfl
  · show (release e ⟨nameA, 0⟩).tbl.Bounded
    rw [ht']
    exact .single (hn ▸ nameA_ok) hmap

/-- **The file `a` with one piece**, written and closed after the first load. -/
theorem exists_oneFile (m : ZrocksMap) : ∃ e₀ e f,
    loadMetaData 0 (Env.fresh smallMd) = .ok (e₀, .ok) ∧
      OneFile e₀ e (ZnsFile.marked f) 0 [.base [], .update ⟨nameA, 0, 0, [m]⟩] ∧ f.map = [m] := by
  obtain ⟨e₀, hload, ht0, hl0, -⟩ := load_fresh smallMd 0
  have hi0 := SyncInv.fresh hl0 ht0
  have hseq : ∀ {s : SyncState} {recs : List Rec}, SyncInv s 0 recs →
      s.env.Full → s.env.sequence < 2 ^ 32 := fun h _ => by
    rw [h.follows.log.sequence]
    decide
  have hone : [m].length ≤ maxPieces := show 1 ≤ maxPieces by decide
  -- the file is created, a piece is pushed and recorded, and the file is closed
  obtain ⟨hs1, hi1⟩ := step_create hi0 ht0
  have ha1 : FileStep.Allowed ⟨e₀, []⟩ (.create nameA) := ⟨inBounds_single (show
    e₀.tbl.find nameA = none by rw [ht0, find_empty]) hs1 rfl rfl (Nat.zero_le _), hseq hi0⟩
  obtain ⟨e2, c, hs2, ht2, hi2⟩ := step_push hi1 rfl rfl hone
  have ha2 : FileStep.Allowed _ (.push nameA [m]) :=
    ⟨inBounds_single trivial hs2 ht2 rfl hone, hseq hi1⟩
  obtain ⟨e3, hs3, ht3, hi3⟩ := step_flush hi2 ht2 rfl (show 0 ≠ 1 by decide) (by decide)
  have ha3 : FileStep.Allowed _ (.flush nameA) :=
    ⟨inBounds_single trivial hs3 ht3 rfl hone, hseq hi2⟩
  obtain ⟨e4, hs4, ht4, hi4⟩ := step_close hi3 ht3 rfl
  have ha4 : FileStep.Allowed _ (.close nameA) :=
    ⟨inBounds_single trivial hs4 ht4 rfl hone, hseq hi3⟩
  refine ⟨e₀, e4, { ZnsFile.new nameA 0 with map := [m], currentNid := c, cache := none }, hload,
    ⟨⟨[.create nameA, .push nameA [m], .flush nameA, .close nameA], ?_⟩, ht4, rfl, hi4, ?_⟩, rfl⟩
  · exact .cons ⟨trivial, ha1⟩ hs1 (.cons ⟨trivial, ha2⟩ hs2 (.cons ⟨trivial, ha3⟩ hs3
      (.one ⟨trivial, ha4⟩ hs4)))
  · intro r hr
    simp only [mem_cons, not_mem_nil, or_false] at hr
    rcases hr with rfl | rfl <;> exact nofun

/-- The zone with these two records has room. -/
theorem OneFile.not_full {m : ZrocksMap}
    (h : OneFile e₀ e f 0 [.base [], .update ⟨nameA, 0, 0, [m]⟩]) : ¬ e.Full := by
  have hsmall : (Rec.update ⟨nameA, 0, 0, [m]⟩).sectors = 1 := by
    rw [Rec.sectors, Rec.body, FileRec.bytes_length (r := ⟨nameA, 0, 0, [m]⟩)
      (show (1 : Nat) ≤ fileNameLen by decide)]
    show (metadataHeadLen + (zrocksFileMetaLen + zrocksMapLen * 1) + (znsAligment - 1))
      / znsAligment = 1
    decide
  refine h.inv.follows.log.toLogged.not_full ?_
  rw [recSectors_cons, recSectors_cons, hsmall]
  decide

/-! ### The number wraps around -/

/-- Two zones, the current one with the number 0 in its head: the other one is loaded. -/
theorem replay_other {fuel : Nat} (hl : Logged e (2 ^ 32) recs)
    (hother : ZoneHolds e.md.media e.md.other (2 ^ 32 - 1) recs') (hwf : ∀ r ∈ recs', r.WF)
    (hfuel : recs'.length < fuel) :
    ∃ e', Xztl.replay fuel e.restart = .ok (e', .ok) ∧ e'.tbl = Table.replay recs' := by
  have hg := hl.log.geo
  have hcurr := hl.log.holds.head
  rw [← zoneHeadBytes_mod32, Nat.mod_self] at hcurr
  have hi : 1 - e.md.currZoneIndex < 2 := lt_of_le_of_lt (Nat.sub_le 1 _) Nat.one_lt_two
  have hnew : newestZone e.md = some (1 - e.md.currZoneIndex) := by
    refine newestZone_of_lt hi (zoneSeq_head (by decide) hother.head) fun q hq => ?_
    rw [Nat.sub_sub_self (Nat.le_of_lt_succ hg.curr), zoneSeq_head (by decide) hcurr] at hq
    cases hq
    decide
  obtain ⟨c, hr⟩ := replay_zone hg hi hnew hother hwf hfuel
  exact ⟨_, hr, rfl⟩

end

/-! ### The result -/

/-- **Replaying the log gives the table back.**  In every run from the first load whose snapshots have
numbers that fit 32 bits: when no Sync is under way the replay ends, each file with pieces has exactly
the pieces it has in memory and the level and size of its last entry in the log, and a name that is
not in the table is not loaded. -/
theorem replay_run {g : MdSize} {fuel₀ : Nat} {e₀ : Env} {steps : List FileStep} {s : SyncState}
    (hload : loadMetaData fuel₀ (Env.fresh g) = .ok (e₀, .ok))
    (hrun : Runs SyncState.step (fun s a => a.NoRename ∧ a.Allowed s) ⟨e₀, []⟩ steps s)
    (hdone : s.started = []) :
    ∃ seq recs, LogIn s.env.md seq recs ∧ ∀ fuel, recs.length < fuel →
      ∃ e', replay fuel s.env.restart = .ok (e', .ok) ∧
        (∀ n p, s.env.tbl.find n = some p → (s.env.tbl.objs p).map ≠ [] → ∃ q r,
          e'.tbl.find n = some q ∧ (e'.tbl.objs q).map = (s.env.tbl.objs p).map ∧
            lastEntry recs n = some r ∧ (e'.tbl.objs q).level = r.level ∧
            (e'.tbl.objs q).size = r.size) ∧
        ∀ n, s.env.tbl.find n = none → e'.tbl.find n = none := by
  obtain ⟨e₁, he₁, ht, hl, -⟩ := load_fresh g fuel₀
  cases he₁.symm.trans hload
  obtain ⟨seq, recs, hno, hinv⟩ := hrun.invariant
    (I := fun s => ∃ seq recs, NoReplace recs ∧ SyncInv s seq recs)
    (fun s a s' ⟨seq, recs, hno, h⟩ ha hs => by
      obtain ⟨seq', recs', hno', h'⟩ := h.step ha.2 hs
      exact ⟨seq', recs', hno' ha.1 hno, h'⟩) ⟨0, _, .fresh, SyncInv.fresh hl ht⟩
  exact ⟨seq, recs, hinv.follows.log.log, fun fuel hfuel => hinv.replay hno hdone hfuel⟩

/-- The file `a` is written and closed, and loaded with its piece. -/
theorem replay_run_written : ∃ e₀ steps s, loadMetaData 0 (Env.fresh smallMd) = .ok (e₀, .ok) ∧
    Runs SyncState.step (fun s a => a.NoRename ∧ a.Allowed s) ⟨e₀, []⟩ steps s ∧ s.started = [] ∧
    ∃ k, ∀ fuel, k < fuel → ∃ e' q, replay fuel s.env.restart = .ok (e', .ok) ∧
      e'.tbl.find nameA = some q ∧ (e'.tbl.objs q).map = [⟨0, 0, 1, 0⟩] := by
  obtain ⟨e₀, e, f, hload, h, hmap⟩ := exists_oneFile ⟨0, 0, 1, 0⟩
  obtain ⟨steps, hrun⟩ := h.run
  obtain ⟨seq, recs, -, hloads⟩ := replay_run hload hrun rfl
  refine ⟨e₀, steps, _, hload, hrun, rfl, recs.length, fun fuel hfuel => ?_⟩
  obtain ⟨e', hr, hfiles, -⟩ := hloads fuel hfuel
  have hpieces : (e.tbl.objs 0).map = [⟨0, 0, 1, 0⟩] := by rw [h.tbl, objs_single]; exact hmap
  obtain ⟨q, r, hq, hm, -⟩ := hfiles nameA 0 (by rw [h.tbl, find_nameA h.name])
    (by rw [hpieces]; exact cons_ne_nil _ _)
  exact ⟨e', q, hr, hq, hm.trans hpieces⟩

/-- **The old log is loaded.**  After 2^32 snapshots the head of the new one has the number 0: the
file has the piece at unit 1, and loading gives it the piece at unit 0 that it had before. -/
theorem replay_wrapped : ∃ e₀ steps s, loadMetaData 0 (Env.fresh smallMd) = .ok (e₀, .ok) ∧
    Runs SyncState.step (fun s a => a.NoRename ∧ a.InBounds s) ⟨e₀, []⟩ steps s ∧ s.started = [] ∧
    (∃ p, s.env.tbl.find nameA = some p ∧ (s.env.tbl.objs p).map = [⟨0, 1, 1, 0⟩]) ∧
    ∃ k, ∀ fuel, k < fuel → ∃ e' q, replay fuel s.env.restart = .ok (e', .ok) ∧
      e'.tbl.find nameA = some q ∧ (e'.tbl.objs q).map = [⟨0, 0, 1, 0⟩] := by
  obtain ⟨e₀, e₁, f, hload, h₁, hmap⟩ := exists_oneFile ⟨0, 0, 1, 0⟩
  have hle : f.map.length ≤ maxPieces := by rw [hmap]; exact show 1 ≤ maxPieces by decide
  have hone : 1 ≤ maxPieces := by decide
  obtain ⟨e, recs, h, hfull⟩ := h₁.exists_sequence hle (2 ^ 32 - 1) (by decide)
  rw [Nat.zero_add] at h
  -- one more change, and the zone is full
  have hone' : [(⟨0, 1, 1, 0⟩ : ZrocksMap)].length ≤ maxPieces := hone
  obtain ⟨e', seq', recs', hs, ht, hf, hl⟩ := exists_gcChange h.inv.follows.log.toLogged h.tbl h.name
    hone'
  obtain ⟨steps, hrun⟩ := h.run
  have hrun' : Runs SyncState.step (fun s a => a.NoRename ∧ a.InBounds s) ⟨e₀, []⟩
      (steps ++ [.gcChange nameA [⟨0, 1, 1, 0⟩]]) ⟨e', []⟩ :=
    (hrun.mono fun _ _ ha => ⟨ha.1, ha.2.toInBounds⟩).append
      (.one ⟨trivial, inBounds_single trivial hs ht h.name hone⟩ hs)
  have hsmall := small_gcChange (f := f.marked.setMap [⟨0, 1, 1, 0⟩]) (h.name ▸ nameA_ok) hone
  cases hf with
  | append room tbl curr => exact absurd hfull (hsmall.room_iff.mp room)
  | snapshot full tbl kept =>
    refine ⟨e₀, _, ⟨e', []⟩, hload, hrun', rfl, ⟨0, ?_, ?_⟩, recs.length, fun fuel hfuel => ?_⟩
    · show e'.tbl.find nameA = some 0
      rw [ht]
      exact find_nameA h.name
    · show (e'.tbl.objs 0).map = _
      rw [ht, objs_single]
      rfl
    · obtain ⟨e₂, hr, htbl⟩ := replay_other hl kept h.inv.follows.log.wf hfuel
      have hfind : e.tbl.find nameA = some 0 := by rw [h.tbl, find_nameA h.name]
      have hobj : (e.tbl.objs 0).map = [⟨0, 0, 1, 0⟩] := by
        rw [h.tbl, objs_single]
        exact hmap
      obtain ⟨q, r, hq, hpieces, -⟩ := h.inv.loaded h.noReplace hfind not_mem_nil (by
        rw [show (SyncState.mk e []).env = e from rfl, hobj]
        exact cons_ne_nil _ _)
      exact ⟨e₂, q, hr, htbl ▸ hq, htbl ▸ hpieces.trans hobj⟩

end Xztl
