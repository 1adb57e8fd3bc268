import Xztl.Env.Recreate

/-!
# Env — recorded sizes

The size of a file counts the bytes in its cache, a record has the size and the pieces.  An update is
written after the cache of its file has gone out, so its size is covered by the pieces; but when the
metadata zone is full a snapshot is written instead, and it has the sizes of all files, whatever is
still in their caches.

**`sizes_run`** says that the recovered sizes are covered by the recovered pieces in every run in
which all files are settled when a record finds the zone full.
-/

namespace Xztl

open Function List Except Option Table

/-- The bytes of pieces, without their padding. -/
def payload (ms : List ZrocksMap) : Nat :=
  (ms.map fun m => unitBytes * m.num.val - m.padding.val).sum

@[simp] theorem payload_append (ms ms' : List ZrocksMap) :
    payload (ms ++ ms') = payload ms + payload ms' := by
  rw [payload, map_append, sum_append]
  rfl

/-- The number of cached bytes. -/
def ZnsFile.cached (f : ZnsFile) : Nat := (f.cache.getD []).length

/-- The environment, and for each file the bytes of an Append under way that its size does not count
yet. -/
structure SizeState where
  env : Env
  pending : Name → Nat

/-- A step on a file: it is created, written to, closed after a Sync, or gets another map from a
collection. -/
inductive SizeStep where
  | create (n : Name)
  | write (n : Name) (a : WriteStep)
  | close (n : Name)
  | gcChange (n : Name) (map : List ZrocksMap)

/-- The bytes that the size does not count, after a write step: the size grows by bytes that were put
into the cache before. -/
def WriteStep.pending (k : Nat) : WriteStep → Option Nat
  | .put bs => some (k + bs.length)
  | .grow size => if size ≤ k then some (k - size) else none
  | .sync _ => some k

/-- One step.  Writes to a closed file do nothing; a Close follows the Sync it makes, so
nothing is cached; and a collection passes over files open for writing. -/
def SizeState.step (s : SizeState) : SizeStep → Option SizeState
  | .create n => do
      let (e, _) ← (newWritableFile s.env n).toOption
      some ⟨e, update s.pending n 0⟩
  | .write n a => do
      let p ← s.env.tbl.find n
      if (s.env.tbl.objs p).isWriting then do
        let k ← a.pending (s.pending n)
        let e ← writeStep ⟨n, p⟩ s.env a
        some ⟨e, update s.pending n k⟩
      else none
  | .close n => do
      let p ← s.env.tbl.find n
      if (s.env.tbl.objs p).cached = 0 then some ⟨release s.env ⟨n, p⟩, s.pending⟩ else none
  | .gcChange n map => do
      let p ← s.env.tbl.find n
      if (s.env.tbl.objs p).isWriting then none else do
        let e ← (flushGCChangeMetaData (s.env.setFile p ((s.env.tbl.objs p).setMap map)) p).toOption
        some ⟨e, s.pending⟩

/-- All other files have their bytes in pieces. -/
def Env.SettledBut (e : Env) (n : Name) : Prop :=
  ∀ m q, e.tbl.find m = some q → m ≠ n → (e.tbl.objs q).size ≤ payload (e.tbl.objs q).map

/-- New names are created; a Sync stores the cached bytes and a collection does not lose any; and the
other files are settled when a record finds the zone full. -/
def SizeStep.Covered (s : SizeState) : SizeStep → Prop
  | .create n => s.env.tbl.find n = none
  | .write n (.sync maps) => (∀ p, s.env.tbl.find n = some p →
      (s.env.tbl.objs p).cached ≤ payload maps) ∧ (s.env.Full → s.env.SettledBut n)
  | .gcChange n map => (∀ p, s.env.tbl.find n = some p →
      payload (s.env.tbl.objs p).map ≤ payload map) ∧ (s.env.Full → s.env.SettledBut n)
  | _ => True

/-- The steps of a run: covered, within the bounds, and with numbers of 32 bits. -/
structure SizeStep.Allowed (s : SizeState) (a : SizeStep) : Prop where
  covered : a.Covered s
  bounded : ∀ s', s.step a = some s' → s'.env.tbl.Bounded
  sequence : s.env.Full → s.env.sequence < 2 ^ 32

/-! ### What is recorded -/

/-- The size is covered by the pieces. -/
def FileRec.Covered (r : FileRec) : Prop := r.size ≤ payload r.pieces

/-- Every recorded size is covered. -/
def CoveredLog (recs : List Rec) : Prop := ∀ n r, Contents.replay recs n = some r → r.Covered

section

variable {e e' : Env} {seq seq' k : Nat} {recs recs' : List Rec} {r : Rec} {t : Table} {n : Name}
  {p : Ptr} {f : ZnsFile} {s s' : SizeState}

/-- **A record, or the snapshot in its place.** -/
theorem Flushed.covered (hf : Flushed e seq recs r e' seq' recs') (ht : e.tbl.Tidy)
    (hr : ∀ n x, (Contents.replay recs).apply r n = some x → x.Covered)
    (hsnap : ¬ e.Room r → ∀ n p, e.tbl.find n = some p →
      (e.tbl.objs p).size ≤ payload (e.tbl.objs p).map) : CoveredLog recs' := by
  intro n x hx
  cases hf with
  | append room tbl curr =>
    rw [Contents.replay_append] at hx
    exact hr n x hx
  | snapshot full tbl kept =>
    rw [ht.replay_snapshot] at hx
    obtain ⟨p, hp, rfl⟩ := map_eq_some_iff.mp hx
    exact le_trans (Nat.mod_le _ _) (hsnap full n p hp)

theorem CoveredLog.recover {x : FileRec} {replace : Bool} (h : CoveredLog recs)
    (hx : x.size ≤ payload ((if replace then [] else (Contents.replay recs).pieces x.name) ++ x.pieces))
    {y : FileRec} (hy : (Contents.replay recs).recover x replace n = some y) : y.Covered := by
  by_cases e : n = x.name
  · subst e
    rw [Contents.recover_self] at hy
    cases hy
    exact hx
  · rw [Contents.recover_of_ne _ _ _ e] at hy
    exact h n y hy

/-- The files in front of a record, all settled. -/
theorem settled_marked (hc : (t.objs p).size ≤ payload (t.objs p).map)
    (hp : t.find n = some p)
    (ho : ∀ m q, t.find m = some q → m ≠ n → (t.objs q).size ≤ payload (t.objs q).map) :
    ∀ m q, (t.set p (t.objs p).marked).find m = some q →
      ((t.set p (t.objs p).marked).objs q).size ≤ payload ((t.set p (t.objs p).marked).objs q).map := by
  intro m q hm
  rw [objs_set]
  by_cases e : q = p
  · subst e
    rw [update_self]
    exact hc
  · rw [update_of_ne e]
    exact ho m q hm fun e' => e (Option.some.inj (hm.symm.trans (e' ▸ hp)))

section

variable (h : CoveredLog recs) (hk : Follows e seq recs) (hp : e.tbl.find n = some p)
  (hseq : e.Full → e.sequence < 2 ^ 32)
include h hk hp hseq

theorem CoveredLog.flushUpdate (hc : (e.tbl.objs p).size ≤ payload (e.tbl.objs p).map)
    (ho : e.Full → e.SettledBut n) (he : flushUpdateMetaData e p = .ok e') :
    ∃ seq' recs', Follows e' seq' recs' ∧ CoveredLog recs' ∧
      (NoReplace recs → NoReplace recs') := by
  obtain ⟨e1, seq', recs', he1, hk', hcases⟩ := hk.flushUpdate hp hseq
  cases he1.symm.trans he
  refine ⟨seq', recs', hk', ?_⟩
  rcases hcases with ⟨-, rfl, rfl, rfl⟩ | ⟨-, hf⟩
  · exact ⟨h, id⟩
  refine ⟨hf.covered (hk.agrees.tidy.set rfl) (fun m x hx => h.recover ?_ hx) fun hroom => ?_,
    hf.noReplace nofun⟩
  · have hname : ((e.tbl.objs p).entry (e.tbl.objs p).startIndex).name = n := hk.agrees.tidy.name hp
    have hpieces := (hk.agrees.shows n).pieces hp
    rw [hname, hpieces, if_neg (by simp)]
    refine le_trans (Nat.mod_le _ _) ?_
    show (e.tbl.objs p).size ≤ payload ([] ++ (e.tbl.objs p).map.take (e.tbl.objs p).startIndex
      ++ (e.tbl.objs p).map.drop (e.tbl.objs p).startIndex)
    rw [nil_append, take_append_drop]
    exact hc
  · have hsmall := small_update (hk.bounded.name hp) (hk.bounded.pieces hp)
      (e.tbl.objs p).startIndex
    exact settled_marked hc hp (ho (not_not.mp fun hc => hroom (hsmall.room_iff.mpr hc)))

theorem CoveredLog.flushGCChange (hname : f.name = (e.tbl.objs p).name)
    (hc : f.size ≤ payload f.map) (ho : e.Full → e.SettledBut n) (hb : e'.tbl.Bounded)
    (he : flushGCChangeMetaData (e.setFile p f) p = .ok e') :
    ∃ seq' recs', Follows e' seq' recs' ∧ CoveredLog recs' ∧ (NoReplace recs → NoReplace recs') ∧
      Flushed (e.setTbl (e.tbl.set p f.marked)) seq recs (.gcChange (f.entry 0)) e' seq' recs' := by
  have hb1 := hb.same (flushFile_same he).1.symm
  obtain ⟨e1, seq', recs', he1, hk', hf⟩ := hk.flushGCChange hp hname hb1 hseq
  cases he1.symm.trans he
  refine ⟨seq', recs', hk', hf.covered (hk.agrees.tidy.set hname) (fun m x hx => h.recover ?_ hx)
    fun hroom m q hm => ?_, hf.noReplace nofun, hf⟩
  · rw [if_pos rfl, nil_append]
    exact le_trans (Nat.mod_le _ _) hc
  · have hobj : (e.setFile p f).tbl.objs p = f := update_self _ _ _
    have hsmall := small_gcChange (f := f) (hobj ▸ hb1.name (p := p) hp) (hobj ▸ hb1.pieces (p := p) hp)
    have hfull : e.Full := not_not.mp fun hc => hroom (hsmall.room_iff.mpr hc)
    have hm : e.tbl.find m = some q := hm
    show (update e.tbl.objs p f.marked q).size
      ≤ payload (update e.tbl.objs p f.marked q).map
    by_cases e' : q = p
    · subst e'
      rw [update_self]
      exact hc
    · rw [update_of_ne e']
      exact ho hfull m q hm fun e'' => e' (Option.some.inj (hm.symm.trans (e'' ▸ hp)))

end

/-! ### The invariant -/

/-- The size is covered by the pieces and the cache, also when it will count `k` bytes more; and a
file that is not open for writing has no cache. -/
structure ZnsFile.SizeOk (f : ZnsFile) (k : Nat) : Prop where
  le : f.size + k ≤ payload f.map + f.cached
  closed : f.isWriting = false → f.cache = none

/-- Files, log, and recorded sizes. -/
structure SizeInv (s : SizeState) (seq : Nat) (recs : List Rec) : Prop where
  follows : Follows s.env seq recs
  sizes : ∀ {n p}, s.env.tbl.find n = some p → (s.env.tbl.objs p).SizeOk (s.pending n)
  covered : CoveredLog recs
  noReplace : NoReplace recs

section

variable (h : SizeInv s seq recs)
include h

/-- One file changes, and the others in `startIndex` at most. -/
theorem SizeInv.sizes_of (hp : s.env.tbl.find n = some p) (hs : (s.env.tbl.set p f).Same t)
    (hf : f.SizeOk k) {m : Name} {q : Ptr} (hm : t.find m = some q) :
    (t.objs q).SizeOk (update s.pending n k m) := by
  have hm : s.env.tbl.find m = some q := (hs.find m).symm.trans hm
  obtain ⟨i, hi⟩ := hs.objs q
  rw [hi, objs_set]
  by_cases e : q = p
  · obtain rfl : m = n := h.follows.agrees.tidy.inj hm (e ▸ hp)
    rw [e, update_self, update_self]
    exact ⟨hf.le, hf.closed⟩
  · have hmn : m ≠ n := fun e' => e (Option.some.inj (hm.symm.trans (e' ▸ hp)))
    rw [update_of_ne e, update_of_ne hmn]
    exact ⟨(h.sizes hm).le, (h.sizes hm).closed⟩

theorem SizeInv.touch (hp : s.env.tbl.find n = some p) (hname : f.name = (s.env.tbl.objs p).name)
    (hmap : f.map = (s.env.tbl.objs p).map) (hi : f.startIndex = (s.env.tbl.objs p).startIndex)
    (hf : f.SizeOk k) (hb : (s.env.setFile p f).tbl.Bounded) :
    SizeInv ⟨s.env.setFile p f, update s.pending n k⟩ seq recs :=
  ⟨h.follows.touch hname hmap hi hp hb, fun hm => h.sizes_of hp (.refl _) hf hm, h.covered,
    h.noReplace⟩

theorem SizeInv.create {x : Env × Handle} (hn : s.env.tbl.find n = none)
    (he : newWritableFile s.env n = .ok x) (hb : x.1.tbl.Bounded) :
    SizeInv ⟨x.1, update s.pending n 0⟩ seq recs := by
  refine ⟨h.follows.newWritableFile hn he hb, fun {m q} hm => ?_, h.covered, h.noReplace⟩
  have hnew := newWritableFile_new he
  have hm : x.1.tbl.find m = some q := hm
  show (x.1.tbl.objs q).SizeOk (update s.pending n 0 m)
  rw [hnew.find] at hm
  rw [hnew.objs]
  by_cases e : n = m
  · subst e
    rw [if_pos rfl] at hm
    cases hm
    rw [update_self, update_self]
    exact ⟨Nat.le_refl 0, nofun⟩
  · rw [if_neg e] at hm
    rw [update_of_ne (Nat.ne_of_lt (h.follows.agrees.tidy.lt hm)),
      update_of_ne (Ne.symm e)]
    exact h.sizes hm

theorem SizeInv.sync {maps : List ZrocksMap} (hp : s.env.tbl.find n = some p)
    (hwr : (s.env.tbl.objs p).isWriting = true)
    (hstored : (s.env.tbl.objs p).cached ≤ payload maps) (hfull : s.env.Full → s.env.SettledBut n)
    (hseq : s.env.Full → s.env.sequence < 2 ^ 32)
    (he : syncFlush ⟨n, p⟩ (pushPieces ⟨n, p⟩ s.env maps) = .ok e') (hb : e'.tbl.Bounded) :
    ∃ seq' recs', SizeInv ⟨e', update s.pending n (s.pending n)⟩ seq' recs' := by
  have ht := h.follows.agrees.tidy
  have hb1 := hb.pushed ht he
  obtain ⟨c, hsame⟩ := syncFlush_push he
  obtain ⟨f, hpush⟩ := exists_pushed ⟨n, p⟩ maps s.env
  have hk1 := h.follows.push hp hb1
  have hsize := h.sizes hp
  have hle := hsize.le
  -- the record, in front of the change of the cache
  obtain ⟨e1, hupd, he⟩ := bind_eq_ok.mp he
  cases he
  generalize pushPieces ⟨n, p⟩ s.env maps = e0 at hupd hpush hk1
  obtain ⟨c', hf⟩ := hpush.file
  have hp0 : e0.tbl.find n = some p := (hpush.find n).trans hp
  have hother : e0.Full → e0.SettledBut n := by
    rw [Env.Full, hpush.md, Env.SettledBut, hpush.tbl]
    intro hf m q hm hmn
    have hq : q ≠ p := fun e => hmn (ht.inj hm (e ▸ hp))
    rw [objs_set, update_of_ne hq]
    exact hfull hf m q hm hmn
  obtain ⟨seq', recs', hk', hcov, hno⟩ := h.covered.flushUpdate hk1 hp0
    (hpush.sequence_lt hseq) (by
      rw [hpush.obj, hf, payload_append]
      show (s.env.tbl.objs p).size ≤ payload (s.env.tbl.objs p).map + payload maps
      omega) hother hupd
  have hp1 : e1.tbl.find n = some p := ((flushUpdateMetaData_same hupd).1.find n).trans hp0
  refine ⟨seq', recs', hk'.touch rfl rfl rfl hp1 hb,
    fun hm => h.sizes_of hp hsame ⟨?_, ?_⟩ hm, hcov, hno h.noReplace⟩
  · show (s.env.tbl.objs p).size + s.pending n ≤ payload ((s.env.tbl.objs p).map ++ maps) + 0
    rw [payload_append]
    omega
  · intro h'
    have h' : (s.env.tbl.objs p).isWriting = false := h'
    rw [hwr] at h'
    cases h'

theorem SizeInv.gcChange {map : List ZrocksMap} (hp : s.env.tbl.find n = some p)
    (hwr : (s.env.tbl.objs p).isWriting = false)
    (hmoved : payload (s.env.tbl.objs p).map ≤ payload map)
    (hfull : s.env.Full → s.env.SettledBut n) (hseq : s.env.Full → s.env.sequence < 2 ^ 32)
    (he : flushGCChangeMetaData (s.env.setFile p ((s.env.tbl.objs p).setMap map)) p = .ok e')
    (hb : e'.tbl.Bounded) :
    ∃ seq' recs', SizeInv ⟨e', s.pending⟩ seq' recs' ∧
      Flushed (s.env.setTbl (s.env.tbl.set p ((s.env.tbl.objs p).setMap map).marked)) seq recs
        (.gcChange (((s.env.tbl.objs p).setMap map).entry 0)) e' seq' recs' := by
  have hsize := h.sizes hp
  have hle := hsize.le
  have hclosed : (s.env.tbl.objs p).cached = 0 := by rw [ZnsFile.cached, hsize.closed hwr]; rfl
  have hc : ((s.env.tbl.objs p).setMap map).size ≤ payload ((s.env.tbl.objs p).setMap map).map := by
    show (s.env.tbl.objs p).size ≤ payload map
    omega
  obtain ⟨seq', recs', hk, hcov, hno, hf⟩ := h.covered.flushGCChange h.follows hp hseq
    (f := (s.env.tbl.objs p).setMap map) rfl hc hfull hb he
  refine ⟨seq', recs', ⟨hk, fun {m q} hm => ?_, hcov, hno h.noReplace⟩, hf⟩
  have := h.sizes_of (f := ((s.env.tbl.objs p).setMap map).marked) (k := s.pending n) hp hf.same
    ⟨?_, hsize.closed⟩ hm
  · rwa [update_eq_self] at this
  · show (s.env.tbl.objs p).size + s.pending n ≤ payload map + (s.env.tbl.objs p).cached
    omega

theorem SizeInv.write {a : WriteStep} (hp : s.env.tbl.find n = some p)
    (hwr : (s.env.tbl.objs p).isWriting = true) (hcov : (SizeStep.write n a).Covered s)
    (hseq : s.env.Full → s.env.sequence < 2 ^ 32) (hk : a.pending (s.pending n) = some k)
    (he : writeStep ⟨n, p⟩ s.env a = some e') (hb : e'.tbl.Bounded) :
    ∃ seq' recs', SizeInv ⟨e', update s.pending n k⟩ seq' recs' := by
  have hsize := h.sizes hp
  have hle := hsize.le
  cases a with
  | put bs =>
    cases hk
    obtain ⟨c, hc, -, rfl⟩ := cachePut_eq_ok.mp (toOption_eq_some.mp he)
    have hlen : (s.env.tbl.objs p).cached = c.length := by rw [ZnsFile.cached, hc]; rfl
    refine ⟨seq, recs, h.touch hp rfl rfl rfl ⟨?_, ?_⟩ hb⟩
    · show (s.env.tbl.objs p).size + (s.pending n + bs.length)
        ≤ payload (s.env.tbl.objs p).map + (c ++ bs).length
      rw [length_append]
      omega
    · intro hwr
      rw [hsize.closed hwr] at hc
      cases hc
  | grow size =>
    rw [WriteStep.pending] at hk
    split at hk <;> cases hk
    cases he
    refine ⟨seq, recs, h.touch hp rfl rfl rfl ⟨?_, hsize.closed⟩ hb⟩
    show ((s.env.tbl.objs p).size + size) % 2 ^ 64 + (s.pending n - size)
      ≤ payload (s.env.tbl.objs p).map + (s.env.tbl.objs p).cached
    omega
  | sync maps =>
    cases hk
    exact h.sync hp hwr (hcov.1 p hp) hcov.2 hseq (toOption_eq_some.mp he) hb

theorem SizeInv.step {a : SizeStep} (ha : a.Allowed s) (hs : s.step a = some s') :
    ∃ seq' recs', SizeInv s' seq' recs' := by
  have hb := ha.bounded s' hs
  have hcov := ha.covered
  cases a with
  | create n =>
    obtain ⟨x, hx, ⟨⟩⟩ := toOption_bind_eq_some.mp hs
    exact ⟨seq, recs, h.create hcov hx hb⟩
  | write n a =>
    obtain ⟨p, hp, hs⟩ := bind_eq_some_iff.mp hs
    split at hs
    · next hwr =>
      obtain ⟨k, hk, hs⟩ := bind_eq_some_iff.mp hs
      obtain ⟨e, he, hs⟩ := bind_eq_some_iff.mp hs
      cases hs
      exact h.write hp hwr hcov ha.sequence hk he hb
    · cases hs
  | close n =>
    obtain ⟨p, hp, hs⟩ := bind_eq_some_iff.mp hs
    split at hs
    · next h0 =>
      cases hs
      refine ⟨seq, recs, ?_⟩
      have hle := (h.sizes hp).le
      have := h.touch (f := { s.env.tbl.objs p with cache := none, isWriting := false })
        (k := s.pending n) hp rfl rfl rfl ⟨?_, fun _ => rfl⟩ hb
      · rwa [update_eq_self] at this
      · show (s.env.tbl.objs p).size + s.pending n ≤ payload (s.env.tbl.objs p).map + 0
        omega
    · cases hs
  | gcChange n map =>
    obtain ⟨p, hp, hs⟩ := bind_eq_some_iff.mp hs
    split at hs
    · cases hs
    · next hwr =>
      obtain ⟨e, he, ⟨⟩⟩ := toOption_bind_eq_some.mp hs
      obtain ⟨seq', recs', h', -⟩ := h.gcChange hp (Bool.eq_false_iff.mpr hwr) (hcov.1 p hp) hcov.2
        ha.sequence he hb
      exact ⟨seq', recs', h'⟩

theorem SizeInv.run {steps : List SizeStep}
    (hrun : Runs SizeState.step (fun s a => a.Allowed s) s steps s') :
    ∃ seq' recs', SizeInv s' seq' recs' :=
  hrun.invariant (I := fun s => ∃ seq recs, SizeInv s seq recs)
    (fun _ _ _ ⟨_, _, h⟩ ha hs => h.step ha hs) ⟨_, _, h⟩

end

theorem SizeInv.fresh (hl : Logged e 0 [.base []]) (ht : e.tbl = .empty) :
    SizeInv ⟨e, fun _ => 0⟩ 0 [.base []] where
  follows := (SyncInv.fresh hl ht).follows
  sizes := fun {n p} hn => by
    rw [show (SizeState.mk e fun _ => 0).env.tbl = .empty from ht, find_empty] at hn
    cases hn
  covered := nofun
  noReplace := .fresh

/-- What is loaded is covered. -/
theorem SizeInv.replay (h : SizeInv s seq recs) {fuel : Nat} (hfuel : recs.length < fuel) :
    ∃ e', Xztl.replay fuel s.env.restart = .ok (e', .ok) ∧ ∀ n q, e'.tbl.find n = some q →
      (e'.tbl.objs q).size ≤ payload (e'.tbl.objs q).map := by
  obtain ⟨e', hr, htbl⟩ := h.follows.log.replay hfuel
  refine ⟨e', hr, fun n q hn => ?_⟩
  rw [htbl] at hn ⊢
  obtain ⟨-, hdata⟩ := replay_refines h.noReplace.quiet
  have hrec : Contents.replay recs n = (some q).map fun p => ⟨((Table.replay recs).objs p).name,
      ((Table.replay recs).objs p).level, ((Table.replay recs).objs p).size,
      ((Table.replay recs).objs p).map⟩ := by
    rw [← hdata, Table.data, hn]
  exact h.covered n _ hrec

/-- **The zone is filled up** by collections that change nothing. -/
theorem SizeInv.fill (k : Nat) : ∀ {s : SizeState} {recs : List Rec}, SizeInv s seq recs →
    s.env.tbl.find n = some p → (s.env.tbl.objs p).isWriting = false →
    s.env.md.curr.sect + s.env.md.curr.capacity ≤ s.env.md.curr.wptr + 1 + k →
    ∃ steps s' recs', Runs SizeState.step (fun s a => a.Allowed s) s steps s' ∧
      SizeInv s' seq recs' ∧ s.env.tbl.Same s'.env.tbl ∧ s'.env.Full := by
  induction k with
  | zero =>
    intro s recs h _ _ hk
    exact ⟨[], s, recs, .nil _, h, .refl _, hk⟩
  | succ k ih =>
    intro s recs h hp hwr hk
    by_cases hfull : s.env.Full
    · exact ⟨[], s, recs, .nil _, h, .refl _, hfull⟩
    have hsame0 : s.env.tbl.set p (s.env.tbl.objs p) = s.env.tbl := by
      rw [Table.set, update_eq_self]
    obtain ⟨e', seq', recs', he, -, hf⟩ := h.follows.flushGCChange hp (f := s.env.tbl.objs p) rfl
      (by rw [hsame0]; exact h.follows.bounded) fun hf => absurd hf hfull
    have hstep : s.step (.gcChange n (s.env.tbl.objs p).map) = some ⟨e', s.pending⟩ := by
      rw [SizeState.step, hp]
      show (if (s.env.tbl.objs p).isWriting = true then none else _) = _
      rw [if_neg (by simp [hwr])]
      exact bind_eq_some_iff.mpr ⟨e', toOption_eq_some.mpr he, rfl⟩
    have hsame : s.env.tbl.Same e'.tbl := Table.Same.trans (.marked s.env.tbl p) hf.same
    have hb : e'.tbl.Bounded := h.follows.bounded.same hsame
    have ha : SizeStep.Allowed s (.gcChange n (s.env.tbl.objs p).map) :=
      ⟨⟨fun q hq => by cases hp.symm.trans hq; exact le_refl _, fun hf => absurd hf hfull⟩,
        fun s' hs' => by cases hstep.symm.trans hs'; exact hb, fun hf => absurd hf hfull⟩
    obtain ⟨seq1, recs1, h1, hf1⟩ := h.gcChange hp hwr (le_refl _) (fun hf => absurd hf hfull)
      (fun hf => absurd hf hfull) he hb
    have hsmall := small_gcChange (f := (s.env.tbl.objs p).setMap (s.env.tbl.objs p).map)
      (h.follows.bounded.name hp) (h.follows.bounded.pieces hp)
    cases hf1 with
    | snapshot full tbl kept => exact absurd (hsmall.room_iff.mpr hfull) full
    | append room tbl curr =>
      obtain ⟨i, hi⟩ := hsame.objs p
      obtain ⟨steps, s', recs', hrun, h', hs', hfull'⟩ := ih h1 ((hsame.find n).trans hp)
        (by rw [show (SizeState.mk e' s.pending).env = e' from rfl, hi]; exact hwr) (by
          rw [show (SizeState.mk e' s.pending).env.md.curr = _ from curr, hsmall.sectors]
          show s.env.md.curr.sect + s.env.md.curr.capacity ≤ s.env.md.curr.wptr + 1 + 1 + k
          omega)
      exact ⟨_ :: steps, s', recs', .cons ha hstep hrun, h', hsame.trans hs', hfull'⟩

end

/-! ### A file with a byte in its cache, and another one -/

/-- The file `b`, closed without a byte. -/
def closedB : ZnsFile := { ZnsFile.new nameB 0 with cache := none }

/-- The new file `b`. -/
def newB : ZnsFile := { ZnsFile.new nameB 0 with isWriting := true }

/-- The table with `b` and the file `f`, which has the name `a`. -/
def pairTable (f : ZnsFile) : Table := ((Table.single closedB).alloc f).1.put nameA (some 1)

section

variable {f g : ZnsFile}

theorem find_pairTable (n : Name) : (pairTable f).find n
    = if nameA = n then some 1 else if nameB = n then some 0 else none := by
  rw [pairTable, find_put, find_alloc, find_single]
  rfl

theorem set_pairTable : (pairTable f).set 1 g = pairTable g := by
  rw [pairTable, pairTable, Table.set, Table.put, Table.put]
  congr 1
  exact update_idem _ _ _

/-- What both files of the table satisfy. -/
theorem forall_pairTable {P : Name → ZnsFile → Prop} (hb : P nameB closedB) (ha : P nameA f) {n : Name}
    {p : Ptr} (hn : (pairTable f).find n = some p) : P n ((pairTable f).objs p) := by
  rw [find_pairTable] at hn
  split at hn
  · next h =>
    cases hn
    exact h ▸ ha
  · split at hn <;> cases hn
    next h => exact h ▸ hb

theorem bounded_pairTable (hname : f.name = nameA) (hmap : f.map.length ≤ 1) :
    (pairTable f).Bounded := by
  have hsnap : (pairTable f).snapshot = [f.entry 0, closedB.entry 0] := rfl
  refine ⟨forall_pairTable (P := fun _ g => NameOk g.name) nameB_ok (hname ▸ nameA_ok),
    forall_pairTable (P := fun _ g => g.map.length ≤ maxPieces) (Nat.zero_le _)
      (le_trans hmap (by decide)), ?_, ?_⟩
  · rw [hsnap]
    exact show 2 < 2 ^ 16 by decide
  · rw [hsnap, flatMap_cons, flatMap_cons, flatMap_nil, append_nil, length_append,
      FileRec.bytes_length (show f.name.length ≤ _ by rw [hname]; decide),
      FileRec.bytes_length (show closedB.name.length ≤ _ by decide)]
    have hroom : metaZoneHeadLen + metadataHeadLen + 4 + (zrocksFileMetaLen + zrocksMapLen * 1 +
      (zrocksFileMetaLen + zrocksMapLen * 0)) < fileMetadataBufSize := by decide
    refine lt_of_le_of_lt ?_ hroom
    show _ + (_ + _ * f.map.length + _) ≤ _
    gcongr
    exact le_refl _

theorem step_write {s : SizeState} {n : Name} {p : Ptr} {a : WriteStep} {k : Nat} {e' : Env}
    (hp : s.env.tbl.find n = some p) (hwr : (s.env.tbl.objs p).isWriting = true)
    (hk : a.pending (s.pending n) = some k) (he : writeStep ⟨n, p⟩ s.env a = some e') :
    s.step (.write n a) = some ⟨e', update s.pending n k⟩ := by
  rw [SizeState.step]
  simp only [hp, hwr, hk, he, bind, Option.bind, if_true]

theorem allowed_of {s s' : SizeState} {a : SizeStep} (hc : a.Covered s) (hs : s.step a = some s')
    (hb : s'.env.tbl.Bounded) (hseq : s.env.sequence < 2 ^ 32) : a.Allowed s :=
  ⟨hc, fun s'' hs' => by cases hs.symm.trans hs'; exact hb, fun _ => hseq⟩

/-- **The file `b` is created and closed, and the file `a` has a byte in its cache.** -/
theorem exists_cached : ∃ e0 steps s seq recs, loadMetaData 0 (Env.fresh smallMd) = .ok (e0, .ok) ∧
    Runs SizeState.step (fun s a => a.Allowed s) ⟨e0, fun _ => 0⟩ steps s ∧ SizeInv s seq recs ∧
    s.env.tbl = pairTable newByte ∧ s.env.sequence < 2 ^ 32 := by
  obtain ⟨e0, hload, ht, hl, -⟩ := load_fresh smallMd 0
  have hi := SizeInv.fresh hl ht
  have hseq : ∀ t, (e0.setTbl t).sequence < 2 ^ 32 := fun t => by
    rw [show (e0.setTbl t).sequence = e0.sequence from rfl, hi.follows.log.sequence]
    decide
  -- `b` is created and closed
  have h1 : SizeState.step ⟨e0, fun _ => 0⟩ (.create nameB)
      = some ⟨e0.setTbl (.single newB), fun _ => 0⟩ := by
    have hnew : newWritableFile e0 nameB = .ok (e0.setTbl (.single newB), ⟨nameB, 0⟩) := by
      rw [newWritableFile_fresh (by rw [ht, find_empty]), ht]
      rfl
    rw [SizeState.step]
    simp only [hnew]
    exact congrArg (fun pd => some (SizeState.mk (e0.setTbl (.single newB)) pd))
      (update_eq_self nameB _)
  have h2 : SizeState.step ⟨e0.setTbl (.single newB), fun _ => 0⟩ (.close nameB)
      = some ⟨e0.setTbl (.single closedB), fun _ => 0⟩ := by
    have hset : (Table.single newB).set 0 closedB = .single closedB := set_single newB rfl
    have hfind : (e0.setTbl (.single newB)).tbl.find nameB = some 0 := find_single_self newB
    rw [SizeState.step]
    simp only [hfind, bind, Option.bind]
    rw [← hset]
    exact if_pos (by rfl)
  -- `a` is created, and a byte appended
  have h3 : SizeState.step ⟨e0.setTbl (.single closedB), fun _ => 0⟩ (.create nameA)
      = some ⟨e0.setTbl (pairTable newA), fun _ => 0⟩ := by
    rw [SizeState.step]
    exact congrArg (fun pd => some (SizeState.mk (e0.setTbl (pairTable newA)) pd))
      (update_eq_self nameA _)
  have hfind : ∀ f, (e0.setTbl (pairTable f)).tbl.find nameA = some 1 := fun f => find_pairTable nameA
  have h4 : writeStep ⟨nameA, 1⟩ (e0.setTbl (pairTable newA)) (.put [0])
      = some (e0.setTbl (pairTable cachedByte)) := by
    rw [writeStep, cachePut, ← set_pairTable (f := newA) (g := cachedByte)]
    show (if 0 + 1 > znsMaxBuf then _ else _ : Except Stop Env).toOption = _
    rw [if_neg (by decide)]
    rfl
  have h4 := step_write (s := ⟨e0.setTbl (pairTable newA), fun _ => 0⟩) (hfind newA) rfl rfl h4
  have h5 : writeStep ⟨nameA, 1⟩ (e0.setTbl (pairTable cachedByte)) (.grow 1)
      = some (e0.setTbl (pairTable newByte)) := by
    rw [writeStep, growSize, ← set_pairTable (f := cachedByte) (g := newByte)]
    rfl
  have h5 := step_write (s := ⟨e0.setTbl (pairTable cachedByte), update (fun _ => 0) nameA 1⟩)
    (k := 0) (hfind cachedByte) rfl rfl h5
  have hb1 : (Table.single newB).Bounded := .single nameB_ok (Nat.zero_le _)
  have hb2 : (Table.single closedB).Bounded := .single nameB_ok (Nat.zero_le _)
  have a1 : SizeStep.Allowed ⟨e0, fun _ => 0⟩ (.create nameB) :=
    allowed_of (show e0.tbl.find nameB = none by rw [ht, find_empty]) h1 hb1 (hseq e0.tbl)
  have a2 : SizeStep.Allowed ⟨e0.setTbl (.single newB), fun _ => 0⟩ (.close nameB) :=
    allowed_of trivial h2 hb2 (hseq _)
  have a3 : SizeStep.Allowed ⟨e0.setTbl (.single closedB), fun _ => 0⟩ (.create nameA) :=
    allowed_of (show (Table.single closedB).find nameA = none from find_single closedB nameA) h3
      (bounded_pairTable rfl (Nat.zero_le _)) (hseq _)
  have a4 := allowed_of (by exact trivial) h4 (bounded_pairTable rfl (Nat.zero_le _)) (hseq _)
  have a5 := allowed_of (by exact trivial) h5 (bounded_pairTable rfl (Nat.zero_le _)) (hseq _)
  have hrun := Runs.cons a1 h1 (.cons a2 h2 (.cons a3 h3 (.cons a4 h4 (.one a5 h5))))
  obtain ⟨seq, recs, hinv⟩ := hi.run hrun
  exact ⟨e0, _, _, seq, recs, hload, hrun, hinv, rfl, hseq _⟩

/-- **The byte of `a` is stored in a piece.** -/
theorem exists_synced (m : ZrocksMap) (hm : 1 ≤ payload [m]) :
    ∃ e0 steps s, loadMetaData 0 (Env.fresh smallMd) = .ok (e0, .ok) ∧
      Runs SizeState.step (fun s a => a.Allowed s) ⟨e0, fun _ => 0⟩ steps s ∧
      ∃ k, ∀ fuel, k < fuel → ∃ e' q, replay fuel s.env.restart = .ok (e', .ok) ∧
        e'.tbl.find nameA = some q ∧ (e'.tbl.objs q).map = [m] := by
  obtain ⟨e0, steps, s, seq, recs, hload, hrun, hi, htbl, hseq⟩ := exists_cached
  have ht := hi.follows.agrees.tidy
  have hp : s.env.tbl.find nameA = some 1 := by rw [htbl]; exact find_pairTable nameA
  have hobj : s.env.tbl.objs 1 = newByte := by rw [htbl]; rfl
  obtain ⟨e', he, hb⟩ := hi.follows.log.exists_syncFlush (h := ⟨nameA, 1⟩) [m] ht hp
    (fun _ => hseq) fun f hn hf => by
      rw [htbl, set_pairTable]
      rw [hobj] at hn hf
      exact bounded_pairTable hn (by rw [hf]; exact le_refl 1)
  have hstep := step_write (a := .sync [m]) (k := s.pending nameA) hp (by rw [hobj]; rfl) rfl
    (toOption_eq_some.mpr he)
  have ha : SizeStep.Allowed s (.write nameA (.sync [m])) := by
    refine allowed_of ⟨fun q hq => ?_, fun _ n q hn hne => ?_⟩ hstep hb hseq
    · cases hp.symm.trans hq
      rw [hobj]
      exact hm
    · rw [htbl] at hn ⊢
      exact forall_pairTable (P := fun n g => n ≠ nameA → g.size ≤ payload g.map)
        (fun _ => Nat.zero_le _) (fun h => absurd rfl h) hn hne
  -- no file has a piece that is not recorded, before and after the Sync
  have hclean : SyncInv ⟨s.env, []⟩ seq recs := by
    refine ⟨hi.follows, fun {n p} hn _ => ?_⟩
    have hn : s.env.tbl.find n = some p := hn
    show (s.env.tbl.objs p).startIndex = (s.env.tbl.objs p).map.length
    rw [htbl] at hn ⊢
    exact forall_pairTable (P := fun _ g => g.startIndex = g.map.length) rfl rfl hn
  obtain ⟨f, hpush⟩ := exists_pushed ⟨nameA, 1⟩ [m] s.env
  obtain ⟨seq', recs', hno, h'⟩ := (hclean.push hp (hb.pushed ht he)).flush
    ((hpush.find nameA).trans hp) (hpush.sequence_lt fun _ => hseq) he hb
  obtain ⟨c, hsame⟩ := syncFlush_push he
  refine ⟨e0, _, _, hload, hrun.append (.one ha hstep), recs'.length, fun fuel hfuel => ?_⟩
  obtain ⟨e1, hr, hfiles, -⟩ := h'.replay (hno hi.noReplace) (by simp) hfuel
  have hmap : (e'.tbl.objs 1).map = [m] := by
    rw [hsame.map, objs_set, update_self, hobj]
    rfl
  obtain ⟨q, r, hq, hqm, -⟩ := hfiles nameA 1 ((hsame.find nameA).trans hp) (by rw [hmap]; simp)
  exact ⟨e1, q, hr, hq, hqm.trans hmap⟩

end

/-! ### What is loaded -/

/-- **Recorded sizes.**  In every state of a run in which the Syncs store the cached bytes, the
collections lose none, and the other files are settled when a record finds the metadata zone full, each
loaded file has the bytes its size says. -/
theorem sizes_run {g : MdSize} {fuel₀ : Nat} {e₀ : Env} {steps : List SizeStep} {s : SizeState}
    (hload : loadMetaData fuel₀ (Env.fresh g) = .ok (e₀, .ok))
    (hrun : Runs SizeState.step (fun s a => a.Allowed s) ⟨e₀, fun _ => 0⟩ steps s) :
    ∃ seq recs, LogIn s.env.md seq recs ∧ ∀ fuel, recs.length < fuel →
      ∃ e', replay fuel s.env.restart = .ok (e', .ok) ∧ ∀ n q, e'.tbl.find n = some q →
        (e'.tbl.objs q).size ≤ payload (e'.tbl.objs q).map := by
  obtain ⟨e₁, he₁, ht, hl, -⟩ := load_fresh g fuel₀
  cases he₁.symm.trans hload
  obtain ⟨seq, recs, hinv⟩ := (SizeInv.fresh hl ht).run hrun
  exact ⟨seq, recs, hinv.follows.log.log, fun fuel hfuel => hinv.replay hfuel⟩

/-- The byte of `a` is stored by a Sync, and loaded in one piece. -/
theorem sizes_run_synced : ∃ e₀ steps s, loadMetaData 0 (Env.fresh smallMd) = .ok (e₀, .ok) ∧
    Runs SizeState.step (fun s a => a.Allowed s) ⟨e₀, fun _ => 0⟩ steps s ∧
    ∃ k, ∀ fuel, k < fuel → ∃ e' q, replay fuel s.env.restart = .ok (e', .ok) ∧
      e'.tbl.find nameA = some q ∧ (e'.tbl.objs q).map = [⟨0, 0, 1, 32767⟩] ∧
      ∀ n q, e'.tbl.find n = some q → (e'.tbl.objs q).size ≤ payload (e'.tbl.objs q).map := by
  obtain ⟨e₀, steps, s, hload, hrun, k, hk⟩ := exists_synced ⟨0, 0, 1, 32767⟩ (by decide)
  obtain ⟨seq, recs, -, hsizes⟩ := sizes_run hload hrun
  refine ⟨e₀, steps, s, hload, hrun, max k recs.length, fun fuel hfuel => ?_⟩
  obtain ⟨e', hr, hle⟩ := hsizes fuel (lt_of_le_of_lt (le_max_right _ _) hfuel)
  obtain ⟨e1, q, hr1, hq, hmap⟩ := hk fuel (lt_of_le_of_lt (le_max_left _ _) hfuel)
  cases hr.symm.trans hr1
  exact ⟨e', q, hr, hq, hmap, hle⟩

/-- **A size without bytes.**  The file `a` has a byte in its cache; collections of the file `b` fill
the metadata zone, and the snapshot says that `a` has one byte and no pieces. -/
theorem sizes_lost : ∃ e₀ steps s, loadMetaData 0 (Env.fresh smallMd) = .ok (e₀, .ok) ∧
    Runs SizeState.step (fun _ _ => True) ⟨e₀, fun _ => 0⟩ steps s ∧
    ∃ k, ∀ fuel, k < fuel → ∃ e' q, replay fuel s.env.restart = .ok (e', .ok) ∧
      e'.tbl.find nameA = some q ∧ (e'.tbl.objs q).size = 1 ∧ (e'.tbl.objs q).map = [] := by
  obtain ⟨e₀, steps, s, seq, recs, hload, hrun, hi, htbl, hseq⟩ := exists_cached
  have hp : s.env.tbl.find nameB = some 0 := by rw [htbl, find_pairTable]; rfl
  have hwr : (s.env.tbl.objs 0).isWriting = false := by rw [htbl]; rfl
  obtain ⟨steps', s', recs', hrun', hi', hsame, hfull⟩ := hi.fill
    (s.env.md.curr.sect + s.env.md.curr.capacity) hp hwr (by omega)
  have hseq' : s'.env.sequence < 2 ^ 32 := by
    rw [hi'.follows.log.sequence, ← hi.follows.log.sequence]
    exact hseq
  -- the collection that finds the zone full
  have hp' : s'.env.tbl.find nameB = some 0 := (hsame.find nameB).trans hp
  have hset : s'.env.tbl.set 0 (s'.env.tbl.objs 0) = s'.env.tbl := by
    rw [Table.set, update_eq_self]
  obtain ⟨e', seq', recs'', he, hk, hf⟩ := hi'.follows.flushGCChange hp' (f := s'.env.tbl.objs 0) rfl
    (by rw [hset]; exact hi'.follows.bounded) fun _ => hseq'
  have hstep : s'.step (.gcChange nameB (s'.env.tbl.objs 0).map) = some ⟨e', s'.pending⟩ := by
    obtain ⟨i, hi⟩ := hsame.objs 0
    rw [SizeState.step, hp']
    show (if (s'.env.tbl.objs 0).isWriting = true then none else _) = _
    rw [if_neg (by rw [hi]; simp [hwr])]
    exact bind_eq_some_iff.mpr ⟨e', toOption_eq_some.mpr he, rfl⟩
  have hsmall := small_gcChange (f := s'.env.tbl.objs 0) (hi'.follows.bounded.name hp')
    (hi'.follows.bounded.pieces hp')
  refine ⟨e₀, _, ⟨e', s'.pending⟩, hload,
    ((hrun.mono fun _ _ _ => trivial).append (hrun'.mono fun _ _ _ => trivial)).append
      (.one trivial hstep), recs''.length, fun fuel hfuel => ?_⟩
  obtain ⟨e'', hr, htbl''⟩ := hk.log.replay hfuel
  cases hf with
  | append room tbl curr => exact absurd hfull (hsmall.room_iff.mp room)
  | snapshot full tbl kept =>
    have htidy : (s'.env.tbl.set 0 (s'.env.tbl.objs 0).marked).Tidy :=
      hi'.follows.agrees.tidy.set rfl
    obtain ⟨-, hdata⟩ := replay_refines (show Quiet _ [.base _] from ⟨trivial, trivial⟩)
    have hrec : (Table.replay _).data nameA = _ :=
      (congrFun hdata nameA).trans (htidy.replay_snapshot nameA)
    have hfind : (s'.env.tbl.set 0 (s'.env.tbl.objs 0).marked).find nameA = some 1 := by
      rw [find_set, hsame.find, htbl, find_pairTable]
      rfl
    have hobj : ∃ i, (s'.env.tbl.set 0 (s'.env.tbl.objs 0).marked).objs 1
        = { newByte with startIndex := i } := by
      obtain ⟨i, hi⟩ := hsame.objs 1
      refine ⟨i, ?_⟩
      rw [objs_set, update_of_ne (by decide), hi, htbl]
      rfl
    obtain ⟨i, hi⟩ := hobj
    rw [hfind, map_some, hi] at hrec
    obtain ⟨q, hq, hqr⟩ := map_eq_some_iff.mp hrec
    refine ⟨e'', q, hr, htbl'' ▸ hq, ?_, ?_⟩
    · rw [htbl'']
      exact (congrArg FileRec.size hqr).trans rfl
    · rw [htbl'']
      exact (congrArg FileRec.pieces hqr).trans rfl

end Xztl
