import Xztl.Env.GcUnits
import Xztl.Env.Recreate
import Xztl.Zrocks.Rebuild

/-!
# Env — the pieces of all files

The live pieces of a table are those in the maps of its files.  A write adds its pieces to the map of
one file and to the counts of their nodes; a deletion, a rename and a collection should take off what
they make disappear.

**`valid_run`** says that they do, in every run in which no file with pieces is created again or
renamed over.  `NewWritableFile` and `RenameFile` drop the file that had the name without trimming
its pieces, and then the counts stay too high (`valid_leak`).
-/

namespace Xztl

open Function List Except Option Table

/-! ### Live pieces -/

/-- The pieces of an entry. -/
def Table.piecesOf (t : Table) : Option Ptr → List ZrocksMap
  | some p => (t.objs p).map
  | none => []

/-- The pieces of all files. -/
def Table.live (t : Table) : List ZrocksMap := t.files.toList.flatMap fun x => t.piecesOf x.2

variable {st : Status}

section

variable {t t' : Table} {n : Name} {p : Ptr} {f : ZnsFile} {q : Option Ptr}

theorem files_nodup (t : Table) : t.files.toList.Nodup := by
  refine Std.ExtTreeMap.distinct_keys_toList.imp fun {x y} hne e => hne ?_
  rw [e]
  exact Std.ReflCmp.compare_self

theorem files_perm (h : t.files[n]? = some q) :
    t.files.toList.Perm ((n, q) :: (t.erase n).files.toList) := by
  have hnot : ∀ q', (n, q') ∉ (t.erase n).files.toList := fun q' hm => by
    rw [Std.ExtTreeMap.mem_toList_iff_getElem?_eq_some, Table.erase,
      Std.ExtTreeMap.getElem?_erase] at hm
    simp at hm
  refine (perm_ext_iff_of_nodup (files_nodup t)
    (nodup_cons.mpr ⟨hnot q, files_nodup _⟩)).mpr ?_
  rintro ⟨m, q'⟩
  rw [mem_cons, Std.ExtTreeMap.mem_toList_iff_getElem?_eq_some,
    Std.ExtTreeMap.mem_toList_iff_getElem?_eq_some, Table.erase, Std.ExtTreeMap.getElem?_erase]
  by_cases e : n = m
  · subst e
    simp [h, eq_comm]
  · simp [e, Ne.symm e]

/-- **One file and the others.** -/
theorem Table.live_perm (h : t.find n = some p) :
    t.live.Perm ((t.objs p).map ++ (t.erase n).live) := by
  have hq : t.files[n]? = some (some p) := join_eq_some_iff.mp h
  exact (files_perm hq).flatMap_right _

theorem Table.live_erase_none (h : t.find n = none) : t.live.Perm (t.erase n).live := by
  cases hq : t.files[n]? with
  | none =>
    have : (t.erase n).files = t.files := by
      refine Std.ExtTreeMap.ext_getElem? fun m => ?_
      rw [Table.erase, Std.ExtTreeMap.getElem?_erase]
      by_cases e : n = m
      · subst e
        simp [hq]
      · simp [e]
    rw [Table.live, Table.live, this]
    rfl
  | some q =>
    rw [Table.find, hq, join_some] at h
    subst h
    exact (files_perm hq).flatMap_right _

/-- A new entry, behind the erasing of the old one. -/
theorem Table.live_put : (t.put n (some p)).live.Perm ((t.objs p).map ++ (t.erase n).live) := by
  have hfind : (t.put n (some p)).find n = some p := by rw [find_put, if_pos rfl]
  have herase : ((t.put n (some p)).erase n).live = (t.erase n).live := by
    have : (t.files.insert n (some p)).erase n = t.files.erase n := by
      refine Std.ExtTreeMap.ext_getElem? fun m => ?_
      rw [Std.ExtTreeMap.getElem?_erase, Std.ExtTreeMap.getElem?_erase,
        Std.ExtTreeMap.getElem?_insert]
      by_cases e : n = m
      · simp [e]
      · simp [e]
    show ((t.files.insert n (some p)).erase n).toList.flatMap _ = (t.files.erase n).toList.flatMap _
    rw [this]
    rfl
  exact herase ▸ live_perm hfind

theorem Table.live_congr (hf : t'.files = t.files)
    (h : ∀ m q, t.find m = some q → (t'.objs q).map = (t.objs q).map) : t'.live = t.live := by
  rw [Table.live, Table.live, hf, flatMap_congr]
  rintro ⟨m, q⟩ hm
  cases q with
  | none => rfl
  | some q => exact h m q ((t.find_eq_some m q).mpr hm)

theorem Table.Same.live (h : t.Same t') : t'.live = t.live :=
  live_congr h.files fun _ q _ => h.map q

theorem Table.live_set_other (h : ∀ m, t.find m ≠ some p) : (t.set p f).live = t.live :=
  live_congr rfl fun m q hm => by
    have hq : q ≠ p := fun e => h m (e ▸ hm)
    rw [objs_set, update_of_ne hq]

theorem Table.Tidy.live_set (h : t.Tidy) (hn : t.find n = some p) :
    (t.set p f).live.Perm (f.map ++ (t.erase n).live) := by
  have hn' : (t.set p f).find n = some p := hn
  have herase : ((t.set p f).erase n).live = (t.erase n).live :=
    live_set_other (t := t.erase n) fun m hm => by
      rw [find_erase] at hm
      split at hm
      · cases hm
      · next e => exact e (h.inj hn hm)
  have := live_perm hn'
  rwa [herase, objs_set, update_self] at this

theorem Table.Tidy.live_pushed {maps : List ZrocksMap} (h : t.Tidy) (hn : t.find n = some p)
    (hf : f.map = (t.objs p).map ++ maps) : (t.set p f).live.Perm (t.live ++ maps) := by
  refine (h.live_set hn).trans ?_
  rw [hf]
  refine List.Perm.trans ?_ ((live_perm hn).symm.append_right maps)
  rw [append_assoc, append_assoc]
  exact perm_append_comm.append_left _

theorem Table.Tidy.live_alloc (h : t.Tidy) (hn : t.find n = none) :
    ((t.alloc f).1.put n (some t.next)).live.Perm (f.map ++ t.live) := by
  have hput := live_put (t := (t.alloc f).1) (n := n) (p := t.next)
  have hobj : (t.alloc f).1.objs t.next = f := update_self _ _ _
  rw [hobj] at hput
  refine hput.trans (List.Perm.append_left _ ?_)
  refine (live_erase_none (t := (t.alloc f).1) hn).symm.trans (.of_eq ?_)
  refine live_congr rfl fun m q hm => ?_
  exact congrArg ZnsFile.map (update_of_ne (Nat.ne_of_lt (h.lt hm)) _ _)

end

/-! ### Writes -/

/-- The counts follow the table. -/
structure Counted (w : World) : Prop where
  sound : Sound w.z w.env.tbl.live
  tidy : w.env.tbl.Tidy

/-- Writing through a pointer changes no entry and no other object's cache. -/
structure Table.WroteAt (p : Ptr) (t t' : Table) : Prop where
  files : t'.files = t.files
  freed : t'.freed = t.freed
  next : t'.next = t.next
  cache : ∀ q, q ≠ p → (t'.objs q).cache = (t.objs q).cache

section

variable {t t' t'' : Table} {n : Name} {p : Ptr} {f : ZnsFile} {w w' : World} {h : Handle}

theorem Table.WroteAt.refl (p : Ptr) (t : Table) : t.WroteAt p t := ⟨rfl, rfl, rfl, fun _ _ => rfl⟩

theorem Table.WroteAt.trans (h1 : t.WroteAt p t') (h2 : t'.WroteAt p t'') : t.WroteAt p t'' :=
  ⟨h2.files.trans h1.files, h2.freed.trans h1.freed, h2.next.trans h1.next,
    fun q hq => (h2.cache q hq).trans (h1.cache q hq)⟩

theorem Table.WroteAt.set (t : Table) (p : Ptr) (f : ZnsFile) : t.WroteAt p (t.set p f) :=
  ⟨rfl, rfl, rfl, fun q hq => by rw [objs_set, update_of_ne hq]⟩

theorem Table.Same.wroteAt (h : t.Same t') : t.WroteAt p t' :=
  ⟨h.files, h.freed, h.next, fun q _ => by
    obtain ⟨i, hi⟩ := h.objs q
    rw [hi]⟩

/-- A change of an object that keeps its name and its pieces. -/
theorem Counted.touch (hc : Counted w) (hname : f.name = (w.env.tbl.objs p).name)
    (hmap : f.map = (w.env.tbl.objs p).map) : Counted ⟨w.z, w.env.setFile p f⟩ := by
  refine ⟨?_, hc.tidy.set hname⟩
  have hlive : (w.env.tbl.set p f).live = w.env.tbl.live := live_congr rfl fun m q _ => by
    rw [objs_set]
    by_cases e : q = p
    · subst e
      rw [update_self, hmap]
    · rw [update_of_ne e]
  exact (show (w.env.setFile p f).tbl.live = _ from hlive) ▸ hc.sound

section

variable (hc : Counted w) (hin : w.env.tbl.find n = some h.znsFile)
include hc hin

/-- **A Sync** adds the pieces of its write to the file and to the counts. -/
theorem Counted.sync {s : Status} (hs : Xztl.sync w h io = .ok (w', s)) :
    Counted w' ∧ w.env.tbl.WroteAt h.znsFile w'.env.tbl := by
  obtain ⟨-, ⟨-, rfl, -⟩ | ⟨-, -, maps, hw, he⟩⟩ := sync_cases hs
  · exact ⟨hc, .refl _ _⟩
  obtain ⟨c, hsame⟩ := syncFlush_push he
  obtain ⟨f, hf⟩ : ∃ f : ZnsFile, f = { w.env.tbl.objs h.znsFile with
    map := (w.env.tbl.objs h.znsFile).map ++ maps, currentNid := c, cache := some [] } := ⟨_, rfl⟩
  rw [← hf] at hsame
  have hlive : w'.env.tbl.live.Perm (w.env.tbl.live ++ maps) := by
    rw [hsame.live]
    exact hc.tidy.live_pushed hin (by rw [hf])
  exact ⟨⟨(hc.sound.write hw).perm hlive.symm, (hc.tidy.set (by rw [hf])).same hsame⟩,
    (Table.WroteAt.set _ _ f).trans hsame.wroteAt⟩

theorem Counted.writeOp {a : WriteOp} (hs : Xztl.writeOp h w a = some w') :
    Counted w' ∧ w.env.tbl.WroteAt h.znsFile w'.env.tbl := by
  obtain ⟨io, st, rfl, he⟩ | ⟨c, size, rfl, -⟩ := writeOp_cases hs
  · exact hc.sync hin he
  · exact ⟨hc.touch rfl rfl, .set _ _ _⟩

theorem Counted.append {data : List UInt8} {ios : List WriteIo} {s : Status}
    (hs : Xztl.append w h data ios = .ok (w', s)) :
    Counted w' ∧ w.env.tbl.WroteAt h.znsFile w'.env.tbl := by
  obtain ⟨as, hrun⟩ := append_ops hs
  refine hrun.invariant (I := fun w' => Counted w' ∧ w.env.tbl.WroteAt h.znsFile w'.env.tbl)
    (fun w1 a w2 ⟨h1, hw1⟩ _ ha => ?_) ⟨hc, .refl _ _⟩
  have hin1 : w1.env.tbl.find n = some h.znsFile := by rw [Table.find, hw1.files]; exact hin
  obtain ⟨h2, hw2⟩ := h1.writeOp hin1 ha
  exact ⟨h2, hw1.trans hw2⟩

theorem Counted.close (hs : Xztl.close w h io = .ok w') :
    Counted w' ∧ w.env.tbl.WroteAt h.znsFile w'.env.tbl := by
  obtain ⟨⟨w1, s⟩, hsync, hs⟩ := bind_eq_ok.mp hs
  cases hs
  obtain ⟨h1, hw1⟩ := hc.sync hin hsync
  exact ⟨h1.touch rfl rfl, hw1.trans (.set _ _ _)⟩

end

end

/-! ### Other operations -/

section

variable {t : Table} {n src dst : Name} {p : Ptr} {f : ZnsFile} {w w' : World} {e e' : Env}

/-- The pieces of an old file are lost. -/
theorem newWritableFile_live {h : Handle} (ht : e.tbl.Tidy)
    (hs : newWritableFile e n = .ok (e', h)) : e'.tbl.live.Perm (e.tbl.erase n).live := by
  have hnone : (e.tbl.erase n).find n = none := by rw [find_erase, if_pos rfl]
  cases hfind : e.tbl.find n with
  | none =>
    cases (newWritableFile_fresh hfind).symm.trans hs
    exact (ht.erase n).live_alloc hnone
  | some p =>
    cases (newWritableFile_exists hfind (ht.live hfind)).symm.trans hs
    exact (ht.delete hfind).live_alloc hnone

/-- **A new file**, over none or one without pieces. -/
theorem Counted.newWritableFile (hc : Counted w)
    (hn : ∀ p, w.env.tbl.find n = some p → (w.env.tbl.objs p).map = [])
    (hs : Xztl.newWritableFile w.env n = .ok (e', h)) : Counted ⟨w.z, e'⟩ := by
  refine ⟨hc.sound.perm (List.Perm.trans ?_ (newWritableFile_live hc.tidy hs).symm),
    newWritableFile_tidy hc.tidy hs⟩
  cases hfind : w.env.tbl.find n with
  | none => exact live_erase_none hfind
  | some p =>
    have hp := live_perm hfind
    rwa [hn p hfind, nil_append] at hp

theorem Counted.deleteFile (hc : Counted w) (hs : Xztl.deleteFile w n = .ok w') : Counted w' := by
  obtain ⟨-, rfl⟩ | ⟨p, z, e, rfl, hfind, hz, hsame, -⟩ := deleteFile_cases hs
  · exact hc
  · obtain ⟨-, hsound⟩ := hc.sound.trimAll _ (live_perm hfind) hz
    have hlive : e.tbl.live = (w.env.tbl.erase n).live := hsame.live
    exact ⟨hlive ▸ hsound, (hc.tidy.delete hfind).same hsame⟩

/-- The pieces after a rename over a file without pieces. -/
theorem Table.Tidy.live_renamed (h : t.Tidy) (hs : t.find src = some p) (hne : src ≠ dst)
    (hdst : ∀ q, t.find dst = some q → (t.objs q).map = []) :
    (t.renamed src dst p).live.Perm t.live := by
  obtain ⟨f, hf⟩ : ∃ f : ZnsFile, f = { t.objs p with name := dst } := ⟨_, rfl⟩
  have hfiles : (t.files.insert dst (some p)).erase src = (t.files.erase src).insert dst (some p) := by
    refine Std.ExtTreeMap.ext_getElem? fun m => ?_
    rw [Std.ExtTreeMap.getElem?_erase, Std.ExtTreeMap.getElem?_insert,
      Std.ExtTreeMap.getElem?_insert, Std.ExtTreeMap.getElem?_erase]
    by_cases e : dst = m
    · subst e
      simp [hne]
    · simp [e]
  have heq : t.renamed src dst p = ((t.set p f).erase src).put dst (some p) := by
    rw [Table.renamed, Table.erase, Table.put, ← hf]
    rw [show (t.set p f).files = t.files from rfl, hfiles]
    rfl
  -- the entry of the source goes, and that of the target, which has no pieces
  have hrest : (((t.set p f).erase src).erase dst).live = ((t.erase src).erase dst).live :=
    live_set_other (t := (t.erase src).erase dst) fun m hm => by
      rw [find_erase, find_erase] at hm
      split at hm
      · cases hm
      · split at hm
        · cases hm
        · next e => exact e (h.inj hs hm)
  have hempty : (t.erase src).live.Perm ((t.erase src).erase dst).live := by
    have hfind : (t.erase src).find dst = t.find dst := by rw [find_erase, if_neg hne]
    cases hd : t.find dst with
    | none => exact live_erase_none (hfind.trans hd)
    | some q =>
      have := live_perm (hfind.trans hd)
      rwa [show ((t.erase src).objs q).map = [] from hdst q hd, nil_append] at this
  have hput := live_put (t := (t.set p f).erase src) (n := dst) (p := p)
  rw [hrest, objs_erase, objs_set, update_self, hf] at hput
  rw [heq, hf]
  exact hput.trans (((live_perm hs).trans (hempty.append_left _)).symm)

/-- **A rename** to a name without a file, or whose file has no pieces. -/
theorem Counted.renameFile (hc : Counted w)
    (hg : ∀ p, w.env.tbl.find src = some p →
      src ≠ dst ∧ ∀ q, w.env.tbl.find dst = some q → (w.env.tbl.objs q).map = [])
    (hs : Xztl.renameFile w.env src dst = .ok e') : Counted ⟨w.z, e'⟩ := by
  obtain ⟨-, rfl⟩ | ⟨p, hfind, hsame, -⟩ := renameFile_cases hs
  · exact hc
  · obtain ⟨hne, hdst⟩ := hg p hfind
    refine ⟨?_, (hc.tidy.renamed hfind hne).same hsame⟩
    rw [hsame.live]
    exact hc.sound.perm (hc.tidy.live_renamed hfind hne hdst).symm

/-- **A migration** that moves all pieces on the node, or finds the file open. -/
theorem Counted.migrateNodeFile {nid : Nat} {gcBuffer : Nat → UInt8} {ios : List GcIo}
    (hc : Counted w) (hp : w.env.tbl.find n = some p)
    (hg : (w.env.tbl.objs p).isWriting = false → AllMoved nid n (w.env.tbl.objs p).level
      (w.env.tbl.objs p).map ios (.start w (w.env.tbl.objs p) gcBuffer))
    (hs : Xztl.migrateNodeFile w nid n gcBuffer ios = .ok w') :
    Counted w' ∧ w.env.tbl.WroteAt p w'.env.tbl := by
  obtain ⟨-, ⟨-, rfl⟩ | ⟨hwr, mapCopy, g, hloop, htrim, hsame, -⟩⟩ := migrateNodeFile_cases hp hs
  · exact ⟨hc, .refl _ _⟩
  have hperm := live_perm hp
  obtain ⟨hnn, live, k, hsound, hunits, hlt, hiff⟩ := (hc.sound.perm hperm).migrateNodeFile hp hwr hs
  obtain rfl := hiff.mpr (hg hwr)
  have hmap : (w'.env.tbl.objs p).map = mapCopy := by
    rw [hsame.map, objs_set, update_self]
  have hlive : w'.env.tbl.live.Perm (mapCopy ++ (w.env.tbl.erase n).live) := by
    rw [hsame.live]
    exact hc.tidy.live_set hp
  refine ⟨⟨?_, (hc.tidy.set (by rfl)).same hsame⟩, (Table.WroteAt.set _ _ _).trans hsame.wroteAt⟩
  refine (hsound.congr (fun m => ?_) fun m hm => ?_).perm hlive.symm
  · have := hunits m
    rw [ite_self, Nat.add_zero, hmap] at this
    rw [this, unitsOn_append]
  · rw [hnn]
    rcases mem_append.mp hm with hm | hm
    · exact hlt m (hmap ▸ hm)
    · exact hc.sound.lt m (hperm.mem_iff.mpr (mem_append_right _ hm))

end

/-! ### Restarts -/

/-- The calls of `zrocks_node_set` for an entry. -/
def Table.setsOf (t : Table) : Option Ptr → List (ZrocksMap × Int)
  | some p => (t.objs p).map.map (·, (t.objs p).level)
  | none => []

/-- All calls, in the order of the names. -/
def Table.allSets (t : Table) : List (ZrocksMap × Int) :=
  t.files.toList.flatMap fun x => t.setsOf x.2

/-- `ZNSEnv::SetNodesInfo`. -/
def setNodesInfo (t : Table) (z : Ztl) : Except Stop Ztl := nodeSets t.allSets z

/-- A new process on the same device: the nodes are built from the zone report `rep`, the metadata is
loaded, the pieces of the files found are counted in their nodes, and nodes without any are reset. -/
def restartWorld (w : World) (fuel entries : Nat) (rep : ZndReport)
    (ans : Nat → Nat → ZoneAns) : Except Stop (World × Status) := do
  let z ← ztlProGrpNodeInit entries rep w.z.dev
  let (e, st) ← loadMetaData fuel w.env.restart
  if st ≠ .ok then return (⟨z, e⟩, st)
  let z ← setNodesInfo e.tbl z
  return (⟨ztlMgmtClearInvalidNode z ans, e⟩, .ok)

/-! ### Runs -/

/-- The translation layer, the environment, and the writable files that were handed out. -/
structure Session where
  w : World
  handles : List Handle

/-- The operations of the environment, on the `i`-th writable file where one is meant, a round of the
management thread, and a restart. -/
inductive EnvOp where
  | create (n : Name)
  | hint (i : Nat) (wlth : Fin 6)
  | append (i : Nat) (data : List UInt8) (ios : List WriteIo)
  | sync (i : Nat) (io : WriteIo)
  | close (i : Nat) (io : WriteIo)
  | delete (n : Name)
  | rename (src dst : Name)
  | migrate (nid : Nat) (n : Name) (gcBuffer : Nat → UInt8) (ios : List GcIo)
  | mgmt
  | restart (fuel entries : Nat) (rep : ZndReport) (ans : Nat → Nat → ZoneAns)

/-- One operation; the zone resets of the management thread succeed.  After a restart that succeeds no
writable file is left. -/
def Session.step (s : Session) : EnvOp → Option Session
  | .create n => do
      let (e, h) ← (newWritableFile s.w.env n).toOption
      some ⟨⟨s.w.z, e⟩, s.handles ++ [h]⟩
  | .hint i wlth => do
      let h ← s.handles[i]?
      let e ← (setWriteLifeTimeHint s.w.env h wlth.val).toOption
      some ⟨⟨s.w.z, e⟩, s.handles⟩
  | .append i data ios => do
      let h ← s.handles[i]?
      let (w, _) ← (append s.w h data ios).toOption
      some ⟨w, s.handles⟩
  | .sync i io => do
      let h ← s.handles[i]?
      let (w, _) ← (sync s.w h io).toOption
      some ⟨w, s.handles⟩
  | .close i io => do
      let h ← s.handles[i]?
      let w ← (close s.w h io).toOption
      some ⟨w, s.handles⟩
  | .delete n => do
      let w ← (deleteFile s.w n).toOption
      some ⟨w, s.handles⟩
  | .rename src dst => do
      let e ← (renameFile s.w.env src dst).toOption
      some ⟨⟨s.w.z, e⟩, s.handles⟩
  | .migrate nid n gcBuffer ios => do
      let w ← (migrateNodeFile s.w nid n gcBuffer ios).toOption
      some ⟨w, s.handles⟩
  | .mgmt => some ⟨⟨ztlMgmtThdProcess s.w.z fun _ => zonesOk, s.w.env⟩, s.handles⟩
  | .restart fuel entries rep ans => do
      let (w, st) ← (restartWorld s.w fuel entries rep ans).toOption
      if st ≠ .ok then none else some ⟨w, []⟩

/-- No file with pieces is created again or renamed over, nor a file renamed to itself; a file that is
renamed over is closed.  Migrations move all pieces on the node, no node is reset while it is a
queue's current node, and the process is not restarted. -/
def EnvOp.Releases (s : Session) : EnvOp → Prop
  | .create n => ∀ p, s.w.env.tbl.find n = some p → (s.w.env.tbl.objs p).map = []
  | .rename src dst => ∀ p, s.w.env.tbl.find src = some p → src ≠ dst ∧
      ∀ q, s.w.env.tbl.find dst = some q →
        (s.w.env.tbl.objs q).map = [] ∧ (s.w.env.tbl.objs q).cache = none
  | .migrate nid n gcBuffer ios => ∀ p, s.w.env.tbl.find n = some p →
      (s.w.env.tbl.objs p).isWriting = false → AllMoved nid n (s.w.env.tbl.objs p).level
        (s.w.env.tbl.objs p).map ios (.start s.w (s.w.env.tbl.objs p) gcBuffer)
  | .mgmt => ∀ e, s.w.z.submitHead.head? = some e → ∀ q, s.w.z.qnode q ≠ some e.1
  | .restart _ _ _ _ => False
  | _ => True

/-- The object of a writable file is gone, in the table, or closed. -/
structure Table.Held (t : Table) (p : Ptr) : Prop where
  lt : p < t.next
  held : t.freed p = true ∨ (∃ n, t.find n = some p) ∨ (t.objs p).cache = none

section

variable {t t' : Table} {n src dst : Name} {p q : Ptr} {f : ZnsFile} {s s' : Session} {a : EnvOp}

section

variable (h : t.Held q)
include h

theorem Table.Held.same (hs : t.Same t') : t'.Held q := by
  refine ⟨hs.next ▸ h.lt, ?_⟩
  obtain ⟨i, hi⟩ := hs.objs q
  rw [hs.freed, hi]
  exact h.held.imp_right (.imp_left fun ⟨n, hn⟩ => ⟨n, by rw [hs.find]; exact hn⟩)

/-- Writes through another pointer, or through one whose object is in the table. -/
theorem Table.Held.wroteAt (hw : t.WroteAt p t') (hp : t.find n = some p) : t'.Held q := by
  refine ⟨hw.next ▸ h.lt, ?_⟩
  rw [hw.freed]
  by_cases e : q = p
  · subst e
    exact Or.inr (Or.inl ⟨n, by rw [Table.find, hw.files]; exact hp⟩)
  · rw [hw.cache q e]
    refine h.held.imp_right (.imp_left ?_)
    rintro ⟨m, hm⟩
    exact ⟨m, by rw [Table.find, hw.files]; exact hm⟩

theorem Table.Held.closed (hf : f.cache = none) : (t.set p f).Held q := by
  refine ⟨h.lt, ?_⟩
  show t.freed q = true ∨ (∃ n, t.find n = some q) ∨ (update t.objs p f q).cache = none
  by_cases e : q = p
  · rw [e, update_self]
    exact Or.inr (Or.inr hf)
  · rw [update_of_ne e]
    exact h.held

theorem Table.Held.delete (hn : t.find n = some p) : ((t.delete p).erase n).Held q := by
  refine ⟨h.lt, ?_⟩
  show update t.freed p true q = true ∨ _
  by_cases e : q = p
  · subst e
    exact Or.inl (update_self _ _ _)
  · rw [update_of_ne e]
    refine h.held.imp_right (.imp_left ?_)
    rintro ⟨m, hm⟩
    refine ⟨m, ?_⟩
    have hne : n ≠ m := fun e' => e (Option.some.inj (hm.symm.trans (e' ▸ hn)))
    rw [find_erase, if_neg hne]
    exact hm

theorem Table.Held.erase (hn : t.find n = none) : (t.erase n).Held q := by
  refine ⟨h.lt, h.held.imp_right (.imp_left ?_)⟩
  rintro ⟨m, hm⟩
  refine ⟨m, ?_⟩
  have hne : n ≠ m := fun e => by
    rw [← e, hn] at hm
    cases hm
  rw [find_erase, if_neg hne]
  exact hm

theorem Table.Held.alloc (hn : t.find n = none) : ((t.alloc f).1.put n (some t.next)).Held q := by
  have hlt := h.lt
  refine ⟨Nat.lt_succ_of_lt hlt, ?_⟩
  show update t.freed t.next false q = true ∨ _ ∨
    (update t.objs t.next f q).cache = none
  rw [update_of_ne (Nat.ne_of_lt hlt), update_of_ne (Nat.ne_of_lt hlt)]
  refine h.held.imp_right (.imp_left ?_)
  rintro ⟨m, hm⟩
  refine ⟨m, ?_⟩
  have hne : n ≠ m := fun e => by
    rw [← e, hn] at hm
    cases hm
  rw [find_put, if_neg hne]
  exact hm

theorem Table.Held.renamed (hs : t.find src = some p) (hne : src ≠ dst)
    (hdst : ∀ q, t.find dst = some q → (t.objs q).cache = none) : (t.renamed src dst p).Held q := by
  refine ⟨h.lt, ?_⟩
  by_cases e : q = p
  · subst e
    exact Or.inr (Or.inl ⟨dst, by rw [find_renamed, if_neg hne, if_pos rfl]⟩)
  · have hobj : (t.renamed src dst p).objs q = t.objs q := update_of_ne e _ _
    rw [hobj]
    rcases h.held with hf | ⟨m, hm⟩ | hc
    · exact Or.inl hf
    · by_cases hd : dst = m
      · exact Or.inr (Or.inr (hdst q (hd ▸ hm)))
      · refine Or.inr (Or.inl ⟨m, ?_⟩)
        have hsm : src ≠ m := fun e' => e (Option.some.inj (hm.symm.trans (e' ▸ hs)))
        rw [find_renamed, if_neg hsm, if_neg hd]
        exact hm
    · exact Or.inr (Or.inr hc)

end

/-- The invariant of the runs. -/
structure SessionInv (s : Session) : Prop where
  counted : Counted s.w
  held : ∀ h ∈ s.handles, s.w.env.tbl.Held h.znsFile

/-- What is done through a handle: its object is in the table or closed. -/
theorem SessionInv.write (hi : SessionInv s) (hh : h ∈ s.handles)
    (hlive : s.w.env.tbl.freed h.znsFile = false) (hin : ∀ n, s.w.env.tbl.find n = some h.znsFile →
      Counted w' ∧ s.w.env.tbl.WroteAt h.znsFile w'.env.tbl)
    (hclosed : (s.w.env.tbl.objs h.znsFile).cache = none →
      Counted w' ∧ ∀ q, s.w.env.tbl.Held q → w'.env.tbl.Held q) : SessionInv ⟨w', s.handles⟩ := by
  rcases (hi.held h hh).held with hf | ⟨n, hn⟩ | hc
  · rw [hlive] at hf
    cases hf
  · obtain ⟨hc, hw⟩ := hin n hn
    exact ⟨hc, fun h' hh' => (hi.held h' hh').wroteAt hw hn⟩
  · obtain ⟨hc, hheld⟩ := hclosed hc
    exact ⟨hc, fun h' hh' => hheld _ (hi.held h' hh')⟩

/-- A Sync through a closed handle does nothing. -/
theorem sync_closed {w : World}
    (hc : (w.env.tbl.objs h.znsFile).cache = none) (hs : sync w h io = .ok (w', st)) : w' = w := by
  obtain ⟨-, ⟨-, rfl, -⟩ | ⟨hne, -⟩⟩ := sync_cases hs
  · rfl
  · rw [hc] at hne
    exact absurd rfl hne

section

variable (hi : SessionInv s)
include hi

theorem SessionInv.sync (hh : h ∈ s.handles) (hs : Xztl.sync s.w h io = .ok (w', st)) :
    SessionInv ⟨w', s.handles⟩ := by
  refine hi.write hh (sync_cases hs).1 (fun n hn => hi.counted.sync hn hs) fun hc => ?_
  rw [sync_closed hc hs]
  exact ⟨hi.counted, fun _ h => h⟩

theorem SessionInv.append {data : List UInt8} {ios : List WriteIo} (hh : h ∈ s.handles)
    (hs : Xztl.append s.w h data ios = .ok (w', st)) : SessionInv ⟨w', s.handles⟩ := by
  have hs' := hs
  rw [Xztl.append, Table.get] at hs'
  by_cases hfreed : s.w.env.tbl.freed h.znsFile = true
  · rw [if_pos hfreed] at hs'
    cases hs'
  refine hi.write hh (Bool.eq_false_iff.mpr hfreed) (fun n hn => hi.counted.append hn hs) fun hc => ?_
  rw [if_neg hfreed] at hs'
  obtain ⟨f, hf, hs'⟩ := bind_eq_ok.mp hs'
  cases hf
  rw [hc] at hs'
  cases hs'
  exact ⟨hi.counted, fun _ h => h⟩

theorem SessionInv.close (hh : h ∈ s.handles) (hs : Xztl.close s.w h io = .ok w') :
    SessionInv ⟨w', s.handles⟩ := by
  obtain ⟨⟨w1, st⟩, hsync, he⟩ := bind_eq_ok.mp hs
  refine hi.write hh (sync_cases hsync).1 (fun n hn => hi.counted.close hn hs) fun hc => ?_
  cases he
  rw [sync_closed hc hsync]
  exact ⟨hi.counted.touch rfl rfl, fun q hq => hq.closed rfl⟩

theorem SessionInv.hint {e' : Env} {wlth : Int} (hh : h ∈ s.handles)
    (hs : setWriteLifeTimeHint s.w.env h wlth = .ok e') : SessionInv ⟨⟨s.w.z, e'⟩, s.handles⟩ := by
  obtain ⟨hfreed, rfl⟩ := setWriteLifeTimeHint_eq_ok.mp hs
  exact hi.write hh hfreed (fun n hn => ⟨hi.counted.touch rfl rfl, .set _ _ _⟩)
    fun hc => ⟨hi.counted.touch rfl rfl, fun q hq => hq.closed hc⟩

theorem SessionInv.create {e' : Env}
    (hg : ∀ p, s.w.env.tbl.find n = some p → (s.w.env.tbl.objs p).map = [])
    (hs : newWritableFile s.w.env n = .ok (e', h)) :
    SessionInv ⟨⟨s.w.z, e'⟩, s.handles ++ [h]⟩ := by
  have hnone : (s.w.env.tbl.erase n).find n = none := by rw [find_erase, if_pos rfl]
  have hnew : ∀ {t : Table} {f : ZnsFile}, ((t.alloc f).1.put n (some t.next)).Held t.next :=
    ⟨Nat.lt_succ_self _, Or.inr (Or.inl ⟨n, (find_put _ _ _ _).trans (if_pos rfl)⟩)⟩
  refine ⟨hi.counted.newWritableFile hg hs, fun h' hh' => ?_⟩
  cases hfind : s.w.env.tbl.find n with
  | none =>
    cases (newWritableFile_fresh hfind).symm.trans hs
    rcases mem_append.mp hh' with hh' | hh'
    · exact ((hi.held h' hh').erase hfind).alloc hnone
    · obtain rfl := mem_singleton.mp hh'
      exact hnew
  | some p =>
    cases (newWritableFile_exists hfind (hi.counted.tidy.live hfind)).symm.trans hs
    rcases mem_append.mp hh' with hh' | hh'
    · exact ((hi.held h' hh').delete hfind).alloc hnone
    · obtain rfl := mem_singleton.mp hh'
      exact hnew

theorem SessionInv.delete (hs : deleteFile s.w n = .ok w') : SessionInv ⟨w', s.handles⟩ := by
  refine ⟨hi.counted.deleteFile hs, fun h hh => ?_⟩
  obtain ⟨-, rfl⟩ | ⟨p, z, e, rfl, hfind, -, hsame, -⟩ := deleteFile_cases hs
  · exact hi.held h hh
  · exact ((hi.held h hh).delete hfind).same hsame

theorem SessionInv.rename {e' : Env} (hg : (EnvOp.rename src dst).Releases s)
    (hs : renameFile s.w.env src dst = .ok e') : SessionInv ⟨⟨s.w.z, e'⟩, s.handles⟩ := by
  refine ⟨hi.counted.renameFile (fun p hp => ⟨(hg p hp).1, fun q hq => ((hg p hp).2 q hq).1⟩) hs,
    fun h hh => ?_⟩
  obtain ⟨-, rfl⟩ | ⟨p, hfind, hsame, -⟩ := renameFile_cases hs
  · exact hi.held h hh
  · obtain ⟨hne, hdst⟩ := hg p hfind
    exact ((hi.held h hh).renamed hfind hne fun q hq => (hdst q hq).2).same hsame

theorem SessionInv.migrate {nid : Nat} {gcBuffer : Nat → UInt8} {ios : List GcIo}
    (hg : (EnvOp.migrate nid n gcBuffer ios).Releases s)
    (hs : migrateNodeFile s.w nid n gcBuffer ios = .ok w') : SessionInv ⟨w', s.handles⟩ := by
  cases hfind : s.w.env.tbl.find n with
  | none =>
    rw [migrateNodeFile, hfind] at hs
    split at hs <;> cases hs
    exact hi
  | some p =>
    obtain ⟨hc, hw⟩ := hi.counted.migrateNodeFile hfind (hg p hfind) hs
    exact ⟨hc, fun h hh => (hi.held h hh).wroteAt hw hfind⟩

theorem SessionInv.mgmt (hg : EnvOp.mgmt.Releases s) :
    SessionInv ⟨⟨ztlMgmtThdProcess s.w.z fun _ => zonesOk, s.w.env⟩, s.handles⟩ := by
  refine ⟨⟨?_, hi.counted.tidy⟩, hi.held⟩
  cases hq : s.w.z.submitHead with
  | nil =>
    simp only [ztlMgmtThdProcess, hq]
    exact hi.counted.sound
  | cons e rest => exact hi.counted.sound.mgmt hq (hg e (by rw [hq]; rfl))

theorem SessionInv.step (hg : a.Releases s) (hs : s.step a = some s') : SessionInv s' := by
  cases a with
  | create n =>
    obtain ⟨⟨e, h⟩, he, ⟨⟩⟩ := toOption_bind_eq_some.mp hs
    exact hi.create hg he
  | hint i wlth =>
    obtain ⟨h, hh, hs⟩ := bind_eq_some_iff.mp hs
    obtain ⟨e, he, ⟨⟩⟩ := toOption_bind_eq_some.mp hs
    exact hi.hint (mem_of_getElem? hh) he
  | append i data ios =>
    obtain ⟨h, hh, hs⟩ := bind_eq_some_iff.mp hs
    obtain ⟨⟨w, st⟩, he, ⟨⟩⟩ := toOption_bind_eq_some.mp hs
    exact hi.append (mem_of_getElem? hh) he
  | sync i io =>
    obtain ⟨h, hh, hs⟩ := bind_eq_some_iff.mp hs
    obtain ⟨⟨w, st⟩, he, ⟨⟩⟩ := toOption_bind_eq_some.mp hs
    exact hi.sync (mem_of_getElem? hh) he
  | close i io =>
    obtain ⟨h, hh, hs⟩ := bind_eq_some_iff.mp hs
    obtain ⟨w, he, ⟨⟩⟩ := toOption_bind_eq_some.mp hs
    exact hi.close (mem_of_getElem? hh) he
  | delete n =>
    obtain ⟨w, he, ⟨⟩⟩ := toOption_bind_eq_some.mp hs
    exact hi.delete he
  | rename src dst =>
    obtain ⟨e, he, ⟨⟩⟩ := toOption_bind_eq_some.mp hs
    exact hi.rename hg he
  | migrate nid n gcBuffer ios =>
    obtain ⟨w, he, ⟨⟩⟩ := toOption_bind_eq_some.mp hs
    exact hi.migrate hg he
  | mgmt =>
    cases hs
    exact hi.mgmt hg
  | restart => exact hg.elim

end

end

/-! ### A file of one byte -/

theorem append_byte {z : Ztl} {e : Env} :
    append ⟨z, e.setTbl (.single newA)⟩ ⟨nameA, 0⟩ [0] []
      = .ok (⟨z, e.setTbl (.single newByte)⟩, .ok) := by
  have hset : ∀ {f g : ZnsFile}, g.name = f.name →
      (e.setTbl (.single f)).setFile 0 g = e.setTbl (.single g) := fun {f g} hf => by
    rw [Env.setFile]
    exact congrArg e.setTbl (set_single f hf)
  have hfit : ([] : List UInt8).length + [(0 : UInt8)].length ≤ znsMaxBuf := by decide
  obtain ⟨e1, hput, happ⟩ := append_cached (w := ⟨z, e.setTbl (.single newA)⟩) (h := ⟨nameA, 0⟩)
    (f := newA) rfl rfl hfit
  have hput' : cachePut (e.setTbl (.single newA)) ⟨nameA, 0⟩ [0]
      = .ok ((e.setTbl (.single newA)).setFile 0 cachedByte) := by
    rw [cachePut]
    exact if_neg (by decide)
  cases hput'.symm.trans hput
  have hgrow : growSize (e.setTbl (.single cachedByte)) ⟨nameA, 0⟩ 1 = e.setTbl (.single newByte) :=
    hset (f := cachedByte) rfl
  rw [happ, hset (f := newA) (g := cachedByte) rfl]
  exact congrArg (fun e => Except.ok (World.mk z e, Status.ok)) hgrow

/-- The Sync of the file `a` with a byte in its cache, on level `l`. -/
theorem exists_byteSync (dev : Dev) (l : Int) : ∃ (e₀ e2 : Env) (io : WriteIo) (z : Ztl) (m : ZrocksMap),
    e₀.tbl = .empty ∧ io.fate = (fun _ _ => 0) ∧
    sync ⟨Ztl.fresh oneNode dev, e₀.setTbl (.single { newByte with level := l })⟩ ⟨nameA, 0⟩ io
      = .ok (⟨z, e2⟩, .ok) ∧
    zrocksWrite (Ztl.fresh oneNode dev) (io.call [0] l) io.ans = .ok (z, xztlOk, [m]) ∧
    m.num.val = 1 ∧ z.room (clampLevel l) + 1 = ztlProOptSecNumInnode ∧
    e2.tbl.files = (Table.single newA).files ∧ (e2.tbl.objs 0).map = [m] ∧
    (e2.tbl.objs 0).level = l ∧ (∀ k, e₀.nidFileMap k = []) ∧
    e2.nidFileMap m.nodeId = [nameA] := by
  obtain ⟨e₀, -, ht, hl, -, hidx⟩ := load_fresh smallMd 0
  have hlog := (SyncInv.fresh hl ht).follows.log
  obtain ⟨f, hf⟩ : ∃ f : ZnsFile, f = { newByte with level := l } := ⟨_, rfl⟩
  obtain ⟨e1, he1⟩ : ∃ e1, e1 = e₀.setTbl (.single f) := ⟨_, rfl⟩
  have ht1 : e1.tbl = .single f := by rw [he1]; rfl
  have hfind : e1.tbl.find nameA = some 0 := by
    rw [ht1]
    exact find_nameA (by rw [hf]; rfl)
  -- the write of the Sync, and its record
  obtain ⟨ans, z, m, hw, hnum, -, -, hroom⟩ := exists_unitWrite
    (c := (WriteIo.mk (fun _ => 0) (fun _ _ => 0) []).call [0] l) (Alloc.fresh oneNode dev)
    (show ((WriteIo.mk (fun _ => 0) (fun _ _ => 0) []).call [0] 0).ncmd = 1 by decide)
    (((Alloc.fresh oneNode dev).enough_iff).mpr (Or.inr (by simp [freshParts, oneNode])))
  have hlog1 : LogOk e1 0 [.base []] := by rw [he1]; exact hlog.setTbl _
  obtain ⟨e2, hflush, -⟩ := hlog1.exists_syncFlush (h := ⟨nameA, 0⟩) [m]
    (by rw [ht1]; exact .single _) hfind (fun _ => by rw [hlog1.sequence]; decide) fun g hn hg => by
      rw [ht1, objs_single, hf] at hn hg
      rw [ht1, set_single f (by rw [hn, hf])]
      exact .single (hn ▸ nameA_ok) (by rw [hg]; exact show 1 ≤ maxPieces by decide)
  have hsync : sync ⟨Ztl.fresh oneNode dev, e1⟩ ⟨nameA, 0⟩ ⟨fun _ => 0, fun _ _ => 0, ans⟩
      = .ok (⟨z, e2⟩, .ok) := by
    have hget : e1.tbl.get 0 = .ok f := by
      rw [ht1]
      rfl
    rw [hf] at hget
    exact sync_ok (w := ⟨Ztl.fresh oneNode dev, e1⟩) (h := ⟨nameA, 0⟩) hget (cons_ne_nil 0 []) hw
      hflush
  obtain ⟨c, hsame⟩ := syncFlush_push hflush
  have hobj : (e2.tbl.objs 0).map = [m] ∧ (e2.tbl.objs 0).level = l := by
    obtain ⟨i, hi⟩ := hsame.objs 0
    rw [hi, objs_set, update_self, ht1, objs_single, hf]
    exact ⟨rfl, rfl⟩
  have hidx2 : e2.nidFileMap m.nodeId = [nameA] := by
    have hcur : (e1.tbl.objs 0).currentNid = -1 := by
      rw [ht1, objs_single, hf]
      rfl
    have hne : (-1 : Int) ≠ m.nodeId.val := by omega
    rw [syncFlush_nidFileMap hflush, pushPieces, foldl_cons, foldl_nil, pushPiece]
    simp only [hcur]
    rw [if_pos hne]
    show update e1.nidFileMap m.nodeId.val (e1.nidFileMap m.nodeId.val ++ [nameA]) _ = _
    rw [update_self, he1]
    exact congrArg (· ++ [nameA]) (hidx _)
  refine ⟨e₀, e2, ⟨fun _ => 0, fun _ _ => 0, ans⟩, z, m, ht, rfl, ?_, hw, hnum, ?_, ?_, hobj.1,
    hobj.2, hidx, hidx2⟩
  · rw [he1, hf] at hsync
    exact hsync
  · exact hroom.trans (if_pos rfl)
  · rw [hsame.files]
    rw [ht1, hf]
    rfl

section

variable {w w' : World} {h : Handle} {io : WriteIo} {z : Ztl} {e : Env} {st : Status}

theorem step_create_nameA (ht : e.tbl = .empty) : Session.step ⟨⟨z, e⟩, []⟩ (.create nameA)
    = some ⟨⟨z, e.setTbl (.single newA)⟩, [⟨nameA, 0⟩]⟩ := by
  rw [Session.step]
  simp only [newWritableFile_nameA ht]
  rfl

theorem step_append_byte :
    Session.step ⟨⟨z, e.setTbl (.single newA)⟩, [⟨nameA, 0⟩]⟩ (.append 0 [0] [])
      = some ⟨⟨z, e.setTbl (.single newByte)⟩, [⟨nameA, 0⟩]⟩ := by
  rw [Session.step]
  simp only [List.getElem?_cons_zero, bind, Option.bind, append_byte]
  rfl

theorem step_sync (hs : sync w h io = .ok (w', st)) :
    Session.step ⟨w, [h]⟩ (.sync 0 io) = some ⟨w', [h]⟩ := by
  rw [Session.step]
  simp only [List.getElem?_cons_zero, bind, Option.bind, hs]
  rfl

end

/-- The file `a` of one byte: the steps that write it to a fresh group, and where they lead. -/
structure ByteFile (dev : Dev) (e₀ : Env) (io : WriteIo) (s₁ s₂ s : Session) (m : ZrocksMap) :
    Prop where
  tbl : e₀.tbl = .empty
  noIndex : ∀ k, e₀.nidFileMap k = []
  create : Session.step ⟨⟨Ztl.fresh oneNode dev, e₀⟩, []⟩ (.create nameA) = some s₁
  append : s₁.step (.append 0 [0] []) = some s₂
  sync : s₂.step (.sync 0 io) = some s
  handles : s₁.handles = [⟨nameA, 0⟩] ∧ s₂.handles = [⟨nameA, 0⟩] ∧ s.handles = [⟨nameA, 0⟩]
  files : s₁.w.env.tbl.files = (Table.single newA).files ∧
    s₂.w.env.tbl.files = (Table.single newA).files ∧ s.w.env.tbl.files = (Table.single newA).files
  map : (s.w.env.tbl.objs 0).map = [m]
  num : m.num.val = 1
  index : s.w.env.nidFileMap m.nodeId = [nameA]

theorem exists_byteSteps (dev : Dev) : ∃ e₀ io s₁ s₂ s m, ByteFile dev e₀ io s₁ s₂ s m := by
  obtain ⟨e₀, e2, io, z, m, ht, -, hsync, -, hnum, -, hfiles, hmap, -, hidx0, hidx⟩ :=
    exists_byteSync dev 0
  exact ⟨e₀, io, _, _, ⟨⟨z, e2⟩, [⟨nameA, 0⟩]⟩, m, ht, hidx0, step_create_nameA ht, step_append_byte,
    step_sync hsync, ⟨rfl, rfl, rfl⟩, ⟨rfl, rfl, hfiles⟩, hmap, hnum, hidx⟩

section

variable {dev : Dev} {e₀ : Env} {io : WriteIo} {s₁ s₂ s : Session} {m : ZrocksMap}

theorem ByteFile.find (h : ByteFile dev e₀ io s₁ s₂ s m) : s.w.env.tbl.find nameA = some 0 := by
  rw [Table.find, h.files.2.2]
  exact find_nameA rfl

theorem ByteFile.run (h : ByteFile dev e₀ io s₁ s₂ s m) :
    Runs Session.step (fun s a => a.Releases s) ⟨⟨Ztl.fresh oneNode dev, e₀⟩, []⟩
      [.create nameA, .append 0 [0] [], .sync 0 io] s := by
  have hg : EnvOp.Releases ⟨⟨Ztl.fresh oneNode dev, e₀⟩, []⟩ (.create nameA) := fun p hp => by
    rw [show (World.mk (Ztl.fresh oneNode dev) e₀).env.tbl = .empty from h.tbl, find_empty] at hp
    cases hp
  exact .cons hg h.create (.cons trivial h.append (.one trivial h.sync))

end

/-! ### Valid units -/

theorem SessionInv.fresh (g : GroupSize) (dev : Dev) {e : Env} (ht : e.tbl = .empty) :
    SessionInv ⟨⟨Ztl.fresh g dev, e⟩, []⟩ := by
  have hlive : e.tbl.live = [] := by
    rw [ht]
    rfl
  exact ⟨⟨hlive ▸ Sound.fresh g dev, ht ▸ Table.Tidy.empty⟩, fun _ h => absurd h not_mem_nil⟩

theorem ByteFile.counted {dev : Dev} {e₀ : Env} {io : WriteIo} {s₁ s₂ s : Session} {m : ZrocksMap}
    (h : ByteFile dev e₀ io s₁ s₂ s m) : Counted s.w :=
  (h.run.invariant (fun _ _ _ hi hg hs => hi.step hg hs) (SessionInv.fresh _ _ h.tbl)).counted

/-- **Valid units.**  In every state of a run in which no file with pieces is created again or renamed
over, the count of each node is that of the pieces of all files on it and not above its used units,
and a node that is full has been marked for its reset when no live piece is left on it. -/
theorem valid_run {g : GroupSize} {dev : Dev} {e₀ : Env} {as : List EnvOp} {s : Session}
    (ht : e₀.tbl = .empty)
    (hrun : Runs Session.step (fun s a => a.Releases s) ⟨⟨Ztl.fresh g dev, e₀⟩, []⟩ as s) :
    ∀ n < s.w.z.nnodes, (s.w.z.vnodes n).nrValid = unitsOn s.w.env.tbl.live n ∧
      (s.w.z.vnodes n).nrValid ≤ (s.w.z.vnodes n).used ∧
      ((s.w.z.vnodes n).left = 0 → unitsOn s.w.env.tbl.live n = 0 →
        (s.w.z.vnodes n).status = .reset) := by
  have hi : SessionInv s := hrun.invariant (fun _ _ _ hi hg hs => hi.step hg hs) (.fresh g dev ht)
  intro n hn
  have hacc := hi.counted.sound.acc
  exact ⟨hacc.valid n hn, hacc.le n hn, hi.counted.sound.reset_of_spent hn⟩

/-- The file `a` of one byte has one unit, and that unit is valid. -/
theorem valid_run_byte : ∃ e₀ io s n, e₀.tbl = .empty ∧
    Runs Session.step (fun s a => a.Releases s) ⟨⟨Ztl.fresh oneNode .blank, e₀⟩, []⟩
      [.create nameA, .append 0 [0] [], .sync 0 io] s ∧
    0 < unitsOn s.w.env.tbl.live n ∧ (s.w.z.vnodes n).nrValid = unitsOn s.w.env.tbl.live n ∧
    (s.w.z.vnodes n).nrValid ≤ (s.w.z.vnodes n).used := by
  obtain ⟨e₀, io, s₁, s₂, s, m, h⟩ := exists_byteSteps .blank
  have hperm := live_perm h.find
  rw [h.map] at hperm
  have hm : m ∈ s.w.env.tbl.live := hperm.mem_iff.mpr mem_cons_self
  obtain ⟨hvalid, hused, -⟩ := valid_run h.tbl h.run m.nodeId (h.counted.sound.lt m hm)
  refine ⟨e₀, io, s, m.nodeId, h.tbl, h.run, ?_, hvalid, hused⟩
  rw [unitsOn_perm hperm, singleton_append, unitsOn_cons, if_pos rfl, h.num]
  exact Nat.lt_add_right _ Nat.one_pos

/-- **A unit is lost.**  The file `a` of one byte is created again: its unit stays valid, but no file
has it. -/
theorem valid_leak : ∃ e₀ as s, e₀.tbl = .empty ∧
    Runs Session.step (fun _ _ => True) ⟨⟨Ztl.fresh oneNode .blank, e₀⟩, []⟩
      (as ++ [.create nameA]) s ∧
    ∃ n < s.w.z.nnodes, (s.w.z.vnodes n).nrValid = 1 + unitsOn s.w.env.tbl.live n := by
  obtain ⟨e₀, io, s₁, s₂, s, m, h⟩ := exists_byteSteps .blank
  have hc := h.counted
  obtain ⟨e, hd, hnew⟩ : ∃ e hd, newWritableFile s.w.env nameA = .ok (e, hd) :=
    ⟨_, _, newWritableFile_exists h.find (hc.tidy.live h.find)⟩
  have hstep : s.step (.create nameA) = some ⟨⟨s.w.z, e⟩, s.handles ++ [hd]⟩ := by
    rw [Session.step]
    simp only [hnew]
    rfl
  have hperm := live_perm h.find
  rw [h.map] at hperm
  have hm : m ∈ s.w.env.tbl.live := hperm.mem_iff.mpr mem_cons_self
  refine ⟨e₀, _, _, h.tbl, (h.run.mono fun _ _ _ => trivial).append (.one trivial hstep), m.nodeId,
    hc.sound.lt m hm, ?_⟩
  show (s.w.z.vnodes m.nodeId).nrValid = 1 + unitsOn e.tbl.live m.nodeId
  rw [hc.sound.acc.valid _ (hc.sound.lt m hm), unitsOn_perm hperm,
    unitsOn_perm (newWritableFile_live hc.tidy hnew), singleton_append, unitsOn_cons, if_pos rfl, h.num]

end Xztl
