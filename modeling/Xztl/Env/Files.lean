import Xztl.Env.Flush
import Xztl.Zrocks.Api

/-!
# Env — operations on files (`env_zns.cc`, `env_zns_io.cc`)

Creating, deleting and renaming files, and appending to a file opened for writing.  A writable file
keeps the pointer to its object, so it may outlive the object or the table's entry for it; going
through a pointer to a deleted object stops the model.

The calls of the POSIX environment beside these, the normalisation of names and the files kept there
(`MANIFEST`) are left out.
-/

namespace Xztl

open Function List Except

/-- The translation layer and the environment. -/
structure World where
  z : Ztl
  env : Env

/-- `class ZNSWritableFile`: the name it was opened under, and the object. -/
structure Handle where
  fileName : Name
  znsFile : Ptr

/-- The object behind a pointer. -/
def Table.get (t : Table) (p : Ptr) : Except Stop ZnsFile :=
  if t.freed p then .error .dangling else .ok (t.objs p)

/-- A change of the table. -/
def Env.setTbl (e : Env) (t : Table) : Env := { e with tbl := t }

/-- A change of an object. -/
def Env.setFile (e : Env) (p : Ptr) (f : ZnsFile) : Env := e.setTbl (e.tbl.set p f)

/-- `delete files[name]`. -/
def Table.drop (t : Table) (n : Name) : Except Stop Table :=
  match t.find n with
  | some p => if t.freed p then .error .dangling else .ok (t.delete p)
  | none => .ok t

/-- `ZNSEnv::NewWritableFile`: an object that is there already is deleted, its pieces are not
trimmed and nothing is logged.  The new file is open for writing. -/
def newWritableFile (e : Env) (fname : Name) : Except Stop (Env × Handle) := do
  let t ← e.tbl.drop fname
  let (t, p) := (t.erase fname).alloc { ZnsFile.new fname 0 with isWriting := true }
  return (e.setTbl (t.put fname (some p)), ⟨fname, p⟩)

/-- `zrocks_trim` on each piece; its return value is not looked at. -/
def trimAll : List ZrocksMap → Ztl → Except Stop Ztl
  | [], z => .ok z
  | m :: ms, z => do
      let (z, _) ← zrocksTrim z m
      trimAll ms z

/-- The end of `DeleteFile`: the object is deleted, the entry erased, and this is recorded. -/
def removeFile (e : Env) (p : Ptr) (fname : Name) : Except Stop Env :=
  flushDelMetaData (e.setTbl ((e.tbl.delete p).erase fname)) fname

/-- `ZNSEnv::DeleteFile`. -/
def deleteFile (w : World) (fname : Name) : Except Stop World :=
  match w.env.tbl.find fname with
  | none => .ok w
  | some p => do
      let f ← w.env.tbl.get p
      let z ← trimAll f.map w.z
      let e ← removeFile w.env p fname
      return ⟨z, e⟩

/-- `ZNSEnv::RenameFile`.  What the target was before is not looked at. -/
def renameFile (e : Env) (src target : Name) : Except Stop Env :=
  match e.tbl.find src with
  | none => .ok e
  | some p => do
      let f ← e.tbl.get p
      let t := (e.tbl.set p { f with name := target }).put target (some p)
      flushReplaceMetaData (e.setTbl (t.erase src)) src target

/-! ### Writable files -/

/-- What a Sync meets outside: the bytes behind the cached ones in `wcache`, which fill up the last
unit, and the answers of the device. -/
structure WriteIo where
  rest : Nat → UInt8
  fate : Nat → Nat → Nat
  ans : List MediaAns

/-- The call of `zrocks_write` in a Sync. -/
def WriteIo.call (io : WriteIo) (bs : List UInt8) (level : Int) : WriteCall where
  buf := fun i => bs.getD i (io.rest i)
  size := bs.length
  level := level
  fate := io.fate

/-- One round of the loop over the pieces of a Sync: the piece goes onto the map, and when its node
is not the file's current one the name is listed under the node. -/
def pushPiece (h : Handle) (e : Env) (m : ZrocksMap) : Env :=
  let f := e.tbl.objs h.znsFile
  let f := { f with map := f.map ++ [m] }
  let nid : Int := m.nodeId.val
  if f.currentNid ≠ nid then
    { e with
      tbl := e.tbl.set h.znsFile { f with currentNid := nid }
      nidFileMap := update e.nidFileMap nid (e.nidFileMap nid ++ [h.fileName]) }
  else e.setFile h.znsFile f

/-- The pieces of a Sync. -/
def pushPieces (h : Handle) (e : Env) (maps : List ZrocksMap) : Env := maps.foldl (pushPiece h) e

/-- The end of a Sync: the record, and the cache is empty. -/
def syncFlush (h : Handle) (e : Env) : Except Stop Env := do
  let e ← flushUpdateMetaData e h.znsFile
  return e.setFile h.znsFile { e.tbl.objs h.znsFile with cache := some [] }

/-- `ZNSWritableFile::Sync`. -/
def sync (w : World) (h : Handle) (io : WriteIo) : Except Stop (World × Status) := do
  let f ← w.env.tbl.get h.znsFile
  let bs := f.cache.getD []
  if bs = [] then return (w, .ok)
  let (z, ret, maps) ← zrocksWrite w.z (io.call bs f.level) io.ans
  if ret ≠ xztlOk then return (⟨z, w.env⟩, .ioError)
  let e ← syncFlush h (pushPieces h w.env maps)
  return (⟨z, e⟩, .ok)

/-- `ZNSWritableFile::Fsync`. -/
def fsync (w : World) (h : Handle) (io : WriteIo) : Except Stop (World × Status) := sync w h io

/-- `ZNSWritableFile::Truncate`: what is still cached is taken back; when more is to go, nothing
happens.  The difference of the sizes is in 64 bits. -/
def truncate (e : Env) (h : Handle) (size : Nat) : Except Stop Env := do
  let f ← e.tbl.get h.znsFile
  let cacheSize := (f.cache.getD []).length
  let trunSize := (f.size + 2 ^ 64 - size) % 2 ^ 64
  if cacheSize < trunSize then return e
  return e.setFile h.znsFile
    { f with cache := f.cache.map fun c => c.take (cacheSize - trunSize), size := size }

/-- Copying to `cache_off`. -/
def cachePut (e : Env) (h : Handle) (bs : List UInt8) : Except Stop Env :=
  let f := e.tbl.objs h.znsFile
  match f.cache with
  | none => .error .outOfBounds
  | some c =>
    if c.length + bs.length > znsMaxBuf then .error .outOfBounds
    else .ok (e.setFile h.znsFile { f with cache := some (c ++ bs) })

/-- The part of the data that goes out with a Sync. -/
def appendChunk (w : World) (h : Handle) (bs : List UInt8) (io : WriteIo) :
    Except Stop (World × Status) := do
  let e ← cachePut w.env h bs
  sync ⟨w.z, e⟩ h io

/-- The loop of `Append`, a buffer at a time; what is left of the data at the end. -/
def appendLoop (h : Handle) : List WriteIo → World → List UInt8 →
    Except Stop (World × Status × List UInt8)
  | [], w, data => if data.length > znsMaxBuf then .error .waiting else .ok (w, .ok, data)
  | io :: ios, w, data =>
    if data.length > znsMaxBuf then do
      let (w, s) ← appendChunk w h (data.take znsMaxBuf) io
      if s ≠ .ok then return (w, s, data)
      appendLoop h ios w (data.drop znsMaxBuf)
    else .ok (w, .ok, data)

/-- The branch of `Append` for data that does not fit the cache: the cache is filled up first. -/
def appendBig (w : World) (h : Handle) (cached : Nat) (data : List UInt8) :
    List WriteIo → Except Stop (World × Status × List UInt8)
  | [] => .error .waiting
  | io :: ios => do
      let size := znsMaxBuf - cached
      let (w, s) ← appendChunk w h (data.take size) io
      if s ≠ .ok then return (w, s, data)
      appendLoop h ios w (data.drop size)

/-- What `Append` does first: nothing when the data fits the cache. -/
def appendFill (w : World) (h : Handle) (cached : Nat) (data : List UInt8) (ios : List WriteIo) :
    Except Stop (World × Status × List UInt8) :=
  if cached + data.length > znsMaxBuf then appendBig w h cached data ios else .ok (w, .ok, data)

/-- `size` after an Append. -/
def growSize (e : Env) (h : Handle) (n : Nat) : Env :=
  let f := e.tbl.objs h.znsFile
  e.setFile h.znsFile { f with size := (f.size + n) % 2 ^ 64 }

/-- `ZNSWritableFile::Append`. -/
def append (w : World) (h : Handle) (data : List UInt8) (ios : List WriteIo) :
    Except Stop (World × Status) := do
  let f ← w.env.tbl.get h.znsFile
  match f.cache with
  | none => return (w, .ioError)
  | some c =>
    let (w, s, rest) ← appendFill w h c.length data ios
    if s ≠ .ok then return (w, .ioError)
    let e ← cachePut w.env h rest
    return (⟨w.z, growSize e h data.length⟩, .ok)

/-- The end of `ZNSWritableFile::Close`. -/
def release (e : Env) (h : Handle) : Env :=
  let f := e.tbl.objs h.znsFile
  e.setFile h.znsFile { f with cache := none, isWriting := false }

/-- `ZNSWritableFile::Close`.  The status of the Sync is not looked at. -/
def close (w : World) (h : Handle) (io : WriteIo) : Except Stop World := do
  let (w, _) ← sync w h io
  return ⟨w.z, release w.env h⟩

/-- `Env::WLTH_SHORT`. -/
def wlthShort : Int := 2

/-- `ZNSWritableFile::SetWriteLifeTimeHint`. -/
def setWriteLifeTimeHint (e : Env) (h : Handle) (hint : Int) : Except Stop Env := do
  let f ← e.tbl.get h.znsFile
  return e.setFile h.znsFile { f with level := hint - wlthShort }

/-! ### What the steps do -/

section

variable {e : Env} {n : Name}

theorem setWriteLifeTimeHint_eq_ok {e' : Env} {h : Handle} {hint : Int} :
    setWriteLifeTimeHint e h hint = .ok e' ↔ e.tbl.freed h.znsFile = false ∧
      e.setFile h.znsFile { e.tbl.objs h.znsFile with level := hint - wlthShort } = e' := by
  rw [setWriteLifeTimeHint, Table.get]
  by_cases hf : e.tbl.freed h.znsFile = true
  · simp [hf, bind, Except.bind]
  · simp [hf, bind, Except.bind, pure, Except.pure]

theorem newWritableFile_fresh (hn : e.tbl.find n = none) :
    newWritableFile e n = .ok (e.setTbl (((e.tbl.erase n).alloc
      { ZnsFile.new n 0 with isWriting := true }).1.put n (some e.tbl.next)), ⟨n, e.tbl.next⟩) := by
  rw [newWritableFile, Table.drop, hn]
  rfl

/-- **An existing name.**  The old object is deleted. -/
theorem newWritableFile_exists {p : Ptr} (hn : e.tbl.find n = some p) (hp : e.tbl.freed p = false) :
    newWritableFile e n = .ok (e.setTbl ((((e.tbl.delete p).erase n).alloc
      { ZnsFile.new n 0 with isWriting := true }).1.put n (some e.tbl.next)), ⟨n, e.tbl.next⟩) := by
  rw [newWritableFile, Table.drop, hn]
  simp only [hp]
  rfl

/-- **What `NewWritableFile` does**: the name has a new object, and no other entry or object changes. -/
structure NewFile (e : Env) (n : Name) (e' : Env) (h : Handle) : Prop where
  handle : h = ⟨n, e.tbl.next⟩
  tbl : e' = e.setTbl e'.tbl
  find : ∀ m, e'.tbl.find m = if n = m then some e.tbl.next else e.tbl.find m
  objs : e'.tbl.objs = update e.tbl.objs e.tbl.next { ZnsFile.new n 0 with isWriting := true }
  alive : e'.tbl.freed h.znsFile = false

theorem newWritableFile_new {e' : Env} {h : Handle} (hs : newWritableFile e n = .ok (e', h)) :
    NewFile e n e' h := by
  obtain ⟨t, ht, hs⟩ := bind_eq_ok.mp hs
  obtain ⟨hfiles, hobjs, hnext⟩ : t.files = e.tbl.files ∧ t.objs = e.tbl.objs ∧
      t.next = e.tbl.next := by
    rw [Table.drop] at ht
    split at ht
    · split at ht <;> cases ht
      exact ⟨rfl, rfl, rfl⟩
    · cases ht
      exact ⟨rfl, rfl, rfl⟩
  cases hs
  refine ⟨congrArg (Handle.mk n) hnext, rfl, fun m => ?_, ?_, update_self _ _ _⟩
  · refine (Table.find_put _ _ _ _).trans ?_
    by_cases hm : n = m
    · rw [if_pos hm, if_pos hm]
      exact congrArg some hnext
    · rw [if_neg hm, if_neg hm]
      show (t.erase n).find m = e.tbl.find m
      rw [Table.find_erase, if_neg hm, Table.find, hfiles]
      rfl
  · rw [← hnext, ← hobjs]
    rfl

theorem NewFile.object {e' : Env} {h : Handle} (hn : NewFile e n e' h) :
    e'.tbl.find h.fileName = some h.znsFile ∧
      e'.tbl.objs h.znsFile = { ZnsFile.new n 0 with isWriting := true } := by
  rw [hn.find, hn.objs, hn.handle, if_pos rfl, update_self]
  exact ⟨rfl, rfl⟩

/-- **The pieces of a Sync** go onto the map of the file's object. -/
theorem pushPieces_eq (h : Handle) (maps : List ZrocksMap) : ∀ e : Env, ∃ c nf,
    pushPieces h e maps = { e with
      tbl := e.tbl.set h.znsFile { e.tbl.objs h.znsFile with
        map := (e.tbl.objs h.znsFile).map ++ maps, currentNid := c }
      nidFileMap := nf } := by
  induction maps with
  | nil =>
    intro e
    refine ⟨(e.tbl.objs h.znsFile).currentNid, e.nidFileMap, ?_⟩
    rw [append_nil, Table.set, update_eq_self]
    rfl
  | cons m maps ih =>
    intro e
    obtain ⟨c0, nf0, h0⟩ : ∃ c nf, pushPiece h e m = { e with
        tbl := e.tbl.set h.znsFile { e.tbl.objs h.znsFile with
          map := (e.tbl.objs h.znsFile).map ++ [m], currentNid := c }
        nidFileMap := nf } := by
      rw [pushPiece]
      split
      · exact ⟨_, _, rfl⟩
      · exact ⟨(e.tbl.objs h.znsFile).currentNid, e.nidFileMap, rfl⟩
    obtain ⟨c, nf, h1⟩ := ih (pushPiece h e m)
    refine ⟨c, nf, h1.trans ?_⟩
    rw [h0]
    simp only [update_self, Table.set, update_idem, append_assoc,
      singleton_append]

/-- The pieces are at the end of the file's map; beside this its current node and the index change. -/
structure Pushed (h : Handle) (maps : List ZrocksMap) (e e' : Env) (f : ZnsFile) : Prop where
  file : ∃ c, f = { e.tbl.objs h.znsFile with
    map := (e.tbl.objs h.znsFile).map ++ maps, currentNid := c }
  tbl : e'.tbl = e.tbl.set h.znsFile f
  md : e'.md = e.md
  sequence : e'.sequence = e.sequence

theorem exists_pushed (h : Handle) (maps : List ZrocksMap) (e : Env) :
    ∃ f, Pushed h maps e (pushPieces h e maps) f := by
  obtain ⟨c, nf, hpush⟩ := pushPieces_eq h maps e
  rw [hpush]
  exact ⟨_, ⟨c, rfl⟩, rfl, rfl, rfl⟩

section

variable {h : Handle} {maps : List ZrocksMap} {e' : Env} {f : ZnsFile} (hp : Pushed h maps e e' f)
include hp

theorem Pushed.obj : e'.tbl.objs h.znsFile = f := by rw [hp.tbl, Table.objs_set, update_self]

theorem Pushed.find (n : Name) : e'.tbl.find n = e.tbl.find n := by
  rw [hp.tbl]
  rfl

end

/-- **The end of a Sync**: the pieces are on the map and the cache is empty; beside this only
`startIndex` changes. -/
theorem syncFlush_push {h : Handle} {e' : Env} {maps : List ZrocksMap}
    (he : syncFlush h (pushPieces h e maps) = .ok e') : ∃ c,
    (e.tbl.set h.znsFile { e.tbl.objs h.znsFile with
      map := (e.tbl.objs h.znsFile).map ++ maps, currentNid := c, cache := some [] }).Same e'.tbl := by
  obtain ⟨f, hp⟩ := exists_pushed h maps e
  obtain ⟨c, hf⟩ := hp.file
  obtain ⟨e1, hupd, he⟩ := bind_eq_ok.mp he
  cases he
  have hsame := (flushUpdateMetaData_same hupd).1
  rw [hp.tbl] at hsame
  refine ⟨c, hsame.files, hsame.freed, hsame.next, fun q => ?_⟩
  obtain ⟨i, hi⟩ := hsame.objs q
  refine ⟨i, ?_⟩
  show update e1.tbl.objs h.znsFile _ q = _
  rw [Table.objs_set]
  by_cases e : q = h.znsFile
  · subst e
    rw [Table.objs_set, update_self, hf] at hi
    rw [update_self, update_self, hi]
  · rw [Table.objs_set, update_of_ne e] at hi
    rw [update_of_ne e, update_of_ne e, hi]

end

/-- The record of a Sync lists nothing. -/
theorem syncFlush_nidFileMap {e e' : Env} {h : Handle} (he : syncFlush h e = .ok e') :
    e'.nidFileMap = e.nidFileMap := by
  obtain ⟨e1, hupd, he⟩ := bind_eq_ok.mp he
  cases he
  exact (flushUpdateMetaData_same hupd).2

/-! ### Appends and Syncs as steps of the environment -/

/-- What is done to the environment with a file open for writing: bytes go into the cache, the size
grows, and a Sync has these pieces to record. -/
inductive WriteStep where
  | put (bs : List UInt8)
  | grow (size : Nat)
  | sync (maps : List ZrocksMap)

/-- A step on the writable file `h`. -/
def writeStep (h : Handle) (e : Env) : WriteStep → Option Env
  | .put bs => (cachePut e h bs).toOption
  | .grow size => some (growSize e h size)
  | .sync maps => (syncFlush h (pushPieces h e maps)).toOption

/-- The same with the translation layer: a Sync writes what is cached. -/
inductive WriteOp where
  | put (bs : List UInt8)
  | grow (size : Nat)
  | sync (io : WriteIo)

/-- The writes of an operation are among `ios`. -/
def WriteOp.Within (ios : List WriteIo) : WriteOp → Prop
  | .sync io => io ∈ ios
  | _ => True

/-- An operation on the writable file `h`. -/
def writeOp (h : Handle) (w : World) : WriteOp → Option World
  | .put bs => (cachePut w.env h bs).toOption.map fun e => ⟨w.z, e⟩
  | .grow size => some ⟨w.z, growSize w.env h size⟩
  | .sync io => (sync w h io).toOption.map Prod.fst

section

variable {h : Handle} {w w' : World} {s : Status} {data rest : List UInt8} {ios : List WriteIo}

theorem cachePut_eq_ok {e e' : Env} {bs : List UInt8} : cachePut e h bs = .ok e' ↔
    ∃ c, (e.tbl.objs h.znsFile).cache = some c ∧ c.length + bs.length ≤ znsMaxBuf ∧
      e' = e.setFile h.znsFile { e.tbl.objs h.znsFile with cache := some (c ++ bs) } := by
  rw [cachePut]
  cases hc : (e.tbl.objs h.znsFile).cache with
  | none =>
    refine ⟨fun he => ?_, fun ⟨c, hc, _⟩ => ?_⟩
    · cases he
    · cases hc
  | some c =>
    simp only
    constructor
    · intro he
      split at he
      · cases he
      · cases he
        exact ⟨c, rfl, Nat.le_of_not_lt ‹_›, rfl⟩
    · rintro ⟨c', hc', hle, rfl⟩
      cases hc'
      rw [if_neg (Nat.not_lt_of_le hle)]

/-- **What an operation does**: a Sync, or a change of the cache and the size of the file. -/
theorem writeOp_cases {a : WriteOp} (hs : writeOp h w a = some w') :
    (∃ io st, a = .sync io ∧ sync w h io = .ok (w', st)) ∨
    ∃ c size, w' = ⟨w.z, w.env.setFile h.znsFile
        { w.env.tbl.objs h.znsFile with cache := c, size := size }⟩ ∧
      (c = (w.env.tbl.objs h.znsFile).cache ∨ (c.getD []).length ≤ znsMaxBuf) := by
  cases a with
  | put bs =>
    obtain ⟨e, he, rfl⟩ := Option.map_eq_some_iff.mp hs
    obtain ⟨c, -, hle, rfl⟩ := cachePut_eq_ok.mp (toOption_eq_some.mp he)
    exact Or.inr ⟨some (c ++ bs), _, rfl, Or.inr (by rwa [Option.getD_some, length_append])⟩
  | grow size =>
    cases hs
    exact Or.inr ⟨_, _, rfl, Or.inl rfl⟩
  | sync io =>
    obtain ⟨⟨w1, st⟩, he, rfl⟩ := Option.map_eq_some_iff.mp hs
    exact Or.inl ⟨io, st, rfl, toOption_eq_some.mp he⟩

theorem get_eq_ok {t : Table} {p : Ptr} {f : ZnsFile} (h : t.get p = .ok f) : f = t.objs p := by
  rw [Table.get] at h
  split at h <;> cases h
  rfl

/-- **What a deletion does**: the pieces are trimmed and the file leaves the table. -/
theorem deleteFile_cases {n : Name} (hs : deleteFile w n = .ok w') :
    w.env.tbl.find n = none ∧ w' = w ∨ ∃ p z e, w' = ⟨z, e⟩ ∧ w.env.tbl.find n = some p ∧
      trimAll (w.env.tbl.objs p).map w.z = .ok z ∧ ((w.env.tbl.delete p).erase n).Same e.tbl ∧
      e.nidFileMap = w.env.nidFileMap := by
  rw [deleteFile] at hs
  cases hfind : w.env.tbl.find n with
  | none =>
    rw [hfind] at hs
    cases hs
    exact Or.inl ⟨rfl, rfl⟩
  | some p =>
    rw [hfind] at hs
    obtain ⟨f, hf, hs⟩ := bind_eq_ok.mp hs
    obtain rfl := get_eq_ok hf
    obtain ⟨z, hz, hs⟩ := bind_eq_ok.mp hs
    obtain ⟨e, he, hs⟩ := bind_eq_ok.mp hs
    cases hs
    exact Or.inr ⟨p, z, e, rfl, rfl, hz, flushDelMetaData_same he⟩

/-- **What a Sync does**: nothing when there is nothing cached, and otherwise a write whose pieces go
onto the map and into a record. -/
theorem sync_cases {io : WriteIo} (hs : sync w h io = .ok (w', s)) :
    w.env.tbl.freed h.znsFile = false ∧
    ((w.env.tbl.objs h.znsFile).cache.getD [] = [] ∧ w' = w ∧ s = .ok ∨
      (w.env.tbl.objs h.znsFile).cache.getD [] ≠ [] ∧ s = .ok ∧ ∃ maps,
        zrocksWrite w.z (io.call ((w.env.tbl.objs h.znsFile).cache.getD [])
          (w.env.tbl.objs h.znsFile).level) io.ans = .ok (w'.z, xztlOk, maps) ∧
        syncFlush h (pushPieces h w.env maps) = .ok w'.env) := by
  obtain ⟨f, hf, hs⟩ := bind_eq_ok.mp hs
  rw [Table.get] at hf
  by_cases hfreed : w.env.tbl.freed h.znsFile = true
  · rw [if_pos hfreed] at hf
    cases hf
  rw [if_neg hfreed] at hf
  cases hf
  refine ⟨Bool.eq_false_iff.mpr hfreed, ?_⟩
  by_cases hnil : (w.env.tbl.objs h.znsFile).cache.getD [] = []
  · rw [if_pos hnil] at hs
    cases hs
    exact Or.inl ⟨hnil, rfl, rfl⟩
  · rw [if_neg hnil] at hs
    obtain ⟨⟨z, ret, maps⟩, hw, hs⟩ := bind_eq_ok.mp hs
    obtain rfl := zrocksWrite_ret hw
    simp only at hs
    rw [if_neg (by simp)] at hs
    obtain ⟨e, he, hs⟩ := bind_eq_ok.mp hs
    cases hs
    exact Or.inr ⟨hnil, rfl, maps, hw, he⟩

/-- The other direction: a Sync returns when its parts do. -/
theorem sync_ok {io : WriteIo} {z' : Ztl} {e' : Env} {maps : List ZrocksMap} {f : ZnsFile}
    (hf : w.env.tbl.get h.znsFile = .ok f) (hne : f.cache.getD [] ≠ [])
    (hw : zrocksWrite w.z (io.call (f.cache.getD []) f.level) io.ans = .ok (z', xztlOk, maps))
    (he : syncFlush h (pushPieces h w.env maps) = .ok e') :
    sync w h io = .ok (⟨z', e'⟩, .ok) := by
  refine bind_eq_ok.mpr ⟨f, hf, ?_⟩
  rw [if_neg hne]
  refine bind_eq_ok.mpr ⟨(z', xztlOk, maps), hw, ?_⟩
  simp only
  rw [if_neg (by simp)]
  exact bind_eq_ok.mpr ⟨e', he, rfl⟩

/-- An Append of data that fits the cache. -/
theorem append_cached {f : ZnsFile} {c : List UInt8} (hf : w.env.tbl.get h.znsFile = .ok f)
    (hc : f.cache = some c) (hfit : c.length + data.length ≤ znsMaxBuf) :
    ∃ e, cachePut w.env h data = .ok e ∧
      append w h data ios = .ok (⟨w.z, growSize e h data.length⟩, .ok) := by
  have hobj : w.env.tbl.objs h.znsFile = f := by
    rw [Table.get] at hf
    split at hf
    · cases hf
    · exact Except.ok.inj hf
  have hput : cachePut w.env h data = .ok (w.env.setFile h.znsFile
      { w.env.tbl.objs h.znsFile with cache := some (c ++ data) }) := by
    rw [cachePut]
    simp only [hobj, hc]
    exact if_neg (by omega)
  refine ⟨_, hput, bind_eq_ok.mpr ⟨f, hf, ?_⟩⟩
  simp only [hc]
  refine bind_eq_ok.mpr ⟨(w, .ok, data), if_neg (by omega), ?_⟩
  exact bind_eq_ok.mpr ⟨_, hput, rfl⟩

/-- A Sync is at most one step of the environment. -/
theorem writeOp_steps {a : WriteOp} (hs : writeOp h w a = some w') :
    ∃ as, Runs (writeStep h) (fun _ _ => True) w.env as w'.env := by
  cases a with
  | put bs =>
    obtain ⟨e, he, rfl⟩ := Option.map_eq_some_iff.mp hs
    have hput : writeStep h w.env (.put bs) = some e := he
    exact ⟨[.put bs], .one trivial hput⟩
  | grow size =>
    cases hs
    exact ⟨[.grow size], .one trivial rfl⟩
  | sync io =>
    obtain ⟨⟨w1, s1⟩, he, rfl⟩ := Option.map_eq_some_iff.mp hs
    obtain ⟨-, ⟨-, rfl, -⟩ | ⟨-, -, maps, -, he⟩⟩ := sync_cases (toOption_eq_some.mp he)
    · exact ⟨[], .nil _⟩
    · exact ⟨[.sync maps], .one trivial (toOption_eq_some.mpr he)⟩

/-- **Runs of operations are runs of steps.** -/
theorem writeOps_steps {as : List WriteOp} (hr : Runs (writeOp h) (fun _ _ => True) w as w') :
    ∃ as', Runs (writeStep h) (fun _ _ => True) w.env as' w'.env := by
  induction hr with
  | nil w => exact ⟨[], .nil _⟩
  | cons _ hs _ ih =>
    obtain ⟨as1, hrun1⟩ := writeOp_steps hs
    obtain ⟨as2, hrun2⟩ := ih
    exact ⟨as1 ++ as2, hrun1.append hrun2⟩

theorem WriteOp.Within.mono {a : WriteOp} {ios' : List WriteIo} (h : a.Within ios) (hs : ios ⊆ ios') :
    a.Within ios' := by
  cases a with
  | put bs => trivial
  | grow size => trivial
  | sync io => exact hs h

theorem appendChunk_ops {io : WriteIo} (hs : appendChunk w h data io = .ok (w', s)) :
    ∃ as, Runs (writeOp h) (fun _ a => a.Within [io]) w as w' := by
  obtain ⟨e, he, hs⟩ := bind_eq_ok.mp hs
  have hput : writeOp h w (.put data) = some ⟨w.z, e⟩ := by rw [writeOp, he]; rfl
  have hsync : writeOp h ⟨w.z, e⟩ (.sync io) = some w' := by rw [writeOp, hs]; rfl
  exact ⟨[.put data, .sync io], .cons trivial hput (.one (mem_singleton_self io) hsync)⟩

/-- A buffer, and what follows when its Sync succeeds. -/
theorem appendRound_ops {io : WriteIo}
    (ih : ∀ {w : World} {data : List UInt8}, appendLoop h ios w data = .ok (w', s, rest) →
      ∃ as, Runs (writeOp h) (fun _ a => a.Within ios) w as w') {size : Nat}
    (hs : (do
      let (w, s) ← appendChunk w h (data.take size) io
      if s ≠ .ok then return (w, s, data)
      appendLoop h ios w (data.drop size)) = Except.ok (w', s, rest)) :
    ∃ as, Runs (writeOp h) (fun _ a => a.Within (io :: ios)) w as w' := by
  obtain ⟨⟨w1, s1⟩, hc, hs⟩ := bind_eq_ok.mp hs
  obtain ⟨as1, hrun1⟩ := appendChunk_ops hc
  have hrun1 := hrun1.mono fun _ _ h => h.mono (cons_subset_cons io (nil_subset ios))
  simp only at hs
  by_cases hok : s1 ≠ .ok
  · rw [if_pos hok] at hs
    cases hs
    exact ⟨as1, hrun1⟩
  · rw [if_neg hok] at hs
    obtain ⟨as2, hrun2⟩ := ih hs
    have hrun2 := hrun2.mono fun _ _ h => h.mono (subset_cons_self io ios)
    exact ⟨as1 ++ as2, hrun1.append hrun2⟩

theorem appendLoop_ops (ios : List WriteIo) : ∀ {w : World} {data : List UInt8},
    appendLoop h ios w data = .ok (w', s, rest) →
    ∃ as, Runs (writeOp h) (fun _ a => a.Within ios) w as w' := by
  induction ios with
  | nil =>
    intro w data hs
    rw [appendLoop] at hs
    split at hs <;> cases hs
    exact ⟨[], .nil _⟩
  | cons io ios ih =>
    intro w data hs
    rw [appendLoop] at hs
    split at hs
    · exact appendRound_ops ih hs
    · cases hs
      exact ⟨[], .nil _⟩

theorem appendFill_ops {cached : Nat} (hs : appendFill w h cached data ios = .ok (w', s, rest)) :
    ∃ as, Runs (writeOp h) (fun _ a => a.Within ios) w as w' := by
  rw [appendFill] at hs
  split at hs
  · cases ios with
    | nil => cases hs
    | cons io ios => exact appendRound_ops (appendLoop_ops ios) hs
  · cases hs
    exact ⟨[], .nil _⟩

/-- **An Append** is a run of operations. -/
theorem append_ops (hs : append w h data ios = .ok (w', s)) :
    ∃ as, Runs (writeOp h) (fun _ a => a.Within ios) w as w' := by
  obtain ⟨f, -, hs⟩ := bind_eq_ok.mp hs
  cases hc : f.cache with
  | none =>
    rw [hc] at hs
    cases hs
    exact ⟨[], .nil _⟩
  | some c =>
    rw [hc] at hs
    obtain ⟨⟨w1, s1, left⟩, hfill, hs⟩ := bind_eq_ok.mp hs
    obtain ⟨as, hrun⟩ := appendFill_ops hfill
    simp only at hs
    by_cases hok : s1 ≠ .ok
    · rw [if_pos hok] at hs
      cases hs
      exact ⟨as, hrun⟩
    · rw [if_neg hok] at hs
      obtain ⟨e, he, hs⟩ := bind_eq_ok.mp hs
      cases hs
      have hput : writeOp h w1 (.put left) = some ⟨w1.z, e⟩ := by rw [writeOp, he]; rfl
      have h1 : (WriteOp.put left).Within ios := trivial
      have h2 : (WriteOp.grow data.length).Within ios := trivial
      exact ⟨as ++ [.put left, .grow data.length], hrun.append (.cons h1 hput (.one h2 rfl))⟩

end

end Xztl
