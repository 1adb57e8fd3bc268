import Xztl.Env.Files
import Xztl.Env.Replay
import Xztl.Zrocks.Accounting

/-!
# Env — garbage collection (`env_zns.cc`, `MigrateNodeFile`)

The pieces of a file on a node are read and written again elsewhere, one after the other, in a copy
of the file's map; then the file's pieces on the node are trimmed and the copy becomes the map.  The
files' mutex is held before and after the copying, but not during it.

A piece that cannot be read, or for which the write returns no pieces, stays in the copy.  The trims
at the end do not ask which pieces these were.
-/

namespace Xztl

open Except Table

/-- What one round of the copying meets outside: `run_gc_worker_`, the answers to the read and those
to the write. -/
structure GcIo where
  run : Bool
  reads : List ReadAns
  fate : Nat → Nat → Nat
  ans : List MediaAns

/-- The variables of `MigrateNodeFile`: `gc_buffer`, the array `maps`, `cnid`, and for each entry of
`map_change` the element of `maps` it points to. -/
structure GcState where
  z : Ztl
  nidFileMap : Int → List Name
  gcBuffer : Nat → UInt8
  maps : Nat → ZrocksMap
  cnid : Int
  mapChange : List Nat

/-- Before the copying. -/
def GcState.start (w : World) (f : ZnsFile) (gcBuffer : Nat → UInt8) : GcState where
  z := w.z
  nidFileMap := w.env.nidFileMap
  gcBuffer := gcBuffer
  maps := fun _ => .ofPiece ⟨0, 0, 0⟩ 0
  cnid := f.currentNid
  mapChange := []

/-- The copying of a piece, from its `start` to the end of its last unit. -/
def GcIo.call (io : GcIo) (buf : Nat → UInt8) (m : ZrocksMap) (clvl : Int) : WriteCall where
  buf := buf
  size := m.num.val * znsAligment * ztlIoSecMcmd
  level := clvl
  fate := io.fate

/-- The round of the loop over `maps` for the piece `m`, the element `i`. -/
def GcState.note (g : GcState) (fileName : Name) (i : Nat) (m : ZrocksMap) : GcState :=
  let nid : Int := m.nodeId.val
  let g := { g with maps := Function.update g.maps i m, mapChange := g.mapChange ++ [i] }
  if g.cnid ≠ nid then
    { g with
      cnid := nid
      nidFileMap := Function.update g.nidFileMap nid (g.nidFileMap nid ++ [fileName]) }
  else g

/-- The loop over `maps`, from element `i` on. -/
def GcState.noteAll (fileName : Name) : List ZrocksMap → (i : Nat) → GcState → GcState
  | [], _, g => g
  | m :: ms, i, g => noteAll fileName ms (i + 1) (g.note fileName i m)

/-- The read and the write of a round at a piece on the node: the pieces written, none when the piece
stays where it is. -/
def copyPiece (clvl : Int) (m : ZrocksMap) (io : GcIo) (g : GcState) :
    Except Stop (List ZrocksMap × GcState) := do
  let off := m.start.val * znsAligment * ztlIoSecMcmd
  let msize := m.num.val * znsAligment * ztlIoSecMcmd
  if msize > znsMaxBuf then .error .outOfBounds
  let (ret, buf) ← zrocksRead g.z m.nodeId off msize g.gcBuffer io.reads
  let g := { g with gcBuffer := buf }
  if ret ≠ 0 then return ([], g)
  let (z, ret, maps) ← zrocksWrite g.z (io.call buf m clvl) io.ans
  let g := { g with z := z }
  if ret ≠ 0 then return ([], g)
  return (maps, g)

/-- A round of the copying at a piece on the node: what stands in the copy afterwards in its
place. -/
def migratePiece (fileName : Name) (clvl : Int) (m : ZrocksMap) (io : GcIo) (g : GcState) :
    Except Stop (List ZrocksMap × GcState) := do
  let (maps, g) ← copyPiece clvl m io g
  if maps = [] then return ([m], g)
  return (maps, g.noteAll fileName maps 0)

/-- A round of the copying; a piece on another node stays. -/
def migrateRound (nid : Nat) (fileName : Name) (clvl : Int) (m : ZrocksMap) (io : GcIo)
    (g : GcState) : Except Stop (List ZrocksMap × GcState) :=
  if m.nodeId.val ≠ nid then .ok ([m], g) else migratePiece fileName clvl m io g

/-- The copying: `map_copy` from the iterator on.  The pieces put in are passed over. -/
def migrateLoop (nid : Nat) (fileName : Name) (clvl : Int) :
    List ZrocksMap → List GcIo → GcState → Except Stop (List ZrocksMap × GcState)
  | [], _, g => .ok ([], g)
  | _ :: _, [], _ => .error .waiting
  | m :: ms, io :: ios, g =>
    if io.run = false then .ok (m :: ms, g)
    else do
      let (new, g) ← migrateRound nid fileName clvl m io g
      let (rest, g) ← migrateLoop nid fileName clvl ms ios g
      return (new ++ rest, g)

/-- The pieces of a map on a node. -/
def onNode (nid : Nat) (ms : List ZrocksMap) : List ZrocksMap :=
  ms.filter fun m => m.nodeId.val = nid

/-- The part under the mutex after the copying, for the object `p` looked up before it.  When the
name has gone from the table the new pieces are trimmed, as far as `maps` still has them. -/
def migratePublish (w : World) (nid : Nat) (fileName : Name) (p : Ptr) (mapCopy : List ZrocksMap)
    (g : GcState) : Except Stop World :=
  if fileName ∈ w.env.tbl.files then do
    let f ← w.env.tbl.get p
    let z ← trimAll (onNode nid f.map) w.z
    let e ← flushGCChangeMetaData
      (w.env.setTbl (w.env.tbl.set p { f with map := mapCopy })) p
    return ⟨z, e⟩
  else do
    let z ← trimAll (g.mapChange.map g.maps) w.z
    return ⟨z, w.env⟩

/-- `ZNSEnv::MigrateNodeFile`, nothing else happening in between. -/
def migrateNodeFile (w : World) (nid : Nat) (fileName : Name) (gcBuffer : Nat → UInt8)
    (ios : List GcIo) : Except Stop World :=
  if fileName ∈ w.env.tbl.files then
    match w.env.tbl.find fileName with
    | none => .error .dangling
    | some p => do
        let f ← w.env.tbl.get p
        if f.isWriting then return w
        let (mapCopy, g) ← migrateLoop nid fileName f.level f.map ios (.start w f gcBuffer)
        migratePublish ⟨g.z, { w.env with nidFileMap := g.nidFileMap }⟩ nid fileName p mapCopy g
  else .ok w

/-! ### What the rounds do -/

section

variable {nid : Nat} {fileName : Name} {clvl : Int} {m : ZrocksMap} {ms new : List ZrocksMap}
  {io : GcIo} {ios : List GcIo} {g g' : GcState}

@[simp] theorem GcState.note_z (i : Nat) : (g.note fileName i m).z = g.z := by
  rw [GcState.note]
  split <;> rfl

@[simp] theorem GcState.noteAll_z (ms : List ZrocksMap) : ∀ (i : Nat) (g : GcState),
    (noteAll fileName ms i g).z = g.z := by
  induction ms with
  | nil => exact fun _ _ => rfl
  | cons m ms ih => exact fun i g => (ih _ _).trans (g.note_z i)

/-- The read of a round. -/
def GcState.read (g : GcState) (m : ZrocksMap) (io : GcIo) : Except Stop (Nat × (Nat → UInt8)) :=
  zrocksRead g.z m.nodeId (m.start.val * znsAligment * ztlIoSecMcmd)
    (m.num.val * znsAligment * ztlIoSecMcmd) g.gcBuffer io.reads

/-- **The read and the write of a round.**  The piece fits `gc_buffer`; when the read fails nothing is
written. -/
theorem copyPiece_cases (e : copyPiece clvl m io g = .ok (new, g')) :
    m.num.val * znsAligment * ztlIoSecMcmd ≤ znsMaxBuf ∧
    ∃ ret buf, g.read m io = .ok (ret, buf) ∧
      (ret ≠ 0 ∧ new = [] ∧ g' = { g with gcBuffer := buf } ∨
        ret = 0 ∧ ∃ z, zrocksWrite g.z (io.call buf m clvl) io.ans = .ok (z, xztlOk, new) ∧
          g' = { g with gcBuffer := buf, z := z }) := by
  rw [copyPiece] at e
  by_cases hbig : m.num.val * znsAligment * ztlIoSecMcmd > znsMaxBuf
  · rw [if_pos hbig] at e
    cases e
  rw [if_neg hbig] at e
  obtain ⟨-, -, e⟩ := bind_eq_ok.mp e
  obtain ⟨⟨ret, buf⟩, hr, e⟩ := bind_eq_ok.mp e
  refine ⟨Nat.le_of_not_lt hbig, ret, buf, hr, ?_⟩
  simp only at e
  by_cases hret : ret ≠ 0
  · rw [if_pos hret] at e
    cases e
    exact Or.inl ⟨hret, rfl, rfl⟩
  rw [if_neg hret] at e
  obtain ⟨⟨z, ret', maps⟩, hw, e⟩ := bind_eq_ok.mp e
  obtain rfl := zrocksWrite_ret hw
  cases e
  exact Or.inr ⟨not_not.mp hret, z, hw, rfl⟩

/-- It changes `gc_buffer` and the translation layer only. -/
theorem copyPiece_frame (e : copyPiece clvl m io g = .ok (new, g')) :
    ∃ z buf, g' = { g with z := z, gcBuffer := buf } := by
  obtain ⟨-, ret, buf, -, ⟨-, -, rfl⟩ | ⟨-, z, -, rfl⟩⟩ := copyPiece_cases e <;>
    exact ⟨_, _, rfl⟩

/-- **A round is a copy and the loop over what it has written.** -/
theorem migratePiece_split (e : migratePiece fileName clvl m io g = .ok (new, g')) :
    ∃ maps g1, copyPiece clvl m io g = .ok (maps, g1) ∧
      (maps = [] ∧ new = [m] ∧ g' = g1 ∨
        maps ≠ [] ∧ new = maps ∧ g' = g1.noteAll fileName maps 0) := by
  rw [migratePiece] at e
  obtain ⟨⟨maps, g1⟩, hcopy, e⟩ := bind_eq_ok.mp e
  refine ⟨maps, g1, hcopy, ?_⟩
  simp only at e
  by_cases hnil : maps = []
  · rw [if_pos hnil] at e
    cases e
    exact Or.inl ⟨hnil, rfl, rfl⟩
  · rw [if_neg hnil] at e
    cases e
    exact Or.inr ⟨hnil, rfl, rfl⟩

/-- **A round at a piece on the node.**  The piece fits `gc_buffer`; when the read fails nothing
happens, and otherwise the pieces of the write stand for it, or the piece itself when there are
none. -/
theorem migratePiece_cases (e : migratePiece fileName clvl m io g = .ok (new, g')) :
    m.num.val * znsAligment * ztlIoSecMcmd ≤ znsMaxBuf ∧
    ∃ ret buf, g.read m io = .ok (ret, buf) ∧
      (ret ≠ 0 ∧ new = [m] ∧ g'.z = g.z ∨
        ret = 0 ∧ ∃ maps, zrocksWrite g.z (io.call buf m clvl) io.ans = .ok (g'.z, xztlOk, maps) ∧
          new = if maps = [] then [m] else maps) := by
  obtain ⟨maps, g1, hcopy, hnew⟩ := migratePiece_split e
  have hz : g'.z = g1.z ∧ new = if maps = [] then [m] else maps := by
    rcases hnew with ⟨rfl, rfl, rfl⟩ | ⟨hne, rfl, rfl⟩
    · exact ⟨rfl, rfl⟩
    · exact ⟨GcState.noteAll_z .., (if_neg hne).symm⟩
  obtain ⟨hfits, ret, buf, hr, ⟨hret, rfl, rfl⟩ | ⟨hret, z, hw, rfl⟩⟩ := copyPiece_cases hcopy
  · exact ⟨hfits, ret, buf, hr, Or.inl ⟨hret, hz.2, hz.1⟩⟩
  · exact ⟨hfits, ret, buf, hr, Or.inr ⟨hret, maps, hz.1 ▸ hw, hz.2⟩⟩

/-- **A step of the loop**: it stops, or makes a round. -/
theorem migrateLoop_cons (e : migrateLoop nid fileName clvl (m :: ms) ios g = .ok (new, g')) :
    ∃ io ios', ios = io :: ios' ∧
      (io.run = false ∧ new = m :: ms ∧ g' = g ∨
        io.run = true ∧ ∃ new1 g1 rest, migrateRound nid fileName clvl m io g = .ok (new1, g1) ∧
          migrateLoop nid fileName clvl ms ios' g1 = .ok (rest, g') ∧ new = new1 ++ rest) := by
  cases ios with
  | nil => cases e
  | cons io ios =>
    refine ⟨io, ios, rfl, ?_⟩
    rw [migrateLoop] at e
    cases hrun : io.run with
    | false =>
      rw [hrun, if_pos rfl] at e
      cases e
      exact Or.inl ⟨rfl, rfl, rfl⟩
    | true =>
      rw [hrun, if_neg (by simp)] at e
      obtain ⟨⟨new1, g1⟩, e1, e⟩ := bind_eq_ok.mp e
      obtain ⟨⟨rest, g2⟩, e2, e⟩ := bind_eq_ok.mp e
      cases e
      exact Or.inr ⟨rfl, new1, g1, rest, e1, e2, rfl⟩

theorem mem_files {t : Table} {n : Name} {p : Ptr} (h : t.find n = some p) : n ∈ t.files := by
  rw [Table.find, Option.join_eq_some_iff] at h
  exact Std.ExtTreeMap.mem_iff_isSome_getElem?.mpr (by rw [h]; rfl)

/-- **The whole call** on a file that is there: it returns at once when the file is open for
writing, and otherwise copies, trims the file's pieces on the node and changes the map. -/
theorem migrateNodeFile_cases {w w' : World} {p : Ptr} {gcBuffer : Nat → UInt8}
    (hp : w.env.tbl.find fileName = some p)
    (e : migrateNodeFile w nid fileName gcBuffer ios = .ok w') :
    w.env.tbl.freed p = false ∧
    ((w.env.tbl.objs p).isWriting = true ∧ w' = w ∨
      (w.env.tbl.objs p).isWriting = false ∧ ∃ mapCopy g,
        migrateLoop nid fileName (w.env.tbl.objs p).level (w.env.tbl.objs p).map ios
          (.start w (w.env.tbl.objs p) gcBuffer) = .ok (mapCopy, g) ∧
        trimAll (onNode nid (w.env.tbl.objs p).map) g.z = .ok w'.z ∧
        (w.env.tbl.set p { w.env.tbl.objs p with map := mapCopy }).Same w'.env.tbl ∧
        w'.env.nidFileMap = g.nidFileMap) := by
  have hmem := mem_files hp
  rw [migrateNodeFile, if_pos hmem] at e
  simp only [hp, Table.get] at e
  by_cases hfreed : w.env.tbl.freed p = true
  · rw [if_pos hfreed] at e
    cases e
  rw [if_neg hfreed] at e
  refine ⟨Bool.eq_false_iff.mpr hfreed, ?_⟩
  cases hwr : (w.env.tbl.objs p).isWriting with
  | true =>
    simp only [bind, Except.bind, hwr, if_true] at e
    cases e
    exact Or.inl ⟨rfl, rfl⟩
  | false =>
    obtain ⟨_, hf, e⟩ := bind_eq_ok.mp e
    cases hf
    rw [hwr, if_neg (by simp)] at e
    obtain ⟨⟨mapCopy, g⟩, hloop, e⟩ := bind_eq_ok.mp e
    refine Or.inr ⟨rfl, mapCopy, g, hloop, ?_⟩
    simp only [migratePublish, if_pos hmem, Table.get, if_neg hfreed] at e
    obtain ⟨_, hf, e⟩ := bind_eq_ok.mp e
    cases hf
    obtain ⟨z, hz, e⟩ := bind_eq_ok.mp e
    obtain ⟨e1, he, e⟩ := bind_eq_ok.mp e
    cases e
    exact ⟨hz, flushFile_same he⟩

/-- **The last section returns** in a table with one file when its trims do. -/
theorem exists_publish_single {f : ZnsFile} {w : World} {seq : Nat} {recs : List Rec} {z' : Ztl}
    {mapCopy : List ZrocksMap} (he : w.env.tbl = .single f) (hl : Logged w.env seq recs)
    (hname : f.name.length ≤ fileNameLen) (hmax : mapCopy.length ≤ maxPieces)
    (htrim : trimAll (onNode nid f.map) w.z = .ok z') :
    ∃ e', migratePublish w nid f.name 0 mapCopy g = .ok ⟨z', e'⟩ ∧
      (e'.tbl.objs 0).map = mapCopy ∧ (e'.tbl.objs 0).size = f.size := by
  obtain ⟨f', hf'⟩ : ∃ f' : ZnsFile, f' = { f with map := mapCopy } := ⟨_, rfl⟩
  have hname' : f'.name = f.name := by rw [hf']
  have hset : w.env.tbl.set 0 f' = .single f' := by rw [he, set_single f hname']
  obtain ⟨e', -, -, hfl, -⟩ := Logged.flushGCChange (e := w.env.setTbl (.single f')) (p := 0)
    (hl.setTbl _) (by rw [Env.setTbl, objs_single, hname']; exact hname)
    (by rw [Env.setTbl, objs_single, hf']; exact hmax)
    (by
      rw [Env.setTbl, objs_single, set_single f' (by rfl)]
      exact SnapOk.single (by rw [hf']; exact hname) (by rw [hf']; exact hmax))
  obtain ⟨i, hi⟩ := (flushFile_same hfl).1.objs 0
  rw [Env.setTbl, objs_single, hf'] at hi
  refine ⟨e', ?_, by rw [hi], by rw [hi]⟩
  have hfind : w.env.tbl.find f.name = some 0 := by rw [he, find_single_self]
  have hget : w.env.tbl.get 0 = .ok f := by
    rw [he]
    rfl
  rw [migratePublish, if_pos (mem_files hfind)]
  simp only [hget, bind, Except.bind, htrim, ← hf', hset, hfl]
  rfl

/-- **The call returns** when the copying does too. -/
theorem exists_migrate_single {f : ZnsFile} {e : Env} {seq : Nat} {recs : List Rec} {z z' : Ztl}
    {mapCopy : List ZrocksMap} {gcBuffer : Nat → UInt8} (he : e.tbl = .single f)
    (hl : Logged e seq recs) (hname : f.name.length ≤ fileNameLen) (hwr : f.isWriting = false)
    (hmax : mapCopy.length ≤ maxPieces)
    (hloop : migrateLoop nid f.name f.level f.map ios (.start ⟨z, e⟩ f gcBuffer) = .ok (mapCopy, g))
    (htrim : trimAll (onNode nid f.map) g.z = .ok z') :
    ∃ e', migrateNodeFile ⟨z, e⟩ nid f.name gcBuffer ios = .ok ⟨z', e'⟩ ∧
      (e'.tbl.objs 0).map = mapCopy ∧ (e'.tbl.objs 0).size = f.size := by
  obtain ⟨e', hpub, hrest⟩ := exists_publish_single (g := g)
    (w := ⟨g.z, { e with nidFileMap := g.nidFileMap }⟩) he ⟨hl.log, hl.sequence⟩ hname hmax htrim
  refine ⟨e', ?_, hrest⟩
  have hfind : e.tbl.find f.name = some 0 := by rw [he, find_single_self]
  have hget : e.tbl.get 0 = .ok f := by
    rw [he]
    rfl
  rw [migrateNodeFile, if_pos (mem_files hfind)]
  simp only [hfind, hget, bind, Except.bind]
  rw [if_neg (by simp [hwr])]
  simp only [hloop]
  exact hpub

/-! ### Pieces that are moved -/

/-- The piece is moved: the read succeeds, and there is room for a unit. -/
def Movable (clvl : Int) (m : ZrocksMap) (io : GcIo) (g : GcState) : Prop :=
  (∃ buf, g.read m io = .ok (0, buf)) ∧ Enough g.z (clampLevel clvl) 1

theorem GcIo.call_size (buf : Nat → UInt8) : (io.call buf m clvl).size = m.num.val * 32768 := by
  simp only [GcIo.call, znsAligment, ztlIoSecMcmd, Nat.mul_assoc]

/-- A piece that fits `gc_buffer`. -/
theorem num_le_of_fits (hm : m.num.val * znsAligment * ztlIoSecMcmd ≤ znsMaxBuf) :
    m.num.val ≤ ztlIoRcNum ∧ m.num.val * 32768 ≤ 2 ^ 40 := by
  rw [Nat.mul_assoc, show znsMaxBuf = 33554432 by decide,
    show znsAligment * ztlIoSecMcmd = 32768 by decide] at hm
  rw [ztlIoRcNum_eq]
  omega

/-- The copying of such a piece. -/
theorem GcIo.call_ncmd (hm : m.num.val * znsAligment * ztlIoSecMcmd ≤ znsMaxBuf)
    (buf : Nat → UInt8) : (io.call buf m clvl).ncmd = m.num.val := by
  rw [WriteCall.ncmd_eq _ ((GcIo.call_size buf).le.trans (num_le_of_fits hm).2), GcIo.call_size,
    unitBytes_eq]
  omega

/-- Every piece on the node that has units is moved: the worker is not stopped before it, its read
succeeds and there is room. -/
def AllMoved (nid : Nat) (fileName : Name) (clvl : Int) :
    List ZrocksMap → List GcIo → GcState → Prop
  | [], _, _ => True
  | _ :: _, [], _ => False
  | m :: ms, io :: ios, g =>
    if io.run = false then unitsOn (m :: ms) nid = 0
    else (m.nodeId.val = nid → m.num.val = 0 ∨ Movable clvl m io g) ∧
      ∀ new g', migrateRound nid fileName clvl m io g = .ok (new, g') →
        AllMoved nid fileName clvl ms ios g'

/-- A closed file with the name `a` and these pieces. -/
def closedFile (size : Nat) (ms : List ZrocksMap) : ZnsFile :=
  { ZnsFile.new [97] 0 with size := size, map := ms, cache := none }

end

end Xztl
