import Xztl.Env.Levels

/-!
# Env — the files by node (`nid_file_map`)

To free a node the collector migrates the files that `nid_file_map` lists for it.  A name is listed
when a Sync or a migration puts a piece of the file on a node that is not the one its last piece went
to; it is never taken off, and neither a rename nor the recovery lists anything.

**`index_run`**: in every run in which no file with pieces is renamed, files are written under the
names they were opened with, and a restart finds no pieces in the log, each file is listed under its
name for all nodes of its pieces, and migrating the files listed for a full node frees it.
**`index_lost`**: a file of one byte is renamed, and its node lists only the old name.
-/

namespace Xztl

open Function Bytes List Except Option Table

/-! ### What is asked of the steps -/

/-- The table has the object under the name it was opened with, or not at all. -/
def Handle.Named (h : Handle) (t : Table) : Prop := ∀ n, t.find n = some h.znsFile → n = h.fileName

/-- No file has pieces. -/
def Table.NoPieces (t : Table) : Prop := ∀ n p, t.find n = some p → (t.objs p).map = []

/-- Files are written under the names they were opened with, no file with pieces is renamed, and what
a restart finds in the log has no pieces. -/
def EnvOp.Keeps (s : Session) : EnvOp → Prop
  | .append i _ _ => ∀ h, s.handles[i]? = some h → h.Named s.w.env.tbl
  | .sync i _ => ∀ h, s.handles[i]? = some h → h.Named s.w.env.tbl
  | .close i _ => ∀ h, s.handles[i]? = some h → h.Named s.w.env.tbl
  | .rename src _ => ∀ p, s.w.env.tbl.find src = some p → (s.w.env.tbl.objs p).map = []
  | .restart fuel _ _ _ => ∀ e st, replay fuel s.w.env.restart = .ok (e, st) → e.tbl.NoPieces
  | _ => True

/-- On a good log a restart keeps to the index if and only if no name has pieces in its records. -/
theorem keeps_restart_iff {s : Session} {seq fuel entries : Nat} {recs : List Rec} {rep : ZndReport}
    {ans : Nat → Nat → ZoneAns} (h : LogOk s.w.env seq recs)
    (hq : Quiet (fun _ => none) recs) (hfuel : recs.length < fuel) :
    (EnvOp.restart fuel entries rep ans).Keeps s ↔
      ∀ n r, Contents.replay recs n = some r → r.pieces = [] := by
  obtain ⟨e', hr, ht⟩ := h.replay hfuel
  obtain ⟨-, hdata⟩ := replay_refines hq
  constructor
  · intro hk n r hn
    rw [← hdata] at hn
    obtain ⟨p, hp, rfl⟩ := map_eq_some_iff.mp hn
    exact ht ▸ hk e' .ok hr n p (ht ▸ hp)
  · intro hk e st he n p hn
    cases hr.symm.trans he
    rw [ht] at hn ⊢
    exact hk n _ ((congrFun hdata n).symm.trans (by rw [Table.data, hn, map_some]))

/-! ### The invariant -/

/-- The file `f` is listed under `n` for the nodes of its pieces and for its current node. -/
structure Listed (idx : Int → List Name) (n : Name) (f : ZnsFile) : Prop where
  pieces : ∀ m ∈ f.map, n ∈ idx m.nodeId
  current : f.currentNid = -1 ∨ n ∈ idx f.currentNid
  unset : f.map = [] → f.currentNid = -1

/-- All files are listed; only files without pieces may have two names. -/
structure IndexInv (e : Env) : Prop where
  listed : ∀ n p, e.tbl.find n = some p → Listed e.nidFileMap n (e.tbl.objs p)
  sole : ∀ n n' p, e.tbl.find n = some p → e.tbl.find n' = some p →
    n = n' ∨ (e.tbl.objs p).map = []

section

variable {idx idx' : Int → List Name} {n : Name} {f f' : ZnsFile} {e e' : Env} {t t' : Table}
  {p : Ptr} {h : Handle}

theorem Listed.mono (hl : Listed idx n f) (hi : ∀ k, idx k ⊆ idx' k) : Listed idx' n f :=
  ⟨fun m hm => hi _ (hl.pieces m hm), hl.current.imp_right fun h => hi _ h, hl.unset⟩

/-- A file with the same pieces and the same current node. -/
theorem Listed.congr (hl : Listed idx n f) (hm : f'.map = f.map)
    (hc : f'.currentNid = f.currentNid) : Listed idx n f' :=
  ⟨hm ▸ hl.pieces, hc ▸ hl.current, fun h => hc ▸ hl.unset (hm ▸ h)⟩

theorem Listed.blank (hm : f.map = []) (hc : f.currentNid = -1) : Listed idx n f :=
  ⟨fun _ h => absurd (hm ▸ h) not_mem_nil, Or.inl hc, fun _ => hc⟩

/-- Fewer entries, and objects with the same pieces and current nodes. -/
theorem IndexInv.sub (hi : IndexInv e) (hidx : e'.nidFileMap = e.nidFileMap)
    (hf : ∀ n p, e'.tbl.find n = some p → e.tbl.find n = some p)
    (ho : ∀ p, (e'.tbl.objs p).map = (e.tbl.objs p).map ∧
      (e'.tbl.objs p).currentNid = (e.tbl.objs p).currentNid) : IndexInv e' := by
  refine ⟨fun n p hn => ?_, fun n n' p hn hn' => ?_⟩
  · rw [hidx]
    exact (hi.listed n p (hf n p hn)).congr (ho p).1 (ho p).2
  · rw [(ho p).1]
    exact hi.sole n n' p (hf n p hn) (hf n' p hn')

theorem IndexInv.same (hi : IndexInv e) (hs : e.tbl.Same e'.tbl)
    (hidx : e'.nidFileMap = e.nidFileMap) : IndexInv e' := by
  refine hi.sub hidx (fun n p hn => by rw [← hs.find]; exact hn) fun p => ?_
  obtain ⟨i, he⟩ := hs.objs p
  rw [he]
  exact ⟨rfl, rfl⟩

/-- A change of an object that keeps its pieces and its current node. -/
theorem IndexInv.touch (hi : IndexInv e) (hm : f.map = (e.tbl.objs p).map)
    (hc : f.currentNid = (e.tbl.objs p).currentNid) : IndexInv (e.setFile p f) := by
  refine hi.sub rfl (fun n q hn => hn) fun q => ?_
  show (update e.tbl.objs p f q).map = _ ∧ (update e.tbl.objs p f q).currentNid = _
  by_cases e' : q = p
  · subst e'
    rw [update_self]
    exact ⟨hm, hc⟩
  · rw [update_of_ne e']
    exact ⟨rfl, rfl⟩

/-- A longer list for one node. -/
theorem subset_update (idx : Int → List Name) (nid : Int) (n : Name) (k : Int) :
    idx k ⊆ update idx nid (idx nid ++ [n]) k := by
  by_cases e : k = nid
  · subst e
    rw [update_self]
    exact subset_append_left _ _
  · rw [update_of_ne e]
    exact List.Subset.refl _

theorem mem_update (idx : Int → List Name) (nid : Int) (n : Name) :
    n ∈ update idx nid (idx nid ++ [n]) nid := by
  rw [update_self]
  exact mem_append_right _ (mem_singleton_self n)

/-- Another piece: its node is the file's current one, or the name is listed for it. -/
theorem Listed.push (hl : Listed idx n f) (m : ZrocksMap) :
    (f.currentNid ≠ m.nodeId.val → Listed (update idx m.nodeId.val
        (idx m.nodeId.val ++ [n])) n { f with map := f.map ++ [m], currentNid := m.nodeId.val }) ∧
    (f.currentNid = m.nodeId.val → Listed idx n { f with map := f.map ++ [m] }) := by
  have hne : f.map ++ [m] ≠ [] := append_ne_nil_of_right_ne_nil _ (cons_ne_nil m [])
  constructor
  · intro _
    refine ⟨fun m' hm' => ?_, Or.inr (mem_update _ _ _), fun h => absurd h hne⟩
    rcases mem_append.mp hm' with hm' | hm'
    · exact subset_update _ _ _ _ (hl.pieces m' hm')
    · obtain rfl := mem_singleton.mp hm'
      exact mem_update _ _ _
  · intro hc
    refine ⟨fun m' hm' => ?_, hl.current, fun h => absurd h hne⟩
    rcases mem_append.mp hm' with hm' | hm'
    · exact hl.pieces m' hm'
    · obtain rfl := mem_singleton.mp hm'
      rw [← hc]
      refine hl.current.resolve_left ?_
      omega

/-! ### Writes -/

/-- **A piece of a Sync.**  Only the object of the writable file changes, and the table has it under
the name that is listed. -/
theorem IndexInv.pushPiece (hi : IndexInv e) (hn : h.Named e.tbl) (m : ZrocksMap) :
    IndexInv (Xztl.pushPiece h e m) ∧ h.Named (Xztl.pushPiece h e m).tbl := by
  rw [Xztl.pushPiece]
  obtain ⟨f, hf⟩ : ∃ f, f = e.tbl.objs h.znsFile := ⟨_, rfl⟩
  simp only [← hf]
  -- one statement for both branches: a new object, and an index that has grown
  have key : ∀ f' idx', (∀ k, e.nidFileMap k ⊆ idx' k) →
      (Listed e.nidFileMap h.fileName f → Listed idx' h.fileName f') →
      IndexInv { e with tbl := e.tbl.set h.znsFile f', nidFileMap := idx' } := by
    intro f' idx' hidx hl
    have hobj : ∀ n p, e.tbl.find n = some p → p ≠ h.znsFile ∧
        update e.tbl.objs h.znsFile f' p = e.tbl.objs p ∨
        n = h.fileName ∧ p = h.znsFile ∧ update e.tbl.objs h.znsFile f' p = f' := by
      intro n p hp
      by_cases ep : p = h.znsFile
      · subst ep
        exact Or.inr ⟨hn n hp, rfl, update_self _ _ _⟩
      · exact Or.inl ⟨ep, update_of_ne ep _ _⟩
    refine ⟨fun n p hp => ?_, fun n n' p hp hp' => ?_⟩
    · show Listed idx' n (update e.tbl.objs h.znsFile f' p)
      obtain ⟨-, ho⟩ | ⟨rfl, rfl, ho⟩ := hobj n p hp
      · rw [ho]
        exact (hi.listed n p hp).mono hidx
      · rw [ho]
        exact hl (hf ▸ hi.listed _ _ hp)
    · show n = n' ∨ (update e.tbl.objs h.znsFile f' p).map = []
      obtain ⟨-, ho⟩ | ⟨rfl, rfl, -⟩ := hobj n p hp
      · rw [ho]
        exact hi.sole n n' p hp hp'
      · exact Or.inl (hn n' hp').symm
  split
  · next hc => exact ⟨key _ _ (subset_update _ _ _) fun hl => (hl.push m).1 hc, hn⟩
  · next hc =>
    exact ⟨key _ _ (fun _ => List.Subset.refl _) fun hl => (hl.push m).2 (not_not.mp hc), hn⟩

theorem IndexInv.pushPieces (maps : List ZrocksMap) : ∀ {e : Env}, IndexInv e → h.Named e.tbl →
    IndexInv (Xztl.pushPieces h e maps) := by
  induction maps with
  | nil => exact fun hi _ => hi
  | cons m maps ih =>
    intro e hi hn
    obtain ⟨hi', hn'⟩ := hi.pushPiece hn m
    exact ih hi' hn'

variable {w w' : World}

theorem IndexInv.sync {io : WriteIo} {st : Status} (hi : IndexInv w.env) (hn : h.Named w.env.tbl)
    (hs : Xztl.sync w h io = .ok (w', st)) : IndexInv w'.env := by
  obtain ⟨-, ⟨-, rfl, -⟩ | ⟨-, -, maps, -, he⟩⟩ := sync_cases hs
  · exact hi
  obtain ⟨e1, hupd, he⟩ := bind_eq_ok.mp he
  rw [← Except.ok.inj he]
  obtain ⟨hsame, hidx⟩ := flushUpdateMetaData_same hupd
  exact ((hi.pushPieces maps hn).same hsame hidx).touch rfl rfl

theorem sync_find {io : WriteIo} {st : Status} (hs : Xztl.sync w h io = .ok (w', st)) (n : Name) :
    w'.env.tbl.find n = w.env.tbl.find n := by
  obtain ⟨-, ⟨-, rfl, -⟩ | ⟨-, -, maps, -, he⟩⟩ := sync_cases hs
  · rfl
  · obtain ⟨c, hsame⟩ := syncFlush_push he
    exact hsame.find n

section

variable (hi : IndexInv w.env) (hn : h.Named w.env.tbl)
include hi hn

theorem IndexInv.writeOp {a : WriteOp} (hs : Xztl.writeOp h w a = some w') :
    IndexInv w'.env ∧ h.Named w'.env.tbl := by
  obtain ⟨io, st, rfl, he⟩ | ⟨c, size, rfl, -⟩ := writeOp_cases hs
  · exact ⟨hi.sync hn he, fun n hf => hn n (by rw [← sync_find he]; exact hf)⟩
  · exact ⟨hi.touch rfl rfl, hn⟩

theorem IndexInv.append {data : List UInt8} {ios : List WriteIo} {st : Status}
    (hs : Xztl.append w h data ios = .ok (w', st)) : IndexInv w'.env := by
  obtain ⟨as, hrun⟩ := append_ops hs
  exact (hrun.invariant (I := fun w => IndexInv w.env ∧ h.Named w.env.tbl)
    (fun _ _ _ ⟨hi, hn⟩ _ ha => hi.writeOp hn ha) ⟨hi, hn⟩).1

theorem IndexInv.close {io : WriteIo} (hs : Xztl.close w h io = .ok w') : IndexInv w'.env := by
  obtain ⟨⟨w1, st⟩, hsync, hs⟩ := bind_eq_ok.mp hs
  cases hs
  exact (hi.sync hn hsync).touch rfl rfl

end

/-! ### The table -/

/-- **A new file.**  Its object has no pieces, whatever had the name before. -/
theorem IndexInv.create (hi : IndexInv e) (hs : newWritableFile e n = .ok (e', h)) :
    IndexInv e' := by
  have hnew := newWritableFile_new hs
  -- an entry has the new object, or an old one under another name than `n`
  have hobj : ∀ m p, e'.tbl.find m = some p → p ≠ e.tbl.next → e.tbl.find m = some p := by
    intro m p hm hp
    rw [hnew.find] at hm
    split at hm
    · exact absurd (Option.some.inj hm).symm hp
    · exact hm
  have hidx : e'.nidFileMap = e.nidFileMap := by
    rw [hnew.tbl]
    rfl
  refine ⟨fun m p hm => ?_, fun m m' p hm hm' => ?_⟩ <;> rw [hnew.objs] <;>
    by_cases hp : p = e.tbl.next
  · rw [hp, update_self]
    exact .blank rfl rfl
  · rw [update_of_ne hp, hidx]
    exact hi.listed m p (hobj m p hm hp)
  · rw [hp, update_self]
    exact Or.inr rfl
  · rw [update_of_ne hp]
    exact hi.sole m m' p (hobj m p hm hp) (hobj m' p hm' hp)

theorem IndexInv.delete (hi : IndexInv w.env) (hs : deleteFile w n = .ok w') : IndexInv w'.env := by
  obtain ⟨-, rfl⟩ | ⟨p, z, e, rfl, hfind, -, hsame, hidx⟩ := deleteFile_cases hs
  · exact hi
  · have hsub : IndexInv (w.env.setTbl ((w.env.tbl.delete p).erase n)) := by
      refine hi.sub rfl (fun m q hm => ?_) fun _ => ⟨rfl, rfl⟩
      have hm : ((w.env.tbl.delete p).erase n).find m = some q := hm
      rw [find_erase] at hm
      split at hm
      · cases hm
      · exact hm
    exact hsub.same hsame hidx

theorem IndexInv.rename {src dst : Name} (hi : IndexInv e)
    (hg : ∀ p, e.tbl.find src = some p → (e.tbl.objs p).map = [])
    (hs : renameFile e src dst = .ok e') : IndexInv e' := by
  obtain ⟨-, rfl⟩ | ⟨p, hfind, hsame, hidx⟩ := renameFile_cases hs
  · exact hi
  · have hmap := hg p hfind
    have hcur := (hi.listed src p hfind).unset hmap
    -- the object has a new name, and an entry that has another object is an old one
    have hobj : ∀ q, ((e.tbl.renamed src dst p).objs q).map = (e.tbl.objs q).map ∧
        ((e.tbl.renamed src dst p).objs q).currentNid = (e.tbl.objs q).currentNid := fun q => by
      by_cases eq : q = p
      · subst eq
        rw [objs_renamed]
        exact ⟨rfl, rfl⟩
      · rw [show (e.tbl.renamed src dst p).objs q = e.tbl.objs q from update_of_ne eq _ _]
        exact ⟨rfl, rfl⟩
    have hold : ∀ m q, (e.tbl.renamed src dst p).find m = some q → q = p ∨
        e.tbl.find m = some q := fun m q hm => by
      rw [find_renamed] at hm
      split at hm
      · cases hm
      · split at hm
        · exact Or.inl (Option.some.inj hm).symm
        · exact Or.inr hm
    have hren : IndexInv (e.setTbl (e.tbl.renamed src dst p)) := by
      refine ⟨fun m q hm => ?_, fun m m' q hm hm' => ?_⟩
      · rcases hold m q hm with rfl | hm
        · exact .blank ((hobj q).1.trans hmap) ((hobj q).2.trans hcur)
        · exact (hi.listed m q hm).congr (hobj q).1 (hobj q).2
      · show m = m' ∨ ((e.tbl.renamed src dst p).objs q).map = []
        rw [(hobj q).1]
        rcases hold m q hm with rfl | hm
        · exact Or.inr hmap
        rcases hold m' q hm' with rfl | hm'
        · exact Or.inr hmap
        · exact hi.sole m m' q hm hm'
    exact hren.same hsame hidx

/-! ### Migrations -/

/-- During the copying: the name is listed for the node of the last piece written. -/
def GcState.Current (fileName : Name) (g : GcState) : Prop :=
  g.cnid = -1 ∨ fileName ∈ g.nidFileMap g.cnid

variable {fileName : Name} {g g' : GcState} {m : ZrocksMap} {ms new : List ZrocksMap} {clvl : Int}
  {nid : Nat} {io : GcIo}

theorem GcState.note_listed (hc : g.Current fileName) (i : Nat) (m : ZrocksMap) :
    (g.note fileName i m).Current fileName ∧
      (∀ k, g.nidFileMap k ⊆ (g.note fileName i m).nidFileMap k) ∧
      fileName ∈ (g.note fileName i m).nidFileMap m.nodeId := by
  rw [GcState.note]
  split
  · exact ⟨Or.inr (mem_update _ _ _), subset_update _ _ _, mem_update _ _ _⟩
  · next hcn =>
    have hcn : g.cnid = m.nodeId.val := not_not.mp hcn
    refine ⟨hc, fun _ => List.Subset.refl _, ?_⟩
    rw [← hcn]
    refine hc.resolve_left ?_
    omega

theorem GcState.noteAll_listed (ms : List ZrocksMap) : ∀ {i : Nat} {g : GcState},
    g.Current fileName → (g.noteAll fileName ms i).Current fileName ∧
      (∀ k, g.nidFileMap k ⊆ (g.noteAll fileName ms i).nidFileMap k) ∧
      ∀ m ∈ ms, fileName ∈ (g.noteAll fileName ms i).nidFileMap m.nodeId := by
  induction ms with
  | nil => exact fun hc => ⟨hc, fun _ => List.Subset.refl _, fun m hm => absurd hm not_mem_nil⟩
  | cons m ms ih =>
    intro i g hc
    obtain ⟨hc1, hsub1, hm1⟩ := GcState.note_listed hc i m
    obtain ⟨hc2, hsub2, hm2⟩ := ih (i := i + 1) hc1
    refine ⟨hc2, fun k => List.Subset.trans (hsub1 k) (hsub2 k), fun m' hm' => ?_⟩
    rcases mem_cons.mp hm' with rfl | hm'
    · exact hsub2 _ hm1
    · exact hm2 m' hm'

/-- A round at a piece on the node. -/
theorem migratePiece_listed (hc : g.Current fileName)
    (e : migratePiece fileName clvl m io g = .ok (new, g')) :
    g'.Current fileName ∧ (∀ k, g.nidFileMap k ⊆ g'.nidFileMap k) ∧ new ≠ [] ∧
      (new = [m] ∨ ∀ m' ∈ new, fileName ∈ g'.nidFileMap m'.nodeId) := by
  obtain ⟨maps, g1, hcopy, hnew⟩ := migratePiece_split e
  obtain ⟨z, buf, rfl⟩ := copyPiece_frame hcopy
  rcases hnew with ⟨-, rfl, rfl⟩ | ⟨hne, rfl, rfl⟩
  · exact ⟨hc, fun _ => List.Subset.refl _, cons_ne_nil m [], Or.inl rfl⟩
  · have hc' : GcState.Current fileName { g with z := z, gcBuffer := buf } := hc
    obtain ⟨h1, h2, h3⟩ := GcState.noteAll_listed new (i := 0) hc'
    exact ⟨h1, h2, hne, Or.inr h3⟩

/-- **The copying.**  A piece of the copy is an old one or listed. -/
theorem migrateLoop_listed (ms : List ZrocksMap) : ∀ {ios : List GcIo} {g : GcState}
    {new : List ZrocksMap}, g.Current fileName →
    migrateLoop nid fileName clvl ms ios g = .ok (new, g') →
    (∀ k, g.nidFileMap k ⊆ g'.nidFileMap k) ∧ (new = [] ↔ ms = []) ∧
      ∀ m ∈ new, m ∈ ms ∨ fileName ∈ g'.nidFileMap m.nodeId := by
  induction ms with
  | nil =>
    intro ios g new _ e
    cases e
    exact ⟨fun _ => List.Subset.refl _, Iff.rfl, fun m hm => absurd hm not_mem_nil⟩
  | cons m ms ih =>
    intro ios g new hc e
    obtain ⟨io, ios, rfl, ⟨-, rfl, rfl⟩ | ⟨-, new1, g1, rest, e1, e2, rfl⟩⟩ := migrateLoop_cons e
    · exact ⟨fun _ => List.Subset.refl _, Iff.rfl, fun m' hm' => Or.inl hm'⟩
    -- a piece on another node stays as it is
    have hround : g1.Current fileName ∧ (∀ k, g.nidFileMap k ⊆ g1.nidFileMap k) ∧ new1 ≠ [] ∧
        (new1 = [m] ∨ ∀ m' ∈ new1, fileName ∈ g1.nidFileMap m'.nodeId) := by
      rw [migrateRound] at e1
      split at e1
      · cases e1
        exact ⟨hc, fun _ => List.Subset.refl _, cons_ne_nil m [], Or.inl rfl⟩
      · exact migratePiece_listed hc e1
    obtain ⟨hc1, hsub1, hne, hnew⟩ := hround
    obtain ⟨hsub2, -, hrest⟩ := ih hc1 e2
    refine ⟨fun k => List.Subset.trans (hsub1 k) (hsub2 k), ?_, fun m' hm' => ?_⟩
    · exact iff_of_false (append_ne_nil_of_left_ne_nil hne rest) (cons_ne_nil m ms)
    · rcases mem_append.mp hm' with hm' | hm'
      · rcases hnew with rfl | hnew
        · exact Or.inl (mem_cons.mpr (Or.inl (mem_singleton.mp hm')))
        · exact Or.inr (hsub2 _ (hnew m' hm'))
      · exact (hrest m' hm').imp_left (mem_cons_of_mem _)

theorem IndexInv.migrate {gcBuffer : Nat → UInt8} {ios : List GcIo} (hi : IndexInv w.env)
    (hs : migrateNodeFile w nid n gcBuffer ios = .ok w') :
    IndexInv w'.env ∧ ∀ k, w.env.nidFileMap k ⊆ w'.env.nidFileMap k := by
  cases hfind : w.env.tbl.find n with
  | none =>
    rw [migrateNodeFile, hfind] at hs
    split at hs <;> cases hs
    exact ⟨hi, fun _ => List.Subset.refl _⟩
  | some p =>
    obtain ⟨-, ⟨-, rfl⟩ | ⟨-, mapCopy, g, hloop, -, hsame, hidx⟩⟩ := migrateNodeFile_cases hfind hs
    · exact ⟨hi, fun _ => List.Subset.refl _⟩
    have hl := hi.listed n p hfind
    have hcurrent : (GcState.start w (w.env.tbl.objs p) gcBuffer).Current n := hl.current
    obtain ⟨hsub, hnil, hnew⟩ := migrateLoop_listed _ hcurrent hloop
    have hsub : ∀ k, w.env.nidFileMap k ⊆ g.nidFileMap k := hsub
    obtain ⟨f, hf⟩ : ∃ f : ZnsFile, f = { w.env.tbl.objs p with map := mapCopy } := ⟨_, rfl⟩
    rw [← hf] at hsame
    have hcopy : Listed g.nidFileMap n f := by
      rw [hf]
      refine ⟨fun m hm => ?_, hl.current.imp_right fun h => hsub _ h, fun h => hl.unset (hnil.mp h)⟩
      exact (hnew m hm).elim (fun hm => hsub _ (hl.pieces m hm)) id
    -- an object with a second name has no pieces, and then nothing is copied
    have hset : IndexInv { w.env with tbl := w.env.tbl.set p f, nidFileMap := g.nidFileMap } := by
      refine ⟨fun m q hm => ?_, fun m m' q hm hm' => ?_⟩
      · show Listed g.nidFileMap m (update w.env.tbl.objs p f q)
        by_cases eq : q = p
        · subst eq
          rw [update_self]
          rcases hi.sole n m q hfind hm with rfl | h0
          · exact hcopy
          · exact .blank (by rw [hf]; exact hnil.mpr h0) (by rw [hf]; exact hl.unset h0)
        · rw [update_of_ne eq]
          exact (hi.listed m q hm).mono hsub
      · show m = m' ∨ (update w.env.tbl.objs p f q).map = []
        by_cases eq : q = p
        · subst eq
          rw [update_self]
          exact (hi.sole m m' q hm hm').imp_right fun h0 => by rw [hf]; exact hnil.mpr h0
        · rw [update_of_ne eq]
          exact hi.sole m m' q hm hm'
    exact ⟨hset.same hsame hidx, fun k => by rw [hidx]; exact hsub k⟩

/-! ### Recovery -/

/-- No object has a current node: the recovery writes nothing. -/
def Table.Unwritten (t : Table) : Prop := ∀ p, (t.objs p).currentNid = -1

theorem Table.Unwritten.recover (ht : t.Unwritten) (r : FileRec) (replace : Bool) :
    (t.recover r replace).Unwritten := by
  intro q
  rw [Table.recover]
  cases t.find r.name with
  | none =>
    show (update t.objs t.next _ q).currentNid = -1
    by_cases e : q = t.next
    · rw [e, update_self]
      rfl
    · rw [update_of_ne e]
      exact ht q
  | some p =>
    show (update t.objs p _ q).currentNid = -1
    by_cases e : q = p
    · rw [e, update_self]
      exact ht p
    · rw [update_of_ne e]
      exact ht q

theorem Table.Unwritten.recoverFiles {buf : Buf} (k : Nat) : ∀ {t : Table} {a : Nat}, t.Unwritten →
    (Xztl.recoverFiles k t buf a).Unwritten := by
  induction k with
  | zero => exact fun ht => ht
  | succ k ih => exact fun ht => ih (ht.recover _ _)

theorem Table.Unwritten.applyRecord {buf : Buf} (ht : t.Unwritten)
    (e : Xztl.applyRecord t buf = .ok t') : t'.Unwritten := by
  rw [Xztl.applyRecord] at e
  simp only at e
  split at e
  · split at e
    · cases e
    · obtain ⟨-, rfl⟩ := inMetaBuf_eq_ok.mp e
      exact .recoverFiles _ ht
  split at e
  · obtain ⟨-, rfl⟩ := inMetaBuf_eq_ok.mp e
    exact ht.recover _ _
  split at e
  · obtain ⟨-, rfl⟩ := inMetaBuf_eq_ok.mp e
    exact ht
  split at e
  · obtain ⟨-, rfl⟩ := inMetaBuf_eq_ok.mp e
    exact ht
  split at e
  · obtain ⟨-, rfl⟩ := inMetaBuf_eq_ok.mp e
    exact ht.recover _ _
  · cases e
    exact ht

theorem Table.Unwritten.replayLoop {md' : Metadata} {st : Status} (fuel : Nat) :
    ∀ {slba : Nat} {buf : Buf} {t : Table} {md : Metadata}, t.Unwritten →
    Xztl.replayLoop fuel slba buf t md = .ok (t', md', st) → t'.Unwritten := by
  induction fuel with
  | zero =>
    intro slba buf t md _ e
    cases e
  | succ fuel ih =>
    intro slba buf t md ht e
    rw [Xztl.replayLoop] at e
    simp only at e
    split at e
    · cases e
      exact ht
    split at e
    · cases e
      exact ht
    generalize leVal (load (zrocksReadMetadata md slba buf 0 znsAligment).2.1 4 4) = d at e
    generalize (if d + metadataHeadLen > znsAligment then d + metadataHeadLen - znsAligment
      else 0) = rest at e
    split at e
    · cases e
    split at e
    · cases e
      exact ht
    obtain ⟨t1, ht1, e⟩ := bind_eq_ok.mp e
    exact ih (ht.applyRecord ht1) e

theorem replay_unwritten {fuel : Nat} {st : Status} (hs : replay fuel e.restart = .ok (e', st)) :
    e'.tbl.Unwritten := by
  have hempty : (Table.empty).Unwritten := fun _ => rfl
  rw [replay] at hs
  simp only at hs
  split at hs
  · cases hs
    exact hempty
  split at hs
  · cases hs
    exact hempty
  · obtain ⟨⟨t, md, st'⟩, hl, hs⟩ := bind_eq_ok.mp hs
    have ht : t.Unwritten := .replayLoop fuel (fun _ => rfl) hl
    split at hs <;> cases hs <;> exact ht

theorem IndexInv.restart {fuel entries : Nat} {rep : ZndReport} {ans : Nat → Nat → ZoneAns}
    (hg : ∀ e st, replay fuel w.env.restart = .ok (e, st) → e.tbl.NoPieces)
    (hs : restartWorld w fuel entries rep ans = .ok (w', .ok)) : IndexInv w'.env := by
  obtain ⟨z, -, hs⟩ := bind_eq_ok.mp hs
  obtain ⟨⟨e1, st⟩, hl, hs⟩ := bind_eq_ok.mp hs
  have henv : w'.env = e1 ∧ st = .ok := by
    simp only at hs
    split at hs
    · next hst =>
      cases hs
      exact absurd rfl hst
    · next hst =>
      obtain ⟨z', -, hs⟩ := bind_eq_ok.mp hs
      cases hs
      exact ⟨rfl, not_not.mp hst⟩
  obtain ⟨he, rfl⟩ := henv
  obtain ⟨⟨e₀, st0⟩, hr, hl⟩ := bind_eq_ok.mp hl
  have hblank : IndexInv e₀ :=
    ⟨fun n p hn => .blank (hg e₀ st0 hr n p hn) (replay_unwritten hr p),
      fun n n' p hn _ => Or.inr (hg e₀ st0 hr n p hn)⟩
  rw [he]
  simp only at hl
  split at hl
  · cases hl
    exact hblank
  · obtain ⟨⟨e2, st2⟩, hflush, hl⟩ := bind_eq_ok.mp hl
    cases hl
    obtain ⟨hsame, hidx⟩ := flushMetaData_same hflush
    exact hblank.same hsame hidx

/-! ### Runs -/

theorem IndexInv.step {s s' : Session} {a : EnvOp} (hi : IndexInv s.w.env) (hg : a.Keeps s)
    (hs : s.step a = some s') : IndexInv s'.w.env := by
  cases a with
  | create n =>
    obtain ⟨⟨e, h⟩, he, ⟨⟩⟩ := toOption_bind_eq_some.mp hs
    exact hi.create he
  | append i data ios =>
    obtain ⟨h, hh, hs⟩ := bind_eq_some_iff.mp hs
    obtain ⟨⟨w, st⟩, he, ⟨⟩⟩ := toOption_bind_eq_some.mp hs
    exact hi.append (hg h hh) he
  | sync i io =>
    obtain ⟨h, hh, hs⟩ := bind_eq_some_iff.mp hs
    obtain ⟨⟨w, st⟩, he, ⟨⟩⟩ := toOption_bind_eq_some.mp hs
    exact hi.sync (hg h hh) he
  | close i io =>
    obtain ⟨h, hh, hs⟩ := bind_eq_some_iff.mp hs
    obtain ⟨w, he, ⟨⟩⟩ := toOption_bind_eq_some.mp hs
    exact hi.close (hg h hh) he
  | delete n =>
    obtain ⟨w, he, ⟨⟩⟩ := toOption_bind_eq_some.mp hs
    exact hi.delete he
  | rename src dst =>
    obtain ⟨e, he, ⟨⟩⟩ := toOption_bind_eq_some.mp hs
    exact hi.rename hg he
  | migrate nid n gcBuffer ios =>
    obtain ⟨w, he, ⟨⟩⟩ := toOption_bind_eq_some.mp hs
    exact (hi.migrate he).1
  | mgmt =>
    cases hs
    exact hi
  | hint i wlth =>
    obtain ⟨h, hh, hs⟩ := bind_eq_some_iff.mp hs
    obtain ⟨e, he, ⟨⟩⟩ := toOption_bind_eq_some.mp hs
    obtain ⟨-, rfl⟩ := setWriteLifeTimeHint_eq_ok.mp he
    exact hi.touch rfl rfl
  | restart fuel entries rep ans =>
    obtain ⟨⟨w, st⟩, he, hs⟩ := bind_eq_some_iff.mp hs
    simp only at hs
    split at hs
    · cases hs
    · next hst =>
      cases hs
      obtain rfl := not_not.mp hst
      exact .restart hg (toOption_eq_some.mp he)

end

/-! ### Freeing a node -/

/-- A call of `MigrateNodeFile` by the collector. -/
structure GcCall where
  fileName : Name
  gcBuffer : Nat → UInt8
  ios : List GcIo

/-- The loop of `GCWorker` over the files listed for a node, one call. -/
def sweepStep (nid : Nat) (w : World) (c : GcCall) : Option World :=
  (migrateNodeFile w nid c.fileName c.gcBuffer c.ios).toOption

/-- The file is closed, and all its pieces on the node are moved. -/
def GcCall.FaultFree (nid : Nat) (w : World) (c : GcCall) : Prop :=
  ∀ p, w.env.tbl.find c.fileName = some p → (w.env.tbl.objs p).isWriting = false ∧
    AllMoved nid c.fileName (w.env.tbl.objs p).level (w.env.tbl.objs p).map c.ios
      (.start w (w.env.tbl.objs p) c.gcBuffer)

/-- Migrating the files listed for a full node frees it: no file has a unit on it, its count is zero,
and it is marked for its reset. -/
def World.Frees (w : World) : Prop :=
  ∀ nid < w.z.nnodes, (w.z.vnodes nid).left = 0 → ∀ calls w',
    calls.map GcCall.fileName = w.env.nidFileMap nid →
    Runs (sweepStep nid) (fun w c => c.FaultFree nid w) w calls w' →
    unitsOn w'.env.tbl.live nid = 0 ∧ (w'.z.vnodes nid).nrValid = 0 ∧
      (w'.z.vnodes nid).status = .reset

section

variable {w w' : World} {nid : Nat} {n : Name} {p : Ptr}

/-- The copying writes nothing to a full node. -/
theorem migrateLoop_spent {k : Nat} {fileName : Name} {clvl : Int} {g' : GcState} (ms : List ZrocksMap) :
    ∀ {ios : List GcIo} {g : GcState} {live new : List ZrocksMap}, Sound g.z live →
    (g.z.vnodes k).left = 0 → migrateLoop nid fileName clvl ms ios g = .ok (new, g') →
    (g'.z.vnodes k).left = 0 ∧ (g'.z.vnodes k).nrValid = (g.z.vnodes k).nrValid := by
  induction ms with
  | nil =>
    intro ios g live new _ hl e
    cases e
    exact ⟨hl, rfl⟩
  | cons m ms ih =>
    intro ios g live new h hl e
    obtain ⟨io, ios, rfl, ⟨-, rfl, rfl⟩ | ⟨-, new1, g1, rest, e1, e2, rfl⟩⟩ := migrateLoop_cons e
    · exact ⟨hl, rfl⟩
    have hround : (g1.z.vnodes k).left = 0 ∧
        (g1.z.vnodes k).nrValid = (g.z.vnodes k).nrValid := by
      rw [migrateRound] at e1
      split at e1
      · cases e1
        exact ⟨hl, rfl⟩
      · obtain ⟨-, ret, buf, -, ⟨-, -, hz⟩ | ⟨-, maps, hw, -⟩⟩ := migratePiece_cases e1
        · rw [hz]
          exact ⟨hl, rfl⟩
        · obtain ⟨parts, ha⟩ := h.alloc
          exact zrocksWrite_spent ha hl hw
    obtain ⟨live1, h1⟩ : ∃ live1, Sound g1.z live1 := by
      obtain ⟨-, ⟨-, -, hs⟩ | ⟨-, -, hs⟩⟩ := h.migrateRound e1
      · exact ⟨_, hs⟩
      · exact ⟨_, hs⟩
    obtain ⟨hl2, hv2⟩ := ih h1 hround.1 e2
    exact ⟨hl2, hv2.trans hround.2⟩

theorem trimAll_left (ms : List ZrocksMap) : ∀ {z z' : Ztl}, trimAll ms z = .ok z' →
    (z'.vnodes nid).left = (z.vnodes nid).left := by
  induction ms with
  | nil =>
    intro z z' e
    cases e
    rfl
  | cons m ms ih =>
    intro z z' e
    obtain ⟨⟨z1, ret⟩, e1, e⟩ := bind_eq_ok.mp e
    exact (ih e).trans (zrocksTrim_counters e1 nid).2

/-- **A fault-free migration** takes the file off the node, puts nothing on a full node and leaves the
other files alone. -/
theorem Counted.sweep {c : GcCall} {k : Nat} (hc : Counted w) (hl : (w.z.vnodes k).left = 0)
    (hf : c.FaultFree nid w) (hs : sweepStep nid w c = some w') :
    Counted w' ∧ w'.z.nnodes = w.z.nnodes ∧ (w'.z.vnodes k).left = 0 ∧
      (∀ m q, w'.env.tbl.find m = some q → w.env.tbl.find m = some q) ∧
      (∀ q, w.env.tbl.find c.fileName = some q → unitsOn (w'.env.tbl.objs q).map k
        = if k = nid then 0 else unitsOn (w.env.tbl.objs q).map k) ∧
      ∀ q, w.env.tbl.find c.fileName ≠ some q →
        (w'.env.tbl.objs q).map = (w.env.tbl.objs q).map := by
  have hs : Xztl.migrateNodeFile w nid c.fileName c.gcBuffer c.ios = .ok w' :=
    toOption_eq_some.mp hs
  cases hfind : w.env.tbl.find c.fileName with
  | none =>
    rw [Xztl.migrateNodeFile, hfind] at hs
    split at hs <;> cases hs
    exact ⟨hc, rfl, hl, fun _ _ h => h, (fun _ h => by cases h), fun _ _ => rfl⟩
  | some p =>
    obtain ⟨hwr, hall⟩ := hf p hfind
    have hcount := (hc.migrateNodeFile hfind (fun _ => hall) hs).1
    have hsound := hc.sound.perm (live_perm hfind)
    obtain ⟨hnn, -⟩ := hsound.migrateNodeFile hfind hwr hs
    obtain ⟨-, ⟨hwr', -⟩ | ⟨-, mapCopy, g, hloop, htrim, hsame, -⟩⟩ := migrateNodeFile_cases hfind hs
    · rw [hwr] at hwr'
      cases hwr'
    obtain ⟨hleft, hval⟩ := migrateLoop_spent _ (g := .start w (w.env.tbl.objs p) c.gcBuffer)
      hsound hl hloop
    obtain ⟨hnn', W, j, hs', hunits, -, hiff⟩ :=
      Sound.migrateLoop _ (g := .start w (w.env.tbl.objs p) c.gcBuffer) hsound hloop
    obtain rfl := hiff.mpr hall
    have hval : (g.z.vnodes k).nrValid = (w.z.vnodes k).nrValid := hval
    have hnn' : g.z.nnodes = w.z.nnodes := hnn'
    -- the count of the node has not changed, so no written piece is on it
    have hW : unitsOn W k = 0 := by
      by_cases hk : k < w.z.nnodes
      · have h2 := hs'.acc.valid k (hnn' ▸ hk)
        have h3 := hsound.acc.valid k hk
        rw [unitsOn_append] at h2
        omega
      · refine unitsOn_eq_zero fun m hm => ?_
        have := hs'.lt m (mem_append_right _ hm)
        omega
    have hnew : unitsOn mapCopy k = if k = nid then 0 else unitsOn (w.env.tbl.objs p).map k := by
      have h1 := hunits k
      rw [unitsOn_onNode, ite_self] at h1
      split at h1
      · next e =>
        subst e
        rw [if_pos rfl]
        omega
      · next e =>
        rw [if_neg e]
        omega
    refine ⟨hcount, hnn, (trimAll_left _ htrim).trans hleft, fun m q hm => ?_, fun q hq => ?_,
      fun q hq => ?_⟩
    · rw [hsame.find] at hm
      exact hm
    · cases hq
      rw [hsame.map, objs_set, update_self]
      exact hnew
    · have hne : q ≠ p := fun e => hq (e ▸ rfl)
      rw [hsame.map, objs_set, update_of_ne hne]

theorem unitsOn_live_eq_zero {t : Table} (h : ∀ m q, t.find m = some q → unitsOn (t.objs q).map nid = 0) :
    unitsOn t.live nid = 0 := by
  have hsum : ∀ xs : List (Name × Option Ptr), (∀ x ∈ xs, unitsOn (t.piecesOf x.2) nid = 0) →
      unitsOn (xs.flatMap fun x => t.piecesOf x.2) nid = 0 := by
    intro xs
    induction xs with
    | nil => exact fun _ => rfl
    | cons x xs ih =>
      intro hx
      rw [flatMap_cons, unitsOn_append, hx x mem_cons_self,
        ih fun y hy => hx y (mem_cons_of_mem _ hy)]
  refine hsum _ ?_
  rintro ⟨m, q⟩ hx
  cases q with
  | none => rfl
  | some q => exact h m q ((t.find_eq_some m q).mpr hx)

/-- **The files listed for a node**, one after the other: when the files with units on the node are
among them, no file has units there afterwards.  A full node gets none. -/
theorem sweep_frees {calls : List GcCall} {k : Nat}
    (hrun : Runs (sweepStep nid) (fun w c => c.FaultFree nid w) w calls w') (hc : Counted w)
    (hl : (w.z.vnodes k).left = 0) :
    Counted w' ∧ w'.z.nnodes = w.z.nnodes ∧ (w'.z.vnodes k).left = 0 ∧
      ((∀ n q, w.env.tbl.find n = some q → unitsOn (w.env.tbl.objs q).map k ≠ 0 →
          k = nid ∧ n ∈ calls.map GcCall.fileName) →
        ∀ n q, w'.env.tbl.find n = some q → unitsOn (w'.env.tbl.objs q).map k = 0) := by
  induction hrun with
  | nil w => exact ⟨hc, rfl, hl, fun hin n q hn => not_not.mp fun h0 => nomatch (hin n q hn h0).2⟩
  | @cons w w1 w' c calls hf hs _ ih =>
    obtain ⟨hc1, hnn, hl1, hfind, hself, hother⟩ := hc.sweep hl hf hs
    obtain ⟨hc2, hnn2, hl2, hall⟩ := ih hc1 hl1
    refine ⟨hc2, hnn2.trans hnn, hl2, fun hin => hall fun n q hn h0 => ?_⟩
    have hn0 := hfind n q hn
    by_cases hq : w.env.tbl.find c.fileName = some q
    · rw [hself q hq] at h0
      split at h0
      · exact absurd rfl h0
      · next hk => exact absurd (hin n q hn0 h0).1 hk
    · rw [hother q hq] at h0
      obtain ⟨hk, hmem⟩ := hin n q hn0 h0
      refine ⟨hk, (mem_cons.mp hmem).resolve_left fun e => hq ?_⟩
      rw [← e]
      exact hn0

/-- The files with units on a node are listed for it. -/
theorem IndexInv.mem_of_unitsOn {q : Ptr} (hi : IndexInv w.env) (hn : w.env.tbl.find n = some q)
    (h0 : unitsOn (w.env.tbl.objs q).map nid ≠ 0) : n ∈ w.env.nidFileMap nid := by
  by_contra hno
  refine h0 (unitsOn_eq_zero fun m hm e => hno ?_)
  rw [← e]
  exact (hi.listed n q hn).pieces m hm

/-- **The index serves the collector.** -/
theorem IndexInv.frees (hi : IndexInv w.env) (hc : Counted w) : w.Frees := by
  intro nid hn hl calls w' hcalls hrun
  obtain ⟨hc', hnn, hl', hall⟩ := sweep_frees hrun hc hl
  have hall := hall fun n q hn h0 => ⟨rfl, hcalls ▸ hi.mem_of_unitsOn hn h0⟩
  have h0 := unitsOn_live_eq_zero hall
  have hn' : nid < w'.z.nnodes := hnn ▸ hn
  exact ⟨h0, (hc'.sound.acc.valid nid hn').trans h0, hc'.sound.reset_of_spent hn' hl' h0⟩

end

/-! ### The collector finds all files -/

/-- Each file of the table is listed under its name for the nodes of its pieces. -/
def Env.Indexed (e : Env) : Prop :=
  ∀ n p, e.tbl.find n = some p → ∀ m ∈ (e.tbl.objs p).map, n ∈ e.nidFileMap m.nodeId

/-- **The index.**  In every state of a run whose steps keep to the names, all files are listed for
the nodes of their pieces, and where the counts follow the table, migrating the files listed for a
full node frees it. -/
theorem index_run {z₀ : Ztl} {e₀ : Env} {as : List EnvOp} {s : Session} (ht : e₀.tbl = .empty)
    (hrun : Runs Session.step (fun s a => a.Keeps s) ⟨⟨z₀, e₀⟩, []⟩ as s) :
    s.w.env.Indexed ∧ (Counted s.w → s.w.Frees) := by
  have hnone : ∀ n p, e₀.tbl.find n ≠ some p := fun n p h => by
    rw [ht, find_empty] at h
    cases h
  have hfresh : IndexInv (World.mk z₀ e₀).env :=
    ⟨fun n p h => absurd h (hnone n p), fun n _ p h _ => absurd h (hnone n p)⟩
  have hi : IndexInv s.w.env :=
    hrun.invariant (I := fun s => IndexInv s.w.env) (fun _ _ _ hi hg hs => hi.step hg hs) hfresh
  exact ⟨fun n p hn => (hi.listed n p hn).pieces, hi.frees⟩

section

variable {dev : Dev} {e₀ : Env} {io : WriteIo} {s₁ s₂ s : Session} {m : ZrocksMap}

/-- The writable file of the file `a` has its name. -/
theorem named_nameA (hh : s.handles = [⟨nameA, 0⟩])
    (hf : s.w.env.tbl.files = (Table.single newA).files) {h : Handle}
    (hi : s.handles[0]? = some h) : h.Named s.w.env.tbl := by
  rw [hh] at hi
  cases hi
  intro n hn
  rw [Table.find, hf] at hn
  have hn : (Table.single newA).find n = some 0 := hn
  rw [find_single] at hn
  split at hn
  · next e => exact e.symm
  · cases hn

/-- The steps that write the file of one byte keep to the names. -/
theorem ByteFile.keeps (h : ByteFile dev e₀ io s₁ s₂ s m) :
    Runs Session.step (fun s a => a.Keeps s) ⟨⟨Ztl.fresh oneNode dev, e₀⟩, []⟩
      [.create nameA, .append 0 [0] [], .sync 0 io] s := by
  have h1 : EnvOp.Keeps s₁ (.append 0 [0] []) := fun _ hi =>
    named_nameA h.handles.1 h.files.1 hi
  have h2 : EnvOp.Keeps s₂ (.sync 0 io) := fun _ hi =>
    named_nameA h.handles.2.1 h.files.2.1 hi
  exact .cons trivial h.create (.cons h1 h.append (.one h2 h.sync))

theorem ByteFile.rename (h : ByteFile dev e₀ io s₁ s₂ s m) :
    ∃ e', renameFile s.w.env nameA nameB = .ok e' ∧ e'.tbl.find nameB = some 0 ∧
      (e'.tbl.objs 0).map = [m] ∧ e'.nidFileMap = s.w.env.nidFileMap := by
  have htidy := h.counted.tidy
  have hne : nameA ≠ nameB := by decide
  have hlive := htidy.live h.find
  have htidy' := htidy.renamed h.find hne
  have hflush : (s.w.env.setTbl (s.w.env.tbl.renamed nameA nameB 0)).tbl.Flushable := by
    intro n q hn
    have hn : (s.w.env.tbl.renamed nameA nameB 0).find n = some q := hn
    refine ⟨htidy'.live hn, ?_⟩
    -- the only name is the new one
    have hname : n = nameB := by
      rw [find_renamed] at hn
      split at hn
      · cases hn
      split at hn
      · next e => exact e.symm
      · next hA _ =>
        rw [Table.find, h.files.2.2] at hn
        have hn : (Table.single newA).find n = some q := hn
        rw [find_single] at hn
        split at hn
        · next e => exact absurd e hA
        · cases hn
    show ((s.w.env.tbl.renamed nameA nameB 0).objs q).name.length ≤ fileNameLen
    rw [htidy'.name hn, hname]
    decide
  obtain ⟨e', he'⟩ := exists_flushRecord hflush .replace
    (memcpy (memcpy (fun _ => 0) metadataHeadLen nameA) (metadataHeadLen + fileNameLen) nameB)
    (metadataHeadLen + fileNameLen + fileNameLen)
  have hren : renameFile s.w.env nameA nameB = .ok e' := by
    rw [renameFile, h.find]
    simp only [Table.get, hlive]
    refine bind_eq_ok.mpr ⟨s.w.env.tbl.objs 0, rfl, ?_⟩
    rw [flushReplaceMetaData, if_neg (by decide)]
    exact he'
  obtain ⟨hsame, hidx⟩ := flushRecord_same he'
  have hsame : (s.w.env.tbl.renamed nameA nameB 0).Same e'.tbl := hsame
  refine ⟨e', hren, ?_, ?_, hidx⟩
  · rw [hsame.find, find_renamed, if_neg hne, if_pos rfl]
  · rw [hsame.map, objs_renamed]
    exact h.map

end

/-- The file `a` of one byte is listed for the node of its piece. -/
theorem index_run_byte : ∃ e₀ io s m, e₀.tbl = .empty ∧
    Runs Session.step (fun s a => a.Keeps s) ⟨⟨Ztl.fresh oneNode .blank, e₀⟩, []⟩
      [.create nameA, .append 0 [0] [], .sync 0 io] s ∧
    m ∈ s.w.env.tbl.live ∧ s.w.env.Indexed ∧ s.w.Frees := by
  obtain ⟨e₀, io, s₁, s₂, s, m, h⟩ := exists_byteSteps .blank
  obtain ⟨hidx, hfrees⟩ := index_run h.tbl h.keeps
  have hperm := live_perm h.find
  rw [h.map] at hperm
  exact ⟨e₀, io, s, m, h.tbl, h.keeps, hperm.mem_iff.mpr mem_cons_self, hidx, hfrees h.counted⟩

/-- **A file is not found.**  The file `a` of one byte is renamed to `b`: its piece is on a node for
which only `a` is listed. -/
theorem index_lost : ∃ e₀ as s, e₀.tbl = .empty ∧ (∀ k, e₀.nidFileMap k = []) ∧
    Runs Session.step (fun _ _ => True) ⟨⟨Ztl.fresh oneNode .blank, e₀⟩, []⟩ as s ∧
    ∃ p m, s.w.env.tbl.find nameB = some p ∧ m ∈ (s.w.env.tbl.objs p).map ∧
      s.w.env.nidFileMap m.nodeId = [nameA] ∧ ¬ s.w.env.Indexed := by
  obtain ⟨e₀, io, s₁, s₂, s, m, h⟩ := exists_byteSteps .blank
  obtain ⟨e', hren, hfind, hmap, hidx⟩ := h.rename
  have hstep : s.step (.rename nameA nameB) = some ⟨⟨s.w.z, e'⟩, s.handles⟩ := by
    rw [Session.step]
    simp only [hren]
    rfl
  have hm : m ∈ (e'.tbl.objs 0).map := by rw [hmap]; exact mem_singleton_self m
  have hlist : e'.nidFileMap m.nodeId = [nameA] := by rw [hidx]; exact h.index
  refine ⟨e₀, _, _, h.tbl, h.noIndex, (h.keeps.mono fun _ _ _ => trivial).append (.one trivial hstep),
    0, m, hfind, hm, hlist, fun hall => ?_⟩
  have := hall nameB 0 hfind m hm
  rw [show (World.mk s.w.z e').env.nidFileMap m.nodeId = [nameA] from hlist] at this
  exact absurd (mem_singleton.mp this) (by decide)

end Xztl
