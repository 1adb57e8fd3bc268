import Xztl.Env.Valid
import Xztl.Zrocks.Levels

/-!
# Env — the levels of files after a restart (`env_zns.cc`, `SetNodesInfo`)

A file has a level: 0, or what the lifetime hint says, which may be negative.  `zrocks_write` brings
it into the range of the queues.  After a restart each piece is counted in its node under the level
of its file, and a node that is in use becomes the current node of that level's queue; here the level
is not brought into the range from below.

**`levels_run`**: when every hint is at least `WLTH_SHORT` and given before the file has pieces, a
restart gives every queue the node it was filling.  `levels_lost`: with a smaller hint the restart
stores outside of the queues.
-/

namespace Xztl

open Function List Except Option Table
open TailQueue (Queues)

/-! ### The levels of the pieces -/

section

variable {t : Table} {n : Name} {p : Ptr} {m : ZrocksMap} {l : Int}

theorem Table.map_allSets (t : Table) : t.allSets.map Prod.fst = t.live := by
  rw [Table.allSets, Table.live, map_flatMap]
  refine flatMap_congr fun x _ => ?_
  cases x.2 with
  | none => rfl
  | some p => exact map_fst_level _ _

theorem Table.mem_allSets : (m, l) ∈ t.allSets ↔
    ∃ n p, t.find n = some p ∧ m ∈ (t.objs p).map ∧ l = (t.objs p).level := by
  rw [Table.allSets, mem_flatMap]
  constructor
  · rintro ⟨⟨n, q⟩, hx, hm⟩
    cases q with
    | none => cases hm
    | some p =>
      obtain ⟨m', hm', e⟩ := mem_map.mp hm
      cases e
      exact ⟨n, p, (t.find_eq_some n p).mpr hx, hm', rfl⟩
  · rintro ⟨n, p, hn, hm, rfl⟩
    exact ⟨(n, some p), (t.find_eq_some n p).mp hn, mem_map_of_mem hm⟩

theorem Table.mem_live_of_find (hn : t.find n = some p) (hm : m ∈ (t.objs p).map) : m ∈ t.live := by
  rw [← map_allSets]
  exact mem_map.mpr ⟨(m, (t.objs p).level), mem_allSets.mpr ⟨n, p, hn, hm, rfl⟩, rfl⟩

end

/-! ### Runs -/

/-- Every unit of the write is stored. -/
def WriteIo.Stored (io : WriteIo) : Prop := ∀ k, ∃ j < maxCallbackErrCnt, io.fate k j = 0

/-- The condition: writes succeed, a hint is at least `WLTH_SHORT` and given before the file has
pieces, and no node is reset while it is a queue's current node.  Nothing is renamed, migrated or
restarted. -/
def EnvOp.Steady (s : Session) : EnvOp → Prop
  | .hint i wlth => wlthShort ≤ wlth.val ∧
      ∀ h, s.handles[i]? = some h → (s.w.env.tbl.objs h.znsFile).map = []
  | .append _ _ ios => ∀ io ∈ ios, io.Stored
  | .sync _ io => io.Stored
  | .close _ io => io.Stored
  | .mgmt => ∀ e, s.w.z.submitHead.head? = some e → ∀ q, s.w.z.qnode q ≠ some e.1
  | .rename _ _ => False
  | .migrate _ _ _ _ => False
  | .restart _ _ _ _ => False
  | _ => True

/-- The invariant of the runs.  Beside the files there may be pieces of files that were created
again. -/
structure LevelInv (g : GroupSize) (dev : Dev) (w : World) (d : DevState) : Prop where
  run : ∃ as, Runs devStep DevIdle (DevState.fresh g dev) as d
  z : d.s.z = w.z
  sub : w.env.tbl.live.Subperm d.s.live
  pos : ∀ m ∈ d.s.live, 0 < m.num.val
  tidy : w.env.tbl.Tidy
  /-- The pieces on a queue's node are of files of that queue's level. -/
  level : ∀ n p, w.env.tbl.find n = some p → ∀ m ∈ (w.env.tbl.objs p).map, ∀ q,
    w.z.qnode q = some m.nodeId.val → clampLevel (w.env.tbl.objs p).level = q
  nonneg : ∀ n p, w.env.tbl.find n = some p → 0 ≤ (w.env.tbl.objs p).level
  cache : ∀ p, ((w.env.tbl.objs p).cache.getD []).length ≤ znsMaxBuf

section

variable {g : GroupSize} {dev : Dev} {w w' : World} {d : DevState} {h : Handle} {n : Name} {p : Ptr}
  {t t' : Table} {f : ZnsFile}

section

variable (hi : LevelInv g dev w d)
include hi

theorem LevelInv.devInv : DevInv d ∧ d.s.z.nnodes = g.nnodes := by
  obtain ⟨as, hr⟩ := hi.run
  exact DevInv.run hr

theorem LevelInv.sound : Sound w.z d.s.live := hi.z ▸ hi.devInv.1.sound

/-- One more call. -/
theorem LevelInv.exists_step {a : ZOp} {s' : ZState} (hg : DevIdle d a)
    (e : zstep d.s a = some s') :
    ∃ d', d'.s = s' ∧ ∃ as, Runs devStep DevIdle (DevState.fresh g dev) as d' := by
  obtain ⟨as, hr⟩ := hi.run
  have hstep : devStep d a = some ⟨s', devPointers d s' a⟩ := by rw [devStep, e]; rfl
  exact ⟨_, rfl, _, hr.append (.one hg hstep)⟩

theorem LevelInv.touch (hname : f.name = (w.env.tbl.objs p).name)
    (hmap : f.map = (w.env.tbl.objs p).map)
    (hlevel : f.level = (w.env.tbl.objs p).level ∨ 0 ≤ f.level ∧ f.map = [])
    (hcache : (f.cache.getD []).length ≤ znsMaxBuf) :
    LevelInv g dev ⟨w.z, w.env.setFile p f⟩ d := by
  have hobj : ∀ q, (w.env.setFile p f).tbl.objs q = if q = p then f else w.env.tbl.objs q := fun q => by
    show (w.env.tbl.set p f).objs q = _
    rw [objs_set, update_apply]
  have hlive : (w.env.tbl.set p f).live = w.env.tbl.live := live_congr rfl fun m q _ => by
    rw [objs_set, update_apply]
    split
    · next e => rw [e, hmap]
    · rfl
  refine ⟨hi.run, hi.z, ?_, hi.pos, hi.tidy.set hname, fun m q hq x hx r hr => ?_, fun m q hq => ?_,
    fun q => ?_⟩
  · exact (show (w.env.setFile p f).tbl.live = _ from hlive) ▸ hi.sub
  · rw [hobj] at hx ⊢
    split at hx
    · next e =>
      subst e
      rw [if_pos rfl]
      rcases hlevel with hl | ⟨-, hnil⟩
      · rw [hl]
        exact hi.level m q hq x (hmap ▸ hx) r hr
      · rw [hnil] at hx
        cases hx
    · next e =>
      rw [if_neg e]
      exact hi.level m q hq x hx r hr
  · rw [hobj]
    split
    · next e =>
      subst e
      rcases hlevel with hl | ⟨h0, -⟩
      · rw [hl]
        exact hi.nonneg m q hq
      · exact h0
    · exact hi.nonneg m q hq
  · rw [hobj]
    split
    · exact hcache
    · exact hi.cache q

end

/-- The pieces of a file, or of an object that is in no entry, after a Sync. -/
theorem Table.Tidy.live_pushed_subperm {maps : List ZrocksMap} (ht : t.Tidy)
    (hf : f.map = (t.objs p).map ++ maps) : (t.set p f).live.Subperm (t.live ++ maps) := by
  by_cases hin : ∃ n, t.find n = some p
  · obtain ⟨n, hn⟩ := hin
    exact (ht.live_pushed hn hf).subperm
  · rw [live_set_other fun m hm => hin ⟨m, hm⟩]
    exact (sublist_append_left _ _).subperm

section

variable (hi : LevelInv g dev w d)
include hi

theorem LevelInv.sync {io : WriteIo} {st : Status} (hio : io.Stored)
    (hs : Xztl.sync w h io = .ok (w', st)) : ∃ d', LevelInv g dev w' d' := by
  obtain ⟨-, ⟨-, rfl, -⟩ | ⟨hne, -, maps, hw, he⟩⟩ := sync_cases hs
  · exact ⟨d, hi⟩
  obtain ⟨p, hp⟩ : ∃ p, p = h.znsFile := ⟨_, rfl⟩
  obtain ⟨bs, hbs⟩ : ∃ bs, bs = (w.env.tbl.objs p).cache.getD [] := ⟨_, rfl⟩
  rw [← hp, ← hbs] at hne hw
  have hlen : bs.length ≤ znsMaxBuf := hbs ▸ hi.cache p
  have hncmd := (WriteCall.ncmd_of_le (c := io.call bs (w.env.tbl.objs p).level)
    (length_pos_iff.mpr hne) hlen).2.1
  have hmoves : LevelMoves d.s.live (clampLevel (w.env.tbl.objs p).level) maps w.z w'.z :=
    hi.sound.write_moves hi.pos hncmd hw
  have hstep : zstep d.s (.write (io.call bs (w.env.tbl.objs p).level) io.ans)
      = some ⟨w'.z, d.s.live ++ maps⟩ := by
    rw [zstep, hi.z, hw]
  have hidle : DevIdle d (.write (io.call bs (w.env.tbl.objs p).level) io.ans) :=
    ⟨fun k _ => hio k, trivial⟩
  obtain ⟨d', hd', hrun⟩ := hi.exists_step hidle hstep
  obtain ⟨c, hsame⟩ := syncFlush_push he
  obtain ⟨f, hf⟩ : ∃ f : ZnsFile, f = { w.env.tbl.objs p with
    map := (w.env.tbl.objs p).map ++ maps, currentNid := c, cache := some [] } := ⟨_, rfl⟩
  rw [← hp, ← hf] at hsame
  have hobj : ∀ q, ∃ i, w'.env.tbl.objs q
      = { if q = p then f else w.env.tbl.objs q with startIndex := i } := fun q => by
    obtain ⟨i, e⟩ := hsame.objs q
    rw [objs_set, update_apply] at e
    exact ⟨i, e⟩
  -- the queues keep their nodes, as far as the old pieces can see
  have hold : ∀ m ∈ w.env.tbl.live, ∀ q, w'.z.qnode q = some m.nodeId.val →
      w.z.qnode q = some m.nodeId.val := fun m hm q hq => by
    by_cases e : q = clampLevel (w.env.tbl.objs p).level
    · subst e
      exact (hmoves.self _ hq).resolve_right fun hno => hno m (hi.sub.subset hm) rfl
    · exact (hmoves.other q e).symm.trans hq
  refine ⟨d', hrun, by rw [hd'], ?_, ?_, (hi.tidy.set (by rw [hf])).same hsame, ?_, ?_, fun q => ?_⟩
  · rw [hd', hsame.live]
    exact (hi.tidy.live_pushed_subperm (by rw [hf])).trans
      ((subperm_append_right maps).mpr hi.sub)
  · rw [hd']
    intro m hm
    rcases mem_append.mp hm with hm | hm
    · exact hi.pos m hm
    · exact hmoves.pos m hm
  · intro n q hn m hm r hr
    rw [hsame.find] at hn
    obtain ⟨i, e⟩ := hobj q
    rw [e] at hm ⊢
    by_cases eq : q = p
    · subst eq
      rw [if_pos rfl, hf] at hm ⊢
      rcases mem_append.mp hm with hm | hm
      · exact hi.level n q hn m hm r (hold m (mem_live_of_find hn hm) r hr)
      · exact (hmoves.node m hm r hr).symm
    · rw [if_neg eq] at hm ⊢
      exact hi.level n q hn m hm r (hold m (mem_live_of_find hn hm) r hr)
  · intro n q hn
    rw [hsame.find] at hn
    obtain ⟨i, e⟩ := hobj q
    rw [e]
    by_cases eq : q = p
    · subst eq
      rw [if_pos rfl, hf]
      exact hi.nonneg n q hn
    · rw [if_neg eq]
      exact hi.nonneg n q hn
  · obtain ⟨i, e⟩ := hobj q
    rw [e]
    by_cases eq : q = p
    · rw [if_pos eq, hf]
      exact Nat.zero_le _
    · rw [if_neg eq]
      exact hi.cache q

theorem LevelInv.writeOp {a : WriteOp} {ios : List WriteIo} (ha : a.Within ios)
    (hios : ∀ io ∈ ios, io.Stored) (hs : Xztl.writeOp h w a = some w') :
    ∃ d', LevelInv g dev w' d' := by
  obtain ⟨io, st, rfl, he⟩ | ⟨c, size, rfl, hcache⟩ := writeOp_cases hs
  · exact hi.sync (hios io ha) he
  · refine ⟨d, hi.touch rfl rfl (.inl rfl) ?_⟩
    rcases hcache with rfl | hle
    · exact hi.cache _
    · exact hle

theorem LevelInv.append {data : List UInt8} {ios : List WriteIo} {st : Status}
    (hios : ∀ io ∈ ios, io.Stored) (hs : Xztl.append w h data ios = .ok (w', st)) :
    ∃ d', LevelInv g dev w' d' := by
  obtain ⟨as, hrun⟩ := append_ops hs
  refine hrun.invariant (I := fun w' => ∃ d', LevelInv g dev w' d') ?_ ⟨d, hi⟩
  rintro w1 a w2 ⟨d1, h1⟩ ha hs
  exact h1.writeOp ha hios hs

theorem LevelInv.close {io : WriteIo} (hio : io.Stored) (hs : Xztl.close w h io = .ok w') :
    ∃ d', LevelInv g dev w' d' := by
  obtain ⟨⟨w1, st⟩, hsync, hs⟩ := bind_eq_ok.mp hs
  cases hs
  obtain ⟨d', h'⟩ := hi.sync hio hsync
  exact ⟨d', h'.touch rfl rfl (.inl rfl) (Nat.zero_le _)⟩

theorem LevelInv.hint {wlth : Int} {e' : Env} (hw : wlthShort ≤ wlth)
    (hmap : (w.env.tbl.objs h.znsFile).map = []) (hs : setWriteLifeTimeHint w.env h wlth = .ok e') :
    LevelInv g dev ⟨w.z, e'⟩ d := by
  obtain ⟨-, rfl⟩ := setWriteLifeTimeHint_eq_ok.mp hs
  exact hi.touch rfl rfl (.inr ⟨Int.sub_nonneg_of_le hw, hmap⟩) (hi.cache _)

/-- Tables with the objects of before and fewer entries, and perhaps a new file. -/
theorem LevelInv.table {e' : Env} (ht : e'.tbl.Tidy) (hsub : e'.tbl.live.Subperm w.env.tbl.live)
    (hfind : ∀ n p, e'.tbl.find n = some p →
      w.env.tbl.find n = some p ∧ (e'.tbl.objs p).map = (w.env.tbl.objs p).map ∧
          (e'.tbl.objs p).level = (w.env.tbl.objs p).level ∨
        (e'.tbl.objs p).map = [] ∧ 0 ≤ (e'.tbl.objs p).level)
    (hcache : ∀ p, ((e'.tbl.objs p).cache.getD []).length ≤ znsMaxBuf) :
    LevelInv g dev ⟨w.z, e'⟩ d := by
  refine ⟨hi.run, hi.z, hsub.trans hi.sub, hi.pos, ht, fun n p hn m hm q hq => ?_, fun n p hn => ?_,
    hcache⟩
  · rcases hfind n p hn with ⟨hn', hmap, hl⟩ | ⟨hnil, -⟩
    · rw [hl]
      exact hi.level n p hn' m (hmap ▸ hm) q hq
    · rw [show (World.mk w.z e').env.tbl = e'.tbl from rfl, hnil] at hm
      cases hm
  · rcases hfind n p hn with ⟨hn', -, hl⟩ | ⟨-, h0⟩
    · rw [hl]
      exact hi.nonneg n p hn'
    · exact h0

theorem LevelInv.create {e' : Env} (hs : newWritableFile w.env n = .ok (e', h)) :
    LevelInv g dev ⟨w.z, e'⟩ d := by
  have hnew := newWritableFile_new hs
  refine hi.table (newWritableFile_tidy hi.tidy hs) ?_ (fun m q hm => ?_) fun q => ?_
  · refine (newWritableFile_live hi.tidy hs).subperm.trans ?_
    cases hfind : w.env.tbl.find n with
    | none => exact (live_erase_none hfind).symm.subperm
    | some p => exact (sublist_append_right _ _).subperm.trans (live_perm hfind).symm.subperm
  · rw [hnew.find] at hm
    rw [hnew.objs]
    by_cases em : n = m
    · rw [if_pos em] at hm
      cases hm
      rw [update_self]
      exact Or.inr ⟨rfl, le_refl _⟩
    · rw [if_neg em] at hm
      rw [update_of_ne (Nat.ne_of_lt (hi.tidy.lt hm))]
      exact Or.inl ⟨hm, rfl, rfl⟩
  · rw [hnew.objs]
    by_cases hq : q = w.env.tbl.next
    · rw [hq, update_self]
      exact Nat.zero_le _
    · rw [update_of_ne hq]
      exact hi.cache q

end

/-- The trims of a list of pieces. -/
theorem exists_trims {rest : List ZrocksMap} {z' : Ztl} (ms : List ZrocksMap) :
    ∀ {d : DevState}, (∃ as, Runs devStep DevIdle (DevState.fresh g dev) as d) →
      d.s.live.Perm (ms ++ rest) → trimAll ms d.s.z = .ok z' →
      ∃ d', (∃ as, Runs devStep DevIdle (DevState.fresh g dev) as d') ∧ d'.s.z = z' ∧
        d'.s.live.Perm rest ∧ z'.qnode = d.s.z.qnode := by
  induction ms with
  | nil =>
    intro d hr hp e
    cases e
    exact ⟨d, hr, rfl, hp, rfl⟩
  | cons m ms ih =>
    rintro d ⟨as, hr⟩ hp e
    obtain ⟨⟨z1, ret⟩, e1, e2⟩ := bind_eq_ok.mp e
    have hm : m ∈ d.s.live := hp.mem_iff.mpr mem_cons_self
    have hstep : devStep d (.trim m) = some ⟨⟨z1, d.s.live.erase m⟩, d.wp⟩ := by
      rw [devStep, zstep_trim hm e1]
      rfl
    have hidle : DevIdle d (.trim m) := ⟨trivial, trivial⟩
    have hp1 : (d.s.live.erase m).Perm (ms ++ rest) :=
      (perm_cons_erase hm).symm.trans hp |>.cons_inv
    obtain ⟨d', hr', hz', hl', hq'⟩ := ih ⟨_, hr.append (.one hidle hstep)⟩ hp1 e2
    refine ⟨d', hr', hz', hl', hq'.trans ?_⟩
    rcases zrocksTrim_cases rfl e1 with ⟨-, hz⟩ | ⟨-, hz⟩ <;> rw [show z1 = _ from hz] <;> rfl

theorem LevelInv.delete (hi : LevelInv g dev w d) (hs : deleteFile w n = .ok w') :
    ∃ d', LevelInv g dev w' d' := by
  obtain ⟨-, rfl⟩ | ⟨p, z, e, rfl, hfind, hz, hsame, -⟩ := deleteFile_cases hs
  · exact ⟨d, hi⟩
  · -- what stays behind of all pieces: those of the other files, and perhaps more
    obtain ⟨l, hl, hsub⟩ := hi.sub
    obtain ⟨more, hmore⟩ := hsub.exists_perm_append
    have hperm : d.s.live.Perm
        ((w.env.tbl.objs p).map ++ ((w.env.tbl.erase n).live ++ more)) := by
      rw [← append_assoc]
      exact hmore.trans ((hl.trans (live_perm hfind)).append_right more)
    rw [← hi.z] at hz
    obtain ⟨d', hrun, hz', hlive, hq⟩ := exists_trims _ hi.run hperm hz
    have htbl : LevelInv g dev ⟨w.z, e⟩ d := by
      refine hi.table ((hi.tidy.delete hfind).same hsame) ?_ (fun m q hm => .inl ?_) fun q => ?_
      · rw [hsame.live]
        exact (sublist_append_right _ _).subperm.trans (live_perm hfind).symm.subperm
      · rw [hsame.find] at hm
        have hm' : (w.env.tbl.erase n).find m = some q := hm
        rw [find_erase] at hm'
        split at hm'
        · cases hm'
        · obtain ⟨i, ei⟩ := hsame.objs q
          rw [ei]
          exact ⟨hm', rfl, rfl⟩
      · obtain ⟨i, ei⟩ := hsame.objs q
        rw [ei]
        exact hi.cache q
    refine ⟨d', hrun, hz', ?_, fun m hm => ?_, htbl.tidy, fun m q hm x hx r hr => ?_, htbl.nonneg,
      htbl.cache⟩
    · refine List.Subperm.trans ?_ hlive.symm.subperm
      rw [hsame.live]
      exact (sublist_append_left _ _).subperm
    · exact hi.pos m (hperm.mem_iff.mpr (mem_append_right _ (hlive.mem_iff.mp hm)))
    · refine htbl.level m q hm x hx r ?_
      rw [← hi.z, ← hq]
      exact hr

theorem LevelInv.mgmt (hi : LevelInv g dev w d)
    (hg : ∀ e, w.z.submitHead.head? = some e → ∀ q, w.z.qnode q ≠ some e.1) :
    ∃ d', LevelInv g dev ⟨ztlMgmtThdProcess w.z fun _ => zonesOk, w.env⟩ d' := by
  have hidle : DevIdle d .mgmt := ⟨trivial, by rw [ResetIdle, hi.z]; exact hg⟩
  obtain ⟨d', hd', hrun⟩ := hi.exists_step hidle rfl
  have hq : (ztlMgmtThdProcess w.z fun _ => zonesOk).qnode = w.z.qnode := by
    cases hs : w.z.submitHead with
    | nil => rw [ztlMgmtThdProcess, hs]
    | cons x rest =>
      obtain ⟨n, op⟩ := x
      obtain ⟨rfl, -⟩ := hi.sound.acc.queued (n, op) (by rw [hs]; exact mem_cons_self)
      exact (ztlMgmtThdProcess_ok hs).qnode
  refine ⟨d', hrun, by rw [hd', hi.z], by rw [hd']; exact hi.sub, by rw [hd']; exact hi.pos, hi.tidy,
    fun n p hn m hm q hr => ?_, hi.nonneg, hi.cache⟩
  refine hi.level n p hn m hm q ?_
  rw [← hq]
  exact hr

theorem LevelInv.step {s s' : Session} {a : EnvOp} (hi : LevelInv g dev s.w d) (hg : a.Steady s)
    (hs : s.step a = some s') : ∃ d', LevelInv g dev s'.w d' := by
  cases a with
  | create n =>
    obtain ⟨⟨e, h⟩, he, ⟨⟩⟩ := toOption_bind_eq_some.mp hs
    exact ⟨d, hi.create he⟩
  | hint i wlth =>
    obtain ⟨h, hh, hs⟩ := bind_eq_some_iff.mp hs
    obtain ⟨e, he, ⟨⟩⟩ := toOption_bind_eq_some.mp hs
    exact ⟨d, hi.hint hg.1 (hg.2 h hh) he⟩
  | append i data ios =>
    obtain ⟨h, hh, hs⟩ := bind_eq_some_iff.mp hs
    obtain ⟨⟨w, st⟩, he, ⟨⟩⟩ := toOption_bind_eq_some.mp hs
    exact hi.append hg he
  | sync i io =>
    obtain ⟨h, hh, hs⟩ := bind_eq_some_iff.mp hs
    obtain ⟨⟨w, st⟩, he, ⟨⟩⟩ := toOption_bind_eq_some.mp hs
    exact hi.sync hg he
  | close i io =>
    obtain ⟨h, hh, hs⟩ := bind_eq_some_iff.mp hs
    obtain ⟨w, he, ⟨⟩⟩ := toOption_bind_eq_some.mp hs
    exact hi.close hg he
  | delete n =>
    obtain ⟨w, he, ⟨⟩⟩ := toOption_bind_eq_some.mp hs
    exact hi.delete he
  | mgmt =>
    cases hs
    exact hi.mgmt hg
  | rename => exact hg.elim
  | migrate => exact hg.elim
  | restart => exact hg.elim

theorem LevelInv.fresh (g : GroupSize) (dev : Dev) {e : Env} (ht : e.tbl = .empty) :
    LevelInv g dev ⟨Ztl.fresh g dev, e⟩ (DevState.fresh g dev) := by
  refine ⟨⟨[], .nil _⟩, rfl, ?_, fun _ h => absurd h not_mem_nil, ht ▸ Table.Tidy.empty, ?_, ?_,
    ?_⟩
  · rw [ht]
    exact nil_subperm
  · intro n p hn
    rw [show (World.mk (Ztl.fresh g dev) e).env.tbl = .empty from ht, find_empty] at hn
    cases hn
  · intro n p hn
    rw [show (World.mk (Ztl.fresh g dev) e).env.tbl = .empty from ht, find_empty] at hn
    cases hn
  · intro p
    rw [ht]
    exact Nat.zero_le _

/-! ### The queues after a restart -/

/-- The queues as a restart should leave them. -/
structure QueuesRestored (z z' : Ztl) (live : List ZrocksMap) : Prop where
  index : ∀ q n, z'.qnode q = some n → q < zrocksLevelNum
  /-- A queue whose node was partly filled and has a live piece gets it back. -/
  same : ∀ q n, z.qnode q = some n → (z.vnodes n).used ≠ 0 →
    (z.vnodes n).used ≠ ztlProOptSecNumInnode → (∃ m ∈ live, m.nodeId.val = n) → z'.qnode q = some n
  /-- Every node in use with a live piece has a queue. -/
  owned : ∀ n, (z'.vnodes n).status = .used → (∃ m ∈ live, m.nodeId.val = n) →
    ∃ q, z'.qnode q = some n

theorem setLevelOf_of_nonneg {l : Int} (h : 0 ≤ l) : setLevelOf l = (clampLevel l : Int) := by
  have h5 : ((zrocksLevelNum : Nat) : Int) = 5 := rfl
  rw [setLevelOf, clampLevel]
  simp only [if_neg (not_lt.mpr h), ge_iff_le, h5]
  by_cases hl : 5 ≤ l
  · rw [if_pos hl, if_pos hl]
    rfl
  · rw [if_neg hl, if_neg hl]
    exact (Int.toNat_of_nonneg h).symm

theorem setLevelOf_lt (l : Int) : setLevelOf l < zrocksLevelNum := by
  have h5 : ((zrocksLevelNum : Nat) : Int) = 5 := rfl
  rw [setLevelOf, h5]
  by_cases hl : 5 ≤ l
  · rw [if_pos hl]
    decide
  · rw [if_neg hl]
    omega

/-- A partly filled node is some queue's. -/
theorem Alloc.exists_queue {z : Ztl} {parts : NodeList → List Nat} {k : Nat} (ha : Alloc z parts)
    (ho : Owned z) (hn : k < z.nnodes) (h₀ : (z.vnodes k).used ≠ 0)
    (h1 : (z.vnodes k).used ≠ ztlProOptSecNumInnode) : ∃ q, z.qnode q = some k := by
  have hb := ha.balance k hn
  obtain ⟨l, hl⟩ := (ha.mem k).mpr hn
  cases l with
  | freeHead => exact absurd (ha.free k hl).2.1 h₀
  | usedHead => exact (ha.used k hl).elim (ho k) (ha.owned k hl)
  | fullHead =>
    have := (ha.full k hl).2
    omega

theorem listOf_status_used {u : Nat} :
    (listOf u).status = .used ↔ u ≠ 0 ∧ u ≠ ztlProOptSecNumInnode := by
  rw [listOf]
  by_cases h1 : u = ztlProOptSecNumInnode
  · simp [h1, NodeList.status]
  · by_cases h2 : u = 0
    · simp [h2, NodeList.status, ztlProOptSecNumInnode_eq]
    · simp [h1, h2, NodeList.status]

/-- **The queues after a restart**, from the invariant. -/
theorem LevelInv.restart {entries : Nat} (hb : Buildable entries)
    (hi : LevelInv ⟨nodeNum entries, hb.fits⟩ dev w d) {rep : ZndReport}
    (hrep : TrueReport (nodeNum entries) d.wp rep) :
    ∃ z1 z2, ztlProGrpNodeInit entries rep w.z.dev = .ok z1 ∧
      setNodesInfo w.env.tbl z1 = .ok z2 ∧ QueuesRestored w.z z2 w.env.tbl.live := by
  obtain ⟨hinv, hnn⟩ := hi.devInv
  have hnn : d.s.z.nnodes = nodeNum entries := hnn
  have howned : Owned w.z := hi.z ▸ hinv.owned
  obtain ⟨parts, ha⟩ := hi.sound.alloc
  have hsets : (w.env.tbl.allSets.map Prod.fst).Subperm d.s.live := by
    rw [map_allSets]
    exact hi.sub
  obtain ⟨z1, z2, e1, h1, e2, h2⟩ := hinv.exists_restart hb hnn rep hsets fun x hx => by
    obtain ⟨n, p, hn, -, hl⟩ := mem_allSets.mp (show (x.1, x.2) ∈ _ from hx)
    rw [hl]
    exact hi.nonneg n p hn
  rw [hi.z] at e1
  refine ⟨z1, z2, e1, e2, ?_⟩
  have hq1 : z1.qnode = fun _ => none := h1.frame.1
  -- a node in use after the restart was some queue's node before
  have hused : ∀ n < w.z.nnodes, (z1.vnodes n).status = .used ↔
      (w.z.vnodes n).used ≠ 0 ∧ (w.z.vnodes n).used ≠ ztlProOptSecNumInnode := fun n hn => by
    have hn' : n < nodeNum entries := by rw [← hnn, hi.z]; exact hn
    have hbal := ha.balance n hn
    obtain ⟨hfile, -⟩ := usedOf_eq (show (w.z.vnodes n).used ≤ ztlProOptSecNumInnode by omega)
      fun i hlt => by
        have := hinv.tracks n (by rw [hi.z]; exact hn) i hlt
        rw [hi.z] at this
        exact this ▸ hrep n hn' i hlt
    rw [(h1.built n hn').status, hfile, listOf_status_used]
  have hlt : ∀ m ∈ w.env.tbl.live, m.nodeId.val < w.z.nnodes := fun m hm =>
    hi.sound.lt m (hi.sub.subset hm)
  -- a call for a piece on a queue's node is for that queue
  have hcall : ∀ x ∈ w.env.tbl.allSets, x.1 ∈ w.env.tbl.live ∧ ∀ q,
      w.z.qnode q = some x.1.nodeId.val → setLevelOf x.2 = q := fun x hx => by
    obtain ⟨n, p, hn, hm, hl⟩ := mem_allSets.mp (show (x.1, x.2) ∈ _ from hx)
    refine ⟨mem_live_of_find hn hm, fun q hq => ?_⟩
    rw [hl, setLevelOf_of_nonneg (hi.nonneg n p hn), hi.level n p hn x.1 hm q hq]
  have hsame : ∀ q n, w.z.qnode q = some n → (w.z.vnodes n).used ≠ 0 →
      (w.z.vnodes n).used ≠ ztlProOptSecNumInnode →
      (∃ m ∈ w.env.tbl.live, m.nodeId.val = n) → z2.qnode q = some n := by
    rintro q _ hq h0 hfull ⟨m, hm, rfl⟩
    rw [← map_allSets] at hm
    obtain ⟨x, hx, rfl⟩ := mem_map.mp hm
    obtain ⟨hxl, hxq⟩ := hcall x hx
    obtain ⟨n', hn'⟩ := h2.some_ q (.inr ⟨x, hx, (hused _ (hlt _ hxl)).mpr ⟨h0, hfull⟩, hxq q hq⟩)
    rcases h2.from_ q n' hn' with hold | ⟨y, hy, rfl, hst, hyl⟩
    · rw [hq1] at hold
      cases hold
    · obtain ⟨hyl', hyq⟩ := hcall y hy
      obtain ⟨hy0, hyf⟩ := (hused _ (hlt _ hyl')).mp hst
      obtain ⟨q', hq'⟩ := ha.exists_queue howned (hlt _ hyl') hy0 hyf
      obtain rfl : q' = q := by
        have := (hyq q' hq').symm.trans hyl
        omega
      rw [hn', Option.some.inj (hq'.symm.trans hq)]
  refine ⟨fun q n hq => ?_, hsame, fun n hst hlive => ?_⟩
  · rcases h2.from_ q n hq with hold | ⟨y, -, -, -, hyl⟩
    · rw [hq1] at hold
      cases hold
    · have := setLevelOf_lt y.2
      omega
  · obtain ⟨m, hm, rfl⟩ := hlive
    rw [h2.status] at hst
    obtain ⟨h0, hf⟩ := (hused _ (hlt m hm)).mp hst
    obtain ⟨q, hq⟩ := ha.exists_queue howned (hlt m hm) h0 hf
    exact ⟨q, hsame q _ hq h0 hf ⟨m, hm, rfl⟩⟩

end

/-! ### A file of one byte with a hint -/

/-- The file `a` is created, gets a byte and the hint `wlth`, and is synced. -/
structure HintedByte (dev : Dev) (wlth : Fin 6) (e₀ : Env) (io : WriteIo) (s : Session)
    (m : ZrocksMap) : Prop where
  empty : e₀.tbl = .empty
  stored : io.Stored
  run : ∀ G : Session → EnvOp → Prop,
    (∀ s, G s (.create nameA) ∧ G s (.append 0 [0] []) ∧ G s (.sync 0 io)) →
    (∀ s : Session, (∀ h, s.handles[0]? = some h → (s.w.env.tbl.objs h.znsFile).map = []) →
      G s (.hint 0 wlth)) →
    Runs Session.step G ⟨⟨Ztl.fresh oneNode dev, e₀⟩, []⟩
      [.create nameA, .append 0 [0] [], .hint 0 wlth, .sync 0 io] s
  write : zrocksWrite (Ztl.fresh oneNode dev) (io.call [0] (wlth.val - wlthShort)) io.ans
    = .ok (s.w.z, xztlOk, [m])
  num : m.num.val = 1
  room : s.w.z.room (clampLevel (wlth.val - wlthShort)) + 1 = ztlProOptSecNumInnode
  sets : s.w.env.tbl.allSets = [(m, wlth.val - wlthShort)]

theorem exists_hintedByte (dev : Dev) (wlth : Fin 6) : ∃ e0 io s m, HintedByte dev wlth e0 io s m := by
  obtain ⟨l, hl⟩ : ∃ l : Int, l = wlth.val - wlthShort := ⟨_, rfl⟩
  obtain ⟨e0, e2, io, z, m, ht, hfate, hsync, hw, hnum, hroom, hfiles, hmap, hlev, -⟩ :=
    exists_byteSync dev l
  have hset : setWriteLifeTimeHint (e0.setTbl (.single newByte)) ⟨nameA, 0⟩ wlth.val
      = .ok (e0.setTbl (.single { newByte with level := l })) := by
    rw [hl, setWriteLifeTimeHint]
    exact congrArg (fun t => Except.ok (e0.setTbl t)) (set_single newByte rfl)
  have hhint : Session.step ⟨⟨Ztl.fresh oneNode dev, e0.setTbl (.single newByte)⟩, [⟨nameA, 0⟩]⟩
      (.hint 0 wlth) = some ⟨⟨Ztl.fresh oneNode dev,
        e0.setTbl (.single { newByte with level := l })⟩, [⟨nameA, 0⟩]⟩ := by
    rw [Session.step]
    simp only [List.getElem?_cons_zero, bind, Option.bind, hset]
    rfl
  refine ⟨e0, io, ⟨⟨z, e2⟩, [⟨nameA, 0⟩]⟩, m, ht, fun k => ⟨0, by decide, by rw [hfate]⟩,
    fun G hG hH => ?_, hl ▸ hw, hnum, hl ▸ hroom, ?_⟩
  · refine .cons (hG _).1 (step_create_nameA ht) (.cons (hG _).2.1 step_append_byte
      (.cons (hH _ fun h hh => ?_) hhint (.one (hG _).2.2 (step_sync hsync))))
    cases hh
    rfl
  · rw [← hl]
    show e2.tbl.files.toList.flatMap _ = _
    have hlist : e2.tbl.files.toList = [(nameA, some 0)] := by
      rw [hfiles]
      rfl
    rw [hlist]
    show (e2.tbl.objs 0).map.map _ ++ [] = _
    rw [hmap, hlev]
    rfl

/-- **The levels after a restart.**  After every run in which writes succeed, hints are at least
`WLTH_SHORT` and given before the file has pieces, and no queue's current node is reset, counting the
pieces gives every queue the node it was filling. -/
theorem levels_run {entries : Nat} (hb : Buildable entries) (dev : Dev) {e₀ : Env}
    (ht : e₀.tbl = .empty) {as : List EnvOp} {s : Session}
    (h : Runs Session.step (fun s a => a.Steady s)
      ⟨⟨Ztl.fresh ⟨nodeNum entries, hb.fits⟩ dev, e₀⟩, []⟩ as s) :
    ∃ calls d, Runs devStep DevIdle (DevState.fresh ⟨nodeNum entries, hb.fits⟩ dev) calls d ∧
      d.s.z = s.w.z ∧ ∀ rep, TrueReport (nodeNum entries) d.wp rep →
        ∃ z₁ z₂, ztlProGrpNodeInit entries rep s.w.z.dev = .ok z₁ ∧
          setNodesInfo s.w.env.tbl z₁ = .ok z₂ ∧ QueuesRestored s.w.z z₂ s.w.env.tbl.live := by
  obtain ⟨d, hi⟩ : ∃ d, LevelInv ⟨nodeNum entries, hb.fits⟩ dev s.w d :=
    h.invariant (I := fun s => ∃ d, LevelInv ⟨nodeNum entries, hb.fits⟩ dev s.w d)
      (fun _ _ _ ⟨_, hi⟩ hg hs => hi.step hg hs) ⟨_, .fresh _ dev ht⟩
  obtain ⟨calls, hr⟩ := hi.run
  exact ⟨calls, d, hr, hi.z, fun rep hrep => hi.restart hb hrep⟩

/-- A file of one byte with the hint `WLTH_MEDIUM`. -/
theorem levels_run_medium : ∃ e₀ as s, e₀.tbl = .empty ∧
    Runs Session.step (fun s a => a.Steady s) ⟨⟨Ztl.fresh oneNode .blank, e₀⟩, []⟩ as s ∧
    s.w.env.tbl.live ≠ [] ∧
    ∃ calls d, Runs devStep DevIdle (DevState.fresh oneNode .blank) calls d ∧
      d.s.z = s.w.z ∧ ∀ rep, TrueReport 1 d.wp rep →
        ∃ z₁ z₂, ztlProGrpNodeInit 67 rep s.w.z.dev = .ok z₁ ∧
          setNodesInfo s.w.env.tbl z₁ = .ok z₂ ∧ QueuesRestored s.w.z z₂ s.w.env.tbl.live := by
  obtain ⟨e₀, io, s, m, hm⟩ := exists_hintedByte .blank 3
  have hb : Buildable 67 := ⟨by decide, by decide, by decide⟩
  have hrun := hm.run (fun s a => a.Steady s)
    (fun s => ⟨trivial, fun _ h => absurd h not_mem_nil, hm.stored⟩)
    fun s hs => ⟨show (2 : Int) ≤ 3 by decide, hs⟩
  refine ⟨e₀, _, s, hm.empty, hrun, ?_, levels_run hb _ hm.empty hrun⟩
  rw [← map_allSets, hm.sets]
  exact cons_ne_nil _ _

/-- **A store outside of the queues.**  The file has the hint `WLTH_NONE`, that is level −1: its byte
is written on level 0, and the restart stores its node at index −1. -/
theorem levels_lost : ∃ e₀ as s calls d rep z₁, e₀.tbl = .empty ∧
    Runs Session.step (fun _ _ => True) ⟨⟨Ztl.fresh oneNode .blank, e₀⟩, []⟩ as s ∧
    Runs devStep DevIdle (DevState.fresh oneNode .blank) calls d ∧ d.s.z = s.w.z ∧
    TrueReport 1 d.wp rep ∧ ztlProGrpNodeInit 67 rep s.w.z.dev = .ok z₁ ∧
    setNodesInfo s.w.env.tbl z₁ = .error .outOfBounds := by
  obtain ⟨dev, hdev⟩ : ∃ dev : Dev, dev = .blank := ⟨_, rfl⟩
  rw [← hdev]
  obtain ⟨e₀, io, s, m, hm⟩ := exists_hintedByte dev 1
  have hl : ((1 : Fin 6).val : Int) - wlthShort = -1 := by decide
  have hw := hm.write
  have hroom := hm.room
  rw [hl] at hw hroom
  -- the same call, with the device's pointers beside it
  have hstep : zstep (ZState.fresh oneNode dev) (.write (io.call [0] (-1)) io.ans)
      = some ⟨s.w.z, [m]⟩ := by
    rw [zstep, show (ZState.fresh oneNode dev).z = Ztl.fresh oneNode dev from rfl, hw]
    rfl
  have hidle : ResetIdle (ZState.fresh oneNode dev) (.write (io.call [0] (-1)) io.ans) := trivial
  obtain ⟨d, hd⟩ : ∃ d, d = (⟨⟨s.w.z, [m]⟩, devPointers (DevState.fresh oneNode dev) ⟨s.w.z, [m]⟩
    (.write (io.call [0] (-1)) io.ans)⟩ : DevState) := ⟨_, rfl⟩
  have hrun : Runs devStep DevIdle (DevState.fresh oneNode dev)
      [.write (io.call [0] (-1)) io.ans] d :=
    Runs.one ⟨fun k _ => hm.stored k, hidle⟩ (by
      rw [devStep, show (DevState.fresh oneNode dev).s = ZState.fresh oneNode dev from rfl, hstep, hd]
      rfl)
  obtain ⟨hinv, hnn⟩ := DevInv.run hrun
  have hz : d.s.z = s.w.z := by rw [hd]
  have hrep : TrueReport 1 d.wp (reportOf d.wp) := by
    have := hinv.toDevLoose.trueReport
    rwa [hnn] at this
  have hb : Buildable 67 := ⟨by decide, by decide, by decide⟩
  obtain ⟨z₁, e₁, h₁⟩ := nodeInit_spec hb (reportOf d.wp) s.w.z.dev
  refine ⟨e₀, _, s, _, d, reportOf d.wp, z₁, hm.empty,
    hm.run _ (fun _ => ⟨trivial, trivial, trivial⟩) fun _ _ => trivial, hrun, hz, hrep, e₁, ?_⟩
  -- the only node has one unit, so that it is in use
  obtain ⟨parts, ha⟩ := hinv.sound.alloc
  rw [hz] at ha hnn
  have hused : (s.w.z.vnodes 0).used = 1 := by
    rw [show clampLevel (-1) = 0 by decide, Ztl.room] at hroom
    split at hroom
    · exact absurd hroom (by decide)
    · next n hq =>
      have hn := ha.lt (ha.qnode_mem hq)
      rw [hnn] at hn
      obtain rfl : n = 0 := Nat.lt_one_iff.mp hn
      have hbal := ha.balance 0 (by rw [hnn]; decide)
      omega
  have hnode : m.nodeId.val = 0 := by
    have := hinv.sound.lt m (by rw [hd]; exact mem_singleton_self m)
    rw [hz, hnn] at this
    exact Nat.lt_one_iff.mp this
  have hst : (z₁.vnodes 0).status = .used := by
    rw [(h₁.built 0 (by decide)).status]
    obtain ⟨hfile, -⟩ := usedOf_eq (show (s.w.z.vnodes 0).used ≤ ztlProOptSecNumInnode by
      rw [hused]; decide) fun i hlt => by
        have ht := hinv.tracks 0 (by rw [hz, hnn]; decide) i hlt
        rw [hz] at ht
        exact ht ▸ hrep 0 (by decide) i hlt
    rw [hfile, hused]
    decide
  rw [setNodesInfo, hm.sets, hl]
  have hset : ztlIoNodeset z₁ m.nodeId.val (-1) m.num.val = .error .outOfBounds := by
    rw [hnode, ztlIoNodeset, h₁.nnodes, if_neg (by decide)]
    dsimp only
    rw [if_pos hst]
    exact if_pos (by decide)
  rw [nodeSets, hset]
  rfl

end Xztl
