import Xztl.Env.GcBytes

/-!
# Env — valid units in garbage collection

`MigrateNodeFile` adds the pieces it writes to the counts of their nodes, and takes off all pieces
the file had on the node.  The pieces that could not be moved are taken off as well, although they
stay in the map.

**`migrate_units_iff`** says when the counts still follow the map: the file is open for writing, so
that nothing happens, or every piece of it on the node was moved, pieces without units apart.
-/

namespace Xztl

open List

section

variable {z z' : Ztl} {live live' : List ZrocksMap}

/-! ### Trims -/

/-- The counts see only the units of the live pieces. -/
theorem Sound.congr (h : Sound z live) (hu : ∀ n, unitsOn live n = unitsOn live' n)
    (hlt : ∀ m ∈ live', m.nodeId.val < z.nnodes) : Sound z live' := by
  obtain ⟨ha, hacc, -⟩ := h
  exact ⟨ha, (funext hu : unitsOn live = unitsOn live') ▸ hacc, hlt⟩

theorem Sound.perm (h : Sound z live) (hp : live.Perm live') : Sound z live' :=
  h.congr (unitsOn_perm hp) fun m hm => h.lt m (hp.mem_iff.mpr hm)

/-- Trimming some of the live pieces leaves the others. -/
theorem Sound.trimAll (ms : List ZrocksMap) : ∀ {z : Ztl} {live : List ZrocksMap}, Sound z live →
    live.Perm (ms ++ live') → Xztl.trimAll ms z = .ok z' →
    z'.nnodes = z.nnodes ∧ Sound z' live' := by
  induction ms with
  | nil =>
    intro z live h hp e
    cases e
    exact ⟨rfl, h.perm hp⟩
  | cons m ms ih =>
    intro z live h hp e
    rw [Xztl.trimAll] at e
    obtain ⟨⟨z1, ret⟩, e1, e⟩ := Except.bind_eq_ok.mp e
    have hm : m ∈ live := hp.mem_iff.mpr mem_cons_self
    have hp' := hp.erase m
    rw [cons_append, erase_cons_head] at hp'
    obtain ⟨hn, hs⟩ := ih (h.trim hm e1) hp' e
    exact ⟨hn.trans (zrocksTrim_nnodes e1), hs⟩

/-! ### The copying -/

theorem unitsOn_onNode (nid : Nat) (ms : List ZrocksMap) (n : Nat) :
    unitsOn (onNode nid ms) n = if n = nid then unitsOn ms nid else 0 := by
  induction ms with
  | nil => simp [onNode]
  | cons m ms ih =>
    rw [onNode, filter_cons]
    by_cases hm : m.nodeId.val = nid
    · rw [if_pos (decide_eq_true hm), unitsOn_cons, unitsOn_cons, ← onNode, ih, hm, if_pos rfl]
      by_cases hn : n = nid
      · rw [if_pos hn, if_pos hn, if_pos hn.symm]
      · rw [if_neg hn, if_neg hn, if_neg (Ne.symm hn)]
    · rw [if_neg (by simpa using hm), unitsOn_cons, if_neg hm, Nat.zero_add]
      exact ih

variable {nid : Nat} {fileName : Name} {clvl : Int} {m : ZrocksMap} {ms new : List ZrocksMap}
  {io : GcIo} {ios : List GcIo} {g g' : GcState}

/-- **A round at a piece on the node**: the piece stays, or is moved. -/
theorem Sound.migratePiece (h : Sound g.z live)
    (e : Xztl.migratePiece fileName clvl m io g = .ok (new, g')) :
    g'.z.nnodes = g.z.nnodes ∧
    (¬ Movable clvl m io g ∧ new = [m] ∧ Sound g'.z live ∨
      Movable clvl m io g ∧ Sound g'.z (live ++ new)) := by
  obtain ⟨hfits, ret, buf, hr, ⟨hret, rfl, hz⟩ | ⟨rfl, maps, hw, rfl⟩⟩ := migratePiece_cases e
  · refine ⟨by rw [hz], ?_⟩
    refine Or.inl ⟨?_, rfl, hz ▸ h⟩
    rintro ⟨⟨buf', hr'⟩, -⟩
    cases hr.symm.trans hr'
    exact hret rfl
  · obtain ⟨parts, ha⟩ := h.alloc
    have hnil := zrocksWrite_eq_nil_iff ha (by
      rw [GcIo.call_ncmd hfits]
      exact le_trans (num_le_of_fits hfits).1 (by decide)) hw
    have hs := h.write hw
    refine ⟨(zrocksWrite_frame ha hw).1, ?_⟩
    by_cases h0 : maps = []
    · rw [if_pos h0]
      rw [h0, append_nil] at hs
      exact Or.inl ⟨fun hmov => hnil.mp h0 hmov.2, rfl, hs⟩
    · rw [if_neg h0]
      exact Or.inr ⟨⟨⟨buf, hr⟩, by_contra fun hno => h0 (hnil.mpr hno)⟩, hs⟩

theorem Sound.migrateRound (h : Sound g.z live)
    (e : Xztl.migrateRound nid fileName clvl m io g = .ok (new, g')) :
    g'.z.nnodes = g.z.nnodes ∧
    ((m.nodeId.val = nid → ¬ Movable clvl m io g) ∧ new = [m] ∧ Sound g'.z live ∨
      m.nodeId.val = nid ∧ Movable clvl m io g ∧ Sound g'.z (live ++ new)) := by
  rw [Xztl.migrateRound] at e
  by_cases hn : m.nodeId.val ≠ nid
  · rw [if_pos hn] at e
    cases e
    exact ⟨rfl, Or.inl ⟨fun h' => absurd h' hn, rfl, h⟩⟩
  · rw [if_neg hn] at e
    obtain ⟨hnn, ⟨hmov, hnew, hs⟩ | ⟨hmov, hs⟩⟩ := h.migratePiece e
    · exact ⟨hnn, Or.inl ⟨fun _ => hmov, hnew, hs⟩⟩
    · exact ⟨hnn, Or.inr ⟨not_not.mp hn, hmov, hs⟩⟩

/-- **The copying.**  What it writes is added to the counts; `s` units on the node stay. -/
theorem Sound.migrateLoop (ms : List ZrocksMap) : ∀ {ios : List GcIo} {g : GcState}
    {live new : List ZrocksMap}, Sound g.z live →
    Xztl.migrateLoop nid fileName clvl ms ios g = .ok (new, g') →
    g'.z.nnodes = g.z.nnodes ∧
    ∃ (written : List ZrocksMap) (s : Nat), Sound g'.z (live ++ written) ∧
      (∀ n, unitsOn new n + unitsOn (onNode nid ms) n
        = unitsOn ms n + unitsOn written n + if n = nid then s else 0) ∧
      (∀ m ∈ new, m ∈ ms ∨ m ∈ written) ∧ (s = 0 ↔ AllMoved nid fileName clvl ms ios g) := by
  induction ms with
  | nil =>
    intro ios g live new h e
    cases e
    exact ⟨rfl, [], 0, by rwa [append_nil], fun n => by simp [onNode], by simp,
      fun _ => trivial, fun _ => rfl⟩
  | cons m ms ih =>
    intro ios g live new h e
    obtain ⟨io, ios, rfl, ⟨hrun, rfl, rfl⟩ | ⟨hrun, new1, g1, rest, e1, e2, rfl⟩⟩ :=
      migrateLoop_cons e
    · -- the worker stops: whatever is left on the node stays
      refine ⟨rfl, [], unitsOn (m :: ms) nid, by rwa [append_nil], fun n => ?_,
        fun m' hm' => Or.inl hm', ?_⟩
      · rw [unitsOn_onNode, unitsOn_nil, Nat.add_zero]
      · rw [AllMoved, if_pos hrun]
    · have hall : AllMoved nid fileName clvl (m :: ms) (io :: ios) g ↔
          (m.nodeId.val = nid → m.num.val = 0 ∨ Movable clvl m io g) ∧
            AllMoved nid fileName clvl ms ios g1 := by
        rw [AllMoved, if_neg (by simp [hrun])]
        refine and_congr_right fun _ => ⟨fun H => H _ _ e1, fun H new g' e => ?_⟩
        cases e1.symm.trans e
        exact H
      have hon : ∀ n, unitsOn (onNode nid (m :: ms)) n
          = (if n = nid ∧ m.nodeId.val = nid then m.num.val else 0)
            + unitsOn (onNode nid ms) n := fun n => by
        rw [unitsOn_onNode, unitsOn_onNode, unitsOn_cons]
        by_cases hn : n = nid <;> simp [hn]
      obtain ⟨hnn, ⟨hstay, rfl, hs⟩ | ⟨hn, hmov, hs⟩⟩ := h.migrateRound e1
      · obtain ⟨hnn', W, s, hs', hunits, hmem, hiff⟩ := ih hs e2
        refine ⟨hnn'.trans hnn, W, (if m.nodeId.val = nid then m.num.val else 0) + s, hs', fun n => ?_,
          fun m' hm' => ?_, ?_⟩
        · have := hunits n
          rw [hon, singleton_append, unitsOn_cons, unitsOn_cons]
          by_cases hn : n = nid
          · subst hn
            simp only [true_and, if_true] at *
            omega
          · simp only [hn, false_and, if_false] at *
            omega
        · rcases mem_cons.mp hm' with rfl | hm'
          · exact Or.inl mem_cons_self
          · exact (hmem m' hm').imp_left (mem_cons_of_mem _)
        · rw [hall, ← hiff, Nat.add_eq_zero_iff]
          refine and_congr_left fun _ => ?_
          by_cases hn : m.nodeId.val = nid
          · simp [hn, hstay hn]
          · simp [hn]
      · obtain ⟨hnn', W, s, hs', hunits, hmem, hiff⟩ := ih hs e2
        refine ⟨hnn'.trans hnn, new1 ++ W, s, by rwa [← append_assoc], fun n => ?_,
          fun m' hm' => ?_, ?_⟩
        · have := hunits n
          rw [hon, unitsOn_append, unitsOn_append, unitsOn_cons, hn]
          by_cases hn : n = nid
          · subst hn
            simp only [true_and, if_true] at *
            omega
          · simp only [hn, Ne.symm hn, false_and, if_false] at *
            omega
        · rcases mem_append.mp hm' with hm' | hm'
          · exact Or.inr (mem_append_left _ hm')
          · exact (hmem m' hm').imp (mem_cons_of_mem _) (mem_append_right _)
        · rw [hall, hiff]
          exact ⟨fun H => ⟨fun _ => Or.inr hmov, H⟩, fun H => H.2⟩

/-! ### The whole call -/

/-- The pieces on a node, and the others. -/
theorem perm_onNode (nid : Nat) (ms : List ZrocksMap) :
    ms.Perm (onNode nid ms ++ ms.filter fun m => !decide (m.nodeId.val = nid)) :=
  (filter_append_perm _ ms).symm

/-- **A call that copies.**  The counts follow the map, but for `s` units that stay on the node and
are trimmed nevertheless. -/
theorem Sound.migrateNodeFile {w w' : World} {p : Ptr} {gcBuffer : Nat → UInt8}
    {rest : List ZrocksMap} (hp : w.env.tbl.find fileName = some p)
    (h : Sound w.z ((w.env.tbl.objs p).map ++ rest)) (hwr : (w.env.tbl.objs p).isWriting = false)
    (e : Xztl.migrateNodeFile w nid fileName gcBuffer ios = .ok w') :
    w'.z.nnodes = w.z.nnodes ∧ ∃ (live : List ZrocksMap) (s : Nat), Sound w'.z live ∧
      (∀ n, unitsOn live n + (if n = nid then s else 0)
        = unitsOn (w'.env.tbl.objs p).map n + unitsOn rest n) ∧
      (∀ m ∈ (w'.env.tbl.objs p).map, m.nodeId.val < w.z.nnodes) ∧
      (s = 0 ↔ AllMoved nid fileName (w.env.tbl.objs p).level (w.env.tbl.objs p).map ios
        (.start w (w.env.tbl.objs p) gcBuffer)) := by
  obtain ⟨-, ⟨hwr', -⟩ | ⟨-, mapCopy, g, hloop, htrim, hsame, -⟩⟩ := migrateNodeFile_cases hp e
  · rw [hwr] at hwr'
    cases hwr'
  obtain ⟨hnn, W, s, hs, hunits, hmem, hiff⟩ := Sound.migrateLoop _ h hloop
  set old := (w.env.tbl.objs p).map with hold
  have hmap : (w'.env.tbl.objs p).map = mapCopy := by
    rw [hsame.map, Table.objs_set, Function.update_self]
  have hperm : (old ++ rest ++ W).Perm
      (onNode nid old ++ (old.filter (fun m => !decide (m.nodeId.val = nid)) ++ (rest ++ W))) := by
    rw [append_assoc, ← append_assoc (onNode nid old)]
    exact (perm_onNode nid old).append_right _
  obtain ⟨hnn', hs'⟩ := hs.trimAll _ hperm htrim
  refine ⟨hnn'.trans hnn, _, s, hs', fun n => ?_, fun m hm => ?_, hiff⟩
  · have h1 := hunits n
    have h2 := unitsOn_perm hperm n
    rw [hmap]
    simp only [unitsOn_append] at h2 ⊢
    omega
  · rw [hmap] at hm
    rcases hmem m hm with hm | hm
    · exact h.lt m (mem_append_left _ hm)
    · exact lt_of_lt_of_eq (hs.lt m (mem_append_right _ hm)) hnn

/-- The counts after a call that copies. -/
theorem Sound.migrate_nrValid {w w' : World} {p : Ptr} {gcBuffer : Nat → UInt8}
    {rest : List ZrocksMap} (hp : w.env.tbl.find fileName = some p)
    (h : Sound w.z ((w.env.tbl.objs p).map ++ rest)) (hwr : (w.env.tbl.objs p).isWriting = false)
    (e : Xztl.migrateNodeFile w nid fileName gcBuffer ios = .ok w') :
    ∃ s, (∀ n < w.z.nnodes, (w'.z.vnodes n).nrValid + (if n = nid then s else 0)
        + unitsOn (w.env.tbl.objs p).map n
          = (w.z.vnodes n).nrValid + unitsOn (w'.env.tbl.objs p).map n) ∧
      (w.z.nnodes ≤ nid → s = 0) ∧
      (s = 0 ↔ AllMoved nid fileName (w.env.tbl.objs p).level (w.env.tbl.objs p).map ios
        (.start w (w.env.tbl.objs p) gcBuffer)) := by
  obtain ⟨hnn, live, s, hs, hunits, hlt, hiff⟩ := h.migrateNodeFile hp hwr e
  refine ⟨s, fun n hn => ?_, fun hn => ?_, hiff⟩
  · rw [hs.acc.valid n (hnn ▸ hn), h.acc.valid n hn, unitsOn_append, hunits n]
    omega
  · -- no live piece lies on a node that does not exist
    have h1 : unitsOn (w'.env.tbl.objs p).map nid = 0 := unitsOn_eq_zero fun m hm =>
      Nat.ne_of_lt (lt_of_lt_of_le (hlt m hm) hn)
    have h2 : unitsOn rest nid = 0 := unitsOn_eq_zero fun m hm =>
      Nat.ne_of_lt (lt_of_lt_of_le (h.lt m (mem_append_right _ hm)) hn)
    have h3 := hunits nid
    rw [h1, h2, if_pos rfl] at h3
    omega

end

/-! ### A worker that is stopped -/

/-- A file of one byte whose migration is stopped before its first round. -/
theorem exists_stopped_migration : ∃ w w' nid gcBuffer ios p,
    w.env.tbl.find [97] = some p ∧ Sound w.z (w.env.tbl.objs p).map ∧
      migrateNodeFile w nid [97] gcBuffer ios = .ok w' ∧ nid < w.z.nnodes ∧
      (w.env.tbl.objs p).isWriting = false ∧
      ¬ AllMoved nid [97] (w.env.tbl.objs p).level (w.env.tbl.objs p).map ios
        (.start w (w.env.tbl.objs p) gcBuffer) ∧
      (w'.env.tbl.objs p).map = (w.env.tbl.objs p).map ∧
      unitsOn (w.env.tbl.objs p).map nid = 1 := by
  obtain ⟨ans, z, m, e, hnum, -, hsub, -⟩ := exists_unitWrite (c := byteWrite)
    (Alloc.fresh oneNode .blank) (by decide) (enough_fresh _ _ _)
  have hs : Sound z ([] ++ [m]) := (Sound.fresh oneNode _).write e
  obtain ⟨env, htbl, hl⟩ := exists_logged_single smallMd (closedFile 1 [m])
  have hobj : env.tbl.objs 0 = closedFile 1 [m] := by rw [htbl, Table.objs_single]
  have hon : onNode m.nodeId [m] = [m] := by simp [onNode]
  have hunits : unitsOn [m] m.nodeId = 1 := by simp [hnum]
  obtain ⟨⟨z', ret⟩, ht⟩ := exists_zrocksTrim m (z := z) (by rw [hsub]; decide)
  have htrim : trimAll (onNode m.nodeId [m]) z = .ok z' := by
    rw [hon, trimAll, ht]
    rfl
  let io : GcIo := ⟨false, [], fun _ _ => 0, []⟩
  let gcBuffer : Nat → UInt8 := fun _ => 0
  have hloop : migrateLoop m.nodeId [97] 0 [m] [io] (.start ⟨z, env⟩ (closedFile 1 [m]) gcBuffer)
      = .ok ([m], .start ⟨z, env⟩ (closedFile 1 [m]) gcBuffer) := rfl
  obtain ⟨env', he, hmap, -⟩ := exists_migrate_single htbl hl (show (1 : Nat) ≤ fileNameLen by decide)
    rfl (show [m].length ≤ maxPieces from show 1 ≤ maxPieces by decide) hloop htrim
  refine ⟨⟨z, env⟩, ⟨z', env'⟩, m.nodeId, gcBuffer, [io], 0, ?_, ?_, he, ?_, ?_, ?_, ?_, ?_⟩
  · rw [htbl]
    exact Table.find_single_self (closedFile 1 [m])
  · rw [hobj]
    exact hs
  · exact hs.lt m (by simp)
  · rw [hobj]
    rfl
  · rw [hobj]
    show ¬ unitsOn [m] m.nodeId = 0
    rw [hunits]
    decide
  · rw [hmap, hobj]
    rfl
  · rw [hobj]
    exact hunits

/-- **When the counts follow the map.**  The pieces of the file are among the live ones.  After the
call each node has lost the units of the old map and gained those of the new one, exactly when the
file was open for writing or all its pieces on the node were moved. -/
theorem migrate_units_iff {w w' : World} {nid : Nat} {fileName : Name} {p : Ptr}
    {gcBuffer : Nat → UInt8} {ios : List GcIo} {rest : List ZrocksMap}
    (hp : w.env.tbl.find fileName = some p) (h : Sound w.z ((w.env.tbl.objs p).map ++ rest))
    (e : migrateNodeFile w nid fileName gcBuffer ios = .ok w') :
    (∀ n < w.z.nnodes, (w'.z.vnodes n).nrValid + unitsOn (w.env.tbl.objs p).map n
        = (w.z.vnodes n).nrValid + unitsOn (w'.env.tbl.objs p).map n) ↔
      (w.env.tbl.objs p).isWriting = true ∨
        AllMoved nid fileName (w.env.tbl.objs p).level (w.env.tbl.objs p).map ios
          (.start w (w.env.tbl.objs p) gcBuffer) := by
  cases hwr : (w.env.tbl.objs p).isWriting with
  | true =>
    obtain ⟨-, ⟨-, rfl⟩ | ⟨hwr', -⟩⟩ := migrateNodeFile_cases hp e
    · exact ⟨fun _ => Or.inl rfl, fun _ _ _ => rfl⟩
    · rw [hwr] at hwr'
      cases hwr'
  | false =>
    obtain ⟨s, hval, hout, hiff⟩ := h.migrate_nrValid hp hwr e
    rw [or_iff_right (by simp), ← hiff]
    constructor
    · intro H
      by_cases hn : nid < w.z.nnodes
      · have h₁ := hval nid hn
        have h₂ := H nid hn
        rw [if_pos rfl] at h₁
        omega
      · exact hout (Nat.le_of_not_lt hn)
    · rintro rfl n hn
      simpa using hval n hn

/-- Both pieces of a file are moved: the counts follow its map. -/
theorem migrate_units_iff_moved : ∃ w w' parts ios m1 m2, Moved w w' parts ios 2 [m1, m2] ∧
    (w.z.vnodes 0).nrValid = 2 ∧ ∀ n < w.z.nnodes, (w'.z.vnodes n).nrValid + unitsOn [m1, m2] n
      = (w.z.vnodes n).nrValid + unitsOn (w'.env.tbl.objs 0).map n := by
  obtain ⟨z, parts, m1, m2, ha, hs, hms, -, -, -, hsub, hroom⟩ := exists_two_bytes
  obtain ⟨-, hnum1, hn1⟩ := hms m1 (by simp)
  obtain ⟨-, hnum2, hn2⟩ := hms m2 (by simp)
  have hunits : unitsOn [m1, m2] 0 = 2 := by simp [hn1, hn2, hnum1, hnum2]
  obtain ⟨env, ios, w', hmv⟩ := exists_moved 2 _ ha (fun m hm => (hms m hm).1)
    (fun m hm => (hms m hm).2.2) (show 2 ≤ ztlNodeMgmtSz by decide) (hunits.le.trans hroom) hsub
  have hs' : Sound z ((env.tbl.objs 0).map ++ []) := by
    rw [hmv.file]
    exact hs
  have h := (migrate_units_iff hmv.find hs' hmv.migrate).mpr (Or.inr hmv.all)
  rw [hmv.file] at h
  exact ⟨_, w', parts, ios, m1, m2, hmv, (hs.acc.valid 0 (hn1 ▸ hs.lt m1 (by simp))).trans hunits, h⟩

/-- **A live piece is trimmed.**  The migration is stopped before its first round: the piece stays in
the map and its unit is no longer counted. -/
theorem migrate_units_lost : ∃ w w' nid gcBuffer ios p,
    w.env.tbl.find [97] = some p ∧ Sound w.z (w.env.tbl.objs p).map ∧
      migrateNodeFile w nid [97] gcBuffer ios = .ok w' ∧ nid < w.z.nnodes ∧
      (w'.env.tbl.objs p).map = (w.env.tbl.objs p).map ∧
      (w.z.vnodes nid).nrValid = 1 ∧ (w'.z.vnodes nid).nrValid = 0 ∧
      ¬ ∀ n < w.z.nnodes, (w'.z.vnodes n).nrValid + unitsOn (w.env.tbl.objs p).map n
        = (w.z.vnodes n).nrValid + unitsOn (w'.env.tbl.objs p).map n := by
  obtain ⟨w, w', nid, gcBuffer, ios, p, hp, hs, e, hn, hwr, hmov, hmap, hunits⟩ :=
    exists_stopped_migration
  have hs' := hs
  rw [← append_nil (w.env.tbl.objs p).map] at hs'
  obtain ⟨s, hval, -, hiff⟩ := hs'.migrate_nrValid hp hwr e
  have hs0 : s ≠ 0 := fun h0 => hmov (hiff.mp h0)
  have h₁ := hval nid hn
  have h₂ := hs.acc.valid nid hn
  rw [if_pos rfl, hmap, hunits] at h₁
  rw [hunits] at h₂
  refine ⟨w, w', nid, gcBuffer, ios, p, hp, hs, e, hn, hmap, h₂, by omega, fun H => ?_⟩
  have h₃ := H nid hn
  rw [hmap, hunits] at h₃
  omega

end Xztl
