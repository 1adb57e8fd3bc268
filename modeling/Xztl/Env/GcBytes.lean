import Xztl.Env.Gc
import Xztl.Env.Stored

/-!
# Env — file contents in garbage collection

`MigrateNodeFile` copies whole units, and a piece that it writes has no padding; so a moved piece
that had padding comes out longer.  `unpad` is the old map with the padding of the moved pieces taken
away, and the copied map has the content of that map (`migrateLoop_bytes`).

**`migrate_bytes_iff`** says when the content stays, for a call whose reads and writes succeed: the
file is open for writing, or none of the moved pieces has padding.
-/

namespace Xztl

open Bytes List Table

section

variable {z z' : Ztl} {parts : NodeList → List Nat} {c : WriteCall} {ans : List MediaAns} {ret : Nat}
  {m x : ZrocksMap} {ms maps : List ZrocksMap} {d d' : Dev}

/-! ### The copying -/

variable {nid : Nat} {fileName : Name} {clvl : Int} {new : List ZrocksMap} {io : GcIo}
  {ios : List GcIo} {g g' : GcState}

/-- The calls of a round succeed: the read in the first attempt, the units of the write in one of
theirs. -/
structure GcIo.Good (io : GcIo) (num : Nat) : Prop where
  read : ∃ a as, io.reads = a :: as ∧ a.Good
  stores : ∀ k < num, ∃ j < maxCallbackErrCnt, io.fate k j = 0

/-- The calls of all rounds succeed and find room, up to where the worker is stopped. -/
def GcFull (nid : Nat) (fileName : Name) (clvl : Int) :
    List ZrocksMap → List GcIo → GcState → Prop
  | m :: ms, io :: ios, g =>
    io.run = true →
      (m.nodeId.val = nid → io.Good m.num ∧ Enough g.z (clampLevel clvl) m.num) ∧
      ∀ new g', migrateRound nid fileName clvl m io g = .ok (new, g') →
        GcFull nid fileName clvl ms ios g'
  | _, _, _ => True

/-- The map with the padding of the moved pieces taken away. -/
def unpad (nid : Nat) : List ZrocksMap → List GcIo → List ZrocksMap
  | m :: ms, io :: ios =>
    if io.run = false then m :: ms
    else (if m.nodeId.val = nid then m.unpadded else m) :: unpad nid ms ios
  | ms, _ => ms

/-- What the copying leaves alone, from one state to a later one. -/
structure GcKept (z z' : Ztl) : Prop where
  alloc : ∃ parts, Alloc z' parts
  lies : ∀ {x}, Lies z x → Lies z' x
  bytes : ∀ {x}, Lies z x → pieceBytes z'.dev x = pieceBytes z.dev x

theorem GcKept.refl (ha : Alloc z parts) : GcKept z z := ⟨⟨parts, ha⟩, fun h => h, fun _ => rfl⟩

theorem GcKept.trans {z'' : Ztl} (h : GcKept z z') (h' : GcKept z' z'') : GcKept z z'' :=
  ⟨h'.alloc, fun hx => h'.lies (h.lies hx), fun hx => (h'.bytes (h.lies hx)).trans (h.bytes hx)⟩

/-- **A round at a piece on the node**: its units are copied in full. -/
theorem migratePiece_bytes (ha : Alloc g.z parts) (hm : Lies g.z m) (hpos : 0 < m.num.val)
    (hio : io.Good m.num) (hen : Enough g.z (clampLevel clvl) m.num)
    (e : migratePiece fileName clvl m io g = .ok (new, g')) :
    GcKept g.z g'.z ∧ (∀ x ∈ new, Lies g'.z x) ∧
      fileBytes g'.z.dev new = pieceBytes g.z.dev m.unpadded := by
  obtain ⟨hfits, ret, buf, hr, hcase⟩ := migratePiece_cases e
  obtain ⟨a, as, hra, hgood⟩ := hio.read
  -- the read delivers the units of the piece
  have hall : 0 + unitBytes * m.num ≤ unitBytes * m.num := by omega
  have hread := hm.read ha.geometry hall hgood as g.gcBuffer
  have hmul : m.num.val * znsAligment * ztlIoSecMcmd = unitBytes * m.num := by
    rw [Nat.mul_assoc, Nat.mul_comm]
    rfl
  rw [GcState.read, hra, hmul] at hr
  rw [Nat.add_zero, Nat.add_zero] at hread
  cases hread.symm.trans hr
  obtain ⟨hret, -⟩ | ⟨-, maps, hw, rfl⟩ := hcase
  · exact absurd rfl hret
  obtain ⟨buf, hbuf⟩ : ∃ buf, buf = readBuf g.z.dev m.nodeId (unitBytes * m.start)
    (unitBytes * m.num) g.gcBuffer := ⟨_, rfl⟩
  rw [← hbuf] at hw
  have hncmd : (io.call buf m clvl).ncmd = m.num.val := GcIo.call_ncmd hfits buf
  have hrc := (num_le_of_fits hfits).1
  have hmax : (io.call buf m clvl).ncmd ≤ xztlIoMaxMcmd := by
    rw [hncmd]
    exact le_trans hrc (by decide)
  have hs : ∀ k < (io.call buf m clvl).ncmd, (io.call buf m clvl).req.Stores k := by
    rw [hncmd]
    exact hio.stores
  have hsize : (io.call buf m clvl).size = unitBytes * m.num := hmul
  obtain ⟨ha', hlies, hbytes⟩ := fileBytes_write ha
    (by rw [hsize]; exact Nat.mul_pos (by decide) hpos) (by rw [hsize, ← hmul]; exact hfits) hs
    (by rw [hncmd]; exact hen) hw
  have hne : maps ≠ [] := fun h0 => (zrocksWrite_eq_nil_iff ha hmax hw).mp h0
    (hen.imp_left fun h => le_trans hpos h)
  rw [if_neg hne]
  refine ⟨⟨ha', fun hx => (hx.write ha hmax hs hw).1, fun hx => (hx.write ha hmax hs hw).2⟩, hlies,
    ?_⟩
  rw [hbytes, hsize]
  refine load_congr fun i hi => ?_
  rw [Nat.zero_add]
  rw [hbuf]
  exact if_pos hi

theorem migrateRound_bytes (ha : Alloc g.z parts) (hm : Lies g.z m) (hpos : 0 < m.num.val)
    (hio : m.nodeId.val = nid → io.Good m.num ∧ Enough g.z (clampLevel clvl) m.num)
    (e : migrateRound nid fileName clvl m io g = .ok (new, g')) :
    GcKept g.z g'.z ∧ (∀ x ∈ new, Lies g'.z x) ∧
      fileBytes g'.z.dev new
        = pieceBytes g.z.dev (if m.nodeId.val = nid then m.unpadded else m) := by
  rw [migrateRound] at e
  by_cases hn : m.nodeId.val = nid
  · rw [if_neg (not_not.mpr hn)] at e
    rw [if_pos hn]
    exact migratePiece_bytes ha hm hpos (hio hn).1 (hio hn).2 e
  · rw [if_pos hn] at e
    rw [if_neg hn]
    cases e
    refine ⟨.refl ha, fun x hx => ?_, by rw [fileBytes_cons, fileBytes_nil, append_nil]⟩
    obtain rfl := mem_singleton.mp hx
    exact hm

theorem lies_unpad (ms : List ZrocksMap) : ∀ {ios : List GcIo}, (∀ m ∈ ms, Lies z m) →
    ∀ x ∈ unpad nid ms ios, Lies z x := by
  induction ms with
  | nil =>
    intro ios h x hx
    cases ios <;> cases hx
  | cons m ms ih =>
    intro ios h x hx
    cases ios with
    | nil => exact h x hx
    | cons io ios =>
      rw [unpad] at hx
      split at hx
      · exact h x hx
      · rcases mem_cons.mp hx with rfl | hx
        · have hm := h m mem_cons_self
          split
          · exact hm.unpadded
          · exact hm
        · exact ih (fun y hy => h y (mem_cons_of_mem _ hy)) x hx

/-- **The copying** gives a map with the content of the old one, the padding of the moved pieces
taken away. -/
theorem migrateLoop_bytes (ms : List ZrocksMap) : ∀ {ios : List GcIo} {g : GcState}
    {parts : NodeList → List Nat} {new : List ZrocksMap}, Alloc g.z parts →
    GcFull nid fileName clvl ms ios g → (∀ m ∈ ms, Lies g.z m ∧ 0 < m.num.val) →
    migrateLoop nid fileName clvl ms ios g = .ok (new, g') →
    GcKept g.z g'.z ∧ (∀ x ∈ new, Lies g'.z x) ∧
      fileBytes g'.z.dev new = fileBytes g.z.dev (unpad nid ms ios) := by
  induction ms with
  | nil =>
    intro ios g parts new ha _ _ e
    cases e
    refine ⟨.refl ha, by simp, ?_⟩
    cases ios <;> rfl
  | cons m ms ih =>
    intro ios g parts new ha hfull h e
    obtain ⟨io, ios, rfl, ⟨hrun, rfl, rfl⟩ | ⟨hrun, new1, g1, rest, e1, e2, rfl⟩⟩ :=
      migrateLoop_cons e
    · refine ⟨.refl ha, fun x hx => (h x hx).1, ?_⟩
      rw [unpad, if_pos hrun]
    · obtain ⟨hio, hrest⟩ := hfull hrun
      obtain ⟨hm, hpos⟩ := h m mem_cons_self
      obtain ⟨hk1, hl1, hb1⟩ := migrateRound_bytes ha hm hpos hio e1
      obtain ⟨parts1, ha1⟩ := hk1.alloc
      have hms : ∀ x ∈ ms, Lies g.z x ∧ 0 < x.num.val := fun x hx =>
        h x (mem_cons_of_mem _ hx)
      obtain ⟨hk2, hl2, hb2⟩ := ih ha1 (hrest _ _ e1)
        (fun x hx => ⟨hk1.lies (hms x hx).1, (hms x hx).2⟩) e2
      refine ⟨hk1.trans hk2, fun x hx => ?_, ?_⟩
      · rcases mem_append.mp hx with hx | hx
        · exact hk2.lies (hl1 x hx)
        · exact hl2 x hx
      · have hnew : fileBytes g'.z.dev new1 = fileBytes g1.z.dev new1 :=
          fileBytes_congr fun x hx => hk2.bytes (hl1 x hx)
        have hold : fileBytes g1.z.dev (unpad nid ms ios) = fileBytes g.z.dev (unpad nid ms ios) :=
          fileBytes_congr fun x hx =>
            hk1.bytes (lies_unpad ms (fun y hy => (hms y hy).1) x hx)
        rw [unpad, if_neg (by simp [hrun]), fileBytes_cons, ← hb1, ← hold, ← hb2, ← hnew]
        exact flatMap_append

/-! ### Padding -/

/-- None of the moved pieces has padding. -/
def Unpadded (nid : Nat) : List ZrocksMap → List GcIo → Prop
  | m :: ms, io :: ios =>
    io.run = true → (m.nodeId.val = nid → m.padding.val = 0) ∧ Unpadded nid ms ios
  | _, _ => True

/-- The length of a piece with or without its padding. -/
theorem pieceBytes_unpadded_length (q : Prop) [Decidable q]
    (h : m.padding.val ≤ unitBytes * m.num) :
    (pieceBytes d (if q then m.unpadded else m)).length
      = (pieceBytes d m).length + if q then m.padding.val else 0 := by
  have hu : (pieceBytes d m.unpadded).length = unitBytes * m.num - 0 := pieceBytes_length
  by_cases hq : q
  · rw [if_pos hq, if_pos hq, hu, pieceBytes_length]
    omega
  · rw [if_neg hq, if_neg hq, Nat.add_zero]

theorem unpad_cons (hrun : io.run = true) :
    unpad nid (m :: ms) (io :: ios)
      = (if m.nodeId.val = nid then m.unpadded else m) :: unpad nid ms ios := by
  rw [unpad, if_neg (by simp [hrun])]

/-- Taking padding away makes the content longer. -/
theorem length_le_unpad (nid : Nat) (ms : List ZrocksMap) : ∀ (ios : List GcIo),
    (∀ m ∈ ms, m.padding.val ≤ unitBytes * m.num) →
    (fileBytes d ms).length ≤ (fileBytes d (unpad nid ms ios)).length := by
  induction ms with
  | nil => exact fun _ _ => Nat.zero_le _
  | cons m ms ih =>
    intro ios h
    cases ios with
    | nil => exact le_refl _
    | cons io ios =>
      cases hrun : io.run with
      | false =>
        rw [unpad, if_pos hrun]
      | true =>
        have := ih ios fun x hx => h x (mem_cons_of_mem _ hx)
        rw [unpad_cons hrun, fileBytes_cons, fileBytes_cons, length_append,
          length_append, pieceBytes_unpadded_length _ (h m mem_cons_self)]
        omega

/-- **The content stays exactly when there is no padding to take away.** -/
theorem fileBytes_unpad_iff (nid : Nat) (ms : List ZrocksMap) : ∀ (ios : List GcIo),
    (∀ m ∈ ms, m.padding.val ≤ unitBytes * m.num) →
    (fileBytes d (unpad nid ms ios) = fileBytes d ms ↔ Unpadded nid ms ios) := by
  induction ms with
  | nil =>
    intro ios _
    cases ios <;> exact ⟨fun _ => trivial, fun _ => rfl⟩
  | cons m ms ih =>
    intro ios h
    cases ios with
    | nil => exact ⟨fun _ => trivial, fun _ => rfl⟩
    | cons io ios =>
      cases hrun : io.run with
      | false =>
        rw [unpad, if_pos hrun, Unpadded]
        exact ⟨fun _ h' => absurd (hrun.symm.trans h') (by simp), fun _ => rfl⟩
      | true =>
        have hms : ∀ x ∈ ms, x.padding.val ≤ unitBytes * x.num := fun x hx =>
          h x (mem_cons_of_mem _ hx)
        have hpiece := pieceBytes_unpadded_length (d := d) (m.nodeId.val = nid)
          (h m mem_cons_self)
        rw [unpad_cons hrun, fileBytes_cons, fileBytes_cons, Unpadded]
        constructor
        · intro e _
          -- neither part can be longer than before, so both have the same length
          have hlen := congrArg List.length e
          have hle := length_le_unpad (d := d) nid ms ios hms
          rw [length_append, length_append, hpiece] at hlen
          obtain ⟨-, hrest⟩ := append_inj e (by rw [hpiece]; omega)
          refine ⟨fun hn => ?_, (ih _ hms).mp hrest⟩
          rw [if_pos hn] at hlen
          omega
        · intro hu
          obtain ⟨h0, hu⟩ := hu hrun
          rw [(ih _ hms).mpr hu]
          by_cases hn : m.nodeId.val = nid
          · rw [if_pos hn, show m.unpadded = m by
              obtain ⟨n, s, k, p⟩ := m
              exact congrArg (ZrocksMap.mk n s k) (Fin.ext (h0 hn).symm)]
          · rw [if_neg hn]

/-! ### Trims -/

/-- A trim leaves alone what a read needs. -/
theorem zrocksTrim_read (hg : Geometry z) (e : zrocksTrim z m = .ok (z', ret)) :
    Geometry z' ∧ z'.dev = z.dev ∧ z'.nnodes = z.nnodes := by
  have hset : ∀ nd : Node, nd.vzones = (z.vnodes m.nodeId).vzones →
      ∀ n < z.nnodes, ∀ i < ztlProZoneNumInnode,
        ((z.setNode m.nodeId nd).vnodes n).vzones i = ztlProZoneNumInnode * n + i := by
    intro nd hnd n hn i hi
    by_cases e : n = m.nodeId.val
    · subst e
      rw [Ztl.setNode_self, hnd]
      exact hg.slot _ hn i hi
    · rw [Ztl.setNode_of_ne _ _ e]
      exact hg.slot n hn i hi
  rw [zrocksTrim] at e
  split at e
  · rw [ztlMgmtSubmitResetFinish] at e
    split at e <;> cases e
    exact ⟨⟨hset _ rfl, hg.zone, hg.sect⟩, rfl, rfl⟩
  · cases e
    exact ⟨⟨hset _ rfl, hg.zone, hg.sect⟩, rfl, rfl⟩

theorem trimAll_read (ms : List ZrocksMap) : ∀ {z : Ztl}, Geometry z → trimAll ms z = .ok z' →
    Geometry z' ∧ z'.dev = z.dev ∧ z'.nnodes = z.nnodes := by
  induction ms with
  | nil =>
    intro z hg e
    cases e
    exact ⟨hg, rfl, rfl⟩
  | cons m ms ih =>
    intro z hg e
    rw [trimAll] at e
    obtain ⟨⟨z1, ret⟩, e1, e⟩ := Except.bind_eq_ok.mp e
    obtain ⟨hg1, hd1, hn1⟩ := zrocksTrim_read hg e1
    obtain ⟨hg2, hd2, hn2⟩ := ih hg1 e
    exact ⟨hg2, hd2.trans hd1, hn2.trans hn1⟩

/-! ### The whole call -/

/-- **A call that copies**, all its reads and writes succeeding. -/
theorem migrateNodeFile_bytes {w w' : World} {p : Ptr} {gcBuffer : Nat → UInt8}
    (hp : w.env.tbl.find fileName = some p) (ha : Alloc w.z parts)
    (hms : ∀ m ∈ (w.env.tbl.objs p).map, Lies w.z m ∧ 0 < m.num.val)
    (hwr : (w.env.tbl.objs p).isWriting = false)
    (hfull : GcFull nid fileName (w.env.tbl.objs p).level (w.env.tbl.objs p).map ios
      (.start w (w.env.tbl.objs p) gcBuffer))
    (e : migrateNodeFile w nid fileName gcBuffer ios = .ok w') :
    Geometry w'.z ∧ w'.env.tbl.freed p = false ∧
      (w'.env.tbl.objs p).size = (w.env.tbl.objs p).size ∧
      (∀ x ∈ (w'.env.tbl.objs p).map, Readable w'.z x) ∧
      fileBytes w'.z.dev (w'.env.tbl.objs p).map
        = fileBytes w.z.dev (unpad nid (w.env.tbl.objs p).map ios) := by
  obtain ⟨hfreed, ⟨hwr', -⟩ | ⟨-, mapCopy, g, hloop, htrim, hsame, -⟩⟩ := migrateNodeFile_cases hp e
  · rw [hwr] at hwr'
    cases hwr'
  obtain ⟨hk, hlies, hbytes⟩ := migrateLoop_bytes _ ha hfull hms hloop
  obtain ⟨parts', ha'⟩ := hk.alloc
  obtain ⟨hg, hd, hn⟩ := trimAll_read _ ha'.geometry htrim
  obtain ⟨i, hi⟩ := hsame.objs p
  rw [objs_set, Function.update_self] at hi
  refine ⟨hg, ?_, by rw [hi], fun x hx => ?_, ?_⟩
  · rw [hsame.freed]
    exact hfreed
  · rw [hi] at hx
    obtain ⟨h1, h2, h3⟩ := (hlies x hx).toReadable
    exact ⟨hn ▸ h1, h2, h3⟩
  · rw [hi, hd]
    exact hbytes

end

/-! ### A file of two bytes, each with padding -/

/-- A piece can be copied when its units find room together. -/
theorem exists_copyPiece {g : GcState} {parts : NodeList → List Nat} {m : ZrocksMap} {clvl : Int}
    (ha : Alloc g.z parts) (hm : Lies g.z m) (hpos : 0 < m.num.val) (hrc : m.num.val ≤ ztlIoRcNum)
    (hen : Enough g.z (clampLevel clvl) m.num) (hfit : m.num.val ≤ g.z.nextRoom (clampLevel clvl)) :
    ∃ (io : GcIo) (m' : ZrocksMap) (z' : Ztl) (buf : Nat → UInt8), io.run = true ∧ io.Good m.num ∧
      copyPiece clvl m io g = .ok ([m'], { g with gcBuffer := buf, z := z' }) ∧
      zrocksWrite g.z (io.call buf m clvl) io.ans = .ok (z', xztlOk, [m']) ∧
      io.fate = (fun _ _ => 0) ∧ m'.num.val = m.num.val ∧ z'.submitHead = g.z.submitHead ∧
      z'.room (clampLevel clvl) + m.num.val = g.z.nextRoom (clampLevel clvl) := by
  obtain ⟨a, hgood⟩ := exists_good
  let io0 : GcIo := ⟨true, [a], fun _ _ => 0, []⟩
  have hmul : m.num.val * znsAligment * ztlIoSecMcmd = unitBytes * m.num := by
    rw [Nat.mul_assoc, Nat.mul_comm]
    rfl
  have hfits : m.num.val * znsAligment * ztlIoSecMcmd ≤ znsMaxBuf := by
    rw [hmul]
    exact le_trans (Nat.mul_le_mul_left _ hrc) (show unitBytes * ztlIoRcNum ≤ znsMaxBuf by decide)
  have hall : 0 + unitBytes * m.num ≤ unitBytes * m.num := by omega
  have hread := hm.read ha.geometry hall hgood [] g.gcBuffer
  obtain ⟨buf, hbuf⟩ : ∃ buf, buf = readBuf g.z.dev m.nodeId (unitBytes * m.start + 0)
    (unitBytes * m.num) g.gcBuffer := ⟨_, rfl⟩
  have hncmd : (io0.call buf m clvl).ncmd = m.num.val := GcIo.call_ncmd hfits buf
  obtain ⟨ans, z', m', hw, hnum', -, hsub, hroom⟩ :=
    exists_wholeWrite (c := io0.call buf m clvl) ha (by rwa [hncmd]) (by rwa [hncmd])
      (by rwa [hncmd]) (by rwa [hncmd])
  rw [hncmd] at hnum' hroom
  have hcall : zrocksWrite g.z ((⟨true, [a], fun _ _ => 0, ans⟩ : GcIo).call buf m clvl) ans
      = .ok (z', xztlOk, [m']) := hw
  refine ⟨⟨true, [a], fun _ _ => 0, ans⟩, m', z', buf, rfl,
    ⟨⟨a, [], rfl, hgood⟩, fun _ _ => ⟨0, by decide, rfl⟩⟩, ?_, hcall, rfl, hnum', hsub, hroom⟩
  rw [← hbuf, Nat.add_zero, ← hmul] at hread
  rw [copyPiece, if_neg (Nat.not_lt_of_le hfits)]
  simp only [bind, Except.bind, pure, Except.pure, hread]
  rw [if_neg (by simp [xztlOk])]
  simp only [hcall]
  rw [if_neg (by simp [xztlOk])]

/-- **The copying of a list of pieces**, all calls succeeding, when the units on the node find room. -/
theorem exists_gcFull {nid : Nat} (fileName : Name) {clvl : Int} (ms : List ZrocksMap) :
    ∀ {g : GcState} {parts : NodeList → List Nat}, Alloc g.z parts →
    (∀ m ∈ ms, m.nodeId.val = nid → Lies g.z m ∧ 0 < m.num.val) →
    unitsOn ms nid ≤ g.z.room (clampLevel clvl) →
    ∃ ios new g', migrateLoop nid fileName clvl ms ios g = .ok (new, g') ∧
      GcFull nid fileName clvl ms ios g ∧ AllMoved nid fileName clvl ms ios g ∧
      (∀ io ∈ ios, io.run = true) ∧ ios.length = ms.length ∧ new.length = ms.length ∧
      g'.z.submitHead = g.z.submitHead := by
  induction ms with
  | nil => exact fun _ _ _ => ⟨[], [], _, rfl, trivial, trivial, by simp, rfl, rfl, rfl⟩
  | cons m ms ih =>
    intro g parts ha hms hroom
    rw [unitsOn_cons] at hroom
    -- the round of the first piece
    obtain ⟨io, m', g1, hrun, hround, hmoved, hk, hroom1, hsub1⟩ : ∃ io m' g1, io.run = true ∧
        migrateRound nid fileName clvl m io g = .ok ([m'], g1) ∧
        (m.nodeId.val = nid → (io.Good m.num ∧ Enough g.z (clampLevel clvl) m.num) ∧
          Movable clvl m io g) ∧ GcKept g.z g1.z ∧ unitsOn ms nid ≤ g1.z.room (clampLevel clvl) ∧
        g1.z.submitHead = g.z.submitHead := by
      by_cases hn : m.nodeId.val = nid
      · rw [if_pos hn] at hroom
        obtain ⟨hl, hpos⟩ := hms m mem_cons_self hn
        have hnext : g.z.nextRoom (clampLevel clvl) = g.z.room (clampLevel clvl) :=
          if_neg (by omega)
        have hen : Enough g.z (clampLevel clvl) m.num := Or.inl (by omega)
        obtain ⟨io, m', z', buf, hrun, hio, hcopy, -, -, -, hsub, hleft⟩ :=
          exists_copyPiece ha hl hpos hl.num hen (by omega)
        have hpiece : migratePiece fileName clvl m io g
            = .ok ([m'], { g with gcBuffer := buf, z := z' }.noteAll fileName [m'] 0) := by
          rw [migratePiece, hcopy]
          rfl
        obtain ⟨hk, -⟩ := migratePiece_bytes ha hl hpos hio hen hpiece
        obtain ⟨-, ret, buf', hr, ⟨-, h0, -⟩ | ⟨rfl, -⟩⟩ := copyPiece_cases hcopy
        · cases h0
        refine ⟨io, m', _, hrun, (if_neg (not_not.mpr hn)).trans hpiece,
          fun _ => ⟨⟨hio, hen⟩, ⟨_, hr⟩, Or.inl (by omega)⟩, hk, ?_, ?_⟩
        · rw [GcState.noteAll_z]
          show _ ≤ z'.room _
          omega
        · rw [GcState.noteAll_z]
          exact hsub
      · rw [if_neg hn, Nat.zero_add] at hroom
        exact ⟨⟨true, [], fun _ _ => 0, []⟩, m, g, rfl, if_pos hn, fun h => absurd h hn, .refl ha,
          hroom, rfl⟩
    obtain ⟨parts1, ha1⟩ := hk.alloc
    obtain ⟨ios, new, g', e, hfull, hall, hruns, hios, hlen, hsub⟩ := ih ha1
      (fun x hx h => (hms x (mem_cons_of_mem _ hx) h).imp_left hk.lies) hroom1
    refine ⟨io :: ios, m' :: new, g', ?_, fun _ => ⟨fun h => (hmoved h).1, fun _ _ e1 => ?_⟩, ?_,
      forall_mem_cons.mpr ⟨hrun, hruns⟩, by rw [length_cons, length_cons, hios],
      by rw [length_cons, length_cons, hlen], hsub.trans hsub1⟩
    · rw [migrateLoop, if_neg (by simp [hrun]), hround]
      simp only [bind, Except.bind, e]
      rfl
    · cases hround.symm.trans e1
      exact hfull
    · rw [AllMoved, if_neg (by simp [hrun])]
      refine ⟨fun h => Or.inr (hmoved h).2, fun _ _ e1 => ?_⟩
      cases hround.symm.trans e1
      exact hall

/-- Trims return as long as the management queue has room for them. -/
theorem exists_trimAll (ms : List ZrocksMap) : ∀ {z : Ztl},
    z.submitHead.length + ms.length ≤ ztlNodeMgmtSz → ∃ z', trimAll ms z = .ok z' := by
  induction ms with
  | nil => exact fun _ => ⟨_, rfl⟩
  | cons m ms ih =>
    intro z h
    rw [length_cons] at h
    obtain ⟨⟨z1, ret⟩, e⟩ := exists_zrocksTrim m (z := z) (by omega)
    obtain ⟨z', e'⟩ := ih (z := z1) (by
      have := zrocksTrim_submitHead e
      omega)
    exact ⟨z', by rw [trimAll, e]; exact e'⟩

theorem trimAll_submitHead (ms : List ZrocksMap) : ∀ {z z' : Ztl}, trimAll ms z = .ok z' →
    z'.submitHead.length ≤ z.submitHead.length + ms.length := by
  induction ms with
  | nil =>
    intro z z' h
    cases h
    exact le_rfl
  | cons m ms ih =>
    intro z z' h
    obtain ⟨⟨z1, ret⟩, e, h⟩ := Except.bind_eq_ok.mp h
    have h1 := zrocksTrim_submitHead e
    have h2 := ih h
    rw [length_cons]
    omega

theorem Holds.byte {z : Ztl} {cs : List Chunk} (h : Holds z cs) {m : ZrocksMap}
    {g : Nat → UInt8} (hmem : ⟨m.nodeId, m.start, m.num, g⟩ ∈ cs) (hnum : m.num.val = 1)
    (hpad : m.padding.val = 32767) : Lies z m ∧ pieceBytes z.dev m = [g 0] ∧
      ∀ i < unitBytes, nodeByte z.dev m.nodeId (unitBytes * m.start + i) = g i := by
  have hdata : ∀ i < unitBytes, nodeByte z.dev m.nodeId (unitBytes * m.start + i) = g i :=
    fun i hi => h.data _ hmem i (by show i < unitBytes * m.num; rwa [hnum, Nat.mul_one])
  have hlen : unitBytes * m.num.val - m.padding.val = 1 := by rw [hnum, hpad, unitBytes_eq]
  refine ⟨⟨⟨h.lt _ hmem, by rw [hnum]; decide, by rw [hnum, hpad, unitBytes_eq]; decide⟩,
    h.used _ hmem⟩, ?_, hdata⟩
  rw [pieceBytes, hlen]
  exact congrArg (· :: []) (hdata 0 (by rw [unitBytes_eq]; decide))

/-- Two bytes in two writes: behind the first one the unit is filled with zeros. -/
theorem exists_two_bytes : ∃ (z : Ztl) (parts : NodeList → List Nat) (m1 m2 : ZrocksMap),
    Alloc z parts ∧ Sound z [m1, m2] ∧ (∀ m ∈ [m1, m2], (Lies z m ∧ 0 < m.num.val) ∧
      m.num.val = 1 ∧ m.nodeId.val = 0) ∧
      pieceBytes z.dev m1 = [1] ∧ pieceBytes z.dev m2 = [2] ∧
      (∀ i < unitBytes, nodeByte z.dev m1.nodeId (unitBytes * m1.start + i)
        = if i = 0 then 1 else 0) ∧ z.submitHead = [] ∧ 2 ≤ z.room 0 := by
  let c1 : WriteCall := ⟨fun i => if i = 0 then 1 else 0, 1, 0, fun _ _ => 0⟩
  let c2 : WriteCall := ⟨fun _ => 2, 1, 0, fun _ _ => 0⟩
  obtain ⟨as, s, m1, m2, h⟩ := exists_twoWrites c1 c2 (by simp [c1, c2, unitBytes_eq])
  obtain ⟨⟨parts, ha⟩, hh, -⟩ : WSound s :=
    Runs.invariant (fun _ _ _ hs hg e => hs.wstep hg e) h.run (WSound.fresh oneNode .blank)
  rw [WState.chunks, h.hist] at hh
  obtain ⟨hl1, hb1, hz1⟩ := hh.byte (m := m1) (g := fun i => c1.buf (unitBytes * 0 + i))
    (by simp [chunksAt]) h.num.1 (h.padding.1.trans (by decide))
  obtain ⟨hl2, hb2, -⟩ := hh.byte (m := m2) (g := fun i => c2.buf (unitBytes * 0 + i))
    (by simp [chunksAt]) h.num.2 (h.padding.2.trans (by decide))
  have hnode : ∀ {m}, Lies s.z m → m.nodeId.val = 0 := fun {m} hm => by
    have := hm.node
    have := h.one
    omega
  refine ⟨s.z, parts, m1, m2, ha, h.sound, fun m hm => ?_, hb1, hb2, fun i hi => ?_, h.submitHead,
    h.room⟩
  · rcases mem_cons.mp hm with rfl | hm
    · exact ⟨⟨hl1, by rw [h.num.1]; decide⟩, h.num.1, hnode hl1⟩
    · obtain rfl := mem_singleton.mp hm
      exact ⟨⟨hl2, by rw [h.num.2]; decide⟩, h.num.2, hnode hl2⟩
  · have := hz1 i hi
    rwa [Nat.mul_zero, Nat.zero_add] at this

/-- **A file that is alone is migrated**, all calls succeeding. -/
theorem exists_migration {f : ZnsFile} {e : Env} {seq : Nat} {recs : List Rec} {z : Ztl}
    {parts : NodeList → List Nat} (nid : Nat) (he : e.tbl = .single f) (hl : Logged e seq recs)
    (hname : f.name.length ≤ fileNameLen) (hwr : f.isWriting = false)
    (hmax : f.map.length ≤ ztlNodeMgmtSz) (ha : Alloc z parts)
    (hms : ∀ m ∈ f.map, m.nodeId.val = nid → Lies z m ∧ 0 < m.num.val)
    (hroom : unitsOn f.map nid ≤ z.room (clampLevel f.level)) (hsub : z.submitHead = [])
    (gcBuffer : Nat → UInt8) :
    ∃ ios w', migrateNodeFile ⟨z, e⟩ nid f.name gcBuffer ios = .ok w' ∧
      GcFull nid f.name f.level f.map ios (.start ⟨z, e⟩ f gcBuffer) ∧
      AllMoved nid f.name f.level f.map ios (.start ⟨z, e⟩ f gcBuffer) ∧
      (∀ io ∈ ios, io.run = true) ∧ ios.length = f.map.length := by
  obtain ⟨ios, new, g', hloop, hfull, hall, hruns, hios, hlen, hsub'⟩ :=
    exists_gcFull f.name f.map (g := .start ⟨z, e⟩ f gcBuffer) ha hms hroom
  obtain ⟨z', htrim⟩ := exists_trimAll (onNode nid f.map) (z := g'.z) (by
    rw [hsub', show (GcState.start ⟨z, e⟩ f gcBuffer).z.submitHead = [] from hsub, length_nil,
      Nat.zero_add]
    exact (length_filter_le _ _).trans hmax)
  obtain ⟨e', hm, -⟩ := exists_migrate_single he hl hname hwr
    (by rw [hlen]; exact hmax.trans (by decide)) hloop htrim
  exact ⟨ios, _, hm, hfull, hall, hruns, hios⟩

/-- A closed file whose pieces lie on node 0 is moved from there: all calls succeed. -/
structure Moved (w w' : World) (parts : NodeList → List Nat) (ios : List GcIo) (size : Nat)
    (ms : List ZrocksMap) : Prop where
  find : w.env.tbl.find [97] = some 0
  alive : w.env.tbl.freed 0 = false
  file : w.env.tbl.objs 0 = closedFile size ms
  alloc : Alloc w.z parts
  lies : ∀ m ∈ (w.env.tbl.objs 0).map, Lies w.z m ∧ 0 < m.num.val
  node : ∀ m ∈ ms, m.nodeId.val = 0
  run : ∀ io ∈ ios, io.run = true
  length : ios.length = ms.length
  full : GcFull 0 [97] (w.env.tbl.objs 0).level (w.env.tbl.objs 0).map ios
    (.start w (w.env.tbl.objs 0) fun _ => 0)
  all : AllMoved 0 [97] (w.env.tbl.objs 0).level (w.env.tbl.objs 0).map ios
    (.start w (w.env.tbl.objs 0) fun _ => 0)
  migrate : migrateNodeFile w 0 [97] (fun _ => 0) ios = .ok w'

theorem exists_moved {z : Ztl} {parts : NodeList → List Nat} (size : Nat) (ms : List ZrocksMap)
    (ha : Alloc z parts) (hms : ∀ m ∈ ms, Lies z m ∧ 0 < m.num.val) (hn : ∀ m ∈ ms, m.nodeId.val = 0)
    (hlen : ms.length ≤ ztlNodeMgmtSz) (hroom : unitsOn ms 0 ≤ z.room 0) (hsub : z.submitHead = []) :
    ∃ env ios w', Moved ⟨z, env⟩ w' parts ios size ms := by
  obtain ⟨env, htbl, hl⟩ := exists_logged_single smallMd (closedFile size ms)
  have hfind : env.tbl.find [97] = some 0 := by
    rw [htbl]
    exact find_single_self (closedFile size ms)
  obtain ⟨ios, w', e, hfull, hall, hruns, hios⟩ := exists_migration (f := closedFile size ms) 0
    htbl hl (show (1 : Nat) ≤ fileNameLen by decide) rfl hlen ha (fun m hm _ => hms m hm) hroom hsub
    fun _ => 0
  have hobj : env.tbl.objs 0 = closedFile size ms := by rw [htbl, objs_single]
  have halive : env.tbl.freed 0 = false := by
    rw [htbl] at hfind ⊢
    exact (Table.Tidy.single _).live hfind
  refine ⟨env, ios, w', hfind, halive, hobj, ha, ?_, hn, hruns, hios, ?_, ?_, e⟩ <;> rwa [hobj]

/-- The file of two bytes is migrated. -/
theorem exists_padded_migration : ∃ w w' parts ios m1 m2, Moved w w' parts ios 2 [m1, m2] ∧
    fileBytes w.z.dev [m1, m2] = [1, 2] ∧
    ∃ tail, fileBytes w.z.dev (unpad 0 [m1, m2] ios) = 1 :: 0 :: tail := by
  obtain ⟨z, parts, m1, m2, ha, -, hms, hb1, hb2, hzero, hsub, hroom⟩ := exists_two_bytes
  obtain ⟨⟨hl1, hpos1⟩, hnum1, hn1⟩ := hms m1 (by simp)
  obtain ⟨-, hnum2, hn2⟩ := hms m2 (by simp)
  obtain ⟨env, ios, w', hmv⟩ := exists_moved 2 _ ha (fun m hm => (hms m hm).1)
    (fun m hm => (hms m hm).2.2) (show 2 ≤ ztlNodeMgmtSz by decide) (by simpa [hn1, hn2, hnum1, hnum2] using hroom) hsub
  refine ⟨_, w', parts, ios, m1, m2, hmv, ?_, ?_⟩
  · show fileBytes z.dev [m1, m2] = [1, 2]
    rw [fileBytes_cons, fileBytes_cons, hb1, hb2]
    rfl
  · have hfirst : pieceBytes z.dev m1.unpadded
        = 1 :: 0 :: load (fun i => if i = 0 then 1 else 0) 2 32766 := by
      have hload : pieceBytes z.dev m1.unpadded
          = load (fun i => if i = 0 then 1 else 0) 0 (1 + (1 + 32766)) := by
        have hlen : unitBytes * m1.unpadded.num.val - m1.unpadded.padding.val = 1 + (1 + 32766) := by
          rw [show m1.unpadded.num.val = 1 from hnum1, unitBytes_eq]
          rfl
        rw [pieceBytes, hlen]
        refine load_congr fun i hi => ?_
        rw [Nat.zero_add]
        exact hzero i (by rw [unitBytes_eq]; omega)
      have hsplit (k : Nat) : load (fun i => if i = 0 then 1 else 0) 0 (1 + (1 + k))
          = 1 :: 0 :: load (fun i => if i = 0 then 1 else 0) 2 k := by
        rw [load_add, load_add]
        rfl
      rw [hload, hsplit]
    obtain ⟨io1, io2, rfl⟩ := length_eq_two.mp hmv.length
    rw [unpad_cons (hmv.run io1 mem_cons_self), if_pos hn1, fileBytes_cons, hfirst]
    exact ⟨_, rfl⟩

/-! ### When the content stays -/

/-- **When garbage collection keeps the content.**  The pieces of the file are stored, and the reads
and writes of the call succeed.  The bytes of the file, and what `ReadOffset` gives at every offset
and length, are the same before and after exactly when the file was open for writing or no moved
piece had padding. -/
theorem migrate_bytes_iff {w w' : World} {parts : NodeList → List Nat} {nid : Nat} {fileName : Name}
    {p : Ptr} {gcBuffer : Nat → UInt8} {ios : List GcIo} (hp : w.env.tbl.find fileName = some p)
    (ha : Alloc w.z parts) (hms : ∀ m ∈ (w.env.tbl.objs p).map, Lies w.z m ∧ 0 < m.num.val)
    (hfull : (w.env.tbl.objs p).isWriting = false → GcFull nid fileName (w.env.tbl.objs p).level
      (w.env.tbl.objs p).map ios (.start w (w.env.tbl.objs p) gcBuffer))
    (e : migrateNodeFile w nid fileName gcBuffer ios = .ok w') :
    (fileBytes w'.z.dev (w'.env.tbl.objs p).map = fileBytes w.z.dev (w.env.tbl.objs p).map ∧
      ∀ offset n scratch reads reads', GoodReads reads → GoodReads reads' →
        readOffset w'.z w'.env.tbl (some p) offset n scratch reads'
          = readOffset w.z w.env.tbl (some p) offset n scratch reads) ↔
      (w.env.tbl.objs p).isWriting = true ∨ Unpadded nid (w.env.tbl.objs p).map ios := by
  have hread : ∀ m ∈ (w.env.tbl.objs p).map, Readable w.z m := fun m hm => (hms m hm).1.toReadable
  obtain ⟨hfreed, hcases⟩ := migrateNodeFile_cases hp e
  cases hwr : (w.env.tbl.objs p).isWriting with
  | true =>
    -- the call does nothing
    obtain ⟨-, rfl⟩ | ⟨hwr', -⟩ := hcases
    · refine iff_of_true ⟨rfl, fun offset n scratch reads reads' hr hr' => ?_⟩ (Or.inl rfl)
      rw [readOffset_eq ha.geometry hr hfreed hread, readOffset_eq ha.geometry hr' hfreed hread]
    · rw [hwr] at hwr'
      cases hwr'
  | false =>
    obtain ⟨hg', hfreed', hsize, hread', hbytes⟩ :=
      migrateNodeFile_bytes hp ha hms hwr (hfull hwr) e
    have hiff := fileBytes_unpad_iff (d := w.z.dev) nid (w.env.tbl.objs p).map ios
      fun m hm => (hread m hm).padding
    rw [or_iff_right (by simp), ← hiff, ← hbytes]
    refine ⟨And.left, fun heq => ⟨heq, fun offset n scratch reads reads' hr hr' => ?_⟩⟩
    rw [readOffset_eq ha.geometry hr hfreed hread, readOffset_eq hg' hr' hfreed' hread', heq, hsize]

/-- A file of two pieces without padding: the move keeps its bytes and what is read from it. -/
theorem migrate_bytes_iff_units : ∃ w w' parts ios m1 m2, Moved w w' parts ios 65536 [m1, m2] ∧
    fileBytes w'.z.dev (w'.env.tbl.objs 0).map = fileBytes w.z.dev [m1, m2] ∧
    (fileBytes w.z.dev [m1, m2]).length = 65536 ∧
    ∀ offset n scratch reads reads', GoodReads reads → GoodReads reads' →
      readOffset w'.z w'.env.tbl (some 0) offset n scratch reads'
        = readOffset w.z w.env.tbl (some 0) offset n scratch reads := by
  obtain ⟨z, parts, m1, m2, ha, -, hms, -, -, -, hsub, hroom⟩ := exists_two_bytes
  obtain ⟨⟨hl1, hpos1⟩, hnum1, hn1⟩ := hms m1 (by simp)
  obtain ⟨⟨hl2, hpos2⟩, hnum2, hn2⟩ := hms m2 (by simp)
  obtain ⟨env, ios, w', hmv⟩ := exists_moved 65536 [m1.unpadded, m2.unpadded] ha
    (forall_mem_cons.mpr ⟨⟨hl1.unpadded, hpos1⟩, forall_mem_singleton.mpr ⟨hl2.unpadded, hpos2⟩⟩)
    (forall_mem_cons.mpr ⟨hn1, forall_mem_singleton.mpr hn2⟩) (show 2 ≤ ztlNodeMgmtSz by decide)
    (by simpa [ZrocksMap.unpadded, hn1, hn2, hnum1, hnum2] using hroom) hsub
  obtain ⟨io1, io2, rfl⟩ := length_eq_two.mp hmv.length
  obtain ⟨hbytes, hreads⟩ := (migrate_bytes_iff hmv.find ha hmv.lies (fun _ => hmv.full) hmv.migrate).mpr
    (by rw [hmv.file]; exact Or.inr fun _ => ⟨fun _ => rfl, fun _ => ⟨fun _ => rfl, trivial⟩⟩)
  rw [hmv.file] at hbytes
  refine ⟨_, w', parts, _, _, _, hmv, hbytes, ?_, hreads⟩
  simp [fileBytes_cons, pieceBytes_length, ZrocksMap.unpadded, hnum1, hnum2, unitBytes_eq]

/-- **The content changes.**  A file of the bytes 1 and 2 in two pieces is moved, all calls
succeeding; afterwards a read of its second byte gives 0. -/
theorem migrate_bytes_lost : ∃ (w w' : World) (parts : NodeList → List Nat)
    (gcBuffer : Nat → UInt8) (ios : List GcIo) (p : Ptr), w.env.tbl.find [97] = some p ∧
      Alloc w.z parts ∧ (∀ m ∈ (w.env.tbl.objs p).map, Lies w.z m ∧ 0 < m.num.val) ∧
      (w.env.tbl.objs p).isWriting = false ∧
      GcFull 0 [97] (w.env.tbl.objs p).level (w.env.tbl.objs p).map ios
        (.start w (w.env.tbl.objs p) gcBuffer) ∧
      migrateNodeFile w 0 [97] gcBuffer ios = .ok w' ∧
      fileBytes w.z.dev (w.env.tbl.objs p).map = [1, 2] ∧
      fileBytes w'.z.dev (w'.env.tbl.objs p).map ≠ [1, 2] ∧
      ∃ reads, GoodReads reads ∧ ∀ scratch,
        readOffset w.z w.env.tbl (some p) 1 1 scratch reads
            = .ok (.ok, some 1, memcpy scratch 0 [2]) ∧
          readOffset w'.z w'.env.tbl (some p) 1 1 scratch reads
            = .ok (.ok, some 1, memcpy scratch 0 [0]) := by
  obtain ⟨w, w', parts, ios, m1, m2, hmv, hb, tail, hb'⟩ := exists_padded_migration
  rw [show [m1, m2] = (closedFile 2 [m1, m2]).map from rfl, ← hmv.file] at hb hb'
  have hwr : (w.env.tbl.objs 0).isWriting = false := by rw [hmv.file]; rfl
  have hsize : (w.env.tbl.objs 0).size = 2 := by rw [hmv.file]; rfl
  obtain ⟨hg', hfreed', hsize', hread', hbytes⟩ :=
    migrateNodeFile_bytes hmv.find hmv.alloc hmv.lies hwr hmv.full hmv.migrate
  rw [hb'] at hbytes
  obtain ⟨reads, hr⟩ := exists_goodReads
  refine ⟨w, w', parts, _, ios, 0, hmv.find, hmv.alloc, hmv.lies, hwr, hmv.full, hmv.migrate, hb, ?_,
    reads, hr, fun scratch => ?_⟩
  · rw [hbytes]
    simp
  · rw [readOffset_eq hmv.alloc.geometry hr hmv.alive fun m hm => (hmv.lies m hm).1.toReadable,
      readOffset_eq hg' hr hfreed' hread', hsize', hsize, hb, hbytes]
    simp [readSpec]

end Xztl
