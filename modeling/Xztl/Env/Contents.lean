import Mathlib.Algebra.BigOperators.Group.Finset.Piecewise
import Mathlib.Algebra.Order.BigOperators.Group.Finset
import Xztl.Env.Stored
import Xztl.Env.Valid
import Xztl.Zrocks.Encoding
import Xztl.Zrocks.Report

/-!
# Env — the contents of a file open for writing (`env_zns_io.cc`)

What a file holds is in two places: its pieces, and behind them the bytes in the write cache.
`Append` fills the cache, writes it out when it is full and starts again, `Sync` writes out what there
is, and `Truncate` takes bytes back that are still cached.

`HoldsBytes` is the relation to the bytes of a plain file.  It is kept by every copy into the cache and
every Sync that stores its buffer (`HoldsBytes.put`, `HoldsBytes.sync`), so by the loop of `Append`
(`HoldsBytes.appendLoop`).  No copy goes past the end of the cache: an Append whose Syncs return does
so itself (`OpenWith.append`).  **`contents_run`** is about whole runs of calls on a new file.

`LastRecord h w size` says what the log on the device has as the size of the file.
-/

namespace Xztl

open Function Bytes List Except Option Table

/-! ### How much a device holds -/

section

variable {z : Ztl} {live : List ZrocksMap}

theorem mapUnits_eq_sum {n : Nat} (ms : List ZrocksMap) (h : ∀ m ∈ ms, m.nodeId.val < n) :
    mapUnits ms = ∑ i ∈ Finset.range n, unitsOn ms i := by
  induction ms with
  | nil => exact (Finset.sum_const_zero).symm
  | cons m ms ih =>
    have hm := Finset.mem_range.mpr (h m mem_cons_self)
    have hone : ∑ i ∈ Finset.range n, (if m.nodeId.val = i then m.num.val else 0) = m.num := by
      rw [Finset.sum_ite_eq, if_pos hm]
    simp only [mapUnits_cons, unitsOn_cons, Finset.sum_add_distrib, hone,
      ih fun x hx => h x (mem_cons_of_mem _ hx)]

theorem mapUnits_append (ms ms' : List ZrocksMap) :
    mapUnits (ms ++ ms') = mapUnits ms + mapUnits ms' := by simp [mapUnits]

/-- The live pieces have no more units than the nodes. -/
theorem Sound.mapUnits_le (h : Sound z live) : mapUnits live ≤ 2 ^ 14 * ztlProOptSecNumInnode := by
  obtain ⟨parts, ha⟩ := h.alloc
  calc mapUnits live = ∑ n ∈ Finset.range z.nnodes, unitsOn live n := mapUnits_eq_sum live h.lt
    _ ≤ ∑ _n ∈ Finset.range z.nnodes, ztlProOptSecNumInnode := by
        refine Finset.sum_le_sum fun n hn => ?_
        have hn := Finset.mem_range.mp hn
        have hvalid := h.acc.valid n hn
        have hle := h.acc.le n hn
        have hbal := ha.balance n hn
        omega
    _ = z.nnodes * ztlProOptSecNumInnode := by rw [Finset.sum_const, Finset.card_range, smul_eq_mul]
    _ ≤ 2 ^ 14 * ztlProOptSecNumInnode := Nat.mul_le_mul_right _ ha.small

theorem fileBytes_length_le (d : Dev) (ms : List ZrocksMap) :
    (fileBytes d ms).length ≤ unitBytes * mapUnits ms := by
  induction ms with
  | nil => exact Nat.zero_le _
  | cons m ms ih =>
    rw [fileBytes_cons, length_append, pieceBytes_length, mapUnits_cons, Nat.mul_add]
    exact Nat.add_le_add (Nat.sub_le _ _) ih

theorem fileBytes_append (d : Dev) (ms ms' : List ZrocksMap) :
    fileBytes d (ms ++ ms') = fileBytes d ms ++ fileBytes d ms' := flatMap_append

end

/-! ### What is kept inside a call -/

/-- The object behind a handle. -/
def World.file (w : World) (h : Handle) : ZnsFile := w.env.tbl.objs h.znsFile

/-- The cached bytes. -/
def ZnsFile.cachedBytes (f : ZnsFile) : List UInt8 := f.cache.getD []

/-- The pieces and the cache of a file hold `bytes`; `live` are the other pieces on the device. -/
structure HoldsBytes (h : Handle) (live : List ZrocksMap) (w : World) (bytes : List UInt8) :
    Prop where
  alive : w.env.tbl.freed h.znsFile = false
  sound : Sound w.z (live ++ (w.file h).map)
  lies : ∀ m ∈ (w.file h).map, Lies w.z m
  bytes : fileBytes w.z.dev (w.file h).map ++ (w.file h).cachedBytes = bytes
  le : (w.file h).cachedBytes.length ≤ znsMaxBuf

/-- A Sync stores its buffer in full. -/
def SyncStores (h : Handle) (w : World) (io : WriteIo) : Prop :=
  ∀ z ret maps, (w.file h).cachedBytes ≠ [] →
    zrocksWrite w.z (io.call (w.file h).cachedBytes (w.file h).level) io.ans = .ok (z, ret, maps) →
    WroteAll w.z z (w.file h).cachedBytes.length maps

section

variable {h : Handle} {live : List ZrocksMap} {w w' : World} {bytes bs : List UInt8} {s : Status}
  {io : WriteIo}

/-- The size of a file is far below 2⁶⁴. -/
theorem HoldsBytes.length_lt (hb : HoldsBytes h live w bytes) : bytes.length < 2 ^ 64 := by
  have hsum := hb.sound.mapUnits_le
  have hlen := fileBytes_length_le w.z.dev (w.file h).map
  have hcache : (w.file h).cachedBytes.length ≤ 33554432 := hb.le
  rw [mapUnits_append, ztlProOptSecNumInnode_eq] at hsum
  rw [unitBytes_eq] at hlen
  rw [← hb.bytes, length_append]
  omega

theorem load_getD (bs : List UInt8) (rest : Nat → UInt8) :
    load (fun i => bs.getD i (rest i)) 0 bs.length = bs := by
  refine ext_getElem load_length fun i h1 h2 => ?_
  simp only [load, getElem_map, getElem_range, Nat.zero_add]
  exact getD_eq_getElem _ _ h2

/-- A write stores its buffer when every unit is stored and there is room for all. -/
theorem wroteAll_iff_stores {z z' : Ztl} {parts : NodeList → List Nat} {c : WriteCall}
    {ans : List MediaAns} {ret : Nat} {maps : List ZrocksMap} (ha : Alloc z parts) (h1 : 1 ≤ c.size)
    (h2 : c.size ≤ znsMaxBuf) (e : zrocksWrite z c ans = .ok (z', ret, maps)) :
    WroteAll z z' c.size maps ↔
      (∀ k < c.ncmd, c.req.Stores k) ∧ Enough z (clampLevel c.level) c.ncmd := by
  have h3 : c.size ≤ 33554432 := h2
  have hncmd : c.ncmd = unitsOf c.size := c.ncmd_eq (by omega)
  obtain ⟨-, ⟨hbig, -⟩ | ⟨-, ps, ok, -, hp, -, rfl, hrc⟩⟩ := zrocksWrite_spec ha e
  · have hle := (WriteCall.ncmd_of_le h1 h2).2.2
    exact absurd hbig (Nat.not_lt_of_le (le_trans hle (by decide)))
  · rw [hncmd] at hp ⊢
    exact hp.wroteAll_iff ha h1 (by omega) (hp.fits ha hrc)

@[simp] theorem World.file_setFile (z : Ztl) (e : Env) (f : ZnsFile) :
    (World.mk z (e.setFile h.znsFile f)).file h = f := update_self _ _ _

theorem HoldsBytes.setFile (hb : HoldsBytes h live w bytes) {g : ZnsFile}
    (hmap : g.map = (w.file h).map)
    (hbs : fileBytes w.z.dev (w.file h).map ++ g.cachedBytes = bs)
    (hle : g.cachedBytes.length ≤ znsMaxBuf) :
    HoldsBytes h live ⟨w.z, w.env.setFile h.znsFile g⟩ bs := by
  refine ⟨hb.alive, ?_, ?_, ?_, ?_⟩ <;> rw [World.file_setFile]
  · rw [hmap]
    exact hb.sound
  · rw [hmap]
    exact hb.lies
  · rw [hmap]
    exact hbs
  · exact hle

theorem HoldsBytes.put (hb : HoldsBytes h live w bytes) {e : Env} (he : cachePut w.env h bs = .ok e) :
    HoldsBytes h live ⟨w.z, e⟩ (bytes ++ bs) ∧ ((World.mk w.z e).file h).size = (w.file h).size ∧
      ((World.mk w.z e).file h).cache.isSome := by
  obtain ⟨c, hc, hle, rfl⟩ := cachePut_eq_ok.mp he
  have hcached : (w.file h).cachedBytes = c := by
    rw [ZnsFile.cachedBytes, World.file, hc]
    rfl
  rw [World.file_setFile]
  refine ⟨hb.setFile (by rfl) ?_ ?_, rfl, rfl⟩
  · rw [← hb.bytes, hcached, append_assoc]
    rfl
  · show (c ++ bs).length ≤ znsMaxBuf
    rwa [length_append]

/-- **A Sync that stores its buffer**: the bytes move from the cache to the pieces. -/
theorem HoldsBytes.sync (hb : HoldsBytes h live w bytes) (hst : SyncStores h w io)
    (hs : Xztl.sync w h io = .ok (w', s)) :
    HoldsBytes h live w' bytes ∧ (w'.file h).size = (w.file h).size ∧ s = .ok ∧
      (w'.file h).cachedBytes = [] ∧ ((w.file h).cache.isSome → (w'.file h).cache.isSome) := by
  obtain ⟨-, ⟨hnil, rfl, rfl⟩ | ⟨hne, rfl, maps, hw, he⟩⟩ := sync_cases hs
  · exact ⟨hb, rfl, rfl, hnil, id⟩
  · obtain ⟨c, hsame⟩ := syncFlush_push he
    obtain ⟨i, hi⟩ := hsame.objs h.znsFile
    rw [Table.objs_set, update_self] at hi
    have hfile : w'.file h = { w.file h with
      map := (w.file h).map ++ maps, currentNid := c, cache := some [], startIndex := i } := hi
    -- the write
    obtain ⟨parts, ha⟩ := hb.sound.alloc
    have h1 : 1 ≤ (io.call (w.file h).cachedBytes (w.file h).level).size :=
      length_pos_iff.mpr hne
    have hall := hst w'.z xztlOk maps hne hw
    obtain ⟨hunits, hen⟩ := (wroteAll_iff_stores ha h1 hb.le hw).mp hall
    obtain ⟨-, hlies, hbytes⟩ := fileBytes_write ha h1 hb.le hunits hen hw
    have hmax := le_trans (WriteCall.ncmd_of_le h1 hb.le).2.2 (show ztlIoRcNum ≤ xztlIoMaxMcmd by decide)
    have hold : ∀ m ∈ (w.file h).map, Lies w'.z m ∧ pieceBytes w'.z.dev m = pieceBytes w.z.dev m :=
      fun m hm => (hb.lies m hm).write ha hmax hunits hw
    have hbuf : load (io.call (w.file h).cachedBytes (w.file h).level).buf 0
        (io.call (w.file h).cachedBytes (w.file h).level).size = (w.file h).cachedBytes :=
      load_getD _ _
    rw [hbuf] at hbytes
    refine ⟨⟨?_, ?_, ?_, ?_, ?_⟩, ?_, rfl, ?_, fun _ => ?_⟩
    · rw [hsame.freed]
      exact hb.alive
    · rw [hfile, ← append_assoc]
      exact hb.sound.write hw
    · rw [hfile]
      intro m hm
      exact (mem_append.mp hm).elim (fun hm => (hold m hm).1) (hlies m)
    · rw [hfile, fileBytes_append, fileBytes_congr fun m hm => (hold m hm).2, hbytes]
      exact (append_nil _).trans hb.bytes
    · rw [hfile]
      exact Nat.zero_le _
    · rw [hfile]
    · rw [hfile]
      rfl
    · rw [hfile]
      rfl

end

/-! ### Append -/

section

variable (P : World → WriteIo → Prop) (h : Handle)

/-- `P` holds of the Sync behind a copy into the cache. -/
def ChunkSyncs (w : World) (bs : List UInt8) (io : WriteIo) : Prop :=
  ∀ e, cachePut w.env h bs = .ok e → P ⟨w.z, e⟩ io

/-- `P` holds of the Syncs in the loop of `Append`. -/
def LoopSyncs : List WriteIo → World → List UInt8 → Prop
  | [], _, _ => True
  | io :: ios, w, data =>
    data.length > znsMaxBuf → ChunkSyncs P h w (data.take znsMaxBuf) io ∧
      ∀ w' s, appendChunk w h (data.take znsMaxBuf) io = .ok (w', s) →
        LoopSyncs ios w' (data.drop znsMaxBuf)

/-- `P` holds of the Syncs in an `Append`. -/
def AppendSyncs (w : World) (data : List UInt8) : List WriteIo → Prop
  | [] => True
  | io :: ios =>
    let size := znsMaxBuf - (w.file h).cachedBytes.length
    (w.file h).cachedBytes.length + data.length > znsMaxBuf →
      ChunkSyncs P h w (data.take size) io ∧
        ∀ w' s, appendChunk w h (data.take size) io = .ok (w', s) →
          LoopSyncs P h ios w' (data.drop size)

end

theorem LoopSyncs.mono {P Q : World → WriteIo → Prop} {h : Handle} (hPQ : ∀ w io, P w io → Q w io)
    (ios : List WriteIo) : ∀ {w : World} {data : List UInt8},
    LoopSyncs P h ios w data → LoopSyncs Q h ios w data := by
  induction ios with
  | nil => exact fun _ => trivial
  | cons io ios ih =>
    intro w data hl hbig
    obtain ⟨hc, hrest⟩ := hl hbig
    exact ⟨fun e he => hPQ _ _ (hc e he), fun w' s hs => ih (hrest w' s hs)⟩

theorem AppendSyncs.mono {P Q : World → WriteIo → Prop} {h : Handle} {w : World} {data : List UInt8}
    {ios : List WriteIo} (ha : AppendSyncs P h w data ios) (hPQ : ∀ w io, P w io → Q w io) :
    AppendSyncs Q h w data ios := by
  cases ios with
  | nil => trivial
  | cons io ios =>
    intro hbig
    obtain ⟨hc, hrest⟩ := ha hbig
    exact ⟨fun e he => hPQ _ _ (hc e he), fun w' s hs => (hrest w' s hs).mono hPQ⟩

section

variable {h : Handle} {live : List ZrocksMap} {w w' : World} {bytes bs data rest : List UInt8}
  {s : Status} {io : WriteIo} {ios : List WriteIo}

theorem HoldsBytes.appendChunk (hb : HoldsBytes h live w bytes)
    (hst : ChunkSyncs (SyncStores h) h w bs io) (hs : Xztl.appendChunk w h bs io = .ok (w', s)) :
    HoldsBytes h live w' (bytes ++ bs) ∧ (w'.file h).size = (w.file h).size ∧ s = .ok := by
  obtain ⟨e, he, hs⟩ := bind_eq_ok.mp hs
  obtain ⟨hput, hsize, -⟩ := hb.put he
  obtain ⟨hsync, hsize', hok, -⟩ := hput.sync (hst e he) hs
  exact ⟨hsync, hsize'.trans hsize, hok⟩

/-- **The loop of `Append`**: what is not left of the data is held. -/
theorem HoldsBytes.appendLoop (ios : List WriteIo) : ∀ {w : World} {bytes data : List UInt8},
    HoldsBytes h live w bytes → LoopSyncs (SyncStores h) h ios w data →
    Xztl.appendLoop h ios w data = .ok (w', s, rest) →
    s = .ok ∧ (w'.file h).size = (w.file h).size ∧
      ∃ done, data = done ++ rest ∧ HoldsBytes h live w' (bytes ++ done) := by
  induction ios with
  | nil =>
    intro w bytes data hb _ hs
    rw [Xztl.appendLoop] at hs
    split at hs
    · cases hs
    · cases hs
      exact ⟨rfl, rfl, [], rfl, by rwa [append_nil]⟩
  | cons io ios ih =>
    intro w bytes data hb hst hs
    rw [Xztl.appendLoop] at hs
    split at hs
    · next hbig =>
        obtain ⟨hchunk, hloop⟩ := hst hbig
        obtain ⟨⟨w1, s1⟩, hc, hs⟩ := bind_eq_ok.mp hs
        obtain ⟨hb1, hsize1, rfl⟩ := hb.appendChunk hchunk hc
        obtain ⟨hok, hsize, done, hdone, hb'⟩ := ih hb1 (hloop w1 _ hc) hs
        refine ⟨hok, hsize.trans hsize1, data.take znsMaxBuf ++ done, ?_, ?_⟩
        · rw [append_assoc, ← hdone, take_append_drop]
        · rwa [← append_assoc]
    · cases hs
      exact ⟨rfl, rfl, [], rfl, by rwa [append_nil]⟩

section

variable (hb : HoldsBytes h live w bytes)
include hb

theorem HoldsBytes.appendFill (hst : AppendSyncs (SyncStores h) h w data ios)
    (hs : Xztl.appendFill w h (w.file h).cachedBytes.length data ios = .ok (w', s, rest)) :
    s = .ok ∧ (w'.file h).size = (w.file h).size ∧
      ∃ done, data = done ++ rest ∧ HoldsBytes h live w' (bytes ++ done) := by
  rw [Xztl.appendFill] at hs
  split at hs
  · next hbig =>
      cases ios with
      | nil => cases hs
      | cons io ios =>
        obtain ⟨hchunk, hloop⟩ := hst hbig
        obtain ⟨⟨w1, s1⟩, hc, hs⟩ := bind_eq_ok.mp hs
        obtain ⟨hb1, hsize1, rfl⟩ := hb.appendChunk hchunk hc
        obtain ⟨hok, hsize, done, hdone, hb'⟩ := hb1.appendLoop ios (hloop w1 _ hc) hs
        refine ⟨hok, hsize.trans hsize1,
          data.take (znsMaxBuf - (w.file h).cachedBytes.length) ++ done, ?_, ?_⟩
        · rw [append_assoc, ← hdone, take_append_drop]
        · rwa [← append_assoc]
  · cases hs
    exact ⟨rfl, rfl, [], rfl, by rwa [append_nil]⟩

theorem HoldsBytes.append (hopen : (w.file h).cache.isSome)
    (hst : AppendSyncs (SyncStores h) h w data ios) (hs : Xztl.append w h data ios = .ok (w', s)) :
    HoldsBytes h live w' (bytes ++ data) ∧
      (w'.file h).size = ((w.file h).size + data.length) % 2 ^ 64 ∧ (w'.file h).cache.isSome := by
  obtain ⟨f, hf, hs⟩ := bind_eq_ok.mp hs
  rw [Table.get, if_neg (by rw [hb.alive]; decide)] at hf
  cases hf
  obtain ⟨c, hc⟩ := isSome_iff_exists.mp hopen
  have hc' : (w.env.tbl.objs h.znsFile).cache = some c := hc
  rw [hc'] at hs
  obtain ⟨⟨w1, s1, left⟩, hfill, hs⟩ := bind_eq_ok.mp hs
  have hcached : c = (w.file h).cachedBytes := by
    rw [ZnsFile.cachedBytes, hc]
    rfl
  rw [hcached] at hfill
  obtain ⟨rfl, hsize, done, rfl, hb1⟩ := hb.appendFill hst hfill
  obtain ⟨e, he, hs⟩ := bind_eq_ok.mp hs
  cases hs
  obtain ⟨hput, hsize', hopen'⟩ := hb1.put he
  have hgrow : growSize e h (done ++ left).length = e.setFile h.znsFile
    { (World.mk w1.z e).file h with
      size := (((World.mk w1.z e).file h).size + (done ++ left).length) % 2 ^ 64 } := rfl
  rw [hgrow, World.file_setFile, ← append_assoc]
  exact ⟨hput.setFile rfl hput.bytes hput.le, by rw [hsize', hsize], hopen'⟩

/-- **A Truncate** whose tail is still cached. -/
theorem HoldsBytes.truncate (hsize : (w.file h).size = bytes.length) {n : Nat}
    (hn : n ≤ bytes.length) (htail : bytes.length - n ≤ (w.file h).cachedBytes.length) {e : Env}
    (he : Xztl.truncate w.env h n = .ok e) :
    HoldsBytes h live ⟨w.z, e⟩ (bytes.take n) ∧
      ((World.mk w.z e).file h).size = (bytes.take n).length ∧
      (((World.mk w.z e).file h).cache.isSome ↔ (w.file h).cache.isSome) := by
  obtain ⟨f, hf, he⟩ := bind_eq_ok.mp he
  rw [Table.get, if_neg (by rw [hb.alive]; decide)] at hf
  cases hf
  have hlt := hb.length_lt
  have htrun : ((w.file h).size + 2 ^ 64 - n) % 2 ^ 64 = bytes.length - n := by
    rw [hsize]
    omega
  have he : (if (w.file h).cachedBytes.length < ((w.file h).size + 2 ^ 64 - n) % 2 ^ 64 then
      Except.ok w.env
    else .ok (w.env.setFile h.znsFile { w.file h with
      cache := (w.file h).cache.map fun c => c.take ((w.file h).cachedBytes.length
        - ((w.file h).size + 2 ^ 64 - n) % 2 ^ 64)
      size := n })) = Except.ok e := he
  rw [htrun, if_neg (Nat.not_lt_of_le htail)] at he
  cases he
  rw [World.file_setFile]
  have hlen : bytes.length = (fileBytes w.z.dev (w.file h).map).length
      + (w.file h).cachedBytes.length := by rw [← hb.bytes, length_append]
  have hcached : ∀ k, ((w.file h).cache.map fun c => c.take k).getD []
      = (w.file h).cachedBytes.take k := by
    intro k
    rw [ZnsFile.cachedBytes]
    cases (w.file h).cache with
    | none => exact take_nil.symm
    | some c => rfl
  refine ⟨hb.setFile rfl ?_ ?_, ?_, ?_⟩
  · -- the cut is behind the bytes of the pieces
    have hle : (fileBytes w.z.dev (w.file h).map).length ≤ n := by omega
    have hcut : (w.file h).cachedBytes.length - (bytes.length - n)
        = n - (fileBytes w.z.dev (w.file h).map).length := by omega
    have htake : bytes.take n = fileBytes w.z.dev (w.file h).map
        ++ (w.file h).cachedBytes.take (n - (fileBytes w.z.dev (w.file h).map).length) := by
      rw [← hb.bytes, take_append, take_of_length_le hle]
    rw [htake, ← hcut]
    exact congrArg _ (hcached _)
  · refine le_trans ?_ hb.le
    rw [ZnsFile.cachedBytes, hcached]
    exact length_take_le' _ _
  · rw [length_take, Nat.min_eq_left hn]
  · rw [isSome_map]

theorem HoldsBytes.close (hst : SyncStores h w io) (hs : Xztl.close w h io = .ok w') :
    HoldsBytes h live w' bytes ∧ (w'.file h).size = (w.file h).size ∧ (w'.file h).cache = none := by
  obtain ⟨⟨w1, s1⟩, hsync, hs⟩ := bind_eq_ok.mp hs
  cases hs
  obtain ⟨hb1, hsize, -, hnil, -⟩ := hb.sync hst hsync
  have hrel : release w1.env h = w1.env.setFile h.znsFile
    { w1.file h with cache := none, isWriting := false } := rfl
  have hbytes := hb1.bytes
  rw [hnil] at hbytes
  rw [hrel, World.file_setFile]
  exact ⟨hb1.setFile rfl hbytes (Nat.zero_le _), hsize, rfl⟩

end

end

/-! ### When an Append returns -/

/-- A Sync returns. -/
def SyncReturns (h : Handle) (w : World) (io : WriteIo) : Prop := ∃ r, sync w h io = .ok r

/-- The file is there, and `c` is in its cache. -/
structure OpenWith (h : Handle) (c : List UInt8) (w : World) : Prop where
  alive : w.env.tbl.freed h.znsFile = false
  cache : (w.file h).cache = some c

section

variable {h : Handle} {w : World} {c bs data : List UInt8} {io : WriteIo} {ios : List WriteIo}

/-- Bytes for which there is room in the cache are copied. -/
theorem OpenWith.put (ho : OpenWith h c w) (hfit : c.length + bs.length ≤ znsMaxBuf) :
    ∃ e, cachePut w.env h bs = .ok e ∧ OpenWith h (c ++ bs) ⟨w.z, e⟩ := by
  refine ⟨_, cachePut_eq_ok.mpr ⟨c, ho.cache, hfit, rfl⟩, ho.alive, ?_⟩
  rw [World.file_setFile]

/-- A Sync that returns leaves an empty cache. -/
theorem OpenWith.sync (ho : OpenWith h c w) (hs : SyncReturns h w io) :
    ∃ w', Xztl.sync w h io = .ok (w', .ok) ∧ OpenWith h [] w' := by
  obtain ⟨⟨w', s⟩, hs⟩ := hs
  obtain ⟨-, ⟨hnil, rfl, rfl⟩ | ⟨-, rfl, maps, -, he⟩⟩ := sync_cases hs
  · have hc : (w'.env.tbl.objs h.znsFile).cache = some c := ho.cache
    rw [hc, getD_some] at hnil
    exact ⟨w', hs, hnil ▸ ho⟩
  · obtain ⟨cn, hsame⟩ := syncFlush_push he
    obtain ⟨i, hi⟩ := hsame.objs h.znsFile
    rw [Table.objs_set, update_self] at hi
    refine ⟨w', hs, ?_, ?_⟩
    · rw [hsame.freed]
      exact ho.alive
    · rw [World.file, hi]

theorem OpenWith.appendChunk (ho : OpenWith h c w) (hfit : c.length + bs.length ≤ znsMaxBuf)
    (hs : ChunkSyncs (SyncReturns h) h w bs io) :
    ∃ w', Xztl.appendChunk w h bs io = .ok (w', .ok) ∧ OpenWith h [] w' := by
  obtain ⟨e, he, ho'⟩ := ho.put hfit
  obtain ⟨w', hw', hnil⟩ := ho'.sync (hs e he)
  exact ⟨w', bind_eq_ok.mpr ⟨e, he, hw'⟩, hnil⟩

/-- **The loop of `Append`** comes to an end when there is an answer for every full buffer, and what is
left of the data fits the empty cache. -/
theorem OpenWith.appendLoop (ios : List WriteIo) : ∀ {w : World} {data : List UInt8},
    OpenWith h [] w → LoopSyncs (SyncReturns h) h ios w data →
    data.length ≤ znsMaxBuf * (ios.length + 1) →
    ∃ w' rest, Xztl.appendLoop h ios w data = .ok (w', .ok, rest) ∧ rest.length ≤ znsMaxBuf ∧
      (data ≠ [] → rest ≠ []) ∧ (∃ k, data.length = znsMaxBuf * k + rest.length) ∧
      OpenWith h [] w' := by
  induction ios with
  | nil =>
    intro w data ho _ hlen
    have hle : data.length ≤ znsMaxBuf := by simpa using hlen
    exact ⟨w, data, if_neg (Nat.not_lt_of_le hle), hle, id, ⟨0, by omega⟩, ho⟩
  | cons io ios ih =>
    intro w data ho hs hlen
    rw [Xztl.appendLoop]
    by_cases hbig : data.length > znsMaxBuf
    · obtain ⟨hchunk, hloop⟩ := hs hbig
      have htake : ([] : List UInt8).length + (data.take znsMaxBuf).length ≤ znsMaxBuf := by
        rw [length_nil, Nat.zero_add]
        exact length_take_le _ _
      obtain ⟨w1, hw1, ho1⟩ := ho.appendChunk htake hchunk
      have hdrop : (data.drop znsMaxBuf).length ≤ znsMaxBuf * (ios.length + 1) := by
        rw [length_cons, Nat.mul_succ] at hlen
        rw [length_drop]
        omega
      obtain ⟨w', rest, he, hrest, hne, ⟨k, hk⟩, ho'⟩ := ih ho1 (hloop w1 _ hw1) hdrop
      rw [length_drop] at hk
      refine ⟨w', rest, ?_, hrest, fun _ => hne (ne_nil_of_length_pos ?_), ⟨k + 1, ?_⟩, ho'⟩
      · rw [if_pos hbig]
        exact bind_eq_ok.mpr ⟨_, hw1, he⟩
      · rw [length_drop]
        exact Nat.sub_pos_of_lt hbig
      · rw [Nat.mul_succ]
        omega
    · exact ⟨w, data, if_neg hbig, Nat.le_of_not_lt hbig, id, ⟨0, by omega⟩, ho⟩

/-- **An Append returns** when its Syncs do and there is an answer for every buffer that it fills: no
copy of it goes past the end of the cache.  Full buffers have gone out, and the rest is cached. -/
theorem OpenWith.append (ho : OpenWith h c w) (hle : c.length ≤ znsMaxBuf)
    (hs : AppendSyncs (SyncReturns h) h w data ios)
    (hlen : c.length + data.length ≤ znsMaxBuf * (ios.length + 1)) :
    ∃ w' c' k, Xztl.append w h data ios = .ok (w', .ok) ∧ OpenWith h c' w' ∧
      (data ≠ [] → c' ≠ []) ∧ c'.length ≤ znsMaxBuf ∧
      c.length + data.length = znsMaxBuf * k + c'.length := by
  have hcached : (w.file h).cachedBytes = c := by rw [ZnsFile.cachedBytes, ho.cache, getD_some]
  obtain ⟨w1, rest, c1, k, hfill, ho1, hfit, hne, hk⟩ : ∃ w1 rest c1 k,
      appendFill w h c.length data ios = .ok (w1, .ok, rest) ∧ OpenWith h c1 w1 ∧
      c1.length + rest.length ≤ znsMaxBuf ∧ (data ≠ [] → rest ≠ []) ∧
      c.length + data.length = znsMaxBuf * k + (c1.length + rest.length) := by
    rw [appendFill]
    by_cases hbig : c.length + data.length > znsMaxBuf
    · rw [if_pos hbig]
      cases ios with
      | nil =>
        rw [length_nil, Nat.zero_add, Nat.mul_one] at hlen
        exact absurd hlen (Nat.not_le_of_lt hbig)
      | cons io ios =>
        -- the cache is filled up, and the loop begins with an empty one
        obtain ⟨hchunk, hloop⟩ := hs (by rw [hcached]; exact hbig)
        rw [hcached] at hchunk hloop
        have htake : c.length + (data.take (znsMaxBuf - c.length)).length ≤ znsMaxBuf := by
          rw [length_take]
          omega
        obtain ⟨w1, hw1, ho1⟩ := ho.appendChunk htake hchunk
        have hdrop : (data.drop (znsMaxBuf - c.length)).length ≤ znsMaxBuf * (ios.length + 1) := by
          rw [length_cons, Nat.mul_succ] at hlen
          rw [length_drop]
          omega
        obtain ⟨w', rest, he, hrest, hne, ⟨k, hk⟩, ho'⟩ := ho1.appendLoop ios (hloop w1 _ hw1) hdrop
        rw [length_drop] at hk
        refine ⟨w', rest, [], k + 1, bind_eq_ok.mpr ⟨_, hw1, he⟩, ho', by rwa [length_nil, Nat.zero_add],
          fun _ => hne (ne_nil_of_length_pos ?_), ?_⟩
        · rw [length_drop]
          omega
        · rw [Nat.mul_succ, length_nil]
          omega
    · rw [if_neg hbig]
      exact ⟨w, data, c, 0, rfl, ho, Nat.le_of_not_lt hbig, id, by omega⟩
  obtain ⟨e, he, hput⟩ := ho1.put hfit
  have hget : w.env.tbl.get h.znsFile = .ok (w.file h) := if_neg (by rw [ho.alive]; decide)
  refine ⟨⟨w1.z, growSize e h data.length⟩, c1 ++ rest, k, bind_eq_ok.mpr ⟨_, hget, ?_⟩,
    ⟨hput.alive, ?_⟩, fun h0 => append_ne_nil_of_right_ne_nil _ (hne h0), by rwa [length_append],
    by rwa [length_append]⟩
  · simp only [ho.cache]
    exact bind_eq_ok.mpr ⟨_, hfill, bind_eq_ok.mpr ⟨e, he, rfl⟩⟩
  · rw [growSize, World.file_setFile]
    exact hput.cache

end

/-! ### What the log has -/

/-- All pieces of the file are recorded, and its last record has this size. -/
structure LastRecord (h : Handle) (w : World) (size : Option Nat) : Prop where
  tidy : w.env.tbl.Tidy
  find : w.env.tbl.find h.fileName = some h.znsFile
  marked : (w.file h).startIndex = (w.file h).map.length
  log : ∃ seq recs, Logged w.env seq recs ∧
    (Contents.replay recs h.fileName).map FileRec.size = size

/-- A Sync succeeds: it stores its buffer in full, and the files fit the buffer of a snapshot, should
the record need one. -/
structure SyncOk (h : Handle) (w : World) (io : WriteIo) : Prop where
  stores : SyncStores h w io
  fits : ∀ z ret maps,
    zrocksWrite w.z (io.call (w.file h).cachedBytes (w.file h).level) io.ans = .ok (z, ret, maps) →
    SnapOk (pushPieces h w.env maps).tbl

section

variable {f : ZnsFile} {e : Env} {h : Handle} {live : List ZrocksMap} {w w' : World}
  {bytes bs : List UInt8} {io : WriteIo} {s : Status} {n : Option Nat}

theorem LastRecord.touch (hr : LastRecord h w n) (hname : f.name = (w.file h).name)
    (hmap : f.map = (w.file h).map) (hi : f.startIndex = (w.file h).startIndex) :
    LastRecord h ⟨w.z, w.env.setFile h.znsFile f⟩ n where
  tidy := hr.tidy.set hname
  find := hr.find
  marked := by
    rw [World.file_setFile, hmap, hi]
    exact hr.marked
  log := by
    obtain ⟨seq, recs, hl, hsize⟩ := hr.log
    exact ⟨seq, recs, hl.setTbl _, hsize⟩

theorem cachePut_cachedBytes (he : cachePut w.env h bs = .ok e) :
    ((World.mk w.z e).file h).cachedBytes = (w.file h).cachedBytes ++ bs := by
  obtain ⟨c, hc, -, rfl⟩ := cachePut_eq_ok.mp he
  rw [World.file_setFile, ZnsFile.cachedBytes, ZnsFile.cachedBytes, World.file, hc]
  rfl

theorem LastRecord.put (hr : LastRecord h w n) (he : cachePut w.env h bs = .ok e) :
    LastRecord h ⟨w.z, e⟩ n := by
  obtain ⟨c, -, -, rfl⟩ := cachePut_eq_ok.mp he
  exact hr.touch rfl rfl rfl

/-- The pieces of a write that stores its buffer: one or two. -/
theorem WroteAll.maps_length {z z' : Ztl} {parts : NodeList → List Nat} {c : WriteCall}
    {ans : List MediaAns} {ret : Nat} {maps : List ZrocksMap} (ha : Alloc z parts) (h1 : 1 ≤ c.size)
    (h2 : c.size ≤ znsMaxBuf) (hall : WroteAll z z' c.size maps)
    (e : zrocksWrite z c ans = .ok (z', ret, maps)) : maps ≠ [] ∧ maps.length ≤ ucmdPieceNum := by
  refine ⟨?_, ?_⟩
  · rintro rfl
    have hsize := hall.size
    have hzero : ((unitBytes * mapUnits [] : Nat) : Int) - lastPadding [] = 0 := rfl
    omega
  · have hle := (WriteCall.ncmd_of_le h1 h2).2.2
    obtain ⟨-, ⟨-, -, rfl⟩ | ⟨-, ps, ok, -, hp, -, rfl, -⟩⟩ := zrocksWrite_spec ha e
    · exact Nat.zero_le _
    · rw [toMaps_length]
      have hlen := hp.length_le ha (le_trans hle (by decide))
      have htwo : (if z.room c.req.provType = 0 then 1 else ucmdPieceNum) ≤ ucmdPieceNum := by
        split <;> decide
      exact le_trans hlen htwo

/-- **The end of a Sync** that has pieces: they are recorded with the size the file has. -/
theorem LastRecord.flush (hr : LastRecord h w n) {maps : List ZrocksMap} (hmaps : maps ≠ [])
    (hlen : maps.length ≤ ucmdPieceNum) (hsnap : SnapOk (pushPieces h w.env maps).tbl) :
    ∃ e', syncFlush h (pushPieces h w.env maps) = .ok e' ∧
      ∀ z, LastRecord h ⟨z, e'⟩ (some ((w.file h).size % 2 ^ 64)) := by
  obtain ⟨f, hp⟩ := exists_pushed h maps w.env
  generalize pushPieces h w.env maps = e1 at hsnap hp ⊢
  obtain ⟨c, hf⟩ := hp.file
  have hobj := hp.obj
  have hname : f.name = h.fileName := by
    rw [hf]
    exact hr.tidy.name hr.find
  have hfind := (hp.find _).trans hr.find
  have htidy : (e1.tbl.set h.znsFile (e1.tbl.objs h.znsFile).marked).Tidy := (hp.tidy hr.tidy).set rfl
  have hdrop : f.map.drop f.startIndex = maps := by
    have hi : f.startIndex = (w.env.tbl.objs h.znsFile).map.length := by
      rw [hf]
      exact hr.marked
    rw [hi, hf]
    exact drop_left
  -- the record
  obtain ⟨seq, recs, hl, -⟩ := hr.log
  have hl1 : Logged e1 seq recs := ⟨hp.md ▸ hl.log, hp.sequence ▸ hl.sequence⟩
  have hidx : (e1.tbl.objs h.znsFile).startIndex ≠ (e1.tbl.objs h.znsFile).map.length := by
    rw [hobj]
    intro hi
    rw [hi, drop_length] at hdrop
    exact hmaps hdrop.symm
  obtain ⟨e2, seq', recs', hupd, -, hfl, hl2⟩ := hl1.flushUpdate hidx (hsnap.live _ _ hfind).2
    (by rw [hobj, hdrop]; exact hlen.trans (by decide)) (hsnap.same (.marked _ _))
  have hfind2 : (e1.tbl.set h.znsFile (e1.tbl.objs h.znsFile).marked).find h.fileName
    = some h.znsFile := hfind
  -- the file is marked, by the record or by the snapshot
  have hmark : e2.tbl.objs h.znsFile = f.marked := by
    cases hfl with
    | append room tbl curr =>
      rw [tbl, ← hobj]
      exact update_self _ _ _
    | snapshot full tbl kept =>
      refine ((congrArg (Table.objs · h.znsFile) tbl).trans (objs_recorded hfind2)).trans ?_
      rw [objs_set, update_self, hobj]
      rfl
  have hsize : (Contents.replay recs' h.fileName).map FileRec.size = some (f.size % 2 ^ 64) := by
    cases hfl with
    | append room tbl curr =>
      rw [Contents.replay_append, hobj]
      show (((Contents.replay recs).recover (f.entry f.startIndex) false) h.fileName).map _ = _
      rw [← hname, show f.name = (f.entry f.startIndex).name from rfl, Contents.recover_self]
      rfl
    | snapshot full tbl kept =>
      rw [htidy.replay_snapshot, hfind2, hobj]
      show some (((update e1.tbl.objs h.znsFile f.marked h.znsFile).entry 0).size) = _
      rw [update_self]
      rfl
  refine ⟨_, bind_eq_ok.mpr ⟨e2, hupd, rfl⟩, fun z => ?_⟩
  have hrec : LastRecord h ⟨z, e2⟩ (some (f.size % 2 ^ 64)) := by
    refine ⟨htidy.same hfl.same, ?_, ?_, seq', recs', hl2, hsize⟩
    · rw [hfl.same.find]
      exact hfind
    · show (e2.tbl.objs h.znsFile).startIndex = (e2.tbl.objs h.znsFile).map.length
      rw [hmark]
      rfl
  rw [hf] at hrec
  exact hrec.touch rfl rfl rfl

/-- **A Sync that writes** records the size the file has. -/
theorem LastRecord.sync (hr : LastRecord h w n) (hb : HoldsBytes h live w bytes)
    (hok : SyncOk h w io) (hne : (w.file h).cachedBytes ≠ [])
    (hs : Xztl.sync w h io = .ok (w', s)) :
    LastRecord h w' (some ((w.file h).size % 2 ^ 64)) := by
  obtain ⟨-, ⟨hnil, -⟩ | ⟨-, rfl, maps, hw, he⟩⟩ := sync_cases hs
  · exact absurd hnil hne
  obtain ⟨parts, ha⟩ := hb.sound.alloc
  have hpos : 1 ≤ (io.call (w.file h).cachedBytes (w.file h).level).size :=
    length_pos_iff.mpr hne
  obtain ⟨hmaps, hlen⟩ := (hok.stores w'.z xztlOk maps hne hw).maps_length ha hpos hb.le hw
  obtain ⟨e', he', hrec⟩ := hr.flush hmaps hlen (hok.fits w'.z xztlOk maps hw)
  cases he'.symm.trans he
  exact hrec w'.z

/-- There is room for `k` buffers in the node of the file's queue, or in its next node. -/
def World.Roomy (h : Handle) (k : Nat) (w : World) : Prop :=
  ∀ u ≤ ztlIoRcNum * k, Enough w.z (clampLevel (w.file h).level) u ∧
    u ≤ w.z.nextRoom (clampLevel (w.file h).level)

/-- A Sync can succeed when there is room for a buffer on the device, and for its piece in the buffer
of a snapshot. -/
theorem LastRecord.exists_sync {k : Nat} (hr : LastRecord h w n) (hb : HoldsBytes h live w bytes)
    (hne : (w.file h).cachedBytes ≠ []) (hroom : w.Roomy h (k + 1))
    (hsnap : ∀ m, SnapOk (pushPieces h w.env [m]).tbl) :
    ∃ io w' m, SyncOk h w io ∧ Xztl.sync w h io = .ok (w', .ok) ∧ w'.Roomy h k ∧
      syncFlush h (pushPieces h w.env [m]) = .ok w'.env := by
  obtain ⟨parts, ha⟩ := hb.sound.alloc
  obtain ⟨c, hc⟩ : ∃ c, c = (WriteIo.mk (fun _ => 0) (fun _ _ => 0) []).call
    (w.file h).cachedBytes (w.file h).level := ⟨_, rfl⟩
  have hpos : 1 ≤ c.size := by
    rw [hc]
    exact length_pos_iff.mpr hne
  have hle : c.size ≤ znsMaxBuf := by
    rw [hc]
    exact hb.le
  have hlevel : c.level = (w.file h).level := by rw [hc]; rfl
  obtain ⟨-, hcmd, hrc⟩ := WriteCall.ncmd_of_le hpos hle
  obtain ⟨hen, hfit⟩ := hroom c.ncmd (le_trans hrc (Nat.le_mul_of_pos_right _ (Nat.succ_pos k)))
  obtain ⟨ans, z', m, hw, -, -, -, hleft⟩ := exists_wholeWrite ha (by omega) hrc
    (by rwa [hlevel]) (by rwa [hlevel])
  have hstores : ∀ k < c.ncmd, c.req.Stores k := by
    intro k _
    rw [hc]
    exact ⟨0, by decide, rfl⟩
  have hall : WroteAll w.z z' c.size [m] := (wroteAll_iff_stores ha hpos hle hw).mpr
    ⟨hstores, by rwa [hlevel]⟩
  obtain ⟨e', he', -⟩ := hr.flush (cons_ne_nil m []) (show 1 ≤ ucmdPieceNum by decide) (hsnap m)
  refine ⟨⟨fun _ => 0, fun _ _ => 0, ans⟩, ⟨z', e'⟩, m, ⟨fun z1 ret1 maps1 _ hw1 => ?_,
    fun z1 ret1 maps1 hw1 => ?_⟩, sync_ok (if_neg (by rw [hb.alive]; decide)) hne ?_ he',
    fun u hu => ?_, he'⟩
  · rw [hc] at hw hall
    cases hw.symm.trans hw1
    exact hall
  · rw [hc] at hw
    cases hw.symm.trans hw1
    exact hsnap m
  · rw [hc] at hw
    exact hw
  · -- what is not written is left
    obtain ⟨cn, hsame⟩ := syncFlush_push he'
    obtain ⟨i, hi⟩ := hsame.objs h.znsFile
    rw [Table.objs_set, update_self] at hi
    have hlevel' : ((World.mk z' e').file h).level = (w.file h).level := by
      rw [World.file, hi]
      rfl
    obtain ⟨-, hall⟩ := hroom (ztlIoRcNum * (k + 1)) le_rfl
    rw [hlevel] at hleft
    rw [Nat.mul_succ] at hall
    have hu' : u ≤ z'.room (clampLevel (w.file h).level) := by omega
    rw [hlevel']
    refine ⟨Or.inl hu', ?_⟩
    show u ≤ z'.nextRoom _
    rw [Ztl.nextRoom]
    split <;> omega

end

/-- A Truncate of bytes that are cached. -/
theorem truncate_cut {e : Env} {f : ZnsFile} {h : Handle} {size c k : Nat}
    (hf : e.tbl.get h.znsFile = .ok f) (hc : f.cachedBytes.length = c)
    (hk : (f.size + 2 ^ 64 - size) % 2 ^ 64 = k) (hle : k ≤ c) :
    truncate e h size = .ok (e.setFile h.znsFile
      { f with cache := f.cache.map fun x => x.take (c - k), size := size }) := by
  subst hc hk
  exact bind_eq_ok.mpr ⟨f, hf, if_neg (Nat.not_lt_of_le hle)⟩

/-! ### Runs of calls -/

/-- A call on a file open for writing. -/
inductive FileCall where
  | append (data : List UInt8) (ios : List WriteIo)
  | sync (io : WriteIo)
  | fsync (io : WriteIo)
  | truncate (size : Nat)
  | close (io : WriteIo)

/-- The call. -/
def FileCall.run (h : Handle) (w : World) : FileCall → Except Stop World
  | append data ios => do return (← Xztl.append w h data ios).1
  | sync io => do return (← Xztl.sync w h io).1
  | fsync io => do return (← Xztl.fsync w h io).1
  | truncate size => do return ⟨w.z, ← Xztl.truncate w.env h size⟩
  | close io => Xztl.close w h io

/-- What it does to a plain file. -/
def FileCall.plain (bytes : List UInt8) : FileCall → List UInt8
  | append data _ => bytes ++ data
  | truncate size => bytes.take size
  | _ => bytes

/-- The state, and the bytes of a plain file after the same calls. -/
structure FileRun where
  world : World
  bytes : List UInt8

def FileRun.step (h : Handle) (s : FileRun) (a : FileCall) : Option FileRun :=
  (a.run h s.world).toOption.map fun w => ⟨w, a.plain s.bytes⟩

/-- The file is open, the writes store their buffers, and what a Truncate takes back is cached. -/
def FileCall.Allowed (h : Handle) (s : FileRun) (a : FileCall) : Prop :=
  (s.world.file h).cache.isSome ∧ match a with
    | append data ios => AppendSyncs (SyncStores h) h s.world data ios
    | sync io | fsync io | close io => SyncStores h s.world io
    | truncate size => size ≤ s.bytes.length ∧
        s.bytes.length - size ≤ (s.world.file h).cachedBytes.length

/-- Nothing outside keeps the call from returning: its Syncs return, and an Append has an answer for
each of them. -/
def FileCall.Served (h : Handle) (w : World) : FileCall → Prop
  | append data ios => AppendSyncs (SyncReturns h) h w data ios ∧
      (w.file h).cachedBytes.length + data.length ≤ znsMaxBuf * (ios.length + 1)
  | sync io | fsync io | close io => SyncReturns h w io
  | truncate _ => True

/-- The relation between calls. -/
structure FileRun.Inv (h : Handle) (live : List ZrocksMap) (s : FileRun) : Prop where
  holds : HoldsBytes h live s.world s.bytes
  size : (s.world.file h).size = s.bytes.length

section

variable {h : Handle} {live : List ZrocksMap} {s s' : FileRun} {a : FileCall}

theorem FileRun.Inv.step (hi : s.Inv h live) (ha : a.Allowed h s) (hs : s.step h a = some s') :
    s'.Inv h live := by
  obtain ⟨w, hw, rfl⟩ := map_eq_some_iff.mp hs
  have hw := toOption_eq_some.mp hw
  obtain ⟨hopen, ha⟩ := ha
  cases a with
  | append data ios =>
    obtain ⟨⟨w', st⟩, hw', hw⟩ := bind_eq_ok.mp hw
    cases hw
    obtain ⟨hb, hsize, -⟩ := hi.holds.append hopen ha hw'
    refine ⟨hb, hsize.trans ?_⟩
    rw [hi.size, ← length_append]
    exact Nat.mod_eq_of_lt hb.length_lt
  | sync io =>
    obtain ⟨⟨w', st⟩, hw', hw⟩ := bind_eq_ok.mp hw
    cases hw
    obtain ⟨hb, hsize, -⟩ := hi.holds.sync ha hw'
    exact ⟨hb, hsize.trans hi.size⟩
  | fsync io =>
    obtain ⟨⟨w', st⟩, hw', hw⟩ := bind_eq_ok.mp hw
    cases hw
    obtain ⟨hb, hsize, -⟩ := hi.holds.sync ha hw'
    exact ⟨hb, hsize.trans hi.size⟩
  | truncate size =>
    obtain ⟨e, he, hw⟩ := bind_eq_ok.mp hw
    cases hw
    obtain ⟨hb, hsize, -⟩ := hi.holds.truncate hi.size ha.1 ha.2 he
    exact ⟨hb, hsize⟩
  | close io =>
    obtain ⟨hb, hsize, -⟩ := hi.holds.close ha hw
    exact ⟨hb, hsize.trans hi.size⟩

theorem FileRun.Inv.returns (hi : s.Inv h live) (hopen : (s.world.file h).cache.isSome)
    (ha : a.Served h s.world) : ∃ s', s.step h a = some s' := by
  obtain ⟨c, hc⟩ := isSome_iff_exists.mp hopen
  have ho : OpenWith h c s.world := ⟨hi.holds.alive, hc⟩
  have hcached : (s.world.file h).cachedBytes = c := by rw [ZnsFile.cachedBytes, hc, getD_some]
  obtain ⟨w, hw⟩ : ∃ w, a.run h s.world = .ok w := by
    cases a with
    | append data ios =>
      obtain ⟨hs, hlen⟩ := ha
      rw [hcached] at hlen
      obtain ⟨w, -, -, hw, -⟩ := ho.append (hcached ▸ hi.holds.le) hs hlen
      exact ⟨w, bind_eq_ok.mpr ⟨_, hw, rfl⟩⟩
    | sync io =>
      obtain ⟨w, hw, -⟩ := ho.sync ha
      exact ⟨w, bind_eq_ok.mpr ⟨_, hw, rfl⟩⟩
    | fsync io =>
      obtain ⟨w, hw, -⟩ := ho.sync ha
      exact ⟨w, bind_eq_ok.mpr ⟨_, hw, rfl⟩⟩
    | truncate size =>
      have hget : s.world.env.tbl.get h.znsFile = .ok (s.world.file h) :=
        if_neg (by rw [ho.alive]; decide)
      obtain ⟨e, he⟩ : ∃ e, Xztl.truncate s.world.env h size = .ok e := by
        by_cases hlt : (s.world.file h).cachedBytes.length
            < ((s.world.file h).size + 2 ^ 64 - size) % 2 ^ 64
        · exact ⟨s.world.env, bind_eq_ok.mpr ⟨_, hget, if_pos hlt⟩⟩
        · exact ⟨_, truncate_cut hget rfl rfl (Nat.le_of_not_lt hlt)⟩
      exact ⟨_, bind_eq_ok.mpr ⟨e, he, rfl⟩⟩
    | close io =>
      obtain ⟨w, hw, -⟩ := ho.sync ha
      exact ⟨_, bind_eq_ok.mpr ⟨_, hw, rfl⟩⟩
  exact ⟨_, map_eq_some_iff.mpr ⟨w, toOption_eq_some.mpr hw, rfl⟩⟩

theorem FileRun.Inv.fresh {z : Ztl} {e e' : Env} {n : Name} (hz : Sound z live)
    (hn : newWritableFile e n = .ok (e', h)) : FileRun.Inv h live ⟨⟨z, e'⟩, []⟩ := by
  have hnew := newWritableFile_new hn
  have hfile : (World.mk z e').file h = { ZnsFile.new n 0 with isWriting := true } := hnew.object.2
  refine ⟨⟨hnew.alive, ?_, ?_, ?_, ?_⟩, ?_⟩
  · rw [hfile]
    exact (append_nil live).symm ▸ hz
  · rw [hfile]
    exact fun m hm => absurd hm not_mem_nil
  · rw [hfile]
    rfl
  · rw [hfile]
    exact Nat.zero_le _
  · rw [hfile]
    rfl

end

/-- A Sync with nothing in the cache. -/
theorem sync_nil {h : Handle} {w : World} (hf : w.env.tbl.freed h.znsFile = false)
    (hnil : (w.file h).cachedBytes = []) (io : WriteIo) : sync w h io = .ok (w, .ok) := by
  refine bind_eq_ok.mpr ⟨w.file h, if_neg (by rw [hf]; decide), ?_⟩
  exact if_pos hnil

/-! ### The file `a` alone -/

/-- The file `a` is open, and there is room for `k` buffers of it on the device and for their pieces
in a snapshot. -/
structure OnlyFile (k : Nat) (w : World) (bytes : List UInt8) : Prop where
  holds : HoldsBytes ⟨nameA, 0⟩ [] w bytes
  record : ∃ n, LastRecord ⟨nameA, 0⟩ w n
  opened : (w.file ⟨nameA, 0⟩).cache.isSome
  table : ∃ f, (Table.single f).Same w.env.tbl ∧ f.name = nameA ∧ f.map.length + k ≤ maxPieces
  room : w.Roomy ⟨nameA, 0⟩ k

/-- A Sync of the file succeeds and returns. -/
def SyncServed (h : Handle) (w : World) (io : WriteIo) : Prop := SyncOk h w io ∧ SyncReturns h w io

/-- The table of a file alone, when its object is changed. -/
theorem Table.Same.set_single {t : Table} {f g : ZnsFile} (h : (Table.single f).Same t)
    (hname : g.name = f.name) : (Table.single g).Same (t.set 0 g) := by
  rw [← Table.set_single f hname]
  refine ⟨h.files, h.freed, h.next, fun p => ?_⟩
  rw [objs_set, objs_set]
  by_cases e : p = 0
  · subst e
    exact ⟨g.startIndex, by rw [update_self, update_self]⟩
  · rw [update_of_ne e, update_of_ne e]
    exact h.objs p

theorem Table.Same.snapOk_push {e : Env} {f : ZnsFile} (h : (Table.single f).Same e.tbl)
    (hname : f.name = nameA) (hmap : f.map.length < maxPieces) (m : ZrocksMap) :
    SnapOk (pushPieces ⟨nameA, 0⟩ e [m]).tbl := by
  obtain ⟨cn, nf, hpush⟩ := pushPieces_eq ⟨nameA, 0⟩ [m] e
  obtain ⟨i, hi⟩ := h.objs 0
  rw [objs_single] at hi
  rw [hpush]
  refine SnapOk.same (.single ?_ ?_) (h.set_single (by rw [hi]))
  · rw [hi, hname]
    decide
  · rw [hi, length_append]
    exact hmap

/-- A new node has room for 192 buffers. -/
theorem World.roomy_fresh (dev : Dev) (e : Env) (h : Handle) :
    (World.mk (Ztl.fresh oneNode dev) e).Roomy h 192 := by
  intro u hu
  refine ⟨enough_fresh dev _ _, ?_⟩
  have hempty : ∀ q, (Ztl.fresh oneNode dev).room q = 0 := fun _ => rfl
  show u ≤ (Ztl.fresh oneNode dev).nextRoom _
  rw [Ztl.nextRoom, if_pos (hempty _)]
  exact le_trans hu (show ztlIoRcNum * 192 ≤ ztlProOptSecNumInnode by decide)

section

variable {k : Nat} {w : World} {bytes bs data : List UInt8}

theorem OnlyFile.fresh {e : Env} {seq : Nat} {recs : List Rec} (dev : Dev) (ht : e.tbl = .empty)
    (hl : Logged e seq recs) : OnlyFile 192 ⟨Ztl.fresh oneNode dev, e.setTbl (.single newA)⟩ [] where
  holds := (FileRun.Inv.fresh (Sound.fresh oneNode dev) (newWritableFile_nameA ht)).holds
  record := ⟨_, .single _, find_single_self newA, rfl, seq, recs, hl.setTbl _, rfl⟩
  opened := rfl
  table := ⟨newA, .refl _, rfl, by decide⟩
  room := World.roomy_fresh _ _ _

theorem OnlyFile.setFile (ho : OnlyFile k w bytes) {g : ZnsFile} (bs : List UInt8)
    (hname : g.name = (w.file ⟨nameA, 0⟩).name) (hlevel : g.level = (w.file ⟨nameA, 0⟩).level)
    (hmap : g.map = (w.file ⟨nameA, 0⟩).map) (hidx : g.startIndex = (w.file ⟨nameA, 0⟩).startIndex)
    (hopen : g.cache.isSome)
    (hbs : fileBytes w.z.dev (w.file ⟨nameA, 0⟩).map ++ g.cachedBytes = bs)
    (hle : g.cachedBytes.length ≤ znsMaxBuf) : OnlyFile k ⟨w.z, w.env.setFile 0 g⟩ bs := by
  have hfile : (World.mk w.z (w.env.setFile 0 g)).file ⟨nameA, 0⟩ = g :=
    World.file_setFile (h := ⟨nameA, 0⟩) w.z w.env g
  obtain ⟨n, hr⟩ := ho.record
  obtain ⟨f, hf, hfname, hflen⟩ := ho.table
  obtain ⟨i, hi⟩ := hf.objs 0
  have hi : w.file ⟨nameA, 0⟩ = { f with startIndex := i } := hi
  rw [hi] at hname hmap
  refine ⟨ho.holds.setFile (hi ▸ hmap) hbs hle, ⟨n, hr.touch (hi ▸ hname) (hi ▸ hmap) hidx⟩, ?_,
    ⟨g, hf.set_single hname, hname.trans hfname, by rwa [hmap]⟩, ?_⟩
  · rwa [hfile]
  · rw [World.Roomy, hfile, hlevel]
    exact ho.room

theorem OnlyFile.exists_sync (ho : OnlyFile (k + 1) w bytes)
    (hne : (w.file ⟨nameA, 0⟩).cachedBytes ≠ []) :
    ∃ io w', SyncServed ⟨nameA, 0⟩ w io ∧ Xztl.sync w ⟨nameA, 0⟩ io = .ok (w', .ok) ∧
      OnlyFile k w' bytes ∧ (w'.file ⟨nameA, 0⟩).cachedBytes = [] ∧
      (w'.file ⟨nameA, 0⟩).size = (w.file ⟨nameA, 0⟩).size := by
  obtain ⟨n, hr⟩ := ho.record
  obtain ⟨f, hf, hname, hlen⟩ := ho.table
  obtain ⟨i, hi⟩ := hf.objs 0
  rw [objs_single] at hi
  obtain ⟨io, w', m, hok, hs, hroom, hfl⟩ :=
    hr.exists_sync ho.holds hne ho.room (hf.snapOk_push hname (by omega))
  obtain ⟨hb, hsize, -, hnil, hopen⟩ := ho.holds.sync hok.stores hs
  obtain ⟨cn, hsame⟩ := syncFlush_push hfl
  simp only [hi] at hsame
  refine ⟨io, w', ⟨hok, _, hs⟩, hs, ⟨hb, ⟨_, hr.sync ho.holds hok hne hs⟩, hopen ho.opened,
    ⟨_, (hf.set_single (by exact rfl)).trans hsame, hname, ?_⟩, hroom⟩, hnil, hsize⟩
  show (f.map ++ [m]).length + k ≤ maxPieces
  rw [length_append, length_singleton]
  omega

theorem OnlyFile.chunk (ho : OnlyFile (k + 1) w bytes) (bs : List UInt8)
    (hfit : (w.file ⟨nameA, 0⟩).cachedBytes.length + bs.length ≤ znsMaxBuf)
    (hne : (w.file ⟨nameA, 0⟩).cachedBytes ++ bs ≠ []) :
    ∃ io w', ChunkSyncs (SyncServed ⟨nameA, 0⟩) ⟨nameA, 0⟩ w bs io ∧
      appendChunk w ⟨nameA, 0⟩ bs io = .ok (w', .ok) ∧ OnlyFile k w' (bytes ++ bs) ∧
      (w'.file ⟨nameA, 0⟩).cachedBytes = [] := by
  obtain ⟨c, hc⟩ := isSome_iff_exists.mp ho.opened
  have hcached : (w.file ⟨nameA, 0⟩).cachedBytes = c := by rw [ZnsFile.cachedBytes, hc, getD_some]
  rw [hcached] at hfit hne
  have he : cachePut w.env ⟨nameA, 0⟩ bs = .ok (w.env.setFile 0
      { w.file ⟨nameA, 0⟩ with cache := some (c ++ bs) }) :=
    cachePut_eq_ok.mpr ⟨c, hc, hfit, rfl⟩
  have hput := ho.setFile (g := { w.file ⟨nameA, 0⟩ with cache := some (c ++ bs) }) (bytes ++ bs)
    rfl rfl rfl rfl rfl (by rw [← ho.holds.bytes, hcached, append_assoc]; rfl)
    (by rw [← length_append] at hfit; exact hfit)
  obtain ⟨io, w', hserved, hs, ho', hnil, -⟩ := hput.exists_sync (by
    rw [World.file_setFile (h := ⟨nameA, 0⟩)]
    exact hne)
  refine ⟨io, w', fun e' he' => ?_, bind_eq_ok.mpr ⟨_, he, hs⟩, ho', hnil⟩
  cases he.symm.trans he'
  exact hserved

/-- **The answers to a loop of `Append`.** -/
theorem OnlyFile.exists_loop (k : Nat) : ∀ {w : World} {bytes data : List UInt8},
    OnlyFile k w bytes → (w.file ⟨nameA, 0⟩).cachedBytes = [] → data.length ≤ znsMaxBuf * (k + 1) →
    ∃ ios, LoopSyncs (SyncServed ⟨nameA, 0⟩) ⟨nameA, 0⟩ ios w data ∧
      data.length ≤ znsMaxBuf * (ios.length + 1) := by
  induction k with
  | zero => exact fun _ _ hlen => ⟨[], trivial, hlen⟩
  | succ k ih =>
    intro w bytes data ho hnil hlen
    by_cases hbig : data.length > znsMaxBuf
    · have htake : (data.take znsMaxBuf).length = znsMaxBuf := by
        rw [length_take, Nat.min_eq_left hbig.le]
      have hmax : 0 < znsMaxBuf := by decide
      obtain ⟨io, w', hchunk, hw', ho', hnil'⟩ := ho.chunk (data.take znsMaxBuf)
        (by rw [hnil, htake, length_nil, Nat.zero_add])
        (by rw [hnil, nil_append]; exact ne_nil_of_length_pos (by rw [htake]; exact hmax))
      rw [Nat.mul_succ] at hlen
      obtain ⟨ios, hloop, hlen'⟩ := ih ho' hnil'
        (show (data.drop znsMaxBuf).length ≤ znsMaxBuf * (k + 1) by rw [length_drop]; omega)
      refine ⟨io :: ios, fun _ => ⟨hchunk, fun w1 s hs => ?_⟩, ?_⟩
      · cases hw'.symm.trans hs
        exact hloop
      · rw [length_drop] at hlen'
        rw [length_cons, Nat.mul_succ]
        omega
    · exact ⟨[], trivial, by simpa using Nat.le_of_not_lt hbig⟩

theorem OnlyFile.exists_append (ho : OnlyFile k w bytes) (hnil : (w.file ⟨nameA, 0⟩).cachedBytes = [])
    (hlen : data.length ≤ znsMaxBuf * (k + 1)) :
    ∃ ios, AppendSyncs (SyncServed ⟨nameA, 0⟩) ⟨nameA, 0⟩ w data ios ∧
      (w.file ⟨nameA, 0⟩).cachedBytes.length + data.length ≤ znsMaxBuf * (ios.length + 1) := by
  obtain ⟨ios, hloop, hle⟩ := OnlyFile.exists_loop k ho hnil hlen
  have hzero : (w.file ⟨nameA, 0⟩).cachedBytes.length = 0 := by rw [hnil, length_nil]
  rw [hzero, Nat.zero_add]
  refine ⟨ios, ?_, hle⟩
  -- with an empty cache the first buffer is one of the loop
  cases ios with
  | nil => trivial
  | cons io ios =>
    rw [LoopSyncs] at hloop
    simp only [AppendSyncs, hzero, Nat.zero_add, Nat.sub_zero]
    exact hloop

end

/-- **The contents of an open file.**  In every run of calls on a new file, with every write of the
translation layer storing its buffer, the bytes of the pieces followed by the cached ones are those a
plain file would have, `size` is their number, the cache is within its buffer, and the next call
returns when its Syncs do. -/
theorem contents_run {z : Ztl} {live : List ZrocksMap} {e e' : Env} {n : Name} {h : Handle}
    {as : List FileCall} {s : FileRun} (hz : Sound z live)
    (hn : newWritableFile e n = .ok (e', h))
    (hr : Runs (FileRun.step h) (fun s a => a.Allowed h s) ⟨⟨z, e'⟩, []⟩ as s) :
    fileBytes s.world.z.dev (s.world.file h).map ++ (s.world.file h).cachedBytes = s.bytes ∧
      (s.world.file h).size = s.bytes.length ∧
      (s.world.file h).cachedBytes.length ≤ znsMaxBuf ∧
      ∀ a : FileCall, a.Allowed h s → a.Served h s.world → ∃ s', s.step h a = some s' := by
  have hi : s.Inv h live := Runs.invariant (I := FileRun.Inv h live)
    (fun _ _ _ hi ha hs => hi.step ha hs) hr (.fresh hz hn)
  exact ⟨hi.holds.bytes, hi.size, hi.holds.le, fun a ha hs => hi.returns ha.1 hs⟩

/-- An Append of one byte more than three buffers. -/
theorem contents_run_overflow : ∃ (e : Env) (e' : Env) (h : Handle) (ios : List WriteIo) (s : FileRun),
    newWritableFile e nameA = .ok (e', h) ∧
    FileRun.step h ⟨⟨Ztl.fresh oneNode Dev.blank, e'⟩, []⟩
      (.append (replicate (3 * znsMaxBuf + 1) 7) ios) = some s ∧
    fileBytes s.world.z.dev (s.world.file h).map ++ (s.world.file h).cachedBytes
      = replicate (3 * znsMaxBuf + 1) 7 ∧
    (s.world.file h).size = 3 * znsMaxBuf + 1 ∧
    (s.world.file h).cachedBytes.length ≤ znsMaxBuf := by
  obtain ⟨e, -, ht, hl, -, -⟩ := load_fresh smallMd 0
  have hnew := newWritableFile_nameA ht
  have hfile := OnlyFile.fresh Dev.blank ht hl
  have hsound := Sound.fresh oneNode Dev.blank
  obtain ⟨data, hdata⟩ : ∃ data, data = replicate (3 * znsMaxBuf + 1) (7 : UInt8) := ⟨_, rfl⟩
  have hlen : data.length = 3 * znsMaxBuf + 1 := by rw [hdata, length_replicate]
  -- the answers that let it return
  obtain ⟨ios, hsyncs, hios⟩ := hfile.exists_append rfl
    (show data.length ≤ znsMaxBuf * (192 + 1) by rw [hlen]; decide)
  have hallowed : FileCall.Allowed ⟨nameA, 0⟩
      ⟨⟨Ztl.fresh oneNode Dev.blank, e.setTbl (.single newA)⟩, []⟩ (.append data ios) :=
    ⟨hfile.opened, hsyncs.mono fun _ _ h => h.1.stores⟩
  obtain ⟨-, -, -, hreturns⟩ := contents_run hsound hnew (.nil _)
  obtain ⟨s, hs⟩ := hreturns (.append data ios) hallowed ⟨hsyncs.mono fun _ _ h => h.2, hios⟩
  obtain ⟨hbytes, hsize, hle, -⟩ := contents_run hsound hnew (.one hallowed hs)
  have hb : s.bytes = data := by
    obtain ⟨w, -, rfl⟩ := Option.map_eq_some_iff.mp hs
    exact nil_append data
  rw [hb] at hbytes hsize
  rw [hlen] at hsize
  rw [hdata] at hs hbytes
  exact ⟨e, _, _, ios, s, hnew, hs, hbytes, hsize, hle⟩

end Xztl
