import Xztl.Env.Contents
import Xztl.Zrocks.Encoding

/-!
# Env — what the log says of a file with an empty cache (`env_zns_io.cc`)

A Sync with nothing in the cache returns without a record, because the last one is supposed to have
the size of the file.  `Sync` records the size as it stands, and `Append` changes it at its end: when
an Append overflows the cache, the records written on the way have the size from before it.  The bytes
left in the cache hide this until the next Sync; but a Truncate can take them back.

**`log_current_run`** says that a file with pieces and an empty cache has its size in the log, in every
run of Appends, Syncs and Truncates in which no Truncate empties the cache after an overflow.
-/

namespace Xztl

open Function Bytes List Except Option Table

variable {f : ZnsFile} {e : Env}

/-! ### Append -/

section

variable {h : Handle} {live : List ZrocksMap} {w w' : World} {bytes bs data rest : List UInt8}
  {io : WriteIo} {ios : List WriteIo} {s : Status} {n : Option Nat}

/-- **A part of the data that goes out**, with the size from before the Append. -/
theorem LastRecord.appendChunk (hr : LastRecord h w n) (hb : HoldsBytes h live w bytes)
    (hc : ChunkSyncs (SyncOk h) h w bs io) (hne : (w.file h).cachedBytes ++ bs ≠ [])
    (hs : Xztl.appendChunk w h bs io = .ok (w', s)) :
    LastRecord h w' (some ((w.file h).size % 2 ^ 64)) ∧ (w'.file h).cachedBytes = [] := by
  obtain ⟨e, he, hs⟩ := bind_eq_ok.mp hs
  obtain ⟨hput, hsize, -⟩ := hb.put he
  have hne' : ((World.mk w.z e).file h).cachedBytes ≠ [] := by
    rw [cachePut_cachedBytes he]
    exact hne
  obtain ⟨-, -, -, hnil, -⟩ := hput.sync (hc e he).stores hs
  have hrec := (hr.put he).sync hput (hc e he) hne' hs
  rw [hsize] at hrec
  exact ⟨hrec, hnil⟩

/-- **The loop of `Append`**: no round, or the last record has the size from before. -/
theorem LastRecord.appendLoop (ios : List WriteIo) : ∀ {w : World} {bytes data : List UInt8}
    {n : Option Nat}, LastRecord h w n → HoldsBytes h live w bytes →
    LoopSyncs (SyncOk h) h ios w data → (w.file h).cachedBytes = [] →
    Xztl.appendLoop h ios w data = .ok (w', s, rest) →
    (w'.file h).cachedBytes = [] ∧ (data ≠ [] → rest ≠ []) ∧
      (w' = w ∧ rest = data ∨
        znsMaxBuf < data.length ∧ LastRecord h w' (some ((w.file h).size % 2 ^ 64))) := by
  induction ios with
  | nil =>
    intro w bytes data n hr hb _ hnil hs
    rw [Xztl.appendLoop] at hs
    split at hs
    · cases hs
    · cases hs
      exact ⟨hnil, id, Or.inl ⟨rfl, rfl⟩⟩
  | cons io ios ih =>
    intro w bytes data n hr hb hst hnil hs
    rw [Xztl.appendLoop] at hs
    split at hs
    · next hbig =>
        obtain ⟨hchunk, hloop⟩ := hst hbig
        obtain ⟨⟨w1, s1⟩, hc, hs⟩ := bind_eq_ok.mp hs
        have hne : (w.file h).cachedBytes ++ data.take znsMaxBuf ≠ [] := by
          rw [hnil, nil_append]
          refine ne_nil_of_length_pos ?_
          rw [length_take, Nat.min_eq_left (le_of_lt hbig)]
          decide
        obtain ⟨hr1, hnil1⟩ := hr.appendChunk hb hchunk hne hc
        obtain ⟨hb1, hsize1, rfl⟩ := hb.appendChunk (fun e he => (hchunk e he).stores) hc
        obtain ⟨hnil', hrest, hcases⟩ := ih hr1 hb1 (hloop w1 _ hc) hnil1 hs
        refine ⟨hnil', fun _ => hrest (ne_nil_of_length_pos ?_), Or.inr ⟨hbig, ?_⟩⟩
        · rw [length_drop]
          exact Nat.sub_pos_of_lt hbig
        · rcases hcases with ⟨rfl, -⟩ | ⟨-, hr'⟩
          · exact hr1
          · rwa [hsize1] at hr'
    · cases hs
      exact ⟨hnil, id, Or.inl ⟨rfl, rfl⟩⟩

/-- What `Append` does first with data that does not fit the cache. -/
theorem LastRecord.appendFill (hr : LastRecord h w n) (hb : HoldsBytes h live w bytes)
    (hok : AppendSyncs (SyncOk h) h w data ios)
    (hbig : (w.file h).cachedBytes.length + data.length > znsMaxBuf)
    (hs : Xztl.appendFill w h (w.file h).cachedBytes.length data ios = .ok (w', s, rest)) :
    LastRecord h w' (some ((w.file h).size % 2 ^ 64)) ∧ (w'.file h).cachedBytes = [] ∧ rest ≠ [] ∧
      ((w.file h).cachedBytes.length = znsMaxBuf → data.length ≤ znsMaxBuf → rest = data) := by
  rw [Xztl.appendFill, if_pos hbig] at hs
  cases ios with
  | nil => cases hs
  | cons io ios =>
    obtain ⟨hchunk, hloop⟩ := hok hbig
    obtain ⟨⟨w1, s1⟩, hc, hs⟩ := bind_eq_ok.mp hs
    have hle : (w.file h).cachedBytes.length ≤ znsMaxBuf := hb.le
    have hne : (w.file h).cachedBytes
        ++ data.take (znsMaxBuf - (w.file h).cachedBytes.length) ≠ [] := by
      refine ne_nil_of_length_pos ?_
      rw [length_append, length_take]
      have hmax : 0 < znsMaxBuf := by decide
      omega
    obtain ⟨hr1, hnil1⟩ := hr.appendChunk hb hchunk hne hc
    obtain ⟨hb1, hsize1, rfl⟩ := hb.appendChunk (fun e he => (hchunk e he).stores) hc
    obtain ⟨hnil', hrest, hcases⟩ := hr1.appendLoop ios hb1 (hloop w1 _ hc) hnil1 hs
    refine ⟨?_, hnil', hrest (ne_nil_of_length_pos ?_), fun hfull hfit => ?_⟩
    · rcases hcases with ⟨rfl, -⟩ | ⟨-, hr'⟩
      · exact hr1
      · rwa [hsize1] at hr'
    · rw [length_drop]
      omega
    · rw [hfull, Nat.sub_self, drop_zero] at hcases
      rcases hcases with ⟨-, rfl⟩ | ⟨hlt, -⟩
      · rfl
      · exact absurd hfit (Nat.not_le_of_lt hlt)

/-- **An Append**: the data fits the cache, or records with the size from before are written. -/
theorem LastRecord.append (hr : LastRecord h w n) (hb : HoldsBytes h live w bytes)
    (hopen : (w.file h).cache.isSome) (hok : AppendSyncs (SyncOk h) h w data ios)
    (hs : Xztl.append w h data ios = .ok (w', s)) :
    ((w.file h).cachedBytes.length + data.length ≤ znsMaxBuf ∧ LastRecord h w' n ∧
      w'.z = w.z ∧ (w'.file h).map = (w.file h).map ∧
      (w'.file h).cachedBytes = (w.file h).cachedBytes ++ data) ∨
    (¬ (w.file h).cachedBytes.length + data.length ≤ znsMaxBuf ∧
      LastRecord h w' (some ((w.file h).size % 2 ^ 64)) ∧ (w'.file h).cachedBytes ≠ [] ∧
      ((w.file h).cachedBytes.length = znsMaxBuf → data.length ≤ znsMaxBuf →
        (w'.file h).cachedBytes = data)) := by
  obtain ⟨f, hf, hs⟩ := bind_eq_ok.mp hs
  rw [Table.get, if_neg (by rw [hb.alive]; decide)] at hf
  cases hf
  obtain ⟨c, hc⟩ := isSome_iff_exists.mp hopen
  have hc' : (w.env.tbl.objs h.znsFile).cache = some c := hc
  rw [hc'] at hs
  obtain ⟨⟨w1, s1, left⟩, hfill, hs⟩ := bind_eq_ok.mp hs
  have hcached : c = (w.file h).cachedBytes := by
    rw [ZnsFile.cachedBytes, hc]
    rfl
  rw [hcached] at hfill
  obtain ⟨rfl, -, -⟩ := hb.appendFill (hok.mono fun _ _ h => h.stores) hfill
  obtain ⟨e, he, hs⟩ := bind_eq_ok.mp hs
  cases hs
  -- the copy and the new size are not seen by the log
  have hlast : ∀ {k}, LastRecord h w1 k →
      LastRecord h ⟨w1.z, growSize e h data.length⟩ k := fun hk => (hk.put he).touch rfl rfl rfl
  have hbytes : ((World.mk w1.z (growSize e h data.length)).file h).cachedBytes
      = (w1.file h).cachedBytes ++ left := by
    rw [← cachePut_cachedBytes he, growSize, World.file_setFile]
    rfl
  by_cases hfit : (w.file h).cachedBytes.length + data.length ≤ znsMaxBuf
  · rw [Xztl.appendFill, if_neg (Nat.not_lt_of_le hfit)] at hfill
    cases hfill
    refine Or.inl ⟨hfit, hlast hr, rfl, ?_, hbytes⟩
    obtain ⟨c, -, -, rfl⟩ := cachePut_eq_ok.mp he
    rw [growSize, World.file_setFile, Env.setFile]
    show (update w.env.tbl.objs h.znsFile _ h.znsFile).map = _
    rw [update_self]
    rfl
  · obtain ⟨hr1, hnil, hne, hall⟩ := hr.appendFill hb hok (Nat.lt_of_not_le hfit) hfill
    rw [hnil, nil_append] at hbytes
    refine Or.inr ⟨hfit, hlast hr1, by rw [hbytes]; exact hne, fun h1 h2 => ?_⟩
    rw [hbytes, hall h1 h2]

end

/-! ### Runs of calls -/

/-- The state, and whether bytes of an Append have gone out with its old size since the last Sync. -/
structure LogRun where
  world : World
  stale : Bool

/-- An Append that overflows the cache writes bytes of its own out, unless the cache was full and the
data fits the next one; a Sync that writes puts the size right. -/
def FileCall.stale (h : Handle) (s : LogRun) : FileCall → Bool
  | append data _ =>
    if (s.world.file h).cachedBytes.length + data.length ≤ znsMaxBuf then s.stale
    else !decide ((s.world.file h).cachedBytes.length = znsMaxBuf ∧ data.length ≤ znsMaxBuf)
  | sync _ | fsync _ => if (s.world.file h).cachedBytes = [] then s.stale else false
  | _ => s.stale

def LogRun.step (h : Handle) (s : LogRun) (a : FileCall) : Option LogRun :=
  (a.run h s.world).toOption.map fun w => ⟨w, a.stale h s⟩

/-- An Append, Sync, Fsync or Truncate whose writes succeed. -/
def FileCall.Succeeds (h : Handle) (w : World) : FileCall → Prop
  | append data ios => AppendSyncs (SyncOk h) h w data ios
  | sync io | fsync io => SyncOk h w io
  | truncate size => size < 2 ^ 64
  | close _ => False

/-- A Truncate does not take back all that is cached while the size in the log is too small. -/
def FileCall.LeavesBytes (h : Handle) (s : LogRun) : FileCall → Prop
  | truncate size => s.stale = true →
      size + (s.world.file h).cachedBytes.length ≠ (s.world.file h).size
  | _ => True

/-- The bytes of the file are those in its pieces and its cache; while the log is not stale it has the
number of those in the pieces, and otherwise the cache is not empty. -/
structure LogRun.Inv (h : Handle) (live : List ZrocksMap) (s : LogRun) (bytes : List UInt8)
    (n : Option Nat) : Prop where
  holds : HoldsBytes h live s.world bytes
  size : (s.world.file h).size = bytes.length
  opened : (s.world.file h).cache.isSome
  record : LastRecord h s.world n
  exact : s.stale = false → (s.world.file h).map ≠ [] →
    n = some (fileBytes s.world.z.dev (s.world.file h).map).length
  cached : s.stale = true → (s.world.file h).cachedBytes ≠ []

section

variable {h : Handle} {live : List ZrocksMap} {s s' : LogRun} {bytes : List UInt8} {n : Option Nat}

section

variable (hi : s.Inv h live bytes n)
include hi

theorem LogRun.Inv.sync {io : WriteIo} (hok : SyncOk h s.world io) {w : World} {st : Status}
    (hs : Xztl.sync s.world h io = .ok (w, st)) :
    ∃ n', LogRun.Inv h live ⟨w, (FileCall.sync io).stale h s⟩ bytes n' := by
  obtain ⟨hb, hsize, -, hnil, hopen⟩ := hi.holds.sync hok.stores hs
  rw [FileCall.stale]
  by_cases hc : (s.world.file h).cachedBytes = []
  · rw [sync_nil hi.holds.alive hc] at hs
    cases hs
    rw [if_pos hc]
    exact ⟨n, hi⟩
  · rw [if_neg hc]
    have hr := hi.record.sync hi.holds hok hc hs
    have hlen : (fileBytes w.z.dev (w.file h).map).length = bytes.length := by
      rw [← hb.bytes, hnil, append_nil]
    refine ⟨_, hb, hsize.trans hi.size, hopen hi.opened, hr, fun _ _ => ?_, nofun⟩
    rw [hlen, hi.size, Nat.mod_eq_of_lt hi.holds.length_lt]

theorem LogRun.Inv.append {data : List UInt8} {ios : List WriteIo}
    (hok : AppendSyncs (SyncOk h) h s.world data ios) {w : World} {st : Status}
    (hs : Xztl.append s.world h data ios = .ok (w, st)) :
    ∃ n', LogRun.Inv h live ⟨w, (FileCall.append data ios).stale h s⟩ (bytes ++ data) n' := by
  obtain ⟨hb, hsize, hopen⟩ := hi.holds.append hi.opened (hok.mono fun _ _ h => h.stores) hs
  have hsize' : (w.file h).size = (bytes ++ data).length := by
    rw [hsize, hi.size, ← length_append]
    exact Nat.mod_eq_of_lt hb.length_lt
  rw [FileCall.stale]
  rcases hi.record.append hi.holds hi.opened hok hs with
    ⟨hfit, hr, hz, hmap, hcached⟩ | ⟨hbig, hr, hne, hall⟩
  · rw [if_pos hfit]
    refine ⟨n, hb, hsize', hopen, hr, fun hst hm => ?_, fun hst => ?_⟩
    · rw [hz, hmap]
      exact hi.exact hst (hmap ▸ hm)
    · rw [hcached]
      exact append_ne_nil_of_left_ne_nil (hi.cached hst) _
  · rw [if_neg hbig]
    refine ⟨_, hb, hsize', hopen, hr, fun hst _ => ?_, fun _ => hne⟩
    -- the cache was full, so that nothing of the data has gone out
    obtain ⟨hfull, hfit⟩ : (s.world.file h).cachedBytes.length = znsMaxBuf ∧
        data.length ≤ znsMaxBuf := by simpa using hst
    have hbytes : fileBytes w.z.dev (w.file h).map = bytes := by
      have := hb.bytes
      rw [hall hfull hfit] at this
      exact append_cancel_right this
    rw [hbytes, hi.size, Nat.mod_eq_of_lt hi.holds.length_lt]

/-- **A Truncate** takes bytes back, or does nothing. -/
theorem LogRun.Inv.truncate {size : Nat} (hlt : size < 2 ^ 64)
    (hleave : (FileCall.truncate size).LeavesBytes h s)
    (hs : Xztl.truncate s.world.env h size = .ok e) :
    ∃ bytes', LogRun.Inv h live ⟨⟨s.world.z, e⟩, s.stale⟩ bytes' n := by
  have hbound := hi.holds.length_lt
  have hlen : bytes.length = (fileBytes s.world.z.dev (s.world.file h).map).length
      + (s.world.file h).cachedBytes.length := by rw [← hi.holds.bytes, length_append]
  obtain ⟨f, hf, he⟩ := bind_eq_ok.mp hs
  rw [Table.get, if_neg (by rw [hi.holds.alive]; decide)] at hf
  cases hf
  have he : (if (s.world.file h).cachedBytes.length
      < ((s.world.file h).size + 2 ^ 64 - size) % 2 ^ 64 then Except.ok s.world.env
    else .ok (s.world.env.setFile h.znsFile { s.world.file h with
      cache := (s.world.file h).cache.map fun c => c.take ((s.world.file h).cachedBytes.length
        - ((s.world.file h).size + 2 ^ 64 - size) % 2 ^ 64)
      size := size })) = Except.ok e := he
  rw [hi.size] at he
  split at he
  · cases he
    exact ⟨bytes, hi⟩
  · next hcut =>
      -- a size behind the end would take more than is cached
      have hle : size ≤ bytes.length := by omega
      have htrun : (bytes.length + 2 ^ 64 - size) % 2 ^ 64 = bytes.length - size := by omega
      rw [htrun] at hcut he
      obtain ⟨hb, hsize, hopen⟩ := hi.holds.truncate hi.size hle (Nat.le_of_not_lt hcut) hs
      cases he
      refine ⟨bytes.take size, hb, hsize, hopen.mpr hi.opened, hi.record.touch rfl rfl rfl, ?_, ?_⟩
      · intro hst hm
        rw [World.file_setFile] at hm ⊢
        exact hi.exact hst hm
      · intro hst hnil
        have hne := hleave hst
        rw [hi.size] at hne
        have hlen' := congrArg List.length hb.bytes
        rw [hnil, append_nil, length_take, Nat.min_eq_left hle, World.file_setFile] at hlen'
        have hlen' : (fileBytes s.world.z.dev (s.world.file h).map).length = size := hlen'
        omega

theorem LogRun.Inv.step {a : FileCall} (hok : a.Succeeds h s.world) (hl : a.LeavesBytes h s)
    (hs : s.step h a = some s') : ∃ bytes' n', s'.Inv h live bytes' n' := by
  obtain ⟨w, hw, rfl⟩ := map_eq_some_iff.mp hs
  have hw := toOption_eq_some.mp hw
  cases a with
  | append data ios =>
    obtain ⟨⟨w', st⟩, hw', hw⟩ := bind_eq_ok.mp hw
    cases hw
    exact ⟨_, hi.append hok hw'⟩
  | sync io =>
    obtain ⟨⟨w', st⟩, hw', hw⟩ := bind_eq_ok.mp hw
    cases hw
    exact ⟨_, hi.sync hok hw'⟩
  | fsync io =>
    obtain ⟨⟨w', st⟩, hw', hw⟩ := bind_eq_ok.mp hw
    cases hw
    exact ⟨_, hi.sync hok hw'⟩
  | truncate size =>
    obtain ⟨e, he, hw⟩ := bind_eq_ok.mp hw
    cases hw
    obtain ⟨bytes', hi'⟩ := hi.truncate hok hl he
    exact ⟨bytes', n, hi'⟩
  | close io => exact hok.elim

end

theorem LogRun.Inv.fresh {z : Ztl} {e' : Env} {name : Name} {seq : Nat} {recs : List Rec}
    (hz : Sound z live) (hn : newWritableFile e name = .ok (e', h)) (ht : e'.tbl.Tidy)
    (hl : Logged e' seq recs) : ∃ n, LogRun.Inv h live ⟨⟨z, e'⟩, false⟩ [] n := by
  have hi : FileRun.Inv h live ⟨⟨z, e'⟩, []⟩ := .fresh hz hn
  obtain ⟨hfind, hobj⟩ := (newWritableFile_new hn).object
  have hfile : (World.mk z e').file h = { ZnsFile.new name 0 with isWriting := true } := hobj
  refine ⟨_, hi.holds, hi.size, ?_, ⟨ht, hfind, ?_, seq, recs, hl, rfl⟩, fun _ hm => ?_, nofun⟩
  · rw [hfile]
    rfl
  · rw [hfile]
    rfl
  · refine absurd ?_ hm
    rw [hfile]
    rfl

/-- A file with pieces and an empty cache has its size in the log. -/
theorem LogRun.Inv.current (hi : s.Inv h live bytes n) (hnil : (s.world.file h).cachedBytes = [])
    (hm : (s.world.file h).map ≠ []) : n = some (s.world.file h).size := by
  have hst : s.stale = false := Bool.eq_false_iff.mpr fun hst => hi.cached hst hnil
  have hlen : bytes.length = (fileBytes s.world.z.dev (s.world.file h).map).length := by
    rw [← hi.holds.bytes, hnil, append_nil]
  rw [hi.exact hst hm, hi.size, hlen]

end

/-- **An empty cache means a current log.**  In every run of Appends, Syncs, Fsyncs and Truncates on a
new file, with all writes succeeding and no Truncate that empties the cache while bytes of an Append
are out with its old size: when the file has pieces and nothing is cached, its last record on the
device has its size. -/
theorem log_current_run {z : Ztl} {live : List ZrocksMap} {e e' : Env} {name : Name} {h : Handle}
    {seq : Nat} {recs : List Rec} {as : List FileCall} {s : LogRun} (hz : Sound z live)
    (hn : newWritableFile e name = .ok (e', h)) (ht : e'.tbl.Tidy) (hl : Logged e' seq recs)
    (hr : Runs (LogRun.step h) (fun s a => a.Succeeds h s.world ∧ a.LeavesBytes h s)
      ⟨⟨z, e'⟩, false⟩ as s)
    (hnil : (s.world.file h).cachedBytes = []) (hm : (s.world.file h).map ≠ []) :
    ∃ seq recs r, Logged s.world.env seq recs ∧ Contents.replay recs h.fileName = some r ∧
      r.size = (s.world.file h).size := by
  have hi : ∃ bytes n, s.Inv h live bytes n := Runs.invariant
    (I := fun s => ∃ bytes n, LogRun.Inv h live s bytes n)
    (fun _ _ _ ⟨_, _, hi⟩ ha hs => hi.step ha.1 ha.2 hs) hr ⟨[], LogRun.Inv.fresh hz hn ht hl⟩
  obtain ⟨bytes, n, hi⟩ := hi
  obtain ⟨seq, recs, hlog, hsize⟩ := hi.record.log
  rw [hi.current hnil hm] at hsize
  obtain ⟨r, hrec, hrs⟩ := map_eq_some_iff.mp hsize
  exact ⟨seq, recs, r, hlog, hrec, hrs⟩

/-- A byte is appended and written out. -/
theorem log_current_byte : ∃ (e e' : Env) (h : Handle) (io : WriteIo) (s : LogRun) (seq : Nat)
    (recs : List Rec) (r : FileRec), newWritableFile e nameA = .ok (e', h) ∧
    Runs (LogRun.step h) (fun s a => a.Succeeds h s.world ∧ a.LeavesBytes h s)
      ⟨⟨Ztl.fresh oneNode .blank, e'⟩, false⟩ [.append [0] [], .sync io] s ∧
    Logged s.world.env seq recs ∧ Contents.replay recs h.fileName = some r ∧ r.size = 1 := by
  obtain ⟨e, -, ht, hl, -, -⟩ := load_fresh smallMd 0
  have hnew := newWritableFile_nameA ht
  have hfile := (OnlyFile.fresh .blank ht hl).setFile (g := newByte) [0] rfl rfl rfl rfl rfl rfl
    (by decide)
  rw [show (e.setTbl (.single newA)).setFile 0 newByte = e.setTbl (.single newByte) from
    congrArg e.setTbl (set_single newA rfl)] at hfile
  obtain ⟨io, w, ⟨hok, -⟩, hsync, hw, hnil, hsize⟩ := hfile.exists_sync (cons_ne_nil 0 [])
  have hm : (w.file ⟨nameA, 0⟩).map ≠ [] := by
    intro hm
    have hbytes := hw.holds.bytes
    rw [hnil, hm] at hbytes
    cases hbytes
  have hz := Sound.fresh oneNode .blank
  generalize Ztl.fresh oneNode .blank = z₀ at hz hok hsync hsize ⊢
  have h₁ : LogRun.step ⟨nameA, 0⟩ ⟨⟨z₀, e.setTbl (.single newA)⟩, false⟩ (.append [0] [])
      = some ⟨⟨z₀, e.setTbl (.single newByte)⟩, false⟩ := by
    rw [LogRun.step, FileCall.run, append_byte]
    rfl
  have h₂ : LogRun.step ⟨nameA, 0⟩ ⟨⟨z₀, e.setTbl (.single newByte)⟩, false⟩ (.sync io)
      = some ⟨w, false⟩ := by
    rw [LogRun.step, FileCall.run, hsync]
    rfl
  have hrun : Runs (LogRun.step ⟨nameA, 0⟩)
      (fun s a => a.Succeeds ⟨nameA, 0⟩ s.world ∧ a.LeavesBytes ⟨nameA, 0⟩ s)
      ⟨⟨z₀, e.setTbl (.single newA)⟩, false⟩ [.append [0] [], .sync io] ⟨w, false⟩ :=
    .cons ⟨trivial, trivial⟩ h₁ (.one ⟨hok, trivial⟩ h₂)
  obtain ⟨seq, recs, r, hlog, hrec, hr⟩ :=
    log_current_run hz hnew (.single _) (hl.setTbl _) hrun hnil hm
  exact ⟨e, _, _, io, _, seq, recs, r, hnew, hrun, hlog, hrec, hr.trans hsize⟩

/-- An Append to the new file `a` of one byte more than the cache has. -/
theorem exists_overflow {seq : Nat} {recs : List Rec} {data : List UInt8}
    (ht : e.tbl = .empty) (hl : Logged e seq recs) (hlen : data.length = znsMaxBuf + 1) :
    ∃ (io : WriteIo) (w : World), AppendSyncs (SyncOk ⟨nameA, 0⟩) ⟨nameA, 0⟩
        ⟨Ztl.fresh oneNode .blank, e.setTbl (.single newA)⟩ data [io] ∧
      append ⟨Ztl.fresh oneNode .blank, e.setTbl (.single newA)⟩ ⟨nameA, 0⟩ data [io]
        = .ok (w, .ok) ∧ (w.file ⟨nameA, 0⟩).cachedBytes.length = 1 := by
  have hfile := OnlyFile.fresh .blank ht hl
  obtain ⟨w₀, hw₀⟩ : ∃ w₀, w₀ = World.mk (Ztl.fresh oneNode .blank)
    (e.setTbl (.single newA)) := ⟨_, rfl⟩
  rw [← hw₀] at hfile ⊢
  have hc : (w₀.file ⟨nameA, 0⟩).cache = some [] := by rw [hw₀]; rfl
  have hnil : (w₀.file ⟨nameA, 0⟩).cachedBytes = [] := by rw [ZnsFile.cachedBytes, hc]; rfl
  have hmax : znsMaxBuf = 33554432 := rfl
  have htake : (data.take znsMaxBuf).length = znsMaxBuf := by
    rw [length_take, hlen]
    exact Nat.min_eq_left (Nat.le_succ _)
  obtain ⟨io, w₁, hchunk, -⟩ := hfile.chunk (data.take znsMaxBuf)
    (by rw [hnil, htake, length_nil, Nat.zero_add])
    (by rw [hnil, nil_append]; exact ne_nil_of_length_pos (by omega))
  have hsyncs : AppendSyncs (SyncServed ⟨nameA, 0⟩) ⟨nameA, 0⟩ w₀ data [io] := by
    simp only [AppendSyncs, hnil, length_nil, Nat.sub_zero]
    exact fun _ => ⟨hchunk, fun _ _ _ => trivial⟩
  obtain ⟨w, c, k, happ, ho, hne, hle, hk⟩ := OpenWith.append ⟨hfile.holds.alive, hc⟩ (Nat.zero_le _)
    (hsyncs.mono fun _ _ h => h.2) (show 0 + data.length ≤ znsMaxBuf * 2 by omega)
  have hpos := length_pos_iff.mpr (hne (ne_nil_of_length_pos (by omega)))
  refine ⟨io, w, hsyncs.mono fun _ _ h => h.1, happ, ?_⟩
  rw [ZnsFile.cachedBytes, ho.cache, getD_some]
  rw [length_nil, hlen, hmax] at hk
  rw [hmax] at hle
  omega

/-- **Taking the last byte back.**  An Append of one byte more than the cache has leaves a byte in it
and a record with size zero; a Truncate takes the byte back, and what is left has no record with its
size, nor would a Sync write one. -/
theorem log_behind : ∃ (e e' : Env) (h : Handle) (data : List UInt8) (io : WriteIo) (s : LogRun)
    (seq : Nat) (recs : List Rec) (r : FileRec), newWritableFile e nameA = .ok (e', h) ∧
    e'.tbl.Tidy ∧ (∃ seq recs, Logged e' seq recs) ∧
    Runs (LogRun.step h) (fun s a => a.Succeeds h s.world)
      ⟨⟨Ztl.fresh oneNode .blank, e'⟩, false⟩
      [.append data [io], .truncate znsMaxBuf] s ∧
    (s.world.file h).cachedBytes = [] ∧ (s.world.file h).map ≠ [] ∧
    Logged s.world.env seq recs ∧ Contents.replay recs h.fileName = some r ∧
    r.size = 0 ∧ (s.world.file h).size = znsMaxBuf := by
  obtain ⟨e, -, ht, hl, -, -⟩ := load_fresh smallMd 0
  have hnew := newWritableFile_nameA ht
  obtain ⟨data, hdata⟩ : ∃ data : List UInt8, data.length = znsMaxBuf + 1 :=
    ⟨List.replicate (znsMaxBuf + 1) 0, length_replicate⟩
  obtain ⟨io, w, hok, happ, hcached⟩ := exists_overflow ht hl hdata
  have hz := Sound.fresh oneNode .blank
  obtain ⟨z, hz₀⟩ : ∃ z, z = Ztl.fresh oneNode .blank := ⟨_, rfl⟩
  rw [← hz₀] at hz hok happ ⊢
  obtain ⟨n₀, hi⟩ := LogRun.Inv.fresh hz hnew (.single _) (hl.setTbl _)
  obtain ⟨hb, hsize, -⟩ := hi.holds.append rfl (hok.mono fun _ _ h => h.stores) happ
  have hsize : (w.file ⟨nameA, 0⟩).size = znsMaxBuf + 1 := by
    rw [hsize, hdata]
    show (0 + (znsMaxBuf + 1)) % 2 ^ 64 = _
    decide
  have hrec : LastRecord ⟨nameA, 0⟩ w (some 0) := by
    rcases hi.record.append hi.holds rfl hok happ with ⟨hfit, -⟩ | ⟨-, hrec, -⟩
    · rw [hdata] at hfit
      exact absurd (le_trans (Nat.le_add_left _ _) hfit) (Nat.not_succ_le_self _)
    · exact hrec
  -- the Truncate
  obtain ⟨e₂, htr⟩ : ∃ e₂, e₂ = w.env.setFile 0 { w.file ⟨nameA, 0⟩ with
    cache := (w.file ⟨nameA, 0⟩).cache.map fun c => c.take 0, size := znsMaxBuf } := ⟨_, rfl⟩
  have htrun : truncate w.env ⟨nameA, 0⟩ znsMaxBuf = .ok e₂ := by
    have hcut : ((w.file ⟨nameA, 0⟩).size + 2 ^ 64 - znsMaxBuf) % 2 ^ 64 = 1 := by
      rw [hsize]
      omega
    rw [htr]
    exact truncate_cut (if_neg (by rw [hb.alive]; decide)) hcached hcut (le_refl 1)
  have hfile : (World.mk w.z e₂).file ⟨nameA, 0⟩ = { w.file ⟨nameA, 0⟩ with
      cache := (w.file ⟨nameA, 0⟩).cache.map fun c => c.take 0, size := znsMaxBuf } := by
    rw [htr]
    exact World.file_setFile (h := ⟨nameA, 0⟩) _ _ _
  have hrec' : LastRecord ⟨nameA, 0⟩ ⟨w.z, e₂⟩ (some 0) := by
    rw [htr]
    exact hrec.touch rfl rfl rfl
  have h₁ : LogRun.step ⟨nameA, 0⟩ ⟨⟨z, e.setTbl (.single newA)⟩, false⟩ (.append data [io])
      = some ⟨w, true⟩ := by
    have hstale : FileCall.stale ⟨nameA, 0⟩ ⟨⟨z, e.setTbl (.single newA)⟩, false⟩
        (.append data [io]) = true := by
      rw [FileCall.stale, hdata, if_neg (Nat.not_le_of_lt (Nat.lt_of_lt_of_le
        (Nat.lt_succ_self _) (Nat.le_add_left _ _))),
        decide_eq_false fun hboth => Nat.not_succ_le_self _ hboth.2]
      rfl
    rw [LogRun.step, FileCall.run, happ, hstale]
    rfl
  have h₂ : LogRun.step ⟨nameA, 0⟩ ⟨w, true⟩ (.truncate znsMaxBuf) = some ⟨⟨w.z, e₂⟩, true⟩ := by
    rw [LogRun.step, FileCall.run, htrun]
    rfl
  have hm : (w.file ⟨nameA, 0⟩).map ≠ [] := by
    intro hm
    have hlen := congrArg List.length hb.bytes
    rw [hm, fileBytes_nil, nil_append, hcached, nil_append, hdata] at hlen
    exact absurd hlen (by decide)
  obtain ⟨seq, recs, hlog, hsz⟩ := hrec'.log
  obtain ⟨r, hr, hr0⟩ := map_eq_some_iff.mp hsz
  refine ⟨e, _, _, data, io, ⟨⟨w.z, e₂⟩, true⟩, seq, recs, r, hnew, .single _, ⟨_, _, hl.setTbl _⟩,
    .cons hok h₁ (.one (show znsMaxBuf < 2 ^ 64 by decide) h₂), ?_, ?_, hlog, hr, hr0, ?_⟩
  · rw [hfile, ZnsFile.cachedBytes]
    cases (w.file ⟨nameA, 0⟩).cache <;> rfl
  · rw [hfile]
    exact hm
  · rw [hfile]

end Xztl
