import Xztl.Zrocks.Api

/-!
# Zrocks — what a read that returns has read (`zrocks_read`)

An attempt at a read of several commands is a history of events: a completion stores its part of the
buffer, leads to another try, or takes the command off without its data, either because the device
does not take it again or because it has failed three times; and a drain that gives up leaves
commands behind.

**`read_ok_iff`**: of a call that returns `XZTL_OK`, the last attempt has completed every command and
the buffer holds the bytes of the node exactly when no command was lost in one of these ways.  None
of them need show in what the attempt returns (`read_stale`).

**`retryLaw_iff`** is about the loop around the attempts: `ucmd.status` outlives the attempt that set
it, so an attempt that succeeds counts as one only when no command of an earlier one has failed.
-/

namespace Xztl

open Function List

/-! ### The events of an attempt -/

/-- What becomes of a command: its data is stored, it is tried again, it is not taken again, it has
failed for the last time (with the status it leaves in `ucmd`), or the drain leaves it behind. -/
inductive ReadEvent where
  | stored (k : Nat)
  | retried (k : Nat)
  | dropped (k : Nat)
  | failed (k status : Nat)
  | abandoned (k : Nat)
deriving DecidableEq, Repr

/-- The event loses no data. -/
def ReadEvent.Good : ReadEvent → Prop
  | .stored _ | .retried _ => True
  | .dropped _ | .failed _ _ | .abandoned _ => False

instance (e : ReadEvent) : Decidable e.Good :=
  match e with
  | .stored _ | .retried _ => .isTrue trivial
  | .dropped _ | .failed _ _ | .abandoned _ => .isFalse id

/-- The events of a drain with the commands `os` in flight. -/
def drainEvents : List ReadCpl → (os : List Nat) → (errCnt : Nat → Nat) → List ReadEvent
  | [], os, _ => os.map .abandoned
  | c :: cs, os, errCnt =>
    if os = [] then []
    else if c.cmd ∈ os then
      let e := errCnt c.cmd + 1
      if c.status ≠ 0 then
        if e < maxCallbackErrCnt then
          if c.resubmit then
            .retried c.cmd ::
              drainEvents cs (c.cmd :: os.erase c.cmd) (update errCnt c.cmd e)
          else .dropped c.cmd :: drainEvents cs (os.erase c.cmd) (update errCnt c.cmd e)
        else
          .failed c.cmd (c.status % 2 ^ 8) ::
            drainEvents cs (os.erase c.cmd) (update errCnt c.cmd e)
      else .stored c.cmd :: drainEvents cs (os.erase c.cmd) errCnt
    else drainEvents cs os errCnt

/-- The events of an attempt with `m` commands. -/
def ReadAns.events (a : ReadAns) (m : Nat) : List ReadEvent :=
  drainEvents a.cpls (List.range m) fun _ => 0

/-- Command `k` of the `m` commands of an attempt completes with status zero.  A single command is
read synchronously. -/
def ReadAns.Completes (a : ReadAns) (m k : Nat) : Prop :=
  if m = 1 then a.ret = 0 else .stored k ∈ a.events m

instance (a : ReadAns) (m k : Nat) : Decidable (a.Completes m k) :=
  inferInstanceAs (Decidable (ite _ _ _))

/-- No command of an attempt is lost: the device takes every command again that the callback
resubmits, none fails three times, and the drain leaves none behind. -/
def ReadAns.Faultless (a : ReadAns) (m : Nat) : Prop := m ≠ 1 → ∀ e ∈ a.events m, e.Good

/-- **A drain, one event after the other**: the states it goes through, from the first to the one it
leaves. -/
inductive Drains (d : Dev) (cmds : List ReadCmd) :
    ReadState → List ReadEvent → ReadState → Prop where
  | ended {s : ReadState} : s.outstanding = [] → Drains d cmds s [] s
  | left {s : ReadState} : Drains d cmds s (s.outstanding.map .abandoned) s
  | stored {s s' : ReadState} {es : List ReadEvent} {c : ReadCpl} : c.cmd ∈ s.outstanding →
      c.status = 0 →
      Drains d cmds
        (ztlIoReadCallbackMcmd d cmds { s with outstanding := s.outstanding.erase c.cmd } c) es s' →
      Drains d cmds s (.stored c.cmd :: es) s'
  | retried {s s' : ReadState} {es : List ReadEvent} {k : Nat} {errCnt : Nat → Nat} :
      k ∈ s.outstanding →
      Drains d cmds { s with outstanding := k :: s.outstanding.erase k, errCnt := errCnt } es s' →
      Drains d cmds s (.retried k :: es) s'
  | dropped {s s' : ReadState} {es : List ReadEvent} {k : Nat} {errCnt : Nat → Nat} :
      k ∈ s.outstanding →
      Drains d cmds { s with outstanding := s.outstanding.erase k, errCnt := errCnt } es s' →
      Drains d cmds s (.dropped k :: es) s'
  | failed {s s' : ReadState} {es : List ReadEvent} {k status : Nat} {errCnt : Nat → Nat} :
      k ∈ s.outstanding →
      Drains d cmds { s with
        outstanding := s.outstanding.erase k, errCnt := errCnt, status := status } es s' →
      Drains d cmds s (.failed k status :: es) s'

section

variable {d : Dev} {cmds : List ReadCmd} {s s' : ReadState} {es : List ReadEvent}
  {n offset size units : Nat} {buf : Nat → UInt8}

theorem drains_of_readDrain {giveUp : Bool} (cpls : List ReadCpl) : ∀ {s s' : ReadState},
    readDrain d cmds giveUp cpls s = .ok s' →
    Drains d cmds s (drainEvents cpls s.outstanding s.errCnt) s' := by
  induction cpls with
  | nil =>
    intro s s' e
    rw [readDrain] at e
    split at e
    · cases e
      exact .left
    · cases e
  | cons c cs ih =>
    intro s s' e
    rw [readDrain] at e
    rw [drainEvents]
    by_cases hnil : s.outstanding = []
    · rw [if_pos hnil] at e ⊢
      cases e
      exact .ended hnil
    rw [if_neg hnil] at e ⊢
    by_cases hc : c.cmd ∈ s.outstanding
    · rw [if_pos hc] at e ⊢
      have t := ih e
      by_cases hst : c.status = 0
      · have hcb := ztlIoReadCallbackMcmd_zero d cmds
          { s with outstanding := s.outstanding.erase c.cmd } hst
        rw [if_neg (not_not.mpr hst)]
        refine .stored hc hst ?_
        rwa [hcb] at t ⊢
      · simp only [ztlIoReadCallbackMcmd, ne_eq, hst, not_false_eq_true, if_true] at t ⊢
        split at t
        · next hlt =>
          rw [if_pos hlt]
          split at t
          · next hre =>
            rw [if_pos hre]
            exact .retried hc t
          · next hre =>
            rw [if_neg hre]
            exact .dropped hc t
        · next hlt =>
          rw [if_neg hlt]
          exact .failed hc t
    · rw [if_neg hc] at e ⊢
      exact ih e

/-- A command that is not in flight stores nothing. -/
theorem Drains.not_stored {k : Nat} (h : Drains d cmds s es s') (hk : k ∉ s.outstanding) :
    .stored k ∉ es := by
  induction h with
  | ended => exact not_mem_nil
  | left =>
    intro hmem
    obtain ⟨l, -, hl⟩ := mem_map.mp hmem
    cases hl
  | stored hc h0 _ ih =>
    rw [ztlIoReadCallbackMcmd_zero d cmds _ h0] at ih
    have hne := ne_of_mem_of_not_mem hc hk
    simpa [hne.symm] using ih fun h => hk (mem_of_mem_erase h)
  | retried hc _ ih =>
    simpa using ih fun h => hk ((perm_cons_erase hc).mem_iff.mpr h)
  | dropped _ _ ih | failed _ _ ih => simpa using ih fun h => hk (mem_of_mem_erase h)

/-- A lost command completes neither now nor later. -/
theorem Drains.lost_iff {e : ReadEvent} {k : Nat} (h : Drains d cmds s' es s) (hk : k ∉ s'.outstanding)
    (he : ¬ e.Good) {os : List Nat} (hmem : k ∈ os) :
    (∀ k ∈ os, .stored k ∈ e :: es) ↔ ∀ e' ∈ e :: es, e'.Good := by
  refine iff_of_false (fun hall => ?_) fun hall => he (hall e mem_cons_self)
  rcases mem_cons.mp (hall k hmem) with h' | h'
  · exact he (h' ▸ trivial)
  · exact h.not_stored hk h'

/-- **Every command completes exactly when none is lost.** -/
theorem Drains.stored_iff_good (h : Drains d cmds s es s') (hnd : s.outstanding.Nodup) :
    (∀ k ∈ s.outstanding, .stored k ∈ es) ↔ ∀ e ∈ es, e.Good := by
  induction h with
  | ended hnil => simp [hnil]
  | left =>
    constructor
    · intro h e he
      obtain ⟨k, hk, rfl⟩ := mem_map.mp he
      obtain ⟨l, -, hl⟩ := mem_map.mp (h k hk)
      cases hl
    · exact fun h k hk => absurd (h _ (mem_map_of_mem hk)) id
  | @stored s s' es c hc h0 _ ih =>
    rw [ztlIoReadCallbackMcmd_zero d cmds _ h0] at ih
    rw [forall_mem_cons, ← ih (hnd.erase c.cmd)]
    constructor
    · refine fun h => ⟨trivial, fun k hk => ?_⟩
      obtain ⟨hne, hk⟩ := hnd.mem_erase_iff.mp hk
      simpa [hne] using h k hk
    · intro h k hk
      by_cases e : k = c.cmd
      · exact e ▸ mem_cons_self
      · exact mem_cons_of_mem _ (h.2 k (hnd.mem_erase_iff.mpr ⟨e, hk⟩))
  | retried hc _ ih =>
    have hperm := perm_cons_erase hc
    rw [forall_mem_cons, ← ih (hperm.nodup hnd)]
    constructor
    · refine fun h => ⟨trivial, fun k hk => ?_⟩
      simpa using h k (hperm.mem_iff.mpr hk)
    · exact fun h k hk => mem_cons_of_mem _ (h.2 k (hperm.mem_iff.mp hk))
  | dropped hc t | failed hc t => exact t.lost_iff hnd.not_mem_erase id hc

/-- **A drain that loses no command** ends with everything in place and the status untouched. -/
theorem Drains.good (h : Drains d cmds s es s') (hr : Reads cmds n offset 0 size units) {status : Nat}
    (hinv : DrainInv d cmds n offset status buf s) (hev : ∀ e ∈ es, e.Good) :
    DrainInv d cmds n offset status buf s' ∧ s'.outstanding = [] := by
  induction h with
  | ended hnil => exact ⟨hinv, hnil⟩
  | left =>
    exact ⟨hinv, eq_nil_iff_forall_not_mem.mpr fun k hk => hev _ (mem_map_of_mem hk)⟩
  | stored hc h0 _ ih => exact ih (hinv.step hr hc h0) fun e he => hev e (mem_cons_of_mem _ he)
  | retried hc _ ih =>
    have hperm := perm_cons_erase hc
    refine ih ⟨fun k hk => hinv.lt k (hperm.mem_iff.mpr hk), hperm.nodup hinv.nodup, hinv.status,
      fun k hk hout => hinv.done k hk fun hm => hout (hperm.mem_iff.mp hm), hinv.other⟩
      fun e he => hev e (mem_cons_of_mem _ he)
  | dropped | failed => exact absurd (hev _ mem_cons_self) id

/-- Whatever becomes of the commands, a drain writes no byte outside their copy ranges. -/
theorem Drains.frame (h : Drains d cmds s es s') (hlt : ∀ k ∈ s.outstanding, k < cmds.length) {i : Nat}
    (hi : ∀ c ∈ cmds, ¬ c.Writes i) : s'.buf i = s.buf i := by
  induction h with
  | ended | left => rfl
  | @stored s s' es c hc h0 _ ih =>
    rw [ztlIoReadCallbackMcmd_zero d cmds _ h0] at ih
    have hget : cmds.getD c.cmd ⟨0, 0, 0, 0, 0⟩ = cmds.get ⟨c.cmd, hlt _ hc⟩ := by
      simp [getD_eq_getElem?_getD, hlt _ hc]
    rw [ih fun k hk => hlt k (mem_of_mem_erase hk), hget]
    exact ReadCmd.copy_of_not_writes (hi _ (get_mem _ _)) _ _
  | retried hc _ ih => exact ih fun k hk => hlt k ((perm_cons_erase hc).mem_iff.mpr hk)
  | dropped _ _ ih | failed _ _ ih => exact ih fun k hk => hlt k (mem_of_mem_erase hk)

end

/-! ### The last attempt -/

section

variable {z : Ztl} {n offset size status ret status' : Nat} {buf buf' : Nat → UInt8} {a : ReadAns}

/-- **What an attempt comes to**: no resource, a single command, or the drain of several. -/
theorem ztlIoRead_cases (e : ztlIoRead z n offset size status buf a = .ok (ret, status', buf')) :
    let cmds := readCmds (z.slotSect n) offset size
    (a.rs = false ∧ ret = xztlZtlIoErr ∧ status' = status ∧ buf' = buf) ∨
    a.rs = true ∧ ((∃ c, cmds = [c] ∧ ret = a.ret ∧ status' = status ∧
      buf' = c.copy (if a.ret = 0 then c.prp z.dev else a.stale) buf) ∨
    (cmds.length ≠ 1 ∧ ret = 0 ∧ ∃ s, readDrain z.dev cmds a.giveUp a.cpls
      (.start cmds.length status buf) = .ok s ∧ status' = s.status ∧ buf' = s.buf)) := by
  intro cmds
  rw [ztlIoRead] at e
  split at e
  · next hrs =>
    refine Or.inr ⟨hrs, ?_⟩
    rw [ztlIoReadUcmd] at e
    split at e
    · cases e
    · have hcmds : readCmds (fun i => (z.vzones ((z.vnodes n).vzones i)).sect) offset size = cmds :=
        rfl
      rw [hcmds] at e
      clear_value cmds
      split at e
      · next c =>
        cases e
        exact Or.inl ⟨c, rfl, rfl, rfl, rfl⟩
      · next hne =>
        obtain ⟨-, -, e⟩ := Except.bind_eq_ok.mp e
        obtain ⟨s, es, e⟩ := Except.bind_eq_ok.mp e
        cases e
        refine Or.inr ⟨fun hlen => ?_, rfl, s, es, rfl, rfl⟩
        obtain ⟨c, hc⟩ := length_eq_one_iff.mp hlen
        exact hne c hc
  · next hrs =>
    cases e
    exact Or.inl ⟨Bool.not_eq_true _ ▸ hrs, rfl, rfl, rfl⟩

/-- The commands of a read, for a node of the group. -/
theorem Geometry.reads (hg : Geometry z) (hn : n < z.nnodes) (offset size : Nat) :
    Reads (readCmds (z.slotSect n) offset size) n offset 0 size
      ((offset % unitBytes + size + (unitBytes - 1)) / unitBytes) :=
  readCmds_spec (fun _ hi => hg.slotSect hn hi) offset size

/-- An attempt writes no byte behind the read. -/
theorem ztlIoRead_frame (hg : Geometry z) (hn : n < z.nnodes)
    (e : ztlIoRead z n offset size status buf a = .ok (ret, status', buf')) {i : Nat}
    (hi : size ≤ i) : buf' i = buf i := by
  have hr := hg.reads hn offset size
  have hnot : ∀ c ∈ readCmds (z.slotSect n) offset size, ¬ c.Writes i := fun c hc hw => by
    have := hr.within c hc i hw
    omega
  rcases ztlIoRead_cases e with ⟨-, -, -, rfl⟩ | ⟨-, ⟨c, hc, -, -, rfl⟩ | ⟨-, -, s, es, -, rfl⟩⟩
  · rfl
  · exact ReadCmd.copy_of_not_writes (hnot c (hc ▸ mem_singleton_self c)) _ _
  · exact (drains_of_readDrain _ es).frame (fun k hk => mem_range.mp hk) hnot

/-- **An attempt that returns zero and leaves the status zero** has read everything exactly when it
has lost no command. -/
theorem ztlIoRead_complete_iff (hg : Geometry z) (hn : n < z.nnodes)
    (e : ztlIoRead z n offset size status buf a = .ok (0, 0, buf')) :
    let m := (readCmds (z.slotSect n) offset size).length
    (∀ k < m, a.Completes m k) ∧ buf' = readBuf z.dev n offset size buf ↔ a.Faultless m := by
  intro m
  have hr := hg.reads hn offset size
  rcases ztlIoRead_cases e with ⟨-, h0, -⟩ | ⟨-, ⟨c, hc, hret, -, rfl⟩ | ⟨hm, -, s, es, hst, rfl⟩⟩
  · cases h0
  · have hm : m = 1 := by
      show (readCmds _ _ _).length = 1
      rw [hc]
      rfl
    refine iff_of_true ⟨fun k _ => ?_, ?_⟩ fun h => absurd hm h
    · rw [ReadAns.Completes, if_pos hm]
      exact hret.symm
    · rw [hc] at hr
      rw [if_pos hret.symm, hr.copy_single]
  · have hm' : m ≠ 1 := hm
    have hiff : (∀ k < m, a.Completes m k) ↔ a.Faultless m := by
      have h : (∀ k ∈ List.range m, .stored k ∈ a.events m) ↔ ∀ e ∈ a.events m, e.Good :=
        (drains_of_readDrain _ es).stored_iff_good nodup_range
      simp only [mem_range] at h
      have hc : ∀ k, a.Completes m k ↔ .stored k ∈ a.events m := fun k => by
        rw [ReadAns.Completes, if_neg hm']
      have hf : a.Faultless m ↔ ∀ e ∈ a.events m, e.Good := ⟨fun h => h hm', fun h _ => h⟩
      rw [hf, ← h]
      exact forall₂_congr fun k _ => hc k
    rw [hiff, and_iff_left_iff_imp]
    intro hf
    obtain ⟨hd, hnil⟩ := (drains_of_readDrain _ es).good hr
      (DrainInv.start z.dev _ n offset status buf) (hf hm)
    exact hd.readBuf hr hnil

/-- A call that returns has made its attempts one after the other; all but the last were in vain. -/
theorem readAttempts_last {code : Nat} (as : List ReadAns) : ∀ {retry status : Nat}
    {buf : Nat → UInt8}, readAttempts z n offset size as retry status buf = .ok (code, buf') →
    ∃ pre a post status1 buf1 ret status2, as = pre ++ a :: post ∧
      readAttempts z n offset size pre retry status buf = .error .waiting ∧
      ztlIoRead z n offset size status1 buf1 a = .ok (ret, status2, buf') ∧
      (code = xztlOk → ret = 0 ∧ status2 = 0) ∧
      (Geometry z → n < z.nnodes → ∀ i, size ≤ i → buf1 i = buf i) := by
  induction as with
  | nil =>
    intro retry status buf e
    cases e
  | cons a as ih =>
    intro retry status buf e
    rw [readAttempts] at e
    rcases hread : ztlIoRead z n offset size status buf a with err | ⟨ret, status1, buf1⟩
    · rw [hread] at e
      cases e
    · rw [hread] at e
      dsimp only at e
      by_cases hbad : ret ≠ 0 ∨ status1 ≠ 0
      · rw [if_pos hbad] at e
        by_cases hmore : (if status1 = 22 then 0 else retry) + 1 < zrocksReadMaxRetry
        · rw [if_pos hmore] at e
          obtain ⟨pre, a', post, st, b, ret', st', rfl, hpre, hlast', hok, hframe⟩ := ih e
          refine ⟨a :: pre, a', post, st, b, ret', st', rfl, ?_, hlast', hok, fun hg hn i hi => ?_⟩
          · rw [readAttempts, hread]
            dsimp only
            rw [if_pos hbad, if_pos hmore]
            exact hpre
          · rw [hframe hg hn i hi]
            exact ztlIoRead_frame hg hn hread hi
        · rw [if_neg hmore] at e
          cases e
          exact ⟨[], a, as, status, buf, ret, status1, rfl, rfl, hread, (fun h => by cases h),
            fun _ _ _ _ => rfl⟩
      · rw [if_neg hbad] at e
        cases e
        push Not at hbad
        exact ⟨[], a, as, status, buf, ret, status1, rfl, rfl, hread, fun _ => hbad,
          fun _ _ _ _ => rfl⟩

/-- **A read that returns `XZTL_OK`.**  The commands of its last attempt have all completed with status
zero, and the buffer holds the bytes of the node, exactly when no command of that attempt was lost:
the device took every command again that the callback resubmitted, none failed three times, and the
drain left none behind. -/
theorem read_ok_iff {as : List ReadAns} (hg : Geometry z) (hn : n < z.nnodes)
    (e : zrocksRead z n offset size buf as = .ok (xztlOk, buf')) :
    ∃ pre a post, as = pre ++ a :: post ∧
      zrocksRead z n offset size buf pre = .error .waiting ∧
      let m := (readCmds (z.slotSect n) offset size).length
      ((∀ k < m, a.Completes m k) ∧ buf' = readBuf z.dev n offset size buf ↔ a.Faultless m) := by
  obtain ⟨pre, a, post, status₁, buf₁, ret, status₂, rfl, hpre, hlast, hok, hframe⟩ :=
    readAttempts_last as e
  obtain ⟨rfl, rfl⟩ := hok rfl
  have hbuf : readBuf z.dev n offset size buf₁ = readBuf z.dev n offset size buf := by
    funext i
    rw [readBuf, readBuf]
    by_cases hi : i < size
    · rw [if_pos hi, if_pos hi]
    · rw [if_neg hi, if_neg hi, hframe hg hn i (Nat.le_of_not_lt hi)]
  refine ⟨pre, a, post, rfl, hpre, ?_⟩
  rw [← hbuf]
  exact ztlIoRead_complete_iff hg hn hlast

/-- The first of two commands fails and is taken again, and both complete, the second one first. -/
def retriedAns : ReadAns where
  rs := true
  ret := 0
  stale := fun _ => 0
  accept := [fun _ => true]
  cpls := [⟨0, 1, true⟩, ⟨1, 0, true⟩, ⟨0, 0, true⟩]
  giveUp := false

/-- A read of two units of a device full of ones, with a command that is submitted again. -/
theorem read_ok_iff_retried :
    let z := Ztl.fresh oneNode ⟨fun _ _ => 1, []⟩
    zrocksRead z 0 0 (2 * unitBytes) (fun _ => 0) [retriedAns]
        = .ok (xztlOk, readBuf z.dev 0 0 (2 * unitBytes) fun _ => 0) ∧
      (readCmds (z.slotSect 0) 0 (2 * unitBytes)).length = 2 ∧ ∀ k < 2, retriedAns.Completes 2 k := by
  intro z
  have hg : Geometry z := (Alloc.fresh oneNode _).geometry
  have e : zrocksRead z 0 0 (2 * unitBytes) (fun _ => 0) [retriedAns] = .ok (xztlOk, _) := rfl
  obtain ⟨pre, a, post, has, -, hiff⟩ := read_ok_iff hg Nat.one_pos e
  obtain ⟨rfl, h⟩ := append_eq_singleton_iff.mp has.symm |>.resolve_right fun h => by cases h.2
  cases h
  obtain ⟨hall, hbuf⟩ := hiff.mpr fun _ => by decide
  exact ⟨hbuf ▸ e, rfl, hall⟩

/-- The device completes the first of two commands with an error and does not take it again. -/
def refusedAns : ReadAns where
  rs := true
  ret := 0
  stale := fun _ => 0
  accept := [fun _ => true]
  cpls := [⟨0, 1, false⟩, ⟨1, 0, true⟩]
  giveUp := false

/-- **Stale data under `XZTL_OK`.**  Two units of a device full of ones are read over a buffer of
zeros: the first command is lost, the call returns `XZTL_OK`, and the first byte is still zero. -/
theorem read_stale :
    let z := Ztl.fresh oneNode ⟨fun _ _ => 1, []⟩
    ∃ buf', zrocksRead z 0 0 (2 * unitBytes) (fun _ => 0) [refusedAns] = .ok (xztlOk, buf') ∧
      ¬ refusedAns.Completes (readCmds (z.slotSect 0) 0 (2 * unitBytes)).length 0 ∧
      buf' 0 ≠ nodeByte z.dev 0 0 :=
  ⟨_, rfl, by decide, by decide⟩

end

/-! ### The loop around the attempts -/

/-- What one call of `read_fn` comes to: its return code, whether all its commands succeeded, and what
the last command that failed for good left in `ucmd.status`.  A call that returns non-zero has run no
command's callback. -/
structure Attempt where
  ret : Nat
  all : Bool
  failed : Option Nat
  of_all : all = true → failed = none
  of_ret : ret ≠ 0 → failed = none

/-- The attempt fully succeeds. -/
def Attempt.Full (a : Attempt) : Prop := a.ret = 0 ∧ a.all = true

/-- The `READ_FAIL` loop over given attempts: the value it returns, if it does. -/
def readRetry : List Attempt → (retry status : Nat) → Option Nat
  | [], _, _ => none
  | a :: as, retry, status =>
    let status := a.failed.getD status
    if a.ret ≠ 0 ∨ status ≠ 0 then
      let retry := (if status = 22 then 0 else retry) + 1
      if retry < zrocksReadMaxRetry then readRetry as retry status else some xztlZrocksReadErr
    else some xztlOk

/-- What the failed commands of a drain leave in `ucmd.status`. -/
def failedStatus : List ReadEvent → Option Nat
  | [] => none
  | .failed _ st :: es => (failedStatus es).or (some st)
  | _ :: es => failedStatus es

theorem failedStatus_of_good {es : List ReadEvent} (h : ∀ e ∈ es, e.Good) :
    failedStatus es = none := by
  induction es with
  | nil => rfl
  | cons e es ih =>
    have hes := ih fun e he => h e (mem_cons_of_mem _ he)
    have he := h e mem_cons_self
    cases e with
    | stored k => exact hes
    | retried k => exact hes
    | dropped k => exact he.elim
    | failed k st => exact he.elim
    | abandoned k => exact he.elim

/-- The attempt the device's answers make. -/
def ReadAns.attempt (a : ReadAns) (m : Nat) : Attempt :=
  if a.rs = false then ⟨xztlZtlIoErr, false, none, nofun, fun _ => rfl⟩
  else if m = 1 then ⟨a.ret, a.ret = 0, none, fun _ => rfl, fun _ => rfl⟩
  else ⟨0, ∀ e ∈ a.events m, e.Good, failedStatus (a.events m),
    fun h => failedStatus_of_good (of_decide_eq_true h), fun h => absurd rfl h⟩

section

variable {z : Ztl} {n offset size : Nat} {a : ReadAns}

/-- **The status after a drain** is the one of the last command that failed for good. -/
theorem Drains.status_eq {d : Dev} {cmds : List ReadCmd} {s s' : ReadState} {es : List ReadEvent}
    (h : Drains d cmds s es s') : s'.status = (failedStatus es).getD s.status := by
  induction h with
  | ended | dropped _ _ ih | retried _ _ ih => first | rfl | exact ih
  | @left s =>
    have hnone : ∀ os : List Nat, failedStatus (os.map .abandoned) = none := fun os => by
      induction os with
      | nil => rfl
      | cons k os ih => exact ih
    rw [hnone]
    rfl
  | stored _ h0 _ ih =>
    rwa [ztlIoReadCallbackMcmd_zero d cmds _ h0] at ih
  | @failed _ _ es _ _ _ _ _ ih =>
    rw [ih, failedStatus]
    cases failedStatus es <;> rfl

/-- An attempt returns and leaves the status as its summary says. -/
theorem ztlIoRead_attempt {status ret status' : Nat} {buf buf' : Nat → UInt8}
    (e : ztlIoRead z n offset size status buf a = .ok (ret, status', buf')) :
    let b := a.attempt (readCmds (z.slotSect n) offset size).length
    ret = b.ret ∧ status' = b.failed.getD status := by
  intro b
  rcases ztlIoRead_cases e with
    ⟨hrs, rfl, rfl, -⟩ | ⟨hrs, ⟨c, hc, rfl, rfl, -⟩ | ⟨hm, rfl, s, es, rfl, -⟩⟩
  · have hb : b = ⟨xztlZtlIoErr, false, none, nofun, fun _ => rfl⟩ := if_pos hrs
    rw [hb]
    exact ⟨rfl, rfl⟩
  · have hrs' : ¬ a.rs = false := by rw [hrs]; exact Bool.noConfusion
    have hb : b = ⟨a.ret, a.ret = 0, none, fun _ => rfl, fun _ => rfl⟩ := by
      show a.attempt _ = _
      rw [ReadAns.attempt, if_neg hrs', if_pos (by rw [hc]; rfl)]
    rw [hb]
    exact ⟨rfl, rfl⟩
  · have hrs' : ¬ a.rs = false := by rw [hrs]; exact Bool.noConfusion
    have hfailed : b.ret = 0 ∧
        b.failed = failedStatus (a.events (readCmds (z.slotSect n) offset size).length) := by
      show (a.attempt _).ret = 0 ∧ (a.attempt _).failed = _
      rw [ReadAns.attempt, if_neg hrs', if_neg hm]
      exact ⟨rfl, rfl⟩
    rw [hfailed.1, hfailed.2]
    exact ⟨rfl, (drains_of_readDrain _ es).status_eq⟩

/-- **The loop of `zrocks_read` is the loop over its attempts.** -/
theorem readAttempts_retry {code : Nat} {buf' : Nat → UInt8} (as : List ReadAns) :
    ∀ {retry status : Nat} {buf : Nat → UInt8},
      readAttempts z n offset size as retry status buf = .ok (code, buf') →
      readRetry (as.map (ReadAns.attempt · (readCmds (z.slotSect n) offset size).length)) retry status
        = some code := by
  induction as with
  | nil =>
    intro retry status buf e
    cases e
  | cons a as ih =>
    intro retry status buf e
    rw [readAttempts] at e
    rcases hread : ztlIoRead z n offset size status buf a with err | ⟨ret, status1, buf1⟩
    · rw [hread] at e
      cases e
    · rw [hread] at e
      obtain ⟨hret, hst⟩ := ztlIoRead_attempt hread
      dsimp only at e
      rw [map_cons, readRetry]
      rw [← hret, ← hst]
      by_cases hbad : ret ≠ 0 ∨ status1 ≠ 0
      · rw [if_pos hbad] at e ⊢
        by_cases hmore : (if status1 = 22 then 0 else retry) + 1 < zrocksReadMaxRetry
        · rw [if_pos hmore] at e ⊢
          exact ih e
        · rw [if_neg hmore] at e ⊢
          cases e
          rfl
      · rw [if_neg hbad] at e ⊢
        cases e
        rfl

/-- Two units, read in the second attempt, with a command that is submitted again. -/
theorem readAttempts_retry_two :
    let z := Ztl.fresh oneNode ⟨fun _ _ => 1, []⟩
    let as := [{ retriedAns with rs := false }, retriedAns]
    (∃ buf', readAttempts z 0 0 (2 * unitBytes) as 0 0 (fun _ => 0) = .ok (xztlOk, buf')) ∧
    readRetry (as.map (ReadAns.attempt · (readCmds (z.slotSect 0) 0 (2 * unitBytes)).length)) 0 0
      = some xztlOk := by
  intro z as
  have e : readAttempts z 0 0 (2 * unitBytes) as 0 0 (fun _ => 0) = .ok (xztlOk, _) := rfl
  exact ⟨⟨_, e⟩, readAttempts_retry as e⟩

end

/-! ### The law of the loop -/

/-- `N` attempts of the sequence `x`, from the `i`-th on. -/
def attemptsFrom (x : Nat → Attempt) : (i N : Nat) → List Attempt
  | _, 0 => []
  | i, N + 1 => x i :: attemptsFrom x (i + 1) N

/-- The status before attempt `i`: that of the last command that failed for good so far. -/
def statusBefore (x : Nat → Attempt) : Nat → Nat
  | 0 => 0
  | i + 1 => (x i).failed.getD (statusBefore x i)

/-- The count of attempts before attempt `i`. -/
def retryBefore (x : Nat → Attempt) : Nat → Nat
  | 0 => 0
  | i + 1 => (if statusBefore x (i + 1) = 22 then 0 else retryBefore x i) + 1

/-- Attempt `i` counts as failed. -/
def Bad (x : Nat → Attempt) (i : Nat) : Prop := (x i).ret ≠ 0 ∨ statusBefore x (i + 1) ≠ 0

instance (x : Nat → Attempt) (i : Nat) : Decidable (Bad x i) :=
  inferInstanceAs (Decidable (_ ∨ _))

section

variable {x : Nat → Attempt}

theorem readRetry_attemptsFrom (x : Nat → Attempt) (i N : Nat) :
    readRetry (attemptsFrom x i (N + 1)) (retryBefore x i) (statusBefore x i) =
      if Bad x i then
        if retryBefore x (i + 1) < zrocksReadMaxRetry then
          readRetry (attemptsFrom x (i + 1) N) (retryBefore x (i + 1)) (statusBefore x (i + 1))
        else some xztlZrocksReadErr
      else some xztlOk := rfl

/-- The loop asks for another attempt as long as all count as failed and the count is below three. -/
theorem readRetry_eq_none_iff (N : Nat) :
    ∀ i, readRetry (attemptsFrom x i N) (retryBefore x i) (statusBefore x i) = none ↔
      ∀ k < N, Bad x (i + k) ∧ retryBefore x (i + k + 1) < zrocksReadMaxRetry := by
  induction N with
  | zero => exact fun i => iff_of_true rfl fun k hk => absurd hk (Nat.not_lt_zero k)
  | succ N ih =>
    intro i
    have hsplit : (∀ k < N + 1, Bad x (i + k) ∧ retryBefore x (i + k + 1) < zrocksReadMaxRetry) ↔
        (Bad x i ∧ retryBefore x (i + 1) < zrocksReadMaxRetry) ∧ ∀ k < N,
          Bad x (i + 1 + k) ∧ retryBefore x (i + 1 + k + 1) < zrocksReadMaxRetry := by
      rw [Nat.forall_lt_succ_left]
      simp only [Nat.add_zero, Nat.add_assoc, Nat.add_comm 1]
    rw [hsplit, ← ih (i + 1), readRetry_attemptsFrom]
    by_cases hbad : Bad x i
    · rw [if_pos hbad]
      by_cases hmore : retryBefore x (i + 1) < zrocksReadMaxRetry
      · rw [if_pos hmore]
        exact ⟨fun h => ⟨⟨hbad, hmore⟩, h⟩, fun h => h.2⟩
      · rw [if_neg hmore]
        exact iff_of_false nofun fun h => hmore h.1.2
    · rw [if_neg hbad]
      exact iff_of_false nofun fun h => hbad h.1.1

/-- When it asks for attempt `N`, it returns `XZTL_OK` after it exactly when that counts as a
success. -/
theorem readRetry_eq_ok_iff (N : Nat) : ∀ i, readRetry (attemptsFrom x i N) (retryBefore x i)
    (statusBefore x i) = none → (readRetry (attemptsFrom x i (N + 1)) (retryBefore x i)
      (statusBefore x i) = some xztlOk ↔ ¬ Bad x (i + N)) := by
  induction N with
  | zero =>
    intro i _
    rw [readRetry_attemptsFrom]
    by_cases hbad : Bad x i
    · rw [if_pos hbad]
      refine iff_of_false ?_ (not_not.mpr hbad)
      split
      · nofun
      · decide
    · rw [if_neg hbad]
      exact iff_of_true rfl hbad
  | succ N ih =>
    intro i h
    have hi : Bad x i ∧ retryBefore x (i + 1) < zrocksReadMaxRetry :=
      (readRetry_eq_none_iff (N + 1) i).mp h 0 (Nat.succ_pos N)
    rw [readRetry_attemptsFrom, if_pos hi.1, if_pos hi.2] at h ⊢
    rw [ih (i + 1) h, show i + 1 + N = i + (N + 1) by omega]

/-- The count never exceeds the number of attempts. -/
theorem retryBefore_le (x : Nat → Attempt) : ∀ i, retryBefore x i ≤ i
  | 0 => le_refl 0
  | i + 1 => by
      have := retryBefore_le x i
      rw [retryBefore]
      split <;> omega

/-- Failures that leave the status zero are failures by the return code. -/
theorem bad_iff_ret (x : Nat → Attempt) (j : Nat) :
    (∀ i < j, Bad x i) ∧ statusBefore x j = 0 ↔ ∀ i < j, (x i).ret ≠ 0 := by
  induction j with
  | zero =>
    have hnone : ∀ {P : Nat → Prop}, ∀ i < 0, P i := fun i hi => absurd hi (Nat.not_lt_zero i)
    exact iff_of_true ⟨hnone, rfl⟩ hnone
  | succ j ih =>
    rw [Nat.forall_lt_succ_right, Nat.forall_lt_succ_right, ← ih]
    constructor
    · rintro ⟨⟨hbad, hj⟩, h0⟩
      have hret : (x j).ret ≠ 0 := hj.resolve_right (not_not.mpr h0)
      rw [statusBefore, (x j).of_ret hret] at h0
      exact ⟨⟨hbad, h0⟩, hret⟩
    · rintro ⟨⟨hbad, h0⟩, hret⟩
      refine ⟨⟨hbad, Or.inl hret⟩, ?_⟩
      rw [statusBefore, (x j).of_ret hret]
      exact h0

/-- **A success among the first three attempts is seen exactly when the attempts before it failed by
their return codes.** -/
theorem seen_iff {j : Nat} (hj : j < 3) (hfull : (x j).Full) :
    readRetry (attemptsFrom x 0 j) 0 0 = none ∧ readRetry (attemptsFrom x 0 (j + 1)) 0 0 = some xztlOk ↔
      ∀ i < j, (x i).ret ≠ 0 := by
  have hnone : readRetry (attemptsFrom x 0 j) 0 0 = none ↔ ∀ i < j, Bad x i := by
    refine (readRetry_eq_none_iff j 0).trans ?_
    simp only [Nat.zero_add]
    refine forall₂_congr fun i hi => and_iff_left ?_
    have := retryBefore_le x (i + 1)
    rw [zrocksReadMaxRetry]
    omega
  have hok : readRetry (attemptsFrom x 0 j) 0 0 = none →
      (readRetry (attemptsFrom x 0 (j + 1)) 0 0 = some xztlOk ↔ statusBefore x j = 0) := fun h => by
    refine (readRetry_eq_ok_iff j 0 h).trans ?_
    rw [Nat.zero_add, Bad, statusBefore, (x j).of_all hfull.2]
    simp [hfull.1]
  rw [and_congr_right hok, hnone]
  exact bad_iff_ret x j

/-- The status after attempt `i` is 22, the value that starts the count again. -/
def Again (x : Nat → Attempt) (i : Nat) : Prop := statusBefore x (i + 1) = 22

instance (x : Nat → Attempt) (i : Nat) : Decidable (Again x i) :=
  inferInstanceAs (Decidable (_ = _))

theorem retryBefore_succ (x : Nat → Attempt) (i : Nat) :
    retryBefore x (i + 1) = if Again x i then 1 else retryBefore x i + 1 := by
  rw [retryBefore]
  by_cases h : Again x i
  · have h' : statusBefore x (i + 1) = 22 := h
    rw [if_pos h, if_pos h']
  · have h' : ¬ statusBefore x (i + 1) = 22 := h
    rw [if_neg h, if_neg h']

/-- **The count stays below three** exactly when 22 comes among the first three attempts and, once it
has come, at the latest every second attempt. -/
theorem retry_lt_iff (x : Nat → Attempt) : (∀ i, retryBefore x (i + 1) < 3) ↔
    (Again x 0 ∨ Again x 1 ∨ Again x 2) ∧ ∀ i, Again x i → Again x (i + 1) ∨ Again x (i + 2) := by
  have h0 : retryBefore x 0 = 0 := rfl
  constructor
  · intro h
    refine ⟨?_, fun i hi => ?_⟩
    · by_contra hcon
      push Not at hcon
      have := h 2
      rw [retryBefore_succ, if_neg hcon.2.2, retryBefore_succ, if_neg hcon.2.1, retryBefore_succ,
        if_neg hcon.1] at this
      omega
    · by_contra hcon
      push Not at hcon
      have := h (i + 2)
      rw [retryBefore_succ, if_neg hcon.2, retryBefore_succ, if_neg hcon.1, retryBefore_succ,
        if_pos hi] at this
      omega
  · rintro ⟨hfirst, hagain⟩
    -- among three attempts in a row there is one after which the status is 22
    have hthree : ∀ i, Again x i ∨ Again x (i + 1) ∨ Again x (i + 2) := fun i => by
      induction i with
      | zero => exact hfirst
      | succ i ih =>
        rcases ih with h | h | h
        · rcases hagain i h with h | h
          · exact Or.inl h
          · exact Or.inr (Or.inl h)
        · exact Or.inl h
        · exact Or.inr (Or.inl h)
    have hle : ∀ i, retryBefore x (i + 1) ≤ retryBefore x i + 1 := fun i => by
      rw [retryBefore_succ]
      split <;> omega
    intro i
    match i with
    | 0 =>
      have := hle 0
      omega
    | 1 =>
      have h1 : retryBefore x 1 ≤ retryBefore x 0 + 1 := hle 0
      have h2 : retryBefore x 2 ≤ retryBefore x 1 + 1 := hle 1
      show retryBefore x 2 < 3
      omega
    | i + 2 =>
      rcases hthree i with h | h | h
      · have h1 := hle (i + 1)
        have h2 := hle (i + 2)
        rw [retryBefore_succ x i, if_pos h] at h1
        rcases hagain i h with h' | h'
        · rw [retryBefore_succ x (i + 1), if_pos h'] at h2
          omega
        · rw [retryBefore_succ x (i + 2), if_pos h']
          omega
      · have h2 := hle (i + 2)
        rw [retryBefore_succ x (i + 1), if_pos h] at h2
        omega
      · rw [retryBefore_succ x (i + 2), if_pos h]
        omega

/-- The loop ends: some attempt counts as a success, or 22 stays away for too long. -/
def Settles (x : Nat → Attempt) : Prop :=
  (∃ i, (x i).ret = 0 ∧ statusBefore x (i + 1) = 0) ∨
    (¬ Again x 0 ∧ ¬ Again x 1 ∧ ¬ Again x 2) ∨
    ∃ i, Again x i ∧ ¬ Again x (i + 1) ∧ ¬ Again x (i + 2)

theorem returns_iff (x : Nat → Attempt) :
    (∃ N, readRetry (attemptsFrom x 0 N) 0 0 ≠ none) ↔ Settles x := by
  have hnever : (∀ N, readRetry (attemptsFrom x 0 N) 0 0 = none) ↔
      (∀ i, Bad x i) ∧ ∀ i, retryBefore x (i + 1) < 3 := by
    rw [← forall_and]
    constructor
    · intro h i
      have := (readRetry_eq_none_iff (i + 1) 0).mp (h (i + 1)) i (Nat.lt_succ_self i)
      rwa [Nat.zero_add] at this
    · exact fun h N => (readRetry_eq_none_iff N 0).mpr fun k _ => by
        rw [Nat.zero_add]
        exact h k
  have hnot : (∃ N, readRetry (attemptsFrom x 0 N) 0 0 ≠ none) ↔
      ¬ ∀ N, readRetry (attemptsFrom x 0 N) 0 0 = none := not_forall.symm
  have hbad : (∀ i, Bad x i) ↔ ¬ ∃ i, (x i).ret = 0 ∧ statusBefore x (i + 1) = 0 := by
    simp only [Bad, not_exists, not_and_or, ne_eq]
  have hagain : (∀ i, Again x i → Again x (i + 1) ∨ Again x (i + 2)) ↔
      ¬ ∃ i, Again x i ∧ ¬ Again x (i + 1) ∧ ¬ Again x (i + 2) := by
    push Not
    exact forall_congr' fun i => imp_congr_right fun _ => or_iff_not_imp_left
  rw [hnot, hnever, retry_lt_iff, Settles, hbad, hagain, not_and_or, not_and_or, not_not, not_not,
    not_or, not_or]

/-- The law of the loop: a success among the first three attempts is the end of the call, with
`XZTL_OK`, and with any success there is an end. -/
def RetryLaw (x : Nat → Attempt) : Prop :=
  (∀ j < 3, (x j).Full → (∀ i < j, ¬ (x i).Full) →
    readRetry (attemptsFrom x 0 j) 0 0 = none ∧ readRetry (attemptsFrom x 0 (j + 1)) 0 0 = some xztlOk) ∧
  ((∃ j, (x j).Full) → ∃ N, readRetry (attemptsFrom x 0 N) 0 0 ≠ none)

/-- **When the law holds.**  The attempts before a first success among the first three have failed by
their return codes; and if any attempt succeeds, the status of the failed commands is not 22 again and
again. -/
theorem retryLaw_iff (x : Nat → Attempt) : RetryLaw x ↔
    (∀ j < 3, (x j).Full → (∀ i < j, ¬ (x i).Full) → ∀ i < j, (x i).ret ≠ 0) ∧
    ((∃ j, (x j).Full) → Settles x) := by
  rw [RetryLaw, returns_iff]
  refine and_congr_left fun _ => forall_congr' fun j => ?_
  refine forall_congr' fun hj => forall_congr' fun hfull => forall_congr' fun _ => ?_
  exact seen_iff hj hfull

/-- A command of the first attempt fails for good; every later attempt succeeds. -/
def oneFailure (status : Nat) : Nat → Attempt
  | 0 => ⟨0, false, some status, nofun, fun h => absurd rfl h⟩
  | _ + 1 => ⟨0, true, none, fun _ => rfl, fun _ => rfl⟩

/-- **A success that is not seen.**  After a status of 5 the next two attempts succeed, and the call
returns an error; after a status of 22 all succeed, and the call never returns. -/
theorem retryLaw_broken :
    readRetry (attemptsFrom (oneFailure 5) 0 3) 0 0 = some xztlZrocksReadErr ∧
      (∀ N, readRetry (attemptsFrom (oneFailure 22) 0 N) 0 0 = none) ∧
      ¬ RetryLaw (oneFailure 5) ∧ ¬ RetryLaw (oneFailure 22) := by
  have hnever : ∀ N, readRetry (attemptsFrom (oneFailure 22) 0 N) 0 0 = none := fun N => by
    refine (readRetry_eq_none_iff N 0).mpr fun k _ => ?_
    have hst : ∀ i, statusBefore (oneFailure 22) (i + 1) = 22 := fun i => by
      induction i with
      | zero => rfl
      | succ i ih => exact ih
    rw [Nat.zero_add]
    refine ⟨Or.inr (by rw [hst]; decide), ?_⟩
    rw [retryBefore, if_pos (hst k)]
    decide
  have hfull : ∀ status, (oneFailure status 1).Full := fun _ => ⟨rfl, rfl⟩
  refine ⟨by decide, hnever, fun h => ?_, fun h => ?_⟩
  · have hfirst := (h.1 1 (by decide) (hfull 5) (fun i hi => ?_)).2
    · exact absurd hfirst (by decide)
    · rw [Nat.lt_one_iff.mp hi]
      exact fun hf => by cases hf.2
  · obtain ⟨N, hN⟩ := h.2 ⟨1, hfull 22⟩
    exact hN (hnever N)

end

end Xztl
