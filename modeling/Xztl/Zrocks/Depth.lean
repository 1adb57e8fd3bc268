import Xztl.Zrocks.Ownership

/-!
# Zrocks — the queue depth of reads

`ztl_io_read_ucmd` submits the commands of a read one after the other and looks at completions only
afterwards, in `xnvme_queue_drain`: when the last one is submitted all of them are in flight
(`ztlIoReadUcmd_flight`).  The queue has as many contexts as the depth it was made with, and
`znd_media_submit_read_asynch` writes to the context it is given without looking whether there is
one.

**How many commands there are is known from the range**: one for each unit it touches
(`readCmds_length_le_iff`).  A piece has 1024 units at most, which is the depth of every backend but
libaio, so only there can a read pass the depth (`depth_respected_iff`).
-/

namespace Xztl

open List

/-! ### The depth -/

/-- The backends: `OPT_BE_THRPOOL`, `OPT_BE_LIBAIO`, `OPT_BE_IOURING`, `OPT_BE_IOURING_CMD`,
`OPT_BE_SPDK`. -/
inductive OptBe where
  | thrpool | libaio | iouring | iouringCmd | spdk
deriving DecidableEq, Repr

/-- `XZTL_CTX_NVME_DEPTH`. -/
def xztlCtxNvmeDepth : Nat := 1024

/-- `XZTL_CTX_NVME_LIBAIO_DEPTH`. -/
def xztlCtxNvmeLibaioDepth : Nat := 512

/-- `XZTL_READ_RS_NUM`. -/
def xztlReadRsNum : Nat := 256

/-- The fields of `struct znd_media` that `znd_media_set_ctx_iodepth` sets. -/
structure MediaCtx where
  readCtxNum : Nat
  ioDepth : Nat
deriving DecidableEq, Repr

/-- `znd_media_set_ctx_iodepth`.  The number of processors is taken and decreased in 32 bits. -/
def zndMediaSetCtxIodepth (optAsync : OptBe) (cpuNum : Nat) : MediaCtx :=
  let m : MediaCtx := ⟨xztlReadRsNum, xztlCtxNvmeDepth⟩
  if optAsync = .spdk ∨ optAsync = .libaio then
    let rest := (cpuNum % 2 ^ 32 + 2 ^ 32 - 2) % 2 ^ 32
    let m := { m with readCtxNum := if rest > 0 then rest else 1 }
    if optAsync = .libaio then { m with ioDepth := xztlCtxNvmeLibaioDepth } else m
  else m

theorem ioDepth_eq (optAsync : OptBe) (cpuNum : Nat) :
    (zndMediaSetCtxIodepth optAsync cpuNum).ioDepth
      = if optAsync = .libaio then xztlCtxNvmeLibaioDepth else xztlCtxNvmeDepth := by
  cases optAsync <;> rfl

/-! ### Commands in flight -/

/-- A pass of the submission loop with `out` commands in flight: how many there are at each
submission, with the one that is submitted. -/
def passFlight (accept : Nat → Bool) : List Nat → (out : Nat) → List Nat
  | [], _ => []
  | i :: is, out => (out + 1) :: passFlight accept is (if accept i then out + 1 else out)

/-- The passes of `readSubmit`. -/
def submitFlight : List (Nat → Bool) → (pending : List Nat) → (out : Nat) → List Nat
  | [], _, _ => []
  | a :: as, pending, out =>
    if pending = [] then []
    else passFlight a pending out
      ++ submitFlight as (pending.filter fun i => !a i) (out + (pending.filter a).length)

/-- The completions of `readDrain`.  The callback of a failed command may submit it again. -/
def drainFlight (d : Dev) (cmds : List ReadCmd) : List ReadCpl → ReadState → List Nat
  | [], s => [s.outstanding.length]
  | c :: cs, s =>
    s.outstanding.length ::
      if s.outstanding = [] then []
      else if c.cmd ∈ s.outstanding then
        drainFlight d cmds cs
          (ztlIoReadCallbackMcmd d cmds { s with outstanding := s.outstanding.erase c.cmd } c)
      else drainFlight d cmds cs s

/-- How many commands `ztl_io_read_ucmd` has in flight, from its first submission to its end.  A
single command is read synchronously. -/
def readFlight (z : Ztl) (nodeId offset size status : Nat) (buf : Nat → UInt8) (a : ReadAns) :
    List Nat :=
  let cmds := readCmds (z.slotSect nodeId) offset size
  match cmds with
  | [_] => [1]
  | _ =>
    submitFlight a.accept (List.range cmds.length) 0 ++
      match readSubmit a.accept (List.range cmds.length) with
      | .ok () => drainFlight z.dev cmds a.cpls (.start cmds.length status buf)
      | .error _ => []

section

variable {k out : Nat} {pending : List Nat}

theorem passFlight_le {accept : Nat → Bool} (h : k ∈ passFlight accept pending out) :
    k ≤ out + pending.length := by
  induction pending generalizing out with
  | nil => cases h
  | cons i is ih =>
    rw [passFlight, mem_cons] at h
    rw [length_cons]
    rcases h with rfl | h
    · omega
    · have := ih h
      split at this <;> omega

theorem submitFlight_le {as : List (Nat → Bool)} (h : k ∈ submitFlight as pending out) :
    k ≤ out + pending.length := by
  induction as generalizing pending out with
  | nil => cases h
  | cons a as ih =>
    rw [submitFlight] at h
    split at h
    · cases h
    · rcases mem_append.mp h with h | h
      · exact passFlight_le h
      · -- those accepted in this pass, and those that are not
        have hsplit := length_eq_length_filter_add (l := pending) a
        have := ih h
        omega

/-- The last submission of a pass that accepts everything. -/
theorem mem_passFlight {accept : Nat → Bool} (hne : pending ≠ [])
    (hall : ∀ i ∈ pending, accept i = true) :
    out + pending.length ∈ passFlight accept pending out := by
  induction pending generalizing out with
  | nil => exact absurd rfl hne
  | cons i is ih =>
    rw [passFlight, length_cons, hall i mem_cons_self, if_pos rfl]
    by_cases his : is = []
    · rw [his]
      exact mem_cons_self
    · rw [show out + (is.length + 1) = out + 1 + is.length by omega]
      exact mem_cons_of_mem _ (ih his fun j hj => hall j (mem_cons_of_mem _ hj))

/-- **A submission loop that ends has had all its commands in flight.** -/
theorem mem_submitFlight {as : List (Nat → Bool)} (out : Nat) (hne : pending ≠ [])
    (h : readSubmit as pending = .ok ()) : out + pending.length ∈ submitFlight as pending out := by
  induction as generalizing pending out with
  | nil =>
    rw [readSubmit, if_neg hne] at h
    cases h
  | cons a as ih =>
    rw [readSubmit, if_neg hne] at h
    rw [submitFlight, if_neg hne, mem_append]
    by_cases hrest : pending.filter (fun i => !a i) = []
    · -- the last pass
      refine Or.inl (mem_passFlight hne fun i hi => ?_)
      have hi' := filter_eq_nil_iff.mp hrest i hi
      rw [Bool.not_eq_true', Bool.not_eq_false] at hi'
      exact hi'
    · have hsplit := length_eq_length_filter_add (l := pending) a
      rw [hsplit, ← Nat.add_assoc]
      exact Or.inr (ih _ hrest h)

end

section

variable {d : Dev} {cmds : List ReadCmd}

/-- A completion, and the callback, leave no more commands in flight than there were. -/
theorem callback_outstanding_le (s : ReadState) {c : ReadCpl} (hc : c.cmd ∈ s.outstanding) :
    (ztlIoReadCallbackMcmd d cmds { s with outstanding := s.outstanding.erase c.cmd }
      c).outstanding.length ≤ s.outstanding.length := by
  have hlen := length_erase_of_mem hc
  have hpos := length_pos_of_mem hc
  rw [ztlIoReadCallbackMcmd]
  split
  · dsimp only
    split
    · split
      · rw [length_cons]
        omega
      · show (s.outstanding.erase c.cmd).length ≤ _
        omega
    · show (s.outstanding.erase c.cmd).length ≤ _
      omega
  · show (s.outstanding.erase c.cmd).length ≤ _
    omega

theorem drainFlight_le {cpls : List ReadCpl} {s : ReadState} {k : Nat}
    (h : k ∈ drainFlight d cmds cpls s) : k ≤ s.outstanding.length := by
  induction cpls generalizing s with
  | nil =>
    rw [drainFlight, mem_singleton] at h
    exact h.le
  | cons c cs ih =>
    rw [drainFlight, mem_cons] at h
    rcases h with rfl | h
    · exact le_refl _
    · split at h
      · cases h
      · split at h
        · next hc => exact (ih h).trans (callback_outstanding_le s hc)
        · exact ih h

end

section

variable {z : Ztl} {n offset size status : Nat} {buf : Nat → UInt8} {a : ReadAns} {k : Nat}

/-- No more than the commands of the read are in flight. -/
theorem readFlight_le (h : k ∈ readFlight z n offset size status buf a) :
    k ≤ (readCmds (z.slotSect n) offset size).length := by
  rw [readFlight] at h
  generalize readCmds (z.slotSect n) offset size = cmds at h ⊢
  split at h
  · rw [mem_singleton] at h
    exact h.le
  · rcases mem_append.mp h with h | h
    · have hk := submitFlight_le h
      rwa [length_range, Nat.zero_add] at hk
    · split at h
      · have hk := drainFlight_le h
        exact hk.trans_eq length_range
      · cases h

/-- **A read whose submission loop ends has had all its commands in flight.** -/
theorem mem_readFlight_of_submitted
    (hne : readCmds (z.slotSect n) offset size ≠ [])
    (h : readSubmit a.accept (List.range (readCmds (z.slotSect n) offset size).length) = .ok ()) :
    (readCmds (z.slotSect n) offset size).length ∈ readFlight z n offset size status buf a := by
  rw [readFlight]
  generalize readCmds (z.slotSect n) offset size = cmds at h hne ⊢
  split
  · exact mem_singleton.mpr rfl
  · have hrange : List.range cmds.length ≠ [] := by
      rwa [Ne, range_eq_nil, length_eq_zero_iff]
    have hmem := mem_submitFlight 0 hrange h
    rw [Nat.zero_add, length_range] at hmem
    exact mem_append.mpr (Or.inl hmem)

/-- So has a read that returns. -/
theorem ztlIoReadUcmd_flight {r : Nat × Nat × (Nat → UInt8)}
    (hne : readCmds (z.slotSect n) offset size ≠ [])
    (e : ztlIoReadUcmd z n offset size status buf a = .ok r) :
    (readCmds (z.slotSect n) offset size).length ∈ readFlight z n offset size status buf a := by
  by_cases hone : ∃ c, readCmds (z.slotSect n) offset size = [c]
  · obtain ⟨c, hc⟩ := hone
    rw [readFlight, hc]
    exact mem_singleton.mpr rfl
  · refine mem_readFlight_of_submitted hne ?_
    rw [ztlIoReadUcmd] at e
    change (if ztlIoRcNum < (readCmds (z.slotSect n) offset size).length then _ else _) = _ at e
    split at e
    · cases e
    · split at e
      · next c hc => exact absurd ⟨c, hc⟩ hone
      · obtain ⟨⟨⟩, hsub, -⟩ := Except.bind_eq_ok.mp e
        exact hsub

end

/-! ### How many commands -/

/-- Where the zones of a node are makes no difference to the number of commands. -/
theorem readLoop_length (sect sect' : Nat → Nat)
    (fuel secLeft zindex nlevel zoneSecOff readNum bytesOff left misalign : Nat) :
    (readLoop sect fuel secLeft zindex nlevel zoneSecOff readNum bytesOff left misalign).length
      = (readLoop sect' fuel secLeft zindex nlevel zoneSecOff readNum bytesOff left
        misalign).length := by
  induction fuel generalizing secLeft zindex nlevel zoneSecOff readNum bytesOff left misalign with
  | zero => rfl
  | succ fuel ih =>
    rw [readLoop, readLoop]
    by_cases h0 : secLeft = 0
    · rw [if_pos h0, if_pos h0]
    · rw [if_neg h0, if_neg h0]
      by_cases h1 : secLeft - readNum = 0
      · rw [if_pos h1, if_pos h1]
        rfl
      · rw [if_neg h1, if_neg h1, length_cons, length_cons, ih]

/-- Commands that follow one another from `lo` to `hi`, each within a unit, are at least as many as
the units from `lo` to `hi`. -/
theorem Tiled.le_length {cmds : List ReadCmd} {n offset : Nat} (hat : ∀ c ∈ cmds, c.At n offset) :
    ∀ {lo hi : Nat}, Tiled cmds lo hi → lo < hi →
      (offset + lo) % unitBytes + (hi - lo) ≤ unitBytes * cmds.length := by
  induction cmds with
  | nil =>
    intro lo hi h hlt
    exact absurd h hlt.ne
  | cons c cs ih =>
    rintro lo hi ⟨rfl, h⟩ hlt
    have hc := hat c mem_cons_self
    -- the command ends within the unit it starts in
    have hunit : (offset + c.bufOff) % unitBytes + c.cpsize ≤ unitBytes := by
      have hu := hc.unit
      have hm := hc.misalign
      have hf := hc.fits
      simp only [unitBytes_eq, znsAligment, ztlIoSecMcmd] at *
      omega
    rw [length_cons, Nat.mul_succ]
    by_cases hend : c.bufOff + c.cpsize < hi
    · have hrest := ih (fun c' hc' => hat c' (mem_cons_of_mem _ hc')) h hend
      omega
    · omega

/-- **A read has a command for every unit it touches**, wherever the zones are. -/
theorem readCmds_length_le_iff (sect : Nat → Nat) (offset size : Nat) {d : Nat} (hd : 0 < d) :
    (readCmds sect offset size).length ≤ d ↔ offset % unitBytes + size ≤ unitBytes * d := by
  -- the count does not depend on the zones, so take those of node 0
  obtain ⟨sect', hsect⟩ : ∃ sect' : Nat → Nat, ∀ i < ztlProZoneNumInnode,
      sect' i = (ztlProZoneNumInnode * 0 + i + metadataZoneNum) * ztlProSecNumInzone :=
    ⟨_, fun _ _ => rfl⟩
  have hlen : (readCmds sect offset size).length = (readCmds sect' offset size).length :=
    readLoop_length _ _ _ _ _ _ _ _ _ _ _
  rw [hlen]
  have ht := readCmds_tiles hsect offset size
  constructor
  · intro h
    rcases Nat.eq_zero_or_pos size with rfl | hpos
    · have := Nat.mod_lt offset (show 0 < unitBytes by decide)
      have := Nat.le_mul_of_pos_right unitBytes hd
      omega
    · have hlow := Tiled.le_length ht.place ht.tiled (by omega)
      have hmul := Nat.mul_le_mul_left unitBytes h
      rw [Nat.add_zero, Nat.zero_add, Nat.sub_zero] at hlow
      exact hlow.trans hmul
  · intro h
    refine ht.length.trans (Nat.le_of_lt_succ ((Nat.div_lt_iff_lt_mul (by decide)).mpr ?_))
    have hu : 0 < unitBytes := by decide
    rw [Nat.succ_mul, Nat.mul_comm d]
    omega

/-! ### Reads of pieces -/

/-- Whatever the device answers, a read of this range never has more than `depth` commands in
flight. -/
def DepthRespected (depth : Nat) (z : Ztl) (nodeId offset size : Nat) : Prop :=
  ∀ status buf a, ∀ k ∈ readFlight z nodeId offset size status buf a, k ≤ depth

theorem readSubmit_all (pending : List Nat) :
    readSubmit [fun _ => true] pending = .ok () := by
  rw [readSubmit]
  split
  · rfl
  · simp [readSubmit]

/-- The depth bounds the commands in flight exactly when it bounds the units of the range. -/
theorem depthRespected_iff_units {depth : Nat} (hd : 0 < depth) (z : Ztl) (n offset size : Nat) :
    DepthRespected depth z n offset size ↔ offset % unitBytes + size ≤ unitBytes * depth := by
  rw [← readCmds_length_le_iff (z.slotSect n) offset size hd]
  constructor
  · intro h
    by_cases hne : readCmds (z.slotSect n) offset size = []
    · rw [hne]
      exact Nat.zero_le _
    · exact h 0 (fun _ => 0) (goodAns 0) _ (mem_readFlight_of_submitted hne (readSubmit_all _))
  · intro h status buf a k hk
    exact (readFlight_le hk).trans h

/-- **The depth is respected on every read within a piece of at most 1024 units, unless the backend
is libaio and the range touches more than 512 units.** -/
theorem depth_respected_iff (optAsync : OptBe) (cpuNum : Nat) (z : Ztl) (m : ZrocksMap)
    {off size : Nat} (hnum : m.num.val ≤ 1024) (hsub : off + size ≤ unitBytes * m.num.val) :
    DepthRespected (zndMediaSetCtxIodepth optAsync cpuNum).ioDepth z m.nodeId
        (unitBytes * m.start.val + off) size ↔
      (optAsync = .libaio → off % unitBytes + size ≤ unitBytes * xztlCtxNvmeLibaioDepth) := by
  rw [ioDepth_eq]
  by_cases hbe : optAsync = .libaio
  · rw [if_pos hbe, depthRespected_iff_units (by decide), Nat.mul_add_mod]
    exact ⟨fun h _ => h, fun h => h hbe⟩
  · -- 1024 commands are enough for every piece
    rw [if_neg hbe, depthRespected_iff_units (by decide), Nat.mul_add_mod]
    have hmod := Nat.mod_le off unitBytes
    have hmul := Nat.mul_le_mul_left unitBytes hnum
    refine ⟨fun _ h => absurd h hbe, fun _ => ?_⟩
    rw [show xztlCtxNvmeDepth = 1024 from rfl]
    omega

/-- The piece of a 32 MiB write, read whole with io_uring and up to its half with libaio. -/
theorem depth_respected_iff_half :
    ∃ as s, Runs zstep ResetIdle (ZState.fresh oneNode Dev.blank) as s ∧ bigPiece 0 ∈ s.live ∧
    DepthRespected (zndMediaSetCtxIodepth .iouring 8).ioDepth s.z (bigPiece 0).nodeId
      (unitBytes * (bigPiece 0).start.val + 0) (unitBytes * 1024) ∧
    DepthRespected (zndMediaSetCtxIodepth .libaio 8).ioDepth s.z (bigPiece 0).nodeId
      (unitBytes * (bigPiece 0).start.val + 0) (unitBytes * 512) := by
  obtain ⟨as, s, hr, hf⟩ := exists_filling Dev.blank 1 (by decide)
  refine ⟨as, s, hr, by rw [hf.live]; exact mem_cons_self, ?_, ?_⟩
  · exact (depth_respected_iff .iouring 8 s.z (bigPiece 0) (le_of_eq (bigPiece_num 0))
      (by rw [bigPiece_num, Nat.zero_add])).mpr nofun
  · exact (depth_respected_iff .libaio 8 s.z (bigPiece 0) (le_of_eq (bigPiece_num 0))
      (by rw [bigPiece_num, Nat.zero_add]; exact Nat.mul_le_mul_left _ (by decide))).mpr
        fun _ => le_of_eq (Nat.zero_add _)

/-- Garbage collection reads the piece of a 32 MiB write in one call, with libaio. -/
theorem depth_exceeded : ∃ as s, Runs zstep ResetIdle (ZState.fresh oneNode Dev.blank) as s ∧
    bigPiece 0 ∈ s.live ∧
    ¬ DepthRespected (zndMediaSetCtxIodepth .libaio 8).ioDepth s.z (bigPiece 0).nodeId
      (unitBytes * (bigPiece 0).start.val) (unitBytes * (bigPiece 0).num.val) := by
  obtain ⟨as, s, hr, hf⟩ := exists_filling Dev.blank 1 (by decide)
  refine ⟨as, s, hr, by rw [hf.live]; exact mem_cons_self, fun h => ?_⟩
  have hunits := (depthRespected_iff_units (by decide) s.z _ _ _).mp h
  rw [bigPiece_num, Nat.mul_mod_right, Nat.zero_add] at hunits
  exact absurd (Nat.le_of_mul_le_mul_left hunits (by decide)) (by decide)

end Xztl
