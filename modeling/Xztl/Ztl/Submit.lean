import Xztl.Ztl.Populate
import Xztl.Support.Runs

/-!
# Ztl — submission and completion (`ztl-io.c`, `ztl_io_write_ucmd`)

The submission loop walks over the zones of a piece, keeps at most one command of each zone in
flight, and pokes the context for completions; a completion runs `ztl_io_write_callback_mcmd`,
which resubmits a failed command up to `MAX_CALLBACK_ERR_CNT` times.

What the device does is input.  `fate i j` is the status of attempt `j` at unit `i` of the
request; a list of `MediaAns` says, round by round, whether a submission is accepted and which
outstanding command (if any) a poke completes.  A call whose answers run out is still waiting.

**What a finished piece has done** (`submit_spec`).  When the two loops end, every command has
been completed, a unit is on the device exactly when one of its three attempts had status zero,
and no other sector has changed.
-/

namespace Xztl

open Function List

/-- A completion: the command, and whether the device accepts its resubmission should the callback
make one. -/
structure Cpl where
  cmd : Nat
  resubmit : Bool
deriving DecidableEq, Repr

/-- The device's answers during one round: to a submission, and to a poke. -/
structure MediaAns where
  submit : Bool
  cpl : Option Cpl
deriving DecidableEq, Repr

/-- A piece to be written: the caller's buffer, the statuses of the attempts, the provisioned
addresses and the commands. -/
structure Req where
  buf : Nat → UInt8
  fate : Nat → Nat → Nat
  prov : List ProvAddr
  mcmd : List Mcmd
  znCmdId : Nat → List Nat
  num : Nat

/-- The state of the two loops: the device and the zones, `ucmd->status`, `ncb` and `minflight`,
the commands' `callback_err_cnt`, the commands in flight, `submitted` and `zn_cmd_id_index`. -/
structure Sub where
  dev : Dev
  vzones : Nat → Zone
  status : Nat
  ncb : Nat
  minflight : Nat → Bool
  errCnt : Nat → Nat
  outstanding : List Nat
  submitted : Nat
  znCmdIdIndex : Nat → Nat

namespace Req

/-- Command `k`. -/
def cmd (r : Req) (k : Nat) : Mcmd := r.mcmd.getD k ⟨0, 0, 0, 0, 0, 0⟩

/-- The status of attempt `j` at command `k`. -/
def status (r : Req) (k j : Nat) : Nat := r.fate ((r.cmd k).prp / unitBytes) j

end Req

/-- The end of `ztl_io_write_callback_mcmd`: the zone is free again, and the last completion of the
piece moves the write pointers. -/
def callbackDone (r : Req) (s : Sub) (k : Nat) : Sub :=
  let ncb := s.ncb + 1
  { s with
    minflight := update s.minflight (r.cmd k).sequenceZn false
    ncb := ncb
    vzones := if ncb = r.num then ztlProFree s.vzones r.prov else s.vzones }

/-- `ztl_io_write_callback_mcmd`, for a command that completed with `status`.  `ucmd->status` is
eight bits wide. -/
def ztlIoWriteCallbackMcmd (r : Req) (s : Sub) (c : Cpl) (status : Nat) : Sub :=
  if status ≠ 0 then
    let e := s.errCnt c.cmd + 1
    let s := { s with errCnt := update s.errCnt c.cmd e }
    if e < maxCallbackErrCnt then
      if c.resubmit then { s with outstanding := c.cmd :: s.outstanding } else s
    else callbackDone r { s with status := status % 2 ^ 8 } c.cmd
  else callbackDone r s c.cmd

/-- `ztl_io_poke_ctx`: at most one completion (`znd_media_async_cb`).  A write with status zero has
stored its sectors. -/
def ztlIoPokeCtx (r : Req) (s : Sub) (a : MediaAns) : Sub :=
  match a.cpl with
  | none => s
  | some c =>
    if c.cmd ∈ s.outstanding then
      let status := r.status c.cmd (s.errCnt c.cmd)
      let m := r.cmd c.cmd
      let s := { s with
        outstanding := s.outstanding.erase c.cmd
        dev := if status = 0 then s.dev.write m.sect m.nsec r.buf m.prp else s.dev }
      ztlIoWriteCallbackMcmd r s c status
    else s

/-- The body of the submission loop at zone `znI`, with the zone index of the next round.  A
rejected submission steps the index back, so the same zone comes again, still marked. -/
def submitZone (r : Req) (s : Sub) (znI : Nat) (a : MediaAns) : Sub × Nat :=
  let index := s.znCmdIdIndex znI
  if index ≥ (r.znCmdId znI).length then (s, znI + 1)
  else if s.minflight znI then (ztlIoPokeCtx r s a, znI + 1)
  else
    let s := { s with minflight := update s.minflight znI true }
    if a.submit then
      let s := { s with
        outstanding := (r.znCmdId znI).getD index 0 :: s.outstanding
        submitted := s.submitted + 1
        znCmdIdIndex := update s.znCmdIdIndex znI (index + 1) }
      (if s.submitted % 8 = 0 then ztlIoPokeCtx r s a else s, znI + 1)
    else (ztlIoPokeCtx r s a, znI)

/-- The submission loop.  `znI` equal to the number of addresses is the end of a pass, where
`submitted < num` is tested. -/
def submitLoop (r : Req) : List MediaAns → Nat → Sub → Except Stop (Sub × List MediaAns)
  | [], znI, s =>
    if r.prov.length ≤ znI ∧ r.num ≤ s.submitted then .ok (s, []) else .error .waiting
  | a :: ans, znI, s =>
    if znI < r.prov.length then
      let (s, znI) := submitZone r s znI a
      submitLoop r ans znI s
    else if s.submitted < r.num then
      let (s, znI) := submitZone r s 0 a
      submitLoop r ans znI s
    else .ok (s, a :: ans)

/-- The loop that waits for the last completions. -/
def pollLoop (r : Req) : List MediaAns → Sub → Except Stop (Sub × List MediaAns)
  | [], s => if s.ncb < r.num then .error .waiting else .ok (s, [])
  | a :: ans, s =>
    if s.ncb < r.num then pollLoop r ans (ztlIoPokeCtx r s a) else .ok (s, a :: ans)

/-- The state before the loops. -/
def Sub.start (dev : Dev) (vz : Nat → Zone) (status : Nat) : Sub where
  dev := dev
  vzones := vz
  status := status
  ncb := 0
  minflight := fun _ => false
  errCnt := fun _ => 0
  outstanding := []
  submitted := 0
  znCmdIdIndex := fun _ => 0

/-- Submission and completion of one piece. -/
def submitPiece (r : Req) (dev : Dev) (vz : Nat → Zone) (status : Nat) (ans : List MediaAns) :
    Except Stop (Sub × List MediaAns) := do
  let (s, ans) ← submitLoop r ans r.prov.length (Sub.start dev vz status)
  pollLoop r ans s

/-! ### What the loops preserve -/

/-- Some attempt the callback allows has status zero. -/
def Req.Succ (r : Req) (k : Nat) : Prop := ∃ j < maxCallbackErrCnt, r.status k j = 0

/-- Sector `x` belongs to command `k`. -/
def Req.Covers (r : Req) (k x : Nat) : Prop :=
  (r.cmd k).sect ≤ x ∧ x < (r.cmd k).sect + ztlIoSecMcmd

/-- The device's record of command `k`. -/
def Req.writeRec (r : Req) (k : Nat) : WriteRec := ⟨(r.cmd k).sect, (r.cmd k).prp⟩

instance (r : Req) (k : Nat) : Decidable (r.Succ k) :=
  inferInstanceAs (Decidable (∃ j < maxCallbackErrCnt, r.status k j = 0))

/-- A piece as the populate loop builds it: one command of eight sectors per unit, the commands of
position `z` in order, and no sector twice. -/
structure Req.WF (r : Req) : Prop where
  nsec : ∀ k < r.num, (r.cmd k).nsec = ztlIoSecMcmd
  zn : ∀ k < r.num, (r.cmd k).sequenceZn = k % ztlProZoneNumInnode
  ids : ∀ z < ztlProZoneNumInnode, r.znCmdId z =
    (List.range (unitsAt r.num z)).map fun p => z + ztlProZoneNumInnode * p
  len : r.prov.length = min r.num ztlProZoneNumInnode
  disj : ∀ k < r.num, ∀ l < r.num, ∀ x, r.Covers k x → r.Covers l x → k = l

/-- The state of the loops when the commands `F` have been completed for good and the device has
added the records `L`. -/
structure SubInv (r : Req) (dev : Dev) (vz : Nat → Zone) (s : Sub) (F : List Nat)
    (L : List WriteRec) : Prop where
  nodup : (F ++ s.outstanding).Nodup
  accepted : ∀ k ∈ F ++ s.outstanding,
    k < r.num ∧ k / ztlProZoneNumInnode < s.znCmdIdIndex (k % ztlProZoneNumInnode)
  ncb : s.ncb = F.length
  err : ∀ k, k ∉ F → s.errCnt k < maxCallbackErrCnt ∧ ∀ j < s.errCnt k, r.status k j ≠ 0
  log : s.dev.log = L ++ dev.log
  recs : ∀ w, w ∈ L ↔ ∃ k ∈ F, r.Succ k ∧ w = r.writeRec k
  data : ∀ k ∈ F, r.Succ k → ∀ x, r.Covers k x → ∀ b,
    s.dev.data x b = r.buf ((r.cmd k).prp + (x - (r.cmd k).sect) * znsAligment + b)
  frame : ∀ x, (∀ k < r.num, ¬ r.Covers k x) → ∀ b, s.dev.data x b = dev.data x b
  zones : s.vzones = if 0 < s.ncb ∧ s.ncb = r.num then ztlProFree vz r.prov else vz

variable {k z : Nat} {s' : Sub} {ans ans' : List MediaAns}

section

variable {r : Req} {dev : Dev} {vz : Nat → Zone} {s : Sub} {F : List Nat} {L : List WriteRec}

/-- No command completes twice, so there are at most `num` completions. -/
theorem SubInv.length_le (h : SubInv r dev vz s F L) :
    (F ++ s.outstanding).length ≤ r.num := by
  have hsub : F ++ s.outstanding ⊆ List.range r.num := fun k hk =>
    mem_range.mpr (h.accepted k hk).1
  simpa using (h.nodup.subperm hsub).length_le

/-- A command in flight can only be completed while completions are missing. -/
theorem SubInv.ncb_lt (h : SubInv r dev vz s F L) (hk : k ∈ s.outstanding) : s.ncb < r.num := by
  have hlen := h.length_le
  have hpos := length_pos_of_mem hk
  rw [length_append] at hlen
  rw [h.ncb]
  omega

/-- The data a store of command `k` leaves at the sectors of another command. -/
theorem Req.WF.write_other (hr : r.WF) {l : Nat} (hk : k < r.num) (hl : l < r.num) (hne : l ≠ k)
    {x : Nat} (hx : r.Covers l x) (d : Dev) (b : Nat) :
    (d.write (r.cmd k).sect (r.cmd k).nsec r.buf (r.cmd k).prp).data x b = d.data x b := by
  have hnot : ¬ ((r.cmd k).sect ≤ x ∧ x < (r.cmd k).sect + (r.cmd k).nsec) := by
    rw [hr.nsec k hk]
    exact fun hc => hne (hr.disj l hl k hk x hx hc)
  simp only [Dev.write, if_neg hnot]

/-- `s'` is `s` at the point where the callback has taken command `k` off the device for good. -/
structure Final (r : Req) (s s' : Sub) (k : Nat) : Prop where
  dev : s'.dev = if r.Succ k then s.dev.write (r.cmd k).sect (r.cmd k).nsec r.buf (r.cmd k).prp
    else s.dev
  outstanding : s'.outstanding = s.outstanding.erase k
  index : s'.znCmdIdIndex = s.znCmdIdIndex
  err : ∀ l, l ≠ k → s'.errCnt l = s.errCnt l
  ncb : s'.ncb = s.ncb
  vzones : s'.vzones = s.vzones
  minflight : s'.minflight = s.minflight
  submitted : s'.submitted = s.submitted

/-- **A final completion.**  Command `k` leaves the device for good, with its data stored exactly
when an attempt succeeded. -/
theorem SubInv.done (h : SubInv r dev vz s F L) (hr : r.WF) (hk : k ∈ s.outstanding)
    (hf : Final r s s' k) :
    SubInv r dev vz (callbackDone r s' k) (k :: F) (if r.Succ k then r.writeRec k :: L else L) := by
  have hperm : (F ++ s.outstanding).Perm (k :: F ++ s.outstanding.erase k) :=
    ((perm_cons_erase hk).append_left F).trans perm_middle
  obtain ⟨hkn, -⟩ := h.accepted k (mem_append_right _ hk)
  have hlt := h.ncb_lt hk
  refine ⟨?_, ?_, ?_, ?_, ?_, ?_, ?_, ?_, ?_⟩
  · show (k :: F ++ s'.outstanding).Nodup
    rw [hf.outstanding]
    exact hperm.nodup h.nodup
  · show ∀ l ∈ k :: F ++ s'.outstanding, l < r.num ∧ _ < s'.znCmdIdIndex _
    rw [hf.outstanding, hf.index]
    exact fun l hl => h.accepted l (hperm.mem_iff.mpr hl)
  · show s'.ncb + 1 = F.length + 1
    rw [hf.ncb, h.ncb]
  · intro l hl
    rw [mem_cons, not_or] at hl
    show s'.errCnt l < _ ∧ ∀ j < s'.errCnt l, _
    rw [hf.err l hl.1]
    exact h.err l hl.2
  · show s'.dev.log = _
    rw [hf.dev]
    split <;> simp [Dev.write, Req.writeRec, h.log]
  · intro w
    split
    next hs =>
      rw [mem_cons, h.recs]
      constructor
      · rintro (rfl | ⟨l, hl, h'⟩)
        · exact ⟨k, mem_cons_self, hs, rfl⟩
        · exact ⟨l, mem_cons_of_mem _ hl, h'⟩
      · rintro ⟨l, hl, hsl, rfl⟩
        rcases mem_cons.mp hl with rfl | hl
        · exact Or.inl rfl
        · exact Or.inr ⟨l, hl, hsl, rfl⟩
    next hs =>
      rw [h.recs]
      constructor
      · rintro ⟨l, hl, h'⟩
        exact ⟨l, mem_cons_of_mem _ hl, h'⟩
      · rintro ⟨l, hl, hsl, rfl⟩
        rcases mem_cons.mp hl with rfl | hl
        · exact absurd hsl hs
        · exact ⟨l, hl, hsl, rfl⟩
  · intro l hl hsl x hx b
    show s'.dev.data x b = _
    rw [hf.dev]
    by_cases hlk : l = k
    · subst hlk
      rw [if_pos hsl, Dev.write, hr.nsec l hkn]
      exact if_pos hx
    · have hlF := mem_of_ne_of_mem hlk hl
      have hln := (h.accepted l (mem_append_left _ hlF)).1
      split
      · rw [hr.write_other hkn hln hlk hx, h.data l hlF hsl x hx]
      · exact h.data l hlF hsl x hx b
  · intro x hx b
    show s'.dev.data x b = _
    rw [hf.dev, ← h.frame x hx b]
    split
    · rw [Dev.write, hr.nsec k hkn]
      exact if_neg (hx k hkn)
    · rfl
  · show (if s'.ncb + 1 = r.num then ztlProFree s'.vzones r.prov else s'.vzones) =
      if 0 < s'.ncb + 1 ∧ s'.ncb + 1 = r.num then ztlProFree vz r.prov else vz
    have hvz0 : s.vzones = vz := by rw [h.zones, if_neg (by omega)]
    rw [hf.vzones, hvz0]
    simp only [Nat.succ_pos, true_and]

/-- `s` after a failed attempt at `k` that is not the last, resubmitted or not. -/
def retried (s : Sub) (k : Nat) (resubmit : Bool) : Sub :=
  { s with
    outstanding := if resubmit then k :: s.outstanding.erase k else s.outstanding.erase k
    errCnt := update s.errCnt k (s.errCnt k + 1) }

/-- **A failed attempt that is not the last.**  Only the command's error count and the list of
commands in flight change. -/
theorem SubInv.retry (h : SubInv r dev vz s F L) (hk : k ∈ s.outstanding)
    (hst : r.status k (s.errCnt k) ≠ 0) (hlast : s.errCnt k + 1 < maxCallbackErrCnt)
    (b : Bool) : SubInv r dev vz (retried s k b) F L := by
  have hperm : (F ++ s.outstanding).Perm (F ++ k :: s.outstanding.erase k) :=
    (perm_cons_erase hk).append_left F
  have hos : (retried s k b).outstanding.Sublist (k :: s.outstanding.erase k) := by
    cases b with
    | true => exact List.Sublist.refl _
    | false => exact sublist_cons_self _ _
  have hsub := (List.Sublist.refl F).append hos
  refine { h with nodup := ?_, accepted := ?_, err := ?_ }
  · exact hsub.nodup (hperm.nodup h.nodup)
  · exact fun l hl => h.accepted l (hperm.mem_iff.mpr (hsub.subset hl))
  · intro l hl
    obtain ⟨hlt, hj⟩ := h.err l hl
    by_cases hlk : l = k
    · subst hlk
      refine ⟨by simpa [retried] using hlast, fun j hjl => ?_⟩
      simp only [retried, update_self] at hjl
      rcases Nat.lt_succ_iff_lt_or_eq.mp hjl with hjl | rfl
      · exact hj j hjl
      · exact hst
    · simp only [retried, update_of_ne hlk]
      exact ⟨hlt, hj⟩

/-- A command that fails its last attempt has had none that succeeded. -/
theorem not_succ_of_last {e : Nat} (hst : r.status k e ≠ 0) (hj : ∀ j < e, r.status k j ≠ 0)
    (hlast : ¬ e + 1 < maxCallbackErrCnt) : ¬ r.Succ k := by
  rintro ⟨j, hlt, h0⟩
  rcases Nat.lt_trichotomy j e with h | h | h
  · exact hj j h h0
  · exact hst (h ▸ h0)
  · omega

/-- **What a completion does.**  It leads to another attempt, or takes the command off for good. -/
theorem SubInv.poke_cases (h : SubInv r dev vz s F L) {c : Cpl} (hc : c.cmd ∈ s.outstanding)
    (b : Bool) :
    (r.status c.cmd (s.errCnt c.cmd) ≠ 0 ∧ s.errCnt c.cmd + 1 < maxCallbackErrCnt ∧
      ztlIoPokeCtx r s ⟨b, some c⟩ = retried s c.cmd c.resubmit) ∨
    ∃ s', Final r s s' c.cmd ∧ ztlIoPokeCtx r s ⟨b, some c⟩ = callbackDone r s' c.cmd := by
  have hcF : c.cmd ∉ F := fun hF => (nodup_append.mp h.nodup).2.2 _ hF _ hc rfl
  obtain ⟨he, hj⟩ := h.err _ hcF
  simp only [ztlIoPokeCtx, if_pos hc]
  by_cases hst : r.status c.cmd (s.errCnt c.cmd) = 0
  · -- the attempt succeeded
    have hs : r.Succ c.cmd := ⟨_, he, hst⟩
    simp only [ztlIoWriteCallbackMcmd, hst, ne_eq, not_true_eq_false, if_false, if_true]
    refine Or.inr ⟨_, ?_, rfl⟩
    exact ⟨by simp [hs], rfl, rfl, fun _ _ => rfl, rfl, rfl, rfl, rfl⟩
  · simp only [ztlIoWriteCallbackMcmd, hst, ne_eq, not_false_eq_true, if_false, if_true]
    by_cases hlast : s.errCnt c.cmd + 1 < maxCallbackErrCnt
    · -- it failed and may be tried again
      refine Or.inl ⟨trivial, hlast, ?_⟩
      rw [if_pos hlast, retried]
      split <;> rfl
    · -- it failed for the last time
      rw [if_neg hlast]
      have hs : ¬ r.Succ c.cmd := not_succ_of_last hst hj hlast
      refine Or.inr ⟨_, ?_, rfl⟩
      exact ⟨by simp [hs], rfl, rfl, fun l hl => update_of_ne hl _ _, rfl, rfl, rfl, rfl⟩

/-- **What a poke does.**  Nothing, or what the completion it delivers does. -/
theorem SubInv.poke_inv (h : SubInv r dev vz s F L) (a : MediaAns) :
    ztlIoPokeCtx r s a = s ∨ ∃ c, a.cpl = some c ∧ c.cmd ∈ s.outstanding ∧
      ((r.status c.cmd (s.errCnt c.cmd) ≠ 0 ∧ s.errCnt c.cmd + 1 < maxCallbackErrCnt ∧
        ztlIoPokeCtx r s a = retried s c.cmd c.resubmit) ∨
      ∃ s', Final r s s' c.cmd ∧ ztlIoPokeCtx r s a = callbackDone r s' c.cmd) := by
  obtain ⟨b, _ | c⟩ := a
  · exact Or.inl rfl
  by_cases hc : c.cmd ∈ s.outstanding
  · exact Or.inr ⟨c, rfl, hc, h.poke_cases hc b⟩
  · refine Or.inl ?_
    simp only [ztlIoPokeCtx, if_neg hc]

theorem SubInv.poke (h : SubInv r dev vz s F L) (hr : r.WF) (a : MediaAns) :
    ∃ F' L', SubInv r dev vz (ztlIoPokeCtx r s a) F' L' := by
  rcases h.poke_inv a with e | ⟨c, -, hc, ⟨hst, hlast, e⟩ | ⟨s', hf, e⟩⟩
  · rw [e]
    exact ⟨F, L, h⟩
  · rw [e]
    exact ⟨F, L, h.retry hc hst hlast c.resubmit⟩
  · rw [e]
    exact ⟨_, _, h.done hr hc hf⟩

theorem Req.WF.znCmdId_getD (hr : r.WF) {p : Nat} (hz : z < ztlProZoneNumInnode)
    (hp : p < (r.znCmdId z).length) : (r.znCmdId z).getD p 0 = z + ztlProZoneNumInnode * p := by
  rw [hr.ids z hz, length_map, length_range] at hp
  rw [hr.ids z hz]
  simp [getD_eq_getElem?_getD, hp]

/-- `s` after an accepted submission at position `z`. -/
def submittedAt (r : Req) (s : Sub) (z : Nat) : Sub :=
  { s with
    minflight := update s.minflight z true
    outstanding := (r.znCmdId z).getD (s.znCmdIdIndex z) 0 :: s.outstanding
    submitted := s.submitted + 1
    znCmdIdIndex := update s.znCmdIdIndex z (s.znCmdIdIndex z + 1) }

/-- The next command of position `z` is one that was not submitted before. -/
theorem SubInv.submit (h : SubInv r dev vz s F L) (hr : r.WF)
    (hz : z < ztlProZoneNumInnode) (hp : s.znCmdIdIndex z < (r.znCmdId z).length) :
    SubInv r dev vz (submittedAt r s z) F L := by
  rw [submittedAt]
  set p := s.znCmdIdIndex z with hpe
  have hget := hr.znCmdId_getD hz hp
  rw [hr.ids z hz, length_map, length_range] at hp
  have hdiv : (z + ztlProZoneNumInnode * p) / ztlProZoneNumInnode = p := by
    simp only [ztlProZoneNumInnode] at *; omega
  have hmod : (z + ztlProZoneNumInnode * p) % ztlProZoneNumInnode = z := by
    simp only [ztlProZoneNumInnode] at *; omega
  rw [hget]
  -- the index of `z` counts the commands of `z` submitted so far
  have hnew : z + ztlProZoneNumInnode * p ∉ F ++ s.outstanding := fun hm => by
    have := (h.accepted _ hm).2
    rw [hdiv, hmod] at this
    omega
  refine { h with nodup := ?_, accepted := ?_ }
  · exact perm_middle.symm.nodup (nodup_cons.mpr ⟨hnew, h.nodup⟩)
  · intro l hl
    rcases mem_cons.mp (perm_middle.mem_iff.mp hl) with rfl | hl
    · refine ⟨?_, ?_⟩
      · simp only [unitsAt, ztlProZoneNumInnode] at *; omega
      · rw [hdiv, hmod]
        simp
    · obtain ⟨hln, hlt⟩ := h.accepted l hl
      refine ⟨hln, ?_⟩
      by_cases e : l % ztlProZoneNumInnode = z
      · rw [e] at hlt ⊢
        simp only [update_self]
        omega
      · simpa only [update_of_ne e] using hlt

/-- One round of the submission loop keeps the invariant. -/
theorem SubInv.zone (h : SubInv r dev vz s F L) (hr : r.WF)
    (hz : z < ztlProZoneNumInnode) (a : MediaAns) :
    ∃ F' L', SubInv r dev vz (submitZone r s z a).1 F' L' := by
  unfold submitZone
  by_cases hi : s.znCmdIdIndex z ≥ (r.znCmdId z).length
  · rw [if_pos hi]
    exact ⟨F, L, h⟩
  rw [if_neg hi]
  by_cases hm : s.minflight z
  · rw [if_pos hm]
    exact h.poke hr a
  rw [if_neg hm]
  by_cases ha : a.submit
  · simp only [ha, if_true]
    have h' := h.submit hr hz (Nat.lt_of_not_le hi)
    split
    · exact h'.poke hr a
    · exact ⟨F, L, h'⟩
  · simp only [ha]
    have h' : SubInv r dev vz { s with minflight := update s.minflight z true } F L :=
      { h with }
    exact h'.poke hr a

theorem SubInv.submitLoop (hr : r.WF) {znI : Nat} (h : SubInv r dev vz s F L)
    (e : submitLoop r ans znI s = .ok (s', ans')) : ∃ F' L', SubInv r dev vz s' F' L' := by
  induction ans generalizing znI s F L with
  | nil =>
    rw [Xztl.submitLoop] at e
    split at e
    · cases e
      exact ⟨F, L, h⟩
    · cases e
  | cons a ans ih =>
    rw [Xztl.submitLoop] at e
    split at e
    next hz =>
      obtain ⟨F1, L1, h1⟩ := h.zone hr (z := znI) (by rw [hr.len] at hz; omega) a
      exact ih h1 e
    next =>
      split at e
      · obtain ⟨F1, L1, h1⟩ := h.zone hr (z := 0) (by simp [ztlProZoneNumInnode]) a
        exact ih h1 e
      · cases e
        exact ⟨F, L, h⟩

/-- The last loop keeps the invariant and ends with every completion in. -/
theorem SubInv.pollLoop (hr : r.WF) (h : SubInv r dev vz s F L)
    (e : pollLoop r ans s = .ok (s', ans')) :
    r.num ≤ s'.ncb ∧ ∃ F' L', SubInv r dev vz s' F' L' := by
  induction ans generalizing s F L with
  | nil =>
    rw [Xztl.pollLoop] at e
    split at e
    · cases e
    next hn =>
      cases e
      exact ⟨Nat.le_of_not_lt hn, F, L, h⟩
  | cons a ans ih =>
    rw [Xztl.pollLoop] at e
    split at e
    next =>
      obtain ⟨F1, L1, h1⟩ := h.poke hr a
      exact ih h1 e
    next hn =>
      cases e
      exact ⟨Nat.le_of_not_lt hn, F, L, h⟩

theorem SubInv.start (r : Req) (dev : Dev) (vz : Nat → Zone) (status : Nat) :
    SubInv r dev vz (Sub.start dev vz status) [] [] where
  nodup := nodup_nil
  accepted := by simp [Sub.start]
  ncb := rfl
  err := fun _ _ => ⟨by simp [Sub.start, maxCallbackErrCnt], by simp [Sub.start]⟩
  log := rfl
  recs := by simp
  data := by simp
  frame := fun _ _ _ => rfl
  zones := by simp [Sub.start]

/-- What the commands of a piece have done to the device: the new records `L` are those of the
commands with a successful attempt, these commands' sectors hold their data, and no sector outside
the piece has changed. -/
structure Stored (r : Req) (dev dev' : Dev) (L : List WriteRec) : Prop where
  log : dev'.log = L ++ dev.log
  recs : ∀ w, w ∈ L ↔ ∃ k < r.num, r.Succ k ∧ w = r.writeRec k
  data : ∀ k < r.num, r.Succ k → ∀ x, r.Covers k x → ∀ b,
    dev'.data x b = r.buf ((r.cmd k).prp + (x - (r.cmd k).sect) * znsAligment + b)
  frame : ∀ x, (∀ k < r.num, ¬ r.Covers k x) → ∀ b, dev'.data x b = dev.data x b

/-- When all completions are in, every command is among the finished ones. -/
theorem SubInv.stored (h : SubInv r dev vz s F L) (hn : r.num ≤ s.ncb) :
    Stored r dev s.dev L ∧ s.vzones = if 0 < r.num then ztlProFree vz r.prov else vz := by
  have hlen := h.length_le
  rw [length_append, ← h.ncb] at hlen
  have hncb : s.ncb = r.num := by omega
  have hsub : ∀ k ∈ F, k < r.num := fun k hk => (h.accepted k (mem_append_left _ hk)).1
  have hall : ∀ k < r.num, k ∈ F := by
    have hnd : F.Nodup := (nodup_append.mp h.nodup).1
    have hsp : F.Subperm (List.range r.num) :=
      hnd.subperm fun k hk => mem_range.mpr (hsub k hk)
    have hperm := hsp.perm_of_length_le (by rw [length_range, ← h.ncb, hncb])
    exact fun k hk => hperm.mem_iff.mpr (mem_range.mpr hk)
  refine ⟨⟨h.log, fun w => ?_, fun k hk => h.data k (hall k hk), h.frame⟩, ?_⟩
  · rw [h.recs]
    exact ⟨fun ⟨k, hk, h'⟩ => ⟨k, hsub k hk, h'⟩, fun ⟨k, hk, h'⟩ => ⟨k, hall k hk, h'⟩⟩
  · rw [h.zones, hncb]
    simp

/-- **A finished piece.**  When the two loops end, every command has been completed: a unit is on
the device exactly when one of its attempts had status zero, no other sector has changed, and the
write pointers have moved. -/
theorem submit_spec (hr : r.WF) {status : Nat}
    (e : submitPiece r dev vz status ans = .ok (s, ans')) :
    (∃ L, Stored r dev s.dev L) ∧ s.vzones = if 0 < r.num then ztlProFree vz r.prov else vz := by
  rw [submitPiece] at e
  obtain ⟨⟨s1, ans1⟩, e1, e2⟩ := Except.bind_eq_ok.mp e
  obtain ⟨F1, L1, h1⟩ := SubInv.submitLoop hr (SubInv.start r dev vz status) e1
  obtain ⟨hn, F2, L2, h2⟩ := SubInv.pollLoop hr h1 e2
  exact ⟨⟨L2, (h2.stored hn).1⟩, (h2.stored hn).2⟩

end

end Xztl
