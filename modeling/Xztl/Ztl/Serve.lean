import Mathlib.Data.List.GetD
import Xztl.Ztl.Init

/-!
# Ztl — the rounds of a piece (`ztl-io.c`, `ztl_io_write_ucmd`)

The submission loop and the loop that waits for the last completions, one round at a time.  A round
looks at one zone: it may submit the zone's next command, and it may poke the context, which
delivers at most one completion.  Beside the state of the loops a run keeps two histories: the
commands that are completed for good, and how often `free_fn` ran.

Two things can go wrong, and each is one refused submission.

**`completions_run`**: as long as every resubmission from the callback is accepted, no completion is
lost, and the piece ends.  A refused one loses its command (`completion_lost`).

**`flags_run`**: as long as every submission of the loop is accepted, `minflight` marks exactly the
zones with a command on its way.  A refused one leaves its zone marked, and the loop never comes back
to it (`flag_stuck`).
-/

namespace Xztl

open Function List

/-! ### Rounds -/

/-- The loops over one piece, with their histories. -/
structure Serve where
  s : Sub
  znI : Nat
  done : List Nat
  frees : Nat

/-- After a round.  A completion is final when `ncb` counts it, and the one that makes `ncb` the
number of commands runs `free_fn`. -/
def Serve.after (r : Req) (st : Serve) (p : Sub × Nat) (a : MediaAns) : Serve where
  s := p.1
  znI := p.2
  done := if p.1.ncb = st.s.ncb then st.done else (a.cpl.map Cpl.cmd).toList ++ st.done
  frees := if p.1.ncb ≠ st.s.ncb ∧ p.1.ncb = r.num then st.frees + 1 else st.frees

/-- One round, with the device's answers to it. -/
def serveStep (r : Req) (st : Serve) (a : MediaAns) : Option Serve :=
  if st.znI < r.prov.length then some (st.after r (submitZone r st.s st.znI a) a)
  else if st.s.submitted < r.num then some (st.after r (submitZone r st.s 0 a) a)
  else if st.s.ncb < r.num then some (st.after r (ztlIoPokeCtx r st.s a, st.znI) a)
  else none

/-- Before the first round. -/
def Serve.start (r : Req) (dev : Dev) (vz : Nat → Zone) (status : Nat) : Serve :=
  ⟨Sub.start dev vz status, r.prov.length, [], 0⟩

/-- Both loops have ended. -/
def Serve.Ended (r : Req) (st : Serve) : Prop :=
  r.prov.length ≤ st.znI ∧ r.num ≤ st.s.submitted ∧ r.num ≤ st.s.ncb

instance (r : Req) (st : Serve) : Decidable (st.Ended r) :=
  inferInstanceAs (Decidable (_ ∧ _ ∧ _))

section

variable {r : Req} {st st' : Serve} {a : MediaAns} {ans rest : List MediaAns} {s' : Sub}

/-- The waiting loop, as rounds. -/
theorem pollLoop_serve (ans : List MediaAns) : ∀ (st : Serve), r.prov.length ≤ st.znI →
    r.num ≤ st.s.submitted → pollLoop r ans st.s = .ok (s', rest) →
    ∃ pre st', ans = pre ++ rest ∧ Runs (serveStep r) (fun _ _ => True) st pre st' ∧ st'.s = s' ∧
      st'.Ended r := by
  have hsub : ∀ s a, (ztlIoPokeCtx r s a).submitted = s.submitted := fun s a => by
    rw [ztlIoPokeCtx]
    split
    · rfl
    · split
      · simp only [ztlIoWriteCallbackMcmd]
        split
        · split
          · split <;> rfl
          · rfl
        · rfl
      · rfl
  induction ans with
  | nil =>
    intro st hz hs e
    rw [pollLoop] at e
    split at e
    · cases e
    · next hn =>
      cases e
      exact ⟨[], st, rfl, .nil _, rfl, hz, hs, Nat.le_of_not_lt hn⟩
  | cons a ans ih =>
    intro st hz hs e
    rw [pollLoop] at e
    split at e
    · next hn =>
      have hstep : serveStep r st a = some (st.after r (ztlIoPokeCtx r st.s a, st.znI) a) := by
        rw [serveStep, if_neg (not_lt.mpr hz), if_neg (not_lt.mpr hs), if_pos hn]
      obtain ⟨pre, st', rfl, hr, hs', hn'⟩ :=
        ih (st.after r (ztlIoPokeCtx r st.s a, st.znI) a) hz ((hsub _ _).ge.trans' hs) e
      exact ⟨a :: pre, st', rfl, .cons trivial hstep hr, hs', hn'⟩
    · next hn =>
      cases e
      exact ⟨[], st, rfl, .nil _, rfl, hz, hs, Nat.le_of_not_lt hn⟩

/-- The submission loop, as rounds. -/
theorem submitLoop_serve (ans : List MediaAns) : ∀ (st : Serve),
    submitLoop r ans st.znI st.s = .ok (s', rest) →
    ∃ pre st', ans = pre ++ rest ∧ Runs (serveStep r) (fun _ _ => True) st pre st' ∧ st'.s = s' ∧
      r.prov.length ≤ st'.znI ∧ r.num ≤ s'.submitted := by
  induction ans with
  | nil =>
    intro st e
    rw [submitLoop] at e
    split at e
    · next h =>
      cases e
      exact ⟨[], st, rfl, .nil _, rfl, h.1, h.2⟩
    · cases e
  | cons a ans ih =>
    intro st e
    rw [submitLoop] at e
    split at e
    · next hz =>
      obtain ⟨pre, st', rfl, hr, h'⟩ := ih (st.after r (submitZone r st.s st.znI a) a) e
      exact ⟨a :: pre, st', rfl, .cons trivial (by rw [serveStep, if_pos hz]) hr, h'⟩
    · next hz =>
      split at e
      · next hn =>
        obtain ⟨pre, st', rfl, hr, h'⟩ := ih (st.after r (submitZone r st.s 0 a) a) e
        exact ⟨a :: pre, st', rfl, .cons trivial (by rw [serveStep, if_neg hz, if_pos hn]) hr, h'⟩
      · next hn =>
        cases e
        exact ⟨[], st, rfl, .nil _, rfl, Nat.le_of_not_lt hz, Nat.le_of_not_lt hn⟩

/-- **The two loops are rounds.** -/
theorem submitPiece_serve {dev : Dev} {vz : Nat → Zone} {status : Nat}
    (e : submitPiece r dev vz status ans = .ok (s', rest)) :
    ∃ pre st', ans = pre ++ rest ∧
      Runs (serveStep r) (fun _ _ => True) (Serve.start r dev vz status) pre st' ∧ st'.s = s' ∧
      st'.Ended r := by
  rw [submitPiece] at e
  obtain ⟨⟨s1, ans1⟩, e1, e2⟩ := Except.bind_eq_ok.mp e
  obtain ⟨pre1, st1, rfl, hr1, rfl, hz, hn⟩ :=
    submitLoop_serve ans (Serve.start r dev vz status) e1
  obtain ⟨pre2, st', rfl, hr2, hs', hn'⟩ := pollLoop_serve ans1 st1 hz hn e2
  exact ⟨pre1 ++ pre2, st', (append_assoc _ _ _).symm, hr1.append hr2, hs', hn'⟩

end

/-! ### What a round does -/

/-- The zone whose next command the coming round submits. -/
def Serve.submits (r : Req) (st : Serve) : Option Nat :=
  let z := if st.znI < r.prov.length then st.znI else 0
  if (st.znI < r.prov.length ∨ st.s.submitted < r.num) ∧
      st.s.znCmdIdIndex z < (r.znCmdId z).length ∧ st.s.minflight z = false then some z
  else none

/-- The state after the submission of a round, before its poke.  The zone is marked whether or not
the device has accepted the command. -/
def Serve.sent (r : Req) (st : Serve) (a : MediaAns) : Sub :=
  match st.submits r with
  | none => st.s
  | some z =>
    if a.submit then submittedAt r st.s z
    else { st.s with minflight := update st.s.minflight z true }

/-- A round at zone `z` pokes the context: its zone is busy, its submission is refused, or it is the
eighth one. -/
def pokesAt (r : Req) (s : Sub) (z : Nat) (a : MediaAns) : Bool :=
  decide (s.znCmdIdIndex z < (r.znCmdId z).length) &&
    (s.minflight z || !a.submit || decide ((s.submitted + 1) % 8 = 0))

/-- The coming round pokes the context; those of the waiting loop do nothing else. -/
def Serve.pokes (r : Req) (st : Serve) (a : MediaAns) : Bool :=
  if st.znI < r.prov.length then pokesAt r st.s st.znI a
  else if st.s.submitted < r.num then pokesAt r st.s 0 a
  else true

section

variable {r : Req} {st st' : Serve} {a : MediaAns} {z znI : Nat} {s : Sub}

/-- A round at zone `znI`, with and without a submission. -/
theorem submitZone_eq (r : Req) (s : Sub) (z : Nat) (a : MediaAns) :
    let s1 := if s.znCmdIdIndex z < (r.znCmdId z).length ∧ s.minflight z = false then
        if a.submit then submittedAt r s z
        else { s with minflight := update s.minflight z true }
      else s
    (submitZone r s z a).1 = if pokesAt r s z a then ztlIoPokeCtx r s1 a else s1 := by
  intro s1
  rw [pokesAt]
  by_cases hi : s.znCmdIdIndex z < (r.znCmdId z).length
  · by_cases hm : s.minflight z = false
    · have hs1 : s1 = if a.submit then submittedAt r s z
          else { s with minflight := update s.minflight z true } := if_pos ⟨hi, hm⟩
      have hm' : ¬ s.minflight z = true := by rw [hm]; exact Bool.false_ne_true
      rw [submitZone, if_neg (not_le.mpr hi), if_neg hm', hs1]
      by_cases ha : a.submit = true
      · simp only [ha, if_true, submittedAt, hi, hm, decide_true, Bool.true_and, Bool.false_or,
          Bool.not_true, decide_eq_true_eq]
      · simp [ha, hi]
    · have hs1 : s1 = s := if_neg fun h => hm h.2
      have hm' : s.minflight z = true := Bool.not_eq_false _ ▸ hm
      rw [submitZone, if_neg (not_le.mpr hi), if_pos hm', hs1]
      simp [hi, hm']
  · have hs1 : s1 = s := if_neg fun h => hi h.1
    rw [submitZone, if_pos (not_lt.mp hi), hs1]
    simp [hi]

/-- **What a round does**: its submission, if it makes one, and then its poke, if it makes one. -/
theorem serveStep_eq (e : serveStep r st a = some st') :
    st'.s = (if st.pokes r a then ztlIoPokeCtx r (st.sent r a) a else st.sent r a) ∧
      st' = st.after r (st'.s, st'.znI) a := by
  rw [serveStep] at e
  have hsent : ∀ z, (if st.znI < r.prov.length then st.znI else 0) = z →
      (st.znI < r.prov.length ∨ st.s.submitted < r.num) →
      st.sent r a = if st.s.znCmdIdIndex z < (r.znCmdId z).length ∧ st.s.minflight z = false then
        if a.submit then submittedAt r st.s z
        else { st.s with minflight := update st.s.minflight z true }
      else st.s := fun z hz hlt => by
    simp only [Serve.sent, Serve.submits, hz, hlt, true_and]
    by_cases h : st.s.znCmdIdIndex z < (r.znCmdId z).length ∧ st.s.minflight z = false
    · rw [if_pos h, if_pos h]
    · rw [if_neg h, if_neg h]
  rw [Serve.pokes]
  split at e
  · next hz =>
    cases e
    refine ⟨?_, rfl⟩
    rw [hsent st.znI (if_pos hz) (Or.inl hz), if_pos hz]
    exact submitZone_eq r st.s st.znI a
  · next hz =>
    rw [if_neg hz]
    split at e
    · next hn =>
      cases e
      refine ⟨?_, rfl⟩
      rw [hsent 0 (if_neg hz) (Or.inr hn), if_pos hn]
      exact submitZone_eq r st.s 0 a
    · next hn =>
      split at e
      · cases e
        refine ⟨?_, rfl⟩
        have hsub : st.submits r = none := if_neg fun h => h.1.elim hz hn
        rw [if_neg hn, if_pos rfl, Serve.sent, hsub]
        rfl
      · cases e

theorem serveStep_cases (e : serveStep r st a = some st') :
    (st'.s = st.sent r a ∨ st'.s = ztlIoPokeCtx r (st.sent r a) a) ∧
      st' = st.after r (st'.s, st'.znI) a := by
  obtain ⟨hs, hst⟩ := serveStep_eq e
  refine ⟨?_, hst⟩
  split at hs
  · exact Or.inr hs
  · exact Or.inl hs

/-- The zone of a submission is one of the piece's, it is free and has a command left. -/
theorem Serve.submits_eq_some (hlen : r.prov.length = min r.num ztlProZoneNumInnode)
    (h : st.submits r = some z) :
    z < r.prov.length ∧ z < ztlProZoneNumInnode ∧
      st.s.znCmdIdIndex z < (r.znCmdId z).length ∧ st.s.minflight z = false := by
  rw [Serve.submits, Option.ite_none_right_eq_some] at h
  obtain ⟨⟨hlt, hc⟩, h⟩ := h
  rw [Option.some.inj h] at hc
  have hz : z < r.prov.length := by
    by_cases hz : st.znI < r.prov.length
    · rw [if_pos hz] at h
      exact Option.some.inj h ▸ hz
    · rw [if_neg hz] at h
      have hn := hlt.resolve_left hz
      have hz0 := Option.some.inj h
      rw [hlen, ← hz0]
      exact lt_min (Nat.zero_lt_of_lt hn) (by decide)
  exact ⟨hz, hz.trans_le (hlen.trans_le (Nat.min_le_right _ _)), hc⟩

theorem Serve.sent_ncb (r : Req) (st : Serve) (a : MediaAns) : (st.sent r a).ncb = st.s.ncb := by
  rw [Serve.sent]
  split
  · rfl
  · split <;> rfl

/-- A round after its submission: no completion, one that leads to another attempt, or one that is
final. -/
inductive Round (r : Req) (st : Serve) (a : MediaAns) (st' : Serve) : Prop where
  | quiet (s : st'.s = st.sent r a) (done : st'.done = st.done) (frees : st'.frees = st.frees)
  | retry {c : Cpl} (cpl : a.cpl = some c) (mem : c.cmd ∈ (st.sent r a).outstanding)
      (status : r.status c.cmd ((st.sent r a).errCnt c.cmd) ≠ 0)
      (last : (st.sent r a).errCnt c.cmd + 1 < maxCallbackErrCnt)
      (s : st'.s = retried (st.sent r a) c.cmd c.resubmit) (done : st'.done = st.done)
      (frees : st'.frees = st.frees)
  | final {c : Cpl} {s' : Sub} (cpl : a.cpl = some c) (mem : c.cmd ∈ (st.sent r a).outstanding)
      (fin : Final r (st.sent r a) s' c.cmd) (s : st'.s = callbackDone r s' c.cmd)
      (done : st'.done = c.cmd :: st.done)
      (frees : st'.frees = if st.s.ncb + 1 = r.num then st.frees + 1 else st.frees)

/-- The histories go with the loops: `done` are the completions `ncb` counts, and `free_fn` has run
when it counts them all. -/
structure ServeInv (r : Req) (dev : Dev) (vz : Nat → Zone) (st : Serve) : Prop where
  sub : ∃ L, SubInv r dev vz st.s st.done L
  frees : st.frees = if 0 < st.s.ncb ∧ st.s.ncb = r.num then 1 else 0

variable {dev : Dev} {vz : Nat → Zone}

theorem ServeInv.start (r : Req) (dev : Dev) (vz : Nat → Zone) (status : Nat) :
    ServeInv r dev vz (Serve.start r dev vz status) :=
  ⟨⟨[], SubInv.start r dev vz status⟩, rfl⟩

/-- The submission of a round keeps the invariant of the loops. -/
theorem ServeInv.sent (h : ServeInv r dev vz st) (hr : r.WF) (a : MediaAns) :
    ∃ L, SubInv r dev vz (st.sent r a) st.done L := by
  obtain ⟨L, hs⟩ := h.sub
  refine ⟨L, ?_⟩
  rw [Serve.sent]
  split
  · exact hs
  · next z hz =>
    obtain ⟨-, hz64, hi, -⟩ := Serve.submits_eq_some hr.len hz
    split
    · exact hs.submit hr hz64 hi
    · exact { hs with }

/-- **Every round is one of the three.** -/
theorem ServeInv.round (h : ServeInv r dev vz st) (hr : r.WF)
    (e : serveStep r st a = some st') : Round r st a st' := by
  obtain ⟨hs, hst⟩ := serveStep_cases e
  obtain ⟨L, hsub⟩ := h.sent hr a
  have hsame : st'.s.ncb = st.s.ncb → st'.done = st.done ∧ st'.frees = st.frees := fun hn => by
    rw [hst]
    exact ⟨if_pos hn, if_neg fun hc => hc.1 hn⟩
  have hquiet : st'.s = st.sent r a → Round r st a st' := fun hs => by
    obtain ⟨hd, hf⟩ := hsame (by rw [hs, Serve.sent_ncb])
    exact .quiet hs hd hf
  rcases hs with hs | hs
  · exact hquiet hs
  rcases hsub.poke_inv a with e | ⟨c, ha, hc, ⟨hst', hlast, e⟩ | ⟨s', hf, e⟩⟩
  · exact hquiet (hs.trans e)
  · obtain ⟨hd, hf⟩ := hsame (by rw [hs, e]; exact Serve.sent_ncb r st a)
    exact .retry ha hc hst' hlast (hs.trans e) hd hf
  · have hn : st'.s.ncb = st.s.ncb + 1 := by
      rw [hs, e, ← Serve.sent_ncb r st a, ← hf.ncb]
      rfl
    refine .final ha hc hf (hs.trans e) ?_ ?_
    · have hd : st'.done = if st'.s.ncb = st.s.ncb then st.done
          else (a.cpl.map Cpl.cmd).toList ++ st.done := congrArg Serve.done hst
      rw [hd, if_neg (by omega), ha]
      rfl
    · have hfr : st'.frees = if st'.s.ncb ≠ st.s.ncb ∧ st'.s.ncb = r.num then st.frees + 1
          else st.frees := congrArg Serve.frees hst
      have hne : st.s.ncb + 1 ≠ st.s.ncb := Nat.succ_ne_self _
      rw [hfr, hn]
      simp only [hne, ne_eq, not_false_eq_true, true_and]

/-- A round keeps the histories in step with the loops. -/
theorem ServeInv.step (h : ServeInv r dev vz st) (hr : r.WF)
    (e : serveStep r st a = some st') : ServeInv r dev vz st' := by
  obtain ⟨L, hsub⟩ := h.sent hr a
  have hncb := Serve.sent_ncb r st a
  cases h.round hr e with
  | quiet hs hd hf =>
    refine ⟨⟨L, ?_⟩, ?_⟩
    · rw [hs, hd]
      exact hsub
    · rw [hs, hf, hncb]
      exact h.frees
  | @retry c _ hc hst hlast hs hd hf =>
    refine ⟨⟨L, ?_⟩, ?_⟩
    · rw [hs, hd]
      exact hsub.retry hc hst hlast c.resubmit
    · rw [hs, hf]
      show st.frees = if 0 < (st.sent r a).ncb ∧ (st.sent r a).ncb = r.num then 1 else 0
      rw [hncb]
      exact h.frees
  | final _ hc hfin hs hd hf =>
    have hlt := hsub.ncb_lt hc
    refine ⟨?_, ?_⟩
    · rw [hs, hd]
      exact ⟨_, hsub.done hr hc hfin⟩
    · have h0 := h.frees
      rw [hncb] at hlt
      rw [if_neg (by omega)] at h0
      have hn : st'.s.ncb = st.s.ncb + 1 := by
        rw [hs, ← hncb, ← hfin.ncb]
        rfl
      rw [hf, hn, h0]
      simp only [Nat.succ_pos, true_and]

end

/-! ### A piece of one unit -/

/-- A write of one unit to a group of one empty node, whose attempts have the statuses `fate`. -/
def unitReq (dev : Dev) (fate : Nat → Nat → Nat) : Req :=
  pieceReq ⟨fun _ => 0, unitBytes, 0, fate⟩ (Ztl.fresh oneNode dev) 0 1 0

section

variable (dev : Dev) (fate : Nat → Nat → Nat)
include dev fate

theorem unitReq_wf : (unitReq dev fate).WF := by
  have ha := Alloc.fresh oneNode dev
  have hn : 0 < (Ztl.fresh oneNode dev).nnodes := Nat.one_pos
  have hfit : ((Ztl.fresh oneNode dev).vnodes 0).used + 1 ≤ ztlProOptSecNumInnode := by
    show 0 + 1 ≤ ztlProOptSecNumInnode
    decide
  exact pieceReq_wf ha.geometry hn (ha.placed 0 hn) hfit

theorem unitReq_prov : (unitReq dev fate).prov.length = 1 :=
  (unitReq_wf dev fate).len

theorem unitReq_ids : (unitReq dev fate).znCmdId 0 = [0] := by
  rw [(unitReq_wf dev fate).ids 0 (by decide)]
  show (List.range (unitsAt 1 0)).map (fun p => 0 + ztlProZoneNumInnode * p) = [0]
  decide

end

/-- The round that offers the only command to the device. -/
theorem unitReq_offer (dev : Dev) (vz : Nat → Zone) (status : Nat) (fate : Nat → Nat → Nat)
    (b : Bool) :
    let r := unitReq dev fate
    let s := Sub.start dev vz status
    serveStep r (Serve.start r dev vz status) ⟨b, none⟩ =
      some ⟨if b then submittedAt r s 0
        else { s with minflight := update s.minflight 0 true }, if b then 1 else 0, [], 0⟩ := by
  intro r s
  have hp : r.prov.length = 1 := unitReq_prov dev fate
  have hi : r.znCmdId 0 = [0] := unitReq_ids dev fate
  have hn : r.num = 1 := rfl
  cases b with
  | true =>
    simp [serveStep, Serve.start, Serve.after, submitZone, submittedAt, Sub.start, hp, hi, hn, s]
  | false =>
    simp [serveStep, Serve.start, Serve.after, submitZone, ztlIoPokeCtx, Sub.start, hp, hi, hn, s]

/-- **Nothing in flight and the zone marked**: no answer of the device changes anything. -/
theorem unitReq_stuck {dev : Dev} {vz : Nat → Zone} {fate : Nat → Nat → Nat} {st st' : Serve}
    {as : List MediaAns} (hinv : ServeInv (unitReq dev fate) dev vz st)
    (ho : st.s.outstanding = []) (hm : st.s.minflight 0 = true)
    (h : Runs (serveStep (unitReq dev fate)) (fun _ _ => True) st as st') : st'.s = st.s := by
  have hr := unitReq_wf dev fate
  refine (h.invariant (I := fun st' => ServeInv (unitReq dev fate) dev vz st' ∧ st'.s = st.s)
    (fun st1 a st2 hi _ e => ⟨hi.1.step hr e, ?_⟩) ⟨hinv, rfl⟩).2
  obtain ⟨hi, hs⟩ := hi
  have hsub : st1.submits (unitReq dev fate) = none := by
    refine Option.eq_none_iff_forall_not_mem.mpr fun z hz => ?_
    obtain ⟨hz1, -, -, hf⟩ := Serve.submits_eq_some hr.len hz
    rw [unitReq_prov, Nat.lt_one_iff] at hz1
    rw [hz1, hs, hm] at hf
    cases hf
  have hsent : st1.sent (unitReq dev fate) a = st.s := by rw [Serve.sent, hsub, hs]
  cases hi.round hr e with
  | quiet hs' _ _ => exact hs'.trans hsent
  | retry _ hc => rw [hsent, ho] at hc; cases hc
  | final _ hc => rw [hsent, ho] at hc; cases hc

/-- The round after the command is accepted pokes for its completion. -/
theorem unitReq_poke (dev : Dev) (vz : Nat → Zone) (status : Nat) (fate : Nat → Nat → Nat)
    (a : MediaAns) :
    let r := unitReq dev fate
    let s := submittedAt r (Sub.start dev vz status) 0
    serveStep r ⟨s, 1, [], 0⟩ a =
      some (Serve.after r ⟨s, 1, [], 0⟩ (ztlIoPokeCtx r s a, 1) a) := by
  intro r s
  have hp : ¬ 1 < r.prov.length := by
    rw [unitReq_prov dev fate]
    exact lt_irrefl _
  have hn : ¬ s.submitted < r.num := lt_irrefl 1
  have hb : s.ncb < r.num := Nat.one_pos
  rw [serveStep, if_neg hp, if_neg hn, if_pos hb]

section

variable {r : Req} {st st' : Serve} {a : MediaAns} {dev : Dev} {vz : Nat → Zone}

/-! ### No completion is lost -/

theorem Serve.sent_errCnt (r : Req) (st : Serve) (a : MediaAns) :
    (st.sent r a).errCnt = st.s.errCnt := by
  rw [Serve.sent]
  split
  · rfl
  · split <;> rfl

/-- The round's completion, if the callback resubmits it, is accepted again. -/
def Serve.Resubmits (r : Req) (st : Serve) (a : MediaAns) : Prop :=
  ∀ c, a.cpl = some c → r.status c.cmd (st.s.errCnt c.cmd) ≠ 0 →
    st.s.errCnt c.cmd + 1 < maxCallbackErrCnt → c.resubmit = true

/-- Each accepted command is counted or on its way. -/
def Sub.Balanced (s : Sub) : Prop := s.submitted = s.ncb + s.outstanding.length

theorem Sub.Balanced.sent (h : st.s.Balanced) (r : Req) (a : MediaAns) :
    (st.sent r a).Balanced := by
  rw [Serve.sent]
  split
  · exact h
  · split
    · show st.s.submitted + 1 = st.s.ncb + (st.s.outstanding.length + 1)
      rw [Sub.Balanced] at h
      omega
    · exact h

/-- **A round loses no completion** unless it loses a resubmission. -/
theorem Sub.Balanced.step (hb : st.s.Balanced) (h : ServeInv r dev vz st) (hr : r.WF)
    (hg : st.Resubmits r a) (e : serveStep r st a = some st') : st'.s.Balanced := by
  have hs := hb.sent r a
  cases h.round hr e with
  | quiet hs' _ _ =>
    rw [hs']
    exact hs
  | @retry c ha hc hst hlast hs' _ _ =>
    rw [Serve.sent_errCnt] at hst hlast
    rw [hs', hg c ha hst hlast]
    show (st.sent r a).submitted =
      (st.sent r a).ncb + (c.cmd :: (st.sent r a).outstanding.erase c.cmd).length
    rw [← (perm_cons_erase hc).length_eq]
    exact hs
  | @final c s' _ hc hfin hs' _ _ =>
    have hlen := (perm_cons_erase hc).length_eq
    rw [length_cons] at hlen
    rw [hs']
    show s'.submitted = s'.ncb + 1 + s'.outstanding.length
    rw [hfin.submitted, hfin.ncb, hfin.outstanding, hs]
    omega

/-- **No completion is lost.**  As long as every resubmission the callback makes is accepted, the
accepted commands are those `ncb` counts and those at the device; when all are submitted and none is
left there, the waiting loop ends; and `free_fn` has run once if all are counted, and never before. -/
theorem completions_run {status : Nat} {as : List MediaAns} (hr : r.WF) (hnum : 0 < r.num)
    (h : Runs (serveStep r) (fun st a => st.Resubmits r a) (Serve.start r dev vz status) as st) :
    st.s.submitted = st.s.ncb + st.s.outstanding.length ∧
      (r.num ≤ st.s.submitted → st.s.outstanding = [] → st.s.ncb = r.num) ∧
      st.frees = if st.s.ncb = r.num then 1 else 0 := by
  obtain ⟨hinv, hb⟩ : ServeInv r dev vz st ∧ st.s.Balanced :=
    h.invariant (I := fun st => ServeInv r dev vz st ∧ st.s.Balanced)
      (fun _ _ _ hi hg e => ⟨hi.1.step hr e, hi.2.step hi.1 hr hg e⟩)
      ⟨ServeInv.start r dev vz status, rfl⟩
  refine ⟨hb, fun hn ho => ?_, ?_⟩
  · obtain ⟨L, hsub⟩ := hinv.sub
    have hlen := hsub.length_le
    rw [Sub.Balanced, ho, length_nil] at hb
    rw [ho, append_nil, ← hsub.ncb] at hlen
    omega
  · rw [hinv.frees]
    by_cases hn : st.s.ncb = r.num
    · rw [if_pos ⟨hn ▸ hnum, hn⟩, if_pos hn]
    · rw [if_neg fun hc => hn hc.2, if_neg hn]

/-- The device takes the only command of a piece and stores its data. -/
theorem completions_run_unit :
    let r := unitReq Dev.blank fun _ _ => 0
    ∃ as st, Runs (serveStep r) (fun st a => st.Resubmits r a)
        (Serve.start r Dev.blank Zone.fresh 0) as st ∧
      st.s.submitted = st.s.ncb + st.s.outstanding.length ∧
      (r.num ≤ st.s.submitted → st.s.outstanding = [] → st.s.ncb = r.num) ∧
      st.frees = if st.s.ncb = r.num then 1 else 0 := by
  intro r
  have hrun := Runs.cons (G := fun st a => st.Resubmits r a) (fun c hc => by cases hc)
    (unitReq_offer Dev.blank Zone.fresh 0 (fun _ _ => 0) true)
    (.one (fun c hc _ _ => by cases hc; rfl)
      (unitReq_poke Dev.blank Zone.fresh 0 (fun _ _ => 0) ⟨true, some ⟨0, true⟩⟩))
  exact ⟨_, _, hrun, completions_run (unitReq_wf _ _) Nat.one_pos hrun⟩

/-- **A lost completion.**  The only command of a piece fails its first attempt and the device does
not take it again: it is neither counted nor on its way, and the waiting loop waits for ever. -/
theorem completion_lost :
    let r := unitReq Dev.blank fun _ _ => 1
    ∃ as st, Runs (serveStep r) (fun _ _ => True) (Serve.start r Dev.blank Zone.fresh 0) as st ∧
      st.s.submitted = 1 ∧ st.s.ncb = 0 ∧ st.s.outstanding = [] ∧
      ∀ as' st', Runs (serveStep r) (fun _ _ => True) st as' st' → st'.s.ncb < r.num := by
  intro r
  set s := submittedAt r (Sub.start Dev.blank Zone.fresh 0) 0 with hs
  have hst : ∀ k j, r.status k j = 1 := fun _ _ => rfl
  have hpoke : ztlIoPokeCtx r s ⟨true, some ⟨0, false⟩⟩ = retried s 0 false := by
    simp [ztlIoPokeCtx, ztlIoWriteCallbackMcmd, submittedAt, retried, Sub.start, hst, hs, r,
      unitReq_ids, maxCallbackErrCnt]
  have hout : (retried s 0 false).outstanding = [] := by
    simp [retried, hs, submittedAt, Sub.start, r, unitReq_ids]
  have hrun := Runs.cons (G := fun _ _ => True) trivial
    (unitReq_offer Dev.blank Zone.fresh 0 (fun _ _ => 1) true)
    (.one trivial
      (unitReq_poke Dev.blank Zone.fresh 0 (fun _ _ => 1) ⟨true, some ⟨0, false⟩⟩))
  set st := Serve.after r ⟨s, 1, [], 0⟩ (ztlIoPokeCtx r s ⟨true, some ⟨0, false⟩⟩, 1)
    ⟨true, some ⟨0, false⟩⟩
  have hs₂ : st.s = retried s 0 false := hpoke
  have hinv : ServeInv r Dev.blank Zone.fresh st :=
    hrun.invariant (fun _ _ _ hi _ e => hi.step (unitReq_wf _ _) e) (ServeInv.start r _ _ 0)
  refine ⟨_, st, hrun, ?_⟩
  rw [hs₂]
  refine ⟨rfl, rfl, hout, fun as' st' h' => ?_⟩
  rw [unitReq_stuck hinv (hs₂ ▸ hout) (hs₂ ▸ rfl) h', hs₂]
  exact Nat.one_pos

/-! ### The flags -/

/-- The commands of zone `z` that are accepted and not completed for good. -/
def Serve.pending (r : Req) (st : Serve) (z : Nat) : List Nat :=
  ((r.znCmdId z).take (st.s.znCmdIdIndex z)).filter fun k => k ∉ st.done

/-- The round's submission, if it makes one, is accepted. -/
def Serve.Accepts (r : Req) (st : Serve) (a : MediaAns) : Prop := st.submits r ≠ none → a.submit = true

/-- The flag of zone `z` counts its pending commands. -/
def Serve.Exact (r : Req) (st : Serve) (z : Nat) : Prop :=
  (st.pending r z).length = if st.s.minflight z then 1 else 0

/-- The commands of zone `z` are those with its number modulo 64. -/
theorem Req.WF.mem_znCmdId (hr : r.WF) {z k : Nat} (hz : z < ztlProZoneNumInnode) :
    k ∈ r.znCmdId z ↔ k < r.num ∧ k % ztlProZoneNumInnode = z := by
  rw [hr.ids z hz, mem_map]
  simp only [mem_range, unitsAt, ztlProZoneNumInnode] at *
  constructor
  · rintro ⟨p, hp, rfl⟩
    omega
  · rintro ⟨hk, rfl⟩
    exact ⟨k / 64, by omega, Nat.mod_add_div k 64⟩

/-- A command in flight is pending at its zone. -/
theorem SubInv.mem_pending {L : List WriteRec} (h : SubInv r dev vz st.s st.done L) (hr : r.WF)
    {k : Nat} (hk : k ∈ st.s.outstanding) : k ∈ st.pending r (k % ztlProZoneNumInnode) := by
  have hz : k % ztlProZoneNumInnode < ztlProZoneNumInnode := Nat.mod_lt _ (by decide)
  obtain ⟨hkn, hidx⟩ := h.accepted k (mem_append_right _ hk)
  have hlen : k / ztlProZoneNumInnode < (r.znCmdId (k % ztlProZoneNumInnode)).length := by
    rw [hr.ids _ hz, length_map, length_range]
    simp only [unitsAt, ztlProZoneNumInnode]
    omega
  refine mem_filter.mpr ⟨mem_take_iff_getElem.mpr ⟨_, lt_min hidx hlen, ?_⟩, ?_⟩
  · rw [← getD_eq_getElem _ 0 hlen, hr.znCmdId_getD hz hlen, Nat.mod_add_div]
  · exact decide_eq_true fun hd => (nodup_append.mp h.nodup).2.2 _ hd _ hk rfl

section

variable (hx : ∀ z < ztlProZoneNumInnode, st.Exact r z) (h : ServeInv r dev vz st) (hr : r.WF)
  (hg : st.Accepts r a)
include hx h hr hg

theorem Serve.Exact.sent :
    ∀ z < ztlProZoneNumInnode, ({ st with s := st.sent r a } : Serve).Exact r z := by
  intro z hz
  obtain ⟨L, hsub⟩ := h.sent hr a
  cases hy : st.submits r with
  | none =>
    have hs : st.sent r a = st.s := by rw [Serve.sent, hy]
    rw [hs]
    exact hx z hz
  | some y =>
    obtain ⟨-, -, hi, hf⟩ := Serve.submits_eq_some hr.len hy
    have hs : st.sent r a = submittedAt r st.s y := by
      rw [Serve.sent, hy]
      exact if_pos (hg (by rw [hy]; nofun))
    rw [hs] at hsub ⊢
    by_cases e : z = y
    · subst e
      have hold := hx z hz
      have hnew : (r.znCmdId z).getD (st.s.znCmdIdIndex z) 0 ∉ st.done := fun hd =>
        (nodup_append.mp hsub.nodup).2.2 _ hd _ mem_cons_self rfl
      rw [Serve.Exact, hf] at hold
      simp only [Serve.Exact, Serve.pending, submittedAt, update_self, if_true]
      rw [take_succ_eq_append_getElem hi, filter_append, length_append,
        ← getD_eq_getElem _ 0 hi]
      have hone : ([(r.znCmdId z).getD (st.s.znCmdIdIndex z) 0].filter
          fun k => k ∉ st.done).length = 1 := by
        rw [filter_eq_self.mpr fun k hk => ?_]
        · rfl
        · rw [mem_singleton.mp hk]
          exact decide_eq_true hnew
      rw [Serve.pending] at hold
      rw [hold, hone]
      rfl
    · have hold := hx z hz
      simp only [Serve.Exact, Serve.pending, submittedAt, update_of_ne e]
      exact hold

/-- **A round keeps the flags exact** unless its submission is refused. -/
theorem Serve.Exact.step (e : serveStep r st a = some st') :
    ∀ z < ztlProZoneNumInnode, st'.Exact r z := by
  intro z hz
  obtain ⟨L, hsub⟩ := h.sent hr a
  have hsent := Serve.Exact.sent hx h hr hg
  cases h.round hr e with
  | quiet hs hd _ =>
    rw [Serve.Exact, Serve.pending, hs, hd]
    exact hsent z hz
  | retry _ _ _ _ hs hd _ =>
    rw [Serve.Exact, Serve.pending, hs, hd]
    exact hsent z hz
  | @final c s' _ hc hfin hs hd _ =>
    -- the pending commands lose `c.cmd`, and the flag that is cleared is the one of its zone
    have hkn := (hsub.accepted _ (mem_append_right _ hc)).1
    have hflag : st'.s.minflight z =
        if z = c.cmd % ztlProZoneNumInnode then false else (st.sent r a).minflight z := by
      rw [hs]
      show update s'.minflight (r.cmd c.cmd).sequenceZn false z = _
      rw [hr.zn _ hkn, hfin.minflight, update_apply]
    have hpend : st'.pending r z =
        (({ st with s := st.sent r a } : Serve).pending r z).filter (· ≠ c.cmd) := by
      have hidx : st'.s.znCmdIdIndex = (st.sent r a).znCmdIdIndex := by
        rw [hs]
        exact hfin.index
      rw [Serve.pending, Serve.pending, hd, hidx, filter_filter]
      refine filter_congr fun k _ => ?_
      simp [not_or]
    rw [Serve.Exact, hpend, hflag]
    have hold := hsent z hz
    rw [Serve.Exact] at hold
    by_cases ez : z = c.cmd % ztlProZoneNumInnode
    · have hmem : c.cmd ∈ ({ st with s := st.sent r a } : Serve).pending r z :=
        ez ▸ SubInv.mem_pending hsub hr hc
      have hpos := length_pos_of_mem hmem
      have hone : (({ st with s := st.sent r a } : Serve).pending r z).length = 1 := by
        split at hold <;> omega
      obtain ⟨k, hk⟩ := length_eq_one_iff.mp hone
      rw [hk, mem_singleton] at hmem
      rw [hk, if_pos ez, hmem]
      simp
    · rw [if_neg ez, filter_eq_self.mpr fun k hk => ?_]
      · exact hold
      · refine decide_eq_true fun hkc => ez ?_
        have hkz := (mem_of_mem_take (mem_filter.mp hk).1)
        rw [← hkc, ((hr.mem_znCmdId hz).mp hkz).2]

end

/-- **The flags are exact.**  As long as every submission of the loop is accepted, a zone's flag is
set exactly when one command of the zone is accepted and not completed for good, and never are there
two. -/
theorem flags_run {status : Nat} {as : List MediaAns} (hr : r.WF)
    (h : Runs (serveStep r) (fun st a => st.Accepts r a) (Serve.start r dev vz status) as st)
    {z : Nat} (hz : z < r.prov.length) :
    (st.s.minflight z = true ↔ (st.pending r z).length = 1) ∧ (st.pending r z).length ≤ 1 := by
  have hz64 : z < ztlProZoneNumInnode := hz.trans_le (hr.len.trans_le (Nat.min_le_right _ _))
  obtain ⟨-, hx⟩ : ServeInv r dev vz st ∧ ∀ z < ztlProZoneNumInnode, st.Exact r z :=
    h.invariant (I := fun st => ServeInv r dev vz st ∧ ∀ z < ztlProZoneNumInnode, st.Exact r z)
      (fun _ _ _ hi hg e => ⟨hi.1.step hr e, Serve.Exact.step hi.2 hi.1 hr hg e⟩)
      ⟨ServeInv.start r dev vz status, fun _ _ => by
        simp [Serve.Exact, Serve.pending, Serve.start, Sub.start]⟩
  have hxz := hx z hz64
  rw [Serve.Exact] at hxz
  cases hf : st.s.minflight z with
  | false =>
    rw [hf] at hxz
    simp [hxz]
  | true =>
    rw [hf] at hxz
    simp [hxz]

/-- The zone of the only command, while the command is on its way. -/
theorem flags_run_unit :
    let r := unitReq Dev.blank fun _ _ => 0
    ∃ as st, Runs (serveStep r) (fun st a => st.Accepts r a)
        (Serve.start r Dev.blank Zone.fresh 0) as st ∧ st.s.minflight 0 = true ∧
      (st.s.minflight 0 = true ↔ (st.pending r 0).length = 1) ∧ (st.pending r 0).length ≤ 1 := by
  intro r
  have hrun := Runs.one (G := fun st a => st.Accepts r a) (fun _ => rfl)
    (unitReq_offer Dev.blank Zone.fresh 0 (fun _ _ => 0) true)
  exact ⟨_, _, hrun, rfl, flags_run (unitReq_wf _ _) hrun ((unitReq_prov _ _).symm ▸ Nat.one_pos)⟩

/-- **A flag that stays.**  The device refuses the first submission of the only command: the zone is
marked with nothing pending, and whatever the device answers from then on, the command is never
submitted. -/
theorem flag_stuck :
    let r := unitReq Dev.blank fun _ _ => 0
    ∃ as st, Runs (serveStep r) (fun _ _ => True) (Serve.start r Dev.blank Zone.fresh 0) as st ∧
      st.s.minflight 0 = true ∧ st.pending r 0 = [] ∧
      ∀ as' st', Runs (serveStep r) (fun _ _ => True) st as' st' → st'.s.submitted < r.num := by
  intro r
  have hrun := Runs.one (G := fun _ _ => True) trivial
    (unitReq_offer Dev.blank Zone.fresh 0 (fun _ _ => 0) false)
  have hinv := hrun.invariant (I := ServeInv r Dev.blank Zone.fresh)
    (fun _ _ _ hi _ e => hi.step (unitReq_wf _ _) e) (ServeInv.start r _ _ 0)
  refine ⟨_, _, hrun, rfl, rfl, fun as' st' h' => ?_⟩
  rw [unitReq_stuck hinv rfl rfl h']
  exact Nat.one_pos

end

end Xztl
