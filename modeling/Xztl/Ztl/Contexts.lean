import Xztl.Ztl.Serve

/-!
# Ztl — command contexts (`ztl-media.c`)

An asynchronous command needs a context of the queue.  The submit functions take one out of the
queue's pool and note it in the command (`media_ctx`); when the device refuses the command, those
for reads and writes put it back, and the one for appends does not.  A completion runs
`znd_media_async_cb`, which calls the command's callback and then puts back the context noted in the
command.  The callbacks of reads and writes submit a failed command again, and that notes another
context.

Which context of the pool is taken is not said, and neither is which command completes next.

**`contexts_run`**: as long as no completion is answered by another attempt, no command is submitted
while it is in flight and no append is refused, every context is once in the pool or
once in flight, and it is taken, ends and is put back in turn.  After another attempt the wrong
context is put back (`contexts_swapped`).  **`mirrors_round`** says that the rounds of a write are such
steps: the submission of the round, and the completion that its poke delivers.
-/

namespace Xztl

open Function List

/-! ### The pool -/

/-- The opcodes of asynchronous commands: `XZTL_CMD_READ`, `XZTL_CMD_WRITE`, `XZTL_ZONE_APPEND`. -/
inductive IoOpcode where
  | read | write | append
deriving DecidableEq, Repr

/-- What happens to a context: it is taken out of the pool, its command completes or is refused, and
it is put back. -/
inductive CtxEvent where
  | got (c : Nat)
  | ended (c : Nat)
  | back (c : Nat)
deriving DecidableEq, Repr

/-- A queue: the contexts in its pool, the commands in flight with their contexts, `opcode`,
`media_ctx` and `callback_err_cnt` of the commands, and what has happened so far. -/
structure CtxPool where
  free : List Nat
  flight : List (Nat × Nat)
  opcode : Nat → IoOpcode
  mediaCtx : Nat → Option Nat
  errCnt : Nat → Nat
  events : List CtxEvent

namespace CtxPool

/-- A new queue. -/
def start (all : List Nat) : CtxPool := ⟨all, [], fun _ => .write, fun _ => none, fun _ => 0, []⟩

/-- `xnvme_queue_get_cmd_ctx`, when it gives out `c`. -/
def getCmdCtx (s : CtxPool) (c : Nat) : Option CtxPool :=
  if c ∈ s.free then some { s with free := s.free.erase c, events := s.events ++ [.got c] } else none

/-- `xnvme_queue_put_cmd_ctx`. -/
def putCmdCtx (s : CtxPool) (c : Nat) : CtxPool :=
  { s with free := c :: s.free, events := s.events ++ [.back c] }

/-- A command of this context is over. -/
def noteEnd (s : CtxPool) (c : Nat) : CtxPool := { s with events := s.events ++ [.ended c] }

/-- The submit functions: command `k` gets the context `c`, which is put back or kept when the device
refuses the command. -/
def submitAsynch (s : CtxPool) (k c : Nat) (accepted putBack : Bool) : Option CtxPool := do
  let s ← s.getCmdCtx c
  let s := { s with mediaCtx := update s.mediaCtx k (some c) }
  if accepted then return { s with flight := (c, k) :: s.flight }
  else return if putBack then (s.noteEnd c).putCmdCtx c else s.noteEnd c

/-- `znd_media_submit_read_asynch`. -/
def submitReadAsynch (s : CtxPool) (k c : Nat) (accepted : Bool) : Option CtxPool :=
  s.submitAsynch k c accepted true

/-- `znd_media_submit_write_asynch`. -/
def submitWriteAsynch (s : CtxPool) (k c : Nat) (accepted : Bool) : Option CtxPool :=
  s.submitAsynch k c accepted true

/-- `znd_media_submit_append_asynch`. -/
def submitAppendAsynch (s : CtxPool) (k c : Nat) (accepted : Bool) : Option CtxPool :=
  s.submitAsynch k c accepted false

/-- `znd_media_submit_io`, for a command that is not synchronous. -/
def submitIo (s : CtxPool) (k c : Nat) (accepted : Bool) : Option CtxPool :=
  match s.opcode k with
  | .read => s.submitReadAsynch k c accepted
  | .write => s.submitWriteAsynch k c accepted
  | .append => s.submitAppendAsynch k c accepted

/-- What the two callbacks do with a command that completed with `status`, as far as the queue is
concerned; another attempt gets the context `c`. -/
def callbackMcmd (s : CtxPool) (k status c : Nat) (accepted : Bool) : Option CtxPool :=
  if status ≠ 0 then
    let e := s.errCnt k + 1
    let s := { s with errCnt := update s.errCnt k e }
    if e < maxCallbackErrCnt then s.submitIo k c accepted else some s
  else some s

/-- `znd_media_async_cb`, for the command `k` that was in flight with the context `c`.  The context
put back is the one noted in the command when the callback has run. -/
def asyncCb (s : CtxPool) (c k status c' : Nat) (accepted : Bool) : Option CtxPool := do
  let s := { s with flight := s.flight.erase (c, k) }
  let s ← (s.noteEnd c).callbackMcmd k status c' accepted
  let mediaCtx ← s.mediaCtx k
  return s.putCmdCtx mediaCtx

end CtxPool

/-- The steps: a command is set up for a write or an append, or cleared for a read; it is submitted;
and one in flight completes. -/
inductive CtxOp where
  | prepare (k : Nat) (opcode : IoOpcode)
  | clear (k : Nat)
  | submit (k c : Nat) (accepted : Bool)
  | complete (c k status c' : Nat) (accepted : Bool)

/-- One step. -/
def ctxStep (s : CtxPool) : CtxOp → Option CtxPool
  | .prepare k opcode => some { s with
      opcode := update s.opcode k opcode
      errCnt := update s.errCnt k 0 }
  | .clear k => some { s with
      opcode := update s.opcode k .read
      errCnt := update s.errCnt k 0
      mediaCtx := update s.mediaCtx k none }
  | .submit k c accepted => s.submitIo k c accepted
  | .complete c k status c' accepted =>
    if (c, k) ∈ s.flight then s.asyncCb c k status c' accepted else none

/-- A step that leaves the contexts of the commands in flight alone: what is cleared or submitted is
not in flight, an append is accepted, and the callback does not submit again. -/
def CtxOp.Spares (s : CtxPool) : CtxOp → Prop
  | .prepare _ _ => True
  | .clear k => ∀ c, (c, k) ∉ s.flight
  | .submit k _ accepted => (∀ c, (c, k) ∉ s.flight) ∧ (s.opcode k = .append → accepted = true)
  | .complete _ k status _ _ => status = 0 ∨ maxCallbackErrCnt ≤ s.errCnt k + 1

/-! ### The turns of a context -/

/-- Where a context is. -/
inductive CtxStage where
  | pooled | taken | ended
deriving DecidableEq, Repr

/-- What an event does to the context `c`; out of turn it has no meaning. -/
def CtxStage.next (c : Nat) : CtxStage → CtxEvent → Option CtxStage
  | st, .got c' => if c' ≠ c then some st else if st = .pooled then some .taken else none
  | st, .ended c' => if c' ≠ c then some st else if st = .taken then some .ended else none
  | st, .back c' => if c' ≠ c then some st else if st = .ended then some .pooled else none

/-- Where the events leave the context `c`, when they come in turn. -/
def stage (c : Nat) (es : List CtxEvent) : Option CtxStage := es.foldlM (CtxStage.next c) .pooled

/-- Every context of `all` is once in the pool or once in flight, a command in flight has its own
context noted, and the events of every context have come in turn. -/
structure Disciplined (all : List Nat) (s : CtxPool) : Prop where
  perm : (s.free ++ s.flight.map Prod.fst).Perm all
  noted : ∀ c k, (c, k) ∈ s.flight → s.mediaCtx k = some c
  turns : ∀ c, stage c s.events = some (if c ∈ s.flight.map Prod.fst then .taken else .pooled)

variable {c' status : Nat} {accepted : Bool}

section

variable {all : List Nat} {s s' : CtxPool} {c k : Nat}

theorem stage_append (c : Nat) (es : List CtxEvent) (e : CtxEvent) :
    stage c (es ++ [e]) = (stage c es).bind (CtxStage.next c · e) := by
  simp [stage, foldlM_append]

/-- The events of other contexts do not count. -/
theorem stage_of_ne (hne : c' ≠ c) (es : List CtxEvent) :
    stage c (es ++ [.got c']) = stage c es ∧ stage c (es ++ [.ended c']) = stage c es ∧
      stage c (es ++ [.back c']) = stage c es := by
  simp [stage_append, CtxStage.next, hne]

/-- A context that comes back has been taken and has ended. -/
theorem stage_back {es : List CtxEvent} (h : stage c es = some .taken) :
    stage c (es ++ [.ended c] ++ [.back c]) = some .pooled := by
  rw [stage_append, stage_append, h]
  simp [CtxStage.next]

theorem stage_back_of_ne (hne : c' ≠ c) (es : List CtxEvent) :
    stage c (es ++ [.ended c'] ++ [.back c']) = stage c es := by
  rw [(stage_of_ne hne _).2.2, (stage_of_ne hne _).2.1]

/-- The queue after a submission. -/
def CtxPool.submitted (s : CtxPool) (k c : Nat) (accepted : Bool) : CtxPool :=
  let mediaCtx := update s.mediaCtx k (some c)
  if accepted then
    ⟨s.free.erase c, (c, k) :: s.flight, s.opcode, mediaCtx, s.errCnt, s.events ++ [.got c]⟩
  else if s.opcode k = .append then
    ⟨s.free.erase c, s.flight, s.opcode, mediaCtx, s.errCnt, s.events ++ [.got c] ++ [.ended c]⟩
  else
    ⟨c :: s.free.erase c, s.flight, s.opcode, mediaCtx, s.errCnt,
      s.events ++ [.got c] ++ [.ended c] ++ [.back c]⟩

/-- **What a submission does**: the context is in flight, back in the pool, or lost. -/
theorem submitIo_eq (s : CtxPool) (k c : Nat) (accepted : Bool) :
    s.submitIo k c accepted = if c ∈ s.free then some (s.submitted k c accepted) else none := by
  by_cases hc : c ∈ s.free
  · cases hop : s.opcode k <;> cases accepted <;>
      simp [CtxPool.submitIo, CtxPool.submitReadAsynch, CtxPool.submitWriteAsynch,
        CtxPool.submitAppendAsynch, CtxPool.submitAsynch, CtxPool.getCmdCtx, CtxPool.noteEnd,
        CtxPool.putCmdCtx, CtxPool.submitted, hop, hc]
  · cases hop : s.opcode k <;>
      simp [CtxPool.submitIo, CtxPool.submitReadAsynch, CtxPool.submitWriteAsynch,
        CtxPool.submitAppendAsynch, CtxPool.submitAsynch, CtxPool.getCmdCtx, hop, hc]

/-- The error counts after a completion with this status. -/
def CtxPool.counted (s : CtxPool) (k status : Nat) : Nat → Nat :=
  if status ≠ 0 then update s.errCnt k (s.errCnt k + 1) else s.errCnt

/-- **What a completion does** when the callback makes no other attempt. -/
theorem asyncCb_final (hg : status = 0 ∨ maxCallbackErrCnt ≤ s.errCnt k + 1) :
    s.asyncCb c k status c' accepted = (s.mediaCtx k).map fun d =>
      ⟨d :: s.free, s.flight.erase (c, k), s.opcode, s.mediaCtx, s.counted k status,
        s.events ++ [.ended c] ++ [.back d]⟩ := by
  rw [CtxPool.asyncCb, CtxPool.callbackMcmd, CtxPool.counted]
  cases hd : s.mediaCtx k with
  | none =>
    by_cases hst : status = 0
    · simp [hst, CtxPool.noteEnd, hd]
    · simp [hst, CtxPool.noteEnd, hd, Nat.not_lt.mpr (hg.resolve_left hst)]
  | some d =>
    by_cases hst : status = 0
    · simp [hst, CtxPool.noteEnd, CtxPool.putCmdCtx, hd]
    · simp [hst, CtxPool.noteEnd, CtxPool.putCmdCtx, hd, Nat.not_lt.mpr (hg.resolve_left hst)]

/-- And what it does when the callback submits the command again: the new context is put back, in
flight or not. -/
theorem asyncCb_retry (hst : status ≠ 0)
    (hlast : s.errCnt k + 1 < maxCallbackErrCnt) (hc : c' ∈ s.free) :
    s.asyncCb c k status c' accepted = some
      ((CtxPool.submitted ⟨s.free, s.flight.erase (c, k), s.opcode, s.mediaCtx, s.counted k status,
        s.events ++ [.ended c]⟩ k c' accepted).putCmdCtx c') := by
  rw [CtxPool.asyncCb, CtxPool.callbackMcmd, CtxPool.counted]
  simp only [ne_eq, hst, not_false_eq_true, if_true, submitIo_eq, CtxPool.noteEnd, hlast, hc]
  cases accepted <;> cases hop : s.opcode k <;> simp [CtxPool.submitted, hop]

theorem Disciplined.start (all : List Nat) : Disciplined all (.start all) where
  perm := by simp [CtxPool.start]
  noted := fun c k h => absurd h not_mem_nil
  turns := fun c => rfl

/-- A context of the pool is not in flight. -/
theorem Disciplined.not_mem (h : Disciplined all s) (hall : all.Nodup) (hc : c ∈ s.free) :
    c ∉ s.flight.map Prod.fst := by
  have hnodup := h.perm.nodup_iff.mpr hall
  exact fun hf => (nodup_append.mp hnodup).2.2 c hc c hf rfl

/-- Nothing is in flight twice. -/
theorem Disciplined.flight_nodup (h : Disciplined all s) (hall : all.Nodup) :
    (s.flight.map Prod.fst).Nodup :=
  (nodup_append.mp (h.perm.nodup_iff.mpr hall)).2.1

theorem erase_flight (h : (c, k) ∈ s.flight) :
    (s.flight.map Prod.fst).Perm (c :: (s.flight.erase (c, k)).map Prod.fst) :=
  (perm_cons_erase h).map Prod.fst

/-! ### The steps keep the discipline -/

section

variable (h : Disciplined all s) (hall : all.Nodup)
include h hall

/-- **A submission** of a command that is not in flight, and of an append that is accepted. -/
theorem Disciplined.submit (hk : ∀ c, (c, k) ∉ s.flight)
    (hop : s.opcode k = .append → accepted = true) (hs : s.submitIo k c accepted = some s') :
    Disciplined all s' := by
  rw [submitIo_eq, Option.ite_none_right_eq_some] at hs
  obtain ⟨hc, hs⟩ := hs
  cases hs
  have hfree := h.not_mem hall hc
  have hperm : (c :: (s.free.erase c ++ s.flight.map Prod.fst)).Perm all :=
    ((perm_cons_erase hc).append_right _).symm.trans h.perm
  have hstage : stage c (s.events ++ [.got c]) = some .taken := by
    rw [stage_append, h.turns c, if_neg hfree]
    simp [CtxStage.next]
  have hnoted : ∀ c' k', (c', k') ∈ s.flight →
      update s.mediaCtx k (some c) k' = some c' := fun c' k' hf => by
    have hne : k' ≠ k := fun e => hk c' (e ▸ hf)
    rw [update_of_ne hne]
    exact h.noted c' k' hf
  rw [CtxPool.submitted]
  cases accepted with
  | true =>
    refine ⟨perm_middle.trans hperm, fun c' k' hf => ?_, fun c' => ?_⟩
    · rcases mem_cons.mp hf with e | hf
      · cases e
        exact update_self ..
      · exact hnoted c' k' hf
    · show stage c' (s.events ++ [.got c]) = some (if c' ∈ c :: s.flight.map Prod.fst then _ else _)
      by_cases e : c' = c
      · rw [e, hstage, if_pos mem_cons_self]
      · rw [(stage_of_ne (Ne.symm e) _).1, h.turns c']
        simp only [mem_cons, e, false_or]
  | false =>
    rw [if_neg Bool.false_ne_true, if_neg fun e => Bool.false_ne_true (hop e)]
    refine ⟨hperm, hnoted, fun c' => ?_⟩
    by_cases e : c' = c
    · rw [e, stage_back hstage, if_neg hfree]
    · rw [stage_back_of_ne (Ne.symm e), (stage_of_ne (Ne.symm e) _).1, h.turns c']

/-- **A completion** that is not answered by another attempt. -/
theorem Disciplined.complete (hf : (c, k) ∈ s.flight)
    (hg : status = 0 ∨ maxCallbackErrCnt ≤ s.errCnt k + 1)
    (hs : s.asyncCb c k status c' accepted = some s') : Disciplined all s' := by
  rw [asyncCb_final hg, h.noted c k hf] at hs
  cases hs
  have herase := erase_flight hf
  have hgone : c ∉ (s.flight.erase (c, k)).map Prod.fst := by
    have := herase.nodup_iff.mp (h.flight_nodup hall)
    exact (nodup_cons.mp this).1
  refine ⟨?_, fun d k' hf' => h.noted d k' (mem_of_mem_erase hf'), fun d => ?_⟩
  · have hmove : (c :: (s.free ++ (s.flight.erase (c, k)).map Prod.fst)).Perm
        (s.free ++ c :: (s.flight.erase (c, k)).map Prod.fst) := perm_middle.symm
    exact hmove.trans ((herase.symm.append_left _).trans h.perm)
  · by_cases e : d = c
    · have htaken : stage c s.events = some .taken := by
        rw [h.turns c, if_pos (herase.mem_iff.mpr mem_cons_self)]
      rw [e, stage_back htaken, if_neg hgone]
    · rw [stage_back_of_ne (Ne.symm e), h.turns d]
      have hmem : d ∈ s.flight.map Prod.fst ↔ d ∈ (s.flight.erase (c, k)).map Prod.fst := by
        rw [herase.mem_iff, mem_cons, or_iff_right e]
      simp only [hmem]

/-- **Every step** that leaves the contexts in flight alone. -/
theorem Disciplined.step {a : CtxOp} (hg : a.Spares s) (hs : ctxStep s a = some s') :
    Disciplined all s' := by
  cases a with
  | prepare k opcode =>
    cases hs
    exact ⟨h.perm, h.noted, h.turns⟩
  | clear k =>
    cases hs
    refine ⟨h.perm, fun c k' hf => ?_, h.turns⟩
    have hne : k' ≠ k := fun e => hg c (e ▸ hf)
    show update s.mediaCtx k none k' = some c
    rw [update_of_ne hne]
    exact h.noted c k' hf
  | submit k c accepted => exact h.submit hall hg.1 hg.2 hs
  | complete c k status c' accepted =>
    rw [ctxStep] at hs
    split at hs
    · next hf => exact h.complete hall hf hg hs
    · cases hs

end

end

/-! ### Runs -/

/-- **The contexts are given back.**  Over every run of submissions and completions in which no
completion is answered by another attempt, nothing in flight is cleared or submitted and no append
is refused: the pool and the contexts in flight together are all contexts, each once, and every
context has been taken, has ended and was put back in turn. -/
theorem contexts_run {all : List Nat} {as : List CtxOp} {s : CtxPool} (hall : all.Nodup)
    (hrun : Runs ctxStep (fun s a => a.Spares s) (.start all) as s) :
    (s.free ++ s.flight.map Prod.fst).Perm all ∧
      ∀ c, stage c s.events = some (if c ∈ s.flight.map Prod.fst then .taken else .pooled) := by
  have h : Disciplined all s :=
    Runs.invariant (fun _ _ _ h hg e => h.step hall hg e) hrun (Disciplined.start all)
  exact ⟨h.perm, h.turns⟩

/-- A write that completes, and one that the device refuses. -/
theorem contexts_run_refused : ∃ s,
    Runs ctxStep (fun s a => a.Spares s) (.start [0, 1])
      [.submit 7 0 true, .submit 8 1 false, .complete 0 7 0 1 true] s ∧
    s.flight = [] ∧ s.free.length = 2 ∧ (s.free ++ s.flight.map Prod.fst).Perm [0, 1] := by
  have hrun : Runs ctxStep (fun s a => a.Spares s) (.start [0, 1])
      [.submit 7 0 true, .submit 8 1 false, .complete 0 7 0 1 true] _ :=
    .cons ⟨fun _ => not_mem_nil, nofun⟩ rfl
      (.cons ⟨fun c h => by simp [CtxPool.start] at h, nofun⟩ rfl (.one (Or.inl rfl) rfl))
  exact ⟨_, hrun, rfl, rfl, (contexts_run (by decide) hrun).1⟩

/-- **One failed completion.**  The callback submits the command again.  When the device accepts it,
its context is in the pool while the command is in flight, and the context of the first attempt is
lost; when the device refuses it, the second context is put back twice. -/
theorem contexts_swapped :
    (∃ s, Runs ctxStep (fun _ _ => True) (.start [0, 1]) [.submit 7 0 true, .complete 0 7 1 1 true] s ∧
      s.free = [1] ∧ s.flight = [(1, 7)] ∧ stage 1 s.events = none) ∧
    ∃ s, Runs ctxStep (fun _ _ => True) (.start [0, 1]) [.submit 7 0 true, .complete 0 7 1 1 false] s ∧
      s.free = [1, 1] ∧ s.flight = [] ∧ stage 1 s.events = none :=
  ⟨⟨_, .cons trivial rfl (.one trivial rfl), rfl, rfl, rfl⟩,
    ⟨_, .cons trivial rfl (.one trivial rfl), rfl, rfl, rfl⟩⟩

/-! ### The rounds of a write -/

/-- The queue has the commands of the loops in flight, with their error counts. -/
structure Mirrors (s : Sub) (p : CtxPool) : Prop where
  flight : s.outstanding.Perm (p.flight.map Prod.snd)
  opcode : ∀ k, p.opcode k = .write
  errCnt : p.errCnt = s.errCnt
  noted : ∀ c k, (c, k) ∈ p.flight → ∃ d, p.mediaCtx k = some d

/-- The submission of a round, with the context `c`. -/
def Serve.submitOps (r : Req) (st : Serve) (a : MediaAns) (c : Nat) : List CtxOp :=
  match st.submits r with
  | none => []
  | some z => [.submit ((r.znCmdId z).getD (st.s.znCmdIdIndex z) 0) c a.submit]

/-- The completion that a poke delivers, for a command in flight with the context `d`; another attempt
gets the context `c'`. -/
def pokeOps (r : Req) (s : Sub) (a : MediaAns) (d c' : Nat) : List CtxOp :=
  match a.cpl with
  | none => []
  | some cpl =>
    if cpl.cmd ∈ s.outstanding then
      [.complete d cpl.cmd (r.status cpl.cmd (s.errCnt cpl.cmd)) c' cpl.resubmit]
    else []

/-- What a round does with the queue. -/
def Serve.ctxOps (r : Req) (st : Serve) (a : MediaAns) (c d c' : Nat) : List CtxOp :=
  st.submitOps r a c ++ if st.pokes r a then pokeOps r (st.sent r a) a d c' else []

section

variable {r : Req} {st st' : Serve} {a : MediaAns} {s : Sub} {p : CtxPool}

/-- The contexts in the pool and the events do not count. -/
theorem Mirrors.congr {s' : Sub} {p' : CtxPool} (h : Mirrors s p) (ho : s'.outstanding = s.outstanding)
    (he : s'.errCnt = s.errCnt) (hf : p'.flight = p.flight) (hop : p'.opcode = p.opcode)
    (hm : p'.mediaCtx = p.mediaCtx) (hc : p'.errCnt = p.errCnt) : Mirrors s' p' where
  flight := by rw [ho, hf]; exact h.flight
  opcode := by rw [hop]; exact h.opcode
  errCnt := by rw [hc, he]; exact h.errCnt
  noted := by rw [hf, hm]; exact h.noted

theorem Mirrors.submitted {s' : Sub} {k c : Nat} (h : Mirrors s p)
    (ho : s'.outstanding = if accepted then k :: s.outstanding else s.outstanding)
    (he : s'.errCnt = s.errCnt) : Mirrors s' (p.submitted k c accepted) := by
  have hnoted : ∀ d k', (d, k') ∈ p.flight →
      ∃ x, update p.mediaCtx k (some c) k' = some x := fun d k' hd => by
    by_cases e : k' = k
    · exact ⟨c, by rw [e, update_self]⟩
    · exact (h.noted d k' hd).imp fun x hx => (update_of_ne e ..).trans hx
  have hop : ¬ p.opcode k = .append := by rw [h.opcode]; exact nofun
  rw [CtxPool.submitted]
  cases accepted with
  | true =>
    refine ⟨ho ▸ h.flight.cons k, h.opcode, h.errCnt.trans he.symm, fun d k' hd => ?_⟩
    rcases mem_cons.mp hd with e | hd
    · cases e
      exact ⟨c, update_self ..⟩
    · exact hnoted d k' hd
  | false =>
    rw [if_neg Bool.false_ne_true, if_neg hop]
    exact ⟨ho ▸ h.flight, h.opcode, h.errCnt.trans he.symm, hnoted⟩

theorem Mirrors.sent {c c' : Nat} (h : Mirrors st.s p) (hc : c ∈ p.free) (hc' : c' ∈ p.free.erase c)
    (r : Req) (a : MediaAns) :
    ∃ p', Runs ctxStep (fun _ _ => True) p (st.submitOps r a c) p' ∧ Mirrors (st.sent r a) p' ∧
      c' ∈ p'.free := by
  rw [Serve.sent, Serve.submitOps]
  cases st.submits r with
  | none => exact ⟨p, .nil _, h, mem_of_mem_erase hc'⟩
  | some z =>
    have hstep : ∀ k, ctxStep p (.submit k c a.submit) = some (p.submitted k c a.submit) :=
      fun k => (submitIo_eq p k c a.submit).trans (if_pos hc)
    have hfree : ∀ k, c' ∈ (p.submitted k c a.submit).free := fun k => by
      have hop : ¬ p.opcode k = .append := by rw [h.opcode]; decide
      rw [CtxPool.submitted]
      cases a.submit with
      | true => exact hc'
      | false =>
        rw [if_neg Bool.false_ne_true, if_neg hop]
        exact mem_cons_of_mem _ hc'
    refine ⟨_, .one trivial (hstep _), ?_, hfree _⟩
    cases hsub : a.submit with
    | true => exact h.submitted rfl rfl
    | false => exact h.submitted rfl rfl

/-- A poke delivers at most one completion. -/
theorem Mirrors.poke (h : Mirrors s p) (hc' : c' ∈ p.free) (r : Req) (a : MediaAns) :
    ∃ d p', Runs ctxStep (fun _ _ => True) p (pokeOps r s a d c') p' ∧
      Mirrors (ztlIoPokeCtx r s a) p' := by
  rw [ztlIoPokeCtx]
  cases hcpl : a.cpl with
  | none =>
    refine ⟨0, p, ?_, h⟩
    simp only [pokeOps, hcpl]
    exact .nil _
  | some cpl =>
    simp only [pokeOps, hcpl]
    split
    · next hmem =>
      obtain ⟨⟨c, k⟩, hf, rfl : k = cpl.cmd⟩ := mem_map.mp (h.flight.mem_iff.mp hmem)
      obtain ⟨status, hstatus⟩ : ∃ x, x = r.status cpl.cmd (s.errCnt cpl.cmd) := ⟨_, rfl⟩
      have herase : (s.outstanding.erase cpl.cmd).Perm
          ((p.flight.erase (c, cpl.cmd)).map Prod.snd) := by
        have := ((perm_cons_erase hmem).symm.trans h.flight).trans
          ((perm_cons_erase hf).map Prod.snd)
        exact this.cons_inv
      have hcount : p.counted cpl.cmd status = if status ≠ 0 then
          update s.errCnt cpl.cmd (s.errCnt cpl.cmd + 1) else s.errCnt := by
        rw [CtxPool.counted, h.errCnt]
      have hstep : ∀ p', p.asyncCb c cpl.cmd status c' cpl.resubmit = some p' →
          Runs ctxStep (fun _ _ => True) p [.complete c cpl.cmd status c' cpl.resubmit] p' :=
        fun p' e => .one trivial ((if_pos hf).trans e)
      have hkept : ∀ d k, (d, k) ∈ p.flight.erase (c, cpl.cmd) → ∃ x, p.mediaCtx k = some x :=
        fun d k hd => h.noted d k (mem_of_mem_erase hd)
      -- without another attempt the queue follows whatever else the loops do
      have hfinal : status = 0 ∨ maxCallbackErrCnt ≤ s.errCnt cpl.cmd + 1 →
          ∀ s' : Sub, s'.outstanding = s.outstanding.erase cpl.cmd →
            s'.errCnt = p.counted cpl.cmd status →
            ∃ d p', Runs ctxStep (fun _ _ => True) p [.complete d cpl.cmd status c' cpl.resubmit] p' ∧
              Mirrors s' p' := fun hg s' ho he => by
        obtain ⟨d, hd⟩ := h.noted c cpl.cmd hf
        have e : p.asyncCb c cpl.cmd status c' cpl.resubmit = _ :=
          asyncCb_final (by rw [h.errCnt]; exact hg)
        rw [hd] at e
        exact ⟨_, _, hstep _ e, ho ▸ herase, h.opcode, he.symm, hkept⟩
      simp only [← hstatus, ztlIoWriteCallbackMcmd]
      by_cases hst : status = 0
      · rw [if_neg (not_not.mpr hst)] at hcount ⊢
        exact hfinal (Or.inl hst) _ rfl hcount.symm
      · rw [if_pos hst] at hcount ⊢
        by_cases hlast : s.errCnt cpl.cmd + 1 < maxCallbackErrCnt
        · have e : p.asyncCb c cpl.cmd status c' cpl.resubmit = _ :=
            asyncCb_retry hst (by rw [h.errCnt]; exact hlast) hc'
          -- the queue and the loops between the completion and the other attempt
          obtain ⟨p1, hp1⟩ : ∃ p1 : CtxPool, p1 = ⟨p.free, p.flight.erase (c, cpl.cmd), p.opcode,
            p.mediaCtx, p.counted cpl.cmd status, p.events ++ [.ended c]⟩ := ⟨_, rfl⟩
          obtain ⟨s1, hs1⟩ : ∃ s1 : Sub, s1 = { s with
            outstanding := s.outstanding.erase cpl.cmd
            errCnt := update s.errCnt cpl.cmd (s.errCnt cpl.cmd + 1) } := ⟨_, rfl⟩
          have h1 : Mirrors s1 p1 := by
            rw [hs1, hp1]
            exact ⟨herase, h.opcode, hcount, hkept⟩
          rw [← hp1] at e
          rw [if_pos hlast]
          have h2 : ∀ s' : Sub, s'.outstanding = (if cpl.resubmit then
              cpl.cmd :: s1.outstanding else s1.outstanding) → s'.errCnt = s1.errCnt →
              ∃ d p', Runs ctxStep (fun _ _ => True) p
                [.complete d cpl.cmd status c' cpl.resubmit] p' ∧ Mirrors s' p' := fun s' ho he =>
            ⟨_, _, hstep _ e, (h1.submitted (c := c') ho he).congr rfl rfl rfl rfl rfl rfl⟩
          cases hre : cpl.resubmit with
          | true =>
            rw [hre] at h2
            exact h2 _ (by rw [hs1]; rfl) (by rw [hs1]; rfl)
          | false =>
            rw [hre] at h2
            exact h2 _ (by rw [hs1]; rfl) (by rw [hs1]; rfl)
        · rw [if_neg hlast]
          exact hfinal (Or.inr (Nat.not_lt.mp hlast)) _ rfl hcount.symm
    · exact ⟨0, p, .nil _, h⟩

/-- **A round of a write** is a run of the queue when two contexts are left, one for the submission
and one for another attempt: the queue takes the round's own submission and completion, and still
agrees with the commands in flight. -/
theorem mirrors_round {c c' : Nat} (h : Mirrors st.s p) (hc : c ∈ p.free) (hc' : c' ∈ p.free.erase c)
    (e : serveStep r st a = some st') :
    ∃ d p', Runs ctxStep (fun _ _ => True) p (st.ctxOps r a c d c') p' ∧ Mirrors st'.s p' := by
  obtain ⟨p1, hr1, h1, hfree⟩ := h.sent hc hc' r a
  obtain ⟨hs, -⟩ := serveStep_eq e
  by_cases hp : st.pokes r a = true
  · rw [if_pos hp] at hs
    obtain ⟨d, p2, hr2, h2⟩ := h1.poke hfree r a
    refine ⟨d, p2, ?_, hs ▸ h2⟩
    rw [Serve.ctxOps, if_pos hp]
    exact hr1.append hr2
  · rw [if_neg hp] at hs
    refine ⟨0, p1, ?_, hs ▸ h1⟩
    rw [Serve.ctxOps, if_neg hp, append_nil]
    exact hr1

/-- The two rounds of a write of one unit: its command is submitted, and completes.  The queue has the
command in flight in between. -/
theorem mirrors_round_unit : ∃ st₁ st₂ p₁ p₂,
    serveStep (unitReq .blank fun _ _ => 0)
      (Serve.start (unitReq .blank fun _ _ => 0) .blank Zone.fresh 0) ⟨true, none⟩ = some st₁ ∧
    Runs ctxStep (fun _ _ => True) (.start [0, 1, 2]) [.submit 0 0 true] p₁ ∧ Mirrors st₁.s p₁ ∧
    p₁.flight = [(0, 0)] ∧
    serveStep (unitReq .blank fun _ _ => 0) st₁ ⟨true, some ⟨0, true⟩⟩ = some st₂ ∧
    Runs ctxStep (fun _ _ => True) p₁ [.complete 0 0 0 2 true] p₂ ∧ Mirrors st₂.s p₂ ∧
    p₂.flight = [] := by
  have h0 : Mirrors (Serve.start (unitReq .blank fun _ _ => 0) .blank Zone.fresh 0).s
      (.start [0, 1, 2]) := ⟨.refl _, fun _ => rfl, rfl, nofun⟩
  obtain ⟨_, p₁, hr₁, h₁⟩ := mirrors_round (r := unitReq .blank fun _ _ => 0) (a := ⟨true, none⟩)
    (c := 0) h0 (by decide) (show 1 ∈ [1, 2] by decide) rfl
  obtain rfl : (CtxPool.start [0, 1, 2]).submitted 0 0 true = p₁ := by
    cases hr₁ with
    | cons _ hs ht => cases ht with | nil => exact Option.some.inj hs
  obtain ⟨d, p₂, hr₂, h₂⟩ := mirrors_round (r := unitReq .blank fun _ _ => 0)
    (a := ⟨true, some ⟨0, true⟩⟩) (c := 1) h₁ (by decide) (show 2 ∈ [2] by decide) rfl
  cases hr₂ with
  | cons _ hs ht =>
    obtain ⟨hd, e⟩ := Option.ite_none_right_eq_some.mp hs
    obtain rfl : d = 0 := congrArg Prod.fst (mem_singleton.mp hd)
    obtain rfl := Option.some.inj e
    cases ht with
    | nil => exact ⟨_, _, _, _, rfl, hr₁, h₁, rfl, rfl, .one trivial hs, h₂, rfl⟩

end

end Xztl
