import Xztl.Ztl.Map

/-!
# Ztl — concurrent updates of one entry of the mapping table

`map_upsert` reads the entry three times: for `*old`, for the comparison with `old_caller`, and for
the expected value of `ATOMIC_SWAP`.  Each of these reads and the compare-and-swap is one step here,
and the steps of any number of calls on one id are interleaved.

The comparison and the swap do not belong together: the swap expects what the third read has found,
not `old_caller`, and its result is not looked at.  So a conditional update is sure of what it
replaces only **if no swap stores a value while another conditional update is between its comparison
and its swap** (`user_wins_run`); otherwise it can replace a user's value that it has never seen
(`user_loses`).

Run alone, the steps of a call are the call of the table's law (`upsert_alone`).
-/

namespace Xztl

open Function

/-! ### The steps -/

/-- The arguments of a call: the new value and `old_caller`, which is zero for a user's update. -/
structure Upsert where
  val : Nat
  oldCaller : Nat
deriving DecidableEq, Repr

/-- Where a call is: before the first read, before the comparison, before the third read, before
the swap that expects `e`.  `old` is what the first read has found. -/
inductive UpsertPc where
  | idle
  | called (u : Upsert)
  | compares (u : Upsert) (old : Nat)
  | compared (u : Upsert) (old : Nat)
  | swaps (u : Upsert) (old e : Nat)
deriving DecidableEq, Repr

/-- A call that has returned: its return value, `*old`, and the value that its swap has replaced, if
any. -/
structure Upserted where
  call : Upsert
  ret : Nat
  old : Nat
  replaced : Option Nat
deriving DecidableEq, Repr

/-- The entry, the threads, and the calls that have returned. -/
structure MapRace (ι : Type) where
  addr : Nat
  pc : ι → UpsertPc
  returned : List Upserted

/-- The steps: a thread calls `map_upsert`, or goes on. -/
inductive MapRaceOp (ι : Type) where
  | call (t : ι) (u : Upsert)
  | next (t : ι)

section
variable {ι : Type} [DecidableEq ι]

def MapRace.start (addr : Nat) : MapRace ι := ⟨addr, fun _ => .idle, []⟩

/-- Move one thread. -/
def MapRace.goto (s : MapRace ι) (t : ι) (p : UpsertPc) : MapRace ι :=
  { s with pc := update s.pc t p }

/-- A call returns. -/
def MapRace.finish (s : MapRace ι) (t : ι) (r : Upserted) : MapRace ι :=
  { s with pc := update s.pc t .idle, returned := s.returned ++ [r] }

/-- The next step of thread `t`. -/
def MapRace.next (s : MapRace ι) (t : ι) : Option (MapRace ι) :=
  match s.pc t with
  | .idle => none
  | .called u => some (s.goto t (.compares u s.addr))
  | .compares u old =>
    if u.oldCaller ≠ 0 ∧ s.addr ≠ u.oldCaller then
      some (s.finish t ⟨u, xztlZtlMapErr, old, none⟩)
    else some (s.goto t (.compared u old))
  | .compared u old => some (s.goto t (.swaps u old s.addr))
  | .swaps u old e =>
    if s.addr = e then some ({ s with addr := u.val }.finish t ⟨u, xztlOk, old, some e⟩)
    else some (s.finish t ⟨u, xztlOk, old, none⟩)

/-- One step. -/
def MapRace.step (s : MapRace ι) : MapRaceOp ι → Option (MapRace ι)
  | .call t u =>
    match s.pc t with
    | .idle => some (s.goto t (.called u))
    | _ => none
  | .next t => s.next t

end

/-- A conditional update has made its comparison and not yet its swap. -/
def UpsertPc.Committed : UpsertPc → Prop
  | .compared u _ | .swaps u _ _ => u.oldCaller ≠ 0
  | .idle | .called _ | .compares _ _ => False

/-- No swap stores a value while another thread's conditional update is between its comparison and
its swap. -/
def MapRace.SwapsAlone {ι : Type} (s : MapRace ι) : MapRaceOp ι → Prop
  | .call _ _ => True
  | .next t => ∀ u old, s.pc t = .swaps u old s.addr → ∀ t' ≠ t, ¬ (s.pc t').Committed

/-- What users are promised: a conditional update that succeeds has replaced the value it was made
for, and no user's value is replaced by one that was made for another value. -/
structure MapRace.UserWins {ι : Type} (s : MapRace ι) : Prop where
  exact : ∀ r ∈ s.returned, r.call.oldCaller ≠ 0 → r.ret = xztlOk →
    r.replaced = some r.call.oldCaller
  user : ∀ r ∈ s.returned, ∀ r' ∈ s.returned, r.call.oldCaller ≠ 0 → r'.call.oldCaller = 0 →
    r.replaced = some r'.call.val → r.call.oldCaller = r'.call.val

/-! ### What a step does -/

section
variable {ι : Type} [DecidableEq ι] {s s' : MapRace ι}

/-- The steps by what they do. -/
inductive MapRace.Moves (s : MapRace ι) : MapRace ι → Prop where
  | call {t : ι} {u : Upsert} (hpc : s.pc t = .idle) : s.Moves (s.goto t (.called u))
  | read {t : ι} {u : Upsert} (hpc : s.pc t = .called u) : s.Moves (s.goto t (.compares u s.addr))
  | refuse {t : ι} {u : Upsert} {old : Nat} (hpc : s.pc t = .compares u old) :
      s.Moves (s.finish t ⟨u, xztlZtlMapErr, old, none⟩)
  | pass {t : ι} {u : Upsert} {old : Nat} (hpc : s.pc t = .compares u old)
      (heq : u.oldCaller ≠ 0 → s.addr = u.oldCaller) : s.Moves (s.goto t (.compared u old))
  | expect {t : ι} {u : Upsert} {old : Nat} (hpc : s.pc t = .compared u old) :
      s.Moves (s.goto t (.swaps u old s.addr))
  | store {t : ι} {u : Upsert} {old : Nat} (hpc : s.pc t = .swaps u old s.addr)
      (halone : ∀ t' ≠ t, ¬ (s.pc t').Committed) :
      s.Moves ({ s with addr := u.val }.finish t ⟨u, xztlOk, old, some s.addr⟩)
  | miss {t : ι} {u : Upsert} {old e : Nat} (hpc : s.pc t = .swaps u old e) (hne : s.addr ≠ e) :
      s.Moves (s.finish t ⟨u, xztlOk, old, none⟩)

theorem MapRace.step_moves {op : MapRaceOp ι} (hg : s.SwapsAlone op) (h : s.step op = some s') :
    s.Moves s' := by
  cases op with
  | call t u =>
    simp only [MapRace.step] at h
    split at h
    · cases h
      exact .call ‹_›
    · cases h
  | next t =>
    change s.next t = some s' at h
    unfold MapRace.next at h
    split at h
    · cases h
    · cases h
      exact .read ‹_›
    · split_ifs at h with hc
      · cases h
        exact .refuse ‹_›
      · cases h
        exact .pass ‹_› fun hne => of_not_not fun hdiff => hc ⟨hne, hdiff⟩
    · cases h
      exact .expect ‹_›
    · rename_i u old e hpc
      split_ifs at h with he
      · cases h
        subst he
        exact .store hpc (hg u old hpc)
      · cases h
        exact .miss hpc he

/-! ### The invariant -/

/-- The value that a conditional update past its comparison will replace, if the entry still has
it. -/
def UpsertPc.Expects (p : UpsertPc) (addr : Nat) : Prop :=
  match p with
  | .compared u _ => u.oldCaller ≠ 0 → addr = u.oldCaller
  | .swaps u _ e => u.oldCaller ≠ 0 → addr = u.oldCaller ∧ e = u.oldCaller
  | .idle | .called _ | .compares _ _ => True

/-- The entry has what every conditional update past its comparison was made for, and those that
have stored a value have replaced what they were made for. -/
structure MapRace.Inv {ι : Type} (s : MapRace ι) : Prop where
  expects : ∀ t, (s.pc t).Expects s.addr
  returned : ∀ r ∈ s.returned, r.call.oldCaller ≠ 0 →
    (r.ret = xztlOk → r.replaced = some r.call.oldCaller) ∧
      ∀ x, r.replaced = some x → x = r.call.oldCaller

namespace MapRace.Inv

omit [DecidableEq ι] in
theorem start (addr : Nat) : (MapRace.start addr : MapRace ι).Inv where
  expects _ := trivial
  returned := nofun

/-- A step of one thread that leaves the entry alone. -/
theorem goto (h : s.Inv) {t : ι} {p : UpsertPc} (hp : p.Expects s.addr) : (s.goto t p).Inv where
  expects u := by
    show (update s.pc t p u).Expects s.addr
    rcases eq_or_ne u t with rfl | hne
    · rw [update_self]
      exact hp
    · rw [update_of_ne hne]
      exact h.expects u
  returned := h.returned

/-- A thread returns, and the entry is then as the others expect it. -/
theorem finish (h : s.Inv) {t : ι} {addr : Nat} {r : Upserted}
    (hothers : ∀ u ≠ t, (s.pc u).Expects addr)
    (hr : r.call.oldCaller ≠ 0 → (r.ret = xztlOk → r.replaced = some r.call.oldCaller) ∧
      ∀ x, r.replaced = some x → x = r.call.oldCaller) :
    ({ s with addr := addr }.finish t r).Inv where
  expects u := by
    show (update s.pc t .idle u).Expects addr
    rcases eq_or_ne u t with rfl | hne
    · rw [update_self]
      exact trivial
    · rw [update_of_ne hne]
      exact hothers u hne
  returned r' hr' := by
    rcases List.mem_append.mp hr' with hold | hnew
    · exact h.returned r' hold
    · rw [List.mem_singleton.mp hnew]
      exact hr

end MapRace.Inv

omit [DecidableEq ι] in
/-- Who is not past the comparison of a conditional update expects nothing. -/
theorem UpsertPc.expects_of_not_committed {p : UpsertPc} (h : ¬ p.Committed) (addr : Nat) :
    p.Expects addr := by
  cases p with
  | compared u old => exact fun hne => absurd hne h
  | swaps u old e => exact fun hne => absurd hne h
  | idle | called | compares => exact trivial

/-- **The invariant is kept by every step**, where swaps are alone. -/
theorem MapRace.Inv.step (h : s.Inv) {op : MapRaceOp ι} (hg : s.SwapsAlone op)
    (hs : s.step op = some s') : s'.Inv := by
  cases MapRace.step_moves hg hs with
  | call hpc => exact h.goto trivial
  | read hpc => exact h.goto trivial
  | refuse hpc => exact h.finish (fun u _ => h.expects u) fun _ => ⟨nofun, nofun⟩
  | pass hpc heq => exact h.goto heq
  | @expect t u old hpc =>
    have hold := h.expects t
    rw [hpc] at hold
    exact h.goto fun hne => ⟨hold hne, hold hne⟩
  | @store t u old hpc halone =>
    have hold := h.expects t
    rw [hpc] at hold
    refine h.finish (fun t' hne => UpsertPc.expects_of_not_committed (halone t' hne) _) ?_
    intro hne
    obtain ⟨haddr, -⟩ := hold hne
    exact ⟨fun _ => congrArg some haddr, fun x hx => (Option.some.inj hx).symm.trans haddr⟩
  | @miss t u old e hpc hdiff =>
    have hold := h.expects t
    rw [hpc] at hold
    refine h.finish (fun t' _ => h.expects t') fun hne => ?_
    obtain ⟨haddr, he⟩ := hold hne
    exact absurd (haddr.trans he.symm) hdiff

omit [DecidableEq ι] in
theorem MapRace.Inv.userWins (h : s.Inv) : s.UserWins where
  exact r hr hne hret := (h.returned r hr hne).1 hret
  user r hr _ _ hne _ hrep := ((h.returned r hr hne).2 _ hrep).symm

end

/-- **Users win** in every interleaving in which swaps are alone. -/
theorem user_wins_run {ι : Type} [DecidableEq ι] {addr : Nat} {ops : List (MapRaceOp ι)}
    {s : MapRace ι} (h : Runs MapRace.step MapRace.SwapsAlone (.start addr) ops s) : s.UserWins :=
  (h.invariant (I := MapRace.Inv) (fun _ _ _ hs hg hstep => hs.step hg hstep)
    (.start addr)).userWins

/-- A user's update and a conditional one that was made for it, one after the other. -/
theorem user_wins_run_two :
    ∃ s : MapRace Bool, Runs MapRace.step MapRace.SwapsAlone (.start 0)
      [.call true ⟨5, 0⟩, .next true, .next true, .next true, .next true, .call false ⟨7, 5⟩,
        .next false, .next false, .next false, .next false] s ∧
      s.returned = [⟨⟨5, 0⟩, xztlOk, 0, some 0⟩, ⟨⟨7, 5⟩, xztlOk, 5, some 5⟩] ∧ s.UserWins := by
  -- the other thread is outside the function
  have alone : ∀ (s : MapRace Bool) (t : Bool), s.pc (!t) = .idle → s.SwapsAlone (.next t) := by
    intro s t hidle u old _ t' hne
    rw [Bool.eq_not.mpr hne, hidle]
    exact id
  obtain ⟨s, hrun, hret⟩ : ∃ s : MapRace Bool, Runs MapRace.step MapRace.SwapsAlone (.start 0)
      [.call true ⟨5, 0⟩, .next true, .next true, .next true, .next true, .call false ⟨7, 5⟩,
        .next false, .next false, .next false, .next false] s ∧
      s.returned = [⟨⟨5, 0⟩, xztlOk, 0, some 0⟩, ⟨⟨7, 5⟩, xztlOk, 5, some 5⟩] :=
    ⟨_, .cons trivial rfl (.cons (alone _ _ rfl) rfl (.cons (alone _ _ rfl) rfl
      (.cons (alone _ _ rfl) rfl (.cons (alone _ _ rfl) rfl (.cons trivial rfl
        (.cons (alone _ _ rfl) rfl (.cons (alone _ _ rfl) rfl (.cons (alone _ _ rfl) rfl
          (.cons (alone _ _ rfl) rfl (.nil _)))))))))), rfl⟩
  exact ⟨s, hrun, hret, user_wins_run hrun⟩

/-- **A user loses**: between the comparison of a conditional update that was made for 5 and its
third read, a user stores 9.  The conditional update replaces the 9 and succeeds. -/
theorem user_loses :
    ∃ s : MapRace Bool, Runs MapRace.step (fun _ _ => True) (.start 5)
      [.call false ⟨7, 5⟩, .next false, .next false, .call true ⟨9, 0⟩, .next true, .next true,
        .next true, .next true, .next false, .next false] s ∧
      s.returned = [⟨⟨9, 0⟩, xztlOk, 5, some 5⟩, ⟨⟨7, 5⟩, xztlOk, 5, some 9⟩] ∧ s.addr = 7 ∧
      ¬ s.UserWins := by
  refine ⟨_, .of_foldlM rfl, rfl, rfl, fun h => ?_⟩
  have hexact := h.exact ⟨⟨7, 5⟩, xztlOk, 5, some 9⟩ (by decide) (by decide) rfl
  exact absurd hexact (by decide)

/-! ### A call alone -/

section
variable {ι : Type} [DecidableEq ι] {s : MapRace ι} {t : ι}

@[simp] theorem MapRace.goto_pc (s : MapRace ι) (t : ι) (p : UpsertPc) : (s.goto t p).pc t = p :=
  update_self ..

@[simp] theorem MapRace.goto_goto (s : MapRace ι) (t : ι) (p q : UpsertPc) :
    (s.goto t p).goto t q = s.goto t q := by
  unfold MapRace.goto
  rw [update_idem]

@[simp] theorem MapRace.goto_addr (s : MapRace ι) (t : ι) (p : UpsertPc) :
    (s.goto t p).addr = s.addr := rfl

theorem MapRace.runs_read (hpc : s.pc t = .idle) (u : Upsert) :
    Runs MapRace.step (fun _ _ => True) s [.call t u, .next t]
      (s.goto t (.compares u s.addr)) := by
  have hcall : s.step (.call t u) = some (s.goto t (.called u)) := by
    simp only [MapRace.step, hpc]
  refine .cons trivial hcall (.one trivial ?_)
  simp only [MapRace.step, MapRace.next, goto_pc, goto_goto, goto_addr]

/-- The steps of a call when nobody else makes any: two reads and the refusal, or three reads and the
swap. -/
def MapRace.alone (s : MapRace ι) (t : ι) (u : Upsert) : List (MapRaceOp ι) :=
  .call t u :: List.replicate (if u.oldCaller = 0 ∨ u.oldCaller = s.addr then 4 else 2) (.next t)

/-- **The steps of a call that nobody disturbs** return, and do what the table's law says of its
entry. -/
theorem upsert_alone (hpc : s.pc t = .idle) (u : Upsert) (M : Nat → Nat) (id : Nat)
    (hM : M id = s.addr) (old : Nat) :
    ∃ s' r, Runs MapRace.step (fun _ _ => True) s (s.alone t u) s' ∧ s'.pc = s.pc ∧ r.call = u ∧
      s'.returned = s.returned ++ [r] ∧
      (MapOp.upsert id u.val old u.oldCaller).law M
        = (update M id s'.addr, .upserted r.ret r.old) := by
  have hread := MapRace.runs_read hpc u
  have hidle : ∀ p, update (update s.pc t p) t .idle = s.pc := fun p => by
    rw [update_idem, ← hpc, update_eq_self]
  rw [MapRace.alone]
  by_cases hcond : u.oldCaller = 0 ∨ u.oldCaller = s.addr
  · have hpass : ¬ (u.oldCaller ≠ 0 ∧ s.addr ≠ u.oldCaller) := fun hn =>
      hcond.elim hn.1 fun he => hn.2 he.symm
    have h1 : (s.goto t (.compares u s.addr)).step (.next t)
        = some (s.goto t (.compared u s.addr)) := by
      simp only [MapRace.step, MapRace.next, MapRace.goto_pc, MapRace.goto_goto,
        MapRace.goto_addr, if_neg hpass]
    have h2 : (s.goto t (.compared u s.addr)).step (.next t)
        = some (s.goto t (.swaps u s.addr s.addr)) := by
      simp only [MapRace.step, MapRace.next, MapRace.goto_pc, MapRace.goto_goto,
        MapRace.goto_addr]
    have h3 : (s.goto t (.swaps u s.addr s.addr)).step (.next t)
        = some ({ s.goto t (.swaps u s.addr s.addr) with addr := u.val }.finish t
            ⟨u, xztlOk, s.addr, some s.addr⟩) := by
      simp only [MapRace.step, MapRace.next, MapRace.goto_pc, MapRace.goto_addr, if_true]
    rw [if_pos hcond]
    refine ⟨_, _, hread.append (.cons trivial h1 (.cons trivial h2 (.one trivial h3))), hidle _, rfl,
      rfl, ?_⟩
    rw [MapOp.law, hM, if_pos hcond]
    rfl
  · obtain ⟨hne, hdiff⟩ := not_or.mp hcond
    have hrefuse : (s.goto t (.compares u s.addr)).step (.next t)
        = some ((s.goto t (.compares u s.addr)).finish t ⟨u, xztlZtlMapErr, s.addr, none⟩) := by
      simp only [MapRace.step, MapRace.next, MapRace.goto_pc, MapRace.goto_addr]
      exact if_pos ⟨hne, Ne.symm hdiff⟩
    rw [if_neg hcond]
    refine ⟨_, _, hread.append (.one trivial hrefuse), hidle _, rfl, rfl, ?_⟩
    rw [MapOp.law, hM, if_neg hcond]
    show _ = (update M id s.addr, _)
    rw [← hM, update_eq_self]

/-- A conditional update of an entry that has the value it was made for. -/
theorem upsert_alone_matching : ∃ s' r,
    Runs MapRace.step (fun _ _ => True) (MapRace.start 5 : MapRace Unit)
      [.call () ⟨7, 5⟩, .next (), .next (), .next (), .next ()] s' ∧
      s'.returned = [r] ∧ r.call = ⟨7, 5⟩ ∧ r.ret = xztlOk ∧ s'.addr = 7 := by
  obtain ⟨s', r, hrun, -, hcall, hret, hlaw⟩ :=
    upsert_alone (s := MapRace.start 5) (t := ()) rfl ⟨7, 5⟩ (fun _ => 5) 0 rfl 5
  have hlaw : (update (fun _ => 5) 0 7, MapOut.upserted xztlOk 5)
      = (update (fun _ => 5) 0 s'.addr, MapOut.upserted r.ret r.old) := hlaw
  simp only [Prod.mk.injEq, MapOut.upserted.injEq] at hlaw
  have haddr := congrFun hlaw.1 0
  rw [update_self, update_self] at haddr
  exact ⟨s', r, hrun, hret, hcall, hlaw.2.1.symm, haddr.symm⟩

end

end Xztl
