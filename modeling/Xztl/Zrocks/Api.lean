import Xztl.Ztl.Pieces
import Xztl.Ztl.Mgmt
import Xztl.Ztl.Read

/-!
# Zrocks — the library calls (`zrocks.c`)

`zrocksWrite` rounds the size up to whole units, runs the write command of the level's queue and
returns the pieces, packed into the bit fields of `struct zrocks_map`; `zrocksTrim` takes a piece
off its node's valid count and queues the reset of a full node without valid units; `zrocksRead`
repeats a failed read up to `ZROCKS_READ_MAX_RETRY` times.

`zrocksWrite_spec` is what the callers use: a write that returns has run the `reget` loop
(`Pieces`), or was refused for its number of commands and has done nothing.
-/

namespace Xztl

/-- `struct zrocks_map`: a node, the first unit, the number of units, and the bytes at the end that
the caller did not ask for.  The unused bit `reserve` is left out. -/
structure ZrocksMap where
  nodeId : Fin (2 ^ 14)
  start : Fin (2 ^ 22)
  num : Fin (2 ^ 11)
  padding : Fin (2 ^ 16)
deriving DecidableEq, Repr

/-! The bit fields hold the remainders of what is assigned. -/

instance ZrocksMap.neZero_nodeId : NeZero (2 ^ 14) := ⟨by decide⟩

instance ZrocksMap.neZero_start : NeZero (2 ^ 22) := ⟨by decide⟩

instance ZrocksMap.neZero_num : NeZero (2 ^ 11) := ⟨by decide⟩

instance ZrocksMap.neZero_padding : NeZero (2 ^ 16) := ⟨by decide⟩

/-- The assignments to the bit fields. -/
def ZrocksMap.ofPiece (p : Piece) (padding : Nat) : ZrocksMap where
  nodeId := Fin.ofNat _ p.nodeId
  start := Fin.ofNat _ p.start
  num := Fin.ofNat _ p.num
  padding := Fin.ofNat _ padding

/-- The loop over `ucmd.pieces`: the last piece carries the padding. -/
def toMaps : List Piece → Nat → List ZrocksMap
  | [], _ => []
  | [p], padding => [.ofPiece p padding]
  | p :: p' :: ps, padding => .ofPiece p 0 :: toMaps (p' :: ps) padding

@[simp] theorem toMaps_eq_nil {ps : List Piece} {padding : Nat} :
    toMaps ps padding = [] ↔ ps = [] := by
  cases ps with
  | nil => exact ⟨fun _ => rfl, fun _ => rfl⟩
  | cons p ps => cases ps <;> simp [toMaps]

/-- The level of a write: below 0 counts as 0, above the last level as the last. -/
def clampLevel (level : Int) : Nat :=
  let level := if level < 0 then 0 else level
  if level ≥ (zrocksLevelNum : Int) then zrocksLevelNum - 1 else level.toNat

/-- `new_sz`: the size rounded up to whole units, in 64 bits. -/
def newSz (size : Nat) : Nat :=
  let alignment := znsAligment * ztlIoSecMcmd
  let misalign := size % alignment
  if misalign ≠ 0 then (size + (alignment - misalign)) % 2 ^ 64 else size

/-- What a caller hands to `zrocks_write`, and the statuses of the attempts. -/
structure WriteCall where
  buf : Nat → UInt8
  size : Nat
  level : Int
  fate : Nat → Nat → Nat

/-- The command `zrocks_write` submits. -/
def WriteCall.req (c : WriteCall) : WriteReq where
  buf := c.buf
  size := newSz c.size
  provType := clampLevel c.level
  fate := c.fate

/-- `new_sz - size`, in 64 bits. -/
def WriteCall.padding (c : WriteCall) : Nat := (newSz c.size + 2 ^ 64 - c.size) % 2 ^ 64

/-- `zrocks_write`: the return value and the pieces. -/
def zrocksWrite (z : Ztl) (c : WriteCall) (ans : List MediaAns) :
    Except Stop (Ztl × Nat × List ZrocksMap) := do
  let (z, u) ← ztlIoWriteUcmd c.req z ans
  return (z, xztlOk, toMaps u.pieces c.padding)

variable {z z' : Ztl} {parts : NodeList → List Nat} {c : WriteCall} {m : ZrocksMap}
  {ans : List MediaAns} {ret : Nat} {maps : List ZrocksMap}

/-- Whatever happened to the command. -/
theorem zrocksWrite_ret (e : zrocksWrite z c ans = .ok (z', ret, maps)) : ret = xztlOk := by
  rw [zrocksWrite] at e
  obtain ⟨⟨z1, u⟩, -, e⟩ := Except.bind_eq_ok.mp e
  cases e
  rfl

/-- `zrocks_trim`: the return value is that of the queueing. -/
def zrocksTrim (z : Ztl) (m : ZrocksMap) : Except Stop (Ztl × Nat) :=
  let n := m.nodeId.val
  let nd := z.vnodes n
  let nrValid := (nd.nrValid + 2 ^ 64 - m.num.val) % 2 ^ 64
  if nrValid = 0 ∧ nd.status = .full then
    ztlMgmtSubmitResetFinish (z.setNode n { nd with nrValid := nrValid, status := .reset }) n
      .resetZone
  else .ok (z.setNode n { nd with nrValid := nrValid }, xztlOk)

/-- **What a trim does**: the last valid unit of a full node queues its reset. -/
theorem zrocksTrim_cases {v : Nat}
    (hv : ((z.vnodes m.nodeId).nrValid + 2 ^ 64 - m.num.val) % 2 ^ 64 = v)
    (e : zrocksTrim z m = .ok (z', ret)) : (v = 0 ∧ (z.vnodes m.nodeId).status = .full) ∧
      z' = { z.setNode m.nodeId { z.vnodes m.nodeId with nrValid := v, status := .reset } with
        submitHead := z.submitHead ++ [(m.nodeId.val, .resetZone)] } ∨
    ¬ (v = 0 ∧ (z.vnodes m.nodeId).status = .full) ∧
      z' = z.setNode m.nodeId { z.vnodes m.nodeId with nrValid := v } := by
  rw [zrocksTrim] at e
  rw [hv] at e
  split at e
  next hc =>
    rw [ztlMgmtSubmitResetFinish] at e
    split at e <;> cases e
    exact Or.inl ⟨hc, rfl⟩
  next hc =>
    cases e
    exact Or.inr ⟨hc, rfl⟩

section

variable (e : zrocksTrim z m = .ok (z', ret))
include e

theorem zrocksTrim_nnodes : z'.nnodes = z.nnodes := by
  obtain ⟨-, rfl⟩ | ⟨-, rfl⟩ := zrocksTrim_cases rfl e <;> rfl

theorem zrocksTrim_submitHead : z'.submitHead.length ≤ z.submitHead.length + 1 := by
  obtain ⟨-, rfl⟩ | ⟨-, rfl⟩ := zrocksTrim_cases rfl e
  · exact (List.length_append ..).le
  · exact Nat.le_succ _

/-- A trim does not touch the counters of written and free units. -/
theorem zrocksTrim_counters (n : Nat) :
    (z'.vnodes n).used = (z.vnodes n).used ∧ (z'.vnodes n).left = (z.vnodes n).left := by
  have hset : ∀ nd : Node, nd.used = (z.vnodes m.nodeId).used →
      nd.left = (z.vnodes m.nodeId).left →
      ((z.setNode m.nodeId nd).vnodes n).used = (z.vnodes n).used ∧
        ((z.setNode m.nodeId nd).vnodes n).left = (z.vnodes n).left := fun nd hu hl => by
    by_cases en : n = m.nodeId
    · rw [en, Ztl.setNode_self]
      exact ⟨hu, hl⟩
    · rw [Ztl.setNode_of_ne _ _ en]
      exact ⟨rfl, rfl⟩
  obtain ⟨-, rfl⟩ | ⟨-, rfl⟩ := zrocksTrim_cases rfl e
  · exact hset _ rfl rfl
  · exact hset _ rfl rfl

theorem zrocksTrim_used (n : Nat) : (z'.vnodes n).used = (z.vnodes n).used :=
  (zrocksTrim_counters e n).1

end

/-- A trim returns as long as the management queue has room. -/
theorem exists_zrocksTrim (m : ZrocksMap) (h : z.submitHead.length < ztlNodeMgmtSz) :
    ∃ r, zrocksTrim z m = .ok r := by
  rw [zrocksTrim]
  split
  · rw [ztlMgmtSubmitResetFinish]
    exact ⟨_, if_pos h⟩
  · exact ⟨_, rfl⟩

/-- `ZROCKS_READ_MAX_RETRY`. -/
def zrocksReadMaxRetry : Nat := 3

/-- `XZTL_ZROCKS_READ_ERR`. -/
def xztlZrocksReadErr : Nat := 0x103

/-- The `READ_FAIL` loop, one answer per attempt.  `ucmd.status` is not cleared in between, and a
status of 22 starts the count of attempts again. -/
def readAttempts (z : Ztl) (nodeId offset size : Nat) :
    List ReadAns → (retry status : Nat) → (Nat → UInt8) → Except Stop (Nat × (Nat → UInt8))
  | [], _, _, _ => .error .waiting
  | a :: as, retry, status, buf =>
    match ztlIoRead z nodeId offset size status buf a with
    | .error e => .error e
    | .ok (ret, status, buf) =>
      if ret ≠ 0 ∨ status ≠ 0 then
        let retry := (if status = 22 then 0 else retry) + 1
        if retry < zrocksReadMaxRetry then readAttempts z nodeId offset size as retry status buf
        else .ok (xztlZrocksReadErr, buf)
      else .ok (xztlOk, buf)

/-- `zrocks_read`: the return value and the caller's buffer. -/
def zrocksRead (z : Ztl) (nodeId offset size : Nat) (buf : Nat → UInt8) (as : List ReadAns) :
    Except Stop (Nat × (Nat → UInt8)) :=
  readAttempts z nodeId offset size as 0 0 buf

/-- A read whose first attempt succeeds. -/
theorem zrocksRead_good (hg : Geometry z) {n offset size : Nat} (hn : n < z.nnodes)
    (hrc : (offset % unitBytes + size + (unitBytes - 1)) / unitBytes ≤ ztlIoRcNum)
    {a : ReadAns} (ha : a.Good) (as : List ReadAns) (buf : Nat → UInt8) :
    zrocksRead z n offset size buf (a :: as) = .ok (xztlOk, readBuf z.dev n offset size buf) := by
  rw [zrocksRead, readAttempts, ztlIoRead_good hg hn hrc ha]
  simp

/-! ### What a write that returns has done -/

/-- `ncmd`: the units of a write. -/
def WriteCall.ncmd (c : WriteCall) : Nat := newSz c.size / znsAligment % 2 ^ 32 / ztlIoSecMcmd

/-- The rounded size is a number of whole units, also where it wraps around. -/
theorem newSz_mod (size : Nat) : newSz size % (znsAligment * ztlIoSecMcmd) = 0 := by
  by_cases h : size % (znsAligment * ztlIoSecMcmd) = 0
  · rw [newSz, if_neg (not_not.mpr h)]
    exact h
  · rw [newSz, if_pos h]
    simp only [znsAligment, ztlIoSecMcmd] at *
    omega

/-- Where nothing wraps around, it is the smallest such number. -/
theorem newSz_eq {size : Nat} (h : size ≤ 2 ^ 40) :
    newSz size = unitBytes * ((size + (unitBytes - 1)) / unitBytes) := by
  rw [unitBytes_eq]
  by_cases hm : size % (znsAligment * ztlIoSecMcmd) = 0
  · rw [newSz, if_neg (not_not.mpr hm)]
    simp only [znsAligment, ztlIoSecMcmd] at hm
    omega
  · rw [newSz, if_pos hm]
    simp only [znsAligment, ztlIoSecMcmd] at *
    omega

theorem WriteCall.ncmd_eq (c : WriteCall) (h : c.size ≤ 2 ^ 40) :
    c.ncmd = (c.size + (unitBytes - 1)) / unitBytes := by
  rw [WriteCall.ncmd, newSz_eq h]
  simp only [unitBytes_eq, znsAligment, ztlIoSecMcmd]
  omega

/-- A write that returns was refused for its number of commands, or is a run of the `reget` loop. -/
theorem zrocksWrite_cases (e : zrocksWrite z c ans = .ok (z', ret, maps)) :
    xztlIoMaxMcmd < c.ncmd ∧ z' = z ∧ maps = [] ∨ c.ncmd ≤ xztlIoMaxMcmd ∧ ∃ u,
        reget c.req (ucmdPieceNum + 1) z c.ncmd (unitBytes * 0) ⟨0, []⟩ ans = .ok (z', u) ∧
          maps = toMaps u.pieces c.padding := by
  rw [zrocksWrite] at e
  obtain ⟨⟨z1, u⟩, eu, e⟩ := Except.bind_eq_ok.mp e
  cases e
  have hmod : ¬ c.req.size % (znsAligment * ztlIoSecMcmd) ≠ 0 := not_not.mpr (newSz_mod c.size)
  have hncmd : c.req.size / znsAligment % 2 ^ 32 / ztlIoSecMcmd = c.ncmd := rfl
  simp only [ztlIoWriteUcmd, if_neg hmod, hncmd] at eu
  by_cases hmax : xztlIoMaxMcmd < c.ncmd
  · rw [if_pos hmax] at eu
    cases eu
    exact Or.inl ⟨hmax, rfl, rfl⟩
  · rw [if_neg hmax] at eu
    exact Or.inr ⟨Nat.le_of_not_lt hmax, u, eu, rfl⟩

/-- The other direction, for a number of commands that is not refused. -/
theorem zrocksWrite_of_reget {u : Ucmd} (hmax : c.ncmd ≤ xztlIoMaxMcmd)
    (e : reget c.req (ucmdPieceNum + 1) z c.ncmd (unitBytes * 0) ⟨0, []⟩ ans = .ok (z', u)) :
    zrocksWrite z c ans = .ok (z', xztlOk, toMaps u.pieces c.padding) := by
  have hmod : ¬ c.req.size % (znsAligment * ztlIoSecMcmd) ≠ 0 := not_not.mpr (newSz_mod c.size)
  have hncmd : c.req.size / znsAligment % 2 ^ 32 / ztlIoSecMcmd = c.ncmd := rfl
  rw [zrocksWrite]
  simp only [ztlIoWriteUcmd, if_neg hmod, hncmd, if_neg (Nat.not_lt_of_le hmax)]
  rw [Nat.mul_zero] at e
  rw [e]
  rfl

section

variable (h : Alloc z parts)
include h

/-- **A write that returns** has reported success and, unless it was refused for its number of
commands, has run the `reget` loop. -/
theorem zrocksWrite_spec (e : zrocksWrite z c ans = .ok (z', ret, maps)) :
    ret = xztlOk ∧ (xztlIoMaxMcmd < c.ncmd ∧ z' = z ∧ maps = [] ∨
        c.ncmd ≤ xztlIoMaxMcmd ∧ ∃ ps ok parts', Pieces c.req z 0 c.ncmd ps ok z' ∧
          Alloc z' parts' ∧ maps = toMaps ps c.padding ∧ ∀ p ∈ ps, p.num ≤ ztlIoRcNum) := by
  refine ⟨zrocksWrite_ret e, ?_⟩
  rcases zrocksWrite_cases e with hbig | ⟨hmax, u, eu, rfl⟩
  · exact Or.inl hbig
  · obtain ⟨ps, ok, parts', hp, h', hu, hps⟩ := reget_spec h eu
    rw [List.nil_append] at hu
    exact Or.inr ⟨hmax, ps, ok, parts', hp, h', by rw [hu], hps⟩

/-- A write queues nothing, and the number of nodes stays. -/
theorem zrocksWrite_frame (e : zrocksWrite z c ans = .ok (z', ret, maps)) :
    z'.nnodes = z.nnodes ∧ z'.submitHead = z.submitHead := by
  obtain ⟨-, ⟨-, rfl, -⟩ | ⟨-, ps, ok, -, hp, -⟩⟩ := zrocksWrite_spec h e
  · exact ⟨rfl, rfl⟩
  · exact hp.kept h

/-- Nothing is written to a node without room. -/
theorem zrocksWrite_spent {n : Nat} (hl : (z.vnodes n).left = 0)
    (e : zrocksWrite z c ans = .ok (z', ret, maps)) :
    (z'.vnodes n).left = 0 ∧ (z'.vnodes n).nrValid = (z.vnodes n).nrValid := by
  obtain ⟨-, ⟨-, rfl, -⟩ | ⟨-, ps, ok, -, hp, -⟩⟩ := zrocksWrite_spec h e
  · exact ⟨hl, rfl⟩
  · exact hp.spent h hl

/-- A write that is not refused returns no pieces exactly when there is no room for a unit. -/
theorem zrocksWrite_eq_nil_iff (hmax : c.ncmd ≤ xztlIoMaxMcmd)
    (e : zrocksWrite z c ans = .ok (z', ret, maps)) :
    maps = [] ↔ ¬ Enough z (clampLevel c.level) 1 := by
  obtain ⟨-, ⟨hbig, -⟩ | ⟨-, ps, ok, -, hp, -, rfl, -⟩⟩ := zrocksWrite_spec h e
  · exact absurd hbig (Nat.not_lt_of_le hmax)
  · rw [toMaps_eq_nil]
    exact hp.eq_nil_iff h

/-- **Every write of at most 1024 units can return.** -/
theorem exists_zrocksWrite (c : WriteCall) (hrc : c.ncmd ≤ ztlIoRcNum) :
    ∃ ans r, zrocksWrite z c ans = .ok r := by
  obtain ⟨ans, ⟨z', u⟩, e⟩ := exists_reget (w := c.req) (u := ⟨0, []⟩) h hrc rfl 0
  have hmax : c.ncmd ≤ xztlIoMaxMcmd := by
    rw [ztlIoRcNum_eq] at hrc
    simp only [xztlIoMaxMcmd]
    omega
  exact ⟨ans, _, zrocksWrite_of_reget hmax e⟩

end

end Xztl
