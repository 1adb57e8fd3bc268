import Xztl.Ztl.Provision

/-!
# Ztl — the media commands of a request (`ztl-io.c`, `ztl_io_write_ucmd`)

The populate loop hands the units of a request to the provisioned zones in turn, one command per
unit, until every zone has used up the sectors it was given.

`populate_inv` gives the result in closed form when the sectors were shared out by
`ztl_pro_grp_get`: command `k` goes to address `k % 64`, `8 * (k / 64)` sectors after its start,
and takes its data `k` units into the buffer.
-/

namespace Xztl

open Function List

/-- The fields of `struct xztl_io_mcmd` a write uses.  `prp` is the place of the data in the
caller's buffer. -/
structure Mcmd where
  sequence : Nat
  sequenceZn : Nat
  zone : Nat
  sect : Nat
  nsec : Nat
  prp : Nat
deriving DecidableEq, Repr

/-- The locals of the populate loop: `zone_sector_num`, `prov->addr`, `boff`, the commands so far
and `zn_cmd_id`. -/
structure Pop where
  zoneSectorNum : Nat → Nat
  addr : Nat → ProvAddr
  boff : Nat
  mcmd : List Mcmd
  znCmdId : Nat → List Nat

/-- The body of the inner loop, at zone `znI`. -/
def populateZone (p : Pop) (znI : Nat) : Pop :=
  if p.zoneSectorNum znI = 0 then p else
    let a := p.addr znI
    let cmdI := p.mcmd.length
    { zoneSectorNum :=
        update p.zoneSectorNum znI (p.zoneSectorNum znI - ztlIoSecMcmd)
      addr := update p.addr znI { a with sect := a.sect + ztlIoSecMcmd }
      boff := p.boff + znsAligment * ztlIoSecMcmd
      mcmd := p.mcmd ++ [⟨cmdI, znI, a.zone, a.sect, ztlIoSecMcmd, p.boff⟩]
      znCmdId := update p.znCmdId znI (p.znCmdId znI ++ [cmdI]) }

/-- One round over the addresses. -/
def populatePass (naddr : Nat) (p : Pop) : Pop := (List.range naddr).foldl populateZone p

/-- The `while (cmd_i < num)` loop.  Each round builds a command, so `num` rounds of fuel are
enough (`populateLoop_inv`). -/
def populateLoop (naddr num : Nat) : Nat → Pop → Pop
  | 0, p => p
  | fuel + 1, p =>
    if p.mcmd.length < num then populateLoop naddr num fuel (populatePass naddr p) else p

/-- The commands of a piece of `num` units whose data starts at `boff`. -/
def populate (prov : List ProvAddr) (num boff : Nat) : Pop :=
  populateLoop prov.length num num
    { zoneSectorNum := fun i => (prov.getD i ⟨0, 0, 0⟩).nsec
      addr := fun i => prov.getD i ⟨0, 0, 0⟩
      boff := boff
      mcmd := []
      znCmdId := fun _ => [] }

/-! ### The closed form -/

/-- How many of the first `n` units fall on position `i`. -/
def unitsAt (n i : Nat) : Nat := (n + (ztlProZoneNumInnode - 1) - i) / ztlProZoneNumInnode

theorem unitsAt_mod (c : Nat) : unitsAt c (c % ztlProZoneNumInnode) = c / ztlProZoneNumInnode := by
  simp only [unitsAt, ztlProZoneNumInnode]; omega

theorem unitsAt_succ_self (c : Nat) :
    unitsAt (c + 1) (c % ztlProZoneNumInnode) = unitsAt c (c % ztlProZoneNumInnode) + 1 := by
  simp only [unitsAt, ztlProZoneNumInnode]; omega

theorem unitsAt_succ_of_ne {c i : Nat} (hi : i < ztlProZoneNumInnode)
    (h : i ≠ c % ztlProZoneNumInnode) : unitsAt (c + 1) i = unitsAt c i := by
  simp only [unitsAt, ztlProZoneNumInnode] at *; omega

theorem unitsAt_lt {c num : Nat} (h : c < num) :
    unitsAt c (c % ztlProZoneNumInnode) < unitsAt num (c % ztlProZoneNumInnode) := by
  simp only [unitsAt, ztlProZoneNumInnode]; omega

/-- The `k`-th position from `U` on receives the `k`-th share of the units that follow. -/
theorem unitsAt_add {k : Nat} (hk : k < ztlProZoneNumInnode) (U num : Nat) :
    unitsAt (U + num) (zonePos U k) = unitsAt U (zonePos U k) + unitsAt num k := by
  simp only [unitsAt, zonePos, ztlProZoneNumInnode] at *; omega

/-- Every position is the `k`-th from `U` on, for some `k`. -/
theorem exists_zonePos (U : Nat) {i : Nat} (hi : i < ztlProZoneNumInnode) :
    ∃ k < ztlProZoneNumInnode, zonePos U k = i := by
  refine ⟨(i + ztlProZoneNumInnode - U % ztlProZoneNumInnode) % ztlProZoneNumInnode, ?_, ?_⟩
  · exact Nat.mod_lt _ (by decide)
  · simp only [zonePos, ztlProZoneNumInnode] at *; omega

/-- The units that fall on position `z`, in order. -/
theorem filter_mod_range {z : Nat} (hz : z < ztlProZoneNumInnode) (n : Nat) :
    ((List.range n).filter fun k => k % ztlProZoneNumInnode = z) =
      (List.range (unitsAt n z)).map fun p => z + ztlProZoneNumInnode * p := by
  induction n with
  | zero =>
    have h0 : unitsAt 0 z = 0 := by simp only [unitsAt, ztlProZoneNumInnode] at *; omega
    rw [h0]
    rfl
  | succ n ih =>
    rw [range_succ, filter_append, ih]
    by_cases e : z = n % ztlProZoneNumInnode
    · subst e
      rw [unitsAt_succ_self, range_succ, map_append, map_cons, map_nil,
        unitsAt_mod, Nat.mod_add_div]
      simp
    · rw [unitsAt_succ_of_ne hz e]
      simp [Ne.symm e]

/-- What `ztl_pro_grp_get` gives to the `j`-th zone is what the round robin asks of it. -/
theorem zoneShare_eq_unitsAt {num j : Nat} (hj : j < ztlProZoneNumInnode) :
    zoneShare num j = unitsAt num j := by
  by_cases h : j < num % ztlProZoneNumInnode
  · rw [zoneShare, if_pos h]; simp only [unitsAt, ztlProZoneNumInnode] at *; omega
  · rw [zoneShare, if_neg h]; simp only [unitsAt, ztlProZoneNumInnode] at *; omega

/-- Command `k` of a piece. -/
def mcmdAt (prov : Nat → ProvAddr) (boff k : Nat) : Mcmd where
  sequence := k
  sequenceZn := k % ztlProZoneNumInnode
  zone := (prov (k % ztlProZoneNumInnode)).zone
  sect := (prov (k % ztlProZoneNumInnode)).sect + ztlIoSecMcmd * (k / ztlProZoneNumInnode)
  nsec := ztlIoSecMcmd
  prp := boff + unitBytes * k

/-- The loop's state when `c` commands have been built. -/
structure PopInv (prov : Nat → ProvAddr) (num boff c : Nat) (p : Pop) : Prop where
  sectors : ∀ i < min num ztlProZoneNumInnode,
    p.zoneSectorNum i = ztlIoSecMcmd * (unitsAt num i - unitsAt c i)
  addr : ∀ i < min num ztlProZoneNumInnode,
    p.addr i = { prov i with sect := (prov i).sect + ztlIoSecMcmd * unitsAt c i }
  next : p.boff = boff + unitBytes * c
  mcmd : p.mcmd = (List.range c).map (mcmdAt prov boff)
  ids : ∀ i, p.znCmdId i = (List.range c).filter fun k => k % ztlProZoneNumInnode = i

section

variable {prov : Nat → ProvAddr} {num boff c : Nat} {p : Pop}

theorem PopInv.length (h : PopInv prov num boff c p) : p.mcmd.length = c := by
  rw [h.mcmd]; simp

/-- The zone whose turn it is takes the next unit. -/
theorem PopInv.step (h : PopInv prov num boff c p) (hc : c < num)
    (hi : c % ztlProZoneNumInnode < min num ztlProZoneNumInnode) :
    PopInv prov num boff (c + 1) (populateZone p (c % ztlProZoneNumInnode)) := by
  have hlt := unitsAt_lt hc
  have hs := h.sectors _ hi
  have hne : p.zoneSectorNum (c % ztlProZoneNumInnode) ≠ 0 := by
    rw [hs]; simp only [ztlIoSecMcmd]; omega
  rw [populateZone, if_neg hne]
  constructor
  · intro i hi'
    by_cases e : i = c % ztlProZoneNumInnode
    · subst e
      simp only [update_self]
      rw [hs, unitsAt_succ_self]
      simp only [ztlIoSecMcmd]
      omega
    · simp only [update_of_ne e]
      rw [h.sectors i hi', unitsAt_succ_of_ne (by omega) e]
  · intro i hi'
    by_cases e : i = c % ztlProZoneNumInnode
    · subst e
      simp only [update_self]
      rw [h.addr _ hi, unitsAt_succ_self, Nat.mul_add, Nat.mul_one, ← Nat.add_assoc]
    · simp only [update_of_ne e]
      rw [h.addr i hi', unitsAt_succ_of_ne (by omega) e]
  · rw [h.next, unitBytes]; ring
  · rw [range_succ, map_append, ← h.mcmd, map_cons, map_nil, h.length,
      h.addr _ hi, h.next, unitsAt_mod]
    rfl
  · intro i
    by_cases e : i = c % ztlProZoneNumInnode
    · subst e
      rw [range_succ, filter_append, ← h.ids, h.length]
      simp
    · simp only [update_of_ne e]
      rw [range_succ, filter_append, ← h.ids]
      simp [Ne.symm e]

/-- Once every command is built no zone has sectors left. -/
theorem PopInv.full (h : PopInv prov num boff num p) {i : Nat}
    (hi : i < min num ztlProZoneNumInnode) : populateZone p i = p := by
  have hz : p.zoneSectorNum i = 0 := by rw [h.sectors i hi, Nat.sub_self, Nat.mul_zero]
  rw [populateZone, if_pos hz]

/-- One round, from a multiple of 64 on. -/
theorem PopInv.pass (h : PopInv prov num boff c p) (hc : c ≤ num)
    (h64 : c % ztlProZoneNumInnode = 0) (j : Nat) (hj : j ≤ min num ztlProZoneNumInnode) :
    PopInv prov num boff (min (c + j) num) ((List.range j).foldl populateZone p) := by
  induction j with
  | zero => simpa [hc] using h
  | succ j ih =>
    have ih := ih (by omega)
    rw [range_succ, foldl_append, foldl_cons, foldl_nil]
    by_cases hlt : c + j < num
    · rw [Nat.min_eq_left (le_of_lt hlt)] at ih
      have hj64 : (c + j) % ztlProZoneNumInnode = j := by
        simp only [ztlProZoneNumInnode] at *; omega
      have hs := ih.step hlt (by omega)
      rw [hj64] at hs
      rw [show min (c + (j + 1)) num = c + j + 1 by omega]
      exact hs
    · rw [Nat.min_eq_right (by omega)] at ih
      rw [ih.full (by omega), show min (c + (j + 1)) num = num by omega]
      exact ih

theorem populateLoop_inv :
    ∀ (fuel : Nat) {c : Nat} {p : Pop}, PopInv prov num boff c p → c ≤ num →
      (c < num → c % ztlProZoneNumInnode = 0) → num - c ≤ fuel →
      PopInv prov num boff num (populateLoop (min num ztlProZoneNumInnode) num fuel p) := by
  intro fuel
  induction fuel with
  | zero =>
    intro c p h hc _ hf
    obtain rfl : c = num := by omega
    exact h
  | succ fuel ih =>
    intro c p h hc h64 hf
    by_cases hlt : c < num
    · rw [populateLoop, if_pos (by rw [h.length]; exact hlt)]
      have hp := h.pass hc (h64 hlt) (min num ztlProZoneNumInnode) (le_refl _)
      refine ih hp (by omega) (fun hlt' => ?_) ?_
      · simp only [ztlProZoneNumInnode] at *
        omega
      · simp only [ztlProZoneNumInnode] at *; omega
    · obtain rfl : c = num := by omega
      rw [populateLoop, if_neg (by rw [h.length]; omega)]
      exact h

end

/-- **The populate loop.**  When the addresses carry the shares of a request for `num` units, the
loop ends with all `num` commands built. -/
theorem populate_inv {prov : List ProvAddr} {num boff : Nat}
    (hlen : prov.length = min num ztlProZoneNumInnode)
    (hsh : ∀ i < min num ztlProZoneNumInnode,
      (prov.getD i ⟨0, 0, 0⟩).nsec = zoneShare num i * ztlIoSecMcmd) :
    PopInv (fun i => prov.getD i ⟨0, 0, 0⟩) num boff num (populate prov num boff) := by
  rw [populate, hlen]
  refine populateLoop_inv num (c := 0) ⟨fun i hi => ?_, fun i hi => ?_, rfl, rfl, fun i => rfl⟩
    (Nat.zero_le _) (fun _ => rfl) (by omega)
  · have h0 : unitsAt 0 i = 0 := by simp only [unitsAt, ztlProZoneNumInnode] at *; omega
    show (prov.getD i ⟨0, 0, 0⟩).nsec = _
    rw [hsh i hi, zoneShare_eq_unitsAt (by omega), h0, Nat.sub_zero, Nat.mul_comm]
  · have h0 : unitsAt 0 i = 0 := by simp only [unitsAt, ztlProZoneNumInnode] at *; omega
    simp [h0]

end Xztl
