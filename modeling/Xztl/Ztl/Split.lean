import Xztl.Ztl.Admission

/-!
# Ztl — the split of a request (`ztl_pro_grp_get` and the populate loop)

`ztl_pro_grp_get` shares a request out over the zones of a node and the populate loop of
`ztl_io_write_ucmd` deals the units out again, one command each.  The two agree: the address of the
`j`-th zone has the sectors of the commands that the second loop builds for it
(`provisioned`, `populated`), **for every number of units and every start**.

The commands are not built in new memory: command `cmd_i` is `q->mcmd[cmd_i]`, of an array with
`ZTL_IO_RC_NUM` entries.  So the split is what it is to be exactly up to that number
(`provision_split_iff`).
-/

namespace Xztl

open List

/-- The units `k < num` of a request with `k % 64 = j`. -/
def unitsOfZone (num j : Nat) : Nat :=
  ((List.range num).filter fun k => k % ztlProZoneNumInnode = j).length

/-- What `ztl_pro_grp_get` is to do with a request for `num` units of node `n` from unit `start` on:
the loop ends, whatever fuel it has beyond `num`; the addresses are those of the zones that follow
each other from position `start % 64` on, different ones, each at the in-flight pointer that the zone
had, with the sectors of its units; they add up, and the in-flight pointers of these zones move by
them and nothing else changes. -/
structure Provisioned (z : Ztl) (n num start : Nat) : Prop where
  ends : ∀ fuel, num ≤ fuel →
    ztlProGrpGetLoop (z.vnodes n) (num / ztlProZoneNumInnode) fuel (num % ztlProZoneNumInnode)
        (start % ztlProZoneNumInnode) num z.vzones []
      = ((ztlProGrpGet z num n start).1.vzones, (ztlProGrpGet z num n start).2)
  naddr : (ztlProGrpGet z num n start).2.length = min num ztlProZoneNumInnode
  addr : ∀ j < min num ztlProZoneNumInnode,
    (ztlProGrpGet z num n start).2[j]? = some
      { zone := (z.vzones ((z.vnodes n).vzones ((start + j) % ztlProZoneNumInnode))).zone
        sect := (z.vzones ((z.vnodes n).vzones ((start + j) % ztlProZoneNumInnode))).wptrInflight
        nsec := ztlIoSecMcmd * unitsOfZone num j }
  distinct : ∀ j < min num ztlProZoneNumInnode, ∀ k < min num ztlProZoneNumInnode,
    (start + j) % ztlProZoneNumInnode = (start + k) % ztlProZoneNumInnode → j = k
  sum : ((ztlProGrpGet z num n start).2.map ProvAddr.nsec).sum = ztlIoSecMcmd * num
  moved : ∀ j < min num ztlProZoneNumInnode,
    (ztlProGrpGet z num n start).1.vzones
        ((z.vnodes n).vzones ((start + j) % ztlProZoneNumInnode))
      = { z.vzones ((z.vnodes n).vzones ((start + j) % ztlProZoneNumInnode)) with
          wptrInflight :=
            (z.vzones ((z.vnodes n).vzones ((start + j) % ztlProZoneNumInnode))).wptrInflight
              + ztlIoSecMcmd * unitsOfZone num j }
  others : ∀ i, (∀ j < min num ztlProZoneNumInnode,
      (z.vnodes n).vzones ((start + j) % ztlProZoneNumInnode) ≠ i) →
    (ztlProGrpGet z num n start).1.vzones i = z.vzones i

/-- The variables of the populate loop at its start. -/
def Pop.start (prov : List ProvAddr) (boff : Nat) : Pop where
  zoneSectorNum i := (prov.getD i ⟨0, 0, 0⟩).nsec
  addr i := prov.getD i ⟨0, 0, 0⟩
  boff := boff
  mcmd := []
  znCmdId _ := []

/-- What the populate loop is to do with these addresses: it ends, whatever fuel it has beyond
`num`, with `num` commands, the `k`-th for address `k % 64`, `8 * (k / 64)` sectors after its
start. -/
structure Populated (prov : List ProvAddr) (num boff : Nat) : Prop where
  ends : ∀ fuel, num ≤ fuel →
    populateLoop prov.length num fuel (.start prov boff) = populate prov num boff
  built : (populate prov num boff).mcmd.length = num
  cmd : ∀ k < num, ∃ a m, prov[k % ztlProZoneNumInnode]? = some a ∧
    (populate prov num boff).mcmd[k]? = some m ∧ m.sequence = k ∧
    m.sequenceZn = k % ztlProZoneNumInnode ∧ m.zone = a.zone ∧
    m.sect = a.sect + ztlIoSecMcmd * (k / ztlProZoneNumInnode) ∧ m.nsec = ztlIoSecMcmd

/-- The commands have a place in `q->mcmd`, `ucmd->mcmd` and `ucmd->msec`, and their numbers in the
rows of `zn_cmd_id`. -/
structure Pop.InBounds (p : Pop) : Prop where
  qMcmd : p.mcmd.length ≤ CmdArray.qMcmd.length
  ucmdMcmd : p.mcmd.length ≤ CmdArray.ucmdMcmd.length
  msec : p.mcmd.length ≤ CmdArray.msec.length
  znCmdId : ∀ i, (p.znCmdId i).length ≤ CmdArray.znCmdId.length

/-- The split of a request. -/
structure ProvisionSplit (z : Ztl) (n num start boff : Nat) : Prop where
  provisioned : Provisioned z n num start
  populated : Populated (ztlProGrpGet z num n start).2 num boff
  inBounds : (populate (ztlProGrpGet z num n start).2 num boff).InBounds

/-! ### Provisioning -/

theorem unitsOfZone_eq {num j : Nat} (hj : j < ztlProZoneNumInnode) :
    unitsOfZone num j = zoneShare num j := by
  rw [unitsOfZone, filter_mod_range hj, length_map, length_range,
    zoneShare_eq_unitsAt hj]

/-- The shares of the first `m` zones. -/
theorem sum_zoneShare (num m : Nat) :
    ((List.range m).map (zoneShare num)).sum
      = m * (num / ztlProZoneNumInnode) + min m (num % ztlProZoneNumInnode) := by
  induction m with
  | zero => simp
  | succ m ih =>
    rw [range_succ, map_append, sum_append, ih]
    simp only [map_cons, map_nil, sum_cons, sum_nil, zoneShare, Nat.add_mul,
      Nat.one_mul]
    split <;> omega

/-- All shares together are the request. -/
theorem sum_zoneShare_min (num : Nat) :
    ((List.range (min num ztlProZoneNumInnode)).map (zoneShare num)).sum = num := by
  rw [sum_zoneShare]
  simp only [ztlProZoneNumInnode]
  rcases Nat.lt_or_ge num 64 with h | h
  · rw [Nat.min_eq_left h.le, Nat.div_eq_of_lt h, Nat.mod_eq_of_lt h]
    omega
  · rw [Nat.min_eq_right h]
    omega

section
variable {z : Ztl} {n num start boff : Nat}

/-- **The loop of `ztl_pro_grp_get`**, for every request. -/
theorem provisioned (hn : (z.vnodes n).SlotsInj) : Provisioned z n num start := by
  have haddrs : (ztlProGrpGet z num n start).2 = _ := ztlProGrpGet_addrs hn
  have hstate : (ztlProGrpGet z num n start).1 = _ := ztlProGrpGet_state hn
  have hle : ∀ {j}, j < min num ztlProZoneNumInnode → j < ztlProZoneNumInnode := fun h =>
    lt_of_lt_of_le h (Nat.min_le_right ..)
  refine ⟨?_, ?_, ?_, ?_, ?_, ?_, ?_⟩
  · intro fuel hfuel
    have h := ztlProGrpGetLoop_eq hn num start z.vzones fuel 0 (Nat.zero_le _)
      (by rw [unitsFrom_zero]; exact hfuel)
    simp only [unitsFrom_zero, Nat.sub_zero, zonePos, Nat.add_zero, range_zero, map_nil,
      sharedOut] at h
    rw [h, haddrs, hstate]
  · rw [haddrs, length_map, length_range]
  · intro j hj
    rw [haddrs, List.getElem?_map, List.getElem?_range hj, unitsOfZone_eq (hle hj), Nat.mul_comm]
    rfl
  · exact fun j hj k hk h => zonePos_inj (hle hj) (hle hk) h
  · rw [haddrs, map_map]
    have hnsec : (List.range (min num ztlProZoneNumInnode)).map
        (ProvAddr.nsec ∘ provAddr (z.vnodes n) num start z.vzones)
        = ((List.range (min num ztlProZoneNumInnode)).map (zoneShare num)).map
            (ztlIoSecMcmd * ·) := by
      rw [map_map]
      exact map_congr_left fun j _ => Nat.mul_comm ..
    rw [hnsec, sum_map_mul_left, map_id', sum_zoneShare_min]
  · intro j hj
    rw [hstate, unitsOfZone_eq (hle hj), Nat.mul_comm ztlIoSecMcmd]
    exact sharedOut_visited hn hj (Nat.min_le_right ..)
  · intro i hi
    rw [hstate]
    exact sharedOut_not_visited hi

/-- Once all commands are built, more fuel changes nothing. -/
theorem populateLoop_add {naddr : Nat} {p : Pop} {fuel : Nat}
    (h : num ≤ (populateLoop naddr num fuel p).mcmd.length) (more : Nat) :
    populateLoop naddr num (fuel + more) p = populateLoop naddr num fuel p := by
  induction fuel generalizing p with
  | zero =>
    cases more with
    | zero => rfl
    | succ more => exact if_neg (Nat.not_lt_of_le h)
  | succ fuel ih =>
    rw [show fuel + 1 + more = fuel + more + 1 by omega]
    unfold populateLoop at h ⊢
    split_ifs at h ⊢ with hlt
    · exact ih h
    · rfl

/-- The state of the populate loop at its end. -/
theorem populate_pop (hn : (z.vnodes n).SlotsInj) (num start boff : Nat) :
    PopInv (fun i => (ztlProGrpGet z num n start).2.getD i ⟨0, 0, 0⟩) num boff num
      (populate (ztlProGrpGet z num n start).2 num boff) := by
  refine populate_inv (provisioned hn).naddr fun i hi => ?_
  rw [getD_eq_getElem?_getD, (provisioned hn).addr i hi,
    unitsOfZone_eq (lt_of_lt_of_le hi (Nat.min_le_right ..)), Nat.mul_comm]
  rfl

/-- **The populate loop**, for every request that `ztl_pro_grp_get` has shared out. -/
theorem populated (hn : (z.vnodes n).SlotsInj) :
    Populated (ztlProGrpGet z num n start).2 num boff := by
  have hpop := populate_pop hn num start boff
  refine ⟨?_, hpop.length, ?_⟩
  · intro fuel hfuel
    obtain ⟨more, rfl⟩ := Nat.exists_eq_add_of_le hfuel
    exact populateLoop_add hpop.length.ge more
  · intro k hk
    have hlt : k % ztlProZoneNumInnode < min num ztlProZoneNumInnode :=
      lt_min (lt_of_le_of_lt (Nat.mod_le ..) hk) (Nat.mod_lt _ (by decide))
    have hprov : Provisioned z n num start := provisioned hn
    have haddr := hprov.addr _ hlt
    refine ⟨_, mcmdAt (fun i => (ztlProGrpGet z num n start).2.getD i ⟨0, 0, 0⟩) boff k, haddr, ?_,
      rfl, rfl, ?_, ?_, rfl⟩
    · rw [hpop.mcmd, List.getElem?_map, List.getElem?_range hk]
      rfl
    · simp only [mcmdAt, getD_eq_getElem?_getD, haddr, Option.getD_some]
    · simp only [mcmdAt, getD_eq_getElem?_getD, haddr, Option.getD_some]

/-- A row of `zn_cmd_id` has no more numbers than there are commands. -/
theorem populate_inBounds_iff (hn : (z.vnodes n).SlotsInj) :
    (populate (ztlProGrpGet z num n start).2 num boff).InBounds ↔ num ≤ ztlIoRcNum := by
  have hpop := populate_pop hn num start boff
  constructor
  · intro h
    have hq := h.qMcmd
    rwa [hpop.length] at hq
  · intro hle
    have hfit : ∀ a : CmdArray, num ≤ a.length := fun a => hle.trans (ztlIoRcNum_le_length a)
    refine ⟨by rw [hpop.length]; exact hfit _, by rw [hpop.length]; exact hfit _,
      by rw [hpop.length]; exact hfit _, fun i => ?_⟩
    rw [hpop.ids i]
    refine (length_filter_le ..).trans ?_
    rw [length_range]
    exact hfit _

end

/-- **The split of a request** over the zones of a node, which are different ones, is what it is to
be precisely for requests of at most `ZTL_IO_RC_NUM` units. -/
theorem provision_split_iff {z : Ztl} {n : Nat} (hn : (z.vnodes n).SlotsInj)
    (num start boff : Nat) : ProvisionSplit z n num start boff ↔ num ≤ ztlIoRcNum :=
  ⟨fun h => (populate_inBounds_iff hn).mp h.inBounds, fun h =>
    ⟨provisioned hn, populated hn, (populate_inBounds_iff hn).mpr h⟩⟩

theorem slotsInj_fresh : ((Ztl.fresh oneNode Dev.blank).vnodes 0).SlotsInj :=
  (Alloc.fresh oneNode Dev.blank).geometry.slotsInj (by decide)

/-- 1000 units from unit 70 on. -/
theorem provision_split_iff_fresh :
    ((Ztl.fresh oneNode Dev.blank).vnodes 0).SlotsInj ∧
      ProvisionSplit (Ztl.fresh oneNode Dev.blank) 0 1000 70 0 :=
  ⟨slotsInj_fresh, (provision_split_iff slotsInj_fresh 1000 70 0).mpr (by decide)⟩

/-- **Command 1024 has no place**: of the 2048 commands of a piece, which is shared out as it is to
be, half have none in `q->mcmd`. -/
theorem split_overrun :
    Provisioned (Ztl.fresh oneNode Dev.blank) 0 2048 0 ∧
      (populate (ztlProGrpGet (Ztl.fresh oneNode Dev.blank) 2048 0 0).2 2048 0).mcmd.length = 2048 ∧
      CmdArray.qMcmd.length = 1024 ∧
      ¬ ProvisionSplit (Ztl.fresh oneNode Dev.blank) 0 2048 0 0 :=
  ⟨provisioned slotsInj_fresh, (populated slotsInj_fresh).built, rfl,
    fun h => absurd ((populate_inBounds_iff slotsInj_fresh).mp h.inBounds) (by decide)⟩

end Xztl
