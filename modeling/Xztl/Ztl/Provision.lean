import Xztl.Ztl.Types

/-!
# Ztl — provisioning (`ztl-pro.c`, `ztl-pro-grp.c`)

`ztlProGrpGetNode` picks the current node of a level queue, `ztlProGrpGet` distributes a request
over the node's zones and moves their in-flight write pointers, `ztlProFree` moves the write
pointers once every command of the request has completed.

`ztlProGrpGet_addrs` and `ztlProGrpGet_state` give the loop of `ztl_pro_grp_get` in closed
form: a request for `num` units starting at unit `start` visits the zones from position
`start % 64` on, and the `j`-th of them receives `num / 64` units, and one more when
`j < num % 64`.
-/

namespace Xztl

open Function List

/-- One address of `struct app_pro_addr`: the zone, the first sector to write, and how many. -/
structure ProvAddr where
  zone : Nat
  sect : Nat
  nsec : Nat
deriving DecidableEq, Repr

/-! ### The loop of `ztl_pro_grp_get` -/

/-- The `while (num)` loop of `ztl_pro_grp_get`.  Each round takes at least one unit off `num`, so
`num` rounds of fuel are enough (`ztlProGrpGetLoop_eq`). -/
def ztlProGrpGetLoop (node : Node) (numZn : Nat) :
    (fuel addition znI num : Nat) → (Nat → Zone) → List ProvAddr → (Nat → Zone) × List ProvAddr
  | 0, _, _, _, vz, ctx => (vz, ctx)
  | fuel + 1, addition, znI, num, vz, ctx =>
    if num = 0 then (vz, ctx) else
      let i := if addition = 0 then 0 else 1
      let zi := node.vzones znI
      let zone := vz zi
      let nsec := (numZn + i) * ztlIoSecMcmd
      ztlProGrpGetLoop node numZn fuel (addition - 1) ((znI + 1) % ztlProZoneNumInnode)
        (num - (numZn + i))
        (update vz zi { zone with wptrInflight := zone.wptrInflight + nsec })
        (ctx ++ [⟨zone.zone, zone.wptrInflight, nsec⟩])

/-- `ztl_pro_grp_get`. -/
def ztlProGrpGet (z : Ztl) (num nodeId start : Nat) : Ztl × List ProvAddr :=
  let r := ztlProGrpGetLoop (z.vnodes nodeId) (num / ztlProZoneNumInnode) num
    (num % ztlProZoneNumInnode) (start % ztlProZoneNumInnode) num z.vzones []
  ({ z with vzones := r.1 }, r.2)

/-- `ztl_pro_grp_free`: advance the write pointer of device zone `zoneI`. -/
def ztlProGrpFree (vz : Nat → Zone) (zoneI nsec : Nat) : Nat → Zone :=
  let i := zoneI - metadataZoneNum
  update vz i { vz i with wptr := (vz i).wptr + nsec }

/-- `ztl_pro_free`. -/
def ztlProFree (vz : Nat → Zone) (ctx : List ProvAddr) : Nat → Zone :=
  ctx.foldl (fun vz a => ztlProGrpFree vz a.zone a.nsec) vz

variable {num j start k : Nat} {node : Node} {vz : Nat → Zone}

theorem ztlProFree_fields (ctx : List ProvAddr) (vz : Nat → Zone) (i : Nat) :
    (ztlProFree vz ctx i).zone = (vz i).zone ∧ (ztlProFree vz ctx i).sect = (vz i).sect ∧
    (ztlProFree vz ctx i).capacity = (vz i).capacity ∧
    (ztlProFree vz ctx i).wptrInflight = (vz i).wptrInflight := by
  induction ctx generalizing vz with
  | nil => exact ⟨rfl, rfl, rfl, rfl⟩
  | cons a ctx ih =>
    have hstep := ih (ztlProGrpFree vz a.zone a.nsec)
    rw [show ztlProFree vz (a :: ctx) = ztlProFree (ztlProGrpFree vz a.zone a.nsec) ctx from rfl]
    by_cases e : i = a.zone - metadataZoneNum
    · subst e
      simpa [ztlProGrpFree] using hstep
    · simpa [ztlProGrpFree, update_of_ne e] using hstep

/-- `ztl_pro_grp_get_node`: false is `XZTL_ZTL_PROV_ERR`. -/
def ztlProGrpGetNode (z : Ztl) (q : Nat) : Ztl × Bool :=
  let need := match z.qnode q with
    | none => true
    | some n => (z.vnodes n).left == 0
  if need then
    -- the exhausted node goes from the used to the full list
    let lists := match z.qnode q with
      | none => z.lists
      | some n => (z.lists.remove .usedHead n).insertTail .fullHead n
    let z := { z with lists := lists }
    let first := (z.lists.head .freeHead).first
    let z := { z with qnode := update z.qnode q first }
    match first with
    | none => (z, false)
    | some n =>
      let z := { z with lists := (z.lists.remove .freeHead n).insertTail .usedHead n }
      let z := z.setNode n { z.vnodes n with status := .used }
      ({ z with nfree := (z.nfree + 2 ^ 32 - 1) % 2 ^ 32 }, true)
  else (z, true)

/-! ### The closed form of the loop -/

/-- The units the `j`-th visited zone receives. -/
def zoneShare (num j : Nat) : Nat :=
  num / ztlProZoneNumInnode + if j < num % ztlProZoneNumInnode then 1 else 0

/-- The zone position of the `j`-th visited zone. -/
def zonePos (start j : Nat) : Nat := (start + j) % ztlProZoneNumInnode

/-- The 64 slots of a node name 64 different zones. -/
def Node.SlotsInj (nd : Node) : Prop :=
  ∀ i < ztlProZoneNumInnode, ∀ j < ztlProZoneNumInnode, nd.vzones i = nd.vzones j → i = j

/-- The units the zones from the `j`-th on still receive. -/
def unitsFrom (num j : Nat) : Nat :=
  num - (j * (num / ztlProZoneNumInnode) + min j (num % ztlProZoneNumInnode))

theorem unitsFrom_zero (num : Nat) : unitsFrom num 0 = num := by simp [unitsFrom]

theorem unitsFrom_succ (num j : Nat) : unitsFrom num (j + 1) = unitsFrom num j - zoneShare num j := by
  simp only [unitsFrom, zoneShare, Nat.add_mul, one_mul]
  generalize j * (num / ztlProZoneNumInnode) = a
  split <;> omega

/-- The request runs out exactly after `min num 64` zones. -/
theorem unitsFrom_eq_zero_iff (num j : Nat) (hj : j ≤ ztlProZoneNumInnode) :
    unitsFrom num j = 0 ↔ min num ztlProZoneNumInnode ≤ j := by
  simp only [unitsFrom, ztlProZoneNumInnode] at *
  rcases Nat.lt_or_ge num 64 with h | h
  · rw [Nat.div_eq_of_lt h, Nat.mod_eq_of_lt h]; omega
  · constructor
    · intro h0
      by_contra hlt
      have hj' : j + 1 ≤ 64 := by omega
      have hm : (j + 1) * (num / 64) ≤ 64 * (num / 64) := Nat.mul_le_mul_right _ hj'
      rw [Nat.add_mul, one_mul] at hm
      omega
    · intro h0
      obtain rfl : j = 64 := by omega
      omega

theorem zoneShare_pos_of_unitsFrom (hj : j ≤ ztlProZoneNumInnode)
    (h : unitsFrom num j ≠ 0) : 0 < zoneShare num j := by
  have h' := mt (unitsFrom_eq_zero_iff num j hj).mpr h
  by_cases hm : j < num % 64
  · simp [zoneShare, ztlProZoneNumInnode, hm]
  · simp only [zoneShare, ztlProZoneNumInnode]
    omega

theorem zonePos_lt (start j : Nat) : zonePos start j < ztlProZoneNumInnode :=
  Nat.mod_lt _ (by decide)

/-- Within one round of the node no position comes twice. -/
theorem zonePos_inj (hj : j < ztlProZoneNumInnode)
    (hk : k < ztlProZoneNumInnode) (h : zonePos start j = zonePos start k) : j = k := by
  simp only [zonePos, ztlProZoneNumInnode] at *
  omega

/-- The zones after the loop has visited the first `j` of them. -/
def sharedOut (node : Node) (num start : Nat) (vz : Nat → Zone) : Nat → Nat → Zone
  | 0 => vz
  | j + 1 =>
    let vz' := sharedOut node num start vz j
    let i := node.vzones (zonePos start j)
    update vz' i
      { vz' i with wptrInflight := (vz' i).wptrInflight + zoneShare num j * ztlIoSecMcmd }

/-- The address the loop records for the `j`-th zone. -/
def provAddr (node : Node) (num start : Nat) (vz : Nat → Zone) (j : Nat) : ProvAddr :=
  let zone := vz (node.vzones (zonePos start j))
  ⟨zone.zone, zone.wptrInflight, zoneShare num j * ztlIoSecMcmd⟩

theorem sharedOut_not_visited {i : Nat}
    (h : ∀ k < j, node.vzones (zonePos start k) ≠ i) : sharedOut node num start vz j i = vz i := by
  induction j with
  | zero => rfl
  | succ j ih =>
    rw [sharedOut, update_of_ne (Ne.symm (h j (Nat.lt_succ_self j)))]
    exact ih fun k hk => h k (Nat.lt_succ_of_lt hk)

/-- The zone the loop comes to next has not been visited yet. -/
theorem sharedOut_next (hn : node.SlotsInj) (hjk : j ≤ k) (hk : k < ztlProZoneNumInnode) :
    sharedOut node num start vz j (node.vzones (zonePos start k))
      = vz (node.vzones (zonePos start k)) := by
  refine sharedOut_not_visited fun l hl h => ?_
  have hp := hn _ (zonePos_lt start l) _ (zonePos_lt start k) h
  have := zonePos_inj (by omega) hk hp
  omega

theorem sharedOut_visited (hn : node.SlotsInj) (hk : k < j) (hj : j ≤ ztlProZoneNumInnode) :
    sharedOut node num start vz j (node.vzones (zonePos start k))
      = { vz (node.vzones (zonePos start k)) with
          wptrInflight := (vz (node.vzones (zonePos start k))).wptrInflight
            + zoneShare num k * ztlIoSecMcmd } := by
  induction j with
  | zero => omega
  | succ j ih =>
    by_cases e : k = j
    · subst e
      rw [sharedOut, update_self, sharedOut_next hn (le_refl k) (by omega)]
    · have hne : node.vzones (zonePos start k) ≠ node.vzones (zonePos start j) := fun h => by
        have hp := hn _ (zonePos_lt start k) _ (zonePos_lt start j) h
        exact e (zonePos_inj (by omega) (by omega) hp)
      rw [sharedOut, update_of_ne hne]
      exact ih (by omega) (by omega)

/-- Every field of a zone but the in-flight pointer stays. -/
theorem sharedOut_fields (node : Node) (num start : Nat) (vz : Nat → Zone) (j i : Nat) :
    (sharedOut node num start vz j i).zone = (vz i).zone ∧
    (sharedOut node num start vz j i).sect = (vz i).sect ∧
    (sharedOut node num start vz j i).capacity = (vz i).capacity ∧
    (sharedOut node num start vz j i).wptr = (vz i).wptr := by
  induction j with
  | zero => exact ⟨rfl, rfl, rfl, rfl⟩
  | succ j ih =>
    rw [sharedOut]
    by_cases e : i = node.vzones (zonePos start j)
    · subst e; rw [update_self]; exact ih
    · rw [update_of_ne e]; exact ih

/-- **The loop, in closed form.**  From the `j`-th zone on, with any fuel that covers the units
left, the loop visits the zones up to the `min num 64`-th and records one address for each. -/
theorem ztlProGrpGetLoop_eq (hn : node.SlotsInj) (num start : Nat) (vz : Nat → Zone) :
    ∀ (fuel j : Nat), j ≤ min num ztlProZoneNumInnode → unitsFrom num j ≤ fuel →
      ztlProGrpGetLoop node (num / ztlProZoneNumInnode) fuel (num % ztlProZoneNumInnode - j)
          (zonePos start j) (unitsFrom num j) (sharedOut node num start vz j)
          ((List.range j).map (provAddr node num start vz))
        = (sharedOut node num start vz (min num ztlProZoneNumInnode),
            (List.range (min num ztlProZoneNumInnode)).map (provAddr node num start vz)) := by
  intro fuel
  induction fuel with
  | zero =>
    intro j hj hf
    have h0 := (unitsFrom_eq_zero_iff num j (by omega)).mp (by omega)
    obtain rfl : j = min num ztlProZoneNumInnode := by omega
    rfl
  | succ fuel ih =>
    intro j hj hf
    by_cases h0 : unitsFrom num j = 0
    · have := (unitsFrom_eq_zero_iff num j (by omega)).mp h0
      obtain rfl : j = min num ztlProZoneNumInnode := by omega
      simp [ztlProGrpGetLoop, h0]
    · have hj64 : j ≤ ztlProZoneNumInnode := by omega
      have hlt : j < min num ztlProZoneNumInnode := by
        have := mt (unitsFrom_eq_zero_iff num j hj64).mpr h0
        omega
      have hpos := zoneShare_pos_of_unitsFrom hj64 h0
      have hstep := ih (j + 1) (by omega) (by rw [unitsFrom_succ]; omega)
      have hi : num / ztlProZoneNumInnode + (if num % ztlProZoneNumInnode - j = 0 then 0 else 1)
          = zoneShare num j := by
        by_cases hm : j < num % ztlProZoneNumInnode
        · rw [zoneShare, if_pos hm, if_neg (by omega)]
        · rw [zoneShare, if_neg hm, if_pos (by omega)]
      have hz : (zonePos start j + 1) % ztlProZoneNumInnode = zonePos start (j + 1) := by
        simp only [zonePos, ztlProZoneNumInnode]; omega
      rw [ztlProGrpGetLoop, if_neg h0, ← hstep]
      simp only [hi, hz, Nat.sub_sub, ← unitsFrom_succ, range_succ, map_append,
        map_cons, map_nil, sharedOut, provAddr,
        sharedOut_next hn (le_refl j) (show j < ztlProZoneNumInnode by omega)]

theorem ztlProGrpGet_addrs {z : Ztl} {n : Nat} (hn : (z.vnodes n).SlotsInj) :
    (ztlProGrpGet z num n start).2 = (List.range (min num ztlProZoneNumInnode)).map
          (provAddr (z.vnodes n) num start z.vzones) := by
  have h := ztlProGrpGetLoop_eq hn num start z.vzones num 0 (Nat.zero_le _) (by rw [unitsFrom_zero])
  simp only [unitsFrom_zero, Nat.sub_zero, zonePos, Nat.add_zero, range_zero, map_nil,
    sharedOut] at h
  rw [ztlProGrpGet, h]

/-- The zones after a request: only in-flight pointers move. -/
theorem ztlProGrpGet_state {z : Ztl} {n : Nat} (hn : (z.vnodes n).SlotsInj) :
    (ztlProGrpGet z num n start).1 = { z with
          vzones := sharedOut (z.vnodes n) num start z.vzones (min num ztlProZoneNumInnode) } := by
  have h := ztlProGrpGetLoop_eq hn num start z.vzones num 0 (Nat.zero_le _) (by rw [unitsFrom_zero])
  simp only [unitsFrom_zero, Nat.sub_zero, zonePos, Nat.add_zero, range_zero, map_nil,
    sharedOut] at h
  rw [ztlProGrpGet, h]

/-- The write pointers after the first `j` addresses of a request have been freed: those of the
visited zones have moved by their shares. -/
theorem ztlProFree_wptr (hn : node.SlotsInj) (hzone : ∀ i < ztlProZoneNumInnode,
      (vz (node.vzones i)).zone = node.vzones i + metadataZoneNum)
    (vz' : Nat → Zone) (hj : j ≤ ztlProZoneNumInnode) (hk : k < ztlProZoneNumInnode) :
    (ztlProFree vz' ((List.range j).map (provAddr node num start vz))
        (node.vzones (zonePos start k))).wptr = (vz' (node.vzones (zonePos start k))).wptr +
        if k < j then zoneShare num k * ztlIoSecMcmd else 0 := by
  induction j with
  | zero => simp [ztlProFree]
  | succ j ih =>
    have hself : (provAddr node num start vz j).zone - metadataZoneNum
        = node.vzones (zonePos start j) := by
      rw [provAddr, hzone _ (zonePos_lt start j), Nat.add_sub_cancel]
    have hstep : ztlProFree vz' ((List.range (j + 1)).map (provAddr node num start vz)) =
        ztlProGrpFree (ztlProFree vz' ((List.range j).map (provAddr node num start vz)))
          (provAddr node num start vz j).zone (zoneShare num j * ztlIoSecMcmd) := by
      simp only [range_succ, map_append, map_cons, map_nil, ztlProFree,
        foldl_append, foldl_cons, foldl_nil]
      rfl
    rw [hstep, ztlProGrpFree, hself]
    by_cases e : k = j
    · subst e
      rw [update_self]
      simp only [ih (by omega), lt_irrefl, if_false, Nat.lt_succ_self, if_true, Nat.add_zero]
    · have hne : node.vzones (zonePos start k) ≠ node.vzones (zonePos start j) := fun h =>
        e (zonePos_inj hk (by omega) (hn _ (zonePos_lt start k) _ (zonePos_lt start j) h))
      rw [update_of_ne hne, ih (by omega)]
      have hlt : k < j ↔ k < j + 1 := by omega
      simp only [hlt]

/-- The zones of other nodes stay as they are. -/
theorem ztlProFree_other {ctx : List ProvAddr} {i : Nat}
    (h : ∀ a ∈ ctx, a.zone - metadataZoneNum ≠ i) (vz : Nat → Zone) : ztlProFree vz ctx i = vz i := by
  induction ctx generalizing vz with
  | nil => rfl
  | cons a ctx ih =>
    rw [show ztlProFree vz (a :: ctx) = ztlProFree (ztlProGrpFree vz a.zone a.nsec) ctx from rfl,
      ih fun b hb => h b (mem_cons_of_mem _ hb), ztlProGrpFree]
    exact update_of_ne (Ne.symm (h a mem_cons_self)) _ _

end Xztl
