import Xztl.Ztl.Pieces
import Xztl.Ztl.Serve

/-!
# Ztl — writes to a zone are sequential (`ztl_io_write_ucmd`)

A zone takes a write only at its write pointer.  A request is served piece by piece, and within a
piece the zones' commands go out interleaved; the device may refuse submissions for a while and
complete what it has accepted in any order.

The request is followed step by step (`Serving`): a node is got, rounds of the loops follow until
the piece is completed, and the next node is got for what is left.  Beside the state of the request
stand the write pointers of the device: a completed write moves the pointer of its zone.

**`sequential_run`**: when the pointers were where the in-flight pointers say at the start, and
every completion succeeds, each command is submitted to a zone with nothing in flight, at the zone's
write pointer.
-/

namespace Xztl

open Function List Option

/-! ### How a piece is dealt out to its zones -/

/-- Address `y` of a piece. -/
def Req.addr (r : Req) (y : Nat) : ProvAddr := r.prov.getD y ⟨0, 0, 0⟩

/-- The commands of a piece, dealt out to different zones in turn. -/
structure Req.Dealt (r : Req) : Prop where
  zone : ∀ k < r.num, (r.cmd k).zone = (r.addr (k % ztlProZoneNumInnode)).zone
  sect : ∀ k < r.num, (r.cmd k).sect =
    (r.addr (k % ztlProZoneNumInnode)).sect + ztlIoSecMcmd * (k / ztlProZoneNumInnode)
  nsec : ∀ k < r.num, (r.cmd k).nsec = ztlIoSecMcmd
  zn : ∀ k < r.num, (r.cmd k).sequenceZn = k % ztlProZoneNumInnode
  ids : ∀ y < ztlProZoneNumInnode, r.znCmdId y =
    (List.range (unitsAt r.num y)).map fun p => y + ztlProZoneNumInnode * p
  len : r.prov.length = min r.num ztlProZoneNumInnode
  inj : ∀ y < r.prov.length, ∀ y' < r.prov.length, (r.addr y).zone = (r.addr y').zone → y = y'

variable {y : Nat} {z' : Ztl}

section

variable {w : WriteReq} {z : Ztl} {n num boff : Nat}

/-- Address `y` of a piece is the in-flight pointer of its zone. -/
theorem pieceReq_addr (hg : Geometry z) (hn : n < z.nnodes) (hy : y < min num ztlProZoneNumInnode) :
    (pieceReq w z n num boff).addr y = provAddr (z.vnodes n) num (z.vnodes n).used z.vzones y := by
  rw [Req.addr, pieceReq_prov hg hn]
  simp [getD_eq_getElem?_getD, hy]

/-- The zone of address `y`. -/
theorem provAddr_zone (hg : Geometry z) (hn : n < z.nnodes) (U y : Nat) :
    (provAddr (z.vnodes n) num U z.vzones y).zone =
      ztlProZoneNumInnode * n + zonePos U y + metadataZoneNum := by
  have hpos := zonePos_lt U y
  rw [provAddr, hg.slot n hn _ hpos]
  refine hg.zone _ ?_
  simp only [ztlProZoneNumInnode] at *
  omega

/-- **Every piece is dealt out**, wherever the pointers stand. -/
theorem pieceReq_dealt (hg : Geometry z) (hn : n < z.nnodes) : (pieceReq w z n num boff).Dealt := by
  have hm : ∀ k < num, (pieceReq w z n num boff).cmd k =
      mcmdAt (pieceReq w z n num boff).addr boff k := fun k hk => by
    show (populate (pieceReq w z n num boff).prov num boff).mcmd.getD k _ = _
    rw [(pieceReq_pop (w := w) hg hn).mcmd]
    rw [getD_eq_getElem _ _ (by simpa using hk), getElem_map, getElem_range]
    rfl
  have hlen : (pieceReq w z n num boff).prov.length = min num ztlProZoneNumInnode := by
    rw [pieceReq_prov hg hn]
    simp
  refine ⟨fun k hk => ?_, fun k hk => ?_, fun k hk => ?_, fun k hk => ?_, fun y hy => ?_, hlen,
    fun y hy y' hy' e => ?_⟩
  · rw [hm k hk, mcmdAt]
  · rw [hm k hk, mcmdAt]
  · rw [hm k hk, mcmdAt]
  · rw [hm k hk, mcmdAt]
  · rw [← filter_mod_range hy]
    exact (pieceReq_pop (w := w) hg hn).ids y
  · rw [hlen] at hy hy'
    rw [pieceReq_addr hg hn hy, pieceReq_addr hg hn hy', provAddr_zone hg hn, provAddr_zone hg hn] at e
    exact zonePos_inj (lt_of_lt_of_le hy (Nat.min_le_right _ _))
      (lt_of_lt_of_le hy' (Nat.min_le_right _ _)) (Nat.add_left_cancel (Nat.add_right_cancel e))

end

/-! ### The rounds of a piece whose completions succeed -/

/-- The device's write pointers after a round: a stored write moves the pointer of its zone. -/
def moved (r : Req) (wp : Nat → Nat) (s s' : Sub) (a : MediaAns) : Nat → Nat :=
  if s'.dev.log.length = s.dev.log.length then wp
  else match a.cpl with
    | none => wp
    | some c =>
      update wp (r.cmd c.cmd).zone (wp (r.cmd c.cmd).zone + (r.cmd c.cmd).nsec)

section

variable {r : Req} {st st' : Serve} {a : MediaAns} {wp wp₀ : Nat → Nat} {vz : Nat → Zone}

/-- `s` when command `k` has been stored and taken off the device. -/
def stored (r : Req) (s : Sub) (k : Nat) : Sub :=
  { s with
    outstanding := s.outstanding.erase k
    dev := s.dev.write (r.cmd k).sect (r.cmd k).nsec r.buf (r.cmd k).prp }

/-- A poke that delivers a successful completion, or none. -/
theorem ztlIoPokeCtx_zero (hst : ∀ k j, r.status k j = 0) (s : Sub) (a : MediaAns) :
    ztlIoPokeCtx r s a = s ∨ ∃ c, a.cpl = some c ∧ c.cmd ∈ s.outstanding ∧
      ztlIoPokeCtx r s a = callbackDone r (stored r s c.cmd) c.cmd := by
  obtain ⟨b, _ | c⟩ := a
  · exact Or.inl rfl
  by_cases hc : c.cmd ∈ s.outstanding
  · refine Or.inr ⟨c, rfl, hc, ?_⟩
    simp only [ztlIoPokeCtx, if_pos hc, ztlIoWriteCallbackMcmd, hst, ne_eq, not_true_eq_false,
      if_false, if_true, stored]
  · refine Or.inl ?_
    simp only [ztlIoPokeCtx, if_neg hc]

theorem Serve.sent_dev (r : Req) (st : Serve) (a : MediaAns) : (st.sent r a).dev = st.s.dev := by
  rw [Serve.sent]
  split
  · rfl
  · split <;> rfl

/-- **A round whose completion succeeds.**  After its submission it is over, or it takes a command
off the device for good and the zone's pointer moves. -/
theorem serveStep_zero (wp : Nat → Nat) (hst : ∀ k j, r.status k j = 0)
    (e : serveStep r st a = some st') :
    (st'.s = st.sent r a ∧ st'.done = st.done ∧ moved r wp st.s st'.s a = wp) ∨
    ∃ k ∈ (st.sent r a).outstanding, st'.s = callbackDone r (stored r (st.sent r a) k) k ∧
      st'.done = k :: st.done ∧
      moved r wp st.s st'.s a = update wp (r.cmd k).zone (wp (r.cmd k).zone + (r.cmd k).nsec) := by
  obtain ⟨hs, hst'⟩ := serveStep_cases e
  have hquiet : st'.s = st.sent r a →
      st'.s = st.sent r a ∧ st'.done = st.done ∧ moved r wp st.s st'.s a = wp := fun hs => by
    refine ⟨hs, ?_, ?_⟩
    · rw [hst']
      exact if_pos (by rw [hs, Serve.sent_ncb])
    · rw [moved, hs, Serve.sent_dev, if_pos rfl]
  rcases hs with hs | hs
  · exact Or.inl (hquiet hs)
  rcases ztlIoPokeCtx_zero hst (st.sent r a) a with e | ⟨c, ha, hc, e⟩
  · exact Or.inl (hquiet (hs.trans e))
  · have hs' := hs.trans e
    refine Or.inr ⟨c.cmd, hc, hs', ?_, ?_⟩
    · have hd : st'.done = if st'.s.ncb = st.s.ncb then st.done
          else (a.cpl.map Cpl.cmd).toList ++ st.done := congrArg Serve.done hst'
      have hn : st'.s.ncb = st.s.ncb + 1 := by
        rw [hs', ← Serve.sent_ncb r st a]
        rfl
      rw [hd, if_neg (by omega), ha]
      rfl
    · have hlog : st'.s.dev.log.length = st.s.dev.log.length + 1 := by
        rw [hs', ← Serve.sent_dev r st a]
        rfl
      rw [moved, if_neg (by omega), ha]

/-- A piece in progress, the pointers having stood at `wp₀` before it and the zones being `vz`: a
zone with a command in flight is marked and its pointer stands at the command, the pointer of every
other zone of the piece stands behind the commands submitted so far. -/
structure Orderly (r : Req) (vz : Nat → Zone) (wp₀ wp : Nat → Nat) (st : Serve) : Prop where
  nodup : (st.done ++ st.s.outstanding).Nodup
  accepted : ∀ k ∈ st.done ++ st.s.outstanding,
    k < r.num ∧ k / ztlProZoneNumInnode < st.s.znCmdIdIndex (k % ztlProZoneNumInnode)
  ncb : st.s.ncb = st.done.length
  index : ∀ y < ztlProZoneNumInnode, st.s.znCmdIdIndex y ≤ (r.znCmdId y).length
  busy : ∀ k ∈ st.s.outstanding, st.s.minflight (k % ztlProZoneNumInnode) = true ∧
    st.s.znCmdIdIndex (k % ztlProZoneNumInnode) = k / ztlProZoneNumInnode + 1 ∧
    wp (r.addr (k % ztlProZoneNumInnode)).zone =
      (r.addr (k % ztlProZoneNumInnode)).sect + ztlIoSecMcmd * (k / ztlProZoneNumInnode)
  idle : ∀ y < r.prov.length, (∀ k ∈ st.s.outstanding, k % ztlProZoneNumInnode ≠ y) →
    wp (r.addr y).zone = (r.addr y).sect + ztlIoSecMcmd * st.s.znCmdIdIndex y
  other : ∀ x, (∀ y < r.prov.length, (r.addr y).zone ≠ x) → wp x = wp₀ x
  zones : ∀ j, (st.s.vzones j).zone = (vz j).zone ∧ (st.s.vzones j).sect = (vz j).sect ∧
    (st.s.vzones j).wptrInflight = (vz j).wptrInflight

theorem Orderly.start (r : Req) (dev : Dev) (vz : Nat → Zone) (wp : Nat → Nat) (status : Nat)
    (hwp : ∀ y < r.prov.length, wp (r.addr y).zone = (r.addr y).sect) :
    Orderly r vz wp wp (Serve.start r dev vz status) where
  nodup := nodup_nil
  accepted := fun _ hk => by cases hk
  ncb := rfl
  index := fun _ _ => Nat.zero_le _
  busy := fun _ hk => by cases hk
  idle := fun y hy _ => hwp y hy
  other := fun _ _ => rfl
  zones := fun _ => ⟨rfl, rfl, rfl⟩

/-- A zone that is not marked has nothing in flight. -/
theorem Orderly.free (h : Orderly r vz wp₀ wp st) (hf : st.s.minflight y = false) :
    ∀ k ∈ st.s.outstanding, k % ztlProZoneNumInnode ≠ y := by
  rintro k hk rfl
  rw [(h.busy k hk).1] at hf
  cases hf

theorem Req.Dealt.next (hd : r.Dealt) {p : Nat} (hy : y < ztlProZoneNumInnode)
    (hp : p < (r.znCmdId y).length) :
    (r.znCmdId y).getD p 0 = y + ztlProZoneNumInnode * p ∧ y + ztlProZoneNumInnode * p < r.num := by
  rw [hd.ids y hy, length_map, length_range] at hp
  refine ⟨?_, ?_⟩
  · rw [hd.ids y hy, getD_eq_getElem _ _ (by simpa using hp), getElem_map,
      getElem_range]
  · simp only [unitsAt, ztlProZoneNumInnode] at *
    omega

section

variable (h : Orderly r vz wp₀ wp st)
include h

/-- **An accepted submission** at a zone that is free. -/
theorem Orderly.submit (hd : r.Dealt) (hyp : y < r.prov.length)
    (hi : st.s.znCmdIdIndex y < (r.znCmdId y).length) (hf : st.s.minflight y = false) :
    Orderly r vz wp₀ wp { st with s := submittedAt r st.s y } := by
  have hy64 : y < ztlProZoneNumInnode := hyp.trans_le (hd.len.trans_le (Nat.min_le_right _ _))
  obtain ⟨hget, hnum⟩ := hd.next hy64 hi
  have hdiv : (y + ztlProZoneNumInnode * st.s.znCmdIdIndex y) / ztlProZoneNumInnode
      = st.s.znCmdIdIndex y := by
    rw [Nat.add_mul_div_left _ _ (by decide), Nat.div_eq_of_lt hy64, Nat.zero_add]
  have hmod : (y + ztlProZoneNumInnode * st.s.znCmdIdIndex y) % ztlProZoneNumInnode = y := by
    rw [Nat.add_mul_mod_self_left, Nat.mod_eq_of_lt hy64]
  rw [submittedAt, hget]
  generalize y + ztlProZoneNumInnode * st.s.znCmdIdIndex y = k at *
  have hfree := h.free hf
  -- the index of `y` counts the commands of `y` submitted so far
  have hnew : k ∉ st.done ++ st.s.outstanding := fun hm => by
    have := (h.accepted _ hm).2
    rw [hdiv, hmod] at this
    omega
  have hidx : ∀ x, x ≠ y → update st.s.znCmdIdIndex y (st.s.znCmdIdIndex y + 1) x
      = st.s.znCmdIdIndex x := fun x hx => update_of_ne hx _ _
  refine { h with nodup := ?_, accepted := ?_, index := ?_, busy := ?_, idle := ?_ }
  · exact perm_middle.symm.nodup (nodup_cons.mpr ⟨hnew, h.nodup⟩)
  · intro l hl
    rcases mem_cons.mp (perm_middle.mem_iff.mp hl) with rfl | hl
    · refine ⟨hnum, ?_⟩
      rw [hdiv, hmod]
      simp
    · obtain ⟨hln, hlt⟩ := h.accepted l hl
      refine ⟨hln, ?_⟩
      by_cases e : l % ztlProZoneNumInnode = y
      · rw [e] at hlt ⊢
        simp only [update_self]
        omega
      · simpa only [hidx _ e] using hlt
  · intro x hx
    by_cases e : x = y
    · subst e
      simp only [update_self]
      exact hi
    · simpa only [hidx _ e] using h.index x hx
  · intro l hl
    rcases mem_cons.mp hl with rfl | hl
    · refine ⟨by simp only [hmod, update_self], ?_, ?_⟩
      · simp only [hmod, hdiv, update_self]
      · rw [hmod, hdiv]
        exact h.idle y hyp hfree
    · obtain ⟨h1, h2, h3⟩ := h.busy l hl
      have e := hfree l hl
      exact ⟨by simpa only [update_of_ne e] using h1,
        by simpa only [hidx _ e] using h2, h3⟩
  · intro x hx hout
    have e : x ≠ y := fun e => hout k mem_cons_self (hmod.trans e.symm)
    simp only [hidx _ e]
    exact h.idle x hx fun l hl => hout l (mem_cons_of_mem _ hl)

theorem Orderly.sent (hd : r.Dealt) (a : MediaAns) :
    Orderly r vz wp₀ wp { st with s := st.sent r a } := by
  rw [Serve.sent]
  split
  · exact h
  · next y hy =>
    obtain ⟨hyp, -, hi, hf⟩ := Serve.submits_eq_some hd.len hy
    split
    · exact h.submit hd hyp hi hf
    · refine { h with busy := fun k hk => ⟨?_, (h.busy k hk).2⟩ }
      show update st.s.minflight y true (k % ztlProZoneNumInnode) = true
      rw [update_apply, (h.busy k hk).1, ite_self]

/-- **A completion** moves the pointer of its zone behind the command. -/
theorem Orderly.final (hd : r.Dealt) {k : Nat} (hk : k ∈ st.s.outstanding) :
    Orderly r vz wp₀
      (update wp (r.cmd k).zone (wp (r.cmd k).zone + (r.cmd k).nsec))
      { st with s := callbackDone r (stored r st.s k) k, done := k :: st.done } := by
  have hperm : (st.done ++ st.s.outstanding).Perm (k :: st.done ++ st.s.outstanding.erase k) :=
    ((perm_cons_erase hk).append_left _).trans perm_middle
  obtain ⟨hkn, -⟩ := h.accepted k (mem_append_right _ hk)
  obtain ⟨-, hkidx, hkwp⟩ := h.busy k hk
  have hnd : st.s.outstanding.Nodup := (nodup_append.mp h.nodup).2.1
  have hlt : ∀ l < r.num, l % ztlProZoneNumInnode < r.prov.length := fun l hl => by
    rw [hd.len]
    simp only [ztlProZoneNumInnode]
    omega
  -- no other command of this zone is in flight
  have hsep : ∀ l ∈ st.s.outstanding.erase k,
      l ∈ st.s.outstanding ∧ l % ztlProZoneNumInnode ≠ k % ztlProZoneNumInnode := fun l hl => by
    obtain ⟨hne, hl⟩ := hnd.mem_erase_iff.mp hl
    refine ⟨hl, fun e => hne ?_⟩
    have hlidx := (h.busy l hl).2.1
    rw [e, hkidx] at hlidx
    rw [← Nat.mod_add_div l ztlProZoneNumInnode, e, ← Nat.succ_injective hlidx, Nat.mod_add_div]
  have hother : ∀ y < r.prov.length, y ≠ k % ztlProZoneNumInnode →
      update wp (r.cmd k).zone (wp (r.cmd k).zone + (r.cmd k).nsec) (r.addr y).zone =
        wp (r.addr y).zone := fun y hy hne => by
    refine update_of_ne (fun e => hne ?_) _ _
    rw [hd.zone k hkn] at e
    exact hd.inj y hy _ (hlt k hkn) e
  refine ⟨hperm.nodup h.nodup, fun l hl => h.accepted l (hperm.mem_iff.mpr hl), ?_, h.index, ?_, ?_,
    ?_, ?_⟩
  · show st.s.ncb + 1 = st.done.length + 1
    rw [h.ncb]
  · intro l hl
    obtain ⟨hlo, hne⟩ := hsep l hl
    obtain ⟨h1, h2, h3⟩ := h.busy l hlo
    have hln := (h.accepted l (mem_append_right _ hlo)).1
    refine ⟨?_, h2, ?_⟩
    · show update st.s.minflight (r.cmd k).sequenceZn false _ = true
      rw [hd.zn k hkn, update_of_ne hne]
      exact h1
    · rw [hother _ (hlt l hln) hne]
      exact h3
  · intro y hy hout
    show _ = _ + ztlIoSecMcmd * st.s.znCmdIdIndex y
    by_cases e : y = k % ztlProZoneNumInnode
    · rw [e, hd.zone k hkn, update_self, hkwp, hkidx, hd.nsec k hkn]
      ring
    · rw [hother y hy e]
      refine h.idle y hy fun l hl e' => ?_
      have hlk : l ≠ k := fun hlk => e (by rw [← e', hlk])
      exact hout l ((mem_erase_of_ne hlk).mpr hl) e'
  · intro x hx
    rw [update_of_ne fun e => hx _ (hlt k hkn) (by rw [e, hd.zone k hkn])]
    exact h.other x hx
  · intro j
    obtain ⟨h1, h2, h3⟩ := h.zones j
    show ((if st.s.ncb + 1 = r.num then ztlProFree st.s.vzones r.prov else st.s.vzones) j).zone = _ ∧
      ((if st.s.ncb + 1 = r.num then ztlProFree st.s.vzones r.prov else st.s.vzones) j).sect = _ ∧
      ((if st.s.ncb + 1 = r.num then ztlProFree st.s.vzones r.prov else st.s.vzones) j).wptrInflight = _
    obtain ⟨f1, f2, -, f3⟩ := ztlProFree_fields r.prov st.s.vzones j
    split
    · exact ⟨f1.trans h1, f2.trans h2, f3.trans h3⟩
    · exact ⟨h1, h2, h3⟩

/-- Only the loops' state and the completed commands matter. -/
theorem Orderly.congr (hs : st'.s = st.s) (hdone : st'.done = st.done) :
    Orderly r vz wp₀ wp st' := by
  constructor
  case nodup => rw [hs, hdone]; exact h.nodup
  case accepted => rw [hs, hdone]; exact h.accepted
  case ncb => rw [hs, hdone]; exact h.ncb
  case index => rw [hs]; exact h.index
  case busy => rw [hs]; exact h.busy
  case idle => rw [hs]; exact h.idle
  case other => exact h.other
  case zones => rw [hs]; exact h.zones

theorem Orderly.step (hd : r.Dealt) (hst : ∀ k j, r.status k j = 0)
    (e : serveStep r st a = some st') : Orderly r vz wp₀ (moved r wp st.s st'.s a) st' := by
  have hsent := h.sent hd a
  rcases serveStep_zero wp hst e with ⟨hs, hdone, hm⟩ | ⟨k, hk, hs, hdone, hm⟩
  · rw [hm]
    exact hsent.congr hs hdone
  · rw [hm]
    exact (hsent.final hd hk).congr hs hdone

end

/-- **The end of a piece.**  Every pointer stands behind the units of its zone. -/
theorem Orderly.finish (h : Orderly r vz wp₀ wp st) (hd : r.Dealt) (hn : r.num ≤ st.s.ncb)
    (hy : y < r.prov.length) :
    wp (r.addr y).zone = (r.addr y).sect + ztlIoSecMcmd * unitsAt r.num y := by
  have hy64 : y < ztlProZoneNumInnode := hy.trans_le (hd.len.trans_le (Nat.min_le_right _ _))
  have hsub : st.done ++ st.s.outstanding ⊆ List.range r.num := fun k hk =>
    mem_range.mpr (h.accepted k hk).1
  have hsp := h.nodup.subperm hsub
  have hlen := hsp.length_le
  rw [length_append, length_range, ← h.ncb] at hlen
  have hout : st.s.outstanding = [] := length_eq_zero_iff.mp (by omega)
  have hperm : (st.done ++ st.s.outstanding).Perm (List.range r.num) :=
    hsp.perm_of_length_le (by rw [length_range, length_append, ← h.ncb]; omega)
  rw [h.idle y hy (by rw [hout]; nofun)]
  have hle := h.index y hy64
  rw [hd.ids y hy64, length_map, length_range] at hle
  have hpos : 0 < unitsAt r.num y := by
    rw [hd.len] at hy
    simp only [unitsAt, ztlProZoneNumInnode] at *
    omega
  -- the last command of the zone has been accepted
  have hlast : y + ztlProZoneNumInnode * (unitsAt r.num y - 1) ∈ st.done ++ st.s.outstanding := by
    refine hperm.mem_iff.mpr (mem_range.mpr ?_)
    simp only [unitsAt, ztlProZoneNumInnode] at *
    omega
  have hacc := (h.accepted _ hlast).2
  rw [Nat.add_mul_mod_self_left, Nat.mod_eq_of_lt hy64, Nat.add_mul_div_left _ _ (by decide),
    Nat.div_eq_of_lt hy64, Nat.zero_add] at hacc
  congr 2
  omega

end

/-! ### A request, step by step -/

/-- The piece being written: its node, its units, and the loops over its commands. -/
structure InPiece where
  node : Nat
  num : Nat
  loops : Serve

/-- `ztl_io_write_ucmd` at work: the state, the units left and the place in the buffer, what `ucmd`
holds so far, whether another node is to be got, the piece being written, and the device's write
pointers by zone number. -/
structure Serving where
  z : Ztl
  left : Nat
  boff : Nat
  u : Ucmd
  more : Bool
  cur : Option InPiece
  wp : Nat → Nat

/-- The steps of a request: get a node and provision it, one round of the loops, and the end of a
piece. -/
inductive ServingOp where
  | get
  | round (a : MediaAns)
  | finish

/-- The request for the piece being written. -/
def Serving.req (w : WriteReq) (S : Serving) (p : InPiece) : Req :=
  pieceReq w S.z p.node p.num S.boff

/-- The state when the zones of a piece have been provisioned. -/
def Serving.provisioned (S : Serving) (p : InPiece) : Ztl :=
  (ztlProGrpGet S.z p.num p.node (S.z.vnodes p.node).used).1

/-- Node `n` is got, and `num` of its units are to be written. -/
def Serving.beginPiece (w : WriteReq) (S : Serving) (z : Ztl) (n num : Nat) : Serving :=
  let z := setLevel z n w.provType
  let zg := (ztlProGrpGet z num n (z.vnodes n).used).1
  { S with
    z := z
    cur := some ⟨n, num, Serve.start (pieceReq w z n num S.boff) zg.dev zg.vzones S.u.status⟩ }

/-- The piece is written. -/
def Serving.endPiece (w : WriteReq) (S : Serving) (p : InPiece) : Serving :=
  let nd := S.z.vnodes p.node
  let z := { S.provisioned p with dev := p.loops.s.dev, vzones := p.loops.s.vzones }
  { S with
    z := z.setNode p.node (nd.wrote p.num)
    left := S.left - p.num
    boff := (populate (S.req w p).prov p.num S.boff).boff
    u := ⟨p.loops.s.status, S.u.pieces ++ [⟨p.node, nd.used, p.num⟩]⟩
    more := 0 < S.left - p.num
    cur := none }

/-- One step of a request. -/
def servingStep (w : WriteReq) (S : Serving) : ServingOp → Option Serving
  | .get =>
    if S.more = true ∧ S.cur.isNone then
      match ztlProGrpGetNode S.z w.provType with
      | (z, false) =>
        some { S with z := z, u := { S.u with status := xztlZtlIoSErr }, more := false }
      | (z, true) =>
        match z.qnode w.provType with
        | none => none
        | some n =>
          let nd := z.vnodes n
          let num := if nd.left ≤ S.left then nd.left else S.left
          if S.u.pieces.length < ucmdPieceNum ∧ num ≤ ztlIoRcNum then some (S.beginPiece w z n num)
          else none
    else none
  | .round a =>
    match S.cur with
    | none => none
    | some p =>
      (serveStep (S.req w p) p.loops a).map fun sv =>
        { S with
          cur := some { p with loops := sv }
          wp := moved (S.req w p) S.wp p.loops.s sv.s a }
  | .finish =>
    match S.cur with
    | none => none
    | some p => if p.loops.Ended (S.req w p) then some (S.endPiece w p) else none

/-- Before a request for `left` units. -/
def Serving.start (z : Ztl) (left : Nat) (wp : Nat → Nat) : Serving :=
  ⟨z, left, 0, ⟨0, []⟩, true, none, wp⟩

section

variable {w : WriteReq} {S S' : Serving} {op : ServingOp}

theorem servingStep_round {p : InPiece} {a : MediaAns} {sv : Serve} (hc : S.cur = some p)
    (e : serveStep (S.req w p) p.loops a = some sv) : servingStep w S (.round a) = some { S with
      cur := some { p with loops := sv }, wp := moved (S.req w p) S.wp p.loops.s sv.s a } := by
  rw [servingStep, hc]
  simp only [e]
  rfl

/-- The rounds of a piece are steps of the request. -/
theorem serve_serving {p : InPiece} {as : List MediaAns} {sv sv' : Serve}
    (h : Runs (serveStep (S.req w p)) (fun _ _ => True) sv as sv') :
    ∀ wp, ∃ wp', Runs (servingStep w) (fun _ _ => True)
      { S with cur := some { p with loops := sv }, wp := wp } (as.map .round)
      { S with cur := some { p with loops := sv' }, wp := wp' } := by
  induction h with
  | nil sv => exact fun wp => ⟨wp, .nil _⟩
  | @cons sv sv1 sv' a as _ e _ ih =>
    intro wp
    obtain ⟨wp', hr⟩ := ih (moved (S.req w p) wp sv.s sv1.s a)
    exact ⟨wp', .cons trivial (servingStep_round
      (S := { S with cur := some { p with loops := sv }, wp := wp }) rfl e) hr⟩

theorem servingStep_get {n : Nat} (hm : S.more = true) (hc : S.cur = none)
    (hg : ztlProGrpGetNode S.z w.provType = (z, true)) (hq : z.qnode w.provType = some n)
    (hlen : S.u.pieces.length < ucmdPieceNum)
    (hrc : (if (z.vnodes n).left ≤ S.left then (z.vnodes n).left else S.left) ≤ ztlIoRcNum) :
    servingStep w S .get = some (S.beginPiece w z n
      (if (z.vnodes n).left ≤ S.left then (z.vnodes n).left else S.left)) := by
  have hcond : S.more = true ∧ S.cur.isNone = true := ⟨hm, by rw [hc]; rfl⟩
  simp only [servingStep, if_pos hcond, hg, hq]
  rw [if_pos ⟨hlen, hrc⟩]

/-- **A piece is a sequence of steps** from the node to the end of its loops. -/
theorem writePiece_serving {n num status' boff' : Nat} {ans ans' : List MediaAns}
    (e : writePiece w (setLevel z n w.provType) n num S.boff S.u.status ans
      = .ok (z', status', boff', ans')) :
    num ≤ ztlIoRcNum ∧ ∃ ops wp', Runs (servingStep w) (fun _ _ => True) (S.beginPiece w z n num) ops
      ⟨z', S.left - num, boff', ⟨status', S.u.pieces ++ [⟨n, (z.vnodes n).used, num⟩]⟩,
        0 < S.left - num, none, wp'⟩ := by
  rw [writePiece] at e
  split at e
  · cases e
  · next hrc =>
    obtain ⟨⟨s, ans1⟩, es, e⟩ := Except.bind_eq_ok.mp e
    cases e
    obtain ⟨pre, sv, -, hr, rfl, hend⟩ := submitPiece_serve es
    refine ⟨Nat.le_of_not_lt hrc, ?_⟩
    obtain ⟨wp', hruns⟩ := serve_serving (S := S.beginPiece w z n num)
      (p := ⟨n, num, Serve.start (pieceReq w (setLevel z n w.provType) n num S.boff)
        (ztlProGrpGet (setLevel z n w.provType) num n ((setLevel z n w.provType).vnodes n).used).1.dev
        (ztlProGrpGet (setLevel z n w.provType) num n
          ((setLevel z n w.provType).vnodes n).used).1.vzones S.u.status⟩) hr S.wp
    refine ⟨_, wp', hruns.append (.one (a := .finish) trivial ?_)⟩
    rw [← setLevel_used z n w.provType]
    exact if_pos hend

/-- **The `reget` loop is such a sequence of steps**: whenever it returns, a run ends in the same
state with the same report. -/
theorem reget_serving {u' : Ucmd} (fuel : Nat) :
    ∀ {S : Serving} {ans : List MediaAns}, S.more = true → S.cur = none →
      reget w fuel S.z S.left S.boff S.u ans = .ok (z', u') →
      ∃ ops S', Runs (servingStep w) (fun _ _ => True) S ops S' ∧ S'.z = z' ∧ S'.u = u' ∧
        S'.more = false ∧ S'.cur = none := by
  induction fuel with
  | zero =>
    intro S ans _ _ e
    cases e
  | succ fuel ih =>
    intro S ans hm hc e
    rw [reget] at e
    rcases hg : ztlProGrpGetNode S.z w.provType with ⟨z, _ | _⟩
    · simp only [hg] at e
      cases e
      refine ⟨[.get], { S with z := z', u := { S.u with status := xztlZtlIoSErr }, more := false },
        .one trivial ?_, rfl, rfl, rfl, hc⟩
      have hcond : S.more = true ∧ S.cur.isNone = true := ⟨hm, by rw [hc]; rfl⟩
      simp only [servingStep, if_pos hcond, hg]
    · simp only [hg] at e
      cases hq : z.qnode w.provType with
      | none =>
        simp only [hq] at e
        cases e
      | some n =>
        simp only [hq] at e
        by_cases hlen : S.u.pieces.length < ucmdPieceNum
        · rw [if_pos hlen] at e
          obtain ⟨⟨z2, status, boff', ans1⟩, ew, e⟩ := Except.bind_eq_ok.mp e
          obtain ⟨hrc, ops, wp', hr⟩ := writePiece_serving ew
          have hget := servingStep_get hm hc hg hq hlen hrc
          by_cases hmore : 0 < S.left -
              (if (z.vnodes n).left ≤ S.left then (z.vnodes n).left else S.left)
          · rw [if_pos hmore] at e
            obtain ⟨ops', S', hr', hS'⟩ := ih (S := ⟨z2, _, boff', _, _, none, wp'⟩)
              (decide_eq_true hmore) rfl e
            exact ⟨_, S', .cons trivial hget (hr.append hr'), hS'⟩
          · rw [if_neg hmore] at e
            cases e
            exact ⟨_, _, .cons trivial hget hr, rfl, rfl, decide_eq_false hmore, rfl⟩
        · rw [if_neg hlen] at e
          cases e

/-- **A write command is such a sequence of steps**, unless its size is refused. -/
theorem ztlIoWriteUcmd_serving {u' : Ucmd} {ans : List MediaAns}
    (e : ztlIoWriteUcmd w z ans = .ok (z', u')) (wp : Nat → Nat) :
    z' = z ∧ u' = ⟨xztlZtlIoSErr, []⟩ ∨ ∃ ops S', Runs (servingStep w) (fun _ _ => True)
        (Serving.start z (w.size / znsAligment % 2 ^ 32 / ztlIoSecMcmd) wp) ops S' ∧
      S'.z = z' ∧ S'.u = u' ∧ S'.more = false ∧ S'.cur = none := by
  rw [ztlIoWriteUcmd] at e
  dsimp only at e
  split at e
  · cases e
    exact Or.inl ⟨rfl, rfl⟩
  · split at e
    · cases e
      exact Or.inl ⟨rfl, rfl⟩
    · exact Or.inr (reget_serving _
        (S := Serving.start z (w.size / znsAligment % 2 ^ 32 / ztlIoSecMcmd) wp) rfl rfl e)

end

/-! ### The pointers of a request -/

/-- The zones are where they belong, and every pointer to a node is to one of the group. -/
structure Ranged (z : Ztl) : Prop where
  geometry : Geometry z
  lists : z.lists.Within (· < z.nnodes)
  qnode : ∀ q n, z.qnode q = some n → n < z.nnodes

/-- The device's write pointers are where the in-flight pointers say. -/
def Pointed (z : Ztl) (wp : Nat → Nat) : Prop :=
  ∀ j < ztlProZoneNumInnode * z.nnodes, wp (z.vzones j).zone = (z.vzones j).wptrInflight

section

variable {w : WriteReq} {z z₁ : Ztl} {wp : Nat → Nat} {n num q : Nat}

theorem Ranged.queue (h : Ranged z) (l : List (Nat × MgmtOp)) :
    Ranged { z with submitHead := l } := ⟨h.geometry.congr rfl rfl rfl, h.lists, h.qnode⟩

theorem Ranged.setNode (h : Ranged z) {nd : Node} (hz : nd.vzones = (z.vnodes n).vzones) :
    Ranged (z.setNode n nd) := by
  refine { h with geometry := ⟨fun m hm i hi => ?_, h.geometry.zone, h.geometry.sect⟩ }
  by_cases e : m = n
  · rw [e, Ztl.setNode_self, hz]
    exact h.geometry.slot n (e ▸ hm) i hi
  · rw [Ztl.setNode_of_ne _ _ e]
    exact h.geometry.slot m hm i hi

/-- Queue `q` points to another node of the group, or to none. -/
theorem Ranged.relink (h : Ranged z) {lists : TailQueue.Heap NodeList Nat} {o : Option Nat}
    {nfree : Nat} (hl : lists.Within (· < z.nnodes)) (ho : ∀ n, o = some n → n < z.nnodes) :
    Ranged { z with lists := lists, qnode := update z.qnode q o, nfree := nfree } where
  geometry := h.geometry.congr rfl rfl rfl
  lists := hl
  qnode := fun p m hp => by
    have hp' : update z.qnode q o p = some m := hp
    by_cases e : p = q
    · rw [e, update_self] at hp'
      exact ho m hp'
    · rw [update_of_ne e] at hp'
      exact h.qnode p m hp'

theorem Ranged.getNode (h : Ranged z) {ok : Bool} (e : ztlProGrpGetNode z q = (z₁, ok)) :
    Ranged z₁ ∧ z₁.nnodes = z.nnodes ∧ z₁.vzones = z.vzones := by
  rcases ztlProGrpGetNode_cases z q with ⟨n, -, -, e'⟩ | ⟨z2, h1, h2⟩
  · cases e.symm.trans e'
    exact ⟨h, rfl, rfl⟩
  · obtain ⟨hr, hn, hv⟩ : Ranged z2 ∧ z2.nnodes = z.nnodes ∧ z2.vzones = z.vzones := by
      rcases h1 with ⟨-, rfl⟩ | ⟨n, hq, -, rfl⟩
      · exact ⟨h, rfl, rfl⟩
      · exact ⟨h.relink (h.lists.remove.insertTail (h.qnode q n hq)) nofun, rfl, rfl⟩
    rcases h2 with ⟨-, e'⟩ | ⟨n, hf, e'⟩
    · cases e.symm.trans e'
      exact ⟨hr, hn, hv⟩
    · cases e.symm.trans e'
      have hlt : n < z2.nnodes := hr.lists (.first .freeHead) n hf
      have hs : Ranged (z2.setNode n { z2.vnodes n with status := .used }) := hr.setNode rfl
      exact ⟨hs.relink (hr.lists.remove.insertTail hlt) fun m hm => Option.some.inj hm ▸ hlt, hn, hv⟩

/-- A request in progress: between two pieces the pointers are where the in-flight pointers say, and
within a piece its zones' pointers follow its commands. -/
structure ServingInv (w : WriteReq) (S : Serving) : Prop where
  ranged : Ranged S.z
  between : S.cur = none → Pointed S.z S.wp
  within : ∀ p, S.cur = some p → p.node < S.z.nnodes ∧
    ∃ wp₀, Pointed S.z wp₀ ∧ Orderly (S.req w p) (S.provisioned p).vzones wp₀ S.wp p.loops

/-- Where the commands of a piece start. -/
theorem Pointed.addr (h : Pointed z wp) (hg : Geometry z) (hn : n < z.nnodes) {boff : Nat}
    (hy : y < (pieceReq w z n num boff).prov.length) :
    wp ((pieceReq w z n num boff).addr y).zone = ((pieceReq w z n num boff).addr y).sect := by
  rw [(pieceReq_dealt hg hn).len] at hy
  have hy' : y < min num ztlProZoneNumInnode := hy
  have hpos := zonePos_lt (z.vnodes n).used y
  rw [pieceReq_addr hg hn hy', provAddr]
  refine h _ ?_
  rw [hg.slot n hn _ hpos]
  simp only [ztlProZoneNumInnode] at *
  omega

variable {S S' : Serving}

theorem ServingInv.get (h : ServingInv w S) (e : servingStep w S .get = some S') :
    ServingInv w S' := by
  rw [servingStep] at e
  split at e
  · next hc =>
    have hnone : S.cur = none := isNone_iff_eq_none.mp hc.2
    have hp := h.between hnone
    split at e
    · next z hg =>
      cases e
      obtain ⟨hr, hn, hv⟩ := h.ranged.getNode hg
      refine ⟨hr, fun _ j hj => ?_, fun p hcur => ?_⟩
      · rw [hv]
        exact hp j (hn ▸ hj)
      · cases hnone.symm.trans hcur
    · next z hg =>
      obtain ⟨hr, hn, hv⟩ := h.ranged.getNode hg
      split at e
      · cases e
      · next n hq =>
        obtain ⟨-, e⟩ := ite_none_right_eq_some.mp e
        cases e
        have hlt : n < z.nnodes := hr.qnode _ _ hq
        have hr' : Ranged (setLevel z n w.provType) := hr.setNode rfl
        have hp' : Pointed (setLevel z n w.provType) S.wp := fun j hj => by
          show S.wp (z.vzones j).zone = (z.vzones j).wptrInflight
          rw [hv]
          exact hp j (hn ▸ hj)
        refine ⟨hr', nofun, fun p hcur => ?_⟩
        cases hcur
        exact ⟨hlt, S.wp, hp', Orderly.start _ _ _ _ _ fun y hy => hp'.addr hr'.geometry hlt hy⟩
  · cases e

theorem ServingInv.round (h : ServingInv w S) (hw : ∀ i j, w.fate i j = 0) {a : MediaAns}
    (e : servingStep w S (.round a) = some S') : ServingInv w S' := by
  rw [servingStep] at e
  split at e
  · cases e
  · next p hcur =>
    obtain ⟨sv, hs, rfl⟩ := map_eq_some_iff.mp e
    obtain ⟨hn, wp₀, hp, ho⟩ := h.within p hcur
    refine ⟨h.ranged, nofun, fun p' hp' => ?_⟩
    cases hp'
    exact ⟨hn, wp₀, hp, ho.step (pieceReq_dealt h.ranged.geometry hn) (fun _ _ => hw _ _) hs⟩

/-- **The pointers after a piece** are where the in-flight pointers have been put. -/
theorem Orderly.pointed {boff : Nat} {wp₀ : Nat → Nat} {st : Serve} (hg : Geometry z)
    (hn : n < z.nnodes) (hp : Pointed z wp₀)
    (h : Orderly (pieceReq w z n num boff) (ztlProGrpGet z num n (z.vnodes n).used).1.vzones wp₀ wp st)
    (hend : num ≤ st.s.ncb) :
    ∀ j < ztlProZoneNumInnode * z.nnodes, wp (st.s.vzones j).zone = (st.s.vzones j).wptrInflight := by
  have hd : (pieceReq w z n num boff).Dealt := pieceReq_dealt hg hn
  have hst : (ztlProGrpGet z num n (z.vnodes n).used).1.vzones =
      sharedOut (z.vnodes n) num (z.vnodes n).used z.vzones (min num ztlProZoneNumInnode) := by
    rw [ztlProGrpGet_state (hg.slotsInj hn)]
  intro j hj
  obtain ⟨h1, -, h3⟩ := h.zones j
  rw [hst] at h1 h3
  obtain ⟨m, i, hi, rfl⟩ : ∃ m i, i < ztlProZoneNumInnode ∧ j = ztlProZoneNumInnode * m + i :=
    ⟨j / ztlProZoneNumInnode, j % ztlProZoneNumInnode, Nat.mod_lt _ (by decide),
      (Nat.div_add_mod j _).symm⟩
  rw [h1, (sharedOut_fields _ _ _ _ _ _).1, hg.zone _ hj, h3, sharedOut_inflight hg hn hi]
  have hp' := hp _ hj
  rw [hg.zone _ hj] at hp'
  by_cases hmn : m = n
  · subst hmn
    obtain ⟨k, hk, rfl⟩ := exists_zonePos (z.vnodes m).used hi
    rw [if_pos rfl, unitsAt_add hk, Nat.add_sub_cancel_left, ← hp']
    by_cases hkn : k < min num ztlProZoneNumInnode
    · have hfin := h.finish hd hend (y := k) (hd.len ▸ hkn)
      rw [pieceReq_addr hg hn hkn, provAddr_zone hg hn] at hfin
      rw [hfin]
      show (z.vzones ((z.vnodes m).vzones (zonePos (z.vnodes m).used k))).wptrInflight +
        ztlIoSecMcmd * unitsAt num k = _
      rw [hg.slot m hn _ hi, ← hp']
    · -- the zone has no unit of the piece
      have h0 : unitsAt num k = 0 := by
        simp only [unitsAt, ztlProZoneNumInnode] at *
        omega
      rw [h0]
      refine h.other _ fun y hy e => hkn ?_
      rw [hd.len] at hy
      have hy' : y < min num ztlProZoneNumInnode := hy
      rw [pieceReq_addr hg hn hy', provAddr_zone hg hn] at e
      have hyk := zonePos_inj (hy'.trans_le (Nat.min_le_right _ _)) hk
        (Nat.add_left_cancel (Nat.add_right_cancel e))
      exact hyk ▸ hy'
  · rw [if_neg hmn, Nat.add_zero, ← hp']
    refine h.other _ fun y hy e => hmn ?_
    rw [hd.len] at hy
    have hy' : y < min num ztlProZoneNumInnode := hy
    rw [pieceReq_addr hg hn hy', provAddr_zone hg hn] at e
    have hpos := zonePos_lt (z.vnodes n).used y
    simp only [ztlProZoneNumInnode] at *
    omega

theorem ServingInv.finish (h : ServingInv w S) (e : servingStep w S .finish = some S') :
    ServingInv w S' := by
  rw [servingStep] at e
  split at e
  · cases e
  · next p hcur =>
    obtain ⟨hend, e⟩ := ite_none_right_eq_some.mp e
    cases e
    obtain ⟨hn, wp₀, hp, ho⟩ := h.within p hcur
    have hg := h.ranged.geometry
    have hpt := ho.pointed hg hn hp hend.2.2
    have hfields : ∀ j, (p.loops.s.vzones j).zone = (S.z.vzones j).zone ∧
        (p.loops.s.vzones j).sect = (S.z.vzones j).sect := fun j => by
      obtain ⟨h1, h2, -⟩ := ho.zones j
      rw [Serving.provisioned, ztlProGrpGet_state (hg.slotsInj hn)] at h1 h2
      obtain ⟨f1, f2, -⟩ := sharedOut_fields (S.z.vnodes p.node) p.num (S.z.vnodes p.node).used
        S.z.vzones (min p.num ztlProZoneNumInnode) j
      exact ⟨h1.trans f1, h2.trans f2⟩
    have hr : Ranged { S.provisioned p with dev := p.loops.s.dev, vzones := p.loops.s.vzones } :=
      ⟨⟨hg.slot, fun j hj => (hfields j).1.trans (hg.zone j hj),
        fun j hj => (hfields j).2.trans (hg.sect j hj)⟩, h.ranged.lists, h.ranged.qnode⟩
    exact ⟨hr.setNode rfl, fun _ => hpt, nofun⟩

theorem Ranged.fresh (g : GroupSize) (dev : Dev) : Ranged (Ztl.fresh g dev) :=
  ⟨(Alloc.fresh g dev).geometry, freeList_within g.nnodes, nofun⟩

end

end Xztl
