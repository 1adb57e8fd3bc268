import Xztl.Ztl.Submit

/-!
# Ztl — a piece can be completed

The submission and completion loops wait for the device.  `exists_answers` says that they need not
wait for ever: whatever the statuses of the attempts, there are answers, with every submission and
resubmission accepted, after which both loops have ended.

The proof follows the loops.  As long as no submission is refused, a zone that is marked busy has a
command in flight (`Live.busy`), so a round at a zone with commands left either submits one or can
complete one; both take off `Sub.work`, and a zone without commands left is passed over.
-/

namespace Xztl

open Function List

/-- The attempts still to come: at most three for each command, and its submission. -/
def Sub.work (r : Req) (s : Sub) : Nat :=
  (maxCallbackErrCnt + 1) * (r.num - s.submitted) +
    (s.outstanding.map fun k => maxCallbackErrCnt - s.errCnt k).sum

/-- Nothing has been refused so far: each submitted command is finished or in flight, and a zone is
busy only with a command in flight. -/
structure Live (r : Req) (s : Sub) (F : List Nat) : Prop where
  all : ∀ k < r.num, k / ztlProZoneNumInnode < s.znCmdIdIndex (k % ztlProZoneNumInnode) →
    k ∈ F ++ s.outstanding
  submitted : s.submitted = (F ++ s.outstanding).length
  busy : ∀ z, s.minflight z = true → ∃ k ∈ s.outstanding, k % ztlProZoneNumInnode = z

section

variable {r : Req} {dev : Dev} {vz : Nat → Zone} {s s' : Sub} {F : List Nat} {L : List WriteRec}

/-- A final completion loses nothing and takes an attempt off. -/
theorem Live.done (hl : Live r s F) (hr : r.WF) {k : Nat} (hk : k ∈ s.outstanding)
    (hkn : k < r.num) (he : s.errCnt k < maxCallbackErrCnt) (hnd : s.outstanding.Nodup)
    (hf : Final r s s' k) :
    Live r (callbackDone r s' k) (k :: F) ∧ (callbackDone r s' k).work r < s.work r := by
  have hperm : (F ++ s.outstanding).Perm (k :: F ++ s.outstanding.erase k) :=
    ((perm_cons_erase hk).append_left F).trans perm_middle
  refine ⟨⟨?_, ?_, ?_⟩, ?_⟩
  · intro l hln hlt
    show l ∈ k :: F ++ s'.outstanding
    rw [hf.outstanding]
    refine hperm.mem_iff.mp (hl.all l hln ?_)
    rw [← hf.index]
    exact hlt
  · show s'.submitted = (k :: F ++ s'.outstanding).length
    rw [hf.outstanding, hf.submitted, hl.submitted, hperm.length_eq]
  · intro z hz
    have hz' : update s'.minflight (r.cmd k).sequenceZn false z = true := hz
    rw [hr.zn k hkn, hf.minflight] at hz'
    by_cases e : z = k % ztlProZoneNumInnode
    · subst e
      simp at hz'
    · rw [update_of_ne e] at hz'
      obtain ⟨l, hlo, hlz⟩ := hl.busy z hz'
      refine ⟨l, ?_, hlz⟩
      show l ∈ s'.outstanding
      rw [hf.outstanding]
      exact (mem_erase_of_ne fun h => e (by rw [← hlz, h])).mpr hlo
  · have hsum : (s.outstanding.map fun l => maxCallbackErrCnt - s.errCnt l).sum =
        (maxCallbackErrCnt - s.errCnt k) +
          ((s.outstanding.erase k).map fun l => maxCallbackErrCnt - s.errCnt l).sum := by
      rw [((perm_cons_erase hk).map _).sum_eq, map_cons, sum_cons]
    have hmap : ((s.outstanding.erase k).map fun l => maxCallbackErrCnt - s'.errCnt l) =
        (s.outstanding.erase k).map fun l => maxCallbackErrCnt - s.errCnt l := by
      refine map_congr_left fun l hl => ?_
      rw [hf.err l (fun h => (hnd.mem_erase_iff.mp hl).1 h)]
    show (maxCallbackErrCnt + 1) * (r.num - s'.submitted) +
      (s'.outstanding.map fun l => maxCallbackErrCnt - s'.errCnt l).sum < s.work r
    rw [hf.outstanding, hf.submitted, hmap, Sub.work, hsum]
    omega

/-- A retry loses nothing and takes an attempt off. -/
theorem Live.retry (hl : Live r s F) {k : Nat} (hk : k ∈ s.outstanding)
    (he : s.errCnt k < maxCallbackErrCnt) (hnd : s.outstanding.Nodup) :
    Live r (retried s k true) F ∧ (retried s k true).work r < s.work r := by
  have hperm := perm_cons_erase hk
  have hout : (retried s k true).outstanding = k :: s.outstanding.erase k := rfl
  refine ⟨⟨?_, ?_, ?_⟩, ?_⟩
  · intro l hln hlt
    rw [hout]
    exact (hperm.append_left F).mem_iff.mp (hl.all l hln hlt)
  · rw [hout, ← (hperm.append_left F).length_eq]
    exact hl.submitted
  · intro z hz
    obtain ⟨l, hlo, hlz⟩ := hl.busy z hz
    exact ⟨l, hperm.mem_iff.mp hlo, hlz⟩
  · have hmap : ((s.outstanding.erase k).map fun l => maxCallbackErrCnt -
          update s.errCnt k (s.errCnt k + 1) l) =
        (s.outstanding.erase k).map fun l => maxCallbackErrCnt - s.errCnt l := by
      refine map_congr_left fun l hl => ?_
      rw [update_of_ne (hnd.mem_erase_iff.mp hl).1]
    have hsum : (s.outstanding.map fun l => maxCallbackErrCnt - s.errCnt l).sum =
        (maxCallbackErrCnt - s.errCnt k) +
          ((s.outstanding.erase k).map fun l => maxCallbackErrCnt - s.errCnt l).sum := by
      rw [(hperm.map _).sum_eq, map_cons, sum_cons]
    simp only [Sub.work, retried, if_true, map_cons, sum_cons, hmap, hsum,
      update_self]
    omega

/-- The answer that completes `k`. -/
def completes (k : Nat) : MediaAns := ⟨true, some ⟨k, true⟩⟩

section

variable (hl : Live r s F) (h : SubInv r dev vz s F L) (hr : r.WF)
include hl h hr

/-- **A poke can always make progress** while a command is in flight. -/
theorem Live.poke {k : Nat} (hk : k ∈ s.outstanding) :
    ∃ F' L', SubInv r dev vz (ztlIoPokeCtx r s (completes k)) F' L' ∧
      Live r (ztlIoPokeCtx r s (completes k)) F' ∧
      (ztlIoPokeCtx r s (completes k)).work r < s.work r ∧
      (ztlIoPokeCtx r s (completes k)).submitted = s.submitted := by
  have hnd := nodup_append.mp h.nodup
  have hkF : k ∉ F := fun hF => hnd.2.2 _ hF _ hk rfl
  have he := (h.err k hkF).1
  have hkn := (h.accepted k (mem_append_right _ hk)).1
  rcases h.poke_cases (c := ⟨k, true⟩) hk true with ⟨hst, hlast, e⟩ | ⟨s', hf, e⟩
  · rw [completes, e]
    obtain ⟨hl', hw⟩ := hl.retry hk he hnd.2.1
    exact ⟨F, L, h.retry hk hst hlast true, hl', hw, rfl⟩
  · rw [completes, e]
    obtain ⟨hl', hw⟩ := hl.done hr hk hkn he hnd.2.1 hf
    exact ⟨_, _, h.done hr hk hf, hl', hw, hf.submitted⟩

/-- The next command of position `z` is submitted. -/
theorem Live.submit {z : Nat} (hz : z < ztlProZoneNumInnode)
    (hp : s.znCmdIdIndex z < (r.znCmdId z).length) :
    Live r (submittedAt r s z) F ∧ (submittedAt r s z).work r < s.work r := by
  have hget := hr.znCmdId_getD hz hp
  have hlen := (h.submit hr hz hp).length_le
  simp only [submittedAt] at hlen ⊢
  rw [perm_middle.length_eq, length_cons, ← hl.submitted] at hlen
  refine ⟨⟨?_, ?_, ?_⟩, ?_⟩
  · intro l hln hlt
    refine perm_middle.mem_iff.mpr (mem_cons.mpr ?_)
    by_cases e : l % ztlProZoneNumInnode = z
    · simp only [e, update_self] at hlt
      rcases Nat.lt_succ_iff_lt_or_eq.mp hlt with hlt | hlt
      · exact Or.inr (hl.all l hln (by rw [e]; exact hlt))
      · refine Or.inl ?_
        rw [hget, ← hlt, ← e, Nat.mod_add_div]
    · simp only [update_of_ne e] at hlt
      exact Or.inr (hl.all l hln hlt)
  · rw [perm_middle.length_eq, length_cons, ← hl.submitted]
  · intro z' hz'
    by_cases e : z' = z
    · subst e
      refine ⟨_, mem_cons_self, ?_⟩
      rw [hget]
      simp only [ztlProZoneNumInnode] at *
      omega
    · simp only [update_of_ne e] at hz'
      obtain ⟨l, hlo, hlz⟩ := hl.busy z' hz'
      exact ⟨l, mem_cons_of_mem _ hlo, hlz⟩
  · simp only [Sub.work, map_cons, sum_cons, maxCallbackErrCnt]
    omega

/-- **A round at a zone with commands left makes progress** with the right answer. -/
theorem Live.zone {z : Nat} (hz : z < ztlProZoneNumInnode)
    (hp : s.znCmdIdIndex z < (r.znCmdId z).length) :
    ∃ a s' F' L', submitZone r s z a = (s', z + 1) ∧ SubInv r dev vz s' F' L' ∧ Live r s' F' ∧
      s'.work r < s.work r := by
  by_cases hm : s.minflight z
  · obtain ⟨k, hk, -⟩ := hl.busy z hm
    obtain ⟨F', L', h', hl', hw, -⟩ := hl.poke h hr hk
    refine ⟨completes k, _, F', L', ?_, h', hl', hw⟩
    rw [submitZone, if_neg (Nat.not_le_of_lt hp), if_pos hm]
  · refine ⟨⟨true, none⟩, submittedAt r s z, F, L, ?_, h.submit hr hz hp, hl.submit h hr hz hp⟩
    rw [submitZone, if_neg (Nat.not_le_of_lt hp), if_neg hm]
    simp only [if_true, ztlIoPokeCtx, ite_self, submittedAt]

end

/-- As long as a command is unsubmitted, some zone has commands left. -/
theorem Live.exists_zone (hl : Live r s F) (hr : r.WF)
    (hlt : s.submitted < r.num) :
    ∃ z < r.prov.length, s.znCmdIdIndex z < (r.znCmdId z).length := by
  obtain ⟨k, hkn, hk⟩ : ∃ k < r.num, k ∉ F ++ s.outstanding := by
    by_contra hcon
    push Not at hcon
    have hsub : List.range r.num ⊆ F ++ s.outstanding := fun k hk => hcon k (mem_range.mp hk)
    have := (nodup_range.subperm hsub).length_le
    rw [length_range, ← hl.submitted] at this
    omega
  have hidx := mt (hl.all k hkn) hk
  refine ⟨k % ztlProZoneNumInnode, ?_, ?_⟩
  · rw [hr.len]
    simp only [ztlProZoneNumInnode]
    omega
  · rw [hr.ids _ (Nat.mod_lt _ (by decide)), length_map, length_range]
    simp only [unitsAt, ztlProZoneNumInnode] at *
    omega

/-- A round at a zone without commands left passes over it. -/
theorem submitLoop_pass {z : Nat} (hz : z < r.prov.length)
    (hex : (r.znCmdId z).length ≤ s.znCmdIdIndex z) (a : MediaAns) (ans : List MediaAns) :
    submitLoop r (a :: ans) z s = submitLoop r ans (z + 1) s := by
  rw [submitLoop, if_pos hz, submitZone, if_pos hex]

/-- The zones from `z` on have no commands left, and the pass ends. -/
theorem submitLoop_skip (d : Nat) :
    ∀ z, z + d = r.prov.length →
      (∀ y, z ≤ y → y < r.prov.length → (r.znCmdId y).length ≤ s.znCmdIdIndex y) →
      ∃ pre, ∀ ans, submitLoop r (pre ++ ans) z s = submitLoop r ans r.prov.length s := by
  induction d with
  | zero =>
    intro z hz _
    exact ⟨[], fun ans => by rw [← hz]; rfl⟩
  | succ d ih =>
    intro z hz hex
    obtain ⟨pre, hpre⟩ := ih (z + 1) (by omega) fun y hy => hex y (by omega)
    refine ⟨⟨true, none⟩ :: pre, fun ans => ?_⟩
    rw [cons_append, submitLoop_pass (by omega) (hex z (le_refl z) (by omega)), hpre]

/-- From zone `z` on there is a zone with commands left: the pass comes to it and makes progress. -/
theorem Live.advance (hl : Live r s F) (h : SubInv r dev vz s F L) (hr : r.WF) (d : Nat) :
    ∀ z y, z + d = y → y < r.prov.length → s.znCmdIdIndex y < (r.znCmdId y).length →
      ∃ a pre z' s' F' L', z' ≤ r.prov.length ∧
        (∀ ans, submitLoop r (a :: pre ++ ans) z s = submitLoop r ans z' s') ∧
        SubInv r dev vz s' F' L' ∧ Live r s' F' ∧ s'.work r < s.work r := by
  induction d with
  | zero =>
    rintro z y rfl hy hp
    have hy64 : z + 0 < ztlProZoneNumInnode := by rw [hr.len] at hy; omega
    obtain ⟨a, s', F', L', e, h', hl', hw⟩ := hl.zone h hr hy64 hp
    refine ⟨a, [], z + 1, s', F', L', hy, fun ans => ?_, h', hl', hw⟩
    rw [cons_append, nil_append, submitLoop, if_pos (by omega)]
    exact congrArg (fun p : Sub × Nat => submitLoop r ans p.2 p.1) e
  | succ d ih =>
    intro z y hzy hy hp
    by_cases hz : s.znCmdIdIndex z < (r.znCmdId z).length
    · have hz64 : z < ztlProZoneNumInnode := by rw [hr.len] at hy; omega
      obtain ⟨a, s', F', L', e, h', hl', hw⟩ := hl.zone h hr hz64 hz
      refine ⟨a, [], z + 1, s', F', L', by omega, fun ans => ?_, h', hl', hw⟩
      rw [cons_append, nil_append, submitLoop, if_pos (by omega)]
      exact congrArg (fun p : Sub × Nat => submitLoop r ans p.2 p.1) e
    · obtain ⟨a, pre, z', s', F', L', hz', e, h'⟩ := ih (z + 1) y (by omega) hy hp
      refine ⟨⟨true, none⟩, a :: pre, z', s', F', L', hz', fun ans => ?_, h'⟩
      rw [cons_append, submitLoop_pass (by omega) (Nat.le_of_not_lt hz), e]

/-- **The submission loop can end.** -/
theorem Live.submitLoop (hr : r.WF) (w : Nat) :
    ∀ {s : Sub} {F : List Nat} {L : List WriteRec} {z : Nat}, s.work r ≤ w →
      SubInv r dev vz s F L → Live r s F → z ≤ r.prov.length →
      ∃ pre s' F' L', (∀ ans, submitLoop r (pre ++ ans) z s = .ok (s', ans)) ∧
        SubInv r dev vz s' F' L' ∧ Live r s' F' ∧ r.num ≤ s'.submitted := by
  induction w using Nat.strong_induction_on with
  | _ w ih =>
    intro s F L z hw h hl hz
    by_cases hex : ∃ y, z ≤ y ∧ y < r.prov.length ∧ s.znCmdIdIndex y < (r.znCmdId y).length
    · obtain ⟨y, hzy, hy, hp⟩ := hex
      obtain ⟨a, pre, z', s', F', L', hz', e, h', hl', hw'⟩ :=
        hl.advance h hr (y - z) z y (by omega) hy hp
      obtain ⟨pre', s'', F'', L'', e', hrest⟩ := ih _ (by omega) (le_refl _) h' hl' hz'
      refine ⟨a :: pre ++ pre', s'', F'', L'', fun ans => ?_, hrest⟩
      rw [append_assoc, e, e']
    · push Not at hex
      obtain ⟨pre, e⟩ := submitLoop_skip (r.prov.length - z) z (by omega) hex
      by_cases hlt : s.submitted < r.num
      · -- the next pass starts at zone 0
        obtain ⟨y, hy, hp⟩ := hl.exists_zone hr hlt
        obtain ⟨a, pre1, z', s', F', L', hz', e1, h', hl', hw'⟩ :=
          hl.advance h hr y 0 y (by omega) hy hp
        obtain ⟨pre', s'', F'', L'', e', hrest⟩ := ih _ (by omega) (le_refl _) h' hl' hz'
        refine ⟨pre ++ (a :: pre1 ++ pre'), s'', F'', L'', fun ans => ?_, hrest⟩
        rw [append_assoc, e, append_assoc, ← e' ans, ← e1 (pre' ++ ans),
          cons_append, Xztl.submitLoop, Xztl.submitLoop, if_neg (lt_irrefl _), if_pos hlt,
          if_pos (by omega)]
      · refine ⟨pre, s, F, L, fun ans => ?_, h, hl, Nat.le_of_not_lt hlt⟩
        rw [e]
        cases ans with
        | nil => rw [Xztl.submitLoop, if_pos ⟨le_refl _, Nat.le_of_not_lt hlt⟩]
        | cons a ans => rw [Xztl.submitLoop, if_neg (lt_irrefl _), if_neg hlt]

/-- **The last loop can end.** -/
theorem Live.pollLoop (hr : r.WF) (w : Nat) :
    ∀ {s : Sub} {F : List Nat} {L : List WriteRec}, s.work r ≤ w →
      SubInv r dev vz s F L → Live r s F → r.num ≤ s.submitted →
      ∃ pre s', ∀ ans, pollLoop r (pre ++ ans) s = .ok (s', ans) := by
  induction w using Nat.strong_induction_on with
  | _ w ih =>
    intro s F L hw h hl hn
    by_cases hlt : s.ncb < r.num
    · have hpos : 0 < s.outstanding.length := by
        have := hl.submitted
        rw [length_append, ← h.ncb] at this
        omega
      obtain ⟨k, hk⟩ := exists_mem_of_length_pos hpos
      obtain ⟨F', L', h', hl', hw', hs⟩ := hl.poke h hr hk
      obtain ⟨pre, s', e⟩ := ih _ (by omega) (le_refl _) h' hl' (by omega)
      refine ⟨completes k :: pre, s', fun ans => ?_⟩
      rw [cons_append, Xztl.pollLoop, if_pos hlt, e]
    · refine ⟨[], s, fun ans => ?_⟩
      cases ans with
      | nil => rw [nil_append, Xztl.pollLoop, if_neg hlt]
      | cons a ans => rw [nil_append, Xztl.pollLoop, if_neg hlt]

/-- **A piece can be completed**, whatever the statuses of the attempts. -/
theorem exists_answers (hr : r.WF) (dev : Dev) (vz : Nat → Zone) (status : Nat) :
    ∃ pre s', ∀ ans, submitPiece r dev vz status (pre ++ ans) = .ok (s', ans) := by
  have hl0 : Live r (Sub.start dev vz status) [] := ⟨by simp [Sub.start], rfl, by simp [Sub.start]⟩
  obtain ⟨pre, s1, F1, L1, e, h1, hl1, hn⟩ :=
    Live.submitLoop hr _ (le_refl _) (SubInv.start r dev vz status) hl0 (le_refl _)
  obtain ⟨pre', s2, e'⟩ := Live.pollLoop hr _ (le_refl _) h1 hl1 hn
  refine ⟨pre ++ pre', s2, fun ans => ?_⟩
  rw [submitPiece, append_assoc, e]
  exact e' ans

end

end Xztl
