import Xztl.Env.Load

/-!
# Env — what a log means

`Contents` is the meaning of a log: for each name the level, the size and the pieces it has recorded.
A snapshot or an update adds pieces, a GC change replaces them, a deletion forgets the name, and a
rename moves what was recorded.

The replayed table is a heap with pointers.  **`Table.replay_refines`** says that it has the contents
of the log, and that it is tidy — each entry is a live object of its own whose name is the key — as
long as no replayed rename finds its source.
-/

namespace Xztl

open Function Bytes List Option Table

/-! ### Contents -/

/-- What is recorded of each name. -/
abbrev Contents := Name → Option FileRec

namespace Contents

/-- The recorded pieces. -/
def pieces (A : Contents) (n : Name) : List ZrocksMap := (A n).elim [] FileRec.pieces

/-- An entry adds its pieces to what is recorded, or replaces it. -/
def recover (A : Contents) (r : FileRec) (replace : Bool) : Contents :=
  update A r.name
    (some { r with pieces := (if replace then [] else A.pieces r.name) ++ r.pieces })

/-- The meaning of a record. -/
def apply (A : Contents) : Rec → Contents
  | .base fs => fs.foldl (fun A f => A.recover f false) A
  | .update f => A.recover f false
  | .replace src dst => update (update A src none) dst (A src)
  | .delete n => update A n none
  | .gcChange f => A.recover f true

/-- The meaning of a log. -/
def replay (recs : List Rec) : Contents := recs.foldl apply fun _ => none

variable {n : Name} {p : Ptr}

theorem replay_append (recs : List Rec) (r : Rec) :
    replay (recs ++ [r]) = (replay recs).apply r := by
  rw [replay, foldl_append]
  rfl

variable (A : Contents) (r : FileRec) (replace : Bool)

theorem recover_self : A.recover r replace r.name =
    some { r with pieces := (if replace then [] else A.pieces r.name) ++ r.pieces } :=
  update_self _ _ _

theorem recover_of_ne (h : n ≠ r.name) : A.recover r replace n = A n :=
  update_of_ne h _ _

end Contents

/-! ### The last entry of a name -/

/-- The entry of `n` in a record, the last one if there are several. -/
def Rec.entryOf (n : Name) : Rec → Option FileRec
  | .base fs => fs.reverse.find? fun f => f.name = n
  | .update f => if f.name = n then some f else none
  | .replace _ _ => none
  | .delete _ => none
  | .gcChange f => if f.name = n then some f else none

/-- The last entry of `n` in a log. -/
def lastEntry (recs : List Rec) (n : Name) : Option FileRec := recs.reverse.findSome? (Rec.entryOf n)

/-- A log without renames. -/
def NoReplace (recs : List Rec) : Prop := ∀ r ∈ recs, r.op ≠ .replace

/-- What an entry says beside the pieces. -/
def FileRec.attrs (f : FileRec) : Int × Nat := (f.level, f.size)

namespace Contents

/-- The entry that is recovered gives the attributes. -/
theorem recover_attrs (A : Contents) (r : FileRec) (replace : Bool) (n : Name) :
    (A.recover r replace n).map FileRec.attrs
      = (if r.name = n then some r else none).elim ((A n).map FileRec.attrs) (some ∘ FileRec.attrs) := by
  by_cases e : r.name = n
  · subst e
    rw [if_pos rfl, recover_self]
    rfl
  · rw [if_neg e, A.recover_of_ne r replace (Ne.symm e)]
    rfl

theorem recoverAll_attrs (fs : List FileRec) (n : Name) : ∀ A : Contents,
    (fs.foldl (fun A f => A.recover f false) A n).map FileRec.attrs
      = (fs.reverse.find? fun f => f.name = n).elim ((A n).map FileRec.attrs)
          (some ∘ FileRec.attrs) := by
  induction fs with
  | nil => exact fun _ => rfl
  | cons f fs ih =>
    intro A
    rw [foldl_cons, ih, reverse_cons, List.find?_append]
    cases hf : fs.reverse.find? fun f => f.name = n with
    | some g => rfl
    | none =>
      rw [elim_none, recover_attrs, none_or]
      by_cases e : f.name = n
      · simp [e]
      · simp [e]

/-- **The attributes are those of the last entry**, in a log without renames. -/
theorem replay_attrs (recs : List Rec) (n : Name) (h : NoReplace recs) {r : FileRec}
    (hr : replay recs n = some r) : (lastEntry recs n).map FileRec.attrs = some r.attrs := by
  induction recs using List.reverseRecOn generalizing r with
  | nil => cases hr
  | append_singleton recs x ih =>
    have hrecs : NoReplace recs := fun r' hr' => h r' (mem_append_left _ hr')
    have hlast : lastEntry (recs ++ [x]) n = (x.entryOf n).or (lastEntry recs n) := by
      rw [lastEntry, reverse_append, reverse_singleton, singleton_append,
        List.findSome?_cons]
      cases x.entryOf n <;> rfl
    -- a record that gives its own entry, or leaves the name alone
    have hstep : ((replay recs).apply x n).map FileRec.attrs
        = (x.entryOf n).elim ((replay recs n).map FileRec.attrs) (some ∘ FileRec.attrs) →
        (lastEntry (recs ++ [x]) n).map FileRec.attrs = some r.attrs := by
      intro hx
      rw [← replay_append, hr] at hx
      rw [hlast]
      cases he : x.entryOf n with
      | some f =>
        rw [he] at hx
        exact hx.symm
      | none =>
        rw [he] at hx
        obtain ⟨r', hr', hattrs⟩ := map_eq_some_iff.mp hx.symm
        rw [none_or, ih hrecs hr', hattrs]
    cases x with
    | base fs => exact hstep (recoverAll_attrs fs n _)
    | update f => exact hstep (recover_attrs _ f false n)
    | gcChange f => exact hstep (recover_attrs _ f true n)
    | replace src dst => exact absurd rfl (h (.replace src dst) (by simp))
    | delete m =>
      rw [replay_append] at hr
      by_cases e : n = m
      · subst e
        rw [show (replay recs).apply (.delete n) n = none from update_self _ _ _] at hr
        cases hr
      · exact hstep (congrArg (Option.map FileRec.attrs) (update_of_ne e _ _))

end Contents

/-! ### Tidy tables -/

/-- Each entry of the table is a live object whose own name is the key. -/
structure Table.Tidy (t : Table) : Prop where
  name : ∀ {n p}, t.find n = some p → (t.objs p).name = n
  lt : ∀ {n p}, t.find n = some p → p < t.next
  live : ∀ {n p}, t.find n = some p → t.freed p = false

/-- Each file is listed under its own name. -/
def Table.Named (t : Table) : Prop := ∀ n p, t.find n = some p → (t.objs p).name = n

theorem Table.Tidy.named {t : Table} (h : t.Tidy) : t.Named := fun _ _ => h.name

/-- The contents of a table. -/
def Table.data (t : Table) : Contents := fun n => (t.find n).map fun p =>
  ⟨(t.objs p).name, (t.objs p).level, (t.objs p).size, (t.objs p).map⟩

namespace Table

variable {t : Table}

theorem Tidy.empty : Table.empty.Tidy where
  name := fun h => by rw [find_empty] at h; cases h
  lt := fun h => by rw [find_empty] at h; cases h
  live := fun h => by rw [find_empty] at h; cases h

/-- Different names have different objects. -/
theorem Tidy.inj (h : t.Tidy) {n' : Name} (hn : t.find n = some p)
    (hn' : t.find n' = some p) : n = n' := (h.name hn).symm.trans (h.name hn')
theorem Tidy.alloc (h : t.Tidy) {n : Name} {f : ZnsFile} (hf : f.name = n) :
    ((t.alloc f).1.put n (some t.next)).Tidy := by
  have hfind : ∀ m, ((t.alloc f).1.put n (some t.next)).find m
      = if n = m then some t.next else t.find m := fun m => find_put _ _ _ _
  refine ⟨fun {m p} hm => ?_, fun {m p} hm => ?_, fun {m p} hm => ?_⟩ <;> rw [hfind] at hm <;>
    by_cases e : n = m
  · rw [if_pos e] at hm
    cases hm
    exact (congrArg ZnsFile.name (update_self _ _ _)).trans (hf.trans e)
  · rw [if_neg e] at hm
    exact (congrArg ZnsFile.name (update_of_ne (Nat.ne_of_lt (h.lt hm)) _ _)).trans
      (h.name hm)
  · rw [if_pos e] at hm
    cases hm
    exact Nat.lt_succ_self _
  · rw [if_neg e] at hm
    exact Nat.lt_succ_of_lt (h.lt hm)
  · rw [if_pos e] at hm
    cases hm
    exact update_self _ _ _
  · rw [if_neg e] at hm
    exact (update_of_ne (Nat.ne_of_lt (h.lt hm)) _ _).trans (h.live hm)

theorem Tidy.set (h : t.Tidy) {f : ZnsFile} (hf : f.name = (t.objs p).name) : (t.set p f).Tidy := by
  refine ⟨fun {m q} hm => ?_, fun hm => h.lt hm, fun hm => h.live hm⟩
  rw [objs_set]
  by_cases e : q = p
  · subst e
    rw [update_self, hf]
    exact h.name hm
  · rw [update_of_ne e]
    exact h.name hm

theorem Tidy.erase (h : t.Tidy) (n : Name) : (t.erase n).Tidy := by
  have hfind : ∀ {m p}, (t.erase n).find m = some p → t.find m = some p := fun {m p} hm => by
    rw [find_erase] at hm
    by_cases e : n = m
    · rw [if_pos e] at hm
      cases hm
    · rwa [if_neg e] at hm
  exact ⟨fun hm => h.name (hfind hm), fun hm => h.lt (hfind hm), fun hm => h.live (hfind hm)⟩

theorem Tidy.putNull (h : t.Tidy) (n : Name) : (t.put n none).Tidy := by
  have hfind : ∀ {m p}, (t.put n none).find m = some p → t.find m = some p := fun {m p} hm => by
    rw [find_put] at hm
    by_cases e : n = m
    · rw [if_pos e] at hm
      cases hm
    · rwa [if_neg e] at hm
  exact ⟨fun hm => h.name (hfind hm), fun hm => h.lt (hfind hm), fun hm => h.live (hfind hm)⟩

/-- Putting an object back where it is changes nothing. -/
theorem put_find (h : t.find n = some p) : t.put n (some p) = t := by
  have : t.files.insert n (some p) = t.files := by
    refine Std.ExtTreeMap.ext_getElem? fun m => ?_
    rw [Std.ExtTreeMap.getElem?_insert]
    by_cases e : n = m
    · subst e
      rw [find] at h
      simp only [Std.ReflCmp.compare_self, if_true]
      rw [join_eq_some_iff] at h
      exact h.symm
    · rw [if_neg (by simpa using e)]
  rw [put, this]

theorem Tidy.data_alloc (h : t.Tidy) (n : Name) (f : ZnsFile) :
    ((t.alloc f).1.put n (some t.next)).data
      = update t.data n (some ⟨f.name, f.level, f.size, f.map⟩) := by
  funext m
  rw [data, find_put]
  by_cases e : n = m
  · subst e
    rw [if_pos rfl, update_self, map_some, objs_put,
      show (t.alloc f).1.objs t.next = f from update_self _ _ _]
  · rw [if_neg e, update_of_ne (Ne.symm e), find_alloc, data]
    cases hm : t.find m with
    | none => rfl
    | some p =>
      have hp : (t.alloc f).1.objs p = t.objs p :=
        update_of_ne (Nat.ne_of_lt (h.lt hm)) _ _
      rw [map_some, map_some, objs_put, hp]

theorem Tidy.data_set (h : t.Tidy) (hn : t.find n = some p) (f : ZnsFile) :
    (t.set p f).data = update t.data n (some ⟨f.name, f.level, f.size, f.map⟩) := by
  funext m
  rw [data, find_set, objs_set]
  by_cases e : m = n
  · subst e
    rw [hn, update_self, map_some, update_self]
  · rw [update_of_ne e, data]
    cases hm : t.find m with
    | none => rfl
    | some q =>
      have hq : q ≠ p := fun hq => e (h.inj hm (hq ▸ hn))
      rw [map_some, map_some, update_of_ne hq]

theorem data_erase (n : Name) : (t.erase n).data = update t.data n none := by
  funext m
  rw [data, find_erase]
  by_cases e : n = m
  · subst e
    rw [if_pos rfl, update_self]
    rfl
  · rw [if_neg e, update_of_ne (Ne.symm e)]
    rfl

theorem data_putNull (n : Name) : (t.put n none).data = update t.data n none := by
  funext m
  rw [data, find_put]
  by_cases e : n = m
  · subst e
    rw [if_pos rfl, update_self]
    rfl
  · rw [if_neg e, update_of_ne (Ne.symm e)]
    rfl

theorem data_pieces (h : t.find n = some p) : t.data.pieces n = (t.objs p).map := by
  rw [Contents.pieces, data, h]
  rfl

theorem data_none (h : t.find n = none) : t.data n = none := by
  rw [data, h]
  rfl

/-- **Recovering an entry** keeps the table tidy and does what the entry means. -/
theorem Tidy.recover (h : t.Tidy) (r : FileRec) (replace : Bool) :
    (t.recover r replace).Tidy ∧ (t.recover r replace).data = t.data.recover r replace := by
  rw [Table.recover]
  cases hf : t.find r.name with
  | none =>
    refine ⟨h.alloc rfl, (h.data_alloc r.name _).trans ?_⟩
    rw [Contents.recover, Contents.pieces, data_none hf]
    cases replace <;> rfl
  | some p =>
    have hname := h.name hf
    simp only
    rw [put_find (by rw [find_set, hname]; exact hf)]
    refine ⟨h.set rfl, (h.data_set hf _).trans ?_⟩
    rw [Contents.recover, data_pieces hf, hname]

end Table

/-! ### The replayed table -/

/-- A record whose rename, if it is one, does not find its source. -/
def Rec.Still (A : Contents) : Rec → Prop
  | .replace src _ => A src = none
  | _ => True

/-- A log in which no rename finds its source. -/
def Quiet : Contents → List Rec → Prop
  | _, [] => True
  | A, r :: rs => r.Still A ∧ Quiet (A.apply r) rs

section

variable {t : Table}

theorem Table.Tidy.recoverAll (fs : List FileRec) : ∀ {t : Table}, t.Tidy →
    (fs.foldl (fun t f => t.recover f false) t).Tidy ∧
      (fs.foldl (fun t f => t.recover f false) t).data
        = fs.foldl (fun A f => A.recover f false) t.data := by
  induction fs with
  | nil => exact fun h => ⟨h, rfl⟩
  | cons f fs ih =>
    intro t h
    obtain ⟨h1, h2⟩ := h.recover f false
    rw [foldl_cons, foldl_cons, ← h2]
    exact ih h1

theorem Table.Tidy.apply (h : t.Tidy) {r : Rec} (hr : r.Still t.data) :
    (t.apply r).Tidy ∧ (t.apply r).data = t.data.apply r := by
  cases r with
  | base fs => exact h.recoverAll fs
  | update f => exact h.recover f false
  | replace src dst =>
    have hnone : t.find src = none := by
      have hr : (t.find src).map _ = none := hr
      exact map_eq_none_iff.mp hr
    rw [Table.apply, hnone]
    refine ⟨(h.erase src).putNull dst, ?_⟩
    rw [data_putNull, data_erase, Contents.apply, data_none hnone]
  | delete n => exact ⟨h.erase n, data_erase n⟩
  | gcChange f => exact h.recover f true

/-- A quiet log, applied to a tidy table. -/
theorem Table.Tidy.applyAll (recs : List Rec) : ∀ {t : Table}, t.Tidy → Quiet t.data recs →
    (recs.foldl Table.apply t).Tidy ∧
      (recs.foldl Table.apply t).data = recs.foldl Contents.apply t.data := by
  induction recs with
  | nil => exact fun h _ => ⟨h, rfl⟩
  | cons r recs ih =>
    rintro t h ⟨hr, hq⟩
    obtain ⟨h1, h2⟩ := h.apply hr
    rw [foldl_cons, foldl_cons, ← h2]
    exact ih h1 (h2 ▸ hq)

/-- **The replayed table** of a quiet log is tidy and has the contents of the log. -/
theorem Table.replay_refines {recs : List Rec} (h : Quiet (fun _ => none) recs) :
    (Table.replay recs).Tidy ∧ (Table.replay recs).data = Contents.replay recs := by
  have hdata : Table.empty.data = fun _ => none := by
    funext n
    exact data_none (find_empty n)
  have := Table.Tidy.empty.applyAll recs (hdata ▸ h)
  rwa [hdata] at this

theorem NoReplace.quiet {recs : List Rec} : ∀ {A : Contents}, NoReplace recs → Quiet A recs := by
  induction recs with
  | nil => exact fun _ => trivial
  | cons r recs ih =>
    intro A h
    refine ⟨?_, ih fun r' hr' => h r' (mem_cons_of_mem _ hr')⟩
    cases r with
    | replace src dst => exact absurd rfl (h _ mem_cons_self)
    | _ => trivial

/-! ### Snapshots -/

theorem Table.mem_snapshot {f : FileRec} :
    f ∈ t.snapshot ↔ ∃ n p, t.find n = some p ∧ (t.objs p).entry 0 = f := by
  rw [Table.snapshot, mem_filterMap]
  constructor
  · rintro ⟨⟨n, q⟩, hx, hf⟩
    obtain ⟨p, rfl, rfl⟩ := map_eq_some_iff.mp hf
    exact ⟨n, p, (t.find_eq_some n p).mpr hx, rfl⟩
  · rintro ⟨n, p, hn, rfl⟩
    exact ⟨(n, some p), (t.find_eq_some n p).mp hn, rfl⟩

theorem Table.Named.snapshot_nodup (h : t.Named) : (t.snapshot.map FileRec.name).Nodup := by
  rw [List.Nodup, pairwise_map, Table.snapshot, pairwise_filterMap]
  refine Std.ExtTreeMap.distinct_keys_toList.imp_of_mem fun {x y} hx hy hne => ?_
  intro f hf g hg hfg
  obtain ⟨p, hp, rfl⟩ := map_eq_some_iff.mp hf
  obtain ⟨q, hq, rfl⟩ := map_eq_some_iff.mp hg
  have hx' : t.find x.1 = some p := (t.find_eq_some _ _).mpr (hp ▸ hx)
  have hy' : t.find y.1 = some q := (t.find_eq_some _ _).mpr (hq ▸ hy)
  refine hne (Std.LawfulEqCmp.compare_eq_iff_eq.mpr ?_)
  exact (h _ _ hx').symm.trans (hfg.trans (h _ _ hy'))

theorem Contents.recoverAll_of_not_mem {fs : List FileRec} : ∀ {A : Contents},
    n ∉ fs.map FileRec.name → fs.foldl (fun A f => A.recover f false) A n = A n := by
  induction fs with
  | nil => exact fun _ => rfl
  | cons g fs ih =>
    intro A hn
    rw [map_cons, mem_cons, not_or] at hn
    rw [foldl_cons, ih hn.2, A.recover_of_ne g false hn.1]

/-- The entries of different names do not interfere. -/
theorem Contents.recoverAll_of_mem {fs : List FileRec} : ∀ {A : Contents} {f : FileRec},
    (fs.map FileRec.name).Nodup → f ∈ fs →
    fs.foldl (fun A f => A.recover f false) A f.name
      = some { f with pieces := A.pieces f.name ++ f.pieces } := by
  induction fs with
  | nil => exact fun _ hf => absurd hf not_mem_nil
  | cons g fs ih =>
    intro A f hnd hf
    rw [map_cons, nodup_cons] at hnd
    rw [foldl_cons]
    rcases mem_cons.mp hf with rfl | hf
    · rw [recoverAll_of_not_mem hnd.1]
      exact A.recover_self f false
    · have hne : f.name ≠ g.name := fun e => hnd.1 (e ▸ mem_map_of_mem hf)
      rw [ih hnd.2 hf, Contents.pieces, A.recover_of_ne g false hne]
      rfl

/-- **What a snapshot means**: the files of the table, as their entries have them. -/
theorem Table.Named.replay_snapshot (h : t.Named) (n : Name) :
    Contents.replay [.base t.snapshot] n = (t.find n).map fun p => (t.objs p).entry 0 := by
  show t.snapshot.foldl (fun (A : Contents) f => A.recover f false) (fun _ => none) n = _
  cases hn : t.find n with
  | none =>
    refine Contents.recoverAll_of_not_mem fun hmem => ?_
    obtain ⟨f, hf, rfl⟩ := mem_map.mp hmem
    obtain ⟨m, p, hm, rfl⟩ := mem_snapshot.mp hf
    rw [show ((t.objs p).entry 0).name = m from h m p hm, hm] at hn
    cases hn
  | some p =>
    have hmem : (t.objs p).entry 0 ∈ t.snapshot := mem_snapshot.mpr ⟨n, p, hn, rfl⟩
    have hname : ((t.objs p).entry 0).name = n := h n p hn
    rw [← hname, Contents.recoverAll_of_mem h.snapshot_nodup hmem]
    rfl

theorem Table.Tidy.replay_snapshot (h : t.Tidy) (n : Name) :
    Contents.replay [.base t.snapshot] n = (t.find n).map fun p => (t.objs p).entry 0 :=
  h.named.replay_snapshot n

/-! ### Marking the files of a table -/

/-- Marking changes objects only, and these only by marking them. -/
theorem Table.markAll_spec (fs : List (Name × Option Ptr)) : ∀ t : Table,
    (markAll fs t).files = t.files ∧ (markAll fs t).freed = t.freed ∧
      (markAll fs t).next = t.next ∧
      ∀ p, (some p ∈ fs.map Prod.snd → (markAll fs t).objs p = (t.objs p).marked) ∧
        (some p ∉ fs.map Prod.snd → (markAll fs t).objs p = t.objs p) := by
  induction fs with
  | nil =>
    exact fun t => ⟨rfl, rfl, rfl, fun p => ⟨fun h => absurd h not_mem_nil, fun _ => rfl⟩⟩
  | cons x fs ih =>
    obtain ⟨n, _ | q⟩ := x
    · intro t
      obtain ⟨h1, h2, h3, h4⟩ := ih t
      refine ⟨h1, h2, h3, fun p => ?_⟩
      rw [map_cons, mem_cons, or_iff_right (by simp)]
      exact h4 p
    · intro t
      obtain ⟨h1, h2, h3, h4⟩ := ih (t.set q (t.objs q).marked)
      refine ⟨h1, h2, h3, fun p => ?_⟩
      rw [map_cons, mem_cons, some_inj]
      obtain ⟨h5, h6⟩ := h4 p
      rw [objs_set] at h5 h6
      by_cases e : p = q
      · -- marked here, and perhaps once more later
        subst e
        rw [update_self] at h5 h6
        exact ⟨fun _ => (em _).elim h5 h6, fun h => absurd (Or.inl rfl) h⟩
      · rw [update_of_ne e] at h5 h6
        rw [or_iff_right e]
        exact ⟨h5, h6⟩

@[simp] theorem Table.find_recorded (n : Name) : t.recorded.find n = t.find n := by
  rw [Table.find, Table.recorded, (markAll_spec _ t).1, Table.find]

theorem Table.objs_recorded (h : t.find n = some p) : t.recorded.objs p = (t.objs p).marked := by
  refine ((markAll_spec _ t).2.2.2 p).1 ?_
  exact mem_map_of_mem (f := Prod.snd) ((t.find_eq_some n p).mp h)

theorem Table.Tidy.recorded (h : t.Tidy) : t.recorded.Tidy where
  name := fun {n p} hn => by
    rw [find_recorded] at hn
    rw [objs_recorded hn]
    exact h.name hn
  lt := fun {n p} hn => by
    rw [find_recorded] at hn
    rw [Table.recorded, (markAll_spec _ t).2.2.1]
    exact h.lt hn
  live := fun {n p} hn => by
    rw [find_recorded] at hn
    rw [Table.recorded, (markAll_spec _ t).2.1]
    exact h.live hn

end

/-! ### A table with one file -/

/-- The table with the file `f` only. -/
def Table.single (f : ZnsFile) : Table := (Table.empty.alloc f).1.put f.name (some 0)

section

variable (f : ZnsFile)

theorem Table.find_single (n : Name) :
    (Table.single f).find n = if f.name = n then some 0 else none := by
  rw [Table.single, find_put, find_alloc, find_empty]

@[simp] theorem Table.find_single_self : (Table.single f).find f.name = some 0 := by
  rw [find_single, if_pos rfl]

@[simp] theorem Table.objs_single : (Table.single f).objs 0 = f := by
  show update Table.empty.objs 0 f 0 = f
  exact update_self _ _ _

theorem Table.set_single {f' : ZnsFile} (hf : f'.name = f.name) :
    (Table.single f).set 0 f' = Table.single f' := by
  rw [Table.set, Table.single, Table.single, hf, Table.put, Table.put]
  congr 1
  exact update_idem _ _ _

theorem Table.Tidy.single : (Table.single f).Tidy := Table.Tidy.empty.alloc rfl

theorem Table.recorded_single : (Table.single f).recorded = Table.single f.marked := by
  show (Table.single f).set 0 ((Table.single f).objs 0).marked = _
  rw [objs_single]
  exact set_single f rfl

theorem Table.snapshot_single : (Table.single f).snapshot = [f.entry 0] := rfl

variable {f}

/-- It can be written. -/
theorem SnapOk.single (hname : f.name.length ≤ fileNameLen) (hmap : f.map.length ≤ maxPieces) :
    SnapOk (Table.single f) where
  live := fun n p hn => by
    rw [find_single] at hn
    split at hn <;> cases hn
    exact ⟨(Table.Tidy.single f).live (find_single_self f), by rwa [objs_single]⟩
  fits := by
    rw [snapshot_single, flatMap_singleton, FileRec.bytes_length hname]
    have hlen : (f.entry 0).pieces.length = f.map.length := rfl
    rw [hlen]
    simp only [maxPieces, metaZoneHeadLen, metadataHeadLen, zrocksFileMetaLen, zrocksMapLen,
      znsAligment, fileMetadataBufSize] at *
    omega

/-- An environment with this table, right after the first load. -/
theorem exists_logged_single (g : MdSize) (f : ZnsFile) :
    ∃ e : Env, e.tbl = .single f ∧ Logged e 0 [.base []] := by
  obtain ⟨e, -, -, hl, -⟩ := load_fresh g 0
  exact ⟨{ e with tbl := .single f }, rfl, hl.setTbl _⟩

end

end Xztl
