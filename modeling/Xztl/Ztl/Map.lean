import Mathlib.Data.List.Perm.Subperm
import Xztl.Support.Runs
import Xztl.Ztl.Types

/-!
# Ztl — the mapping table (`ztl-map.c`, `ztl-mpe.c`)

The table maps ids to 64-bit values.  It is cut into 256 pages; a word of the page table is zero, or
the address of the cache entry that has the page, with the flag in bit 63.  A page is cached when it is
first used, filled with zeros, and would be evicted, with its values, when no cache entry is free.
There are 8192 cache entries, so this never happens.

`MapInv` relates page table, lists and buffers to a total map of ids to values.
**`map_law`** says that every sequence of calls gives what this map gives, and that a page that is
cached stays where it is.  It is about ids of the table: an id beyond it is taken for another one, or
goes past the table, and none is refused (`out_of_range_refused_iff`).
-/

namespace Xztl

open Function List

/-- `MAP_BUF_PGS`, the entries of the cache; `MAP_N_CACHES` is one. -/
def mapBufPgs : Nat := 8192

/-- `ZTL_MPE_CPGS`, the pages of the table. -/
def ztlMpeCpgs : Nat := 256

/-- `ZTL_MPE_PG_SEC`. -/
def ztlMpePgSec : Nat := 8

/-- `XZTL_ZTL_MAP_ERR`. -/
def xztlZtlMapErr : Nat := 0x15

/-- `MAP_ADDR_FLAG`. -/
def mapAddrFlag : Nat := 2 ^ 63

/-- The sector size of the device, and the array `pg_buf` of cache entries as `calloc` gives it: not at
zero, and in the lower half of the address space. -/
structure MapArea where
  nbytes : Nat
  pgBuf : Nat
  entSz : Nat
  nbytes_pos : 0 < nbytes
  nbytes_lt : ztlMpePgSec * nbytes < 2 ^ 32
  pgBuf_pos : 0 < pgBuf
  entSz_pos : 0 < entSz
  le : pgBuf + entSz * mapBufPgs ≤ 2 ^ 63

/-- `map_pg_sz`. -/
def MapArea.mapPgSz (g : MapArea) : Nat := ztlMpePgSec * g.nbytes % 2 ^ 32

/-- `map_ent_per_pg`: an entry has 8 bytes. -/
def MapArea.mapEntPerPg (g : MapArea) : Nat := g.mapPgSz / 8

/-- The address of `pg_buf[i]`. -/
def MapArea.entry (g : MapArea) (i : Nat) : Nat := g.pgBuf + g.entSz * i

/-- `struct map_cache_entry`: `md_entry` is the index of the word it points to. -/
structure MapCacheEntry where
  dirty : Bool
  buf : Nat → Nat
  addr : Nat
  mdEntry : Option Nat

/-- The page table, the cache entries by address, the two lists and their lengths. -/
structure MapState where
  tbl : Nat → Nat
  ent : Nat → MapCacheEntry
  mbfHead : List Nat
  mbuHead : List Nat
  nfree : Nat
  nused : Nat

def MapState.setEnt (s : MapState) (a : Nat) (e : MapCacheEntry) : MapState :=
  { s with ent := update s.ent a e }

/-- `map_init_cache` and `ztl_mpe_create`. -/
def mapInit (g : MapArea) : MapState where
  tbl _ := 0
  ent _ := ⟨false, fun _ => 0, 0, none⟩
  mbfHead := (List.range mapBufPgs).foldl (fun l i => g.entry i :: l) []
  mbuHead := []
  nfree := mapBufPgs
  nused := 0

/-- `map_evict_pg_cache`: the page that was used least recently loses its entry. -/
def mapEvictPgCache (s : MapState) : Except Stop (MapState × Nat) :=
  match s.mbuHead with
  | [] => .ok (s, xztlZtlMapErr)
  | a :: rest =>
    let e := s.ent a
    match e.mdEntry with
    | none => .error .dangling
    | some md =>
      .ok ({ tbl := update s.tbl md e.addr
             ent := update s.ent a { e with addr := 0, mdEntry := none }
             mbfHead := a :: s.mbfHead
             mbuHead := rest
             nfree := s.nfree + 1
             nused := s.nused - 1 }, xztlOk)

/-- The part of `map_load_pg_cache` behind the eviction.  Reading a page that was evicted succeeds and
reads nothing, so that the buffer is left as it is. -/
def mapTakeEntry (s : MapState) (md : Nat) : MapState × Nat :=
  match s.mbfHead with
  | [] => (s, xztlZtlMapErr)
  | a :: rest =>
    let e := { s.ent a with mdEntry := some md }
    let e := if s.tbl md = 0 then { e with buf := fun _ => 0, dirty := true } else e
    ({ tbl := update s.tbl md (a ||| mapAddrFlag)
       ent := update s.ent a e
       mbfHead := rest
       mbuHead := s.mbuHead ++ [a]
       nfree := s.nfree - 1
       nused := s.nused + 1 }, xztlOk)

/-- `map_load_pg_cache`.  There are no checkpoints: `cp_running` is zero. -/
def mapLoadPgCache (s : MapState) (md : Nat) : Except Stop (MapState × Nat) :=
  if s.mbfHead = [] then do
    let (s, ret) ← mapEvictPgCache s
    if ret ≠ xztlOk then return (s, xztlZtlMapErr)
    return mapTakeEntry s md
  else .ok (mapTakeEntry s md)

/-- `map_get_cache_entry`: the address of the entry, unless the page cannot be loaded.  An entry that
is used goes to the tail. -/
def mapGetCacheEntry (g : MapArea) (s : MapState) (id : Nat) :
    Except Stop (MapState × Option Nat) :=
  let pgOff := id / g.mapEntPerPg % 2 ^ 32
  if pgOff ≥ ztlMpeCpgs then .error .outOfBounds
  else if s.tbl pgOff / mapAddrFlag % 2 = 0 then do
    let (s, ret) ← mapLoadPgCache s pgOff
    if ret ≠ xztlOk then return (s, none)
    return (s, some (s.tbl pgOff % mapAddrFlag))
  else
    let a := s.tbl pgOff % mapAddrFlag
    .ok ({ s with mbuHead := s.mbuHead.erase a ++ [a] }, some a)

/-- `map_upsert`: the return value, and `*old` after the call. -/
def mapUpsert (g : MapArea) (s : MapState) (id val old oldCaller : Nat) :
    Except Stop (MapState × Nat × Nat) :=
  let entOff := id % g.mapEntPerPg % 2 ^ 32
  if entOff ≥ g.mapEntPerPg then .ok (s, xztlZtlMapErr, old)
  else do
    match ← mapGetCacheEntry g s id with
    | (s, none) => return (s, xztlZtlMapErr, old)
    | (s, some a) =>
      let e := s.ent a
      if oldCaller ≠ 0 ∧ e.buf entOff ≠ oldCaller then
        return (s, xztlZtlMapErr, e.buf entOff)
      return (s.setEnt a { e with buf := update e.buf entOff val }, xztlOk, e.buf entOff)

/-- `map_read`: the 40 bits of the offset, or `AND64` when there is no entry. -/
def mapRead (g : MapArea) (s : MapState) (id : Nat) : Except Stop (MapState × Nat) :=
  let entOff := id % g.mapEntPerPg % 2 ^ 32
  if entOff ≥ g.mapEntPerPg then .ok (s, 2 ^ 64 - 1)
  else do
    match ← mapGetCacheEntry g s id with
    | (s, none) => return (s, 2 ^ 64 - 1)
    | (s, some a) => return (s, (s.ent a).buf entOff % 2 ^ 40)

/-! ### The map behind the table -/

/-- The page `pg` is cached in the entry at `a`. -/
structure MapState.CachedAt (s : MapState) (pg a : Nat) : Prop where
  mem : a ∈ s.mbuHead
  tbl : s.tbl pg = mapAddrFlag + a
  md : (s.ent a).mdEntry = some pg

/-- A page is not cached and has only zeros, or it is, with its values. -/
inductive PageAt (g : MapArea) (s : MapState) (M : Nat → Nat) (pg : Nat) : Prop where
  | absent (tbl : s.tbl pg = 0) (zero : ∀ off < g.mapEntPerPg, M (g.mapEntPerPg * pg + off) = 0)
  | cached (a : Nat) (here : s.CachedAt pg a)
      (buf : ∀ off < g.mapEntPerPg, (s.ent a).buf off = M (g.mapEntPerPg * pg + off))

/-- The table holds the map `M`. -/
structure MapInv (g : MapArea) (s : MapState) (M : Nat → Nat) : Prop where
  entries : (s.mbfHead ++ s.mbuHead).Perm ((List.range mapBufPgs).map g.entry)
  used : ∀ a ∈ s.mbuHead, ∃ pg < ztlMpeCpgs, s.CachedAt pg a
  pages : ∀ pg < ztlMpeCpgs, PageAt g s M pg
  nfree : s.nfree = s.mbfHead.length
  nused : s.nused = s.mbuHead.length

section

variable {g : MapArea} {s s' : MapState} {M : Nat → Nat} {a pg id : Nat}

theorem MapArea.mapEntPerPg_eq (g : MapArea) : g.mapEntPerPg = g.nbytes := by
  rw [mapEntPerPg, mapPgSz, Nat.mod_eq_of_lt g.nbytes_lt]
  exact Nat.mul_div_cancel_left _ (by decide)

theorem MapArea.entry_lt {i : Nat} (g : MapArea) (hi : i < mapBufPgs) : g.entry i < 2 ^ 63 := by
  have hle := g.le
  have hpos := g.entSz_pos
  have hmul : g.entSz * (i + 1) ≤ g.entSz * mapBufPgs := Nat.mul_le_mul_left _ hi
  rw [Nat.mul_succ] at hmul
  rw [entry]
  omega

theorem MapArea.entry_inj (g : MapArea) {i j : Nat} (h : g.entry i = g.entry j) : i = j := by
  rw [entry, entry] at h
  exact Nat.eq_of_mul_eq_mul_left g.entSz_pos (by omega)

theorem MapArea.nodup_entries (g : MapArea) : ((List.range mapBufPgs).map g.entry).Nodup :=
  nodup_range.map fun _ _ => g.entry_inj

theorem MapInv.lt (h : MapInv g s M) (ha : a ∈ s.mbfHead ∨ a ∈ s.mbuHead) : a < 2 ^ 63 := by
  obtain ⟨i, hi, rfl⟩ := mem_map.mp (h.entries.mem_iff.mp (mem_append.mpr ha))
  exact g.entry_lt (mem_range.mp hi)

theorem MapInv.nodup (h : MapInv g s M) : (s.mbfHead ++ s.mbuHead).Nodup :=
  h.entries.nodup_iff.mpr g.nodup_entries

/-- **The count**: different entries in use have different pages, so there are at most 256. -/
theorem MapInv.used_length_le (h : MapInv g s M) : s.mbuHead.length ≤ ztlMpeCpgs := by
  have hnd : (s.mbuHead.map fun a => (s.ent a).mdEntry.getD 0).Nodup := by
    refine (nodup_append.mp h.nodup).2.1.map_on fun a ha b hb hab => ?_
    obtain ⟨pg, -, hpg⟩ := h.used a ha
    obtain ⟨pg', -, hpg'⟩ := h.used b hb
    rw [hpg.md, hpg'.md] at hab
    have hab : pg = pg' := hab
    have htbl := hpg.tbl
    rw [hab, hpg'.tbl] at htbl
    omega
  have hsub : (s.mbuHead.map fun a => (s.ent a).mdEntry.getD 0) ⊆ List.range ztlMpeCpgs := by
    intro pg hpg
    obtain ⟨a, ha, rfl⟩ := mem_map.mp hpg
    obtain ⟨pg, hlt, hpg⟩ := h.used a ha
    rw [hpg.md]
    exact mem_range.mpr hlt
  have hle := (hnd.subperm hsub).length_le
  rwa [length_map, length_range] at hle

/-- **There is always a free entry**, so that nothing is evicted. -/
theorem MapInv.free_ne_nil (h : MapInv g s M) : s.mbfHead ≠ [] := by
  intro hnil
  have hlen := h.entries.length_eq
  have hle := h.used_length_le
  rw [hnil, nil_append, length_map, length_range] at hlen
  rw [hlen] at hle
  exact absurd hle (by decide)

theorem flag_lor (ha : a < 2 ^ 63) : a ||| mapAddrFlag = mapAddrFlag + a := by
  rw [Nat.or_comm, mapAddrFlag]
  have := Nat.two_pow_add_eq_or_of_lt ha 1
  rw [Nat.mul_one] at this
  exact this.symm

/-- The flag and the address of a cached page come back out of the word. -/
theorem flag_word (ha : a < 2 ^ 63) :
    (mapAddrFlag + a) / mapAddrFlag % 2 = 1 ∧ (mapAddrFlag + a) % mapAddrFlag = a := by
  rw [mapAddrFlag]
  omega

theorem foldl_insertHead (f : Nat → Nat) (is : List Nat) :
    is.foldl (fun l i => f i :: l) [] = (is.map f).reverse := by
  rw [← foldl_map (f := f) (g := fun l a => a :: l), foldl_flip_cons_eq_append',
    append_nil]

theorem mapInit_mbfHead (g : MapArea) :
    (mapInit g).mbfHead = ((List.range mapBufPgs).map g.entry).reverse := by
  rw [mapInit, foldl_insertHead]

theorem MapInv.init (g : MapArea) : MapInv g (mapInit g) fun _ => 0 where
  entries := by
    rw [mapInit_mbfHead]
    exact (append_nil _).symm ▸ reverse_perm _
  used := nofun
  pages pg _ := .absent rfl fun _ _ => rfl
  nfree := by
    rw [mapInit_mbfHead, length_reverse, length_map, length_range]
    rfl
  nused := rfl

/-- **Loading a page** that is not cached, into the first free entry. -/
theorem MapInv.load (h : MapInv g s M) (hpg : pg < ztlMpeCpgs) (h0 : s.tbl pg = 0)
    (hz : ∀ off < g.mapEntPerPg, M (g.mapEntPerPg * pg + off) = 0) :
    ∃ s' a, mapLoadPgCache s pg = .ok (s', xztlOk) ∧ MapInv g s' M ∧ s'.CachedAt pg a ∧
      (∀ off < g.mapEntPerPg, (s'.ent a).buf off = M (g.mapEntPerPg * pg + off)) ∧
      ∀ pg' b, s.CachedAt pg' b → s'.CachedAt pg' b := by
  obtain ⟨a, rest, hfree⟩ := exists_cons_of_ne_nil h.free_ne_nil
  have hlt : a < 2 ^ 63 := h.lt (Or.inl (hfree ▸ mem_cons_self))
  have hnd := h.nodup
  rw [hfree] at hnd
  have hnew : ∀ b ∈ s.mbuHead, b ≠ a := fun b hb e =>
    (nodup_cons.mp hnd).1 (mem_append_right _ (e ▸ hb))
  obtain ⟨e, he⟩ : ∃ e : MapCacheEntry,
    e = { s.ent a with mdEntry := some pg, buf := fun _ => 0, dirty := true } := ⟨_, rfl⟩
  obtain ⟨s', hs'⟩ : ∃ s' : MapState, s' =
    { tbl := update s.tbl pg (mapAddrFlag + a), ent := update s.ent a e
      mbfHead := rest, mbuHead := s.mbuHead ++ [a], nfree := s.nfree - 1
      nused := s.nused + 1 } := ⟨_, rfl⟩
  have hload : mapLoadPgCache s pg = .ok (s', xztlOk) := by
    rw [mapLoadPgCache, if_neg h.free_ne_nil, mapTakeEntry, hfree]
    simp only [h0, if_true, flag_lor hlt, hs', he]
  have hself : s'.ent a = e := by
    rw [hs']
    exact update_self _ _ _
  have hother : ∀ {b}, b ∈ s.mbuHead → s'.ent b = s.ent b := fun hb => by
    rw [hs']
    exact update_of_ne (hnew _ hb) _ _
  have hused : s'.mbuHead = s.mbuHead ++ [a] := by rw [hs']
  have hhere : s'.CachedAt pg a := by
    refine ⟨hused ▸ mem_append_right _ (mem_singleton_self a), ?_, ?_⟩
    · rw [hs']
      exact update_self _ _ _
    · rw [hself, he]
  -- the other pages stay in their entries
  have htbl : ∀ {pg'}, pg' ≠ pg → s'.tbl pg' = s.tbl pg' := fun hne => by
    rw [hs']
    exact update_of_ne hne _ _
  have hkeep : ∀ pg' b, s.CachedAt pg' b → s'.CachedAt pg' b := by
    intro pg' b hb
    have hne : pg' ≠ pg := fun e' => by
      have hb := hb.tbl
      rw [e', h0, mapAddrFlag] at hb
      omega
    refine ⟨hused ▸ mem_append_left _ hb.mem, (htbl hne).trans hb.tbl, ?_⟩
    rw [hother hb.mem]
    exact hb.md
  have hbuf : ∀ off < g.mapEntPerPg, (s'.ent a).buf off = M (g.mapEntPerPg * pg + off) := by
    intro off hoff
    rw [hself, he, hz off hoff]
  refine ⟨s', a, hload, ⟨?_, fun b hb => ?_, fun pg' hpg' => ?_, ?_, ?_⟩, hhere, hbuf, hkeep⟩
  · have hperm : (rest ++ (s.mbuHead ++ [a])).Perm (a :: rest ++ s.mbuHead) := by
      rw [← append_assoc]
      exact perm_append_singleton a _
    rw [hs']
    exact hperm.trans (hfree ▸ h.entries)
  · rw [hused] at hb
    rcases mem_append.mp hb with hb | hb
    · obtain ⟨pg', hpg', hc⟩ := h.used b hb
      exact ⟨pg', hpg', hkeep pg' b hc⟩
    · exact ⟨pg, hpg, (mem_singleton.mp hb).symm ▸ hhere⟩
  · by_cases hne : pg' = pg
    · exact hne ▸ .cached a hhere hbuf
    · cases h.pages pg' hpg' with
      | absent tbl zero => exact .absent ((htbl hne).trans tbl) zero
      | cached b here buf =>
        refine .cached b (hkeep pg' b here) fun off hoff => ?_
        rw [hother here.mem]
        exact buf off hoff
  · rw [hs']
    rw [h.nfree, hfree]
    rfl
  · rw [hused, length_append, ← h.nused, hs']
    rfl

/-- A page in use goes to the tail of its list. -/
theorem MapInv.touch (h : MapInv g s M) (hc : s.CachedAt pg a) :
    MapInv g { s with mbuHead := s.mbuHead.erase a ++ [a] } M ∧
      ∀ pg' b, s.CachedAt pg' b →
        MapState.CachedAt { s with mbuHead := s.mbuHead.erase a ++ [a] } pg' b := by
  have hperm : (s.mbuHead.erase a ++ [a]).Perm s.mbuHead :=
    (perm_append_singleton a _).trans (perm_cons_erase hc.mem).symm
  have hkeep : ∀ pg' b, s.CachedAt pg' b →
      MapState.CachedAt { s with mbuHead := s.mbuHead.erase a ++ [a] } pg' b :=
    fun _ _ hb => ⟨hperm.mem_iff.mpr hb.mem, hb.tbl, hb.md⟩
  refine ⟨⟨(hperm.append_left _).trans h.entries, fun b hb => ?_, fun pg' hpg' => ?_, h.nfree,
    h.nused.trans hperm.length_eq.symm⟩, hkeep⟩
  · obtain ⟨pg', hpg', hb⟩ := h.used b (hperm.mem_iff.mp hb)
    exact ⟨pg', hpg', hkeep pg' b hb⟩
  · cases h.pages pg' hpg' with
    | absent tbl zero => exact .absent tbl zero
    | cached b here buf => exact .cached b (hkeep pg' b here) buf

/-- **The entry of an id**: its page is cached afterwards, and the map is the same. -/
theorem MapInv.getCacheEntry (h : MapInv g s M) (hid : id < ztlMpeCpgs * g.mapEntPerPg) :
    ∃ s' a, mapGetCacheEntry g s id = .ok (s', some a) ∧ MapInv g s' M ∧
      s'.CachedAt (id / g.mapEntPerPg) a ∧
      (∀ off < g.mapEntPerPg,
        (s'.ent a).buf off = M (g.mapEntPerPg * (id / g.mapEntPerPg) + off)) ∧
      ∀ pg b, s.CachedAt pg b → s'.CachedAt pg b := by
  have hpg : id / g.mapEntPerPg < ztlMpeCpgs := Nat.div_lt_of_lt_mul (by rwa [Nat.mul_comm])
  have hmod : id / g.mapEntPerPg % 2 ^ 32 = id / g.mapEntPerPg :=
    Nat.mod_eq_of_lt (lt_trans hpg (by decide))
  rw [mapGetCacheEntry]
  simp only [hmod]
  rw [if_neg (Nat.not_le_of_lt hpg)]
  cases h.pages _ hpg with
  | absent tbl zero =>
    obtain ⟨s', a, hl, hi, hc, hbuf, hkeep⟩ := h.load hpg tbl zero
    obtain ⟨-, haddr⟩ := flag_word (hi.lt (Or.inr hc.mem))
    refine ⟨s', a, ?_, hi, hc, hbuf, hkeep⟩
    rw [tbl, if_pos (by decide), hl]
    show Except.ok (s', some (s'.tbl (id / g.mapEntPerPg) % mapAddrFlag)) = _
    rw [hc.tbl, haddr]
  | cached a here buf =>
    obtain ⟨hflag, haddr⟩ := flag_word (h.lt (Or.inr here.mem))
    obtain ⟨hi, hkeep⟩ := h.touch here
    refine ⟨_, a, ?_, hi, hkeep _ _ here, buf, hkeep⟩
    rw [here.tbl, hflag, haddr, if_neg (by decide)]

theorem MapInv.store (h : MapInv g s M) (hpg : pg < ztlMpeCpgs) (hc : s.CachedAt pg a) {off : Nat}
    (hoff : off < g.mapEntPerPg) (val : Nat)
    (hbuf : ∀ off < g.mapEntPerPg, (s.ent a).buf off = M (g.mapEntPerPg * pg + off)) :
    MapInv g (s.setEnt a { s.ent a with buf := update (s.ent a).buf off val })
        (update M (g.mapEntPerPg * pg + off) val) ∧
      ∀ pg' b, s.CachedAt pg' b →
        (s.setEnt a { s.ent a with buf := update (s.ent a).buf off val }).CachedAt pg' b := by
  obtain ⟨s', hs'⟩ : ∃ s', s' = s.setEnt a
    { s.ent a with buf := update (s.ent a).buf off val } := ⟨_, rfl⟩
  have hself : s'.ent a = { s.ent a with buf := update (s.ent a).buf off val } := by
    rw [hs']
    exact update_self _ _ _
  have hother : ∀ {b}, b ≠ a → s'.ent b = s.ent b := fun hb => by
    rw [hs']
    exact update_of_ne hb _ _
  rw [← hs']
  have hkeep : ∀ pg' b, s.CachedAt pg' b → s'.CachedAt pg' b := by
    intro pg' b hb
    refine ⟨by rw [hs']; exact hb.mem, by rw [hs']; exact hb.tbl, ?_⟩
    by_cases e : b = a
    · rw [e, hself, ← e]
      exact hb.md
    · rw [hother e]
      exact hb.md
  -- the ids of another page
  have hne : ∀ {pg' off'}, pg' ≠ pg → off' < g.mapEntPerPg →
      g.mapEntPerPg * pg' + off' ≠ g.mapEntPerPg * pg + off := by
    intro pg' off' hpg' hoff' e
    have hdiv := congrArg (· / g.mapEntPerPg) e
    simp only [Nat.mul_add_div (Nat.zero_lt_of_lt hoff), Nat.div_eq_of_lt hoff',
      Nat.div_eq_of_lt hoff, Nat.add_zero] at hdiv
    exact hpg' hdiv
  refine ⟨⟨by rw [hs']; exact h.entries, fun b hb => ?_, fun pg' hpg' => ?_,
    by rw [hs']; exact h.nfree, by rw [hs']; exact h.nused⟩, hkeep⟩
  · obtain ⟨pg', hpg', hb⟩ := h.used b (by rw [hs'] at hb; exact hb)
    exact ⟨pg', hpg', hkeep pg' b hb⟩
  · by_cases e : pg' = pg
    · subst e
      refine .cached a (hkeep pg' a hc) fun off' hoff' => ?_
      rw [hself]
      by_cases e' : off' = off
      · rw [e', update_self]
        exact update_self _ _ _
      · rw [update_of_ne (by omega)]
        exact (update_of_ne e' _ _).trans (hbuf off' hoff')
    · cases h.pages pg' hpg' with
      | absent tbl zero =>
        refine .absent (by rw [hs']; exact tbl) fun off' hoff' => ?_
        rw [update_of_ne (hne e hoff')]
        exact zero off' hoff'
      | cached b here buf =>
        have hba : b ≠ a := fun e' => by
          have := here.md
          rw [e', hc.md] at this
          exact e (Option.some.inj this).symm
        refine .cached b (hkeep pg' b here) fun off' hoff' => ?_
        rw [hother hba, update_of_ne (hne e hoff')]
        exact buf off' hoff'

end

/-! ### Sequences of calls -/

/-- A call; `old` is what `*old` is before it. -/
inductive MapOp where
  | upsert (id val old oldCaller : Nat)
  | read (id : Nat)

/-- What a call gives: the return value and `*old`, or the value that is read. -/
inductive MapOut where
  | upserted (ret old : Nat)
  | value (v : Nat)
deriving DecidableEq, Repr

def MapOp.id : MapOp → Nat
  | upsert id _ _ _ => id
  | read id => id

/-- The call on the table. -/
def MapOp.run (g : MapArea) (s : MapState) : MapOp → Except Stop (MapState × MapOut)
  | upsert id val old oldCaller => do
      let (s, ret, old) ← mapUpsert g s id val old oldCaller
      return (s, .upserted ret old)
  | read id => do
      let (s, v) ← mapRead g s id
      return (s, .value v)

/-- **The law**: the call on a total map of ids to values. -/
def MapOp.law (M : Nat → Nat) : MapOp → (Nat → Nat) × MapOut
  | upsert id val _ oldCaller =>
    if oldCaller = 0 ∨ oldCaller = M id then
      (update M id val, .upserted xztlOk (M id))
    else (M, .upserted xztlZtlMapErr (M id))
  | read id => (M, .value (M id % 2 ^ 40))

def mapRun (g : MapArea) : MapState → List MapOp → Except Stop (MapState × List MapOut)
  | s, [] => .ok (s, [])
  | s, op :: ops => do
      let (s, out) ← op.run g s
      let (s, outs) ← mapRun g s ops
      return (s, out :: outs)

def lawRun : (Nat → Nat) → List MapOp → (Nat → Nat) × List MapOut
  | M, [] => (M, [])
  | M, op :: ops => ((lawRun (op.law M).1 ops).1, (op.law M).2 :: (lawRun (op.law M).1 ops).2)

section

variable {g : MapArea} {s : MapState} {M : Nat → Nat}

/-- **A call** gives what the law gives, and its page is cached afterwards. -/
theorem MapInv.step (h : MapInv g s M) (op : MapOp) (hid : op.id < ztlMpeCpgs * g.mapEntPerPg) :
    ∃ s', op.run g s = .ok (s', (op.law M).2) ∧ MapInv g s' (op.law M).1 ∧
      (∃ a, s'.CachedAt (op.id / g.mapEntPerPg) a) ∧
      ∀ pg b, s.CachedAt pg b → s'.CachedAt pg b := by
  obtain ⟨s1, a, hget, hi, hc, hbuf, hkeep⟩ := h.getCacheEntry hid
  have hpos : 0 < g.mapEntPerPg := by rw [g.mapEntPerPg_eq]; exact g.nbytes_pos
  have hsmall : g.mapEntPerPg < 2 ^ 32 := by
    have := g.nbytes_lt
    rw [g.mapEntPerPg_eq]
    simp only [ztlMpePgSec] at this
    omega
  have hoff := Nat.mod_lt op.id hpos
  have hmod : op.id % g.mapEntPerPg % 2 ^ 32 = op.id % g.mapEntPerPg :=
    Nat.mod_eq_of_lt (lt_trans hoff hsmall)
  have hval := hbuf _ hoff
  rw [Nat.div_add_mod] at hval
  cases op with
  | read id =>
    have hget : mapGetCacheEntry g s id = .ok (s1, some a) := hget
    have hmod : id % g.mapEntPerPg % 2 ^ 32 = id % g.mapEntPerPg := hmod
    have hval : (s1.ent a).buf (id % g.mapEntPerPg) = M id := hval
    have hoff : ¬ id % g.mapEntPerPg ≥ g.mapEntPerPg := Nat.not_le_of_lt hoff
    refine ⟨s1, ?_, hi, ⟨a, hc⟩, hkeep⟩
    rw [MapOp.run, mapRead]
    simp only [hmod, if_neg hoff, hget, bind, Except.bind, hval]
    rfl
  | upsert id val old oldCaller =>
    have hget : mapGetCacheEntry g s id = .ok (s1, some a) := hget
    have hmod : id % g.mapEntPerPg % 2 ^ 32 = id % g.mapEntPerPg := hmod
    have hval : (s1.ent a).buf (id % g.mapEntPerPg) = M id := hval
    have hin : ¬ id % g.mapEntPerPg ≥ g.mapEntPerPg := Nat.not_le_of_lt hoff
    have hpg : id / g.mapEntPerPg < ztlMpeCpgs :=
      Nat.div_lt_of_lt_mul (by rw [Nat.mul_comm]; exact hid)
    rw [MapOp.run, mapUpsert, MapOp.law]
    simp only [hmod, if_neg hin, hget, bind, Except.bind, hval]
    by_cases hcall : oldCaller = 0 ∨ oldCaller = M id
    · rw [if_pos hcall, if_neg (fun hn => hcall.elim hn.1 fun e => hn.2 e.symm)]
      obtain ⟨hi', hkeep'⟩ := hi.store hpg hc hoff val hbuf
      have hidx : g.mapEntPerPg * (id / g.mapEntPerPg) + id % g.mapEntPerPg = id :=
        Nat.div_add_mod _ _
      rw [show (MapOp.upsert id val old oldCaller).id = id from rfl, hidx] at hi'
      exact ⟨_, rfl, hi', ⟨a, hkeep' _ _ hc⟩, fun pg b hb => hkeep' _ _ (hkeep pg b hb)⟩
    · obtain ⟨h1, h2⟩ := not_or.mp hcall
      rw [if_neg hcall, if_pos ⟨h1, Ne.symm h2⟩]
      exact ⟨s1, rfl, hi, ⟨a, hc⟩, hkeep⟩

/-- **A sequence of calls**, by induction: the table holds the map of the law throughout. -/
theorem MapInv.run (ops : List MapOp) : ∀ {s : MapState} {M : Nat → Nat}, MapInv g s M →
    (∀ op ∈ ops, op.id < ztlMpeCpgs * g.mapEntPerPg) →
    ∃ s', mapRun g s ops = .ok (s', (lawRun M ops).2) ∧ MapInv g s' (lawRun M ops).1 ∧
      (∀ op ∈ ops, ∃ a, s'.CachedAt (op.id / g.mapEntPerPg) a) ∧
      ∀ pg b, s.CachedAt pg b → s'.CachedAt pg b := by
  induction ops with
  | nil => exact fun h _ => ⟨_, rfl, h, fun _ h => absurd h not_mem_nil, fun _ _ h => h⟩
  | cons op ops ih =>
    intro s M h hid
    obtain ⟨s1, he, h1, ⟨a, ha⟩, hk1⟩ := h.step op (hid op mem_cons_self)
    obtain ⟨s', hr, h', hc, hk'⟩ := ih h1 fun o ho => hid o (mem_cons_of_mem _ ho)
    refine ⟨s', ?_, h', fun o ho => ?_, fun pg b hb => hk' pg b (hk1 pg b hb)⟩
    · rw [mapRun, he]
      show (mapRun g s1 ops >>= fun r => pure (r.1, (op.law M).2 :: r.2)) = _
      rw [hr]
      rfl
    · rcases mem_cons.mp ho with rfl | ho
      · exact ⟨a, hk' _ _ ha⟩
      · exact hc o ho

end

/-- **The mapping table.**  Every sequence of calls with ids of the table gives what a total map gives
that starts with zeros; afterwards the pages of these ids are cached, and whatever calls follow, they
stay cached in the same entries. -/
theorem map_law (g : MapArea) (ops ops' : List MapOp)
    (h : ∀ op ∈ ops ++ ops', op.id < ztlMpeCpgs * g.mapEntPerPg) :
    ∃ s s', mapRun g (mapInit g) ops = .ok (s, (lawRun (fun _ => 0) ops).2) ∧
      mapRun g s ops' = .ok (s', (lawRun (lawRun (fun _ => 0) ops).1 ops').2) ∧
      (∀ op ∈ ops, ∃ a, s.CachedAt (op.id / g.mapEntPerPg) a) ∧
      ∀ pg a, s.CachedAt pg a → s'.CachedAt pg a := by
  obtain ⟨s, hr, hi, hc, -⟩ := (MapInv.init g).run ops fun op ho => h op (mem_append_left _ ho)
  obtain ⟨s', hr', -, -, hk⟩ := hi.run ops' fun op ho => h op (mem_append_right _ ho)
  exact ⟨s, s', hr, hr', hc, hk⟩

/-- Sectors of 4096 bytes, and cache entries of 96. -/
def mapArea : MapArea :=
  ⟨4096, 4096, 96, by decide, by decide, by decide, by decide, by decide⟩

/-- An id of the second page is set to 5, then to 7 by a caller that knows the 5, and not to 9 by one
that still believes so; then it is read. -/
theorem map_law_swap : ∃ s s', mapRun mapArea (mapInit mapArea) [.upsert 5000 5 1 0]
      = .ok (s, [.upserted 0 0]) ∧
    mapRun mapArea s [.upsert 5000 7 1 5, .upsert 5000 9 1 5, .read 5000, .read 5001]
      = .ok (s', [.upserted 0 5, .upserted 0x15 7, .value 7, .value 0]) ∧
    (∃ a, s.CachedAt 1 a) ∧ ∀ pg a, s.CachedAt pg a → s'.CachedAt pg a := by
  have hent : mapArea.mapEntPerPg = 4096 := by decide
  obtain ⟨s, s', h₁, h₂, hc, hk⟩ := map_law mapArea [.upsert 5000 5 1 0]
    [.upsert 5000 7 1 5, .upsert 5000 9 1 5, .read 5000, .read 5001]
    (by
      rw [hent]
      simp [MapOp.id, ztlMpeCpgs])
  refine ⟨s, s', h₁, h₂, ?_, hk⟩
  have hpg := hc _ (mem_singleton_self _)
  rw [hent] at hpg
  exact hpg

/-! ### Ids beyond the table -/

/-- The id that `id` is taken for: the number of its page is kept in 32 bits. -/
def MapArea.aliasOf (g : MapArea) (id : Nat) : Nat :=
  g.mapEntPerPg * (id / g.mapEntPerPg % 2 ^ 32) + id % g.mapEntPerPg

section

variable {g : MapArea} {s : MapState} {M : Nat → Nat} {id : Nat}

theorem MapArea.mapEntPerPg_pos (g : MapArea) : 0 < g.mapEntPerPg := by
  rw [g.mapEntPerPg_eq]
  exact g.nbytes_pos

theorem MapArea.aliasOf_div (g : MapArea) (id : Nat) :
    g.aliasOf id / g.mapEntPerPg = id / g.mapEntPerPg % 2 ^ 32 := by
  rw [aliasOf, Nat.mul_add_div g.mapEntPerPg_pos,
    Nat.div_eq_of_lt (Nat.mod_lt _ g.mapEntPerPg_pos), Nat.add_zero]

theorem MapArea.aliasOf_mod (g : MapArea) (id : Nat) :
    g.aliasOf id % g.mapEntPerPg = id % g.mapEntPerPg := by
  rw [aliasOf, Nat.mul_add_mod, Nat.mod_mod]

theorem MapArea.aliasOf_lt (g : MapArea) (h : id / g.mapEntPerPg % 2 ^ 32 < ztlMpeCpgs) :
    g.aliasOf id < ztlMpeCpgs * g.mapEntPerPg := by
  rw [← g.aliasOf_div] at h
  exact Nat.lt_mul_of_div_lt h g.mapEntPerPg_pos

theorem mapGetCacheEntry_aliasOf :
    mapGetCacheEntry g s (g.aliasOf id) = mapGetCacheEntry g s id := by
  unfold mapGetCacheEntry
  rw [g.aliasOf_div, Nat.mod_mod]

theorem mapUpsert_aliasOf (val old oldCaller : Nat) :
    mapUpsert g s (g.aliasOf id) val old oldCaller = mapUpsert g s id val old oldCaller := by
  unfold mapUpsert
  rw [mapGetCacheEntry_aliasOf, g.aliasOf_mod]

theorem mapRead_aliasOf : mapRead g s (g.aliasOf id) = mapRead g s id := by
  unfold mapRead
  rw [mapGetCacheEntry_aliasOf, g.aliasOf_mod]

/-- The two calls refuse the id and leave everything as it is. -/
def MapState.Refuses (g : MapArea) (s : MapState) (id val old oldCaller : Nat) : Prop :=
  mapUpsert g s id val old oldCaller = .ok (s, xztlZtlMapErr, old) ∧
    mapRead g s id = .ok (s, 2 ^ 64 - 1)

/-- A read goes past the table, or it gives 40 bits. -/
theorem MapInv.read_ne (h : MapInv g s M) (id : Nat) : mapRead g s id ≠ .ok (s, 2 ^ 64 - 1) := by
  intro hread
  have hrun : (MapOp.read id).run g s = .ok (s, .value (2 ^ 64 - 1)) := by
    rw [MapOp.run, hread]
    rfl
  by_cases hpg : id / g.mapEntPerPg % 2 ^ 32 < ztlMpeCpgs
  · obtain ⟨s', hstep, -⟩ := h.step (.read (g.aliasOf id)) (g.aliasOf_lt hpg)
    rw [MapOp.run, mapRead_aliasOf, ← MapOp.run, hrun] at hstep
    have hout := congrArg Prod.snd (Except.ok.inj hstep)
    have hval : 2 ^ 64 - 1 = M (g.aliasOf id) % 2 ^ 40 := MapOut.value.inj hout
    omega
  · have hoff : ¬ id % g.mapEntPerPg % 2 ^ 32 ≥ g.mapEntPerPg :=
      Nat.not_le_of_lt (lt_of_le_of_lt (Nat.mod_le ..) (Nat.mod_lt _ g.mapEntPerPg_pos))
    rw [mapRead, if_neg hoff, mapGetCacheEntry, if_pos (Nat.le_of_not_lt hpg)] at hread
    cases hread

end

/-- **No id is refused**: of the ids beyond the table, none is. -/
theorem out_of_range_refused_iff {g : MapArea} {s : MapState} {M : Nat → Nat} (h : MapInv g s M)
    (id val old oldCaller : Nat) :
    (ztlMpeCpgs * g.mapEntPerPg ≤ id → s.Refuses g id val old oldCaller) ↔
      id < ztlMpeCpgs * g.mapEntPerPg := by
  constructor
  · intro hrefuse
    by_contra hge
    exact h.read_ne id (hrefuse (Nat.le_of_not_lt hge)).2
  · exact fun hlt hge => absurd hlt (Nat.not_lt_of_le hge)

/-- Ids of 4096-byte sectors on a new table: one of the table, and one that is not. -/
theorem out_of_range_refused_iff_new :
    (ztlMpeCpgs * mapArea.mapEntPerPg ≤ 5000 → (mapInit mapArea).Refuses mapArea 5000 7 1 0) ∧
      ¬ (ztlMpeCpgs * mapArea.mapEntPerPg ≤ 2 ^ 20 →
        (mapInit mapArea).Refuses mapArea (2 ^ 20) 7 1 0) :=
  ⟨(out_of_range_refused_iff (MapInv.init mapArea) 5000 7 1 0).mpr (by decide),
    fun h => absurd ((out_of_range_refused_iff (MapInv.init mapArea) (2 ^ 20) 7 1 0).mp h)
      (by decide)⟩

/-- **A delete of another id**: the id 17592186044416, which is page 2 ^ 32, is taken for 0, and its
deletion removes what 0 is mapped to; the id 1048576, which is page 256, is past the table. -/
theorem delete_out_of_range :
    ∃ s s', (MapOp.upsert 0 5 0 0).run mapArea (mapInit mapArea) = .ok (s, .upserted 0 0) ∧
      (MapOp.upsert 17592186044416 0 0 0).run mapArea s = .ok (s', .upserted 0 5) ∧
      (∃ s'', (MapOp.read 0).run mapArea s' = .ok (s'', .value 0)) ∧
      (MapOp.upsert 1048576 0 0 0).run mapArea s = .error .outOfBounds := by
  have hin : 0 < ztlMpeCpgs * mapArea.mapEntPerPg := by decide
  obtain ⟨s, h₁, hi, -⟩ := (MapInv.init mapArea).step (.upsert 0 5 0 0) hin
  obtain ⟨s', h₂, hi', -⟩ := hi.step (.upsert 0 0 0 0) hin
  obtain ⟨s'', h₃, -⟩ := hi'.step (.read 0) hin
  refine ⟨s, s', h₁, ?_, ⟨s'', h₃⟩, rfl⟩
  rw [MapOp.run, ← mapUpsert_aliasOf, show mapArea.aliasOf 17592186044416 = 0 by decide]
  exact h₂

end Xztl
