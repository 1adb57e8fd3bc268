import Xztl.Env.GcBytes
import Xztl.Env.Valid

/-!
# Env — a migration and a deletion (`env_zns.cc`, `MigrateNodeFile` and `DeleteFile`)

`MigrateNodeFile` holds the files' mutex in its first section, whenever it lists a piece, and in its
last section; in between, the file may be deleted and a file of its name created.  The last section
looks whether the name is in the table.  When it is not, the pieces written are trimmed, as far as
`map_change` still knows them: it points into the array `maps`, which every write fills again.  When
it is, the object found in the first section is changed, which may be a deleted one.

Each section is a step here, and so is each copy between two of them.  The calls of `zrocks_trim` and
the pieces written are recorded.

**`race_run`**: every piece the file had and every piece written is trimmed exactly once, and a file
that is created again keeps its map, in all interleavings in which no file is created while the
migration is under way and, when it finds the name gone, the migration has moved at most one piece;
pieces on the node are all moved.  **`race_leak`**: two pieces are moved and the file is deleted; the
first new piece is never trimmed, and the second one twice.
-/

namespace Xztl

open Function List Except Option Table

/-! ### Steps -/

/-- The variables of a migration behind its first section: the object, its level, `map_copy` up to
the iterator and from it on, and between them the pieces of the last write that are not yet listed,
from the element `next` of `maps` on. -/
structure Copying where
  p : Ptr
  clvl : Int
  done : List ZrocksMap
  maps : List ZrocksMap
  next : Nat
  rest : List ZrocksMap
  g : GcState

/-- How far a migration is.  A `wild` one has used a deleted object. -/
inductive MigPhase where
  | idle
  | copying (c : Copying)
  | dropping (g : GcState)
  | ended
  | wild

/-- The migration of a file, its deletion and its creation, and what they have done: the calls of
`zrocks_trim`, the pieces written by the migration, and the object that was created. -/
structure Race where
  w : World
  phase : MigPhase
  trims : List ZrocksMap
  written : List ZrocksMap
  deleted : Bool
  recreated : Option Ptr

/-- Nothing has happened. -/
def Race.start (w : World) : Race := ⟨w, .idle, [], [], false, none⟩

/-- The steps: those of the migration in their order, and the two other calls. -/
inductive RaceOp where
  | begin (gcBuffer : Nat → UInt8)
  | copy (io : GcIo)
  | note
  | check
  | drop
  | delete
  | create

/-- The local variables with what is shared as it is now. -/
def GcState.at (g : GcState) (w : World) : GcState :=
  { g with z := w.z, nidFileMap := w.env.nidFileMap }

/-- The first section. -/
def Race.begin (s : Race) (fileName : Name) (gcBuffer : Nat → UInt8) : Race :=
  if fileName ∈ s.w.env.tbl.files then
    match s.w.env.tbl.find fileName with
    | none => { s with phase := .wild }
    | some p =>
      let f := s.w.env.tbl.objs p
      if s.w.env.tbl.freed p then { s with phase := .wild }
      else if f.isWriting then { s with phase := .ended }
      else { s with phase := .copying ⟨p, f.level, [], [], 0, f.map, .start s.w f gcBuffer⟩ }
  else { s with phase := .ended }

/-- A round of the loop, up to the listing of what it has written. -/
def Race.copy (s : Race) (nid : Nat) (c : Copying) (io : GcIo) : Option Race :=
  match c.maps, c.rest with
  | [], m :: rest =>
    if io.run = false then
      some { s with phase := .copying { c with done := c.done ++ c.rest, rest := [] } }
    else if m.nodeId.val ≠ nid then
      some { s with phase := .copying { c with done := c.done ++ [m], rest := rest } }
    else do
      let (maps, g) ← (copyPiece c.clvl m io (c.g.at s.w)).toOption
      let done := if maps = [] then c.done ++ [m] else c.done
      some { s with
        w := ⟨g.z, s.w.env⟩
        phase := .copying { c with done := done, maps := maps, next := 0, rest := rest, g := g }
        written := s.written ++ maps }
  | _, _ => none

/-- A piece written goes into the copy of the map, and is listed. -/
def Race.note (s : Race) (fileName : Name) (c : Copying) : Option Race :=
  match c.maps with
  | m :: maps =>
    let g := (c.g.at s.w).note fileName c.next m
    some { s with
      w := ⟨s.w.z, { s.w.env with nidFileMap := g.nidFileMap }⟩
      phase := .copying { c with done := c.done ++ [m], maps := maps, next := c.next + 1, g := g } }
  | [] => none

/-- The last section. -/
def Race.check (s : Race) (nid : Nat) (fileName : Name) (c : Copying) : Option Race :=
  match c.maps, c.rest with
  | [], [] =>
    if fileName ∈ s.w.env.tbl.files then
      if s.w.env.tbl.freed c.p then some { s with phase := .wild }
      else do
        let w ← (migratePublish s.w nid fileName c.p c.done c.g).toOption
        some { s with
          w := w
          phase := .ended
          trims := s.trims ++ onNode nid (s.w.env.tbl.objs c.p).map }
    else some { s with phase := .dropping c.g }
  | _, _ => none

/-- The trims behind it when the name was gone. -/
def Race.drop (s : Race) (g : GcState) : Option Race := do
  let z ← (trimAll (g.mapChange.map g.maps) s.w.z).toOption
  some { s with
    w := ⟨z, s.w.env⟩
    phase := .ended
    trims := s.trims ++ g.mapChange.map g.maps }

/-- One step.  The file is deleted once, and created again behind that. -/
def raceStep (nid : Nat) (fileName : Name) (s : Race) : RaceOp → Option Race
  | .begin gcBuffer =>
    match s.phase with
    | .idle => some (s.begin fileName gcBuffer)
    | _ => none
  | .copy io =>
    match s.phase with
    | .copying c => s.copy nid c io
    | _ => none
  | .note =>
    match s.phase with
    | .copying c => s.note fileName c
    | _ => none
  | .check =>
    match s.phase with
    | .copying c => s.check nid fileName c
    | _ => none
  | .drop =>
    match s.phase with
    | .dropping g => s.drop g
    | _ => none
  | .delete =>
    if s.deleted then none
    else do
      let w ← (deleteFile s.w fileName).toOption
      some { s with
        w := w
        trims := s.trims ++ s.w.env.tbl.piecesOf (s.w.env.tbl.find fileName)
        deleted := true }
  | .create =>
    if s.deleted = false ∨ s.recreated.isSome then none
    else do
      let (e, h) ← (newWritableFile s.w.env fileName).toOption
      some { s with w := ⟨s.w.z, e⟩, recreated := some h.znsFile }

/-- The condition.  Every piece on the node is moved; when the last section finds the name gone, no
element of `maps` was filled twice; and no file is created while the migration is under way. -/
def RaceOp.Spares (nid : Nat) (fileName : Name) (s : Race) : RaceOp → Prop
  | .copy io => ∀ c m rest, s.phase = .copying c → c.rest = m :: rest →
      (io.run = false → onNode nid c.rest = []) ∧
      (io.run = true → m.nodeId.val = nid → ∀ maps g,
        copyPiece c.clvl m io (c.g.at s.w) = .ok (maps, g) → maps ≠ [])
  | .check => ∀ c, s.phase = .copying c → fileName ∉ s.w.env.tbl.files → c.g.mapChange.Nodup
  | .create => ∀ c, s.phase ≠ .copying c
  | _ => True

/-! ### The invariant -/

/-- The copying: behind the pieces `pre` of the old map, those of them on the node and the copy
are, up to order, `pre` and what was written; and while no element of `maps` was filled twice,
`map_change` has what was written. -/
structure Copying.Accounts (nid : Nat) (old written : List ZrocksMap) (c : Copying) : Prop where
  split : ∃ pre, old = pre ++ c.rest ∧ (onNode nid pre ++ (c.done ++ c.maps)).Perm (pre ++ written)
  noted : c.g.mapChange.Nodup → written = c.g.mapChange.map c.g.maps ++ c.maps

/-- Only the deletion has trimmed anything. -/
structure Race.Untouched (p : Ptr) (old : List ZrocksMap) (s : Race) : Prop where
  gone : s.deleted = true → s.trims = old
  there : s.deleted = false → s.trims = [] ∧ (s.w.env.tbl.objs p).map = old

/-- What the pieces are, by phase. -/
def Race.Accounts (nid : Nat) (p : Ptr) (old : List ZrocksMap) (s : Race) : Prop :=
  match s.phase with
  | .idle => s.Untouched p old ∧ s.written = []
  | .copying c => s.Untouched p old ∧ c.p = p ∧ c.Accounts nid old s.written
  | .dropping g => s.deleted = true ∧ s.trims = old ∧ s.written = g.mapChange.map g.maps
  | .ended => (s.deleted = true → s.trims.Perm (old ++ s.written)) ∧
      (s.deleted = false → (s.trims ++ (s.w.env.tbl.objs p).map).Perm (old ++ s.written))
  | .wild => False

/-- The invariant: the entry of the name, and the pieces. -/
structure RaceInv (nid : Nat) (fileName : Name) (p : Ptr) (old : List ZrocksMap) (s : Race) :
    Prop where
  there : s.deleted = false → s.w.env.tbl.find fileName = some p ∧ s.w.env.tbl.freed p = false ∧
    s.recreated = none
  gone : s.deleted = true → s.recreated = none → fileName ∉ s.w.env.tbl.files
  again : ∀ q, s.recreated = some q → s.w.env.tbl.find fileName = some q ∧
    s.w.env.tbl.freed q = false ∧ (s.w.env.tbl.objs q).isWriting = true ∧
    (s.w.env.tbl.objs q).map = [] ∧ ∀ c, s.phase ≠ .copying c
  accounts : s.Accounts nid p old

variable {rest : List ZrocksMap} {m : ZrocksMap} {io : GcIo}

section

variable {nid : Nat} {fileName : Name} {p : Ptr} {old written : List ZrocksMap} {s s' : Race}
  {c : Copying}

/-- A step that leaves the table and the other calls alone. -/
theorem RaceInv.move (h : RaceInv nid fileName p old s) (ht : s'.w.env.tbl = s.w.env.tbl)
    (hd : s'.deleted = s.deleted) (hr : s'.recreated = s.recreated)
    (hp : ∀ q, s.recreated = some q → ∀ c, s'.phase ≠ .copying c) (ha : s'.Accounts nid p old) :
    RaceInv nid fileName p old s' := by
  refine ⟨fun h0 => ?_, fun h1 h2 => ?_, fun q hq => ?_, ha⟩
  · rw [ht, hr]
    exact h.there (hd ▸ h0)
  · rw [ht]
    exact h.gone (hd ▸ h1) (hr ▸ h2)
  · rw [ht]
    obtain ⟨h₁, h₂, h3, h4, -⟩ := h.again q (hr ▸ hq)
    exact ⟨h₁, h₂, h3, h4, hp q (hr ▸ hq)⟩

theorem RaceInv.copying (h : RaceInv nid fileName p old s) (hc : s.phase = .copying c) :
    s.Untouched p old ∧ c.p = p ∧ c.Accounts nid old s.written ∧ s.recreated = none := by
  have ha := h.accounts
  rw [Race.Accounts, hc] at ha
  refine ⟨ha.1, ha.2.1, ha.2.2, ?_⟩
  cases hr : s.recreated with
  | none => rfl
  | some q => exact absurd hc ((h.again q hr).2.2.2.2 c)

/-- Another state of the copying. -/
theorem RaceInv.stepCopying {c' : Copying} (h : RaceInv nid fileName p old s)
    (hc : s.phase = .copying c) (ht : s'.w.env.tbl = s.w.env.tbl) (hd : s'.deleted = s.deleted)
    (hr : s'.recreated = s.recreated) (htr : s'.trims = s.trims) (hph : s'.phase = .copying c')
    (hp : c'.p = c.p) (ha : c'.Accounts nid old s'.written) : RaceInv nid fileName p old s' := by
  obtain ⟨hu, hcp, -, hnone⟩ := h.copying hc
  refine h.move ht hd hr (fun q hq => ?_) ?_
  · rw [hnone] at hq
    cases hq
  · rw [Race.Accounts, hph]
    refine ⟨⟨fun h1 => ?_, fun h0 => ?_⟩, hp.trans hcp, ha⟩
    · rw [htr]
      exact hu.gone (hd ▸ h1)
    · rw [htr, ht]
      exact hu.there (hd ▸ h0)

/-- The first section, for a file that is there. -/
theorem Race.begin_found {q : Ptr} (hfind : s.w.env.tbl.find fileName = some q)
    (hfreed : s.w.env.tbl.freed q = false) (gcBuffer : Nat → UInt8) :
    s.begin fileName gcBuffer =
      if (s.w.env.tbl.objs q).isWriting then { s with phase := .ended }
      else { s with phase := .copying ⟨q, (s.w.env.tbl.objs q).level, [], [], 0,
        (s.w.env.tbl.objs q).map, .start s.w (s.w.env.tbl.objs q) gcBuffer⟩ } := by
  rw [Race.begin, if_pos (mem_files hfind), hfind]
  simp only [hfreed]
  rfl

/-- **The first section.**  A file that was created again is open for writing. -/
theorem RaceInv.begin (h : RaceInv nid fileName p old s) (hidle : s.phase = .idle)
    (gcBuffer : Nat → UInt8) : RaceInv nid fileName p old (s.begin fileName gcBuffer) := by
  have ha := h.accounts
  rw [Race.Accounts, hidle] at ha
  obtain ⟨hu, hw⟩ := ha
  have hended : RaceInv nid fileName p old { s with phase := .ended } := by
    refine h.move rfl rfl rfl (fun _ _ _ => nofun) ⟨fun h1 => ?_, fun h0 => ?_⟩
    · rw [hw, append_nil, hu.gone h1]
    · rw [(hu.there h0).1, (hu.there h0).2, hw, append_nil, nil_append]
  by_cases hmem : fileName ∈ s.w.env.tbl.files
  · obtain ⟨q, hr⟩ | hr : (∃ q, s.recreated = some q) ∨ s.recreated = none := by
      cases s.recreated with
      | none => exact Or.inr rfl
      | some q => exact Or.inl ⟨q, rfl⟩
    · obtain ⟨hfind, hfreed, hwr, -⟩ := h.again q hr
      rw [Race.begin_found hfind hfreed, hwr]
      exact hended
    · have h0 : s.deleted = false := Bool.eq_false_iff.mpr fun hd => h.gone hd hr hmem
      obtain ⟨hfind, hfreed, -⟩ := h.there h0
      rw [Race.begin_found hfind hfreed]
      cases (s.w.env.tbl.objs p).isWriting with
      | true => exact hended
      | false =>
        refine h.move rfl rfl rfl (fun q hq => ?_) ⟨⟨hu.gone, hu.there⟩, rfl, ⟨⟨[], ?_, ?_⟩, fun _ => hw⟩⟩
        · rw [hr] at hq
          cases hq
        · exact (hu.there h0).2.symm
        · show ([] : List ZrocksMap).Perm ([] ++ s.written)
          rw [hw, append_nil]
  · rw [Race.begin, if_neg hmem]
    exact hended

theorem onNode_append (nid : Nat) (ms ms' : List ZrocksMap) :
    onNode nid (ms ++ ms') = onNode nid ms ++ onNode nid ms' := filter_append ms ms'

/-- Pieces that are not on the node join the copy. -/
theorem Copying.Accounts.keep (kept : List ZrocksMap) (h : c.Accounts nid old written)
    (hm : c.maps = []) (hr : c.rest = kept ++ rest) (hon : onNode nid kept = []) :
    Copying.Accounts nid old written { c with done := c.done ++ kept, rest := rest } := by
  obtain ⟨⟨pre, hold, hperm⟩, hn⟩ := h
  refine ⟨⟨pre ++ kept, ?_, ?_⟩, hn⟩
  · rw [hold, hr, append_assoc]
  · rw [hm, append_nil] at hperm ⊢
    rw [onNode_append, hon, append_nil, ← append_assoc]
    refine (hperm.append_right kept).trans ?_
    rw [append_assoc, append_assoc]
    exact perm_append_comm.append_left pre

theorem Copying.Accounts.moved {maps : List ZrocksMap} {g : GcState}
    (h : c.Accounts nid old written) (hm : c.maps = []) (hr : c.rest = m :: rest)
    (hon : m.nodeId.val = nid) (hg : g.mapChange = c.g.mapChange ∧ g.maps = c.g.maps) :
    Copying.Accounts nid old (written ++ maps)
      { c with maps := maps, next := 0, rest := rest, g := g } := by
  obtain ⟨⟨pre, hold, hperm⟩, hn⟩ := h
  refine ⟨⟨pre ++ [m], ?_, ?_⟩, fun hnodup => ?_⟩
  · rw [hold, hr, append_assoc]
    rfl
  · rw [hm, append_nil] at hperm
    have hone : onNode nid [m] = [m] := by simp [onNode, hon]
    rw [onNode_append, hone, ← append_assoc, ← append_assoc]
    refine List.Perm.append_right maps ?_
    -- the moved piece is behind those of `pre` on both sides
    rw [append_assoc, append_assoc]
    refine (perm_append_comm.append_left _).trans ?_
    rw [← append_assoc]
    refine (hperm.append_right [m]).trans ?_
    rw [append_assoc]
    exact perm_append_comm.append_left pre
  · have hnodup : g.mapChange.Nodup := hnodup
    rw [hg.1] at hnodup
    rw [hn hnodup, hm, append_nil, hg.1, hg.2]

theorem RaceInv.copy (h : RaceInv nid fileName p old s) (hc : s.phase = .copying c)
    (hg : (RaceOp.copy io).Spares nid fileName s) (hs : s.copy nid c io = some s') :
    RaceInv nid fileName p old s' := by
  obtain ⟨-, -, ha, -⟩ := h.copying hc
  rw [Race.copy] at hs
  split at hs
  · next m rest hm hr =>
    obtain ⟨hstop, hmove⟩ := hg c m rest hc hr
    split at hs
    · next hrun =>
      cases hs
      exact h.stepCopying hc rfl rfl rfl rfl rfl rfl
        (ha.keep c.rest hm (append_nil _).symm (hstop hrun))
    · next hrun =>
      have hrun : io.run = true := by simpa using hrun
      split at hs
      · next hon =>
        cases hs
        refine h.stepCopying hc rfl rfl rfl rfl rfl rfl (ha.keep [m] hm hr ?_)
        simp [onNode, hon]
      · next hon =>
        have hon : m.nodeId.val = nid := not_not.mp hon
        obtain ⟨⟨maps, g⟩, e, hs⟩ := toOption_bind_eq_some.mp hs
        simp only [if_neg (hmove hrun hon maps g e)] at hs
        cases hs
        obtain ⟨z, buf, rfl⟩ := copyPiece_frame e
        exact h.stepCopying hc rfl rfl rfl rfl rfl rfl (ha.moved hm hr hon ⟨rfl, rfl⟩)
  · cases hs

/-- What a round of the loop over `maps` does to the array and to `map_change`. -/
theorem GcState.note_maps (g : GcState) (fileName : Name) (i : Nat) (m : ZrocksMap) :
    (g.note fileName i m).maps = update g.maps i m ∧
      (g.note fileName i m).mapChange = g.mapChange ++ [i] := by
  rw [GcState.note]
  split <;> exact ⟨rfl, rfl⟩

section

variable (h : RaceInv nid fileName p old s)
include h

/-- **A piece is listed.**  While its element of `maps` is new, `map_change` has all pieces. -/
theorem RaceInv.note (hc : s.phase = .copying c) (hs : s.note fileName c = some s') :
    RaceInv nid fileName p old s' := by
  obtain ⟨-, -, ⟨⟨pre, hold, hperm⟩, hn⟩, -⟩ := h.copying hc
  rw [Race.note] at hs
  split at hs
  · next m maps hm =>
    cases hs
    refine h.stepCopying hc rfl rfl rfl rfl rfl rfl ⟨⟨pre, hold, ?_⟩, fun hnodup => ?_⟩
    · rw [hm] at hperm
      rwa [append_assoc c.done]
    · obtain ⟨h₁, h₂⟩ := GcState.note_maps (c.g.at s.w) fileName c.next m
      have hnodup : ((c.g.at s.w).note fileName c.next m).mapChange.Nodup := hnodup
      rw [h₂] at hnodup
      have hch : (c.g.mapChange ++ [c.next]).Nodup := hnodup
      have hnew : c.next ∉ c.g.mapChange := fun hmem =>
        (nodup_append.mp hch).2.2 c.next hmem c.next (mem_singleton_self _) rfl
      have hsame : c.g.mapChange.map (update c.g.maps c.next m)
          = c.g.mapChange.map c.g.maps := map_congr_left fun i hi => by
        have hne : i ≠ c.next := fun e => hnew (e ▸ hi)
        rw [update_of_ne hne]
      rw [h₁, h₂, hn (nodup_append.mp hch).1, hm]
      show c.g.mapChange.map c.g.maps ++ m :: maps
        = (c.g.mapChange ++ [c.next]).map (update c.g.maps c.next m) ++ maps
      rw [map_append, hsame, map_singleton, update_self, append_assoc]
      rfl
  · cases hs

/-- **The last section.**  A name that is there is that of the file found in the first section. -/
theorem RaceInv.check (hc : s.phase = .copying c) (hg : RaceOp.check.Spares nid fileName s)
    (hs : s.check nid fileName c = some s') : RaceInv nid fileName p old s' := by
  obtain ⟨hu, hcp, ⟨⟨pre, hold, hperm⟩, hn⟩, hr⟩ := h.copying hc
  rw [Race.check] at hs
  split at hs
  · next hm hrest =>
    rw [hm, append_nil] at hperm hn
    rw [hrest, append_nil] at hold
    subst hold hcp
    split at hs
    · next hmem =>
      have h0 : s.deleted = false := Bool.eq_false_iff.mpr fun hd => h.gone hd hr hmem
      obtain ⟨hfind, hfreed, -⟩ := h.there h0
      obtain ⟨htr, hmap⟩ := hu.there h0
      rw [if_neg (by simp [hfreed])] at hs
      obtain ⟨w', e, ⟨⟩⟩ := toOption_bind_eq_some.mp hs
      rw [migratePublish, if_pos hmem, Table.get, if_neg (by simp [hfreed])] at e
      obtain ⟨f, hf, e⟩ := bind_eq_ok.mp e
      cases hf
      obtain ⟨z, -, e⟩ := bind_eq_ok.mp e
      obtain ⟨e1, hfl, e⟩ := bind_eq_ok.mp e
      cases e
      obtain ⟨f, hf⟩ : ∃ f : ZnsFile, f = { s.w.env.tbl.objs c.p with map := c.done } := ⟨_, rfl⟩
      have hsame : (s.w.env.tbl.set c.p f).Same e1.tbl := hf ▸ (flushFile_same hfl).1
      have hmap' : (e1.tbl.objs c.p).map = c.done := by
        rw [hsame.map, objs_set, update_self, hf]
      refine ⟨fun _ => ⟨?_, ?_, hr⟩, fun h1 => ?_, fun q hq => ?_, fun h1 => ?_, fun _ => ?_⟩
      · exact (hsame.find _).trans hfind
      · rw [hsame.freed]
        exact hfreed
      · exact absurd (h0.symm.trans h1) (by simp)
      · exact absurd (hr.symm.trans hq) (by simp)
      · exact absurd (h0.symm.trans h1) (by simp)
      · rw [htr, hmap, hmap']
        exact hperm
    · next hmem =>
      cases hs
      have h1 : s.deleted = true := by
        by_contra h0
        exact hmem (mem_files (h.there (by simpa using h0)).1)
      exact h.move rfl rfl rfl (fun _ _ _ => by simp) ⟨h1, hu.gone h1, hn (hg c hc hmem)⟩
  · cases hs

theorem RaceInv.drop {g : GcState} (hd : s.phase = .dropping g) (hs : s.drop g = some s') :
    RaceInv nid fileName p old s' := by
  have ha := h.accounts
  rw [Race.Accounts, hd] at ha
  obtain ⟨h1, htr, hw⟩ := ha
  obtain ⟨z, -, hs⟩ := bind_eq_some_iff.mp hs
  cases hs
  refine h.move rfl rfl rfl (fun _ _ _ => nofun) ⟨fun _ => ?_, fun h0 => ?_⟩
  · rw [htr, hw]
  · exact absurd (h1.symm.trans h0) (by simp)

/-- **The deletion** trims what the file has then. -/
theorem RaceInv.delete {w' : World} (h0 : s.deleted = false)
    (hs : deleteFile s.w fileName = .ok w') : RaceInv nid fileName p old { s with
      w := w'
      trims := s.trims ++ s.w.env.tbl.piecesOf (s.w.env.tbl.find fileName)
      deleted := true } := by
  obtain ⟨hfind, -, hr⟩ := h.there h0
  obtain ⟨hnone, -⟩ | ⟨q, z, e, rfl, hq, -, hsame, -⟩ := deleteFile_cases hs
  · cases hnone.symm.trans hfind
  cases hq.symm.trans hfind
  have hfiles : e.tbl.files = s.w.env.tbl.files.erase fileName := hsame.files
  have hpieces : s.w.env.tbl.piecesOf (s.w.env.tbl.find fileName) = (s.w.env.tbl.objs p).map := by
    rw [hfind]
    rfl
  rw [hpieces]
  have hne {P : Prop} (e : true = false) : P := absurd e (by simp)
  refine ⟨hne, fun _ _ => ?_, fun q hq => absurd (hr.symm.trans hq) (by simp), ?_⟩
  · rw [hfiles]
    simp
  · have ha := h.accounts
    rw [Race.Accounts] at ha ⊢
    have hgone : s.Untouched p old → s.trims ++ (s.w.env.tbl.objs p).map = old := fun hu => by
      rw [(hu.there h0).1, (hu.there h0).2, nil_append]
    cases hph : s.phase with
    | idle =>
      rw [hph] at ha
      exact ⟨⟨fun _ => hgone ha.1, hne⟩, ha.2⟩
    | copying c =>
      rw [hph] at ha
      exact ⟨⟨fun _ => hgone ha.1, hne⟩, ha.2⟩
    | dropping g =>
      rw [hph] at ha
      exact absurd (h0.symm.trans ha.1) (by simp)
    | ended =>
      rw [hph] at ha
      exact ⟨fun _ => ha.2 h0, hne⟩
    | wild =>
      rw [hph] at ha
      exact ha

/-- **The creation**, behind the deletion and not during the copying. -/
theorem RaceInv.create {e : Env} {hd : Handle} (h1 : s.deleted = true)
    (hg : RaceOp.create.Spares nid fileName s)
    (hs : newWritableFile s.w.env fileName = .ok (e, hd)) :
    RaceInv nid fileName p old { s with w := ⟨s.w.z, e⟩, recreated := some hd.znsFile } := by
  have hnew := newWritableFile_new hs
  refine ⟨fun h0 => absurd (h1.symm.trans h0) (by simp), fun _ => nofun, fun q hq => ?_, ?_⟩
  · cases hq
    obtain ⟨hfind, hobj⟩ := hnew.object
    refine ⟨?_, hnew.alive, congrArg ZnsFile.isWriting hobj, congrArg ZnsFile.map hobj, hg⟩
    rw [hnew.handle] at hfind ⊢
    exact hfind
  · have ha := h.accounts
    rw [Race.Accounts] at ha ⊢
    cases hph : s.phase with
    | idle =>
      rw [hph] at ha
      exact ⟨⟨ha.1.gone, fun h0 => absurd (h1.symm.trans h0) (by simp)⟩, ha.2⟩
    | copying c => exact absurd hph (hg c)
    | dropping g =>
      rw [hph] at ha
      exact ha
    | ended =>
      rw [hph] at ha
      exact ⟨ha.1, fun h0 => absurd (h1.symm.trans h0) (by simp)⟩
    | wild =>
      rw [hph] at ha
      exact ha

theorem RaceInv.step {a : RaceOp} (hg : a.Spares nid fileName s)
    (hs : raceStep nid fileName s a = some s') : RaceInv nid fileName p old s' := by
  cases a with
  | begin gcBuffer =>
    rw [raceStep] at hs
    split at hs
    · next hidle =>
      cases hs
      exact h.begin hidle gcBuffer
    · cases hs
  | copy io =>
    rw [raceStep] at hs
    split at hs
    · next c hc => exact h.copy hc hg hs
    · cases hs
  | note =>
    rw [raceStep] at hs
    split at hs
    · next c hc => exact h.note hc hs
    · cases hs
  | check =>
    rw [raceStep] at hs
    split at hs
    · next c hc => exact h.check hc hg hs
    · cases hs
  | drop =>
    rw [raceStep] at hs
    split at hs
    · next g hd => exact h.drop hd hs
    · cases hs
  | delete =>
    rw [raceStep] at hs
    split at hs
    · cases hs
    · next h0 =>
      obtain ⟨w, e, ⟨⟩⟩ := toOption_bind_eq_some.mp hs
      exact h.delete (by simpa using h0) e
  | create =>
    rw [raceStep] at hs
    split at hs
    · cases hs
    · next hc =>
      obtain ⟨h1, -⟩ := not_or.mp hc
      obtain ⟨⟨e, hd⟩, he, ⟨⟩⟩ := toOption_bind_eq_some.mp hs
      exact h.create (by simpa using h1) hg he

end

end

/-! ### A migration that is alone -/

/-- The steps of a migration that finds its file. -/
def RaceOp.Own : RaceOp → Prop
  | .begin _ | .copy _ | .note | .check => True
  | .drop | .delete | .create => False

/-- What the copies of a run meet outside. -/
def copiesOf (as : List RaceOp) : List GcIo :=
  as.filterMap fun
    | .copy io => some io
    | _ => none

theorem copiesOf_append (as as' : List RaceOp) :
    copiesOf (as ++ as') = copiesOf as ++ copiesOf as' := filterMap_append

/-- The migration is in its loop and alone: what is shared is as its variables have it. -/
def Race.inLoop (s : Race) (c : Copying) (written : List ZrocksMap) : Race :=
  { s with
    w := ⟨c.g.z, { s.w.env with nidFileMap := c.g.nidFileMap }⟩
    phase := .copying c
    written := s.written ++ written }

section

variable {nid : Nat} {fileName : Name} {s : Race} {c : Copying} {maps : List ZrocksMap}
  (written : List ZrocksMap)

theorem raceStep_note (hm : c.maps = m :: maps) :
    raceStep nid fileName (s.inLoop c written) .note = some (s.inLoop { c with
      done := c.done ++ [m], maps := maps, next := c.next + 1, g := c.g.note fileName c.next m }
      written) := by
  show (s.inLoop c written).note fileName c = _
  rw [Race.note, hm]
  simp only [Race.inLoop, GcState.note_z]
  rfl

theorem raceStep_copy {g : GcState} (hm : c.maps = []) (hr : c.rest = m :: rest)
    (hn : m.nodeId.val = nid) (hrun : io.run = true) (hcopy : copyPiece c.clvl m io c.g = .ok (maps, g)) :
    raceStep nid fileName (s.inLoop c written) (.copy io) = some (s.inLoop { c with
      done := if maps = [] then c.done ++ [m] else c.done, maps := maps, next := 0, rest := rest,
      g := g } (written ++ maps)) := by
  obtain ⟨z, buf, rfl⟩ := copyPiece_frame hcopy
  show (s.inLoop c written).copy nid c io = _
  rw [Race.copy, hm, hr]
  simp only [hrun]
  rw [if_neg (by decide), if_neg (not_not.mpr hn)]
  refine bind_eq_some_iff.mpr ⟨_, toOption_eq_some.mpr hcopy, ?_⟩
  simp only [Race.inLoop, append_assoc]

theorem raceStep_check {w' : World} (hc : s.phase = .copying c) (hm : c.maps = []) (hr : c.rest = [])
    (hmem : fileName ∈ s.w.env.tbl.files) (hfreed : s.w.env.tbl.freed c.p = false)
    (e : migratePublish s.w nid fileName c.p c.done c.g = .ok w') :
    raceStep nid fileName s .check = some { s with
      w := w', phase := .ended, trims := s.trims ++ onNode nid (s.w.env.tbl.objs c.p).map } := by
  rw [raceStep, hc]
  simp only [Race.check, hm, hr]
  rw [if_pos hmem, if_neg (by simp [hfreed])]
  exact bind_eq_some_iff.mpr ⟨w', toOption_eq_some.mpr e, rfl⟩

/-- The pieces of a write are listed one after the other. -/
theorem Race.runs_notes (maps : List ZrocksMap) : ∀ {c : Copying}, c.maps = maps →
    Runs (raceStep nid fileName) (fun _ a => a.Own) (s.inLoop c written) (replicate maps.length .note)
      (s.inLoop { c with done := c.done ++ maps, maps := [], next := c.next + maps.length,
                         g := c.g.noteAll fileName maps c.next } written) := by
  induction maps with
  | nil =>
    rintro ⟨p, clvl, done, maps, next, rest, g⟩ ⟨⟩
    rw [append_nil]
    exact .nil _
  | cons m maps ih =>
    intro c hm
    have := ih (c := { c with
      done := c.done ++ [m], maps := maps, next := c.next + 1, g := c.g.note fileName c.next m }) rfl
    rw [append_assoc, Nat.add_right_comm] at this
    exact .cons trivial (raceStep_note written hm) this

/-- **A round of the loop is a copy and its listings.** -/
theorem Race.runs_round {new : List ZrocksMap} {g' : GcState} (hm : c.maps = [])
    (hr : c.rest = m :: rest) (hrun : io.run = true)
    (e : migrateRound nid fileName c.clvl m io c.g = .ok (new, g')) :
    ∃ as k written', Runs (raceStep nid fileName) (fun _ a => a.Own) (s.inLoop c written) as
        (s.inLoop { c with done := c.done ++ new, maps := [], next := k, rest := rest, g := g' }
          written') ∧ copiesOf as = [io] := by
  obtain ⟨p, clvl, done, maps, next, rest', g⟩ := c
  obtain rfl : maps = [] := hm
  obtain rfl : rest' = m :: rest := hr
  rw [migrateRound] at e
  by_cases hn : m.nodeId.val ≠ nid
  · rw [if_pos hn] at e
    cases e
    refine ⟨[.copy io], next, written, .one trivial ?_, rfl⟩
    show (s.inLoop _ written).copy nid ⟨p, clvl, done, [], next, m :: rest, g⟩ io = _
    rw [Race.copy]
    simp only [hrun]
    rw [if_neg (by decide), if_pos hn]
    rfl
  · rw [if_neg hn] at e
    obtain ⟨maps, g1, hcopy, hnew⟩ := migratePiece_split e
    have hstep : raceStep nid fileName (s.inLoop ⟨p, clvl, done, [], next, m :: rest, g⟩ written)
        (.copy io) = _ := raceStep_copy written rfl rfl (not_not.mp hn) hrun hcopy
    refine ⟨.copy io :: replicate maps.length .note, 0 + maps.length, written ++ maps,
      .cons trivial hstep ?_, ?_⟩
    · rcases hnew with ⟨rfl, rfl, rfl⟩ | ⟨hne, rfl, rfl⟩
      · exact .nil _
      · rw [if_neg hne]
        exact Race.runs_notes _ new rfl
    · show io :: copiesOf _ = [io]
      simp [copiesOf]

/-- The whole loop. -/
theorem Race.runs_loop {g' : GcState} (ms : List ZrocksMap) : ∀ {c : Copying}
    (written : List ZrocksMap) {ios : List GcIo} {new : List ZrocksMap}, c.maps = [] → c.rest = ms →
    migrateLoop nid fileName c.clvl ms ios c.g = .ok (new, g') →
    ∃ as left k written', Runs (raceStep nid fileName) (fun _ a => a.Own) (s.inLoop c written) as
        (s.inLoop { c with done := c.done ++ new, maps := [], next := k, rest := [], g := g' }
          written') ∧ ios = copiesOf as ++ left := by
  induction ms with
  | nil =>
    rintro ⟨p, clvl, done, maps, next, rest, g⟩ written ios new ⟨⟩ ⟨⟩ e
    cases e
    rw [append_nil]
    exact ⟨[], ios, next, written, .nil _, rfl⟩
  | cons m ms ih =>
    intro c written ios new hm hr e
    obtain ⟨io, ios, rfl, ⟨hrun, rfl, rfl⟩ | ⟨hrun, new1, g1, rest, e1, e2, rfl⟩⟩ := migrateLoop_cons e
    · -- the worker is stopped
      obtain ⟨p, clvl, done, maps, next, rest', g⟩ := c
      obtain rfl : maps = [] := hm
      obtain rfl : rest' = m :: ms := hr
      refine ⟨[.copy io], ios, next, written, .one trivial ?_, rfl⟩
      show (s.inLoop _ written).copy nid ⟨p, clvl, done, [], next, m :: ms, g⟩ io = _
      rw [Race.copy]
      simp only [hrun]
      rfl
    · obtain ⟨as1, k1, written1, hrun1, hcopy1⟩ := Race.runs_round (s := s) written hm hr hrun e1
      obtain ⟨as2, left, k2, written2, hrun2, rfl⟩ := ih (c := { c with
        done := c.done ++ new1, maps := [], next := k1, rest := ms, g := g1 }) written1 rfl rfl e2
      rw [append_assoc] at hrun2
      refine ⟨as1 ++ as2, left, k2, written2, hrun1.append hrun2, ?_⟩
      rw [copiesOf_append, hcopy1]
      rfl

/-- **A migration that is alone**: its own steps, one after the other and met by the same answers, do
what `MigrateNodeFile` does as one call. -/
theorem race_alone {w w' : World} {gcBuffer : Nat → UInt8} {ios : List GcIo}
    (e : migrateNodeFile w nid fileName gcBuffer ios = .ok w') :
    ∃ as left s', Runs (raceStep nid fileName) (fun _ a => a.Own) (.start w)
        (.begin gcBuffer :: as) s' ∧
      ios = copiesOf as ++ left ∧ s'.w = w' ∧ s'.phase = .ended := by
  have hbegin : raceStep nid fileName (.start w) (.begin gcBuffer)
      = some ((Race.start w).begin fileName gcBuffer) := rfl
  rw [migrateNodeFile] at e
  by_cases hmem : fileName ∈ w.env.tbl.files
  · rw [if_pos hmem] at e
    cases hfind : w.env.tbl.find fileName with
    | none =>
      rw [hfind] at e
      cases e
    | some p =>
      rw [hfind] at e
      obtain ⟨f, hf, e⟩ := bind_eq_ok.mp e
      have hfreed : w.env.tbl.freed p = false := by
        rw [Table.get] at hf
        split at hf
        · cases hf
        · next h => exact Bool.eq_false_iff.mpr h
      rw [Table.get, if_neg (by simp [hfreed])] at hf
      cases hf
      rw [Race.begin_found (s := .start w) hfind hfreed] at hbegin
      cases hwr : (w.env.tbl.objs p).isWriting with
      | true =>
        rw [hwr, if_pos rfl] at e
        cases e
        rw [show ((Race.start w).w.env.tbl.objs p).isWriting = true from hwr, if_pos rfl] at hbegin
        exact ⟨[], ios, _, .one trivial hbegin, rfl, rfl, rfl⟩
      | false =>
        rw [hwr, if_neg (by simp)] at e
        rw [show ((Race.start w).w.env.tbl.objs p).isWriting = false from hwr,
          if_neg (by simp)] at hbegin
        obtain ⟨⟨mapCopy, g⟩, hloop, e⟩ := bind_eq_ok.mp e
        obtain ⟨as, left, k, written, hrun, hios⟩ := Race.runs_loop (s := .start w)
          (c := ⟨p, (w.env.tbl.objs p).level, [], [], 0, (w.env.tbl.objs p).map,
            .start w (w.env.tbl.objs p) gcBuffer⟩) _ [] rfl rfl hloop
        have hown : RaceOp.check.Own := trivial
        have hcheck : raceStep nid fileName ((Race.start w).inLoop
            ⟨p, (w.env.tbl.objs p).level, mapCopy, [], k, [], g⟩ written) .check = _ :=
          raceStep_check rfl rfl rfl hmem hfreed e
        refine ⟨_, left, _, .cons trivial hbegin (hrun.append (.one hown hcheck)), ?_, rfl, rfl⟩
        rw [copiesOf_append, hios]
        exact congrArg (· ++ left) (append_nil _).symm
  · rw [if_neg hmem] at e
    cases e
    have hended : (Race.start w).begin fileName gcBuffer = { Race.start w with phase := .ended } :=
      if_neg hmem
    rw [hended] at hbegin
    exact ⟨[], ios, _, .one trivial hbegin, rfl, rfl, rfl⟩

/-- A file of two bytes, each in a piece of its own. -/
theorem race_alone_pair : ∃ w parts ios m₁ m₂ as left s', Moved w s'.w parts ios 2 [m₁, m₂] ∧
    Runs (raceStep 0 [97]) (fun _ a => a.Own) (.start w) (.begin (fun _ => 0) :: as) s' ∧
    ios = copiesOf as ++ left ∧ s'.phase = .ended := by
  obtain ⟨w, w', parts, ios, m₁, m₂, hmv, -⟩ := exists_padded_migration
  obtain ⟨as, left, s', hr, hios, rfl, hend⟩ := race_alone hmv.migrate
  exact ⟨w, parts, ios, m₁, m₂, as, left, s', hmv, hr, hios, hend⟩

end

/-! ### Two pieces are moved -/

/-- The file `a` with two pieces on node 0, at the point where both are copied and listed. -/
structure MovedTwice (w : World) (m₁ m₂ m₁' m₂' : ZrocksMap) (s : Race) (c : Copying) : Prop where
  tbl : w.env.tbl = .single (closedFile 2 [m₁, m₂])
  node : m₁.nodeId.val = 0 ∧ m₂.nodeId.val = 0
  run : ∃ as, Runs (raceStep 0 nameA) (fun s a => a.Spares 0 nameA s) (.start w) as s
  phase : s.phase = .copying c
  copied : c.p = 0 ∧ c.done = [m₁', m₂'] ∧ c.maps = [] ∧ c.rest = []
  mapChange : c.g.mapChange.map c.g.maps = [m₂', m₂']
  written : s.written = [m₁', m₂']
  ne : m₁' ≠ m₂'
  trims : s.trims = []
  deleted : s.deleted = false
  same : s.w.env.tbl = w.env.tbl
  idle : s.w.z.submitHead = []
  log : ∃ seq recs, Logged s.w.env seq recs

/-- A copy that writes something. -/
theorem copy_spares {nid : Nat} {fileName : Name} {s : Race} {c : Copying}
    {m' : ZrocksMap} {written : List ZrocksMap} {g : GcState} (hr : c.rest = m :: rest)
    (hrun : io.run = true) (hcopy : copyPiece c.clvl m io c.g = .ok ([m'], g)) :
    (RaceOp.copy io).Spares nid fileName (s.inLoop c written) := by
  intro c' m'' rest' hc' hr'
  cases hc'
  cases hr.symm.trans hr'
  refine ⟨fun h0 => absurd (hrun.symm.trans h0) (by simp), fun _ _ maps g' e => ?_⟩
  cases hcopy.symm.trans e
  exact cons_ne_nil m' []

/-- Two pieces on one node can be moved. -/
theorem exists_movedTwice : ∃ w m₁ m₂ m₁' m₂' s c, MovedTwice w m₁ m₂ m₁' m₂' s c := by
  obtain ⟨z, parts, m₁, m₂, ha, -, hms, -, -, -, hsub, hroom⟩ := exists_two_bytes
  obtain ⟨⟨hl1, hpos1⟩, hnum1, hn1⟩ := hms m₁ (by simp)
  obtain ⟨⟨hl2, hpos2⟩, hnum2, hn2⟩ := hms m₂ (by simp)
  obtain ⟨env, htbl, hlog⟩ := exists_logged_single smallMd (closedFile 2 [m₁, m₂])
  have hlevel : clampLevel 0 = 0 := by decide
  have hstores : ∀ (io : GcIo) (buf : Nat → UInt8) (m : ZrocksMap), io.fate = (fun _ _ => 0) →
      ∀ k < (io.call buf m 0).ncmd, (io.call buf m 0).req.Stores k :=
    fun io buf m hf k _ => ⟨0, by decide, by rw [WriteCall.req, GcIo.call, hf]⟩
  have hmax : ∀ (io : GcIo) (buf : Nat → UInt8) {m : ZrocksMap}, m.num.val = 1 →
      (io.call buf m 0).ncmd ≤ xztlIoMaxMcmd := fun io buf m hm => by
    rw [GcIo.call_ncmd (by rw [hm]; decide), hm]
    decide
  -- the first section
  obtain ⟨g0, hg0⟩ : ∃ g0, g0 = GcState.start ⟨z, env⟩ (closedFile 2 [m₁, m₂]) fun _ => 0 := ⟨_, rfl⟩
  have hbegin : raceStep 0 nameA (.start ⟨z, env⟩) (.begin fun _ => 0)
      = some ((Race.start ⟨z, env⟩).inLoop ⟨0, 0, [], [], 0, [m₁, m₂], g0⟩ []) := by
    have hfind : env.tbl.find nameA = some 0 := by rw [htbl]; exact find_nameA rfl
    have hfreed : env.tbl.freed 0 = false := by
      rw [htbl]
      exact (Table.Tidy.single _).live (find_nameA rfl)
    have hobj : env.tbl.objs 0 = closedFile 2 [m₁, m₂] := by rw [htbl, objs_single]
    have hb := Race.begin_found (s := .start ⟨z, env⟩) hfind hfreed fun _ => 0
    rw [show (Race.start ⟨z, env⟩).w.env.tbl.objs 0 = closedFile 2 [m₁, m₂] from hobj] at hb
    rw [hg0]
    exact congrArg some hb
  have hz0 : g0.z = z := by rw [hg0]; rfl
  have hch0 : g0.mapChange = [] := by rw [hg0]; rfl
  -- the two pieces
  have hen1 : Enough g0.z (clampLevel 0) m₁.num := Or.inl (by rw [hlevel, hz0]; omega)
  obtain ⟨io1, m₁', z1, buf1, hrun1, hio1, hcopy1, hw1, hfate1, hnum1', hsub1, hroom1⟩ :=
    exists_copyPiece (g := g0) (by rw [hz0]; exact ha) (by rw [hz0]; exact hl1) hpos1
      (by rw [hnum1]; decide) hen1 (by rw [hnum1]; exact Ztl.nextRoom_pos _ _)
  rw [hz0] at hw1 hsub1 hroom1
  rw [hlevel, hnum1, Ztl.nextRoom, if_neg (by omega)] at hroom1
  have hnone : Holds z [] := ⟨by simp, by simp, by simp, by simp⟩
  obtain ⟨⟨parts1, ha1⟩, hh1, -⟩ := hnone.write ha (hmax io1 buf1 hnum1) (hstores io1 buf1 m₁ hfate1) hw1
  obtain ⟨hl2', -⟩ := hl2.write ha (hmax io1 buf1 hnum1) (hstores io1 buf1 m₁ hfate1) hw1
  obtain ⟨g1, hg1⟩ : ∃ g1, g1 = ({ g0 with gcBuffer := buf1, z := z1 }).note nameA 0 m₁' := ⟨_, rfl⟩
  have hz1 : g1.z = z1 := by rw [hg1, GcState.note_z]
  have hen2 : Enough g1.z (clampLevel 0) m₂.num := Or.inl (by rw [hlevel, hz1]; omega)
  obtain ⟨io2, m₂', z2, buf2, hrun2, hio2, hcopy2, hw2, hfate2, hnum2', hsub2, -⟩ :=
    exists_copyPiece (g := g1) (by rw [hz1]; exact ha1) (by rw [hz1]; exact hl2') hpos2
      (by rw [hnum2]; decide) hen2 (by rw [hnum2]; exact Ztl.nextRoom_pos _ _)
  rw [hz1] at hw2 hsub2
  obtain ⟨-, hh2, -⟩ := hh1.write ha1 (hmax io2 buf2 hnum2) (hstores io2 buf2 m₂ hfate2) hw2
  -- the steps
  have h1 : raceStep 0 nameA ((Race.start ⟨z, env⟩).inLoop ⟨0, 0, [], [], 0, [m₁, m₂], g0⟩ [])
      (.copy io1) = _ := raceStep_copy [] rfl rfl hn1 hrun1 hcopy1
  have h2 : raceStep 0 nameA ((Race.start ⟨z, env⟩).inLoop ⟨0, 0, [], [m₁'], 0, [m₂],
      { g0 with gcBuffer := buf1, z := z1 }⟩ [m₁']) .note = _ := raceStep_note [m₁'] rfl
  rw [← hg1] at h2
  have h3 : raceStep 0 nameA ((Race.start ⟨z, env⟩).inLoop ⟨0, 0, [m₁'], [], 1, [m₂], g1⟩ [m₁'])
      (.copy io2) = _ := raceStep_copy [m₁'] rfl rfl hn2 hrun2 hcopy2
  have h4 : raceStep 0 nameA ((Race.start ⟨z, env⟩).inLoop ⟨0, 0, [m₁'], [m₂'], 0, [],
      { g1 with gcBuffer := buf2, z := z2 }⟩ [m₁', m₂']) .note = _ := raceStep_note [m₁', m₂'] rfl
  have hrun : Runs (raceStep 0 nameA) (fun s a => a.Spares 0 nameA s) (.start ⟨z, env⟩)
      [.begin fun _ => 0, .copy io1, .note, .copy io2, .note] _ :=
    .cons trivial hbegin (.cons (copy_spares rfl hrun1 hcopy1) h1 (.cons trivial h2
      (.cons (copy_spares rfl hrun2 hcopy2) h3 (.one trivial h4))))
  obtain ⟨hmaps, hch⟩ := GcState.note_maps { g1 with gcBuffer := buf2, z := z2 } nameA 0 m₂'
  refine ⟨⟨z, env⟩, m₁, m₂, m₁', m₂', _, _, htbl, ⟨hn1, hn2⟩, ⟨_, hrun⟩, rfl, ⟨rfl, rfl, rfl, rfl⟩,
    ?_, rfl, fun hee => ?_, rfl, rfl, rfl, ?_, _, _, hlog.log, hlog.sequence⟩
  · have hch1 : g1.mapChange = [] ++ [0] := by
      rw [hg1, (GcState.note_maps ..).2, ← hch0]
    rw [hch, hmaps]
    show List.map (update g1.maps 0 m₂') (g1.mapChange ++ [0]) = _
    rw [hch1]
    simp
  · -- both pieces are held, so their units differ
    subst hee
    have hdisj := hh2.disj
    simp only [chunksAt, nil_append, singleton_append, pairwise_cons,
      mem_singleton, forall_eq] at hdisj
    have hapart := hdisj.1 rfl
    omega
  · show ((GcState.note _ nameA 0 m₂').z).submitHead = []
    rw [GcState.note_z, hsub2, hsub1, hsub]

section

variable {w : World} {m₁ m₂ m₁' m₂' : ZrocksMap} {s : Race} {c : Copying}

section

variable (h : MovedTwice w m₁ m₂ m₁' m₂' s c)
include h

theorem MovedTwice.find :
    s.w.env.tbl.find nameA = some 0 ∧ s.w.env.tbl.freed 0 = false ∧
      s.w.env.tbl.objs 0 = closedFile 2 [m₁, m₂] := by
  rw [h.same, h.tbl]
  exact ⟨find_nameA rfl, (Table.Tidy.single _).live (find_nameA rfl), objs_single _⟩

theorem MovedTwice.trimmed : ∃ z', trimAll [m₁, m₂] s.w.z = .ok z' ∧ z'.submitHead.length ≤ 2 := by
  have hlen : s.w.z.submitHead.length = 0 := by rw [h.idle]; rfl
  obtain ⟨z', hz'⟩ := exists_trimAll [m₁, m₂] (z := s.w.z)
    (by rw [hlen]; exact show 2 ≤ ztlNodeMgmtSz by decide)
  exact ⟨z', hz', (trimAll_submitHead _ hz').trans (by rw [hlen]; rfl)⟩

/-- The last section finds the file. -/
theorem MovedTwice.check :
    ∃ s', raceStep 0 nameA s .check = some s' ∧ s'.phase = .ended ∧ s'.deleted = false ∧
      s'.trims = [m₁, m₂] ∧ s'.written = [m₁', m₂'] := by
  obtain ⟨hp, hdone, hmaps, hrest⟩ := h.copied
  obtain ⟨hfind, hfreed, hobj⟩ := h.find
  have hnode : onNode 0 [m₁, m₂] = [m₁, m₂] := by
    rw [onNode, filter_eq_self]
    intro m hm
    obtain rfl | rfl : m = m₁ ∨ m = m₂ := by simpa using hm
    · exact decide_eq_true h.node.1
    · exact decide_eq_true h.node.2
  obtain ⟨z', hz', -⟩ := h.trimmed
  obtain ⟨seq, recs, hl⟩ := h.log
  have hpub : ∃ e', migratePublish s.w 0 nameA 0 c.done c.g = .ok ⟨z', e'⟩ ∧ _ ∧ _ :=
    exists_publish_single (f := closedFile 2 [m₁, m₂]) (h.same.trans h.tbl) hl
      (show nameA.length ≤ fileNameLen by decide)
      (by rw [hdone]; exact show 2 ≤ maxPieces by decide)
      ((congrArg (trimAll · s.w.z) hnode).trans hz')
  obtain ⟨e', he', -⟩ := hpub
  refine ⟨_, raceStep_check h.phase hmaps hrest (mem_files hfind) (by rw [hp]; exact hfreed)
    (by rw [hp]; exact he'), rfl, h.deleted, ?_, h.written⟩
  rw [h.trims, hp, hobj]
  exact hnode

/-- The file can be deleted before the last section. -/
theorem MovedTwice.delete :
    ∃ w', w'.z.submitHead.length ≤ 2 ∧ nameA ∉ w'.env.tbl.files ∧ raceStep 0 nameA s .delete =
      some { s with w := w', trims := [m₁, m₂], deleted := true } := by
  obtain ⟨hfind, hfreed, hobj⟩ := h.find
  obtain ⟨z', hz', hlen⟩ := h.trimmed
  have hnone : ∀ n, ((s.w.env.tbl.delete 0).erase nameA).find n = none := by
    intro n
    rw [find_erase]
    split
    · rfl
    · next hn =>
      show s.w.env.tbl.find n = none
      rw [h.same, h.tbl, find_single]
      exact if_neg hn
  obtain ⟨e', he'⟩ := exists_flushRecord
    (e := s.w.env.setTbl ((s.w.env.tbl.delete 0).erase nameA))
    (fun n q hq => absurd ((hnone n).symm.trans hq) (by simp)) .delete
    (Bytes.memcpy (fun _ => 0) metadataHeadLen nameA) (metadataHeadLen + fileNameLen)
  have hgone : nameA ∉ e'.tbl.files := by
    rw [(flushRecord_same he').1.files]
    exact fun hmem => (Std.ExtTreeMap.mem_erase.mp hmem).1 Std.ReflCmp.compare_self
  refine ⟨⟨z', e'⟩, hlen, hgone, ?_⟩
  have hdel : deleteFile s.w nameA = .ok ⟨z', e'⟩ := by
    rw [deleteFile, hfind]
    simp only [Table.get, hfreed]
    refine bind_eq_ok.mpr ⟨closedFile 2 [m₁, m₂], by rw [← hobj]; rfl, ?_⟩
    refine bind_eq_ok.mpr ⟨z', hz', bind_eq_ok.mpr ⟨e', ?_, rfl⟩⟩
    rw [removeFile, flushDelMetaData, if_neg (by decide)]
    exact he'
  rw [raceStep, if_neg (by simp [h.deleted])]
  refine bind_eq_some_iff.mpr ⟨⟨z', e'⟩, toOption_eq_some.mpr hdel, ?_⟩
  rw [hfind, Table.piecesOf, h.trims]
  rw [hobj]
  rfl

end

end

/-! ### Trimmed exactly once -/

/-- **No piece is lost, and none is trimmed twice.**  Over every interleaving in which every piece
on the node is moved, the file is not created again between the first and the last section, and the
last section does not miss the name when an element of `maps` was filled twice: no deleted object
is used.  When the migration has ended and the file is deleted, what was trimmed is the old pieces
and the ones written by the migration, each as often as it is there; while the file is there, what
was trimmed and what is in the map together are that.  And the file created behind the deletion has
the map it was created with. -/
theorem race_run {nid : Nat} {fileName : Name} {w₀ : World} {p : Ptr} {as : List RaceOp} {s : Race}
    (hp : w₀.env.tbl.find fileName = some p) (hlive : w₀.env.tbl.freed p = false)
    (hrun : Runs (raceStep nid fileName) (fun s a => a.Spares nid fileName s) (.start w₀) as s) :
    s.phase ≠ .wild ∧
    (s.phase = .ended →
      (s.deleted = true → s.trims.Perm ((w₀.env.tbl.objs p).map ++ s.written)) ∧
      (s.deleted = false →
        (s.trims ++ (s.w.env.tbl.objs p).map).Perm ((w₀.env.tbl.objs p).map ++ s.written))) ∧
    ∀ q, s.recreated = some q →
      s.w.env.tbl.find fileName = some q ∧ (s.w.env.tbl.objs q).map = [] := by
  have hstart : RaceInv nid fileName p (w₀.env.tbl.objs p).map (.start w₀) :=
    ⟨fun _ => ⟨hp, hlive, rfl⟩, nofun, nofun, ⟨⟨nofun, fun _ => ⟨rfl, rfl⟩⟩, rfl⟩⟩
  have hinv : RaceInv nid fileName p (w₀.env.tbl.objs p).map s :=
    Runs.invariant (fun _ _ _ h hg e => h.step hg e) hrun hstart
  have hacc := hinv.accounts
  refine ⟨fun hw => ?_, fun he => ?_, fun q hq => ?_⟩
  · rw [Race.Accounts, hw] at hacc
    exact hacc
  · rw [Race.Accounts, he] at hacc
    exact hacc
  · obtain ⟨hfind, -, -, hmap, -⟩ := hinv.again q hq
    exact ⟨hfind, hmap⟩

/-- The collector moves both pieces of a file that no one deletes: the old pieces are trimmed and the
new ones are in the map. -/
theorem race_run_moved : ∃ w₀ m₁ m₂ as s,
    (w₀.env.tbl.objs 0).map = [m₁, m₂] ∧
    Runs (raceStep 0 nameA) (fun s a => a.Spares 0 nameA s) (.start w₀) as s ∧
    s.phase = .ended ∧ s.trims = [m₁, m₂] ∧ s.written.length = 2 ∧
    (s.trims ++ (s.w.env.tbl.objs 0).map).Perm ((w₀.env.tbl.objs 0).map ++ s.written) := by
  obtain ⟨w, m₁, m₂, m₁', m₂', s, c, h⟩ := exists_movedTwice
  obtain ⟨as, hrun⟩ := h.run
  obtain ⟨s', hs', hended, hdel, htrims, hwritten⟩ := h.check
  have hspare : RaceOp.check.Spares 0 nameA s := fun _ _ hmem => absurd (mem_files h.find.1) hmem
  have hrun' := hrun.append (.one hspare hs')
  have hfind : w.env.tbl.find nameA = some 0 := by rw [← h.same]; exact h.find.1
  have hfreed : w.env.tbl.freed 0 = false := by rw [← h.same]; exact h.find.2.1
  have hmap : (w.env.tbl.objs 0).map = [m₁, m₂] := by rw [← h.same, h.find.2.2]; rfl
  refine ⟨w, m₁, m₂, _, s', hmap, hrun', hended, htrims, by rw [hwritten]; rfl, ?_⟩
  exact ((race_run hfind hfreed hrun').2.1 hended).2 hdel

/-- **Two pieces are moved, then the file is deleted.**  Every step succeeds.  The last section
finds the name gone and trims what `map_change` points to: the first piece written is never
trimmed, and the second one twice. -/
theorem race_leak : ∃ w₀ m₁ m₂ m₁' m₂' as s,
    w₀.env.tbl.find nameA = some 0 ∧ w₀.env.tbl.freed 0 = false ∧
    (w₀.env.tbl.objs 0).map = [m₁, m₂] ∧
    Runs (raceStep 0 nameA) (fun _ _ => True) (.start w₀) as s ∧
    s.phase = .ended ∧ s.deleted = true ∧ s.written = [m₁', m₂'] ∧ m₁' ≠ m₂' ∧
    s.trims = [m₁, m₂, m₂', m₂'] ∧
    ¬ s.trims.Perm ((w₀.env.tbl.objs 0).map ++ s.written) := by
  obtain ⟨w, m₁, m₂, m₁', m₂', s, c, h⟩ := exists_movedTwice
  obtain ⟨as, hrun⟩ := h.run
  obtain ⟨w₁, hlen, hgone, hdel⟩ := h.delete
  obtain ⟨z₂, hz₂⟩ := exists_trimAll [m₂', m₂'] (z := w₁.z)
    ((Nat.add_le_add_right hlen 2).trans (by decide))
  have hcheck : raceStep 0 nameA { s with w := w₁, trims := [m₁, m₂], deleted := true } .check
      = some { s with w := w₁, phase := .dropping c.g, trims := [m₁, m₂], deleted := true } := by
    rw [raceStep]
    simp only [h.phase, Race.check, h.copied.2.2.1, h.copied.2.2.2]
    rw [if_neg hgone]
  have hdrop : raceStep 0 nameA
      { s with w := w₁, phase := .dropping c.g, trims := [m₁, m₂], deleted := true } .drop
      = some { s with
          w := ⟨z₂, w₁.env⟩, phase := .ended, trims := [m₁, m₂, m₂', m₂'], deleted := true } := by
    rw [raceStep]
    simp only [Race.drop, h.mapChange]
    exact bind_eq_some_iff.mpr ⟨z₂, toOption_eq_some.mpr hz₂, rfl⟩
  have hmap : (w.env.tbl.objs 0).map = [m₁, m₂] := by rw [← h.same, h.find.2.2]; rfl
  refine ⟨w, m₁, m₂, m₁', m₂', _, _, by rw [← h.same]; exact h.find.1,
    by rw [← h.same]; exact h.find.2.1, hmap,
    (hrun.mono fun _ _ _ => trivial).append
      (.cons trivial hdel (.cons trivial hcheck (.one trivial hdrop))),
    rfl, rfl, h.written, h.ne, rfl, fun hperm => ?_⟩
  rw [hmap, h.written] at hperm
  have hrest : [m₂', m₂'].Perm [m₁', m₂'] := (perm_append_left_iff [m₁, m₂]).mp hperm
  have hmem : m₁' ∈ [m₂', m₂'] := hrest.mem_iff.mpr (by simp)
  exact h.ne (by simpa using hmem)

end Xztl
