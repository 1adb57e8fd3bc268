import Xztl.Zrocks.Accounting

/-!
# Zrocks — what is written can be read

A run of writes whose media commands succeed, from a fresh group on.  A *chunk* is a range of units
of a node together with the bytes that were written there; `Holds z cs` says that the chunks `cs` lie
below their nodes' `used` counters, that no two of them overlap, and that the device holds their
bytes.  A piece adds a chunk and disturbs no other (`Holds.piece`), since it only writes units from
`used` on.

`write_read_run` puts this together with the read side: every returned piece can be read back at any
later point, in any part.
-/

namespace Xztl

open List

/-- Units `start`, …, `start + num - 1` of a node, and the bytes in them. -/
structure Chunk where
  nodeId : Nat
  start : Nat
  num : Nat
  content : Nat → UInt8

/-- Two ranges of units that do not overlap. -/
def RangesDisjoint (n s k n' s' k' : Nat) : Prop := n = n' → s + k ≤ s' ∨ s' + k' ≤ s

/-- The device holds the chunks. -/
structure Holds (z : Ztl) (cs : List Chunk) : Prop where
  lt : ∀ c ∈ cs, c.nodeId < z.nnodes
  used : ∀ c ∈ cs, c.start + c.num ≤ (z.vnodes c.nodeId).used
  data : ∀ c ∈ cs, ∀ i < unitBytes * c.num,
    nodeByte z.dev c.nodeId (unitBytes * c.start + i) = c.content i
  disj : cs.Pairwise fun c c' =>
    RangesDisjoint c.nodeId c.start c.num c'.nodeId c'.start c'.num

variable {c : WriteCall} {s : WState}

section

variable {w : WriteReq} {z z' : Ztl} {parts : NodeList → List Nat} {cs : List Chunk}
  {b left n num : Nat}

theorem Holds.kept (h : Holds z cs) (hk : Kept z z') : Holds z' cs where
  lt := fun c hc => hk.nnodes ▸ h.lt c hc
  used := fun c hc => (hk.counters c.nodeId).1 ▸ h.used c hc
  data := fun c hc => hk.dev ▸ h.data c hc
  disj := h.disj

theorem Holds.setLevel (h : Holds z cs) (l : Nat) : Holds (setLevel z n l) cs where
  lt := h.lt
  used := fun c hc => by
    by_cases e : c.nodeId = n
    · subst e
      rw [setLevel_used]
      exact h.used c hc
    · rw [Xztl.setLevel, Ztl.setNode_of_ne _ _ e]
      exact h.used c hc
  data := h.data
  disj := h.disj

/-- A byte of a node lies in a sector of its unit. -/
theorem inUnit_byte (n off : Nat) :
    InUnit n (off / unitBytes) (unitSect n (off / unitBytes) + off % unitBytes / znsAligment) := by
  simp only [InUnit, unitBytes_eq, znsAligment, ztlIoSecMcmd]
  omega

/-- The bytes of a piece whose units are all stored. -/
theorem PieceDone.nodeByte_self (hd : PieceDone w z n num b z')
    (hs : ∀ k < num, w.Stores (b + k)) {i : Nat} (hi : i < unitBytes * num) :
    nodeByte z'.dev n (unitBytes * (z.vnodes n).used + i) = w.buf (unitBytes * b + i) := by
  set U := (z.vnodes n).used with hU
  have hk : i / unitBytes < num := Nat.div_lt_of_lt_mul hi
  have hdiv : (unitBytes * U + i) / unitBytes = U + i / unitBytes := by
    rw [unitBytes_eq]
    omega
  have hin := inUnit_byte n (unitBytes * U + i)
  rw [hdiv] at hin
  rw [nodeByte, hdiv, hd.data _ hk (hs _ hk) _ hin, ← hU, Nat.add_sub_cancel_left]
  congr 1
  simp only [unitBytes_eq, znsAligment] at *
  omega

theorem PieceDone.nodeByte_other (hd : PieceDone w z n num b z')
    (hfit : (z.vnodes n).used + num ≤ ztlProOptSecNumInnode) {m off : Nat}
    (hoff : off / unitBytes < ztlProOptSecNumInnode)
    (hout : m = n → off / unitBytes < (z.vnodes n).used) :
    nodeByte z'.dev m off = nodeByte z.dev m off := by
  rw [nodeByte, nodeByte, hd.frame]
  intro k hk hin
  obtain ⟨hmn, hu⟩ := unitSect_disj hoff (by omega) (inUnit_byte m off) hin
  omega

/-- **A piece adds its chunk and disturbs no other.** -/
theorem Holds.piece (h : Holds z cs) (hn : n < z.nnodes)
    (hbal : ∀ m < z.nnodes, (z.vnodes m).used ≤ ztlProOptSecNumInnode)
    (hfit : (z.vnodes n).used + num ≤ ztlProOptSecNumInnode) (hd : PieceDone w z n num b z')
    (hs : ∀ k < num, w.Stores (b + k)) :
    Holds z' (cs ++ [⟨n, (z.vnodes n).used, num, fun i => w.buf (unitBytes * b + i)⟩]) := by
  have hused : ∀ m, (z.vnodes m).used ≤ (z'.vnodes m).used := fun m => by
    by_cases e : m = n
    · subst e
      rw [hd.node_self]
      exact Nat.le_add_right _ _
    · rw [hd.node_of_ne e]
  refine ⟨fun c hc => ?_, fun c hc => ?_, fun c hc i hi => ?_, ?_⟩
  · rw [hd.nnodes]
    rcases mem_append.mp hc with hc | hc
    · exact h.lt c hc
    · obtain rfl := mem_singleton.mp hc
      exact hn
  · rcases mem_append.mp hc with hc | hc
    · exact le_trans (h.used c hc) (hused _)
    · obtain rfl := mem_singleton.mp hc
      rw [hd.node_self]
      exact le_refl _
  · rcases mem_append.mp hc with hc | hc
    · have hcu := h.used c hc
      have hcb := hbal _ (h.lt c hc)
      have hdiv : (unitBytes * c.start + i) / unitBytes < c.start + c.num := by
        rw [unitBytes_eq] at *
        omega
      rw [hd.nodeByte_other hfit (by omega) fun e => by rw [e] at hcu; omega]
      exact h.data c hc i hi
    · obtain rfl := mem_singleton.mp hc
      exact hd.nodeByte_self hs hi
  · rw [pairwise_append]
    refine ⟨h.disj, by simp, fun c hc c' hc' e => ?_⟩
    obtain rfl := mem_singleton.mp hc'
    have hcu := h.used c hc
    have e : c.nodeId = n := e
    rw [e] at hcu
    exact Or.inl hcu

/-- The chunks of a write's pieces, the data starting at unit `b` of the buffer. -/
def chunksOf (buf : Nat → UInt8) : Nat → List Piece → List Chunk
  | _, [] => []
  | b, p :: ps => ⟨p.nodeId, p.start, p.num, fun i => buf (unitBytes * b + i)⟩ ::
      chunksOf buf (b + p.num) ps

theorem Holds.round {z1 : Ztl} (h : Holds z cs) (ha1 : Alloc z1 parts) (hk : Kept z z1)
    (hn : n ∈ parts .usedHead) (hle : num ≤ (z1.vnodes n).left)
    (hd : PieceDone w (Xztl.setLevel z1 n w.provType) n num b z')
    (hs : ∀ k < num, w.Stores (b + k)) :
    Holds z' (cs ++ [⟨n, (z1.vnodes n).used, num, fun i => w.buf (unitBytes * b + i)⟩]) := by
  have hlt := ha1.lt hn
  have ha2 := ha1.setLevel hn w.provType
  have hb := ha1.balance n hlt
  have := ((h.kept hk).setLevel w.provType).piece hlt
    (fun m hm => by have := ha2.balance m hm; omega) (by rw [setLevel_used]; omega) hd hs
  rwa [setLevel_used] at this

/-- **A run of the `reget` loop whose units are all stored** adds the chunks of its pieces. -/
theorem Pieces.holds {ps : List Piece} {ok : Bool} (hp : Pieces w z b left ps ok z') :
    ∀ {parts cs}, Alloc z parts → Holds z cs → (∀ k < left, w.Stores (b + k)) →
      Holds z' (cs ++ chunksOf w.buf b ps) := by
  induction hp with
  | fail e =>
    intro parts cs ha h _
    obtain ⟨-, -, hk, -⟩ := ha.getNode e
    rw [chunksOf, append_nil]
    exact h.kept hk
  | last e hq hle hd =>
    intro parts cs ha h hs
    obtain ⟨parts1, ha1, hk, -, hn, -⟩ := ha.step e hq hle hd
    exact h.round ha1 hk hn hle hd hs
  | more e hq hlt hd _ ih =>
    intro parts cs ha h hs
    obtain ⟨parts1, ha1, hk, -, hn, ha'⟩ := ha.step e hq (le_refl _) hd
    have h' := h.round ha1 hk hn (le_refl _) hd fun k hk => hs k (by omega)
    have := ih ha' h' fun k hk => by
      rw [Nat.add_assoc]
      exact hs _ (by omega)
    rwa [append_assoc] at this

/-- The chunks of returned pieces. -/
def chunksAt (buf : Nat → UInt8) : Nat → List ZrocksMap → List Chunk
  | _, [] => []
  | b, m :: ms => ⟨m.nodeId, m.start, m.num, fun i => buf (unitBytes * b + i)⟩ ::
      chunksAt buf (b + m.num) ms

theorem chunksAt_toMaps {ps : List Piece} (h : ∀ p ∈ ps, p.Fits) (buf : Nat → UInt8)
    (padding : Nat) : ∀ b, chunksAt buf b (toMaps ps padding) = chunksOf buf b ps := by
  induction ps with
  | nil => exact fun _ => rfl
  | cons p ps ih =>
    intro b
    have hp := h p mem_cons_self
    have ih := ih fun q hq => h q (mem_cons_of_mem _ hq)
    cases ps with
    | nil =>
      simp [toMaps, chunksAt, chunksOf, ZrocksMap.ofPiece_nodeId hp,
        ZrocksMap.ofPiece_start hp, ZrocksMap.ofPiece_num hp]
    | cons p' ps =>
      rw [toMaps, chunksAt, ih, ZrocksMap.ofPiece_nodeId hp, ZrocksMap.ofPiece_start hp,
        ZrocksMap.ofPiece_num hp]
      rfl

theorem chunksAt_append (buf : Nat → UInt8) (ms ms' : List ZrocksMap) :
    ∀ b, chunksAt buf b (ms ++ ms') = chunksAt buf b ms ++ chunksAt buf (b + mapUnits ms) ms' := by
  induction ms with
  | nil => exact fun _ => rfl
  | cons m ms ih =>
    intro b
    rw [cons_append, chunksAt, ih, chunksAt, cons_append, mapUnits_cons,
      Nat.add_assoc]

/-- The ranges of the chunks are those of the pieces. -/
theorem chunksAt_ranges (buf : Nat → UInt8) (ms : List ZrocksMap) :
    ∀ b, (chunksAt buf b ms).map (fun c => (c.nodeId, c.start, c.num))
      = ms.map fun m => (m.nodeId.val, m.start.val, m.num.val) := by
  induction ms with
  | nil => exact fun _ => rfl
  | cons m ms ih =>
    intro b
    rw [chunksAt, map_cons, ih, map_cons]

/-- **A write whose units are all stored** adds the chunks of its pieces. -/
theorem Holds.write {ans : List MediaAns} {ret : Nat} {maps : List ZrocksMap}
    (h : Holds z cs) (ha : Alloc z parts) (hmax : c.ncmd ≤ xztlIoMaxMcmd)
    (hs : ∀ k < c.ncmd, c.req.Stores k) (e : zrocksWrite z c ans = .ok (z', ret, maps)) :
    (∃ parts', Alloc z' parts') ∧ Holds z' (cs ++ chunksAt c.buf 0 maps) ∧
      ∀ m ∈ maps, m.num.val ≤ ztlIoRcNum := by
  obtain ⟨-, ⟨hbig, -⟩ | ⟨-, ps, ok, parts', hp, ha', rfl, hrc⟩⟩ := zrocksWrite_spec ha e
  · exact absurd hbig (Nat.not_lt_of_le hmax)
  · have hfits := hp.fits ha hrc
    refine ⟨⟨parts', ha'⟩, ?_, fun m hm => ?_⟩
    · rw [chunksAt_toMaps hfits]
      exact hp.holds ha h fun k hk => by rw [Nat.zero_add]; exact hs k hk
    · obtain ⟨p, hpm, -, hnum⟩ := mem_toMaps hfits hm
      exact hnum ▸ hrc p hpm

/-- The units of a write that finds room. -/
theorem zrocksWrite_units {ans : List MediaAns} {ret : Nat} {maps : List ZrocksMap}
    (ha : Alloc z parts) (hpos : 0 < c.ncmd) (hle : c.ncmd ≤ ztlIoRcNum)
    (hen : Enough z (clampLevel c.level) c.ncmd) (e : zrocksWrite z c ans = .ok (z', ret, maps)) :
    mapUnits maps = c.ncmd := by
  rw [ztlIoRcNum_eq] at hle
  obtain ⟨-, ⟨hbig, -⟩ | ⟨-, ps, ok, parts', hp, ha', rfl, hrc⟩⟩ := zrocksWrite_spec ha e
  · simp only [xztlIoMaxMcmd] at hbig
    omega
  · obtain ⟨-, hsum⟩ := (hp.units ha hpos (by rw [ztlProOptSecNumInnode_eq]; omega)).1 hen
    rw [mapUnits_toMaps (hp.fits ha hrc), hsum]

end

/-! ### Runs of writes -/

/-- The translation layer, and the writes so far with the pieces they returned. -/
structure WState where
  z : Ztl
  hist : List (WriteCall × List ZrocksMap)

/-- A fresh group, nothing written. -/
def WState.fresh (g : GroupSize) (dev : Dev) : WState := ⟨Ztl.fresh g dev, []⟩

/-- One write. -/
def wstep (s : WState) (a : WriteCall × List MediaAns) : Option WState :=
  match zrocksWrite s.z a.1 a.2 with
  | .ok (z, _, maps) => some ⟨z, s.hist ++ [(a.1, maps)]⟩
  | .error _ => none

/-- A write of at most `ZNS_MAX_BUF` bytes whose media commands succeed and that finds enough free
nodes: the current node of its level has room for it, or a node is free. -/
def WriteOk (s : WState) (a : WriteCall × List MediaAns) : Prop :=
  1 ≤ a.1.size ∧ a.1.size ≤ znsMaxBuf ∧ (∀ i j, a.1.fate i j = 0) ∧
    Enough s.z (clampLevel a.1.level) a.1.ncmd

/-- All chunks written so far. -/
def WState.chunks (s : WState) : List Chunk := s.hist.flatMap fun e => chunksAt e.1.buf 0 e.2

/-- What a run of writes keeps. -/
structure WSound (s : WState) : Prop where
  alloc : ∃ parts, Alloc s.z parts
  holds : Holds s.z s.chunks
  short : ∀ e ∈ s.hist, ∀ m ∈ e.2, m.num.val ≤ ztlIoRcNum
  whole : ∀ e ∈ s.hist, e.1.size ≤ unitBytes * mapUnits e.2

/-- The units of a write of at most `ZNS_MAX_BUF` bytes. -/
theorem WriteCall.ncmd_of_le (h1 : 1 ≤ c.size) (h2 : c.size ≤ znsMaxBuf) :
    c.ncmd = (c.size + (unitBytes - 1)) / unitBytes ∧ 0 < c.ncmd ∧ c.ncmd ≤ ztlIoRcNum := by
  have h3 : c.size ≤ 33554432 := h2
  have e := c.ncmd_eq (by omega)
  rw [unitBytes_eq] at *
  rw [ztlIoRcNum_eq]
  refine ⟨e, ?_, ?_⟩
  · rw [e]
    omega
  · rw [e]
    omega

theorem WSound.wstep {s' : WState} {a : WriteCall × List MediaAns} (h : WSound s)
    (hg : WriteOk s a) (e : wstep s a = some s') : WSound s' := by
  obtain ⟨parts, ha⟩ := h.alloc
  obtain ⟨h1, h2, hfate, hroom⟩ := hg
  obtain ⟨hncmd, hpos, hmax⟩ := WriteCall.ncmd_of_le h1 h2
  rw [Xztl.wstep] at e
  split at e
  next z ret maps hw =>
    cases e
    have hchunks : WState.chunks ⟨z, s.hist ++ [(a.1, maps)]⟩
        = s.chunks ++ chunksAt a.1.buf 0 maps := by
      simp [WState.chunks, flatMap_append]
    obtain ⟨ha', hholds, hshort⟩ := h.holds.write ha (by
      rw [ztlIoRcNum_eq] at hmax
      simp only [xztlIoMaxMcmd]
      omega) (fun k _ => ⟨0, by decide, hfate _ _⟩) hw
    refine ⟨ha', hchunks ▸ hholds, fun e he => ?_, fun e he => ?_⟩
    · rcases mem_append.mp he with he | he
      · exact h.short e he
      · obtain rfl := mem_singleton.mp he
        exact hshort
    · rcases mem_append.mp he with he | he
      · exact h.whole e he
      · obtain rfl := mem_singleton.mp he
        rw [zrocksWrite_units ha hpos hmax hroom hw, hncmd, unitBytes_eq]
        show a.1.size ≤ _
        omega
  next => cases e

theorem WSound.fresh (g : GroupSize) (dev : Dev) : WSound (WState.fresh g dev) where
  alloc := ⟨_, Alloc.fresh g dev⟩
  holds := by
    constructor <;> simp [WState.chunks, WState.fresh]
  short := by simp [WState.fresh]
  whole := by simp [WState.fresh]

/-- The chunk of a returned piece. -/
theorem WState.mem_chunks {pre post : List ZrocksMap} {m : ZrocksMap}
    (h : (c, pre ++ m :: post) ∈ s.hist) :
    (⟨m.nodeId, m.start, m.num, fun i => c.buf (unitBytes * mapUnits pre + i)⟩ : Chunk)
      ∈ s.chunks := by
  refine mem_flatMap.mpr ⟨_, h, ?_⟩
  rw [chunksAt_append, chunksAt, Nat.zero_add]
  exact mem_append_right _ mem_cons_self

/-- The ranges of all pieces are those of all chunks. -/
theorem WState.chunks_ranges (s : WState) :
    s.chunks.map (fun c => (c.nodeId, c.start, c.num))
      = (s.hist.flatMap Prod.snd).map fun m => (m.nodeId.val, m.start.val, m.num.val) := by
  rw [WState.chunks, map_flatMap, map_flatMap]
  congr 1
  funext e
  exact chunksAt_ranges e.1.buf e.2 0

theorem WSound.disjoint (h : WSound s) : (s.hist.flatMap Prod.snd).Pairwise fun m m' =>
      RangesDisjoint m.nodeId m.start m.num m'.nodeId m'.start m'.num := by
  have hd := h.holds.disj
  let R : Nat × Nat × Nat → Nat × Nat × Nat → Prop := fun r r' =>
    RangesDisjoint r.1 r.2.1 r.2.2 r'.1 r'.2.1 r'.2.2
  have hr : (s.chunks.map fun c => (c.nodeId, c.start, c.num)).Pairwise R :=
    pairwise_map.mpr hd
  rw [s.chunks_ranges] at hr
  exact pairwise_map.mp hr

/-- Reading a part of a returned piece. -/
theorem WSound.read (h : WSound s) {pre post : List ZrocksMap}
    {m : ZrocksMap} (hm : (c, pre ++ m :: post) ∈ s.hist) {o len : Nat}
    (hlen : o + len ≤ unitBytes * m.num) {a : ReadAns} (ha : a.Good) (as : List ReadAns)
    (buf : Nat → UInt8) : zrocksRead s.z m.nodeId (unitBytes * m.start + o) len buf (a :: as) =
      .ok (xztlOk, fun i =>
        if i < len then c.buf (unitBytes * mapUnits pre + o + i) else buf i) := by
  obtain ⟨parts, hal⟩ := h.alloc
  have hc := WState.mem_chunks hm
  have hshort := h.short _ hm m (mem_append_right _ mem_cons_self)
  have hrc : ((unitBytes * m.start + o) % unitBytes + len + (unitBytes - 1)) / unitBytes
      ≤ ztlIoRcNum := by
    rw [unitBytes_eq] at *
    omega
  rw [zrocksRead_good hal.geometry (h.holds.lt _ hc) hrc ha]
  congr 2
  funext i
  rw [readBuf]
  by_cases hi : i < len
  · rw [if_pos hi, if_pos hi, Nat.add_assoc, Nat.add_assoc]
    exact h.holds.data _ hc (o + i) (by show o + i < unitBytes * m.num; omega)
  · rw [if_neg hi, if_neg hi]

/-- **Round trip.**  After any run of such writes the returned pieces hold everything, they are
disjoint ranges of units of their nodes, and reading any part of any of them delivers what was
written there. -/
theorem write_read_run (g : GroupSize) (dev : Dev) {as : List (WriteCall × List MediaAns)}
    {s : WState} (h : Runs wstep WriteOk (WState.fresh g dev) as s) :
    (∀ c maps, (c, maps) ∈ s.hist → c.size ≤ unitBytes * mapUnits maps) ∧
    ((s.hist.flatMap Prod.snd).Pairwise fun m m' =>
        RangesDisjoint m.nodeId m.start m.num m'.nodeId m'.start m'.num) ∧
    ∀ c pre m post, (c, pre ++ m :: post) ∈ s.hist →
      ∀ o len, o + len ≤ unitBytes * m.num → ∀ (a : ReadAns), a.Good → ∀ as buf,
        zrocksRead s.z m.nodeId (unitBytes * m.start + o) len buf (a :: as) =
          .ok (xztlOk, fun i =>
            if i < len then c.buf (unitBytes * mapUnits pre + o + i) else buf i) := by
  have hs : WSound s := Runs.invariant (fun _ _ _ hs hg e => hs.wstep hg e) h (WSound.fresh g dev)
  refine ⟨fun c maps hm => hs.whole _ hm, hs.disjoint, ?_⟩
  intro c pre m post hm o len hlen a ha as buf
  exact hs.read hm hlen ha as buf

/-- A write of one byte. -/
def byteWrite : WriteCall := ⟨fun _ => 7, 1, 0, fun _ _ => 0⟩

theorem enough_fresh (dev : Dev) (q left : Nat) : Enough (Ztl.fresh oneNode dev) q left :=
  Or.inr (by
    show ((freeList 1).head .freeHead).first ≠ none
    decide)

/-- A write of one unit is a step. -/
theorem WSound.exists_step (h : WSound s) (h1 : 1 ≤ c.size) (h2 : c.size ≤ unitBytes)
    (hf : ∀ i j, c.fate i j = 0) (hen : Enough s.z (clampLevel c.level) 1) : ∃ ans z m,
    zrocksWrite s.z c ans = .ok (z, xztlOk, [m]) ∧ WriteOk s (c, ans) ∧
      Xztl.wstep s (c, ans) = some ⟨z, s.hist ++ [(c, [m])]⟩ ∧ m.num.val = 1 ∧
      m.padding.val = c.padding % 2 ^ 16 ∧ z.submitHead = s.z.submitHead ∧
      z.room (clampLevel c.level) + 1 = s.z.nextRoom (clampLevel c.level) := by
  obtain ⟨parts, ha⟩ := h.alloc
  have h2' : c.size ≤ znsMaxBuf := h2.trans (by decide)
  have hn : c.ncmd = 1 := by
    rw [(WriteCall.ncmd_of_le h1 h2').1]
    rw [unitBytes_eq] at *
    omega
  obtain ⟨ans, z, m, e, hnum, hpad, hsub, hroom⟩ := exists_unitWrite ha hn hen
  refine ⟨ans, z, m, e, ⟨h1, h2', hf, by rwa [hn]⟩, ?_, hnum, hpad, hsub, hroom⟩
  rw [Xztl.wstep]
  simp only [e]

/-- Two writes of a unit each on level 0, one after the other. -/
structure TwoWrites (c₁ c₂ : WriteCall) (as : List (WriteCall × List MediaAns)) (s : WState)
    (m₁ m₂ : ZrocksMap) : Prop where
  run : Runs wstep WriteOk (WState.fresh oneNode .blank) as s
  hist : s.hist = [(c₁, [m₁]), (c₂, [m₂])]
  sound : Sound s.z [m₁, m₂]
  one : s.z.nnodes = 1
  num : m₁.num.val = 1 ∧ m₂.num.val = 1
  padding : m₁.padding.val = c₁.padding % 2 ^ 16 ∧ m₂.padding.val = c₂.padding % 2 ^ 16
  submitHead : s.z.submitHead = []
  room : 2 ≤ s.z.room 0

theorem exists_twoWrites (c₁ c₂ : WriteCall) (h : ∀ c ∈ [c₁, c₂],
    1 ≤ c.size ∧ c.size ≤ unitBytes ∧ (∀ i j, c.fate i j = 0) ∧ c.level = 0) :
    ∃ as s m₁ m₂, TwoWrites c₁ c₂ as s m₁ m₂ := by
  obtain ⟨h1, h1', hf1, hl1⟩ := h c₁ (by simp)
  obtain ⟨h2, h2', hf2, hl2⟩ := h c₂ (by simp)
  have hlevel : clampLevel 0 = 0 := by decide
  have hs := WSound.fresh oneNode .blank
  obtain ⟨ans1, z1, m₁, e1, hok1, hstep1, hnum1, hpad1, hsub1, hroom1⟩ :=
    hs.exists_step h1 h1' hf1 (enough_fresh .blank _ _)
  have hnext : (WState.fresh oneNode .blank).z.nextRoom 0 = ztlProOptSecNumInnode := if_pos rfl
  rw [hl1, hlevel, hnext, ztlProOptSecNumInnode_eq] at hroom1
  have hone : 1 ≤ z1.room 0 := by omega
  have hs1 := hs.wstep hok1 hstep1
  obtain ⟨parts1, ha1⟩ := hs1.alloc
  obtain ⟨ans2, z2, m₂, e2, hok2, hstep2, hnum2, hpad2, hsub2, hroom2⟩ :=
    hs1.exists_step h2 h2' hf2 (by rw [hl2, hlevel]; exact Or.inl hone)
  have hnext : z1.nextRoom 0 = z1.room 0 := if_neg (by omega)
  rw [hl2, hlevel, show (WState.mk z1 _).z = z1 from rfl, hnext] at hroom2
  exact ⟨_, _, m₁, m₂, .cons hok1 hstep1 (.one hok2 hstep2), rfl,
    ((Sound.fresh oneNode .blank).write e1).write e2,
    (zrocksWrite_frame ha1 e2).1.trans (zrocksWrite_frame (Alloc.fresh oneNode .blank) e1).1,
    ⟨hnum1, hnum2⟩, ⟨hpad1, hpad2⟩, hsub2.trans hsub1, by show 2 ≤ z2.room 0; omega⟩

/-- Two bytes, written one after the other to a group of one node: their pieces are disjoint, and each
byte is read back. -/
theorem write_read_run_two : ∃ as s m₁ m₂,
    TwoWrites byteWrite { byteWrite with buf := fun _ => 9 } as s m₁ m₂ ∧
    RangesDisjoint m₁.nodeId m₁.start m₁.num m₂.nodeId m₂.start m₂.num ∧
    ∀ a : ReadAns, a.Good → ∀ buf,
      zrocksRead s.z m₁.nodeId (unitBytes * m₁.start) 1 buf [a]
          = .ok (xztlOk, fun i => if i < 1 then 7 else buf i) ∧
        zrocksRead s.z m₂.nodeId (unitBytes * m₂.start) 1 buf [a]
          = .ok (xztlOk, fun i => if i < 1 then 9 else buf i) := by
  obtain ⟨as, s, m₁, m₂, h⟩ := exists_twoWrites byteWrite
    { byteWrite with buf := fun _ => 9 } (by simp [byteWrite, unitBytes_eq])
  obtain ⟨-, hdisj, hread⟩ := write_read_run oneNode .blank h.run
  rw [h.hist] at hdisj hread
  refine ⟨as, s, m₁, m₂, h, (pairwise_cons.mp hdisj).1 m₂ (by simp), fun a ha buf => ⟨?_, ?_⟩⟩
  · exact hread _ [] m₁ [] mem_cons_self 0 1 (by rw [h.num.1]; decide) a ha [] buf
  · exact hread _ [] m₂ [] (mem_cons_of_mem _ mem_cons_self) 0 1 (by rw [h.num.2]; decide) a ha [] buf

end Xztl
