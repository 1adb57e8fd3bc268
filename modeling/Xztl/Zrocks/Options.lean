import Xztl.Support.Scanf
import Xztl.Zrocks.Depth

/-!
# Zrocks — the device option

`znd_opt_parse` takes the string that names the device apart: a path, which may be followed by a
backend, or a PCI address, which may be followed by a namespace.  `Documented` says which strings the
documentation has and what they stand for.

The documentation writes `?be=` and `?nsid=`, the code reads `?be:` and `?nsid:`.  So the backend of a
documented option is refused and its namespace is not looked at, and what is behind the address is
never refused: **`opt_parse_iff`** says for which strings the two agree.
-/

namespace Xztl

open List

/-! ### The parser -/

/-- `OPT_DEV_BLK`, `OPT_DEV_CHAR`, `OPT_DEV_SPDK`. -/
inductive OptDev where
  | blk | char | spdk
deriving DecidableEq, Repr

/-- `struct znd_opt_info`; the first and the third field are zero before the call. -/
structure OptInfo where
  optDevType : Option OptDev
  optDevName : List Char
  optAsync : Option OptBe
  optNsid : Int
deriving DecidableEq, Repr

/-- `be_str`. -/
def beStr : OptBe → List Char
  | .thrpool => "thrpool".toList
  | .libaio => "libaio".toList
  | .iouring => "io_uring".toList
  | .iouringCmd => "io_uring_cmd".toList
  | .spdk => "nvme".toList

/-- The backends from `OPT_BE_THRPOOL` to `OPT_BE_IOURING_CMD`. -/
def pathBackends : List OptBe := [.thrpool, .libaio, .iouring, .iouringCmd]

/-- `MIN_OPT_PARAM_LEN`. -/
def minOptParamLen : Nat := 10

/-- `MAX_STR_LEN`. -/
def maxStrLen : Nat := 64

/-- `ZND_MEDIA_NODEVICE`. -/
inductive OptErr where
  | nodevice
deriving DecidableEq, Repr

/-- The format `%64[^?]%64s`. -/
def optionFormat : List ScanDir := [.set 64 (· ≠ '?'), .str 64]

/-- The format `?be:%64s`. -/
def beFormat : List ScanDir := "?be:".toList.map .lit ++ [.str 64]

/-- The format `pci:%64s`. -/
def pciFormat : List ScanDir := "pci:".toList.map .lit ++ [.str 64]

/-- The format `?nsid:%64d`. -/
def nsidFormat : List ScanDir := "?nsid:".toList.map .lit ++ [.int 64]

/-- The type of the device, by the seventh character of the option. -/
def optDevType (devName : List Char) : Option OptDev :=
  if devName[6]? = some 'g' then some .char
  else if devName[6]? = some 'v' then some .blk
  else none

/-- The backend that follows a path: `beInfo` is the rest of the option. -/
def optBackend (beInfo : List Char) : Option OptBe :=
  if beInfo = [] then some .thrpool
  else
    let optEndName := strArg (sscanf beFormat beInfo)[0]?
    pathBackends.find? fun be => optEndName = beStr be

/-- `znd_opt_parse`. -/
def zndOptParse (info : OptInfo) (devName : List Char) : Except OptErr OptInfo :=
  if devName.length < minOptParamLen ∨ devName.length > maxStrLen then .error .nodevice
  else
    let vals := sscanf optionFormat devName
    let devInfo := strArg vals[0]?
    let beInfo := strArg vals[1]?
    if devName.head? = some '/' then
      match optDevType devName with
      | none => .error .nodevice
      | some ty =>
        match optBackend beInfo with
        | none => .error .nodevice
        | some be =>
          .ok { info with optDevType := some ty, optDevName := devInfo, optAsync := some be }
    else if devName.head? = some 'p' then
      let name := match (sscanf pciFormat devInfo)[0]? with
        | some (ScanVal.str name) => name
        | _ => info.optDevName
      let nsid := match (sscanf nsidFormat beInfo)[0]? with
        | some (ScanVal.int nsid) => nsid
        | _ => info.optNsid
      .ok { optDevType := some .spdk, optDevName := name, optAsync := some .spdk, optNsid := nsid }
    else .error .nodevice

/-! ### The documentation -/

/-- A path of a device: it starts with a slash, its seventh character says what it is, and it has no
question mark. -/
structure IsPath (path : List Char) (ty : OptDev) : Prop where
  slash : path.head? = some '/'
  seventh : optDevType path = some ty
  noMark : '?' ∉ path

/-- An address. -/
structure IsAddress (a : List Char) : Prop where
  ne_nil : a ≠ []
  noMark : '?' ∉ a
  noSpace : ∀ c ∈ a, isspace c = false

/-- A number. -/
structure IsNumber (ds : List Char) : Prop where
  ne_nil : ds ≠ []
  digits : ∀ c ∈ ds, c.isDigit = true

/-- The documented options, and what they stand for. -/
inductive Documented (info : OptInfo) : List Char → OptInfo → Prop where
  | path {path : List Char} {ty : OptDev} (hp : IsPath path ty) :
      Documented info path
        { info with optDevType := some ty, optDevName := path, optAsync := some .thrpool }
  | backend {path : List Char} {ty : OptDev} {be : OptBe} (hp : IsPath path ty)
      (hbe : be ∈ pathBackends) :
      Documented info (path ++ ("?be=".toList ++ beStr be))
        { info with optDevType := some ty, optDevName := path, optAsync := some be }
  | pci {a : List Char} (ha : IsAddress a) :
      Documented info ("pci:".toList ++ a)
        { info with optDevType := some .spdk, optDevName := a, optAsync := some .spdk }
  | pciNsid {a ds : List Char} (ha : IsAddress a) (hds : IsNumber ds) :
      Documented info ("pci:".toList ++ (a ++ ("?nsid=".toList ++ ds)))
        { optDevType := some .spdk, optDevName := a, optAsync := some .spdk,
          optNsid := numeral ds }

/-! ### The two scans -/

/-- What precedes the first question mark. -/
def optHead (s : List Char) : List Char := s.takeWhile (· ≠ '?')

/-- What follows it, with the mark itself. -/
def optTail (s : List Char) : List Char := s.dropWhile (· ≠ '?')

/-- The first word of a string. -/
def word (s : List Char) : List Char := s.takeWhile fun c => !isspace c

variable {p t : List Char} {be : OptBe}

theorem optHead_append_optTail (s : List Char) : optHead s ++ optTail s = s :=
  takeWhile_append_dropWhile

theorem mark_notMem_optHead (s : List Char) : '?' ∉ optHead s := by
  intro hin
  have h := mem_takeWhile_imp (p := fun c : Char => decide (c ≠ '?')) hin
  exact of_decide_eq_true h rfl

/-- The rest of an option is empty or starts with a question mark. -/
theorem optTail_cases (s : List Char) : optTail s = [] ∨ ∃ t, optTail s = '?' :: t := by
  induction s with
  | nil => exact .inl rfl
  | cons c s ih =>
    unfold optTail at ih ⊢
    rw [dropWhile_cons]
    split_ifs with hc
    · exact ih
    · rw [decide_eq_true_eq, not_not] at hc
      exact .inr ⟨s, by rw [hc]⟩

theorem optTail_eq_nil_iff : optTail s = [] ↔ '?' ∉ s := by
  rw [optTail, dropWhile_eq_nil_iff]
  constructor
  · intro h hin
    exact of_decide_eq_true (h _ hin) rfl
  · intro h c hc
    exact decide_eq_true fun he => h (he ▸ hc)

/-- The word of the rest is empty only if the rest is. -/
theorem word_optTail_eq_nil_iff : word (optTail s) = [] ↔ optTail s = [] := by
  rcases optTail_cases s with h | ⟨t, h⟩
  · rw [h]
    exact iff_of_true rfl rfl
  · rw [h]
    exact iff_of_false (cons_ne_nil _ _) (cons_ne_nil _ _)

theorem forall_ne_mark (hp : '?' ∉ p) : ∀ c ∈ p, decide (c ≠ '?') = true :=
  fun _ hc => decide_eq_true fun he => hp (he ▸ hc)

/-- An option that is cut at its question mark. -/
theorem optHead_append (hp : '?' ∉ p) : optHead (p ++ '?' :: t) = p := by
  rw [optHead, takeWhile_append_of_pos (forall_ne_mark hp), takeWhile_cons_of_neg (by simp),
    append_nil]

theorem optTail_append (hp : '?' ∉ p) : optTail (p ++ '?' :: t) = '?' :: t := by
  rw [optTail, dropWhile_append_of_pos (forall_ne_mark hp), dropWhile_cons_of_neg (by simp)]

theorem optHead_eq (hp : '?' ∉ p) : optHead p = p :=
  takeWhile_eq_self_iff.mpr (forall_ne_mark hp)

/-- **The first scan** cuts the option at the question mark, and its rest at white space. -/
theorem scan_option (hne : optHead s ≠ []) (hlen : s.length ≤ 64) :
    strArg (sscanf optionFormat s)[0]? = optHead s ∧
      strArg (sscanf optionFormat s)[1]? = word (optTail s) := by
  have hset : scanWhile 64 (· ≠ '?') s = optHead s := scanWhile_eq hlen
  have hdrop : s.drop (optHead s).length = optTail s := drop_takeWhile _ s
  have hspace : (optTail s).dropWhile isspace = optTail s := by
    rcases optTail_cases s with h | ⟨t, h⟩
    · rw [h]
      rfl
    · rw [h]
      rfl
  have hword : scanWhile 64 (fun c => !isspace c) (optTail s) = word (optTail s) := by
    refine scanWhile_eq (le_trans ?_ hlen)
    rw [← hdrop, length_drop]
    exact Nat.sub_le ..
  have hscan : sscanf optionFormat s
      = .str (optHead s) :: if word (optTail s) = [] then [] else [.str (word (optTail s))] := by
    unfold optionFormat
    rw [sscanf, hset, if_neg hne, hdrop, sscanf, hspace, hword]
    rfl
  rw [hscan]
  refine ⟨rfl, ?_⟩
  split_ifs with h
  · exact h.symm
  · rfl

/-- **The backend** behind a path is read from `?be:` on. -/
theorem scan_be {w : List Char} (hw : ∀ c ∈ w, isspace c = false) (hlen : w.length ≤ 64) :
    strArg (sscanf beFormat w)[0]? = if "?be:".toList <+: w then w.drop 4 else [] := by
  unfold beFormat
  rw [sscanf_lits]
  split_ifs with hpre
  · rw [sscanf_str (fun c hc => hw c (mem_of_mem_drop hc))
      ((length_drop ▸ Nat.sub_le ..).trans hlen)]
    split_ifs with h
    · exact h.symm
    · rfl
  · rfl

theorem optBackend_some_iff {w : List Char} (hw : ∀ c ∈ w, isspace c = false)
    (hlen : w.length ≤ 64) (hne : w ≠ []) :
    optBackend w = some be ↔ be ∈ pathBackends ∧ w = "?be:".toList ++ beStr be := by
  constructor
  · intro h
    rw [optBackend, if_neg hne] at h
    have hbe := mem_of_find?_eq_some h
    have heq : strArg (sscanf beFormat w)[0]? = beStr be := by
      have hfound := List.find?_some h
      exact of_decide_eq_true hfound
    rw [scan_be hw hlen] at heq
    split_ifs at heq with hpre
    · obtain ⟨t, rfl⟩ := hpre
      refine ⟨hbe, ?_⟩
      rw [← heq]
      rfl
    · cases be <;> cases heq
  · rintro ⟨hbe, rfl⟩
    revert hbe
    cases be <;> decide

/-! ### What is accepted -/

section
variable {info o : OptInfo} {s : List Char}

/-- The lengths that are not refused. -/
def OptLength (s : List Char) : Prop := minOptParamLen ≤ s.length ∧ s.length ≤ maxStrLen

theorem OptLength.not_refused (h : OptLength s) :
    ¬ (s.length < minOptParamLen ∨ s.length > maxStrLen) := by
  unfold OptLength at h
  omega

theorem optHead_ne_nil {c : Char} (hc : s.head? = some c) (hne : c ≠ '?') : optHead s ≠ [] := by
  cases s with
  | nil => cases hc
  | cons x s =>
    cases hc
    rw [optHead, takeWhile_cons_of_pos (by simp [hne])]
    exact cons_ne_nil _ _

/-- A path is accepted with the type of its seventh character and the backend of its rest. -/
theorem parse_slash (hlen : OptLength s) (hs : s.head? = some '/') :
    zndOptParse info s = .ok o ↔ ∃ ty be, optDevType s = some ty ∧
      optBackend (word (optTail s)) = some be ∧
      o = { info with
        optDevType := some ty, optDevName := optHead s, optAsync := some be } := by
  obtain ⟨hhead, htail⟩ := scan_option (optHead_ne_nil hs (by decide)) hlen.2
  rw [zndOptParse, if_neg hlen.not_refused]
  simp only [hs, if_true, hhead, htail]
  cases hty : optDevType s with
  | none => simp
  | some ty =>
    cases hbe : optBackend (word (optTail s)) with
    | none => simp
    | some be => simp [eq_comm]

/-- An option that starts with a `p` is always accepted. -/
theorem parse_pci (hlen : OptLength s) (hs : s.head? = some 'p') :
    zndOptParse info s = .ok
      { optDevType := some .spdk
        optDevName := match (sscanf pciFormat (optHead s))[0]? with
          | some (ScanVal.str name) => name
          | _ => info.optDevName
        optAsync := some .spdk
        optNsid := match (sscanf nsidFormat (word (optTail s)))[0]? with
          | some (ScanVal.int nsid) => nsid
          | _ => info.optNsid } := by
  obtain ⟨hhead, htail⟩ := scan_option (optHead_ne_nil hs (by decide)) hlen.2
  rw [zndOptParse, if_neg hlen.not_refused]
  simp only [hs, hhead, htail]
  rfl

/-- Every other option is refused. -/
theorem parse_other (hs : s.head? ≠ some '/') (hp : s.head? ≠ some 'p') :
    zndOptParse info s ≠ .ok o := by
  rw [zndOptParse]
  split_ifs <;> exact nofun

/-- The seventh character of a path is that of an option it starts. -/
theorem optDevType_append {ty : OptDev} (h : optDevType p = some ty) :
    optDevType (p ++ t) = some ty := by
  have hlen : 6 < p.length := by
    by_contra hle
    have hnone : p[6]? = none := List.getElem?_eq_none (Nat.le_of_not_lt hle)
    rw [optDevType, hnone] at h
    cases h
  rw [optDevType, List.getElem?_append_left hlen]
  exact h

/-- Where a documented backend follows, the seventh character is one of the path. -/
theorem isPath_of_backend {ty : OptDev} (hbe : be ∈ pathBackends)
    (hs : s.head? = some '/') (hty : optDevType s = some ty)
    (htail : optTail s = "?be=".toList ++ beStr be) : IsPath (optHead s) ty := by
  have hsplit := optHead_append_optTail s
  -- the first six characters of the rest are no type
  have hrest : ∀ be ∈ pathBackends, ∀ i < 6,
      ("?be=".toList ++ beStr be)[i]? ≠ some 'g' ∧ ("?be=".toList ++ beStr be)[i]? ≠ some 'v' := by
    decide
  have hhead : (optHead s).head? = some '/' := by
    cases s with
    | nil => cases hs
    | cons c s =>
      cases hs
      rfl
  refine ⟨hhead, ?_, mark_notMem_optHead s⟩
  have hlen : 6 < (optHead s).length := by
    by_contra hle
    have hpos : 0 < (optHead s).length :=
      length_pos_iff.mpr (optHead_ne_nil hs (by decide))
    have hnot := hrest be hbe (6 - (optHead s).length) (by omega)
    rw [← hsplit, optDevType, List.getElem?_append_right (by omega), htail, if_neg hnot.1,
      if_neg hnot.2] at hty
    cases hty
  rw [← hsplit, optDevType, List.getElem?_append_left hlen] at hty
  exact hty

/-- The documented options that start with a slash. -/
theorem documented_slash (hs : s.head? = some '/') :
    Documented info s o ↔
      (∃ ty, IsPath s ty ∧
        o = { info with optDevType := some ty, optDevName := s, optAsync := some .thrpool }) ∨
      ∃ ty be, be ∈ pathBackends ∧ IsPath (optHead s) ty ∧
        optTail s = "?be=".toList ++ beStr be ∧
        o = { info with optDevType := some ty, optDevName := optHead s, optAsync := some be } := by
  constructor
  · intro h
    cases h with
    | @path path ty hp => exact .inl ⟨ty, hp, rfl⟩
    | @backend path ty be hp hbe =>
      have hhead : optHead (path ++ ("?be=".toList ++ beStr be)) = path :=
        optHead_append hp.noMark
      refine .inr ⟨ty, be, hbe, hhead.symm ▸ hp, optTail_append hp.noMark, ?_⟩
      rw [hhead]
    | pci | pciNsid => cases hs
  · rintro (⟨ty, hp, rfl⟩ | ⟨ty, be, hbe, hp, htail, rfl⟩)
    · exact .path hp
    · have h : Documented info (optHead s ++ ("?be=".toList ++ beStr be)) _ := .backend hp hbe
      rwa [← htail, optHead_append_optTail] at h

theorem not_mark_pci {a : List Char} (ha : IsAddress a) : '?' ∉ "pci:".toList ++ a := by
  intro hin
  rcases mem_append.mp hin with h | h
  · revert h
    decide
  · exact ha.noMark h

/-- Those that start with a `p`. -/
theorem documented_pci (hs : s.head? = some 'p') :
    Documented info s o ↔ ∃ a, IsAddress a ∧ optHead s = "pci:".toList ++ a ∧
      (optTail s = [] ∧ o = { info with
          optDevType := some .spdk, optDevName := a, optAsync := some .spdk } ∨
        ∃ ds, IsNumber ds ∧ optTail s = "?nsid=".toList ++ ds ∧
          o = { optDevType := some .spdk, optDevName := a, optAsync := some .spdk,
                optNsid := numeral ds }) := by
  constructor
  · intro h
    cases h with
    | path hp =>
      rw [hp.slash] at hs
      cases hs
    | backend hp hbe =>
      rw [List.head?_append, hp.slash] at hs
      cases hs
    | @pci a ha =>
      have hmark := not_mark_pci ha
      exact ⟨a, ha, optHead_eq hmark, .inl ⟨optTail_eq_nil_iff.mpr hmark, rfl⟩⟩
    | @pciNsid a ds ha hds =>
      have hmark := not_mark_pci ha
      have hform : "pci:".toList ++ (a ++ ("?nsid=".toList ++ ds))
          = ("pci:".toList ++ a) ++ '?' :: ("nsid=".toList ++ ds) :=
        (append_assoc _ _ _).symm
      exact ⟨a, ha, (congrArg optHead hform).trans (optHead_append hmark), .inr ⟨ds, hds,
        (congrArg optTail hform).trans (optTail_append hmark), rfl⟩⟩
  · rintro ⟨a, ha, hhead, ⟨htail, rfl⟩ | ⟨ds, hds, htail, rfl⟩⟩
    · have hform := optHead_append_optTail s
      rw [hhead, htail, append_nil] at hform
      rw [← hform]
      exact .pci ha
    · have hform := optHead_append_optTail s
      rw [hhead, htail, append_assoc] at hform
      rw [← hform]
      exact .pciNsid ha hds

/-- A documented `?nsid=` is not looked at. -/
theorem parse_address {a : List Char} (hlen : OptLength s) (hs : s.head? = some 'p')
    (ha : IsAddress a) (hhead : optHead s = "pci:".toList ++ a)
    (htail : optTail s = [] ∨ ∃ ds, optTail s = "?nsid=".toList ++ ds) :
    zndOptParse info s = .ok
      { info with optDevType := some .spdk, optDevName := a, optAsync := some .spdk } := by
  have hname : sscanf pciFormat (optHead s) = [.str a] := by
    have hshort : a.length ≤ 64 := by
      have hsplit := congrArg List.length (optHead_append_optTail s)
      have hle : s.length ≤ 64 := hlen.2
      rw [hhead, length_append, length_append] at hsplit
      omega
    have hpre : "pci:".toList <+: "pci:".toList ++ a := prefix_append _ _
    unfold pciFormat
    rw [hhead, sscanf_lits, if_pos hpre]
    show sscanf [.str 64] a = _
    rw [sscanf_str ha.noSpace hshort, if_neg ha.ne_nil]
  have hnsid : sscanf nsidFormat (word (optTail s)) = [] := by
    rcases htail with h | ⟨ds, h⟩
    · rw [h]
      rfl
    · have hpre : ¬ "?nsid:".toList <+: word ("?nsid=".toList ++ ds) := by
        rintro ⟨t, ht⟩
        cases ht
      unfold nsidFormat
      rw [h, sscanf_lits, if_neg hpre]
  rw [parse_pci hlen hs, hname, hnsid]
  rfl

/-! ### Where the two agree -/

/-- **The strings for which the code reads what is documented.**  A path that is followed by
something is not followed by a backend, in the documented or in the code's writing; an option that
starts with a `p` is an address, and a namespace behind it is the one that is there before the
call. -/
structure OptAgrees (info : OptInfo) (s : List Char) : Prop where
  path : s.head? = some '/' → '?' ∈ s → optDevType s ≠ none → ∀ be ∈ pathBackends,
    optTail s ≠ "?be=".toList ++ beStr be ∧ word (optTail s) ≠ "?be:".toList ++ beStr be
  pci : s.head? = some 'p' → ∃ a, IsAddress a ∧ optHead s = "pci:".toList ++ a ∧
    (optTail s = [] ∨
      ∃ ds, IsNumber ds ∧ (numeral ds : Int) = info.optNsid ∧ optTail s = "?nsid=".toList ++ ds)

/-- A documented backend is one word, and not one the code reads. -/
theorem word_documented (hbe : be ∈ pathBackends) : ∀ be' ∈ pathBackends,
      word ("?be=".toList ++ beStr be) ≠ "?be:".toList ++ beStr be' := by
  revert be
  decide

/-- The rest of an option that is read as a backend. -/
theorem optBackend_optTail (hlen : OptLength s) (hmark : '?' ∈ s) :
    optBackend (word (optTail s)) = some be ↔
      be ∈ pathBackends ∧ word (optTail s) = "?be:".toList ++ beStr be := by
  refine optBackend_some_iff (fun c hc => ?_) ?_ fun h => ?_
  · have h := mem_takeWhile_imp (p := fun c => !isspace c) hc
    exact Bool.not_eq_true' _ ▸ h
  · have hsub : (word (optTail s)).Sublist s :=
      (takeWhile_sublist _).trans (dropWhile_sublist _)
    exact hsub.length_le.trans hlen.2
  · exact optTail_eq_nil_iff.mp (word_optTail_eq_nil_iff.mp h) hmark

/-- A path without a question mark is read as documented. -/
theorem path_alone (hlen : OptLength s) (hs : s.head? = some '/') (hmark : '?' ∉ s) :
    zndOptParse info s = .ok o ↔ Documented info s o := by
  have htail : optTail s = [] := optTail_eq_nil_iff.mpr hmark
  rw [parse_slash hlen hs, documented_slash hs, htail, optHead_eq hmark]
  constructor
  · rintro ⟨ty, be, hty, hbe, rfl⟩
    cases hbe
    exact .inl ⟨ty, ⟨hs, hty, hmark⟩, rfl⟩
  · rintro (⟨ty, hp, rfl⟩ | ⟨ty, be, -, -, hbe, -⟩)
    · exact ⟨ty, .thrpool, hp.seventh, rfl, rfl⟩
    · cases hbe

/-- A path with a question mark is read as documented if neither writing of a backend follows. -/
theorem path_marked (hlen : OptLength s) (hs : s.head? = some '/') (hmark : '?' ∈ s) :
    (∀ o, zndOptParse info s = .ok o ↔ Documented info s o) ↔
      (optDevType s ≠ none → ∀ be ∈ pathBackends,
        optTail s ≠ "?be=".toList ++ beStr be ∧ word (optTail s) ≠ "?be:".toList ++ beStr be) := by
  constructor
  · intro h hty be hbe
    obtain ⟨ty, hty⟩ := Option.ne_none_iff_exists'.mp hty
    constructor
    · intro htail
      have hdoc : Documented info s _ := (documented_slash hs).mpr
        (.inr ⟨ty, be, hbe, isPath_of_backend hbe hs hty htail, htail, rfl⟩)
      obtain ⟨_, be', -, hread, -⟩ := (parse_slash hlen hs).mp ((h _).mpr hdoc)
      obtain ⟨hbe', hword⟩ := (optBackend_optTail hlen hmark).mp hread
      exact word_documented hbe be' hbe' (htail ▸ hword)
    · intro hword
      have hread := (optBackend_optTail hlen hmark).mpr ⟨hbe, hword⟩
      have hok : zndOptParse info s = .ok _ :=
        (parse_slash hlen hs).mpr ⟨ty, be, hty, hread, rfl⟩
      rcases (documented_slash hs).mp ((h _).mp hok) with ⟨_, hp, -⟩ | ⟨_, be', hbe', -, htail, -⟩
      · exact hp.noMark hmark
      · exact word_documented hbe' be hbe (htail ▸ hword)
  · intro h o
    refine iff_of_false (fun hok => ?_) fun hdoc => ?_
    · obtain ⟨ty, be, hty, hread, -⟩ := (parse_slash hlen hs).mp hok
      obtain ⟨hbe, hword⟩ := (optBackend_optTail hlen hmark).mp hread
      exact (h (by rw [hty]; exact nofun) be hbe).2 hword
    · rcases (documented_slash hs).mp hdoc with ⟨_, hp, -⟩ | ⟨ty, be, hbe, hp, htail, -⟩
      · exact hp.noMark hmark
      · have hty : optDevType s = some ty := by
          rw [← optHead_append_optTail s]
          exact optDevType_append hp.seventh
        exact (h (by rw [hty]; exact nofun) be hbe).1 htail

/-- An option that starts with a `p` is read as documented if it is an address whose namespace is the
one before the call. -/
theorem pci_agrees (hlen : OptLength s) (hs : s.head? = some 'p') :
    (∀ o, zndOptParse info s = .ok o ↔ Documented info s o) ↔
      ∃ a, IsAddress a ∧ optHead s = "pci:".toList ++ a ∧ (optTail s = [] ∨
        ∃ ds, IsNumber ds ∧ (numeral ds : Int) = info.optNsid ∧
          optTail s = "?nsid=".toList ++ ds) := by
  constructor
  · intro h
    have hdoc := (h _).mp (parse_pci hlen hs)
    obtain ⟨a, ha, hhead, ⟨htail, -⟩ | ⟨ds, hds, htail, ho⟩⟩ := (documented_pci hs).mp hdoc
    · exact ⟨a, ha, hhead, .inl htail⟩
    · have hparse : zndOptParse info s = .ok _ :=
        parse_address hlen hs ha hhead (.inr ⟨ds, htail⟩)
      rw [parse_pci hlen hs, ho] at hparse
      have hnsid := congrArg OptInfo.optNsid (Except.ok.inj hparse)
      exact ⟨a, ha, hhead, .inr ⟨ds, hds, hnsid, htail⟩⟩
  · rintro ⟨a, ha, hhead, htail⟩ o
    have hparse : zndOptParse info s = .ok _ := parse_address hlen hs ha hhead
      (htail.imp_right fun ⟨ds, _, _, h⟩ => ⟨ds, h⟩)
    rw [hparse, Except.ok.injEq, documented_pci hs]
    constructor
    · rintro rfl
      refine ⟨a, ha, hhead, htail.imp (fun h => ⟨h, rfl⟩) ?_⟩
      rintro ⟨ds, hds, hnsid, h⟩
      exact ⟨ds, hds, h, by rw [hnsid]⟩
    · rintro ⟨a', -, hhead', hcase⟩
      obtain rfl : a = a' := append_cancel_left (hhead.symm.trans hhead')
      rcases hcase with ⟨-, rfl⟩ | ⟨ds', -, htail', rfl⟩
      · rfl
      · rcases htail with h | ⟨ds, -, hnsid, h⟩
        · rw [h] at htail'
          cases htail'
        · obtain rfl : ds = ds' := append_cancel_left (h.symm.trans htail')
          rw [hnsid]

/-- **The device option.**  The code accepts exactly the documented options, with the parts they
stand for, if and only if the two writings of a suffix do not meet. -/
theorem opt_parse_iff (info : OptInfo) (s : List Char) (hlen : OptLength s) :
    (∀ o, zndOptParse info s = .ok o ↔ Documented info s o) ↔ OptAgrees info s := by
  by_cases hs : s.head? = some '/'
  · have hp : s.head? ≠ some 'p' := by
      rw [hs]
      decide
    by_cases hmark : '?' ∈ s
    · rw [path_marked hlen hs hmark]
      exact ⟨fun h => ⟨fun _ _ => h, fun h' => absurd h' hp⟩, fun h => h.path hs hmark⟩
    · exact iff_of_true (fun o => path_alone hlen hs hmark)
        ⟨fun _ h => absurd h hmark, fun h => absurd h hp⟩
  · by_cases hp : s.head? = some 'p'
    · rw [pci_agrees hlen hp]
      exact ⟨fun h => ⟨fun h' => absurd h' hs, fun _ => h⟩, fun h => h.pci hp⟩
    · refine iff_of_true (fun o => iff_of_false (parse_other hs hp) fun hdoc => ?_)
        ⟨fun h => absurd h hs, fun h => absurd h hp⟩
      cases hdoc with
      | path h => exact hs h.slash
      | backend h =>
        rw [List.head?_append, h.slash] at hs
        exact hs rfl
      | pci | pciNsid => exact hp rfl

/-- A path alone is read as documented. -/
theorem opt_parse_iff_path :
    OptLength "/dev/ng2n1".toList ∧
      ∃ info : OptInfo, ∀ o, zndOptParse info "/dev/ng2n1".toList = .ok o ↔
        Documented info "/dev/ng2n1".toList o := by
  have hlen : OptLength "/dev/ng2n1".toList := by
    unfold OptLength
    decide
  have hmark : '?' ∉ "/dev/ng2n1".toList := by decide
  have hp : "/dev/ng2n1".toList.head? ≠ some 'p' := by decide
  exact ⟨hlen, ⟨none, [], none, 0⟩, (opt_parse_iff _ _ hlen).mpr
    ⟨fun _ h => absurd h hmark, fun h => absurd h hp⟩⟩

/-- The documented `/dev/ng2n1?be=thrpool` is refused; the namespace of the documented
`pci:0000:01:00.0?nsid=1` is not taken; and a suffix that is not documented is accepted behind an
address. -/
theorem documented_refused :
    (let info : OptInfo := ⟨none, [], none, 0⟩
     let path := "/dev/ng2n1?be=thrpool".toList
     let address := "pci:0000:01:00.0?nsid=1".toList
     Documented info path ⟨some .char, "/dev/ng2n1".toList, some .thrpool, 0⟩ ∧
     zndOptParse info path = .error .nodevice ∧
     Documented info address ⟨some .spdk, "0000:01:00.0".toList, some .spdk, 1⟩ ∧
     zndOptParse info address = .ok ⟨some .spdk, "0000:01:00.0".toList, some .spdk, 0⟩ ∧
     zndOptParse info "pci:0000:01:00.0?x".toList
       = .ok ⟨some .spdk, "0000:01:00.0".toList, some .spdk, 0⟩) := by
  have hpath : IsPath "/dev/ng2n1".toList .char := ⟨rfl, by decide, by decide⟩
  have haddr : IsAddress "0000:01:00.0".toList := ⟨by decide, by decide, by simp [isspace]⟩
  have hnum : IsNumber "1".toList := ⟨by decide, by simp⟩
  have hbe : OptBe.thrpool ∈ pathBackends := by decide
  exact ⟨.backend hpath hbe, by decide, .pciNsid haddr hnum, by decide, by decide⟩

end

end Xztl
