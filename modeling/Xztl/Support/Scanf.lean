import Mathlib.Data.List.Basic
import Mathlib.Data.List.TakeWhile
import Mathlib.Tactic

/-!
# Support — `sscanf`

The directives of a format that programs use to take strings apart: ordinary characters, `%w[…]`,
`%ws` and `%wd`.  `sscanf ds s` is the list of the values it assigns, in order: it stops at the first
directive that does not match, and the arguments of the others keep what they had.

Ordinary characters match themselves; white space is not used as one.  A number is kept as it stands:
`%d` of a number that an `int` does not hold is undefined.
-/

/-- A directive. -/
inductive ScanDir where
  | lit (c : Char)
  | set (width : Nat) (p : Char → Bool)
  | str (width : Nat)
  | int (width : Nat)

/-- A value that is assigned. -/
inductive ScanVal where
  | str (s : List Char)
  | int (i : Int)
deriving DecidableEq, Repr

/-- `isspace` in the C locale. -/
def isspace (c : Char) : Bool := c.toNat == 32 || (9 ≤ c.toNat && c.toNat ≤ 13)

/-- The longest start of `s`, of at most `width` characters, that satisfies `p`. -/
def scanWhile (width : Nat) (p : Char → Bool) (s : List Char) : List Char :=
  (s.take width).takeWhile p

/-- The value of a list of digits. -/
def numeral (ds : List Char) : Nat := ds.foldl (fun n c => 10 * n + (c.toNat - '0'.toNat)) 0

/-- `%wd` behind its white space: a sign, if any, and at least one digit. -/
def scanInt (width : Nat) (s : List Char) : Option (Int × List Char) :=
  let sign := (s.take (min 1 width)).takeWhile fun c => c == '-' || c == '+'
  let digits := scanWhile (width - sign.length) Char.isDigit (s.drop sign.length)
  if digits = [] then none
  else some (if sign = ['-'] then -(numeral digits : Int) else numeral digits,
    s.drop (sign.length + digits.length))

/-- The values that are assigned. -/
def sscanf : List ScanDir → List Char → List ScanVal
  | [], _ => []
  | .lit _ :: _, [] => []
  | .lit c :: ds, x :: s => if x = c then sscanf ds s else []
  | .set w p :: ds, s =>
    let m := scanWhile w p s
    if m = [] then [] else .str m :: sscanf ds (s.drop m.length)
  | .str w :: ds, s =>
    let s := s.dropWhile isspace
    let m := scanWhile w (fun c => !isspace c) s
    if m = [] then [] else .str m :: sscanf ds (s.drop m.length)
  | .int w :: ds, s =>
    match scanInt w (s.dropWhile isspace) with
    | none => []
    | some (i, s) => .int i :: sscanf ds s

/-- The value of a string argument that was empty before. -/
def strArg : Option ScanVal → List Char
  | some (.str s) => s
  | _ => []

section
variable {width : Nat} {p : Char → Bool} {s : List Char}

theorem scanWhile_eq (h : s.length ≤ width) : scanWhile width p s = s.takeWhile p := by
  rw [scanWhile, List.take_of_length_le h]

theorem drop_takeWhile (p : Char → Bool) (s : List Char) :
    s.drop (s.takeWhile p).length = s.dropWhile p := by
  induction s with
  | nil => rfl
  | cons c s ih =>
    rw [List.takeWhile_cons, List.dropWhile_cons]
    split
    · exact ih
    · rfl

/-- Ordinary characters are a start of the string, or nothing is assigned. -/
theorem sscanf_lits (l : List Char) (ds : List ScanDir) (s : List Char) :
    sscanf (l.map .lit ++ ds) s = if l <+: s then sscanf ds (s.drop l.length) else [] := by
  induction l generalizing s with
  | nil => simp
  | cons c l ih =>
    cases s with
    | nil => simp [sscanf]
    | cons x s =>
      rw [List.map_cons, List.cons_append, sscanf, ih]
      by_cases hx : x = c
      · simp [hx]
      · have hne : ¬ (c :: l <+: x :: s) := fun h => hx (List.cons_prefix_cons.mp h).1.symm
        rw [if_neg hx, if_neg hne]

/-- `%ws` takes a string without white space as it is. -/
theorem sscanf_str (hs : ∀ c ∈ s, isspace c = false) (hlen : s.length ≤ width) :
    sscanf [.str width] s = if s = [] then [] else [.str s] := by
  have hdrop : s.dropWhile isspace = s := by
    cases s with
    | nil => rfl
    | cons c s =>
      refine List.dropWhile_cons_of_neg ?_
      rw [hs c List.mem_cons_self]
      exact Bool.false_ne_true
  have hword : scanWhile width (fun c => !isspace c) s = s := by
    rw [scanWhile_eq hlen, List.takeWhile_eq_self_iff]
    intro c hc
    rw [hs c hc]
    rfl
  rw [sscanf, hdrop, hword]
  rfl

end
