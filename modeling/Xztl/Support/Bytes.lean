import Mathlib.Tactic
import Mathlib.Data.List.GetD

/-!
# Support — byte buffers

A buffer or a medium is a function from addresses to bytes.  `load` reads a range and `memcpy`
overwrites one; the lemmas say what a range holds after a copy, inside it and outside.  `At b a bs`
says that the buffer `b` holds the bytes `bs` from address `a` on, and splits over `++`.

`le` and `leVal` are the little-endian encoding of fixed width, `cstr` is the string up to the first
NUL byte, and `padTo` fills a field with NUL bytes.
-/

namespace Bytes

open List

/-- A buffer. -/
abbrev Buf := Nat → UInt8

/-- The `n` bytes from `a` on. -/
def load (b : Buf) (a n : Nat) : List UInt8 := (List.range n).map fun i => b (a + i)

/-- Overwrite the bytes from `a` on. -/
def memcpy (b : Buf) (a : Nat) (bs : List UInt8) : Buf := fun i =>
  if a ≤ i ∧ i < a + bs.length then bs.getD (i - a) 0 else b i

/-- The buffer holds `bs` from `a` on. -/
def At (b : Buf) (a : Nat) (bs : List UInt8) : Prop := load b a bs.length = bs

variable {b b' : Buf} {a c n m : Nat} {bs xs ys : List UInt8}

/-! ### Reading and copying -/

@[simp] theorem load_length : (load b a n).length = n := by simp [load]

@[simp] theorem load_zero : load b a 0 = [] := rfl

theorem load_add : load b a (n + m) = load b a n ++ load b (a + n) m := by
  rw [load, range_add, map_append, map_map]
  simp [load, Function.comp_def, Nat.add_assoc]

theorem drop_load (h : m ≤ n) : (load b a n).drop m = load b (a + m) (n - m) := by
  obtain ⟨k, rfl⟩ := Nat.exists_eq_add_of_le h
  rw [load_add, drop_left' load_length, Nat.add_sub_cancel_left]

theorem take_load (h : m ≤ n) : (load b a n).take m = load b a m := by
  obtain ⟨k, rfl⟩ := Nat.exists_eq_add_of_le h
  rw [load_add, take_left' load_length]

theorem load_congr (h : ∀ i < n, b (a + i) = b' (c + i)) : load b a n = load b' c n :=
  map_congr_left fun i hi => h i (mem_range.mp hi)

theorem load_const (h : ∀ i, a ≤ i → i < a + n → b i = 0) : load b a n = List.replicate n 0 := by
  refine eq_replicate_iff.mpr ⟨load_length, fun x hx => ?_⟩
  obtain ⟨i, hi, rfl⟩ := mem_map.mp hx
  have hi := mem_range.mp hi
  exact h _ (Nat.le_add_right _ _) (by omega)

theorem byte_of_load {i : Nat} (hi : i < n) : (load b a n)[i]? = some (b (a + i)) := by
  simp [load, hi]

@[simp] theorem memcpy_nil : memcpy b a [] = b := by
  funext i
  exact if_neg (by simp)

/-- Outside the copied range nothing changes. -/
theorem memcpy_of_not_mem {i : Nat} (h : i < a ∨ a + bs.length ≤ i) : memcpy b a bs i = b i :=
  if_neg (by omega)

/-- Inside the copied range the copied bytes are found. -/
theorem memcpy_of_lt {i : Nat} (h : i < bs.length) : memcpy b a bs (a + i) = bs.getD i 0 := by
  rw [memcpy, if_pos (by omega), Nat.add_sub_cancel_left]

theorem load_memcpy_self : load (memcpy b a bs) a bs.length = bs := by
  refine ext_getElem (by simp) fun i h1 h2 => ?_
  simp only [load, getElem_map, getElem_range]
  rw [memcpy_of_lt h2, getD_eq_getElem _ _ h2]

theorem load_memcpy_of_disjoint (h : c + n ≤ a ∨ a + bs.length ≤ c) :
    load (memcpy b a bs) c n = load b c n :=
  load_congr fun i hi => memcpy_of_not_mem (by omega)

/-- A range of a copied range. -/
theorem load_memcpy_load {s k : Nat} (h : c + k ≤ n) :
    load (memcpy b a (load b' s n)) (a + c) k = load b' (s + c) k := by
  refine load_congr fun i hi => ?_
  rw [Nat.add_assoc a, memcpy_of_lt (by rw [load_length]; omega), getD_eq_getElem?_getD,
    byte_of_load (by omega), Option.getD_some, Nat.add_assoc]

/-- Two copies, one behind the other. -/
theorem memcpy_append : memcpy b a (xs ++ ys) = memcpy (memcpy b a xs) (a + xs.length) ys := by
  funext i
  simp only [memcpy, length_append]
  by_cases h1 : a ≤ i ∧ i < a + xs.length
  · rw [if_pos (by omega), if_neg (by omega), if_pos h1]
    exact getD_append _ _ _ _ (by omega)
  · rw [if_neg h1]
    by_cases h2 : a + xs.length ≤ i ∧ i < a + xs.length + ys.length
    · rw [if_pos (by omega), if_pos h2, getD_append_right _ _ _ _ (by omega), Nat.sub_sub]
    · rw [if_neg (by omega), if_neg h2]

/-! ### What a buffer holds -/

theorem At.self : At (memcpy b a bs) a bs := load_memcpy_self

theorem At.memcpy (h : At b c xs) (hd : c + xs.length ≤ a ∨ a + bs.length ≤ c) :
    At (memcpy b a bs) c xs :=
  (load_memcpy_of_disjoint hd).trans h

theorem At.congr (h : At b a bs) (e : ∀ i < bs.length, b' (c + i) = b (a + i)) : At b' c bs :=
  (load_congr e).trans h

theorem at_append : At b a (xs ++ ys) ↔ At b a xs ∧ At b (a + xs.length) ys := by
  rw [At, length_append, load_add]
  constructor
  · intro h
    exact append_inj h load_length
  · rintro ⟨h1, h2⟩
    rw [h1, h2]

/-! ### Numbers and strings -/

/-- The low `w` bytes of `n`, lowest first. -/
def le : Nat → Nat → List UInt8
  | 0, _ => []
  | w + 1, n => UInt8.ofNat n :: le w (n / 256)

/-- The number a list of bytes stands for, lowest byte first. -/
def leVal : List UInt8 → Nat
  | [] => 0
  | x :: xs => x.toNat + 256 * leVal xs

@[simp] theorem le_length (w : Nat) : ∀ n, (le w n).length = w := by
  induction w with
  | zero => exact fun _ => rfl
  | succ w ih => exact fun n => congrArg (· + 1) (ih _)

theorem leVal_le (w : Nat) : ∀ n, leVal (le w n) = n % 256 ^ w := by
  induction w with
  | zero => exact fun n => (Nat.mod_one n).symm
  | succ w ih =>
    intro n
    rw [le, leVal, ih, Nat.pow_succ', Nat.mod_mul]
    rfl

theorem le_mod (w n : Nat) : le w (n % 256 ^ w) = le w n := by
  induction w generalizing n with
  | zero => rfl
  | succ w ih =>
    have hdiv : n % 256 ^ (w + 1) / 256 = n / 256 % 256 ^ w := by
      rw [Nat.pow_succ', Nat.mod_mul_right_div_self]
    have hmod : UInt8.ofNat (n % 256 ^ (w + 1)) = UInt8.ofNat n := by
      rw [← UInt8.toNat_inj]
      exact Nat.mod_mod_of_dvd _ (Dvd.intro_left (256 ^ w) (Nat.pow_succ 256 w).symm)
    rw [le, le, hdiv, hmod, ih]

theorem leVal_replicate (k : Nat) : leVal (List.replicate k 0) = 0 := by
  induction k with
  | zero => rfl
  | succ k ih => rw [replicate_succ, leVal, ih]; rfl

theorem At.leVal {w : Nat} (h : At b a (le w n)) : Bytes.leVal (load b a w) = n % 256 ^ w := by
  rw [At, le_length] at h
  rw [h, leVal_le]

/-- Fill up with NUL bytes. -/
def padTo (n : Nat) (bs : List UInt8) : List UInt8 := bs ++ List.replicate (n - bs.length) 0

theorem padTo_length (h : bs.length ≤ n) : (padTo n bs).length = n := by
  rw [padTo, length_append, length_replicate]
  omega

/-- The string in front of the first NUL byte. -/
def cstr (bs : List UInt8) : List UInt8 := bs.takeWhile (· ≠ 0)

/-- A field that is longer than its string starts with the string and a NUL byte. -/
theorem padTo_eq (h : bs.length < n) :
    padTo n bs = (bs ++ [0]) ++ List.replicate (n - bs.length - 1) 0 := by
  obtain ⟨k, hk⟩ : ∃ k, n - bs.length = k + 1 := ⟨n - bs.length - 1, by omega⟩
  rw [padTo, hk, replicate_succ, Nat.add_sub_cancel, append_assoc]
  rfl

/-- A string without NUL bytes in front of a NUL byte is read back. -/
theorem At.cstr (h : At b a (bs ++ [0])) (h0 : 0 ∉ bs) (hn : bs.length < n) :
    Bytes.cstr (load b a n) = bs := by
  obtain ⟨k, rfl⟩ : ∃ k, n = (bs ++ [0]).length + k := ⟨n - (bs.length + 1), by simp; omega⟩
  rw [load_add, h, Bytes.cstr, append_assoc, takeWhile_append_of_pos]
  · simp
  · intro x hx
    rw [decide_eq_true_eq]
    rintro rfl
    exact h0 hx

/-- A string is read back from its field. -/
theorem At.cstr_field {k : Nat} (h : At b a (padTo k bs)) (h0 : 0 ∉ bs) (hk : bs.length < k)
    (hn : bs.length < n) : Bytes.cstr (load b a n) = bs := by
  rw [padTo_eq hk] at h
  exact At.cstr (at_append.mp h).1 h0 hn

/-- A field that is not full ends with a NUL byte. -/
theorem At.zero_mem_field {k : Nat} (h : At b a (padTo k bs)) (hk : bs.length < k) (hn : k ≤ n) :
    0 ∈ load b a n := by
  rw [At, padTo_length (le_of_lt hk)] at h
  obtain ⟨m, rfl⟩ := Nat.exists_eq_add_of_le hn
  rw [load_add, h, padTo_eq hk]
  simp

end Bytes
