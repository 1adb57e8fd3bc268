import Xztl.Env.Metadata

/-!
# Env — data model (`env_zns.h`)

A file of the environment is an object (`class ZNSFile`) on the heap; the table `files` maps names to
pointers, some of them NULL, and a writable file keeps a pointer to its object.  Two names may point
to one object and an object may be left out of the table, so the heap is explicit: `objs` gives the
object of a pointer and `freed` says which objects have been deleted.

`std::map` iterates in the order of the keys; it is modelled by an ordered tree map.  Strings are
lists of bytes.
-/

namespace Xztl

open Function Bytes

/-- A file name (`std::string`). -/
abbrev Name := List UInt8

/-- A pointer to a file object. -/
abbrev Ptr := Nat

/-- `class ZNSFile`.  `cache` is what lies between `wcache` and `cache_off`, or nothing when the
buffer is gone. -/
structure ZnsFile where
  name : Name
  size : Nat
  level : Int
  map : List ZrocksMap
  startIndex : Nat
  cache : Option (List UInt8)
  isWriting : Bool
  currentNid : Int

/-- The constructor. -/
def ZnsFile.new (name : Name) (level : Int) : ZnsFile where
  name := name
  size := 0
  level := level
  map := []
  startIndex := 0
  cache := some []
  isWriting := false
  currentNid := -1

/-- The table `files` and the heap of its objects. -/
structure Table where
  files : Std.ExtTreeMap Name (Option Ptr)
  objs : Ptr → ZnsFile
  freed : Ptr → Bool
  next : Ptr

/-- `class ZNSEnv`: the table, the number of the next snapshot, the files by node, and the metadata
zones. -/
structure Env where
  tbl : Table
  sequence : Nat
  nidFileMap : Int → List Name
  md : Metadata

/-- The values of `rocksdb::Status` in use. -/
inductive Status where
  | ok | ioError | memoryLimit
deriving DecidableEq, Repr

namespace Table

/-- `files[name]`, which is NULL for a name that is not there. -/
def find (t : Table) (n : Name) : Option Ptr := (t.files[n]?).join

/-- Store an object. -/
def set (t : Table) (p : Ptr) (f : ZnsFile) : Table :=
  { t with objs := update t.objs p f }

/-- `new ZNSFile`. -/
def alloc (t : Table) (f : ZnsFile) : Table × Ptr :=
  ({ t with
      objs := update t.objs t.next f
      freed := update t.freed t.next false
      next := t.next + 1 }, t.next)

/-- `delete`. -/
def delete (t : Table) (p : Ptr) : Table := { t with freed := update t.freed p true }

/-- `files[name] = p`. -/
def put (t : Table) (n : Name) (p : Option Ptr) : Table := { t with files := t.files.insert n p }

/-- `files.erase(name)`. -/
def erase (t : Table) (n : Name) : Table := { t with files := t.files.erase n }

/-- The table of a new environment. -/
def empty : Table := ⟨∅, fun _ => .new [] (-1), fun _ => false, 0⟩

variable (t : Table) (n n' : Name) (p : Ptr) (f : ZnsFile)

@[simp] theorem find_empty : empty.find n = none := by simp [find, empty]

theorem find_put (q : Option Ptr) : (t.put n q).find n' = if n = n' then q else t.find n' := by
  rw [find, put, Std.ExtTreeMap.getElem?_insert]
  by_cases h : n = n'
  · simp [h]
  · simp [h, find]

theorem find_erase : (t.erase n).find n' = if n = n' then none else t.find n' := by
  rw [find, erase, Std.ExtTreeMap.getElem?_erase]
  by_cases h : n = n'
  · simp [h]
  · simp [h, find]

@[simp] theorem find_set : (t.set p f).find n = t.find n := rfl
@[simp] theorem find_delete : (t.delete p).find n = t.find n := rfl
@[simp] theorem find_alloc : (t.alloc f).1.find n = t.find n := rfl

@[simp] theorem objs_set : (t.set p f).objs = update t.objs p f := rfl
@[simp] theorem objs_put (q : Option Ptr) : (t.put n q).objs = t.objs := rfl
@[simp] theorem objs_erase : (t.erase n).objs = t.objs := rfl
theorem find_eq_some : t.find n = some p ↔ (n, some p) ∈ t.files.toList := by
  rw [find, Std.ExtTreeMap.mem_toList_iff_getElem?_eq_some]
  exact Option.join_eq_some_iff

end Table

end Xztl
