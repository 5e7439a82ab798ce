import Mathlib.Data.List.Basic

/-!
Files and their names. A file is known by the number of its creation, keeps that
number under whatever name it is given, and goes on taking bytes from those who
have it open after its last name is gone; only then nobody finds them any more.
-/

namespace TAlib.Foundation

universe u v
variable {N : Type u} {α : Type v}

structure Disk (N : Type u) (α : Type v) where
  files : List (List α)
  dir : List (N × Nat)
  deriving DecidableEq, Repr

namespace Disk

def content (d : Disk N α) (file : Nat) : List α := d.files.getD file []

def append (d : Disk N α) (file : Nat) (bytes : List α) : Disk N α :=
  { d with files := d.files.modify file (· ++ bytes) }

def named (d : Disk N α) (file : Nat) : Bool := d.dir.any fun e => e.2 = file

/-- The bytes of all files that have a name, the oldest file first. -/
def present (d : Disk N α) : List α :=
  ((List.range d.files.length).filter d.named).flatMap d.content

section Files

variable {d : Disk N α} {name : N} {file : Nat}

@[simp] theorem append_dir (bytes : List α) : (d.append file bytes).dir = d.dir := rfl

@[simp] theorem append_files_length (bytes : List α) :
    (d.append file bytes).files.length = d.files.length := List.length_modify _ _ _

theorem content_append_self (h : file < d.files.length) (bytes : List α) :
    (d.append file bytes).content file = d.content file ++ bytes := by
  simp [content, append, List.getD_eq_getElem?_getD, h]

theorem content_append_of_ne {other : Nat} (h : other ≠ file) (bytes : List α) :
    (d.append file bytes).content other = d.content other := by
  simp [content, append, List.getD_eq_getElem?_getD, h.symm]

/-- With a single name there is a single file to be found. -/
theorem present_single (h : d.dir = [(name, file)]) (hfile : file < d.files.length) :
    d.present = d.content file := by
  have hnamed : d.named = fun i => decide (i = file) := by
    funext i
    simp [named, h, eq_comm]
  have hcount : List.count file (List.range d.files.length) = 1 := by
    rw [List.Nodup.count List.nodup_range, if_pos (List.mem_range.mpr hfile)]
  rw [present, hnamed, List.filter_eq, hcount, List.replicate_one, List.flatMap_singleton]

end Files

section Names

variable [DecidableEq N] {d : Disk N α} {name : N} {file : Nat}

def lookup (d : Disk N α) (name : N) : Option Nat :=
  (d.dir.find? fun e => e.1 = name).map Prod.snd

/-- Opening a file for appending, which creates it if need be. -/
def openAppend (d : Disk N α) (name : N) : Nat × Disk N α :=
  match d.lookup name with
  | some file => (file, d)
  | none => (d.files.length, ⟨d.files ++ [[]], d.dir ++ [(name, d.files.length)]⟩)

/-- Whether there was such a name, which is gone now. -/
def remove (d : Disk N α) (name : N) : Bool × Disk N α :=
  ((d.lookup name).isSome, { d with dir := d.dir.filter fun e => e.1 ≠ name })

def size (d : Disk N α) (name : N) : Nat :=
  match d.lookup name with
  | some file => (d.content file).length
  | none => 0

theorem lookup_single (h : d.dir = [(name, file)]) : d.lookup name = some file := by
  simp [lookup, h]

/-- Opening a file when there is none, and its size. -/
theorem openAppend_nil (h : d.dir = []) :
    d.openAppend name = (d.files.length, ⟨d.files ++ [[]], [(name, d.files.length)]⟩) := by
  simp [openAppend, lookup, h]

theorem size_created (files : List (List α)) :
    (⟨files ++ [[]], [(name, files.length)]⟩ : Disk N α).size name = 0 := by
  have hlookup : (⟨files ++ [[]], [(name, files.length)]⟩ : Disk N α).lookup name =
      some files.length := lookup_single rfl
  rw [size, hlookup]
  simp [content]

theorem remove_single (h : d.dir = [(name, file)]) : d.remove name = (true, ⟨d.files, []⟩) := by
  simp [remove, lookup, h]

end Names
end Disk
end TAlib.Foundation
