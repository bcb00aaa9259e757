/-
A directory of files whose entries reach the disk later than they are made.

A name refers to an inode, an inode has contents. A change of entries (a creation, a rename, an unlink) is
seen by the process at once; on the disk it is there for sure only when the directory has been synced. A
crash keeps some of the changes made since, in their order, and loses the others. Each change is kept or lost
as a whole.
-/
import Mathlib
import Fn0.Lib.Bytes

variable {ν : Type} [DecidableEq ν]

/-- A change of entries: for each name the inode it refers to from then on. -/
abbrev Change (ν : Type) : Type := List (ν × Option Nat)

/-- What the names refer to. -/
abbrev Entries (ν : Type) : Type := ν → Option Nat

def Change.apply (change : Change ν) (entries : Entries ν) : Entries ν :=
  change.foldl (fun entries (name, inode) => Function.update entries name inode) entries

structure Names (ν : Type) where
  durable : Entries ν
  pending : List (Change ν)
  content : Nat → Bytes
  fresh : Nat

namespace Names

/-- What the process sees. -/
def view (s : Names ν) : Entries ν := s.pending.foldl (fun entries change => change.apply entries) s.durable

def read (s : Names ν) (name : ν) : Option Bytes := (s.view name).map s.content

def push (change : Change ν) (s : Names ν) : Names ν := { s with pending := s.pending ++ [change] }

def setContent (inode : Nat) (bytes : Bytes) (s : Names ν) : Names ν :=
  { s with content := Function.update s.content inode bytes }

/-- A file is written under another name and renamed to `name`. -/
def replace (name : ν) (bytes : Bytes) (s : Names ν) : Names ν :=
  push [(name, some s.fresh)] { s with content := Function.update s.content s.fresh bytes, fresh := s.fresh + 1 }

/-- Opening a file for writing, made when it is not there, emptied when it is. -/
def create (name : ν) (s : Names ν) : Names ν :=
  match s.view name with
  | some inode => s.setContent inode []
  | none => s.replace name []

/-- Writing the contents of a file that is there. -/
def write (name : ν) (bytes : Bytes) (s : Names ν) : Names ν :=
  match s.view name with
  | some inode => s.setContent inode bytes
  | none => s

def rename (source target : ν) (s : Names ν) : Names ν :=
  s.push [(target, s.view source), (source, none)]

def remove (name : ν) (s : Names ν) : Names ν := s.push [(name, none)]

/-- The directory is synced. -/
def sync (s : Names ν) : Names ν := { s with durable := s.view, pending := [] }

/-- The changes of a list that a mask keeps; past the end of the mask none is kept. -/
def kept : List (Change ν) → List Bool → List (Change ν)
  | change :: changes, true :: mask => change :: kept changes mask
  | _ :: changes, false :: mask => kept changes mask
  | _, _ => []

/-- The directory after a crash that kept the changes of a mask. -/
def crash (mask : List Bool) (s : Names ν) : Names ν :=
  { s with
    durable := (kept s.pending mask).foldl (fun entries change => change.apply entries) s.durable
    pending := [] }

/-! ## The entries a crash can leave -/

def Views (s : Names ν) (entries : Entries ν) : Prop := ∃ mask, entries = (s.crash mask).durable

omit [DecidableEq ν] in
theorem kept_append (changes : List (Change ν)) (change : Change ν) (mask : List Bool) :
    ∃ mask', kept (changes ++ [change]) mask = kept changes mask' ∨
      kept (changes ++ [change]) mask = kept changes mask' ++ [change] := by
  induction changes generalizing mask with
  | nil =>
    rcases mask with _ | ⟨_ | _, mask⟩
    · exact ⟨[], .inl rfl⟩
    · exact ⟨[], .inl (by simp [kept])⟩
    · exact ⟨[], .inr (by simp [kept])⟩
  | cons first changes ih =>
    rcases mask with _ | ⟨keep, mask⟩
    · exact ⟨[], .inl rfl⟩
    · obtain ⟨mask', h⟩ := ih mask
      refine ⟨keep :: mask', ?_⟩
      cases keep <;> simpa [kept] using h

omit [DecidableEq ν] in
theorem kept_all (changes : List (Change ν)) : kept changes (List.replicate changes.length true) = changes := by
  induction changes with
  | nil => rfl
  | cons change changes ih => simp [List.replicate_succ, kept, ih]

variable {s : Names ν} {P : Entries ν → Prop}

theorem views_view (s : Names ν) : s.Views s.view :=
  ⟨List.replicate s.pending.length true, by rw [crash, kept_all]; rfl⟩

/-- A change is lost or kept, on top of whatever the crash made of the changes before it. -/
theorem views_push {change : Change ν} (h : ∀ v, s.Views v → P v ∧ P (change.apply v)) :
    ∀ v, (s.push change).Views v → P v := by
  rintro v ⟨mask, rfl⟩
  obtain ⟨mask', hlost | hkept⟩ := kept_append s.pending change mask
  · have := (h _ ⟨mask', rfl⟩).1
    simpa only [crash, push, hlost] using this
  · have := (h _ ⟨mask', rfl⟩).2
    simpa only [crash, push, hkept, List.foldl_append, List.foldl_cons, List.foldl_nil] using this

/-- Once the directory is synced a crash changes nothing. -/
theorem views_of_synced (h : s.pending = []) {v : Entries ν} (hv : s.Views v) : v = s.durable := by
  obtain ⟨mask, rfl⟩ := hv
  simp [crash, h, kept]

theorem views_sync {v : Entries ν} (hv : s.sync.Views v) : v = s.view := views_of_synced rfl hv

theorem views_crash {mask : List Bool} {v : Entries ν} (hv : (s.crash mask).Views v) : s.Views v := by
  rw [views_of_synced rfl hv]
  exact ⟨mask, rfl⟩

@[simp] theorem view_sync : s.sync.view = s.view := rfl

@[simp] theorem view_push (change : Change ν) : (s.push change).view = change.apply s.view := by
  simp [view, push]

@[simp] theorem view_setContent (inode : Nat) (bytes : Bytes) : (s.setContent inode bytes).view = s.view := rfl

omit [DecidableEq ν] in
@[simp] theorem content_push (change : Change ν) : (s.push change).content = s.content := rfl

@[simp] theorem content_sync : s.sync.content = s.content := rfl

@[simp] theorem content_crash (mask : List Bool) : (s.crash mask).content = s.content := rfl

theorem view_replace (name : ν) (bytes : Bytes) (other : ν) :
    (s.replace name bytes).view other = if other = name then some s.fresh else s.view other := by
  simp only [replace, view_push, Change.apply, List.foldl_cons, List.foldl_nil, Function.update_apply]
  rfl

theorem view_create (s : Names ν) (name : ν) : ∃ i, (s.create name).view name = some i := by
  unfold create
  split
  next i hi => exact ⟨i, hi⟩
  next => exact ⟨s.fresh, by rw [view_replace, if_pos rfl]⟩

end Names
