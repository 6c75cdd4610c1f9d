import TinyLsm.Compact.Task
import TinyLsm.Lib.Effect
import TinyLsm.Table

/-!
# The directory and the manifest (`manifest.rs`)

The bodies of `Manifest` are unimplemented in the source.  It is taken to be what its interface
says, an append-only log: `add_record` appends, `recover` returns all records in order.

`Disk` is the directory of a store: the manifest, the table files and the log files, by id.  Every
call to the operating system may fail; `faults` says which of the coming ones do, and past its end
all of them succeed.
-/

namespace TinyLsm

/-- What the manifest remembers. -/
inductive ManifestRecord where
  | flush (id : ℕ)
  | newMemtable (id : ℕ)
  | compaction (task : CompactionTask) (output : List ℕ)
  deriving DecidableEq, Repr

/-- Files by id: `00007.sst`, `00007.wal`. -/
abbrev FileMap := AList fun _ : ℕ => Bytes

/-- The directory of a store. -/
structure Disk where
  /-- `none` when there is no manifest file. -/
  manifest : Option (List ManifestRecord)
  ssts : FileMap
  wals : FileMap
  faults : List Bool

namespace Disk

/-- An empty directory on which nothing fails. -/
def empty : Disk := ⟨none, ∅, ∅, []⟩

/-- One call to the operating system. -/
def syscall (d : Disk) : Outcome Unit × Disk :=
  match d.faults with
  | [] => (.ok (), d)
  | false :: rest => (.ok (), { d with faults := rest })
  | true :: rest => (.error (.err "I/O error"), { d with faults := rest })

/-- The calls that are still to come all succeed. -/
def Reliable (d : Disk) : Prop := ∀ f ∈ d.faults, f = false

theorem Reliable.syscall {d : Disk} (h : d.Reliable) :
    ∃ rest, d.syscall = (.ok (), { d with faults := rest }) ∧ ∀ f ∈ rest, f = false := by
  obtain ⟨manifest, ssts, wals, faults⟩ := d
  cases faults with
  | nil => exact ⟨[], rfl, by simp⟩
  | cons f rest =>
    obtain rfl : f = false := h f List.mem_cons_self
    exact ⟨rest, rfl, fun g hg => h g (List.mem_cons_of_mem _ hg)⟩

theorem syscall_eq_ok {d d' : Disk} {u : Unit} (h : d.syscall = (.ok u, d')) :
    ∃ rest, d' = { d with faults := rest } := by
  obtain ⟨manifest, ssts, wals, faults⟩ := d
  match faults with
  | [] =>
    cases h
    exact ⟨[], rfl⟩
  | false :: rest =>
    cases h
    exact ⟨rest, rfl⟩
  | true :: rest => cases h

end Disk

/-- Effects on the directory. -/
abbrev DiskEffect (α : Type) := Effect Fault Disk α

namespace Manifest

/-- An empty manifest. -/
def create : DiskEffect Unit := do
  Disk.syscall
  modify fun d => { d with manifest := some [] }

/-- The records of the manifest. -/
def recover : DiskEffect (List ManifestRecord) := do
  Disk.syscall
  return (← get).manifest.getD []

/-- One more record. -/
def addRecord (record : ManifestRecord) : DiskEffect Unit := do
  Disk.syscall
  modify fun d => { d with manifest := d.manifest.map (· ++ [record]) }

end Manifest

namespace FileObject

/-- `FileObject::create` for table `id`: the file is written, over an older one if there is one. -/
def create (id : ℕ) (data : Bytes) : DiskEffect Unit := do
  Disk.syscall
  modify fun d => { d with ssts := d.ssts.insert id data }

/-- `FileObject::open`: the contents of the file. -/
def openFile (id : ℕ) : DiskEffect Bytes := do
  Disk.syscall
  match (← get).ssts.lookup id with
  | some data => return data
  | none => throw (.err "No such file or directory")

/-- `std::fs::remove_file`. -/
def remove (id : ℕ) : DiskEffect Unit := do
  Disk.syscall
  match (← get).ssts.lookup id with
  | some _ => modify fun d => { d with ssts := d.ssts.erase id }
  | none => throw (.err "No such file or directory")

end FileObject

/-! ## What a successful call leaves behind -/

theorem Disk.exec_syscall_bind {α : Type} {f : Unit → DiskEffect α} {d d' : Disk} {a : α}
    (h : ((Disk.syscall : DiskEffect Unit) >>= f).exec d = (.ok a, d')) :
    ∃ rest, (f ()).exec { d with faults := rest } = (.ok a, d') := by
  rw [Effect.exec_bind_eq_ok_iff] at h
  obtain ⟨u, d₁, hsys, hf⟩ := h
  obtain ⟨rest, rfl⟩ := Disk.syscall_eq_ok hsys
  exact ⟨rest, hf⟩

theorem Disk.Reliable.addRecord {d : Disk} (h : d.Reliable) (record : ManifestRecord) :
    ((Manifest.addRecord record).exec d).1 = .ok () := by
  obtain ⟨rest, hsys, -⟩ := h.syscall
  have hstep : Effect.exec (Disk.syscall : DiskEffect Unit) d = (.ok (), { d with faults := rest }) := hsys
  unfold Manifest.addRecord
  rw [Effect.exec_bind_of_ok hstep]
  rfl

theorem Manifest.addRecord_eq_ok {record : ManifestRecord} {d d' : Disk} {u : Unit}
    (h : (Manifest.addRecord record).exec d = (.ok u, d')) :
    d'.manifest = d.manifest.map (· ++ [record]) ∧ d'.ssts = d.ssts ∧ d'.wals = d.wals := by
  obtain ⟨rest, h⟩ := Disk.exec_syscall_bind h
  cases h
  exact ⟨rfl, rfl, rfl⟩

theorem Manifest.recover_eq_ok {recs : List ManifestRecord} {d d' : Disk}
    (h : Manifest.recover.exec d = (.ok recs, d')) :
    d.manifest.getD [] = recs ∧ d'.manifest = d.manifest ∧ d'.wals = d.wals ∧ d'.ssts = d.ssts := by
  obtain ⟨rest, h⟩ := Disk.exec_syscall_bind h
  rw [Effect.exec_get_bind] at h
  cases h
  exact ⟨rfl, rfl, rfl, rfl⟩

theorem FileObject.create_eq_ok {id : ℕ} {data : Bytes} {d d' : Disk} {u : Unit}
    (h : (FileObject.create id data).exec d = (.ok u, d')) :
    d'.ssts = d.ssts.insert id data ∧ d'.manifest = d.manifest ∧ d'.wals = d.wals := by
  obtain ⟨rest, h⟩ := Disk.exec_syscall_bind h
  cases h
  exact ⟨rfl, rfl, rfl⟩

theorem FileObject.openFile_eq_ok {id : ℕ} {d d' : Disk} {data : Bytes}
    (h : (FileObject.openFile id).exec d = (.ok data, d')) :
    d.ssts.lookup id = some data ∧ ∃ rest, d' = { d with faults := rest } := by
  obtain ⟨rest, h⟩ := Disk.exec_syscall_bind h
  rw [Effect.exec_get_bind] at h
  simp only at h
  cases hl : d.ssts.lookup id with
  | none =>
    rw [hl] at h
    cases h
  | some data' =>
    rw [hl] at h
    cases h
    exact ⟨rfl, rest, rfl⟩

theorem FileObject.remove_eq_ok {id : ℕ} {d d' : Disk} {u : Unit}
    (h : (FileObject.remove id).exec d = (.ok u, d')) :
    d'.ssts = d.ssts.erase id ∧ d'.manifest = d.manifest ∧ d'.wals = d.wals := by
  obtain ⟨rest, h⟩ := Disk.exec_syscall_bind h
  rw [Effect.exec_get_bind] at h
  simp only at h
  cases hl : d.ssts.lookup id with
  | none =>
    rw [hl] at h
    cases h
  | some data =>
    rw [hl] at h
    cases h
    exact ⟨rfl, rfl, rfl⟩

end TinyLsm
