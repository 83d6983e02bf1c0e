import Pintos.Filesys.GrowthExact

/-! Creations and growths in which a call of `free_map_allocate` returns false.  Nobody looks at its
result. -/

namespace Pintos.Filesys

open Words Role Results

/-- `inode_create` with its result, where `calloc` says whether there is memory for the record. -/
def inodeCreateResult (fs : Fs) (sector length : Nat) (isdir calloc : Bool) :
    Except Fault (Fs × Bool) :=
  if calloc then do
    let (fs, d, success) ← inodeAlloc fs ⟨length, 0, 0, 0, isdir, 0⟩
    let d := { d with parent := 1 }
    .ok (fs.put sector (d.copyTo (fs.data sector)), success)
  else .ok (fs, false)

theorem inodeCreateResult_calloc (fs : Fs) (sector length : Nat) (isdir : Bool) :
    inodeCreateResult fs sector length isdir true =
      (inodeCreate fs sector length isdir).map fun fs' => (fs', true) := by
  simp only [inodeCreateResult, if_true, inodeCreate, inodeAlloc, bind, Except.bind]
  cases fileGrowth fs ⟨0, 0, 0, 0, isdir, 0⟩ 0 length <;> rfl

/-- Some call of `free_map_allocate` returns false in the growth from length `L` to length `N`.  A
growth past the last block comes to its fault after at most this many calls. -/
def Refused (fs : Fs) (L N : Nat) : Prop := fs.free.Refuses (growthCalls L N)

/-- No new pointer is left in the record, and no length beyond the sectors that there were. -/
def KeepsPointers (fs fs' : Fs) (d d' : InodeDisk) : Prop :=
  ∀ r, Upto (bytesToSectors d'.length) r →
    Upto (bytesToSectors d.length) r ∧ sectorAt fs' d' r = sectorAt fs d r

/-- `inode_create` returns false, without sectors taken and without pointers to others. -/
def CreateReports (fs : Fs) (sector length : Nat) (isdir calloc : Bool) : Prop :=
  ∃ fs', inodeCreateResult fs sector length isdir calloc = .ok (fs', false) ∧
    (∀ s, ¬NewlyUsed fs fs' s) ∧
    (fs'.data sector = fs.data sector ∨
      KeepsPointers fs fs' ⟨0, 0, 0, 0, isdir, 0⟩ (.read (fs'.data sector)))

/-- `inode_write_at` returns fewer than `size` bytes, without sectors taken and without pointers to
others. -/
def WriteReports (fs : Fs) (inode : OpenInode) (buffer : Bytes) (size offset : Nat) : Prop :=
  ∃ fs' inode' w, inodeWriteAt fs inode buffer size offset = .ok (fs', inode', w) ∧ w < size ∧
    (∀ s, ¬NewlyUsed fs fs' s) ∧ KeepsPointers fs fs' inode.data inode'.data

/-- `inode_alloc` returns true whatever `file_growth` comes to. -/
theorem inodeAlloc_true {fs fs' : Fs} {diskInode d : InodeDisk} {success : Bool}
    (run : inodeAlloc fs diskInode = .ok (fs', d, success)) : success = true := by
  obtain ⟨⟨fs₁, d₁⟩, -, rest⟩ := bind_ok run
  obtain ⟨-, same⟩ := Prod.mk.inj (Except.ok.inj rest)
  exact (Prod.mk.inj same).2.symm

theorem inodeCreateResult_true {fs fs' : Fs} {sector length : Nat} {isdir success : Bool}
    (run : inodeCreateResult fs sector length isdir true = .ok (fs', success)) :
    success = true := by
  rw [inodeCreateResult, if_pos rfl] at run
  obtain ⟨⟨fs₁, d, result⟩, alloc, rest⟩ := bind_ok run
  obtain ⟨-, rfl⟩ := Prod.mk.inj (Except.ok.inj rest)
  exact inodeAlloc_true alloc

/-- A creation or a growth in which a call is refused never reports it. -/
theorem out_of_space_unreported (fs : Fs) :
    (∀ sector length isdir, Refused fs 0 length →
      ¬CreateReports fs sector length isdir true) ∧
    ∀ inode buffer size offset, inode.denyWriteCnt = 0 → inode.data.length < offset + size →
      Refused fs inode.data.length (offset + size) →
        ¬WriteReports fs inode buffer size offset := by
  constructor
  · rintro sector length isdir - ⟨fs', run, -, -⟩
    cases inodeCreateResult_true run
  · rintro inode buffer size offset allowed - - ⟨fs', inode', w, run, fewer, -, -⟩
    have all := inodeWriteAt_written allowed run
    omega

/-- A device of nine sectors, all of them in use. -/
def fullFs : Fs where
  data := fun _ _ => 0
  free := {
    size := 9
    used := fun _ => true
    file := some fun _ => true
    writeFails := fun _ => none
    writes := 0
    small := by decide }
  memsets := []

/-- A file of 100 bytes is created there, and the file of 100 bytes in sector 2 grows to 600. -/
theorem out_of_space_unreported_full :
    ¬CreateReports fullFs 7 100 false true ∧
      ¬WriteReports fullFs ⟨1, false, 0, smallFile⟩ (fun _ => 1) 500 100 :=
  ⟨(out_of_space_unreported fullFs).1 7 100 false ⟨0, by decide, by decide⟩,
    (out_of_space_unreported fullFs).2 ⟨1, false, 0, smallFile⟩ (fun _ => 1) 500 100 rfl (by decide)
      ⟨0, by decide, by decide⟩⟩

/-- The new file of 100 bytes has sector 0, that of the free-map file. -/
theorem full_disk_create_succeeds :
    Refused fullFs 0 100 ∧ ∃ fs', inodeCreateResult fullFs 7 100 false true = .ok (fs', true) ∧
      (InodeDisk.read (fs'.data 7)).length = 100 ∧ (InodeDisk.read (fs'.data 7)).sp = 0 :=
  ⟨⟨0, by decide, by decide⟩, _, rfl, by decide, by decide⟩

end Pintos.Filesys
