import Pintos.Filesys.LockUse
import Pintos.Userprog.OpenBalance
import Pintos.Vm.Eviction

/-! The locks of `evict`, `page_back`, `file_back`, `mmap` and `load`: from which sets of locks, and
on which paths, each of them gives back what it takes. -/

namespace Pintos.LockUse

open Locking LockId

section Paging

/-- A call of `evict` by a thread: the frame that it takes, and what it meets when it writes the
page to its file.  The frame table is not empty. -/
structure Eviction where
  st : Vm.State
  thread : Nat
  frame : Vm.Frame
  taken : ∃ f, st.victim thread = some f ∧ st.frames f = some frame
  shared : Bool
  write : WriteAt

def Eviction.dirty (e : Eviction) : Bool := (e.st.pagedir e.thread e.frame.upage).dirty

def sout : Uses Unit := do
  acquire swapLock
  release swapLock

def sback : Uses Unit := do
  acquire swapLock
  release swapLock

/-- The part of `evict` or `file_back` that takes `file_lock` unless it is held, and gives it up. -/
def withFileLock (body : Uses Unit) : Uses Unit := do
  let held ← holds fileLock
  if !held then acquire fileLock
  body
  release fileLock

def evict (e : Eviction) : Uses Unit := do
  acquire frameLock
  if e.shared then return ()
  if e.frame.type = .mmap then
    if e.dirty then withFileLock (inodeWriteAt e.frame.file e.write)
  else
    if e.frame.type ≠ .file ∨ e.dirty then sout
  release frameLock

/-- `page_back` after some calls of `evict`. -/
def pageBack (evictions : List Eviction) : Uses Bool := do
  each evict evictions
  acquire frameLock
  sback
  release frameLock
  return true

/-- What `file_back` meets: the calls of `evict`, the read of the page and whether it is complete,
whether the frame is shared, and whether the page can be installed. -/
structure FileBack where
  evictions : List Eviction
  pageReadBytes : Nat
  inode : Nat
  read : ReadAt
  complete : Bool
  shared : Bool
  installs : Bool

/-- `file_back` once the page is read. -/
def installBack (b : FileBack) : Uses Bool := do
  if b.shared then return b.installs
  if b.installs then
    acquire frameLock
    release frameLock
  return b.installs

/-- `file_back` with a page to read into.  A short read gives `file_lock` up as well. -/
def readBack (b : FileBack) : Uses Bool := do
  if b.pageReadBytes = 0 then installBack b
  else
    withFileLock (inodeReadAt b.inode b.read)
    if b.complete then installBack b else return false

def fileBack (b : FileBack) : Uses Bool := do
  each evict b.evictions
  readBack b

end Paging

section Mmap

/-- `check_match`, and with it `install_file`. -/
def checkMatch : Uses Unit := do
  acquire frameLock
  release frameLock

/-- `frame_table_insert` of a page that is backed by swap. -/
def frameTableInsert : Uses Unit := do
  acquire frameLock
  release frameLock

def frameDestroy : Uses Unit := do
  acquire frameLock
  release frameLock

/-- A page that `munmap` removes: its frame and the inode of its file, whether it is dirty, the
write of the page, whether the frame is shared before and after `spt_free`, and the file that is
closed, which may have `deny_write` set. -/
structure Unmap where
  frame : Vm.Frame
  dirty : Bool
  write : WriteAt
  shared : Bool
  stillShared : Bool
  closes : Option (Bool × InodeClose)

def sptFree (u : Unmap) : Uses Unit := do
  if u.shared then
    let held ← holds frameLock
    if !held then acquire frameLock
    release frameLock

def frameFree (u : Unmap) : Uses Unit := do
  let held ← holds frameLock
  if !held then acquire frameLock
  if u.stillShared = false ∧ u.frame.type ≠ .file ∧ u.frame.load = false ∧
      u.frame.index ≠ Vm.noIndex then
    acquire swapLock
    release swapLock
  release frameLock

def fileClose (denyWrite : Bool) (c : InodeClose) : Uses Unit := do
  if denyWrite then inodeAllowWrite c.inode
  inodeClose c

def unmapPage (u : Unmap) : Uses Unit := do
  if u.frame.load ∧ u.dirty then inodeWriteAt u.frame.file u.write
  sptFree u
  frameFree u
  match u.closes with
  | none => pure ()
  | some (denyWrite, c) => fileClose denyWrite c

/-- What `mmap` meets with the file of a descriptor: its length, whether `file_reopen` has memory
and the `inode_close` where it has none, which pages can be installed, the mapping, and the pages
that `munmap` removes after a failure. -/
structure MappedFile where
  inode : Nat
  length : Int
  reopens : Bool
  closes : InodeClose
  installs : Nat → Bool
  mapid : Int
  unmaps : List Unmap

def mmapLoop (installs : Nat → Bool) : List Nat → Uses Bool
  | [] => pure true
  | page :: rest => do
    checkMatch
    if installs page then mmapLoop installs rest else return false

/-- The end of `mmap`. -/
def mmapEnd (f : MappedFile) (installed : Bool) : Uses Int :=
  if installed then do
    release fileLock
    return f.mapid
  else do
    each unmapPage f.unmaps
    return -1

/-- `mmap` from `file_reopen` on. -/
def mmapReopen (f : MappedFile) : Uses Int := do
  inodeReopen f.inode
  if f.reopens then do
    let installed ← mmapLoop f.installs (List.range (Userprog.UserProcess.pages f.length.toNat))
    mmapEnd f installed
  else do
    inodeClose f.closes
    return -1

/-- `mmap` at a good address. -/
def mmapFile (file : Option MappedFile) : Uses Int := do
  acquire fileLock
  match file with
  | none => return -1
  | some f => do
    inodeLength f.inode
    if f.length ≤ 0 then return -1 else mmapReopen f

/-- `mmap`, where `address` is the result of `check_mmap_addr`, and `file` that of `find_file`. -/
def mmap (address : Bool) (file : Option MappedFile) : Uses Int :=
  if address then mmapFile file else return -1

end Mmap

section Load

/-- A program header of the kind `PT_LOAD` with its checks: the equal page offsets and the rest of
`validate_segment`, and the pages of the segment. -/
inductive PhdrKind
  | ignored
  | refused
  | load (congruent valid : Bool) (pages : Nat)

structure PhdrRead where
  negative : Bool
  beyond : Bool
  read : ReadAt
  complete : Bool
  kind : PhdrKind

def validateSegment (inode : Nat) (congruent valid : Bool) : Uses Bool := do
  if !congruent then return false
  inodeLength inode
  return valid

def loadSegment (pages : Nat) : Uses Unit := each (fun _ => checkMatch) (List.range pages)

/-- A case of the `switch` in `load`. -/
def loadKind (inode : Nat) : PhdrKind → Uses Bool
  | .ignored => pure true
  | .refused => pure false
  | .load congruent valid pages => do
    if ← validateSegment inode congruent valid then do
      loadSegment pages
      return true
    else return false

def loadPhdrs (inode : Nat) : List PhdrRead → Uses Bool
  | [] => pure true
  | p :: rest => do
    if p.negative then return false
    inodeLength inode
    if p.beyond then return false
    inodeReadAt inode p.read
    if !p.complete then return false
    if ← loadKind inode p.kind then loadPhdrs inode rest else return false

/-- What `setup_stack` meets: the calls of `evict`, whether the page can be installed, the faults
on it that `page_back` serves while the arguments are copied, and whether they fit. -/
structure StackSetup where
  evictions : List Eviction
  installs : Bool
  faults : List (List Eviction)
  fits : Bool

def setupStack (s : StackSetup) : Uses Bool := do
  each evict s.evictions
  frameTableInsert
  if !s.installs then
    frameDestroy
    return false
  each (fun evictions => do let _ ← pageBack evictions) s.faults
  return s.fits

/-- What `load` meets; `valid` is about the header of the file. -/
structure Loading where
  pagedir : Bool
  opening : Opening
  header : ReadAt
  valid : Bool
  phdrs : List PhdrRead
  stack : StackSetup

/-- `load` with an open file, up to its end. -/
def loadFile (x : Loading) (inode : Nat) : Uses Bool := do
  inodeDenyWrite inode
  inodeReadAt inode x.header
  if !x.valid then return false
  if !(← loadPhdrs inode x.phdrs) then return false
  setupStack x.stack

/-- `load` up to the label `done`. -/
def loadBody (x : Loading) : Uses Bool := do
  if !x.pagedir then return false
  acquire fileLock
  match ← filesysOpen x.opening with
  | none => return false
  | some inode => loadFile x inode

def load (x : Loading) : Uses Bool := do
  let success ← loadBody x
  release fileLock
  return success

end Load

section Conditions

def Eviction.WritesBack (e : Eviction) : Prop := e.frame.type = .mmap ∧ e.dirty = true

def Eviction.SwapsOut (e : Eviction) : Prop :=
  e.frame.type ≠ .mmap ∧ (e.frame.type ≠ .file ∨ e.dirty = true)

instance (e : Eviction) : Decidable e.WritesBack := inferInstanceAs (Decidable (_ ∧ _))

instance (e : Eviction) : Decidable e.SwapsOut := inferInstanceAs (Decidable (_ ∧ _))

/-- The frame is not shared, a write to its file starts without `file_lock`, and no lock that the
call takes is held. -/
def Eviction.Ok (e : Eviction) (held : Finset LockId) : Prop :=
  frameLock ∉ held ∧ e.shared = false ∧
    (e.WritesBack → fileLock ∉ held ∧ ∀ l ∈ e.write.takes, l ∉ held) ∧
    (e.SwapsOut → swapLock ∉ held)

def PageBackOk (evictions : List Eviction) (held : Finset LockId) : Prop :=
  (∀ e ∈ evictions, e.Ok held) ∧ frameLock ∉ held ∧ swapLock ∉ held

/-- A page with bytes of the file is read without `file_lock` held before. -/
def FileBack.ReadOk (b : FileBack) (held : Finset LockId) : Prop :=
  (0 < b.pageReadBytes → fileLock ∉ held ∧ ∀ l ∈ b.read.takes b.inode, l ∉ held) ∧
    ((0 < b.pageReadBytes → b.complete = true) → b.shared = false → b.installs = true →
      frameLock ∉ held)

def FileBack.Ok (b : FileBack) (held : Finset LockId) : Prop :=
  (∀ e ∈ b.evictions, e.Ok held) ∧ b.ReadOk held

/-- The address is refused, or the mapping succeeds. -/
def MmapOk (address : Bool) (file : Option MappedFile) (held : Finset LockId) : Prop :=
  address = false ∨ fileLock ∉ held ∧ frameLock ∉ held ∧ ∃ f, file = some f ∧
    inodeIo f.inode ∉ held ∧ 0 < f.length ∧ f.reopens = true ∧
    ∀ page < Userprog.UserProcess.pages f.length.toNat, f.installs page = true

/-- The page of the stack can be had, and the faults on it are served. -/
def StackSetup.Ok (s : StackSetup) (held : Finset LockId) : Prop :=
  (∀ e ∈ s.evictions, e.Ok held) ∧ frameLock ∉ held ∧
    (s.installs = true → ∀ evictions ∈ s.faults, PageBackOk evictions held)

/-- The locks that `validate_segment` and `load_segment` take. -/
def PhdrKind.takes (inode : Nat) : PhdrKind → List LockId
  | .ignored => []
  | .refused => []
  | .load congruent valid pages =>
    if congruent then
      inodeIo inode :: if valid then (List.range pages).flatMap fun _ => [frameLock] else []
    else []

def PhdrKind.good : PhdrKind → Bool
  | .ignored => true
  | .refused => false
  | .load congruent valid _ => congruent && valid

/-- The locks that the loop over the program headers takes, and its result. -/
def phdrsLocks (inode : Nat) : List PhdrRead → List LockId × Bool
  | [] => ([], true)
  | p :: rest =>
    if p.negative then ([], false)
    else if p.beyond then ([inodeIo inode], false)
    else
      let takes := inodeIo inode :: p.read.takes inode
      if !p.complete then (takes, false)
      else if !p.kind.good then (takes ++ p.kind.takes inode, false)
      else
        let more := phdrsLocks inode rest
        (takes ++ p.kind.takes inode ++ more.1, more.2)

/-- `load` goes on with a file that `filesys_open` returned without an `inode_open`. -/
def Loading.FileOk (x : Loading) (inode : Nat) (held : Finset LockId) : Prop :=
  inodeIo inode ∉ held ∧ (∀ l ∈ x.header.takes inode, l ∉ held) ∧
    (x.valid = true → (∀ l ∈ (phdrsLocks inode x.phdrs).1, l ∉ held) ∧
      ((phdrsLocks inode x.phdrs).2 = true → x.stack.Ok held))

/-- There is a page directory, `file_lock` is free, and `filesys_open` needs no `inode_open`. -/
def Loading.Ok (x : Loading) (held : Finset LockId) : Prop :=
  x.pagedir = true ∧ fileLock ∉ held ∧ ∃ takes file, x.opening.settled = some (takes, file) ∧
    (∀ l ∈ takes, l ∉ insert fileLock held) ∧
    ∀ inode ∈ file, x.FileOk inode (insert fileLock held)

end Conditions

section Evict

variable {held after : Finset LockId} {Q : Unit → Finset LockId → Prop}

theorem wp_withFileLock {body : Uses Unit} {takes : List LockId} (clean : Clean body takes ())
    (other : fileLock ∉ takes) :
    wp (withFileLock body) Q held ↔ (∀ l ∈ takes, l ∉ held) ∧ Q () (held.erase fileLock) := by
  unfold withFileLock
  by_cases here : fileLock ∈ held
  · simp [here, clean _ _]
  · have once := Clean.critical clean other Q held
    simp only [wp_bind, wp_holds, here, decide_false, Bool.not_false, if_true]
    simp only [wp_bind] at once
    rw [once, Finset.erase_eq_of_notMem here]
    simp [here]

theorem sout_clean : Clean sout [swapLock] () := Clean.touch swapLock

theorem wp_evict (e : Eviction) :
    wp (evict e) Q held ↔ frameLock ∉ held ∧
      if e.shared then Q () (insert frameLock held)
      else if e.WritesBack then (∀ l ∈ e.write.takes, l ∉ held) ∧ Q () (held.erase fileLock)
      else (e.SwapsOut → swapLock ∉ held) ∧ Q () held := by
  have fileFree : fileLock ∉ e.write.takes := fun taken => by
    obtain ⟨_, same⟩ := e.write.mem_takes taken
    cases same
  have frameFree : frameLock ∉ e.write.takes := fun taken => by
    obtain ⟨_, same⟩ := e.write.mem_takes taken
    cases same
  have write {Q} := @wp_withFileLock (insert frameLock held) Q _ _
    (inodeWriteAt_clean e.frame.file e.write) fileFree
  unfold evict
  simp only [wp_bind, wp_acquire]
  refine and_congr_right fun free => ?_
  have back := Finset.erase_insert free
  cases e.shared with
  | true => simp
  | false =>
    by_cases mmap : e.frame.type = .mmap
    · cases dirty : e.dirty with
      | true =>
        have writes : e.WritesBack := ⟨mmap, dirty⟩
        have order : ((insert frameLock held).erase fileLock).erase frameLock =
            held.erase fileLock := by
          rw [Finset.erase_right_comm, back]
        have held' : frameLock ∈ (insert frameLock held).erase fileLock := by simp
        have goal : wp (withFileLock (inodeWriteAt e.frame.file e.write))
            (fun _ => wp (release frameLock) Q) (insert frameLock held) ↔ _ := write
        rw [free_insert frameFree, wp_release, order, and_iff_right held'] at goal
        simpa [mmap, writes] using goal
      | false =>
        have keeps : ¬e.WritesBack := fun writes => Bool.eq_false_iff.mp dirty writes.2
        have stays : ¬e.SwapsOut := fun swaps => swaps.1 mmap
        simp [mmap, keeps, stays, back]
    · have keeps : ¬e.WritesBack := fun writes => mmap writes.1
      by_cases out : e.frame.type ≠ .file ∨ e.dirty = true
      · have swaps : e.SwapsOut := ⟨mmap, out⟩
        simp [mmap, keeps, swaps, out, sout_clean _ _, back]
      · have stays : ¬e.SwapsOut := fun swaps => out swaps.2
        simp [mmap, keeps, stays, out, back]

/-- What a call of `evict` may do to the locks: it gives up `file_lock`, or keeps `frame_lock`. -/
def Lost (held after : Finset LockId) : Prop :=
  (fileLock ∈ held ∧ fileLock ∉ after) ∨ (frameLock ∉ held ∧ frameLock ∈ after)

theorem not_lost (held : Finset LockId) : ¬Lost held held := by
  rintro (⟨here, gone⟩ | ⟨gone, here⟩)
  · exact gone here
  · exact gone here

theorem Lost.erase {now : Finset LockId} (lost : Lost held now) :
    Lost held (now.erase fileLock) := by
  rcases lost with ⟨here, gone⟩ | ⟨gone, here⟩
  · exact .inl ⟨here, by simp⟩
  · exact .inr ⟨gone, by simp [here]⟩

theorem evict_keeps_lost (e : Eviction) : Keeps (evict e) (Lost held) := by
  apply Keeps.of_wp
  intro now lost before
  obtain ⟨free, before⟩ := (wp_evict e).mp before
  have file : fileLock ∈ held ∧ fileLock ∉ now := by
    rcases lost with file | frame
    · exact file
    · exact absurd frame.2 free
  split at before
  · exact before (.inl ⟨file.1, by simp [file.2]⟩)
  · split at before
    · exact before.2 (.inl ⟨file.1, by simp⟩)
    · exact before.2 (.inl file)

theorem evict_restores (e : Eviction) (held : Finset LockId) :
    Restores (Lost held) held (evict e) (e.Ok held) () := by
  refine ⟨evict_keeps_lost e, fun Q refuse => ?_⟩
  rw [wp_evict, Eviction.Ok, and_assoc]
  refine and_congr_right fun free => ?_
  by_cases shared : e.shared = true
  · have more : Lost held (insert frameLock held) := .inr ⟨free, Finset.mem_insert_self ..⟩
    simp [shared, refuse () _ more]
  · by_cases writes : e.WritesBack
    · have stays : ¬e.SwapsOut := fun swaps => swaps.1 writes.1
      by_cases here : fileLock ∈ held
      · have less : Lost held (held.erase fileLock) := .inl ⟨here, by simp⟩
        simp [shared, writes, here, refuse () _ less]
      · simp [shared, writes, stays, here]
    · simp [shared, writes]

theorem evictions_restore (evictions : List Eviction) (held : Finset LockId) :
    Restores (Lost held) held (each evict evictions) (∀ e ∈ evictions, e.Ok held) () :=
  .each (evict_restores · held) evictions

theorem withFileLock_restores (held : Finset LockId) {body : Uses Unit} {takes : List LockId}
    (clean : Clean body takes ()) (other : fileLock ∉ takes) :
    Restores (Lost held) held (withFileLock body)
      (fileLock ∉ held ∧ ∀ l ∈ takes, l ∉ held) () := by
  constructor
  · apply Keeps.of_wp
    intro now lost before
    exact ((wp_withFileLock clean other).mp before).2 lost.erase
  · intro Q refuse
    rw [wp_withFileLock clean other]
    by_cases here : fileLock ∈ held
    · have less : Lost held (held.erase fileLock) := .inl ⟨here, by simp⟩
      simp [here, refuse () _ less]
    · simp [here]

/-- A call that does not take `file_lock` leaves the files as they are. -/
theorem evict_files (e : Eviction) {st' : Vm.State} (run : e.st.evict e.thread = some st')
    (keeps : ¬e.WritesBack) : st'.files = e.st.files := by
  obtain ⟨f, fr, fr', victim, frame, evicted⟩ := Vm.State.evict_evicted run
  obtain ⟨g, victim', frame'⟩ := e.taken
  obtain rfl := Option.some.inj (victim.symm.trans victim')
  obtain rfl := Option.some.inj (frame.symm.trans frame')
  cases evicted.saved with
  | dropped type clear files swap used => exact files
  | written type set files swap used => exact absurd ⟨type, set⟩ keeps
  | swapped i type unused files swap used => exact files

end Evict

section Back

variable {held : Finset LockId}

theorem sback_clean : Clean sback [swapLock] () := Clean.touch swapLock

theorem pageBack_restores (evictions : List Eviction) (held : Finset LockId) :
    Restores (Lost held) held (pageBack evictions) (PageBackOk evictions held) true := by
  have rest : Clean (do acquire frameLock; sback; release frameLock; return true)
      [frameLock, swapLock] true := Clean.section sback_clean (by decide) (.pure true)
  exact ((evictions_restore evictions held).seq rest.restores).congr (by simp [PageBackOk])

theorem installBack_clean (b : FileBack) :
    Clean (installBack b) (if b.shared = false ∧ b.installs = true then [frameLock] else [])
      b.installs := by
  unfold installBack
  cases b.shared with
  | true => exact .pure b.installs
  | false =>
    cases b.installs with
    | true => exact Clean.section (.pure ()) List.not_mem_nil (.pure true)
    | false => exact .pure false

theorem installBack_restores (b : FileBack) (held : Finset LockId) :
    Restores (Lost held) held (installBack b)
      (b.shared = false → b.installs = true → frameLock ∉ held) b.installs := by
  refine (installBack_clean b).restores.congr ?_
  split
  next here => simp [here]
  next here => simpa using fun shared installs => absurd ⟨shared, installs⟩ here

theorem readBack_restores (b : FileBack) (held : Finset LockId) :
    ∃ result, Restores (Lost held) held (readBack b) (b.ReadOk held) result := by
  have install := installBack_restores b held
  have read := withFileLock_restores held (inodeReadAt_clean b.inode b.read)
    (b.read.fileLock_notMem b.inode)
  unfold readBack FileBack.ReadOk
  by_cases none : b.pageReadBytes = 0
  · simp only [none, if_true]
    exact ⟨_, install.congr (by simp)⟩
  · have some : 0 < b.pageReadBytes := Nat.pos_of_ne_zero none
    simp only [none, if_false, some, true_imp_iff]
    cases b.complete with
    | true =>
      simp only [if_true, true_imp_iff]
      exact ⟨_, read.seq install⟩
    | false => exact ⟨_, (read.seq (Clean.pure false).restores).congr (by simp)⟩

theorem fileBack_restores (b : FileBack) (held : Finset LockId) :
    ∃ result, Restores (Lost held) held (fileBack b) (b.Ok held) result := by
  obtain ⟨result, rest⟩ := readBack_restores b held
  exact ⟨result, (evictions_restore b.evictions held).seq rest⟩

end Back

section Map

variable {held : Finset LockId}

theorem checkMatch_clean : Clean checkMatch [frameLock] () := Clean.touch frameLock

theorem mmapLoop_clean (installs : Nat → Bool) (pages : List Nat) :
    Clean (mmapLoop installs pages) (if pages = [] then [] else [frameLock])
      (pages.all installs) := by
  induction pages with
  | nil => exact .pure true
  | cons page rest ih =>
    rw [List.all_cons]
    cases here : installs page with
    | true =>
      have step : mmapLoop installs (page :: rest) =
          (do checkMatch; mmapLoop installs rest) := by
        simp [mmapLoop, here]
      rw [step]
      refine (Clean.seq checkMatch_clean ih).congr fun l => ?_
      split <;> simp
    | false =>
      have step : mmapLoop installs (page :: rest) = (do checkMatch; return false) := by
        simp [mmapLoop, here]
      rw [step]
      exact (Clean.seq checkMatch_clean (.pure false)).congr fun l => by simp

/-- A lock other than `file_lock` is given back. -/
theorem release_keeps {l : LockId} (other : l ≠ fileLock) :
    Keeps (release l) (fileLock ∈ ·) :=
  .release fun _ here => Finset.mem_erase_of_ne_of_mem (Ne.symm other) here

theorem acquire_keeps (l : LockId) : Keeps (acquire l) (fileLock ∈ ·) :=
  .acquire fun _ here => Finset.mem_insert_of_mem here

theorem sptFree_keeps (u : Unmap) : Keeps (sptFree u) (fileLock ∈ ·) := by
  unfold sptFree
  refine .ite (.bind (.holds frameLock) fun here => ?_) (.pure ())
  have release := release_keeps (l := frameLock) (by decide)
  exact .ite (.bind (acquire_keeps frameLock) fun _ => release) release

theorem frameFree_keeps (u : Unmap) : Keeps (frameFree u) (fileLock ∈ ·) := by
  have frame := release_keeps (l := frameLock) (by decide)
  have swap := release_keeps (l := swapLock) (by decide)
  unfold frameFree
  have rest := Keeps.ite (c := u.stillShared = false ∧ u.frame.type ≠ .file ∧ u.frame.load = false ∧
    u.frame.index ≠ Vm.noIndex) (.bind (acquire_keeps swapLock) fun _ => .bind swap fun _ => frame)
    frame
  have taken := (acquire_keeps frameLock).bind fun _ => rest
  exact .bind (.holds frameLock) fun here => .ite taken rest

theorem unmapPage_keeps (u : Unmap) : Keeps (unmapPage u) (fileLock ∈ ·) := by
  have close : Keeps (match u.closes with
      | none => pure ()
      | some (denyWrite, c) => fileClose denyWrite c) (fileLock ∈ ·) := by
    split
    next => exact .pure ()
    next denyWrite c _ =>
      have inode := (inodeClose_clean c).keeps (P := (fileLock ∈ ·))
      exact .ite (.bind (withIo_clean c.inode).keeps fun _ => inode) inode
  have rest := (sptFree_keeps u).bind fun _ => (frameFree_keeps u).bind fun _ => close
  exact .ite (.bind (inodeWriteAt_clean u.frame.file u.write).keeps fun _ => rest) rest

/-- A program that keeps `file_lock` does not give back the locks of before. -/
theorem not_back {p : Uses Int} (keeps : Keeps p (fileLock ∈ ·)) (free : fileLock ∉ held) :
    ¬wp p (fun _ after => after = held) (insert fileLock held) :=
  keeps.not_wp (Finset.mem_insert_self fileLock held)
    fun _ after here (same : after = held) => free (same ▸ here)

theorem mmapEnd_balances_iff (f : MappedFile) (installed : Bool) (free : fileLock ∉ held) :
    wp (mmapEnd f installed) (fun _ after => after = held) (insert fileLock held) ↔
      installed = true := by
  cases installed with
  | true =>
    simp only [mmapEnd, if_true, wp_bind, wp_release, wp_pure, Finset.mem_insert_self, true_and,
      Finset.erase_insert free]
  | false =>
    have keeps : Keeps (mmapEnd f false) (fileLock ∈ ·) :=
      .bind (.each unmapPage_keeps f.unmaps) fun _ => .pure (-1)
    exact ⟨fun h => absurd h (not_back keeps free), fun h => by cases h⟩

theorem mmapReopen_balances_iff (f : MappedFile) (free : fileLock ∉ held) (some : 0 < f.length) :
    wp (mmapReopen f) (fun _ after => after = held) (insert fileLock held) ↔
      inodeIo f.inode ∉ held ∧ f.reopens = true ∧ frameLock ∉ held ∧
        ∀ page < Userprog.UserProcess.pages f.length.toNat, f.installs page = true := by
  have io : (∀ l ∈ [inodeIo f.inode], l ∉ insert fileLock held) ↔ inodeIo f.inode ∉ held := by
    simp
  rw [mmapReopen, wp_bind, inodeReopen, withIo_clean f.inode, io]
  refine and_congr_right fun _ => ?_
  cases f.reopens with
  | true =>
    have pages : List.range (Userprog.UserProcess.pages f.length.toNat) ≠ [] := by
      rw [Ne, List.range_eq_nil, Userprog.UserProcess.pages, Vm.pgsize]
      omega
    have frame : (∀ l ∈ [frameLock], l ∉ insert fileLock held) ↔ frameLock ∉ held := by simp
    simp only [if_true, wp_bind, true_and]
    rw [mmapLoop_clean, if_neg pages, frame, mmapEnd_balances_iff f _ free, List.all_eq_true]
    simp only [List.mem_range]
  | false =>
    have keeps : Keeps (do inodeClose f.closes; return (-1 : Int)) (fileLock ∈ ·) :=
      .bind (inodeClose_clean f.closes).keeps fun _ => .pure (-1)
    exact ⟨fun h => absurd h (not_back keeps free), fun h => by cases h.1⟩

theorem mmap_balances_iff (address : Bool) (file : Option MappedFile) (held : Finset LockId) :
    Balances (mmap address file) held ↔ MmapOk address file held := by
  unfold mmap MmapOk
  cases address with
  | false => simp [Balances]
  | true =>
    unfold mmapFile
    simp only [Balances, if_true, wp_bind, wp_acquire, Bool.true_eq_false, false_or]
    refine and_congr_right fun free => ?_
    cases file with
    | none => simp [free]
    | some f =>
      simp only [Option.some.injEq, exists_eq_left', wp_bind]
      rw [inodeLength, withIo_clean f.inode]
      by_cases some : 0 < f.length
      · simp only [not_le.mpr some, if_false]
        rw [mmapReopen_balances_iff f free some]
        simp only [List.forall_mem_singleton, Finset.mem_insert, reduceCtorEq, false_or, some,
          true_and]
        tauto
      · simp only [not_lt.mp some, if_true]
        have fails := not_back (.pure (-1)) free
        exact ⟨fun h => absurd h.2 fails, fun h => absurd h.2.2.1 some⟩

end Map

section Processes

open Userprog UserProcess

variable {st st' : UserProcess} {install : Nat → Install}

/-- What `mmap` by a process meets, without what only its failures look at. -/
def mappedFile (st : UserProcess) (install : Nat → Install) (fd : Int) (upage length : Nat)
    (reopens : Bool) : Option MappedFile :=
  (st.findFile fd).map fun found =>
    { inode := found.inode
      length := length
      reopens := reopens
      closes := ⟨found.inode, none⟩
      installs := fun page =>
        let upage := upage + page * Vm.pgsize
        !((install upage).matched && (st.present upage || !(install upage).setPage))
      mapid := st.nextMapid
      unmaps := [] }

theorem installs_iff {upage count : Nat} :
    (∀ page < count, (!((install (upage + page * Vm.pgsize)).matched &&
      (st.present (upage + page * Vm.pgsize) ||
        !(install (upage + page * Vm.pgsize)).setPage))) = true) ↔
      ¬InstallFails install st upage count := by
  rw [InstallFails, not_exists]
  refine forall_congr' fun page => ?_
  rw [not_and]
  refine forall_congr' fun _ => ?_
  cases (install (upage + page * Vm.pgsize)).matched <;>
    cases st.present (upage + page * Vm.pgsize) <;>
    simp

/-- The model of the process and that of the locks agree on the calls of `mmap` that keep
`file_lock`. -/
theorem mmap_locked_iff {stale : Stale} {fd : Int} {upage length : Nat} {reopens : Bool}
    {result : Int} (run : st.mmap install stale fd upage length reopens = some (st', result))
    (unlocked : st.locked = false) :
    st'.locked = false ↔
      Balances (mmap (st.checkMmapAddr upage) (mappedFile st install fd upage length reopens))
        ∅ := by
  rw [mmap_balances_iff, MmapOk, mappedFile]
  rw [UserProcess.mmap] at run
  split at run
  next bad =>
    obtain ⟨rfl, -⟩ := Prod.mk.inj (Option.some.inj run)
    exact iff_of_true unlocked (.inl (by simpa using bad))
  next checked =>
    have good : st.checkMmapAddr upage = true := by simpa using checked
    rw [if_neg (by simp [unlocked])] at run
    cases isFile : st.findFile fd with
    | none =>
      rw [isFile] at run
      obtain ⟨rfl, -⟩ := Prod.mk.inj (Option.some.inj run)
      simp [good]
    | some found =>
      rw [isFile] at run
      dsimp only at run
      split at run
      next refused =>
        obtain ⟨rfl, -⟩ := Prod.mk.inj (Option.some.inj run)
        have fails : ¬(0 < length ∧ reopens = true) := by
          rintro ⟨long, reopened⟩
          rcases refused with empty | failed
          · omega
          · simp [reopened] at failed
        simpa [good] using fun long reopened => absurd ⟨long, reopened⟩ fails
      next goes =>
        obtain ⟨long, reopened⟩ := not_or.mp goes
        have reopened : reopens = true := by simpa using reopened
        have some : 0 < length := Nat.pos_of_ne_zero long
        split at run
        next => cases run
        next mid loop =>
          obtain ⟨rfl, -⟩ := Prod.mk.inj (Option.some.inj run)
          have fails : InstallFails install st upage (pages length) :=
            (mmapLoop_fails loop).1.mp rfl
          refine iff_of_false (by simp) fun balanced => ?_
          rcases balanced with bad | ⟨-, -, f, here, -, -, -, installs⟩
          · cases good.symm.trans bad
          · obtain rfl := Option.some.inj here
            exact installs_iff.mp installs fails
        next mid loop =>
          obtain ⟨rfl, -⟩ := Prod.mk.inj (Option.some.inj run)
          obtain ⟨fails, locked⟩ := mmapLoop_fails loop
          have installs : ¬InstallFails install st upage (pages length) :=
            fun failed => absurd (fails.mpr failed) (by decide)
          refine iff_of_true (locked.trans unlocked) (.inr ⟨by simp, by simp, _, rfl, by simp, ?_,
            reopened, installs_iff.mpr installs⟩)
          exact Int.natCast_pos.mpr some

end Processes

section Loads

variable {held : Finset LockId} {Q : Bool → Finset LockId → Prop}

theorem validateSegment_clean (inode : Nat) (congruent valid : Bool) :
    Clean (validateSegment inode congruent valid) (if congruent then [inodeIo inode] else [])
      (congruent && valid) := by
  cases congruent with
  | true => exact (Clean.seq (withIo_clean inode) (.pure valid)).congr fun l => by simp
  | false => exact .pure false

theorem loadSegment_clean (pages : Nat) :
    Clean (loadSegment pages) ((List.range pages).flatMap fun _ => [frameLock]) () :=
  Clean.each (fun _ => checkMatch_clean) (List.range pages)

theorem loadKind_clean (inode : Nat) (kind : PhdrKind) :
    Clean (loadKind inode kind) (kind.takes inode) kind.good := by
  cases kind with
  | ignored => exact .pure true
  | refused => exact .pure false
  | load congruent valid pages =>
    have validate := validateSegment_clean inode congruent valid
    have segment := Clean.seq (loadSegment_clean pages) (.pure true)
    unfold loadKind PhdrKind.takes PhdrKind.good
    cases congruent with
    | false => exact .bind validate (.pure false)
    | true =>
      cases valid with
      | false => exact .bind validate (.pure false)
      | true => exact (Clean.bind validate segment).congr fun l => by simp

theorem loadPhdrs_clean (inode : Nat) (phdrs : List PhdrRead) :
    Clean (loadPhdrs inode phdrs) (phdrsLocks inode phdrs).1 (phdrsLocks inode phdrs).2 := by
  induction phdrs with
  | nil => exact .pure true
  | cons p rest ih =>
    have length := withIo_clean inode
    have read := inodeReadAt_clean inode p.read
    have kind := loadKind_clean inode p.kind
    unfold loadPhdrs phdrsLocks
    cases p.negative with
    | true => exact .pure false
    | false =>
      simp only [Bool.false_eq_true, if_false]
      cases p.beyond with
      | true => exact (Clean.seq length (.pure false)).congr fun l => by simp
      | false =>
        simp only [Bool.false_eq_true, if_false]
        cases p.complete with
        | false =>
          exact (Clean.seq length (.seq read (.pure false))).congr fun l => by simp
        | true =>
          simp only [Bool.not_true, Bool.false_eq_true, if_false]
          cases good : p.kind.good with
          | false =>
            rw [good] at kind
            have ends : Clean (do if ← loadKind inode p.kind then loadPhdrs inode rest else
                return false) (p.kind.takes inode ++ []) false := .bind kind (.pure false)
            exact (Clean.seq length (.seq read ends)).congr fun l => by simp
          | true =>
            rw [good] at kind
            have goes : Clean (do if ← loadKind inode p.kind then loadPhdrs inode rest else
                return false) _ _ := .bind kind ih
            exact (Clean.seq length (.seq read goes)).congr fun l => by simp

theorem setupStack_restores (s : StackSetup) (held : Finset LockId) :
    Restores (Lost held) held (setupStack s) (s.Ok held) (s.installs && s.fits) := by
  have evictions := evictions_restore s.evictions held
  have insert : Clean frameTableInsert [frameLock] () := Clean.touch frameLock
  have destroy : Clean frameDestroy [frameLock] () := Clean.touch frameLock
  have fault (evictions : List Eviction) : Restores (Lost held) held
      (do let _ ← pageBack evictions) (PageBackOk evictions held) () :=
    ((pageBack_restores evictions held).bind (Clean.pure ()).restores
      fun _ => .pure ()).congr (by simp)
  have faults := Restores.each fault s.faults
  unfold setupStack StackSetup.Ok
  cases s.installs with
  | true =>
    refine (evictions.seq (insert.restores.seq (faults.seq (Clean.pure s.fits).restores))).congr ?_
    simp
  | false =>
    refine (evictions.seq (insert.restores.seq (destroy.restores.seq
      (Clean.pure false).restores))).congr ?_
    simp

theorem loadFile_restores (x : Loading) (inode : Nat) (held : Finset LockId) :
    ∃ result, Restores (Lost held) held (loadFile x inode) (x.FileOk inode held) result := by
  have deny : Restores (Lost held) held (inodeDenyWrite inode) _ () :=
    (withIo_clean inode).restores
  have header : Restores (Lost held) held (inodeReadAt inode x.header) _ () :=
    (inodeReadAt_clean inode x.header).restores
  have phdrs : Restores (Lost held) held (loadPhdrs inode x.phdrs) _ _ :=
    (loadPhdrs_clean inode x.phdrs).restores
  have stack := setupStack_restores x.stack held
  unfold loadFile Loading.FileOk
  cases x.valid with
  | false =>
    exact ⟨false, (deny.seq (header.seq (Clean.pure false).restores)).congr (by simp)⟩
  | true =>
    let rest (success : Bool) : Uses Bool :=
      if !success then return false else setupStack x.stack
    have others (success : Bool) : Keeps (rest success) (Lost held) :=
      .ite (.pure false) stack.keeps
    have ends : ∃ result, Restores (Lost held) held (rest (phdrsLocks inode x.phdrs).2)
        ((phdrsLocks inode x.phdrs).2 = true → x.stack.Ok held) result := by
      cases (phdrsLocks inode x.phdrs).2 with
      | true => exact ⟨_, stack.congr (by simp)⟩
      | false => exact ⟨false, (Clean.pure false).restores.congr (by simp)⟩
    obtain ⟨result, ends⟩ := ends
    exact ⟨result, (deny.seq (header.seq (phdrs.bind ends others))).congr (by simp)⟩

theorem load_balances_iff (x : Loading) (held : Finset LockId) :
    Balances (load x) held ↔ x.Ok held := by
  rw [Balances, load, wp_bind]
  unfold loadBody Loading.Ok
  cases x.pagedir with
  | false =>
    simp only [Bool.not_false, if_true, wp_pure, wp_bind, wp_release, Bool.false_eq_true, false_and,
      iff_false]
    rintro ⟨here, same⟩
    rw [← same] at here
    simp at here
  | true =>
    simp only [Bool.not_true, Bool.false_eq_true, if_false, wp_bind, wp_acquire, true_and]
    refine and_congr_right fun free => ?_
    have back := Finset.erase_insert free
    have opens := filesysOpen_settles x.opening
    cases settled : x.opening.settled with
    | none =>
      rw [settled] at opens
      simpa using opens _ _ (Finset.mem_insert_self fileLock held)
    | some result =>
      obtain ⟨takes, file⟩ := result
      rw [settled] at opens
      rw [opens]
      simp only [Option.some.injEq, Prod.mk.injEq]
      cases file with
      | none => simp [back]
      | some inode =>
        obtain ⟨_, goes⟩ := loadFile_restores x inode (insert fileLock held)
        dsimp only
        rw [goes.wp_iff]
        · simp [back]
        · intro b after lost before
          obtain ⟨here, same⟩ := wp_release.mp before
          rcases lost with ⟨-, gone⟩ | ⟨gone, frame⟩
          · exact gone here
          · apply gone
            rw [← same]
            exact Finset.mem_insert_of_mem (Finset.mem_erase_of_ne_of_mem (by decide) frame)

end Loads

section Balance

/-- From which locks, and on which paths, the functions give back the locks that they were called
with. -/
theorem locks_balanced_iff (held : Finset LockId) :
    (∀ x, Balances (load x) held ↔ x.Ok held) ∧
    (∀ address file, Balances (mmap address file) held ↔ MmapOk address file held) ∧
    (∀ e, Balances (evict e) held ↔ e.Ok held) ∧
    (∀ evictions, Balances (pageBack evictions) held ↔ PageBackOk evictions held) ∧
    (∀ b, Balances (fileBack b) held ↔ b.Ok held) := by
  have good := not_lost held
  refine ⟨fun x => load_balances_iff x held,
    fun address file => mmap_balances_iff address file held,
    fun e => (evict_restores e held).balances_iff good,
    fun evictions => (pageBack_restores evictions held).balances_iff good, fun b => ?_⟩
  obtain ⟨_, back⟩ := fileBack_restores b held
  exact back.balances_iff good

def emptyFile : MappedFile where
  inode := 5
  length := 0
  reopens := true
  closes := ⟨5, none⟩
  installs := fun _ => true
  mapid := 0
  unmaps := []

/-- A page of a file whose block is in the cache, with memory free. -/
def filePage : FileBack where
  evictions := []
  pageReadBytes := 512
  inode := 5
  read := ⟨false, [⟨[], ⟨9, true, [], false⟩⟩]⟩
  complete := true
  shared := false
  installs := true

/-- `mmap` of an empty file keeps `file_lock`, and `file_back` gives up the one of its caller. -/
theorem locks_not_balanced :
    mmap true (some emptyFile) ∅ = some (-1, {fileLock}) ∧
      fileBack filePage {fileLock} = some (true, ∅) ∧
      ¬Balances (mmap true (some emptyFile)) ∅ ∧ ¬Balances (fileBack filePage) {fileLock} := by
  have map : mmap true (some emptyFile) ∅ = some (-1, {fileLock}) := by decide
  have back : fileBack filePage {fileLock} = some (true, ∅) := by decide
  refine ⟨map, back, ?_, ?_⟩
  · rw [Balances, wp, map]
    exact Finset.singleton_ne_empty fileLock
  · rw [Balances, wp, back]
    exact (Finset.singleton_ne_empty fileLock).symm

end Balance

end Pintos.LockUse
