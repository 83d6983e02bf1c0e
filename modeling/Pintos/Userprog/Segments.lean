import Pintos.Userprog.AddressSpace
import Pintos.Vm.Slots

/-! The `PT_LOAD` case of `load` and `load_segment` in 32 bits, over the frames of `swap.c`: which
pages of the file are recorded, and what `file_back` brings in for them later. -/

namespace Pintos.Userprog

open Transition Vm Words UserProcess

section Arithmetic

/-- `a + b` in 32 bits, without a result where that wraps. -/
def add (a b : Nat) : Option Nat := if a + b < 2 ^ 32 then some (a + b) else none

def sub (a b : Nat) : Option Nat := if b ≤ a then some (a - b) else none

def mul (a b : Nat) : Option Nat := if a * b < 2 ^ 32 then some (a * b) else none

/-- A number as an `off_t`, of which the negative ones do not come up. -/
def toOff (a : Nat) : Option Nat := if a < 2 ^ 31 then some a else none

/-- `ROUND_UP (x, PGSIZE)`. -/
def roundUpPage (x : Nat) : Option Nat := do
  let x ← sub (← add x pgsize) 1
  mul (x / pgsize) pgsize

/-- `x & ~PGMASK`. -/
def pgRoundDown (x : Nat) : Nat := x / pgsize * pgsize

/-- `x & PGMASK`. -/
def pgOfs (x : Nat) : Nat := x % pgsize

end Arithmetic

/-- The arguments of `load_segment`, and its variables. -/
structure Segment where
  ofs : Nat
  upage : Nat
  readBytes : Nat
  zeroBytes : Nat

/-- The `PT_LOAD` case of `load`, up to `load_segment`. -/
def ptLoad (phdr : Phdr) : Option Segment := do
  let filePage := pgRoundDown phdr.offset.toNat
  let memPage := pgRoundDown phdr.vaddr.toNat
  let pageOffset := pgOfs phdr.vaddr.toNat
  let ofs ← toOff filePage
  if 0 < phdr.filesz then
    let readBytes ← add pageOffset phdr.filesz.toNat
    let zeroBytes ← sub (← roundUpPage (← add pageOffset phdr.memsz.toNat)) readBytes
    some ⟨ofs, memPage, readBytes, zeroBytes⟩
  else
    let zeroBytes ← roundUpPage (← add pageOffset phdr.memsz.toNat)
    some ⟨ofs, memPage, 0, zeroBytes⟩

/-- `install_frame` of a page of a file, with its assertions. -/
def installFrame (st : State) (thread file : Nat) (writable : Bool)
    (upage ofs pageReadBytes : Nat) : Option State :=
  if upage % pgsize = 0 ∧ upage < physBase then
    some (st.installFile
      ⟨thread, upage, 0, false, .file, file, ofs, pageReadBytes, writable, noIndex⟩)
  else none

/-- `fuel` rounds of the loop of `load_segment` at most. -/
def segmentLoop (thread file : Nat) (writable : Bool) : Nat → Segment → State → Option State
  | 0, _, _ => none
  | fuel + 1, seg, st =>
    if 0 < seg.readBytes ∨ 0 < seg.zeroBytes then do
      let pageReadBytes := if seg.readBytes < pgsize then seg.readBytes else pgsize
      let pageZeroBytes ← sub pgsize pageReadBytes
      let st ← installFrame st thread file writable seg.upage seg.ofs pageReadBytes
      let readBytes ← sub seg.readBytes pageReadBytes
      let zeroBytes ← sub seg.zeroBytes pageZeroBytes
      let ofs ← toOff (← add seg.ofs pageReadBytes)
      let upage ← add seg.upage pgsize
      segmentLoop thread file writable fuel ⟨ofs, upage, readBytes, zeroBytes⟩ st
    else some st

def loadSegment (thread file : Nat) (writable : Bool) (fuel : Nat) (seg : Segment) (st : State) :
    Option State := do
  let total ← add seg.readBytes seg.zeroBytes
  if total % pgsize = 0 ∧ pgOfs seg.upage = 0 ∧ seg.ofs % pgsize = 0 then
    segmentLoop thread file writable fuel seg st
  else none

section Eager

/-- The bytes of the region that come from the file. -/
def fileBytes (phdr : Phdr) : Nat :=
  if 0 < phdr.filesz then pgOfs phdr.vaddr.toNat + phdr.filesz.toNat else 0

/-- Byte `i` of the region, loaded at once from a file with the bytes `file`. -/
def eagerByte (phdr : Phdr) (file : Bytes) (i : Nat) : UInt8 :=
  if i < fileBytes phdr then file (pgRoundDown phdr.offset.toNat + i) else 0

def pageCount (phdr : Phdr) : Nat :=
  roundUp (pgOfs phdr.vaddr.toNat + phdr.memsz.toNat) / pgsize

end Eager

section Headers

variable {phdr : Phdr} {fileLength : Nat}

theorem add_of_lt {a b : Nat} (lt : a + b < 2 ^ 32) : add a b = some (a + b) := if_pos lt

theorem sub_of_le {a b : Nat} (le : b ≤ a) : sub a b = some (a - b) := if_pos le

theorem toOff_of_lt {a : Nat} (lt : a < 2 ^ 31) : toOff a = some a := if_pos lt

theorem roundUpPage_eq {x : Nat} (small : x + pgsize < 2 ^ 32) :
    roundUpPage x = some (roundUp x) := by
  have page : pgsize = 4096 := rfl
  have prev : x + pgsize - 1 = x + (pgsize - 1) := by omega
  have down := Nat.div_mul_le_self (x + (pgsize - 1)) pgsize
  have fits : (x + (pgsize - 1)) / pgsize * pgsize < 2 ^ 32 := by omega
  have next : sub (x + pgsize) 1 = some (x + (pgsize - 1)) :=
    (sub_of_le (by omega)).trans (congrArg some prev)
  rw [roundUpPage, add_of_lt small]
  simp only [Option.bind_eq_bind, Option.bind_some]
  rw [next, Option.bind_some, mul, if_pos fits, roundUp]

/-- What `validate_segment` checks, without wrap-around. -/
structure Accepted (phdr : Phdr) (fileLength : Nat) : Prop where
  congruent : pgOfs phdr.offset.toNat = pgOfs phdr.vaddr.toNat
  start : phdr.offset.toNat ≤ fileLength
  sizes : phdr.filesz.toNat ≤ phdr.memsz.toNat
  below : phdr.vaddr.toNat + phdr.memsz.toNat < physBase

theorem validateSegment_accepted (valid : validateSegment phdr fileLength = true) :
    Accepted phdr fileLength := by
  have high : physBase = 0xc0000000 := rfl
  simp only [validateSegment, decide_eq_true_eq] at valid
  obtain ⟨congruent, start, sizes, -, -, below, wrap, -⟩ := valid
  have vaddr := phdr.vaddr.toNat_lt
  have memsz := phdr.memsz.toNat_lt
  have le : phdr.vaddr.toNat ≤ (phdr.vaddr + phdr.memsz).toNat := wrap
  rw [UInt32.toNat_add] at below le
  exact ⟨congruent, start, sizes, by omega⟩

theorem roundUp_eq (phdr : Phdr) :
    roundUp (pgOfs phdr.vaddr.toNat + phdr.memsz.toNat) = pageCount phdr * pgsize := by
  have size : pgsize = 4096 := rfl
  rw [pageCount, roundUp, Nat.mul_div_cancel _ (by omega)]

theorem le_roundUp (x : Nat) : x ≤ roundUp x := by
  have size : pgsize = 4096 := rfl
  rw [roundUp, size]
  omega

/-- Nothing wraps before `load_segment`. -/
theorem Accepted.segment (ok : Accepted phdr fileLength) (length : fileLength < 2 ^ 31) :
    ptLoad phdr = some ⟨pgRoundDown phdr.offset.toNat, pgRoundDown phdr.vaddr.toNat,
      fileBytes phdr, pageCount phdr * pgsize - fileBytes phdr⟩ := by
  have size : pgsize = 4096 := rfl
  have high : physBase = 0xc0000000 := rfl
  obtain ⟨-, start, sizes, below⟩ := ok
  have down := Nat.div_mul_le_self phdr.offset.toNat pgsize
  have ofs : pgOfs phdr.vaddr.toNat ≤ phdr.vaddr.toNat ∧ pgOfs phdr.vaddr.toNat < pgsize :=
    ⟨Nat.mod_le _ _, Nat.mod_lt _ (by omega)⟩
  have up := le_roundUp (pgOfs phdr.vaddr.toNat + phdr.memsz.toNat)
  have file : toOff (pgRoundDown phdr.offset.toNat) = some (pgRoundDown phdr.offset.toNat) :=
    toOff_of_lt (Nat.lt_of_le_of_lt down (by omega))
  have mem : roundUpPage (pgOfs phdr.vaddr.toNat + phdr.memsz.toNat) =
      some (pageCount phdr * pgsize) := by rw [roundUpPage_eq (by omega), roundUp_eq]
  have total : add (pgOfs phdr.vaddr.toNat) phdr.memsz.toNat =
      some (pgOfs phdr.vaddr.toNat + phdr.memsz.toNat) := add_of_lt (by omega)
  rw [roundUp_eq] at up
  rw [ptLoad, file, total, fileBytes]
  simp only [Option.bind_eq_bind, Option.bind_some, mem]
  split
  · rw [add_of_lt (by omega), Option.bind_some, sub_of_le (by omega), Option.bind_some]
  · rfl

/-- These are the numbers of the model of `load` that leaves the frames out. -/
theorem Accepted.loadPhdr (ok : Accepted phdr fileLength) (length : fileLength < 2 ^ 31)
    (install : Nat → Install) (st : UserProcess) {seg : Segment} (run : ptLoad phdr = some seg) :
    st.loadPhdr install phdr = st.loadSegment install seg.upage seg.readBytes seg.zeroBytes := by
  have page : phdr.vaddr.toNat - phdr.vaddr.toNat % pgsize = pgRoundDown phdr.vaddr.toNat := by
    have parts := Nat.div_add_mod phdr.vaddr.toNat pgsize
    rw [pgRoundDown, Nat.mul_comm]
    omega
  rw [ok.segment length] at run
  obtain rfl := Option.some.inj run
  rw [UserProcess.loadPhdr, page, ← roundUp_eq]
  rfl

end Headers

/-- What a frame records about its page. -/
structure PageRecord where
  thread : Nat
  upage : Nat
  file : Nat
  ofs : Nat
  pageReadBytes : Nat

def frameRecord (fr : Frame) : PageRecord :=
  ⟨fr.thread, fr.upage, fr.file, fr.ofs, fr.pageReadBytes⟩

section Loop

/-- The record of page `k` of a segment. -/
def Segment.record (seg : Segment) (thread file k : Nat) : PageRecord :=
  ⟨thread, seg.upage + k * pgsize, file, seg.ofs + min (k * pgsize) seg.readBytes,
    min (seg.readBytes - k * pgsize) pgsize⟩

/-- `n` frames are added, with the records of the pages of `seg`. -/
structure Records (st st' : State) (thread file n : Nat) (seg : Segment) : Prop where
  next : st'.next = st.next + n
  older : ∀ f < st.next, st'.frames f = st.frames f
  pages : ∀ k < n, ∃ fr, st'.frames (st.next + k) = some fr ∧ fr.type = .file ∧
    frameRecord fr = seg.record thread file k

variable {thread file : Nat} {writable : Bool} {seg : Segment} {st : State}

/-- The rest of a segment after its first page. -/
def Segment.rest (seg : Segment) : Segment :=
  ⟨seg.ofs + min seg.readBytes pgsize, seg.upage + pgsize, seg.readBytes - min seg.readBytes pgsize,
    seg.zeroBytes - (pgsize - min seg.readBytes pgsize)⟩

theorem Segment.rest_record (seg : Segment) (k : Nat) :
    seg.rest.record thread file k = seg.record thread file (k + 1) := by
  have size : pgsize = 4096 := rfl
  rw [Segment.record, Segment.record, Segment.rest]
  dsimp only
  rw [Nat.succ_mul, PageRecord.mk.injEq]
  refine ⟨rfl, ?_, rfl, ?_, ?_⟩
  · omega
  · omega
  · omega

/-- A round of the loop. -/
theorem segmentLoop_succ {n : Nat} (fuel : Nat)
    (total : seg.readBytes + seg.zeroBytes = (n + 1) * pgsize) (aligned : seg.upage % pgsize = 0)
    (below : seg.upage + (n + 1) * pgsize ≤ physBase) (ofs : seg.ofs + seg.readBytes < 2 ^ 31) :
    segmentLoop thread file writable (fuel + 1) seg st =
      segmentLoop thread file writable fuel seg.rest
        (st.installFile ⟨thread, seg.upage, 0, false, .file, file, seg.ofs,
          min seg.readBytes pgsize, writable, noIndex⟩) := by
  have size : pgsize = 4096 := rfl
  have high : physBase = 0xc0000000 := rfl
  have least : (if seg.readBytes < pgsize then seg.readBytes else pgsize) =
      min seg.readBytes pgsize := by
    split <;> omega
  rw [Nat.succ_mul] at total below
  have installed : installFrame st thread file writable seg.upage seg.ofs
      (min seg.readBytes pgsize) = some (st.installFile ⟨thread, seg.upage, 0, false, .file, file,
        seg.ofs, min seg.readBytes pgsize, writable, noIndex⟩) := if_pos ⟨aligned, by omega⟩
  rw [segmentLoop, if_pos (by omega)]
  dsimp only
  rw [least, sub_of_le (a := pgsize) (by omega), sub_of_le (a := seg.readBytes) (by omega),
    installed, add_of_lt (a := seg.ofs) (by omega), add_of_lt (a := seg.upage) (by omega)]
  simp only [Option.bind_eq_bind, Option.bind_some]
  rw [sub_of_le (by omega), toOff_of_lt (by omega), Option.bind_some, Option.bind_some,
    Segment.rest]

variable (thread file writable st) in
/-- The loop comes to its end, and does so after `n` rounds. -/
theorem segmentLoop_records {n : Nat} (total : seg.readBytes + seg.zeroBytes = n * pgsize)
    (aligned : seg.upage % pgsize = 0) (below : seg.upage + n * pgsize ≤ physBase)
    (ofs : seg.ofs + seg.readBytes < 2 ^ 31) :
    ∃ st', (∀ fuel, n < fuel → segmentLoop thread file writable fuel seg st = some st') ∧
      Records st st' thread file n seg := by
  have size : pgsize = 4096 := rfl
  induction n generalizing seg st with
  | zero =>
    refine ⟨st, fun fuel more => ?_, rfl, fun _ _ => rfl, nofun⟩
    obtain ⟨fuel, rfl⟩ := Nat.exists_eq_succ_of_ne_zero (Nat.ne_of_gt more)
    rw [segmentLoop, if_neg (by omega)]
  | succ n ih =>
    let first := st.installFile ⟨thread, seg.upage, 0, false, .file, file, seg.ofs,
      min seg.readBytes pgsize, writable, noIndex⟩
    have total' : seg.rest.readBytes + seg.rest.zeroBytes = n * pgsize := by
      rw [Segment.rest]
      dsimp only
      rw [Nat.succ_mul] at total
      omega
    have aligned' : seg.rest.upage % pgsize = 0 := (Nat.add_mod_right _ _).trans aligned
    have below' : seg.rest.upage + n * pgsize ≤ physBase := by
      rw [Segment.rest]
      dsimp only
      rw [Nat.succ_mul] at below
      omega
    have ofs' : seg.rest.ofs + seg.rest.readBytes < 2 ^ 31 := by
      rw [Segment.rest]
      dsimp only
      omega
    obtain ⟨st', run, records⟩ := ih first total' aligned' below' ofs'
    have next : first.next = st.next + 1 := rfl
    refine ⟨st', fun fuel more => ?_, ?_, fun f old => ?_, fun k lt => ?_⟩
    · obtain ⟨fuel, rfl⟩ := Nat.exists_eq_succ_of_ne_zero (Nat.ne_of_gt (Nat.zero_lt_of_lt more))
      rw [segmentLoop_succ fuel total aligned below ofs]
      exact run fuel (by omega)
    · rw [records.next, next]
      omega
    · rw [records.older f (by omega)]
      exact Function.update_of_ne (Nat.ne_of_lt old) ..
    · cases k with
      | zero =>
        refine ⟨_, (records.older st.next (by omega)).trans (Function.update_self ..), rfl, ?_⟩
        rw [Segment.record, Nat.zero_mul, Nat.zero_min, Nat.sub_zero]
        rfl
      | succ k =>
        obtain ⟨fr, frame, type, eq⟩ := records.pages k (Nat.lt_of_succ_lt_succ lt)
        refine ⟨fr, ?_, type, eq.trans (seg.rest_record k)⟩
        rw [← frame, next, Nat.add_assoc, Nat.add_comm 1 k]

end Loop

section Later

variable {st mid st' : State} {f thread kpage : Nat}

/-- The frames that were there are gone or have the same record. -/
structure Keeps (st st' : State) : Prop where
  next : st.next ≤ st'.next
  frames : ∀ f < st.next,
    st'.frames f = none ∨ (st'.frames f).map frameRecord = (st.frames f).map frameRecord

theorem Keeps.refl (st : State) : Keeps st st := ⟨Nat.le_refl _, fun _ _ => .inr rfl⟩

theorem Keeps.trans (first : Keeps st mid) (rest : Keeps mid st') : Keeps st st' := by
  refine ⟨Nat.le_trans first.next rest.next, fun f old => ?_⟩
  rcases rest.frames f (Nat.lt_of_lt_of_le old first.next) with gone | same
  · exact .inl gone
  · rcases first.frames f old with gone | same'
    · rw [gone, Option.map_none, Option.map_eq_none_iff] at same
      exact .inl same
    · exact .inr (same.trans same')

theorem Keeps.of_frames (next : st.next ≤ st'.next) (frames : st'.frames = st.frames) :
    Keeps st st' :=
  ⟨next, fun f _ => .inr (by rw [frames])⟩

theorem Keeps.update {value : Option Frame} (next : st.next ≤ st'.next)
    (frames : st'.frames = Function.update st.frames f value)
    (same : f < st.next → value = none ∨ value.map frameRecord = (st.frames f).map frameRecord) :
    Keeps st st' := by
  refine ⟨next, fun g old => ?_⟩
  rw [frames]
  by_cases here : g = f
  · subst here
    rw [Function.update_self]
    exact same old
  · rw [Function.update_of_ne here]
    exact .inr rfl

theorem Keeps.evict (h : st.evict thread = some st') : Keeps st st' := by
  obtain ⟨f, fr, fr', -, frame, e⟩ := State.evict_evicted h
  refine .update (Nat.le_of_eq e.next.symm) e.frames fun _ => .inr ?_
  obtain ⟨owner, upage, -, file, ofs, size⟩ := e.saved.frame
  rw [frame, Option.map_some, Option.map_some, frameRecord, owner, upage, file, ofs, size]
  rfl

theorem Keeps.takePage (h : st.takePage thread kpage = some st') : Keeps st st' := by
  obtain ⟨mid, room, h⟩ := Option.bind_eq_some_iff.mp h
  have made : Keeps st mid := by
    unfold State.makeRoom at room
    split at room
    · exact .evict room
    · cases room
      exact .refl st
  split at h
  · obtain rfl := Option.some.inj h
    exact made.trans (.of_frames (Nat.le_refl _) rfl)
  · cases h

/-- What `install_page` comes to. -/
theorem install_loads {fr : Frame} {c : Bytes} (h : st.install f fr kpage c = some st') :
    st'.next = st.next ∧
      st'.frames = Function.update st.frames f (some { fr with kpage := kpage, load := true }) ∧
      st'.mem kpage = c ∧ st'.files = st.files ∧
      (st'.pagedir fr.thread fr.upage).present = true ∧
      (st'.pagedir fr.thread fr.upage).kpage = kpage := by
  obtain ⟨frames, mem⟩ := install_frames h
  unfold State.install at h
  split at h
  · cases h
  · obtain rfl := Option.some.inj h
    have entry := State.setPte_self st fr.thread fr.upage ⟨true, kpage, fr.writable, false, false⟩
    refine ⟨rfl, frames, mem, rfl, ?_, ?_⟩
    · exact congrArg Pte.present entry
    · exact congrArg Pte.kpage entry

theorem fileBack_cases (h : st.fileBack f thread kpage = some st') :
    ∃ mid fr, Keeps st mid ∧ mid.frames f = some fr ∧
      ((0 < fr.pageReadBytes ∧ mid.fileLength fr.file < fr.ofs + fr.pageReadBytes ∧
        st' = { mid.setFrame f { fr with kpage := kpage } with
          freePages := kpage :: mid.freePages }) ∨
      mid.install f fr kpage (mid.backing fr) = some st') := by
  obtain ⟨mid, taken, h⟩ := Option.bind_eq_some_iff.mp h
  obtain ⟨fr, frame, h⟩ := Option.bind_eq_some_iff.mp h
  refine ⟨mid, fr, .takePage taken, frame, ?_⟩
  split at h
  next short => exact .inl ⟨short.1, short.2, (Option.some.inj h).symm⟩
  next => exact .inr h

theorem Keeps.install {fr : Frame} {c : Bytes} (frame : st.frames f = some fr)
    (h : st.install f fr kpage c = some st') : Keeps st st' := by
  obtain ⟨next, frames, -⟩ := install_loads h
  refine .update (Nat.le_of_eq next.symm) frames fun _ => .inr ?_
  rw [frame]
  rfl

theorem Keeps.fileBack (h : st.fileBack f thread kpage = some st') : Keeps st st' := by
  obtain ⟨mid, fr, taken, frame, ⟨-, -, rfl⟩ | loaded⟩ := fileBack_cases h
  · refine taken.trans (.update (Nat.le_refl _) rfl fun _ => .inr ?_)
    rw [frame]
    rfl
  · exact taken.trans (.install frame loaded)

/-- What `file_back` brings in, when the file is long enough. -/
theorem fileBack_loads {page : PageRecord} (h : st.fileBack f thread kpage = some st')
    (old : f < st.next) (record : ∀ fr, st.frames f = some fr → frameRecord fr = page)
    (long : 0 < page.pageReadBytes → page.ofs + page.pageReadBytes ≤ st'.fileLength page.file) :
    (st'.pagedir page.thread page.upage).present = true ∧
      (st'.pagedir page.thread page.upage).kpage = kpage ∧
      ∀ i, st'.mem kpage i =
        if i < page.pageReadBytes then st'.files page.file (page.ofs + i) else 0 := by
  obtain ⟨mid, fr, taken, frame, h⟩ := fileBack_cases h
  have same : frameRecord fr = page := by
    rcases taken.frames f old with gone | same
    · rw [frame] at gone
      cases gone
    · rw [frame, Option.map_some, eq_comm, Option.map_eq_some_iff] at same
      obtain ⟨before, frame', eq⟩ := same
      exact eq.symm.trans (record before frame')
  subst same
  rcases h with ⟨some, short, rfl⟩ | loaded
  · exact absurd (long some) (Nat.not_le.mpr short)
  · obtain ⟨-, -, mem, files, present, entry⟩ := install_loads loaded
    refine ⟨present, entry, fun i => ?_⟩
    rw [mem, files]
    rfl

theorem Keeps.loadBack (h : st.loadBack f kpage = some st') : Keeps st st' := by
  obtain ⟨fr, frame, h⟩ := Option.bind_eq_some_iff.mp h
  split at h
  · cases h
  · split at h
    · exact .fileBack h
    · exact .fileBack h
    · obtain ⟨mid, taken, h⟩ := Option.bind_eq_some_iff.mp h
      obtain ⟨fr', frame', h⟩ := Option.bind_eq_some_iff.mp h
      obtain ⟨flipped, flip, h⟩ := Option.bind_eq_some_iff.mp h
      obtain ⟨-, rfl⟩ := State.flipSlot_eq flip
      have kept : Keeps mid { mid with
          swapUsed := Function.update mid.swapUsed fr'.index (!mid.swapUsed fr'.index) } :=
        .of_frames (Nat.le_refl _) rfl
      exact (Keeps.takePage taken).trans (kept.trans (.install frame' h))

theorem Keeps.frameFree {fr : Frame} (h : st.frameFree f fr = some st') : Keeps st st' := by
  unfold State.frameFree at h
  dsimp only at h
  split at h
  · obtain rfl := Option.some.inj h
    exact .update (Nat.le_refl _) rfl fun _ => .inl rfl
  · split at h
    · obtain ⟨-, rfl⟩ := State.flipSlot_eq h
      exact .update (Nat.le_refl _) rfl fun _ => .inl rfl
    · obtain rfl := Option.some.inj h
      exact .update (Nat.le_refl _) rfl fun _ => .inl rfl

theorem Keeps.freePage (h : st.freePage f = some st') : Keeps st st' := by
  obtain ⟨fr, -, h⟩ := Option.bind_eq_some_iff.mp h
  refine Keeps.trans ?_ (.frameFree h)
  split
  · exact .of_frames (Nat.le_refl _) rfl
  · exact .refl st

theorem Keeps.step {op : Op} (h : step st op = some st') : Keeps st st' := by
  cases op with
  | installFile =>
    rw [Vm.step] at h
    split at h
    · obtain rfl := Option.some.inj h
      exact .update (Nat.le_succ _) rfl fun old => absurd old (Nat.lt_irrefl _)
    · cases h
  | installStack owner upage page =>
    obtain ⟨mid, taken, h⟩ := Option.bind_eq_some_iff.mp h
    obtain ⟨next, frames, -⟩ := install_loads h
    refine (Keeps.takePage taken).trans (.update ?_ frames fun old => absurd old (Nat.lt_irrefl _))
    rw [next]
    exact Nat.le_succ _
  | store f i v =>
    obtain ⟨fr, -, h⟩ := Option.bind_eq_some_iff.mp h
    dsimp only at h
    split at h
    · obtain rfl := Option.some.inj h
      exact .of_frames (Nat.le_refl _) rfl
    · cases h
  | touch f =>
    obtain ⟨fr, -, h⟩ := Option.bind_eq_some_iff.mp h
    dsimp only at h
    split at h
    · obtain rfl := Option.some.inj h
      exact .of_frames (Nat.le_refl _) rfl
    · cases h
  | evict owner => exact .evict h
  | loadBack f page => exact .loadBack h

theorem Keeps.run {op : SlotOp} (h : slotRun st op = some st') : Keeps st st' := by
  cases op with
  | page op => exact .step h
  | fault owner upage page =>
    obtain ⟨f, -, h⟩ := Option.bind_eq_some_iff.mp h
    exact .loadBack h
  | free f => exact .freePage h

theorem Keeps.runs {ops : List SlotOp} (h : exec slotRun st ops = some st') : Keeps st st' := by
  induction ops generalizing st with
  | nil =>
    cases h
    exact .refl _
  | cons op ops ih =>
    obtain ⟨mid, first, rest⟩ := exec_cons h
    exact (Keeps.run first).trans (ih rest)

end Later

section Claim

/-- The pages of a segment are recorded from `st` to `st'`, and `file_back` brings in later, while
the file is as it was, what loading them at once would have. -/
structure LoadsLazily (phdr : Phdr) (thread file : Nat) (st st' : State) : Prop where
  next : st'.next = st.next + pageCount phdr
  older : ∀ f < st.next, st'.frames f = st.frames f
  pages : ∀ k < pageCount phdr, ∃ fr, st'.frames (st.next + k) = some fr ∧ fr.type = .file ∧
    fr.thread = thread ∧ fr.upage = pgRoundDown phdr.vaddr.toNat + k * pgsize
  below : pgRoundDown phdr.vaddr.toNat + pageCount phdr * pgsize ≤ physBase
  eager : ∀ ops mid k kpage last, exec slotRun st' ops = some mid → k < pageCount phdr →
    mid.fileBack (st.next + k) thread kpage = some last →
    last.files file = st.files file → last.fileLength file = st.fileLength file →
    let pte := last.pagedir thread (pgRoundDown phdr.vaddr.toNat + k * pgsize)
    pte.present = true ∧ pte.kpage = kpage ∧
      ∀ i < pgsize, last.mem kpage i = eagerByte phdr (st.files file) (k * pgsize + i)

theorem pageCount_below {phdr : Phdr} {fileLength : Nat} (ok : Accepted phdr fileLength) :
    pgRoundDown phdr.vaddr.toNat + pageCount phdr * pgsize ≤ physBase := by
  have size : pgsize = 4096 := rfl
  have high : physBase = 0xc0000000 := rfl
  have below := ok.below
  rw [← roundUp_eq, roundUp, pgRoundDown, pgOfs, size]
  omega

/-- A segment that `validate_segment` accepts, from a file that has its bytes, is recorded without
wrap-around, and its pages come to hold what loading it at once gives. -/
theorem loadSegment_loadsLazily (phdr : Phdr) (st : State) (thread file : Nat) (writable : Bool)
    (valid : validateSegment phdr (st.fileLength file) = true)
    (inside : phdr.offset.toNat + phdr.filesz.toNat ≤ st.fileLength file)
    (length : st.fileLength file < 2 ^ 31) :
    ∃ seg st', ptLoad phdr = some seg ∧
      (∀ fuel, pageCount phdr < fuel →
        loadSegment thread file writable fuel seg st = some st') ∧
      LoadsLazily phdr thread file st st' := by
  have size : pgsize = 4096 := rfl
  have high : physBase = 0xc0000000 := rfl
  have ok := validateSegment_accepted valid
  have below := pageCount_below ok
  have offset := Nat.div_add_mod phdr.offset.toNat pgsize
  have congruent := ok.congruent
  have up := le_roundUp (pgOfs phdr.vaddr.toNat + phdr.memsz.toNat)
  rw [roundUp_eq] at up
  have bytes : fileBytes phdr ≤ pageCount phdr * pgsize ∧
      (0 < fileBytes phdr →
        pgRoundDown phdr.offset.toNat + fileBytes phdr ≤ st.fileLength file) := by
    have sizes := ok.sizes
    rw [pgOfs, pgOfs] at congruent
    rw [Nat.mul_comm] at offset
    rw [fileBytes, pgRoundDown, pgOfs]
    rw [pgOfs] at up
    split <;> omega
  obtain ⟨fits, long⟩ := bytes
  have down := Nat.div_mul_le_self phdr.offset.toNat pgsize
  have start := ok.start
  let seg : Segment := ⟨pgRoundDown phdr.offset.toNat, pgRoundDown phdr.vaddr.toNat,
    fileBytes phdr, pageCount phdr * pgsize - fileBytes phdr⟩
  have ofs : seg.ofs + seg.readBytes < 2 ^ 31 := by
    show pgRoundDown phdr.offset.toNat + fileBytes phdr < 2 ^ 31
    rw [pgRoundDown] at long ⊢
    omega
  have total : seg.readBytes + seg.zeroBytes = pageCount phdr * pgsize :=
    Nat.add_sub_cancel' fits
  obtain ⟨st', run, records⟩ :=
    segmentLoop_records thread file writable st total (Nat.mul_mod_left _ _) below ofs
  refine ⟨seg, st', ok.segment length, fun fuel more => ?_, records.next, records.older,
    fun k lt => ?_, below, fun ops mid k kpage last runs lt back files lengths => ?_⟩
  · rw [loadSegment, add_of_lt (by omega), total]
    simp only [Option.bind_eq_bind, Option.bind_some]
    rw [if_pos ⟨Nat.mul_mod_left _ _, Nat.mul_mod_left _ _, Nat.mul_mod_left _ _⟩]
    exact run fuel more
  · obtain ⟨fr, frame, type, record⟩ := records.pages k lt
    exact ⟨fr, frame, type, congrArg PageRecord.thread record, congrArg PageRecord.upage record⟩
  · have kept := Keeps.runs runs
    have old : st.next + k < st'.next := by
      rw [records.next]
      omega
    obtain ⟨fr, frame, -, eq⟩ := records.pages k lt
    have record : ∀ fr', mid.frames (st.next + k) = some fr' →
        frameRecord fr' = seg.record thread file k := by
      intro fr' frame'
      rcases kept.frames _ old with gone | same
      · rw [frame'] at gone
        cases gone
      · rw [frame', frame] at same
        exact (Option.some.inj same).trans eq
    have tail : min (fileBytes phdr - k * pgsize) pgsize = 0 ∨
        min (k * pgsize) (fileBytes phdr) = k * pgsize := by omega
    obtain ⟨present, entry, mem⟩ := fileBack_loads back (Nat.lt_of_lt_of_le old kept.next) record
      (fun some => by
        show pgRoundDown phdr.offset.toNat + min (k * pgsize) (fileBytes phdr) +
          min (fileBytes phdr - k * pgsize) pgsize ≤ last.fileLength file
        replace some : 0 < min (fileBytes phdr - k * pgsize) pgsize := some
        omega)
    refine ⟨present, entry, fun i small => ?_⟩
    rw [mem i, eagerByte, Segment.record]
    dsimp only [seg]
    rw [files]
    split
    · rw [if_pos (by omega)]
      refine congrArg (st.files file) ?_
      omega
    · rw [if_neg (by omega)]

/-- A segment that starts in the middle of a page, with two pages from the file and a zeroed one. -/
def threePages : Phdr := ⟨true, 1, 0x10, 0x08048010, 5000, 9000⟩

theorem loadSegment_loadsLazily_three :
    ∃ seg st', ptLoad threePages = some seg ∧
      (∀ fuel, pageCount threePages < fuel →
        loadSegment 1 2 false fuel seg { smallMachine with fileLength := fun _ => 6000 } =
          some st') ∧
      LoadsLazily threePages 1 2 { smallMachine with fileLength := fun _ => 6000 } st' :=
  loadSegment_loadsLazily threePages { smallMachine with fileLength := fun _ => 6000 } 1 2 false
    (by decide) (by decide) (by decide)

end Claim

end Pintos.Userprog
