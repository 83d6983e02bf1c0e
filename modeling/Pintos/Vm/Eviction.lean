import Pintos.Vm.Swap

/-! What one call of `evict` does, and the invariant of paging. -/

namespace Pintos.Vm

open Words

theorem Pte.Same.refl (p : Pte) : p.Same p := ⟨p.accessed, rfl⟩

theorem Pte.Same.of_eq {p q : Pte} (h : q = p) : p.Same q := h ▸ .refl p

theorem Pte.Same.trans {p q r : Pte} (h : p.Same q) (h' : q.Same r) : p.Same r := by
  obtain ⟨a, rfl⟩ := h
  obtain ⟨b, rfl⟩ := h'
  exact ⟨b, rfl⟩

theorem Pte.Same.dirty {p q : Pte} (h : p.Same q) : q.dirty = p.dirty := by
  obtain ⟨a, rfl⟩ := h
  rfl

theorem Pte.Same.present {p q : Pte} (h : p.Same q) : q.present = p.present := by
  obtain ⟨a, rfl⟩ := h
  rfl

theorem Pte.Same.kpage {p q : Pte} (h : p.Same q) : q.kpage = p.kpage := by
  obtain ⟨a, rfl⟩ := h
  rfl

namespace State

theorem scan_same (st : State) (pd : Nat → Pte) (table : List Nat) (u : Nat) :
    (pd u).Same ((scan st pd table).1 u) := by
  induction table generalizing pd with
  | nil => exact Pte.Same.refl _
  | cons f rest ih =>
    unfold scan
    split
    · exact ih pd
    · rename_i fr _
      split
      · refine Pte.Same.trans ?_ (ih _)
        by_cases here : u = fr.upage
        · rw [here, Function.update_self]
          exact ⟨false, rfl⟩
        · rw [Function.update_of_ne here]
          exact Pte.Same.refl _
      · split
        · exact ih pd
        · exact Pte.Same.refl _

theorem scan_mem {st : State} {pd : Nat → Pte} {table : List Nat} {f : Nat}
    (h : (scan st pd table).2 = some f) : f ∈ table := by
  induction table generalizing pd with
  | nil => cases h
  | cons g rest ih =>
    unfold scan at h
    split at h
    · exact List.mem_cons_of_mem _ (ih h)
    · split at h
      · exact List.mem_cons_of_mem _ (ih h)
      · split at h
        · exact List.mem_cons_of_mem _ (ih h)
        · obtain rfl := Option.some.inj h
          exact List.mem_cons_self

theorem victim_mem {st : State} {thread f : Nat} (h : st.victim thread = some f) :
    f ∈ st.frameTable := by
  obtain scan | ⟨_, head⟩ := Option.or_eq_some_iff.mp h
  · exact scan_mem scan
  · exact List.mem_of_mem_head? head

theorem scanned_same (st : State) (thread t u : Nat) :
    (st.pagedir t u).Same ((st.scanned thread).pagedir t u) := by
  by_cases here : t = thread
  · subst here
    simp only [scanned, Function.update_self]
    exact scan_same st _ _ u
  · simp only [scanned, Function.update_of_ne here]
    exact Pte.Same.refl _

theorem setPte_self (st : State) (t u : Nat) (p : Pte) : (st.setPte t u p).pagedir t u = p := by
  simp only [setPte, Function.update_self]

theorem setPte_ne (st : State) {t u t' u' : Nat} (p : Pte) (h : ¬(t' = t ∧ u' = u)) :
    (st.setPte t u p).pagedir t' u' = st.pagedir t' u' := by
  by_cases thread : t' = t
  · subst thread
    have page : u' ≠ u := fun page => h ⟨rfl, page⟩
    simp only [setPte, Function.update_self, Function.update_of_ne page]
  · simp only [setPte, Function.update_of_ne thread]

theorem setPte_present (st : State) {t u : Nat} {p : Pte}
    (same : p.present = (st.pagedir t u).present) (t' u' : Nat) :
    ((st.setPte t u p).pagedir t' u').present = (st.pagedir t' u').present := by
  by_cases here : t' = t ∧ u' = u
  · obtain ⟨rfl, rfl⟩ := here
    rw [setPte_self]
    exact same
  · rw [setPte_ne st p here]

theorem freeSlot_unused {st : State} {i : Nat} (h : st.freeSlot = some i) :
    st.swapUsed i = false ∧ i < st.swapSize := by
  have free := List.find?_some h
  exact ⟨by simpa using free, List.mem_range.mp (List.mem_of_find?_eq_some h)⟩

theorem flipSlot_eq {st st' : State} {i : Nat} (h : st.flipSlot i = some st') :
    i < st.swapSize ∧
      st' = { st with swapUsed := Function.update st.swapUsed i (!st.swapUsed i) } := by
  unfold flipSlot at h
  split at h
  · rename_i bound
    exact ⟨bound, (Option.some.inj h).symm⟩
  · cases h

/-- How a page was saved: not at all, to its file, or to swap.  `fr'` is its frame afterwards. -/
inductive Saved (st : State) (thread : Nat) (fr : Frame) (st' : State) : Frame → Prop
  | dropped : fr.type ≠ .swap → (st.pagedir thread fr.upage).dirty = false →
      st'.files = st.files → st'.swap = st.swap → st'.swapUsed = st.swapUsed →
      Saved st thread fr st' { fr with load := false }
  | written : fr.type = .mmap → (st.pagedir thread fr.upage).dirty = true →
      st'.files = (st.fileWriteAt fr.file (st.mem fr.kpage) fr.pageReadBytes fr.ofs).files →
      st'.swap = st.swap → st'.swapUsed = st.swapUsed →
      Saved st thread fr st' { fr with load := false }
  | swapped (i : Nat) : fr.type ≠ .mmap → st.swapUsed i = false ∧ i < st.swapSize →
      st'.files = st.files →
      st'.swap = Function.update st.swap i (st.mem fr.kpage) →
      st'.swapUsed = Function.update st.swapUsed i true →
      Saved st thread fr st' { fr with load := false, type := .swap, index := i }

/-- `evict` by `thread` took frame `f`, which is `fr` before and `fr'` after. -/
structure Evicted (st : State) (thread f : Nat) (fr fr' : Frame) (st' : State) : Prop where
  frames : st'.frames = Function.update st.frames f (some fr')
  next : st'.next = st.next
  swapSize : st'.swapSize = st.swapSize
  frameTable : st'.frameTable = st.frameTable.erase f
  freePages : st'.freePages = fr.kpage :: st.freePages
  cleared : (st'.pagedir fr.thread fr.upage).present = false
  others : ∀ t u, ¬(t = fr.thread ∧ u = fr.upage) → (st.pagedir t u).Same (st'.pagedir t u)
  mem : st'.mem = st.mem
  held : st'.held = st.held
  seen : st'.seen = st.seen
  saved : Saved st thread fr st' fr'

theorem saveOut_cases {st st' : State} {f : Nat} {fr : Frame} {dirty : Bool}
    (h : st.saveOut f fr dirty = some st') :
    (fr.type ≠ .swap ∧ dirty = false ∧ st' = st) ∨
    (fr.type = .mmap ∧ dirty = true ∧
      st' = st.fileWriteAt fr.file (st.mem fr.kpage) fr.pageReadBytes fr.ofs) ∨
    ∃ i, fr.type ≠ .mmap ∧ (st.swapUsed i = false ∧ i < st.swapSize) ∧
      st' = { st.setFrame f { fr with type := .swap, index := i } with
        swapUsed := Function.update st.swapUsed i true
        swap := Function.update st.swap i (st.mem fr.kpage) } := by
  unfold saveOut at h
  split at h
  · rename_i mmap
    have other : fr.type ≠ .swap := by simp [mmap]
    split at h
    · rename_i set
      exact .inr (.inl ⟨mmap, set, (Option.some.inj h).symm⟩)
    · rename_i clear
      exact .inl ⟨other, Bool.eq_false_iff.mpr clear, (Option.some.inj h).symm⟩
  · rename_i mmap
    split at h
    · obtain ⟨i, free, eq⟩ := Option.map_eq_some_iff.mp h
      exact .inr (.inr ⟨i, mmap, freeSlot_unused free, eq.symm⟩)
    · rename_i keep
      obtain ⟨file, clear⟩ := not_or.mp keep
      have type := not_not.mp file
      exact .inl ⟨by simp [type], Bool.eq_false_iff.mpr clear, (Option.some.inj h).symm⟩

theorem fileWriteAt_files (st : State) (file : Nat) (c : Bytes) (size ofs : Nat) :
    (st.fileWriteAt file c size ofs).files =
      if st.denied file then st.files
      else Function.update st.files file fun j =>
        if ofs ≤ j ∧ j < ofs + size then c (j - ofs) else st.files file j := by
  unfold fileWriteAt
  split <;> rfl

theorem fileWriteAt_congr {st mid : State} (files : mid.files = st.files)
    (denied : mid.denied = st.denied) (file : Nat) (c : Bytes) (size ofs : Nat) :
    (mid.fileWriteAt file c size ofs).files = (st.fileWriteAt file c size ofs).files := by
  rw [fileWriteAt_files, fileWriteAt_files, files, denied]

/-- `file_write_at` changes nothing but the files. -/
theorem fileWriteAt_else (st : State) (file : Nat) (c : Bytes) (size ofs : Nat) :
    ∃ length, st.fileWriteAt file c size ofs =
      { st with
        files := (st.fileWriteAt file c size ofs).files
        fileLength := length } := by
  unfold fileWriteAt
  split
  · exact ⟨_, rfl⟩
  · exact ⟨_, rfl⟩

theorem Evicted.of_saved {st mid st' : State} {thread f : Nat} {fr fr' : Frame}
    (eq : st' = mid.unload f fr) (frames : mid.frames = Function.update st.frames f (some fr'))
    (next : mid.next = st.next) (size : mid.swapSize = st.swapSize)
    (table : mid.frameTable = st.frameTable) (free : mid.freePages = st.freePages)
    (pagedir : mid.pagedir = (st.scanned thread).pagedir) (mem : mid.mem = st.mem)
    (held : mid.held = st.held) (seen : mid.seen = st.seen) (saved : Saved st thread fr mid fr') :
    Evicted st thread f fr fr' st' := by
  subst eq
  have entries :
      (mid.unload f fr).pagedir = (mid.pagedirClearPage fr.thread fr.upage).pagedir := rfl
  exact {
    frames := frames
    next := next
    swapSize := size
    frameTable := congrArg (·.erase f) table
    freePages := congrArg (fr.kpage :: ·) free
    cleared := by rw [entries, pagedirClearPage, setPte_self]
    others := by
      intro t u other
      rw [entries, pagedirClearPage, setPte_ne _ _ other, pagedir]
      exact scanned_same st thread t u
    mem := mem
    held := held
    seen := seen
    saved := by
      cases saved with
      | dropped type clear files swap used => exact .dropped type clear files swap used
      | written type set files swap used => exact .written type set files swap used
      | swapped i type unused files swap used => exact .swapped i type unused files swap used }

theorem evict_evicted {st st' : State} {thread : Nat} (h : st.evict thread = some st') :
    ∃ f fr fr', st.victim thread = some f ∧ st.frames f = some fr ∧
      Evicted st thread f fr fr' st' := by
  obtain ⟨f, victim, h⟩ := Option.bind_eq_some_iff.mp h
  obtain ⟨fr, frame, h⟩ := Option.bind_eq_some_iff.mp h
  obtain ⟨mid, saved, h⟩ := Option.bind_eq_some_iff.mp h
  have eq := (Option.some.inj h).symm
  have dirty := (scanned_same st thread thread fr.upage).dirty
  rcases saveOut_cases saved with ⟨type, clear, rfl⟩ | ⟨type, set, rfl⟩ | ⟨i, type, unused, rfl⟩
  · exact ⟨f, fr, _, victim, frame, .of_saved eq rfl rfl rfl rfl rfl rfl rfl rfl rfl
      (.dropped type (dirty.symm.trans clear) rfl rfl rfl)⟩
  · let mid := (st.scanned thread).setFrame f { fr with load := false }
    obtain ⟨length, same⟩ :=
      fileWriteAt_else mid fr.file (st.mem fr.kpage) fr.pageReadBytes fr.ofs
    have files : (mid.fileWriteAt fr.file (st.mem fr.kpage) fr.pageReadBytes fr.ofs).files =
        (st.fileWriteAt fr.file (st.mem fr.kpage) fr.pageReadBytes fr.ofs).files := by
      apply fileWriteAt_congr
      · rfl
      · rfl
    exact ⟨f, fr, _, victim, frame, .of_saved (eq.trans (congrArg (unload · f fr) same)) rfl rfl rfl
      rfl rfl rfl rfl rfl rfl (.written type (dirty.symm.trans set) files rfl rfl)⟩
  · refine ⟨f, fr, _, victim, frame, .of_saved eq ?_ rfl rfl rfl rfl rfl rfl rfl rfl
      (.swapped i type unused rfl rfl rfl)⟩
    exact Function.update_idem _ _ _

/-- Nothing but the file can bring the page back: it was seen, it does not go to swap, and it is
not dirty in memory. -/
def Relies (st : State) (f : Nat) (fr : Frame) : Prop :=
  st.seen f = true ∧ fr.type ≠ .swap ∧
    (fr.load = true → (st.pagedir fr.thread fr.upage).dirty = false)

instance (st : State) (f : Nat) (fr : Frame) : Decidable (st.Relies f fr) :=
  inferInstanceAs (Decidable (_ ∧ _ ∧ _))

/-- The content of a page is where its frame says: in memory, in swap, or in its file. -/
structure PageOk (st : State) (f : Nat) (fr : Frame) : Prop where
  listed : f ∈ st.frameTable ↔ fr.load = true
  present : (st.pagedir fr.thread fr.upage).present = fr.load
  mapped : fr.load = true → (st.pagedir fr.thread fr.upage).kpage = fr.kpage ∧
    fr.kpage ∉ st.freePages ∧ st.seen f = true
  kept : fr.load = true → ∀ i < fr.extent, st.mem fr.kpage i = st.held f i
  backed : st.Relies f fr → ∀ i < fr.extent, st.held f i = st.backing fr i
  stored : fr.load = false → fr.type = .swap → st.seen f = true ∧
    st.swapUsed fr.index = true ∧ ∀ i < pgsize, st.swap fr.index i = st.held f i

/-- Two frames that share no address, no page in memory and no slot in swap. -/
structure Apart (fr gr : Frame) : Prop where
  place : ¬(fr.thread = gr.thread ∧ fr.upage = gr.upage)
  kpage : fr.load = true → gr.load = true → fr.kpage ≠ gr.kpage
  index : fr.load = false → gr.load = false → fr.type = .swap → gr.type = .swap →
    fr.index ≠ gr.index

theorem Apart.symm {fr gr : Frame} (h : Apart fr gr) : Apart gr fr where
  place both := h.place ⟨both.1.symm, both.2.symm⟩
  kpage g f := (h.kpage f g).symm
  index g f tg tf := (h.index f g tf tg).symm

/-- The invariant of paging. -/
structure Inv (st : State) : Prop where
  fresh : ∀ f, st.next ≤ f → st.frames f = none ∧ st.seen f = false
  table : ∀ f ∈ st.frameTable, ∃ fr, st.frames f = some fr
  nodup : st.frameTable.Nodup
  free : st.freePages.Nodup
  apart : ∀ f g fr gr, f ≠ g → st.frames f = some fr → st.frames g = some gr → Apart fr gr
  page : ∀ f fr, st.frames f = some fr → PageOk st f fr

/-- A step from `st` to `st'` leaves the content of a page where it is. -/
structure Still (st st' : State) (f : Nat) (fr : Frame) : Prop where
  listed : f ∈ st'.frameTable ↔ f ∈ st.frameTable
  entry : (st.pagedir fr.thread fr.upage).Same (st'.pagedir fr.thread fr.upage)
  free : fr.load = true → fr.kpage ∈ st'.freePages → fr.kpage ∈ st.freePages
  mem : fr.load = true → st'.mem fr.kpage = st.mem fr.kpage
  held : st'.held f = st.held f
  seen : st'.seen f = st.seen f
  files : st.Relies f fr → ∀ i < fr.pageReadBytes,
    st'.files fr.file (fr.ofs + i) = st.files fr.file (fr.ofs + i)
  slot : fr.load = false → fr.type = .swap →
    st'.swapUsed fr.index = st.swapUsed fr.index ∧ st'.swap fr.index = st.swap fr.index

theorem PageOk.still {st st' : State} {f : Nat} {fr : Frame} (ok : PageOk st f fr)
    (h : Still st st' f fr) : PageOk st' f fr where
  listed := h.listed.trans ok.listed
  present := h.entry.present.trans ok.present
  mapped load := by
    obtain ⟨kpage, used, seen⟩ := ok.mapped load
    exact ⟨h.entry.kpage.trans kpage, fun free => used (h.free load free), h.seen.trans seen⟩
  kept load i hi := by
    rw [h.mem load, h.held]
    exact ok.kept load i hi
  backed relies i hi := by
    obtain ⟨seen, type, clean⟩ := relies
    have before : st.Relies f fr :=
      ⟨h.seen.symm.trans seen, type, fun load => h.entry.dirty.symm.trans (clean load)⟩
    rw [h.held, ok.backed before i hi]
    unfold backing
    split
    · rename_i inside
      exact (h.files before i inside).symm
    · rfl
  stored out type := by
    obtain ⟨used, swap⟩ := h.slot out type
    rw [h.seen, used, swap, h.held]
    exact ok.stored out type

/-- A step that gives one frame a new value and leaves the others where they are. -/
theorem Inv.update {st st' : State} {f : Nat} {fr : Frame} (inv : Inv st)
    (frames : st'.frames = Function.update st.frames f (some fr))
    (fresh : ∀ g, st'.next ≤ g → st.next ≤ g ∧ g ≠ f ∧ st'.seen g = st.seen g)
    (table : ∀ g ∈ st'.frameTable, g ≠ f → g ∈ st.frameTable) (nodup : st'.frameTable.Nodup)
    (free : st'.freePages.Nodup) (self : PageOk st' f fr)
    (others : ∀ g gr, g ≠ f → st.frames g = some gr → Apart fr gr ∧ Still st st' g gr) :
    Inv st' := by
  have here : st'.frames f = some fr := by rw [frames, Function.update_self]
  have there : ∀ g, g ≠ f → st'.frames g = st.frames g := fun g ne => by
    rw [frames, Function.update_of_ne ne]
  exact {
    fresh := by
      intro g bound
      obtain ⟨before, ne, seen⟩ := fresh g bound
      rw [there g ne, seen]
      exact inv.fresh g before
    table := by
      intro g listed
      by_cases eq : g = f
      · exact ⟨fr, eq ▸ here⟩
      · obtain ⟨gr, frame⟩ := inv.table g (table g listed eq)
        exact ⟨gr, (there g eq).trans frame⟩
    nodup := nodup
    free := free
    apart := by
      intro a b ar br ne ha hb
      by_cases ea : a = f
      · subst ea
        obtain rfl := Option.some.inj (here.symm.trans ha)
        exact (others b br ne.symm ((there b ne.symm).symm.trans hb)).1
      · rw [there a ea] at ha
        by_cases eb : b = f
        · subst eb
          obtain rfl := Option.some.inj (here.symm.trans hb)
          exact (others a ar ea ha).1.symm
        · exact inv.apart a b ar br ne ha ((there b eb).symm.trans hb)
    page := by
      intro g gr hg
      by_cases eq : g = f
      · subst eq
        obtain rfl := Option.some.inj (here.symm.trans hg)
        exact self
      · rw [there g eq] at hg
        exact (inv.page g gr hg).still (others g gr eq hg).2 }

end State

end Pintos.Vm
