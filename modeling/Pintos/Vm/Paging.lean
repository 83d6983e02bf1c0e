import Pintos.Lib.Transition
import Pintos.Vm.Eviction

/-! Pages over whole runs: when every eviction saves what only memory holds, a process reads from a
page what it last had in it. -/

namespace Pintos.Vm

open Words Transition

namespace State

/-- No other page that relies on its file would change by the write-back of a page. -/
def WritesAlone (st : State) (f : Nat) (fr : Frame) : Prop :=
  ∀ g < st.next, g ≠ f → ∀ gr ∈ st.frames g, st.Relies g gr → ∀ i < gr.pageReadBytes,
    (st.fileWriteAt fr.file (st.mem fr.kpage) fr.pageReadBytes fr.ofs).files gr.file (gr.ofs + i) =
      st.files gr.file (gr.ofs + i)

instance (st : State) (f : Nat) (fr : Frame) : Decidable (st.WritesAlone f fr) :=
  inferInstanceAs (Decidable (∀ g < st.next, g ≠ f → ∀ gr ∈ st.frames g, st.Relies g gr → _))

/-- The page that `thread` would evict is saved: if its owner wrote to it, `thread` has the dirty
bit for that address too and a mapped file may be written, and a write-back changes no other
page. -/
def EvictOk (st : State) (thread : Nat) : Prop :=
  ∀ f ∈ st.victim thread, ∀ fr ∈ st.frames f, fr.type ≠ .swap →
    ((st.pagedir fr.thread fr.upage).dirty = true → (st.pagedir thread fr.upage).dirty = true ∧
      (fr.type = .mmap → st.denied fr.file = false)) ∧
    (fr.type = .mmap → (st.pagedir thread fr.upage).dirty = true → st.WritesAlone f fr)

instance (st : State) (thread : Nat) : Decidable (st.EvictOk thread) :=
  inferInstanceAs (Decidable (∀ f ∈ st.victim thread, ∀ fr ∈ st.frames f, _ → _))

theorem Saved.frame {st st' : State} {thread : Nat} {fr fr' : Frame}
    (h : Saved st thread fr st' fr') : fr'.thread = fr.thread ∧ fr'.upage = fr.upage ∧
      fr'.load = false ∧ fr'.file = fr.file ∧ fr'.ofs = fr.ofs ∧
      fr'.pageReadBytes = fr.pageReadBytes := by
  cases h <;> exact ⟨rfl, rfl, rfl, rfl, rfl, rfl⟩

theorem extent_page {fr : Frame} (h : fr.type ≠ .mmap) : fr.extent = pgsize := if_neg h

section Evict

variable {st st' : State} {thread f : Nat} {fr fr' : Frame}

/-- What an evicted page is loaded with again, when it relies on its file. -/
theorem Evicted.backed (e : Evicted st thread f fr fr' st') (ok : PageOk st f fr)
    (load : fr.load = true) (type : fr'.type ≠ .swap)
    (dirty : (st.pagedir fr.thread fr.upage).dirty = true →
      (st.pagedir thread fr.upage).dirty = true ∧ (fr.type = .mmap → st.denied fr.file = false))
    {i : Nat} (hi : i < fr'.extent) : st'.held f i = st'.backing fr' i := by
  obtain ⟨_, _, seen⟩ := ok.mapped load
  rw [e.held]
  cases e.saved with
  | dropped other clear files swap used =>
    have clean : (st.pagedir fr.thread fr.upage).dirty = false := by
      refine Bool.eq_false_iff.mpr fun set => ?_
      rw [(dirty set).1] at clear
      cases clear
    show _ = if i < fr.pageReadBytes then st'.files fr.file (fr.ofs + i) else 0
    rw [files]
    exact ok.backed ⟨seen, other, fun _ => clean⟩ i hi
  | written mmap set files swap used =>
    have size : fr.extent = fr.pageReadBytes := if_pos mmap
    have inside : i < fr.pageReadBytes := size ▸ hi
    show _ = if i < fr.pageReadBytes then st'.files fr.file (fr.ofs + i) else 0
    rw [if_pos inside, files, fileWriteAt_files]
    split
    · rename_i denied
      have clean : (st.pagedir fr.thread fr.upage).dirty = false := by
        refine Bool.eq_false_iff.mpr fun set => ?_
        rw [(dirty set).2 mmap] at denied
        cases denied
      have other : fr.type ≠ .swap := by simp [mmap]
      rw [ok.backed ⟨seen, other, fun _ => clean⟩ i hi]
      exact if_pos inside
    · rw [Function.update_self, if_pos ⟨Nat.le_add_right _ _, Nat.add_lt_add_left inside _⟩,
        Nat.add_sub_cancel_left]
      exact (ok.kept load i hi).symm
  | swapped => exact absurd rfl type

theorem Evicted.pageOk (e : Evicted st thread f fr fr' st') (inv : Inv st)
    (ok : PageOk st f fr) (load : fr.load = true)
    (dirty : fr.type ≠ .swap → (st.pagedir fr.thread fr.upage).dirty = true →
      (st.pagedir thread fr.upage).dirty = true ∧ (fr.type = .mmap → st.denied fr.file = false)) :
    PageOk st' f fr' := by
  obtain ⟨owner, upage, out, _⟩ := e.saved.frame
  have absent : f ∉ st'.frameTable := by
    rw [e.frameTable]
    exact inv.nodup.not_mem_erase
  have loaded : fr'.load ≠ true := by simp [out]
  exact {
    listed := ⟨fun listed => absurd listed absent, fun h => absurd h loaded⟩
    present := by rw [owner, upage, out, e.cleared]
    mapped := fun h => absurd h loaded
    kept := fun h => absurd h loaded
    backed := by
      rintro ⟨_, type, _⟩ i hi
      refine e.backed ok load type (dirty ?_) hi
      cases e.saved with
      | dropped other => exact other
      | written mmap => simp [mmap]
      | swapped => exact absurd rfl type
    stored := by
      intro _ type
      obtain ⟨_, _, seen⟩ := ok.mapped load
      refine ⟨e.seen ▸ seen, ?_⟩
      cases e.saved with
      | dropped other => exact absurd type other
      | written mmap => exact absurd type (by simp [mmap])
      | swapped i other unused files swap used =>
        rw [used, swap, e.held]
        refine ⟨Function.update_self _ _ _, fun j hj => ?_⟩
        rw [Function.update_self]
        exact ok.kept load j (by rwa [extent_page other]) }

theorem Evicted.still (e : Evicted st thread f fr fr' st') (load : fr.load = true)
    (alone : fr.type = .mmap → (st.pagedir thread fr.upage).dirty = true → st.WritesAlone f fr)
    {g : Nat} {gr : Frame} (bound : g < st.next) (ne : g ≠ f) (frame : st.frames g = some gr)
    (ok : PageOk st g gr) (apart : Apart fr gr) : Still st st' g gr where
  listed := by
    rw [e.frameTable]
    exact List.mem_erase_of_ne ne
  entry := e.others _ _ fun both => apart.place ⟨both.1.symm, both.2.symm⟩
  free gload free := by
    rw [e.freePages] at free
    exact (List.mem_cons.mp free).resolve_left (apart.kpage load gload).symm
  mem _ := by rw [e.mem]
  held := by rw [e.held]
  seen := by rw [e.seen]
  files relies i hi := by
    cases e.saved with
    | dropped other clear files swap used => rw [files]
    | written mmap set files swap used =>
      rw [files]
      exact alone mmap set g bound ne gr frame relies i hi
    | swapped j other unused files swap used => rw [files]
  slot out type := by
    cases e.saved with
    | dropped other clear files swap used => exact ⟨by rw [used], by rw [swap]⟩
    | written mmap set files swap used => exact ⟨by rw [used], by rw [swap]⟩
    | swapped j other unused files swap used =>
      have taken : gr.index ≠ j := by
        rintro rfl
        rw [(ok.stored out type).2.1] at unused
        cases unused.1
      rw [used, swap]
      exact ⟨Function.update_of_ne taken _ _, Function.update_of_ne taken _ _⟩

theorem Evicted.apart (e : Evicted st thread f fr fr' st') {g : Nat} {gr : Frame}
    (ok : PageOk st g gr) (apart : Apart fr gr) : Apart fr' gr := by
  obtain ⟨owner, upage, out, _⟩ := e.saved.frame
  refine ⟨by rw [owner, upage]; exact apart.place, fun load => absurd load (by simp [out]), ?_⟩
  intro _ gout type gtype
  cases e.saved with
  | dropped other => exact absurd type other
  | written mmap => exact absurd type (by simp [mmap])
  | swapped j other unused files swap used =>
    rintro rfl
    rw [(ok.stored gout gtype).2.1] at unused
    cases unused.1

end Evict

theorem Inv.bound {st : State} (inv : Inv st) {f : Nat} {fr : Frame} (h : st.frames f = some fr) :
    f < st.next := by
  by_contra high
  rw [(inv.fresh f (Nat.not_lt.mp high)).1] at h
  cases h

theorem Inv.evict {st st' : State} {thread : Nat} (inv : Inv st) (ok : st.EvictOk thread)
    (h : st.evict thread = some st') : Inv st' := by
  obtain ⟨f, fr, fr', victim, frame, e⟩ := evict_evicted h
  have page := inv.page f fr frame
  have load : fr.load = true := page.listed.mp (victim_mem victim)
  have saves := ok f victim fr frame
  refine inv.update e.frames ?_ ?_ ?_ ?_
    (e.pageOk inv page load fun type => (saves type).1) ?_
  · intro g high
    rw [e.next] at high
    exact ⟨high, Nat.ne_of_gt (Nat.lt_of_lt_of_le (inv.bound frame) high),
      by rw [e.seen]⟩
  · intro g listed _
    rw [e.frameTable] at listed
    exact List.mem_of_mem_erase listed
  · rw [e.frameTable]
    exact inv.nodup.erase f
  · rw [e.freePages]
    exact List.nodup_cons.mpr ⟨(page.mapped load).2.1, inv.free⟩
  · intro g gr ne other
    have apart := inv.apart f g fr gr ne.symm frame other
    have ok := inv.page g gr other
    refine ⟨e.apart ok apart, e.still load (fun mmap => ?_) (inv.bound other) ne other ok apart⟩
    exact (saves (by simp [mmap])).2 mmap

/-- No frame is at the address. -/
def Vacant (st : State) (thread upage : Nat) : Prop :=
  ∀ g < st.next, ∀ gr ∈ st.frames g, ¬(thread = gr.thread ∧ upage = gr.upage)

instance (st : State) (thread upage : Nat) : Decidable (st.Vacant thread upage) :=
  inferInstanceAs (Decidable (∀ g < st.next, ∀ gr ∈ st.frames g, _))

/-- A page of memory that is neither free nor in use. -/
def Spare (st : State) (kpage : Nat) : Prop :=
  kpage ∉ st.freePages ∧ ∀ f fr, st.frames f = some fr → fr.load = true → fr.kpage ≠ kpage

/-- Frames stay at their addresses, and those not in memory are as they were. -/
structure Room (st st' : State) : Prop where
  next : st'.next = st.next
  vacant : ∀ t u, st.Vacant t u → st'.Vacant t u
  idle : ∀ g gr, st.frames g = some gr → gr.load = false → st'.frames g = some gr

theorem Room.refl (st : State) : Room st st := ⟨rfl, fun _ _ => id, fun _ _ frame _ => frame⟩

theorem evict_room {st st' : State} {thread : Nat}
    (loaded : ∀ f ∈ st.frameTable, ∀ fr, st.frames f = some fr → fr.load = true)
    (h : st.evict thread = some st') : Room st st' := by
  obtain ⟨f, fr, fr', victim, frame, e⟩ := evict_evicted h
  refine ⟨e.next, fun t u vacant g bound gr other => ?_, fun g gr other out => ?_⟩
  · rw [e.next] at bound
    by_cases here : g = f
    · subst here
      obtain ⟨owner, upage, _⟩ := e.saved.frame
      have value : st'.frames g = some fr' := by rw [e.frames, Function.update_self]
      obtain rfl := Option.some.inj (value.symm.trans other)
      rw [owner, upage]
      exact vacant g bound fr frame
    · apply vacant g bound gr
      rwa [e.frames, Option.mem_def, Function.update_of_ne here] at other
  · have ne : g ≠ f := by
      rintro rfl
      obtain rfl := Option.some.inj (frame.symm.trans other)
      rw [loaded g (victim_mem victim) fr frame] at out
      cases out
    rw [e.frames, Function.update_of_ne ne]
    exact other

/-- What taking a page needs: the eviction that it may take saves its page. -/
def TakeOk (st : State) (thread : Nat) : Prop := st.freePages = [] → st.EvictOk thread

instance (st : State) (thread : Nat) : Decidable (st.TakeOk thread) :=
  inferInstanceAs (Decidable (_ → _))

theorem Inv.makeRoom {st st' : State} {thread : Nat} (inv : Inv st) (ok : st.TakeOk thread)
    (h : st.makeRoom thread = some st') : Inv st' ∧ Room st st' := by
  unfold State.makeRoom at h
  split at h
  · rename_i empty
    have loaded : ∀ f ∈ st.frameTable, ∀ fr, st.frames f = some fr → fr.load = true :=
      fun f listed fr frame => (inv.page f fr frame).listed.mp listed
    exact ⟨inv.evict (ok empty) h, evict_room loaded h⟩
  · obtain rfl := Option.some.inj h
    exact ⟨inv, Room.refl st⟩

theorem Inv.takePage {st st' : State} {thread kpage : Nat} (inv : Inv st) (ok : st.TakeOk thread)
    (h : st.takePage thread kpage = some st') : Inv st' ∧ Room st st' ∧ st'.Spare kpage := by
  obtain ⟨mid, room, h⟩ := Option.bind_eq_some_iff.mp h
  obtain ⟨inv, same⟩ := inv.makeRoom ok room
  split at h
  · rename_i free
    obtain rfl := Option.some.inj h
    have taken : kpage ∉ mid.freePages.erase kpage := inv.free.not_mem_erase
    have fewer {k : Nat} (hk : k ∈ mid.freePages.erase kpage) : k ∈ mid.freePages :=
      List.mem_of_mem_erase hk
    refine ⟨⟨inv.fresh, inv.table, inv.nodup, inv.free.erase _, inv.apart, fun f fr frame => ?_⟩,
      ⟨same.next, same.vacant, same.idle⟩, taken, fun f fr frame load => ?_⟩
    · exact (inv.page f fr frame).still {
        listed := Iff.rfl
        entry := Pte.Same.refl _
        free := fun _ hk => fewer hk
        mem := fun _ => rfl
        held := rfl
        seen := rfl
        files := fun _ _ _ => rfl
        slot := fun _ _ => ⟨rfl, rfl⟩ }
    · rintro rfl
      exact ((inv.page f fr frame).mapped load).2.1 free
  · cases h

theorem Inv.install {st st' : State} {f n kpage : Nat} {fr : Frame} {c : Bytes} {u : Nat → Bool}
    (inv : Inv st) (spare : st.Spare kpage) (bound : st.next ≤ n ∧ f < n) (idle : f ∉ st.frameTable)
    (alone : ∀ g gr, g ≠ f → st.frames g = some gr →
      ¬(fr.thread = gr.thread ∧ fr.upage = gr.upage))
    (used : ∀ g gr, g ≠ f → st.frames g = some gr → gr.load = false → gr.type = .swap →
      u gr.index = st.swapUsed gr.index)
    (held : st.seen f = true → ∀ i < fr.extent, c i = st.held f i)
    (files : fr.type ≠ .swap → ∀ i < fr.extent, c i = st.backing fr i)
    (h : ({ st with next := n, swapUsed := u } : State).install f fr kpage c = some st') :
    Inv st' := by
  unfold State.install at h
  split at h
  · cases h
  obtain rfl := Option.some.inj h
  have content : ∀ i < fr.extent,
      (if st.seen f then st.held else Function.update st.held f c) f i = c i := by
    intro i hi
    split
    · rename_i seen
      exact (held seen i hi).symm
    · rw [Function.update_self]
  have entry := setPte_self st fr.thread fr.upage ⟨true, kpage, fr.writable, false, false⟩
  refine inv.update rfl ?_ ?_ ?_ inv.free ?_ ?_
  · intro g high
    have ne : g ≠ f := Nat.ne_of_gt (Nat.lt_of_lt_of_le bound.2 high)
    exact ⟨Nat.le_trans bound.1 high, ne, Function.update_of_ne ne _ _⟩
  · intro g listed ne
    exact (List.mem_append.mp listed).resolve_right fun last => ne (List.mem_singleton.mp last)
  · exact List.nodup_append.mpr ⟨inv.nodup, List.nodup_singleton f, fun a ha b hb eq =>
      idle (List.mem_singleton.mp hb ▸ eq ▸ ha)⟩
  · exact {
      listed := ⟨fun _ => rfl, fun _ => List.mem_append_right _ (List.mem_singleton_self f)⟩
      present := congrArg Pte.present entry
      mapped := fun _ => ⟨congrArg Pte.kpage entry, spare.1, Function.update_self _ _ _⟩
      kept := by
        intro _ i hi
        show Function.update st.mem kpage c kpage i = _
        rw [Function.update_self]
        exact (content i hi).symm
      backed := fun relies i hi => (content i hi).trans (files relies.2.1 i hi)
      stored := fun out => nomatch out }
  · intro g gr ne frame
    refine ⟨⟨alone g gr ne frame, fun _ load => (spare.2 g gr frame load).symm,
      fun out => nomatch out⟩, ?_⟩
    have away := setPte_ne st ⟨true, kpage, fr.writable, false, false⟩ fun both =>
      alone g gr ne frame ⟨both.1.symm, both.2.symm⟩
    exact {
      listed := by
        show g ∈ st.frameTable ++ [f] ↔ _
        simp [ne]
      entry := .of_eq away
      free := fun _ => id
      mem := fun load => Function.update_of_ne (spare.2 g gr frame load) _ _
      held := by
        show (if st.seen f then st.held else Function.update st.held f c) g = _
        split
        · rfl
        · exact Function.update_of_ne ne _ _
      seen := Function.update_of_ne ne _ _
      files := fun _ _ _ => rfl
      slot := fun out type => ⟨used g gr ne frame out type, rfl⟩ }

theorem Inv.absent {st : State} (inv : Inv st) {f : Nat} (high : st.next ≤ f) :
    f ∉ st.frameTable := by
  intro listed
  obtain ⟨fr, frame⟩ := inv.table f listed
  rw [(inv.fresh f high).1] at frame
  cases frame

theorem Inv.unlisted {st : State} (inv : Inv st) {f : Nat} {fr : Frame}
    (frame : st.frames f = some fr) (out : fr.load = false) : f ∉ st.frameTable := by
  intro listed
  rw [(inv.page f fr frame).listed.mp listed] at out
  cases out

theorem Inv.fileBack {st st' : State} {f kpage : Nat} {fr : Frame} (inv : Inv st)
    (frame : st.frames f = some fr) (out : fr.load = false) (type : fr.type ≠ .swap)
    (ok : st.TakeOk fr.thread) (h : st.fileBack f fr.thread kpage = some st') : Inv st' := by
  obtain ⟨mid, taken, h⟩ := Option.bind_eq_some_iff.mp h
  obtain ⟨inv, room, spare⟩ := inv.takePage ok taken
  have same := room.idle f fr frame out
  obtain ⟨fr', again, h⟩ := Option.bind_eq_some_iff.mp h
  obtain rfl := Option.some.inj (same.symm.trans again)
  have page := inv.page f fr same
  have idle := inv.unlisted same out
  split at h
  · obtain rfl := Option.some.inj h
    refine inv.update rfl ?_ (fun g listed _ => listed) inv.nodup
      (List.nodup_cons.mpr ⟨spare.1, inv.free⟩) ?_ fun g gr ne other => ?_
    · intro g high
      exact ⟨high, Nat.ne_of_gt (Nat.lt_of_lt_of_le (inv.bound same) high), rfl⟩
    · have loaded : fr.load ≠ true := by simp [out]
      exact ⟨page.listed, page.present, fun load => absurd load loaded,
        fun load => absurd load loaded, page.backed, page.stored⟩
    · have apart := inv.apart f g fr gr ne.symm same other
      refine ⟨⟨apart.place, fun load => absurd load (by simp [out]), apart.index⟩, ?_⟩
      exact {
        listed := Iff.rfl
        entry := .refl _
        free := fun load free =>
          (List.mem_cons.mp free).resolve_left (spare.2 g gr other load)
        mem := fun _ => rfl
        held := rfl
        seen := rfl
        files := fun _ _ _ => rfl
        slot := fun _ _ => ⟨rfl, rfl⟩ }
  · refine inv.install spare ⟨Nat.le_refl _, inv.bound same⟩ idle ?_ ?_ ?_ ?_ h
    · intro g gr ne other
      exact (inv.apart f g fr gr ne.symm same other).place
    · intro g gr _ _ _ _
      rfl
    · intro seen i hi
      exact (page.backed ⟨seen, type, fun load => absurd load (by simp [out])⟩ i hi).symm
    · intro _ i _
      rfl

theorem Inv.pageBack {st st' : State} {f kpage : Nat} {fr : Frame} (inv : Inv st)
    (frame : st.frames f = some fr) (out : fr.load = false) (type : fr.type = .swap)
    (ok : st.TakeOk fr.thread) (h : st.pageBack f fr.thread kpage = some st') : Inv st' := by
  obtain ⟨mid, taken, h⟩ := Option.bind_eq_some_iff.mp h
  obtain ⟨inv, room, spare⟩ := inv.takePage ok taken
  have same := room.idle f fr frame out
  obtain ⟨fr', again, h⟩ := Option.bind_eq_some_iff.mp h
  obtain rfl := Option.some.inj (same.symm.trans again)
  obtain ⟨_, _, swap⟩ := (inv.page f fr same).stored out type
  obtain ⟨flipped, flip, h⟩ := Option.bind_eq_some_iff.mp h
  obtain ⟨_, rfl⟩ := flipSlot_eq flip
  refine inv.install spare ⟨Nat.le_refl _, inv.bound same⟩ (inv.unlisted same out) ?_ ?_ ?_ ?_ h
  · intro g gr ne other
    exact (inv.apart f g fr gr ne.symm same other).place
  · intro g gr ne other gout gtype
    exact Function.update_of_ne
      ((inv.apart f g fr gr ne.symm same other).index out gout type gtype).symm _ _
  · intro _ i hi
    rw [extent_page (by simp [type])] at hi
    exact swap i hi
  · intro other
    exact absurd type other

theorem Inv.loadBack {st st' : State} {f kpage : Nat} (inv : Inv st)
    (ok : ∀ fr ∈ st.frames f, st.TakeOk fr.thread) (h : st.loadBack f kpage = some st') :
    Inv st' := by
  obtain ⟨fr, frame, h⟩ := Option.bind_eq_some_iff.mp h
  have take := ok fr frame
  split at h
  · cases h
  · rename_i absent
    have out : fr.load = false := by
      rw [← (inv.page f fr frame).present]
      exact Bool.eq_false_iff.mpr absent
    split at h
    · rename_i type
      exact inv.fileBack frame out (by simp [type]) take h
    · rename_i type
      exact inv.fileBack frame out (by simp [type]) take h
    · rename_i type
      exact inv.pageBack frame out type take h

theorem Inv.installFile {st : State} {fr : Frame} (inv : Inv st) (out : fr.load = false)
    (type : fr.type ≠ .swap) (vacant : st.Vacant fr.thread fr.upage) : Inv (st.installFile fr) := by
  have loaded : fr.load ≠ true := by simp [out]
  have entry := setPte_self st fr.thread fr.upage
    { st.pagedir fr.thread fr.upage with present := false }
  have absent := inv.absent (Nat.le_refl st.next)
  have unseen := (inv.fresh st.next (Nat.le_refl _)).2
  refine inv.update rfl ?_ (fun g listed _ => listed) inv.nodup inv.free ?_ fun g gr ne other => ?_
  · intro g high
    exact ⟨Nat.le_of_succ_le high, Nat.ne_of_gt high, rfl⟩
  · exact {
      listed := ⟨fun listed => absurd listed absent, fun load => absurd load loaded⟩
      present := (congrArg Pte.present entry).trans out.symm
      mapped := fun load => absurd load loaded
      kept := fun load => absurd load loaded
      backed := fun relies => by
        have seen : st.seen st.next = true := relies.1
        rw [unseen] at seen
        cases seen
      stored := fun _ swap => absurd swap type }
  · have place := vacant g (inv.bound other) gr other
    have away := setPte_ne st { st.pagedir fr.thread fr.upage with present := false } fun both =>
      place ⟨both.1.symm, both.2.symm⟩
    refine ⟨⟨place, fun load => absurd load loaded, fun _ _ swap => absurd swap type⟩, ?_⟩
    exact {
      listed := Iff.rfl
      entry := .of_eq away
      free := fun _ => id
      mem := fun _ => rfl
      held := rfl
      seen := rfl
      files := fun _ _ _ => rfl
      slot := fun _ _ => ⟨rfl, rfl⟩ }

theorem Inv.installStack {st st' : State} {thread upage kpage : Nat} (inv : Inv st)
    (vacant : st.Vacant thread upage) (ok : st.TakeOk thread)
    (h : st.installStack thread upage kpage = some st') : Inv st' := by
  obtain ⟨mid, taken, h⟩ := Option.bind_eq_some_iff.mp h
  obtain ⟨inv, room, spare⟩ := inv.takePage ok taken
  have unseen := (inv.fresh mid.next (Nat.le_refl _)).2
  refine inv.install spare ⟨Nat.le_succ _, Nat.lt_succ_self _⟩ (inv.absent (Nat.le_refl _))
    ?_ ?_ ?_ ?_ h
  · intro g gr _ other
    exact room.vacant thread upage vacant g (inv.bound other) gr other
  · intro g gr _ _ _ _
    rfl
  · intro seen
    rw [unseen] at seen
    cases seen
  · intro other
    exact absurd rfl other

theorem Inv.store {st st' : State} {f i : Nat} {v : UInt8} (inv : Inv st)
    (h : st.store f i v = some st') : Inv st' := by
  obtain ⟨fr, frame, h⟩ := Option.bind_eq_some_iff.mp h
  have page := inv.page f fr frame
  dsimp only at h
  split at h
  · rename_i may
    obtain rfl := Option.some.inj h
    have load : fr.load = true := page.present.symm.trans may.1
    obtain ⟨kpage, used, seen⟩ := page.mapped load
    let pte := st.pagedir fr.thread fr.upage
    have entry := setPte_self st fr.thread fr.upage { pte with accessed := true, dirty := true }
    have frames : st.frames = Function.update st.frames f (some fr) := by
      rw [← frame, Function.update_eq_self]
    refine inv.update frames ?_ (fun g listed _ => listed) inv.nodup inv.free ?_
      fun g gr ne other => ?_
    · intro g high
      exact ⟨high, Nat.ne_of_gt (Nat.lt_of_lt_of_le (inv.bound frame) high), rfl⟩
    · exact {
        listed := page.listed
        present := (congrArg Pte.present entry).trans page.present
        mapped := fun _ => ⟨(congrArg Pte.kpage entry).trans kpage, used, seen⟩
        kept := by
          intro _ j hj
          show Function.update st.mem pte.kpage (Function.update (st.mem pte.kpage) i v) fr.kpage
            j = Function.update st.held f (Function.update (st.held f) i v) f j
          rw [kpage, Function.update_self, Function.update_self]
          by_cases here : j = i
          · rw [here, Function.update_self, Function.update_self]
          · rw [Function.update_of_ne here, Function.update_of_ne here]
            exact page.kept load j hj
        backed := by
          rintro ⟨_, _, clean⟩
          exact nomatch (congrArg Pte.dirty entry).symm.trans (clean load)
        stored := fun out => by
          rw [load] at out
          cases out }
    · have apart := inv.apart f g fr gr ne.symm frame other
      have away := setPte_ne st { pte with accessed := true, dirty := true } fun both =>
        apart.place ⟨both.1.symm, both.2.symm⟩
      refine ⟨apart, ?_⟩
      exact {
        listed := Iff.rfl
        entry := .of_eq away
        free := fun _ => id
        mem := fun gload => Function.update_of_ne (kpage ▸ (apart.kpage load gload).symm) _ _
        held := Function.update_of_ne ne _ _
        seen := rfl
        files := fun _ _ _ => rfl
        slot := fun _ _ => ⟨rfl, rfl⟩ }
  · cases h

theorem Inv.touch {st st' : State} {f : Nat} (inv : Inv st) (h : st.touch f = some st') :
    Inv st' := by
  obtain ⟨fr, frame, h⟩ := Option.bind_eq_some_iff.mp h
  dsimp only at h
  split at h
  · obtain rfl := Option.some.inj h
    let pte := st.pagedir fr.thread fr.upage
    refine ⟨inv.fresh, inv.table, inv.nodup, inv.free, inv.apart, fun g gr other => ?_⟩
    refine (inv.page g gr other).still {
      listed := Iff.rfl
      entry := ?_
      free := fun _ => id
      mem := fun _ => rfl
      held := rfl
      seen := rfl
      files := fun _ _ _ => rfl
      slot := fun _ _ => ⟨rfl, rfl⟩ }
    by_cases here : gr.thread = fr.thread ∧ gr.upage = fr.upage
    · rw [here.1, here.2, setPte_self]
      exact ⟨true, rfl⟩
    · exact .of_eq (setPte_ne st _ here)
  · cases h

end State

/-- Pages are mapped at addresses that hold no page yet. -/
def Placed (st : State) : Op → Prop
  | .installFile thread upage .. | .installStack thread upage _ => st.Vacant thread upage
  | _ => True

/-- The eviction that a step may take saves its page. -/
def Saving (st : State) : Op → Prop
  | .installStack thread .. => st.TakeOk thread
  | .evict thread => st.EvictOk thread
  | .loadBack f _ => ∀ fr ∈ st.frames f, st.TakeOk fr.thread
  | _ => True

def Careful (st : State) (op : Op) : Prop := Placed st op ∧ Saving st op

instance (st : State) : (op : Op) → Decidable (Placed st op)
  | .installFile thread upage .. => inferInstanceAs (Decidable (st.Vacant thread upage))
  | .installStack thread upage _ => inferInstanceAs (Decidable (st.Vacant thread upage))
  | .store .. | .touch _ | .evict _ | .loadBack .. => inferInstanceAs (Decidable True)

instance (st : State) : (op : Op) → Decidable (Saving st op)
  | .installStack thread .. => inferInstanceAs (Decidable (st.TakeOk thread))
  | .evict thread => inferInstanceAs (Decidable (st.EvictOk thread))
  | .loadBack f _ => inferInstanceAs (Decidable (∀ fr ∈ st.frames f, st.TakeOk fr.thread))
  | .installFile .. | .store .. | .touch _ => inferInstanceAs (Decidable True)

instance (st : State) (op : Op) : Decidable (Careful st op) := inferInstanceAs (Decidable (_ ∧ _))

theorem step_inv {st st' : State} {op : Op} (inv : st.Inv) (careful : Careful st op)
    (h : step st op = some st') : st'.Inv := by
  obtain ⟨placed, saving⟩ := careful
  cases op with
  | installFile thread upage type file ofs pageReadBytes writable =>
    simp only [step] at h
    split at h
    · rename_i may
      obtain rfl := Option.some.inj h
      exact inv.installFile rfl may.1 placed
    · cases h
  | installStack thread upage kpage => exact inv.installStack placed saving h
  | store f i v => exact inv.store h
  | touch f => exact inv.touch h
  | evict thread => exact inv.evict saving h
  | loadBack f kpage => exact inv.loadBack saving h

/-- A machine without pages. -/
structure Boot (st : State) : Prop where
  next : st.next = 0
  frames : ∀ f, st.frames f = none
  frameTable : st.frameTable = []
  pagedir : ∀ t u, st.pagedir t u = Pte.blank
  freePages : st.freePages.Nodup
  swapUsed : ∀ i, st.swapUsed i = false
  seen : ∀ f, st.seen f = false

theorem Boot.inv {st : State} (boot : Boot st) : st.Inv where
  fresh f _ := ⟨boot.frames f, boot.seen f⟩
  table f listed := by
    rw [boot.frameTable] at listed
    cases listed
  nodup := by
    rw [boot.frameTable]
    exact List.nodup_nil
  free := boot.freePages
  apart f g fr gr _ frame := by
    rw [boot.frames f] at frame
    cases frame
  page f fr frame := by
    rw [boot.frames f] at frame
    cases frame

/-- A process reads from a page what it last had in it. -/
def State.Preserved (st : State) : Prop :=
  ∀ f fr, st.frames f = some fr → (st.pagedir fr.thread fr.upage).present = true →
    ∀ i < fr.extent, st.mem (st.pagedir fr.thread fr.upage).kpage i = st.held f i

theorem State.Inv.preserved {st : State} (inv : st.Inv) : st.Preserved := by
  intro f fr frame present i hi
  have page := inv.page f fr frame
  have load : fr.load = true := page.present.symm.trans present
  rw [(page.mapped load).1]
  exact page.kept load i hi

theorem pages_survive_eviction {boot st : State} (start : Boot boot)
    (reach : Reach (Fires step) Careful (· = boot) st) : st.Preserved := by
  have inv : st.Inv := by
    refine reach.invariant (P := State.Inv) ?_ fun s op s' h careful hstep => ?_
    · rintro _ rfl
      exact start.inv
    · exact step_inv h careful hstep
  exact inv.preserved

/-- Two pages of memory, four slots of swap, and files of one page. -/
def smallMachine : State where
  frames := fun _ => none
  next := 0
  frameTable := []
  pagedir := fun _ _ => Pte.blank
  mem := fun _ _ => 0
  freePages := [1, 2]
  swapSize := 4
  swapUsed := fun _ => false
  swap := fun _ _ => 0
  files := fun _ _ => 0
  fileLength := fun _ => 4096
  denied := fun _ => false
  held := fun _ _ => 0
  seen := fun _ => false

theorem smallMachine_boot : Boot smallMachine :=
  ⟨rfl, fun _ => rfl, rfl, fun _ _ => rfl, by decide, fun _ => rfl, fun _ => rfl⟩

/-- A process writes to a page of its executable and to a mapped file, evicts both and loads them
back, one from swap and one from its file. -/
theorem pages_survive_eviction_by_owner : ∃ st : State,
    Reach (Fires step) Careful (· = smallMachine) st ∧ st.Preserved ∧ st.mem 1 0 = 7 ∧
      st.mem 2 0 = 9 := by
  obtain ⟨st, reach, first, second⟩ : ∃ st : State,
      Reach (Fires step) Careful (· = smallMachine) st ∧ st.mem 1 0 = 7 ∧ st.mem 2 0 = 9 :=
    Reach.eval [.installFile 0 8 .file 0 0 1 true, .installFile 0 9 .mmap 1 0 1 true,
      .loadBack 0 1, .loadBack 1 2, .store 0 0 7, .store 1 0 9, .evict 0, .evict 0,
      .loadBack 1 2, .loadBack 0 1] (by decide)
  exact ⟨st, reach, pages_survive_eviction smallMachine_boot reach, first, second⟩

/-- Process 0 writes to a page of its executable, and process 1, which has no dirty bit for the
address, evicts the page: it is dropped, and comes back as it is in the file. -/
theorem eviction_by_other_loses_page : ¬∀ boot st : State, Boot boot →
    Reach (Fires step) Placed (· = boot) st → st.Preserved := by
  intro claim
  obtain ⟨st, reach, frame, present, read, held⟩ : ∃ st : State,
      Reach (Fires step) Placed (· = smallMachine) st ∧
        st.frames 0 = some ⟨0, 8, 1, true, .file, 0, 0, 1, true, noIndex⟩ ∧
        (st.pagedir 0 8).present = true ∧ st.mem (st.pagedir 0 8).kpage 0 = 0 ∧ st.held 0 0 = 7 :=
    Reach.eval [.installFile 0 8 .file 0 0 1 true, .loadBack 0 1, .store 0 0 7, .evict 1,
      .loadBack 0 1] (by decide)
  have same := claim _ st smallMachine_boot reach 0 _ frame present 0 (by decide)
  rw [read, held] at same
  cases same

end Pintos.Vm
