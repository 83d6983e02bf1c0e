import Pintos.Vm.Paging

/-! The slots of the swap device over whole runs: which bits of `swap_bitmap` are set, and what the
slots hold. -/

namespace Pintos.Vm

open Words Transition

/-- The page is in swap. -/
def Frame.Out (fr : Frame) : Prop := fr.load = false ∧ fr.type = .swap

instance (fr : Frame) : Decidable fr.Out := inferInstanceAs (Decidable (_ ∧ _))

/-- The machine, with what each page held when it was last written to swap. -/
structure Swapped where
  st : State
  out : Nat → Bytes

/-- The pages that a step writes to swap are those in memory before and in swap after it. -/
def recordOut (st st' : State) (out : Nat → Bytes) (f : Nat) : Bytes :=
  match st.frames f, st'.frames f with
  | some fr, some fr' => if fr.load = true ∧ fr'.Out then st.mem fr.kpage else out f
  | _, _ => out f

inductive SlotOp
  | page (op : Op)
  | fault (thread upage kpage : Nat)
  | free (f : Nat)

def slotRun (st : State) : SlotOp → Option State
  | .page op => step st op
  | .fault thread upage kpage => st.pageFault thread upage kpage
  | .free f => st.freePage f

def slotStep (s : Swapped) (op : SlotOp) : Option Swapped :=
  (slotRun s.st op).map fun st' => ⟨st', recordOut s.st st' s.out⟩

/-- Pages are mapped at addresses that hold no page yet. -/
def SlotPlaced (s : Swapped) : SlotOp → Prop
  | .page op => Placed s.st op
  | _ => True

instance (s : Swapped) : (op : SlotOp) → Decidable (SlotPlaced s op)
  | .page op => inferInstanceAs (Decidable (Placed s.st op))
  | .fault .. | .free _ => inferInstanceAs (Decidable True)

/-- A page that is in swap has a slot of its own, with what it held when it went there. -/
structure SlotOk (st : State) (out : Nat → Bytes) (f : Nat) (fr : Frame) : Prop where
  listed : f ∈ st.frameTable ↔ fr.load = true
  present : (st.pagedir fr.thread fr.upage).present = fr.load
  stored : fr.Out → st.swapUsed fr.index = true ∧ fr.index < st.swapSize ∧
    ∀ i < pgsize, st.swap fr.index i = out f i
  bare : fr.type = .mmap → fr.index = noIndex

/-- Two frames at different addresses, not with the same slot. -/
def Elsewhere (fr gr : Frame) : Prop :=
  ¬(fr.thread = gr.thread ∧ fr.upage = gr.upage) ∧ (fr.Out → gr.Out → fr.index ≠ gr.index)

theorem Elsewhere.symm {fr gr : Frame} (h : Elsewhere fr gr) : Elsewhere gr fr :=
  ⟨fun both => h.1 ⟨both.1.symm, both.2.symm⟩, fun g f => (h.2 f g).symm⟩

structure SlotInv (slots : Nat) (st : State) (out : Nat → Bytes) : Prop where
  small : st.swapSize = slots ∧ slots ≤ noIndex
  fresh : ∀ f, st.next ≤ f → st.frames f = none
  table : ∀ f ∈ st.frameTable, ∃ fr, st.frames f = some fr
  nodup : st.frameTable.Nodup
  elsewhere : ∀ f g fr gr, f ≠ g → st.frames f = some fr → st.frames g = some gr →
    Elsewhere fr gr
  owner : ∀ i, st.swapUsed i = true → ∃ f fr, st.frames f = some fr ∧ fr.Out ∧ fr.index = i
  page : ∀ f fr, st.frames f = some fr → SlotOk st out f fr

/-- A step leaves a page and its slot as they are. -/
structure SlotStill (st st' : State) (out out' : Nat → Bytes) (g : Nat) (gr : Frame) : Prop where
  listed : g ∈ st'.frameTable ↔ g ∈ st.frameTable
  present : (st'.pagedir gr.thread gr.upage).present = (st.pagedir gr.thread gr.upage).present
  slot : gr.Out → st'.swapUsed gr.index = st.swapUsed gr.index ∧
    st'.swap gr.index = st.swap gr.index ∧ out' g = out g

theorem SlotOk.still {st st' : State} {out out' : Nat → Bytes} {g : Nat} {gr : Frame}
    (ok : SlotOk st out g gr) (size : st'.swapSize = st.swapSize)
    (h : SlotStill st st' out out' g gr) : SlotOk st' out' g gr where
  listed := h.listed.trans ok.listed
  present := h.present.trans ok.present
  stored isOut := by
    obtain ⟨used, swap, same⟩ := h.slot isOut
    rw [used, swap, same, size]
    exact ok.stored isOut
  bare := ok.bare

section Rules

variable {slots : Nat} {st st' : State} {out out' : Nat → Bytes}

/-- A step that gives one frame a new value, or frees it, and leaves the others as they are. -/
theorem SlotInv.update {f : Nat} {value : Option Frame} (inv : SlotInv slots st out)
    (size : st'.swapSize = st.swapSize)
    (frames : st'.frames = Function.update st.frames f value)
    (fresh : ∀ g, st'.next ≤ g → st.next ≤ g ∧ g ≠ f)
    (table : ∀ g ∈ st'.frameTable, g ∈ st.frameTable ∨ g = f ∧ value.isSome)
    (freed : value = none → f ∉ st'.frameTable) (nodup : st'.frameTable.Nodup)
    (self : ∀ fr, value = some fr → SlotOk st' out' f fr)
    (others : ∀ g gr, g ≠ f → st.frames g = some gr → SlotStill st st' out out' g gr ∧
      ∀ fr, value = some fr → Elsewhere fr gr)
    (owner : ∀ i, st'.swapUsed i = true → (∃ fr, value = some fr ∧ fr.Out ∧ fr.index = i) ∨
      ∃ g gr, g ≠ f ∧ st.frames g = some gr ∧ gr.Out ∧ gr.index = i) : SlotInv slots st' out' := by
  have here : st'.frames f = value := by rw [frames, Function.update_self]
  have there : ∀ g, g ≠ f → st'.frames g = st.frames g := fun g ne => by
    rw [frames, Function.update_of_ne ne]
  exact {
    small := ⟨size.trans inv.small.1, inv.small.2⟩
    fresh := by
      intro g high
      obtain ⟨before, ne⟩ := fresh g high
      rw [there g ne]
      exact inv.fresh g before
    table := by
      intro g listed
      by_cases eq : g = f
      · subst eq
        rw [here]
        cases v : value with
        | none => exact absurd listed (freed v)
        | some fr => exact ⟨fr, rfl⟩
      · rw [there g eq]
        exact inv.table g ((table g listed).resolve_right fun last => eq last.1)
    nodup := nodup
    elsewhere := by
      intro a b ar br ne ha hb
      by_cases ea : a = f
      · subst ea
        rw [there b ne.symm] at hb
        exact (others b br ne.symm hb).2 ar (here.symm.trans ha)
      · rw [there a ea] at ha
        by_cases eb : b = f
        · subst eb
          exact ((others a ar ea ha).2 br (here.symm.trans hb)).symm
        · exact inv.elsewhere a b ar br ne ha ((there b eb).symm.trans hb)
    owner := by
      intro i used
      obtain ⟨fr, eq, isOut, index⟩ | ⟨g, gr, ne, frame, isOut, index⟩ := owner i used
      · exact ⟨f, fr, here.trans eq, isOut, index⟩
      · exact ⟨g, gr, (there g ne).trans frame, isOut, index⟩
    page := by
      intro g gr frame
      by_cases eq : g = f
      · subst eq
        exact self gr (here.symm.trans frame)
      · rw [there g eq] at frame
        exact (inv.page g gr frame).still size (others g gr eq frame).1 }

/-- A step that changes no frame and no slot. -/
theorem SlotInv.same (inv : SlotInv slots st out) (size : st'.swapSize = st.swapSize)
    (frames : st'.frames = st.frames) (next : st'.next = st.next)
    (table : st'.frameTable = st.frameTable)
    (present : ∀ t u, (st'.pagedir t u).present = (st.pagedir t u).present)
    (used : st'.swapUsed = st.swapUsed) (swap : st'.swap = st.swap) : SlotInv slots st' out where
  small := ⟨size.trans inv.small.1, inv.small.2⟩
  fresh f high := by
    rw [frames]
    exact inv.fresh f (next ▸ high)
  table f listed := by
    rw [frames]
    exact inv.table f (table ▸ listed)
  nodup := table ▸ inv.nodup
  elsewhere f g fr gr ne hf hg := inv.elsewhere f g fr gr ne (frames ▸ hf) (frames ▸ hg)
  owner i set := by
    rw [frames]
    exact inv.owner i (used ▸ set)
  page f fr frame := by
    refine (inv.page f fr (frames ▸ frame)).still size ⟨by rw [table], present _ _, fun _ => ?_⟩
    exact ⟨by rw [used], by rw [swap], rfl⟩

theorem SlotInv.bound (inv : SlotInv slots st out) {f : Nat} {fr : Frame}
    (h : st.frames f = some fr) :
    f < st.next := by
  by_contra high
  rw [inv.fresh f (Nat.not_lt.mp high)] at h
  cases h

theorem SlotInv.unlisted (inv : SlotInv slots st out) {f : Nat} {fr : Frame}
    (frame : st.frames f = some fr) (unloaded : fr.load = false) : f ∉ st.frameTable := by
  intro listed
  rw [(inv.page f fr frame).listed.mp listed] at unloaded
  cases unloaded

theorem SlotInv.absent (inv : SlotInv slots st out) {f : Nat} (high : st.next ≤ f) :
    f ∉ st.frameTable := by
  intro listed
  obtain ⟨fr, frame⟩ := inv.table f listed
  rw [inv.fresh f high] at frame
  cases frame

/-- An unused slot is the slot of no page. -/
theorem SlotInv.unused (inv : SlotInv slots st out) {i g : Nat} {gr : Frame}
    (unused : st.swapUsed i = false) (frame : st.frames g = some gr) (isOut : gr.Out) :
    gr.index ≠ i := by
  rintro rfl
  rw [((inv.page g gr frame).stored isOut).1] at unused
  cases unused

/-- The owners of the slots are other pages than one that is not in swap. -/
theorem SlotInv.owner_ne (inv : SlotInv slots st out) {f i : Nat}
    (notOut : ∀ fr, st.frames f = some fr → ¬fr.Out) (used : st.swapUsed i = true) :
    ∃ g gr, g ≠ f ∧ st.frames g = some gr ∧ gr.Out ∧ gr.index = i := by
  obtain ⟨g, gr, frame, isOut, index⟩ := inv.owner i used
  refine ⟨g, gr, ?_, frame, isOut, index⟩
  rintro rfl
  exact notOut gr frame isOut

/-- With the bit of a page flipped, the owners of the slots are other pages. -/
theorem SlotInv.owner_flip (inv : SlotInv slots st out) {f i : Nat} {fr : Frame}
    (frame : st.frames f = some fr) (isOut : fr.Out)
    (set : Function.update st.swapUsed fr.index (!st.swapUsed fr.index) i = true) :
    ∃ g gr, g ≠ f ∧ st.frames g = some gr ∧ gr.Out ∧ gr.index = i := by
  have ne : i ≠ fr.index := by
    rintro rfl
    rw [Function.update_self, ((inv.page f fr frame).stored isOut).1] at set
    cases set
  rw [Function.update_of_ne ne] at set
  obtain ⟨g, gr, other, gout, index⟩ := inv.owner i set
  refine ⟨g, gr, ?_, other, gout, index⟩
  rintro rfl
  obtain rfl := Option.some.inj (frame.symm.trans other)
  exact ne index.symm

/-- A page that a step does not take from memory to swap keeps its record. -/
theorem recordOut_kept {f : Nat} (h : ∀ fr fr', st.frames f = some fr → st'.frames f = some fr' →
    fr.load = true → ¬fr'.Out) : recordOut st st' out f = out f := by
  unfold recordOut
  split
  · rename_i fr fr' before after
    exact if_neg fun both => h fr fr' before after both.1 both.2
  · rfl

theorem recordOut_same {f : Nat} (same : st'.frames f = st.frames f) :
    recordOut st st' out f = out f := by
  refine recordOut_kept fun fr fr' before after load isOut => ?_
  obtain rfl := Option.some.inj (before.symm.trans (same.symm.trans after))
  rw [isOut.1] at load
  cases load

theorem recordOut_unloaded {f : Nat} (h : ∀ fr, st.frames f = some fr → fr.load = false) :
    recordOut st st' out f = out f := by
  refine recordOut_kept fun fr fr' before _ load => ?_
  rw [h fr before] at load
  cases load

theorem SlotInv.evict {thread : Nat} (inv : SlotInv slots st out) (h : st.evict thread = some st') :
    SlotInv slots st' (recordOut st st' out) := by
  obtain ⟨f, fr, fr', victim, frame, e⟩ := State.evict_evicted h
  have page := inv.page f fr frame
  have load : fr.load = true := page.listed.mp (State.victim_mem victim)
  obtain ⟨owner, upage, unloaded, _⟩ := e.saved.frame
  have after : st'.frames f = some fr' := by rw [e.frames, Function.update_self]
  have notOut : ∀ gr, st.frames f = some gr → ¬gr.Out := by
    intro gr same isOut
    obtain rfl := Option.some.inj (frame.symm.trans same)
    rw [isOut.1] at load
    cases load
  have absent : f ∉ st'.frameTable := by
    rw [e.frameTable]
    exact inv.nodup.not_mem_erase
  refine inv.update e.swapSize e.frames ?_ ?_ (fun eq => nomatch eq) ?_ ?_ ?_ ?_
  · intro g high
    rw [e.next] at high
    exact ⟨high, Nat.ne_of_gt (Nat.lt_of_lt_of_le (inv.bound frame) high)⟩
  · intro g listed
    rw [e.frameTable] at listed
    exact .inl (List.mem_of_mem_erase listed)
  · rw [e.frameTable]
    exact inv.nodup.erase f
  · rintro _ ⟨⟩
    refine ⟨⟨fun listed => absurd listed absent, fun h => ?_⟩, ?_, fun isOut => ?_, fun mmap => ?_⟩
    · rw [unloaded] at h
      cases h
    · rw [owner, upage, unloaded, e.cleared]
    · have record : recordOut st st' out f = st.mem fr.kpage := by
        simp only [recordOut, frame, after, if_pos (And.intro load isOut)]
      rw [record, e.swapSize]
      cases e.saved with
      | dropped other => exact absurd isOut.2 other
      | written mmap => exact absurd isOut.2 (by simp [mmap])
      | swapped i other unused files swap used =>
        rw [used, swap, Function.update_self, Function.update_self]
        exact ⟨rfl, unused.2, fun _ _ => rfl⟩
    · cases e.saved with
      | dropped => exact page.bare mmap
      | written => exact page.bare mmap
      | swapped => cases mmap
  · intro g gr ne other
    have apart := inv.elsewhere f g fr gr ne.symm frame other
    have away := e.others gr.thread gr.upage fun both => apart.1 ⟨both.1.symm, both.2.symm⟩
    have same : st'.frames g = st.frames g := by rw [e.frames, Function.update_of_ne ne]
    refine ⟨⟨?_, away.present, fun isOut => ?_⟩, ?_⟩
    · rw [e.frameTable]
      exact List.mem_erase_of_ne ne
    · rw [recordOut_same same]
      cases e.saved with
      | dropped _ _ _ swap used => exact ⟨by rw [used], by rw [swap], rfl⟩
      | written _ _ _ swap used => exact ⟨by rw [used], by rw [swap], rfl⟩
      | swapped i _ unused _ swap used =>
        have ne := inv.unused unused.1 other isOut
        rw [used, swap, Function.update_of_ne ne, Function.update_of_ne ne]
        exact ⟨rfl, rfl, rfl⟩
    · rintro _ ⟨⟩
      refine ⟨by rw [owner, upage]; exact apart.1, fun isOut gout => ?_⟩
      cases e.saved with
      | dropped other => exact absurd isOut.2 other
      | written mmap => exact absurd isOut.2 (by simp [mmap])
      | swapped i _ unused => exact (inv.unused unused.1 other gout).symm
  · intro i set
    cases e.saved with
    | dropped _ _ _ swap used => exact .inr (inv.owner_ne notOut (used ▸ set))
    | written _ _ _ swap used => exact .inr (inv.owner_ne notOut (used ▸ set))
    | swapped j _ _ _ swap used =>
      by_cases here : i = j
      · exact .inl ⟨_, rfl, ⟨rfl, rfl⟩, here.symm⟩
      · rw [used, Function.update_of_ne here] at set
        exact .inr (inv.owner_ne notOut set)

theorem SlotInv.takePage {thread kpage : Nat} (inv : SlotInv slots st out)
    (h : st.takePage thread kpage = some st') :
    SlotInv slots st' (recordOut st st' out) ∧ State.Room st st' := by
  obtain ⟨mid, room, h⟩ := Option.bind_eq_some_iff.mp h
  have made : SlotInv slots mid (recordOut st mid out) ∧ State.Room st mid := by
    unfold State.makeRoom at room
    split at room
    · have loaded : ∀ f ∈ st.frameTable, ∀ fr, st.frames f = some fr → fr.load = true :=
        fun f listed fr frame => (inv.page f fr frame).listed.mp listed
      exact ⟨inv.evict room, State.evict_room loaded room⟩
    · obtain rfl := Option.some.inj room
      have same : recordOut st st out = out := funext fun f => recordOut_same rfl
      exact ⟨same.symm ▸ inv, State.Room.refl st⟩
  split at h
  · obtain rfl := Option.some.inj h
    exact ⟨made.1.same rfl rfl rfl rfl (fun _ _ => rfl) rfl rfl,
      made.2.next, made.2.vacant, made.2.idle⟩
  · cases h

/-- What comes after a page was taken brings no page to swap. -/
theorem recordOut_congr {mid : State} (h : ∀ g, st'.frames g = mid.frames g ∨
    ∀ fr, st.frames g = some fr → fr.load = false) :
    recordOut st st' out = recordOut st mid out := by
  funext g
  rcases h g with same | unloaded
  · unfold recordOut
    rw [same]
  · rw [recordOut_unloaded unloaded, recordOut_unloaded unloaded]

theorem install_frames {f kpage : Nat} {fr : Frame} {c : Bytes}
    (h : st.install f fr kpage c = some st') :
    st'.frames = Function.update st.frames f (some { fr with kpage := kpage, load := true }) ∧
      st'.mem kpage = c := by
  unfold State.install at h
  split at h
  · cases h
  · obtain rfl := Option.some.inj h
    exact ⟨rfl, Function.update_self _ _ _⟩

theorem SlotInv.install {f n kpage : Nat} {fr : Frame} {c : Bytes} {u : Nat → Bool}
    (inv : SlotInv slots st out) (bound : st.next ≤ n ∧ f < n) (idle : f ∉ st.frameTable)
    (bare : fr.type = .mmap → fr.index = noIndex)
    (alone : ∀ g gr, g ≠ f → st.frames g = some gr →
      ¬(fr.thread = gr.thread ∧ fr.upage = gr.upage))
    (used : ∀ g gr, g ≠ f → st.frames g = some gr → gr.Out →
      u gr.index = st.swapUsed gr.index)
    (owner : ∀ i, u i = true → ∃ g gr, g ≠ f ∧ st.frames g = some gr ∧ gr.Out ∧ gr.index = i)
    (h : ({ st with next := n, swapUsed := u } : State).install f fr kpage c = some st') :
    SlotInv slots st' out := by
  unfold State.install at h
  split at h
  · cases h
  obtain rfl := Option.some.inj h
  have entry := State.setPte_self st fr.thread fr.upage ⟨true, kpage, fr.writable, false, false⟩
  refine inv.update rfl rfl ?_ ?_ (fun eq => nomatch eq) ?_ ?_ ?_ ?_
  · intro g high
    exact ⟨Nat.le_trans bound.1 high, Nat.ne_of_gt (Nat.lt_of_lt_of_le bound.2 high)⟩
  · intro g listed
    refine (List.mem_append.mp listed).imp_right fun last => ?_
    exact ⟨List.mem_singleton.mp last, rfl⟩
  · exact List.nodup_append.mpr ⟨inv.nodup, List.nodup_singleton f, fun a ha b hb eq =>
      idle (List.mem_singleton.mp hb ▸ eq ▸ ha)⟩
  · rintro _ ⟨⟩
    exact ⟨⟨fun _ => rfl, fun _ => List.mem_append_right _ (List.mem_singleton_self f)⟩,
      congrArg Pte.present entry, fun isOut => (by cases isOut.1), bare⟩
  · intro g gr ne frame
    have place := alone g gr ne frame
    have away := State.setPte_ne st ⟨true, kpage, fr.writable, false, false⟩ fun both =>
      place ⟨both.1.symm, both.2.symm⟩
    refine ⟨⟨?_, congrArg Pte.present away, fun isOut => ⟨used g gr ne frame isOut, rfl, rfl⟩⟩, ?_⟩
    · show g ∈ st.frameTable ++ [f] ↔ _
      simp [ne]
    · rintro _ ⟨⟩
      exact ⟨place, fun isOut => (by cases isOut.1)⟩
  · intro i set
    exact .inr (owner i set)

theorem SlotInv.fileBack {f kpage : Nat} {fr : Frame} (inv : SlotInv slots st out)
    (frame : st.frames f = some fr) (unloaded : fr.load = false) (type : fr.type ≠ .swap)
    (h : st.fileBack f fr.thread kpage = some st') : SlotInv slots st' (recordOut st st' out) := by
  obtain ⟨mid, taken, h⟩ := Option.bind_eq_some_iff.mp h
  obtain ⟨made, room⟩ := inv.takePage taken
  have same := room.idle f fr frame unloaded
  obtain ⟨fr', again, h⟩ := Option.bind_eq_some_iff.mp h
  obtain rfl := Option.some.inj (same.symm.trans again)
  have notOut : ∀ gr, mid.frames f = some gr → ¬gr.Out := by
    intro gr eq isOut
    obtain rfl := Option.some.inj (same.symm.trans eq)
    exact type isOut.2
  have idle : ∀ g, g ≠ f ∨ ∀ gr, st.frames g = some gr → gr.load = false := by
    intro g
    by_cases eq : g = f
    · subst eq
      right
      intro gr eq
      obtain rfl := Option.some.inj (frame.symm.trans eq)
      exact unloaded
    · exact .inl eq
  have page := made.page f fr same
  have elsewhere := fun g gr (ne : g ≠ f) other =>
    made.elsewhere f g fr gr ne.symm same other
  split at h
  · obtain rfl := Option.some.inj h
    rw [recordOut_congr fun g => (idle g).imp_left fun ne => Function.update_of_ne ne _ _]
    refine made.update rfl rfl ?_ (fun g listed => .inl listed) (fun eq => nomatch eq) made.nodup
      ?_ (fun g gr ne other => ⟨⟨Iff.rfl, rfl, fun _ => ⟨rfl, rfl, rfl⟩⟩, ?_⟩) ?_
    · intro g high
      exact ⟨high, Nat.ne_of_gt (Nat.lt_of_lt_of_le (made.bound same) high)⟩
    · rintro _ ⟨⟩
      exact ⟨page.listed, page.present, page.stored, page.bare⟩
    · rintro _ ⟨⟩
      exact elsewhere g gr ne other
    · intro i set
      exact .inr (made.owner_ne notOut set)
  · have frames := (install_frames h).1
    have record : recordOut st st' out = recordOut st mid out := by
      refine recordOut_congr fun g => (idle g).imp_left fun ne => ?_
      rw [frames, Function.update_of_ne ne]
    rw [record]
    exact made.install ⟨Nat.le_refl _, made.bound same⟩ (made.unlisted same unloaded) page.bare
      (fun g gr ne other => (elsewhere g gr ne other).1) (fun _ _ _ _ _ => rfl)
      (fun i set => made.owner_ne notOut set) h

/-- `page_back` brings back what the page held when it was written to swap, and its slot is free
again. -/
theorem SlotInv.pageBack {f kpage : Nat} {fr : Frame} (inv : SlotInv slots st out)
    (frame : st.frames f = some fr) (isOut : fr.Out)
    (h : st.pageBack f fr.thread kpage = some st') :
    SlotInv slots st' (recordOut st st' out) ∧
      st'.frames f = some { fr with kpage := kpage, load := true } ∧
      ∀ i < pgsize, st'.mem kpage i = out f i := by
  obtain ⟨mid, taken, h⟩ := Option.bind_eq_some_iff.mp h
  obtain ⟨made, room⟩ := inv.takePage taken
  have same := room.idle f fr frame isOut.1
  obtain ⟨fr', again, h⟩ := Option.bind_eq_some_iff.mp h
  obtain rfl := Option.some.inj (same.symm.trans again)
  obtain ⟨flipped, flip, h⟩ := Option.bind_eq_some_iff.mp h
  obtain ⟨_, rfl⟩ := State.flipSlot_eq flip
  obtain ⟨frames, mem⟩ := install_frames h
  have idle : ∀ gr, st.frames f = some gr → gr.load = false := by
    intro gr eq
    obtain rfl := Option.some.inj (frame.symm.trans eq)
    exact isOut.1
  have page := made.page f fr same
  obtain ⟨_, _, swap⟩ := page.stored isOut
  have elsewhere := fun g gr (ne : g ≠ f) other =>
    made.elsewhere f g fr gr ne.symm same other
  refine ⟨?_, by rw [frames, Function.update_self], fun i hi => ?_⟩
  · have record : recordOut st st' out = recordOut st mid out := by
      refine recordOut_congr fun g => ?_
      by_cases eq : g = f
      · exact .inr (eq ▸ idle)
      · exact .inl (by rw [frames, Function.update_of_ne eq])
    rw [record]
    refine made.install ⟨Nat.le_refl _, made.bound same⟩ (made.unlisted same isOut.1) page.bare
      (fun g gr ne other => (elsewhere g gr ne other).1) ?_
      (fun i set => made.owner_flip same isOut set) h
    intro g gr ne other gout
    exact Function.update_of_ne ((elsewhere g gr ne other).2 isOut gout).symm _ _
  · rw [mem, swap i hi, recordOut_unloaded idle]

theorem SlotInv.loadBack {f kpage : Nat} (inv : SlotInv slots st out)
    (h : st.loadBack f kpage = some st') : SlotInv slots st' (recordOut st st' out) := by
  obtain ⟨fr, frame, h⟩ := Option.bind_eq_some_iff.mp h
  split at h
  · cases h
  · rename_i absent
    have unloaded : fr.load = false := by
      rw [← (inv.page f fr frame).present]
      exact Bool.eq_false_iff.mpr absent
    split at h
    · rename_i type
      exact inv.fileBack frame unloaded (by simp [type]) h
    · rename_i type
      exact inv.fileBack frame unloaded (by simp [type]) h
    · rename_i type
      exact (inv.pageBack frame ⟨unloaded, type⟩ h).1

theorem SlotInv.installFile {fr : Frame} (inv : SlotInv slots st out) (unloaded : fr.load = false)
    (type : fr.type ≠ .swap) (bare : fr.index = noIndex)
    (vacant : st.Vacant fr.thread fr.upage) : SlotInv slots (st.installFile fr) out := by
  have entry := State.setPte_self st fr.thread fr.upage
    { st.pagedir fr.thread fr.upage with present := false }
  have notOut : ¬fr.Out := fun isOut => type isOut.2
  refine inv.update rfl rfl ?_ (fun g listed => .inl listed) (fun eq => nomatch eq) inv.nodup
    ?_ (fun g gr ne other => ?_) ?_
  · intro g high
    exact ⟨Nat.le_of_succ_le high, Nat.ne_of_gt high⟩
  · rintro _ ⟨⟩
    refine ⟨⟨fun listed => absurd listed (inv.absent (Nat.le_refl _)), fun load => ?_⟩,
      (congrArg Pte.present entry).trans unloaded.symm, fun isOut => absurd isOut notOut,
      fun _ => bare⟩
    rw [unloaded] at load
    cases load
  · have place := vacant g (inv.bound other) gr other
    have away := State.setPte_ne st { st.pagedir fr.thread fr.upage with present := false }
      fun both => place ⟨both.1.symm, both.2.symm⟩
    refine ⟨⟨Iff.rfl, congrArg Pte.present away, fun _ => ⟨rfl, rfl, rfl⟩⟩, ?_⟩
    rintro _ ⟨⟩
    exact ⟨place, fun isOut => absurd isOut notOut⟩
  · intro i set
    refine .inr (inv.owner_ne (fun gr eq => ?_) set)
    rw [inv.fresh st.next (Nat.le_refl _)] at eq
    cases eq

theorem SlotInv.installStack {thread upage kpage : Nat} (inv : SlotInv slots st out)
    (vacant : st.Vacant thread upage) (h : st.installStack thread upage kpage = some st') :
    SlotInv slots st' (recordOut st st' out) := by
  obtain ⟨mid, taken, h⟩ := Option.bind_eq_some_iff.mp h
  obtain ⟨made, room⟩ := inv.takePage taken
  have missing : mid.frames mid.next = none := made.fresh _ (Nat.le_refl _)
  have frames := (install_frames h).1
  have record : recordOut st st' out = recordOut st mid out := by
    refine recordOut_congr fun g => ?_
    by_cases eq : g = mid.next
    · right
      intro gr before
      rw [inv.fresh g (eq ▸ Nat.le_of_eq room.next.symm)] at before
      cases before
    · left
      rw [frames, Function.update_of_ne eq]
  rw [record]
  refine made.install ⟨Nat.le_succ _, Nat.lt_succ_self _⟩ (made.absent (Nat.le_refl _))
    (fun mmap => (by cases mmap)) ?_ (fun _ _ _ _ _ => rfl) ?_ h
  · intro g gr _ other
    exact room.vacant thread upage vacant g (made.bound other) gr other
  · intro i set
    refine made.owner_ne (fun gr eq => ?_) set
    rw [missing] at eq
    cases eq

theorem SlotInv.store {f i : Nat} {v : UInt8} (inv : SlotInv slots st out)
    (h : st.store f i v = some st') : SlotInv slots st' out ∧ st'.frames = st.frames := by
  obtain ⟨fr, frame, h⟩ := Option.bind_eq_some_iff.mp h
  dsimp only at h
  split at h
  · obtain rfl := Option.some.inj h
    exact ⟨inv.same rfl rfl rfl rfl (State.setPte_present st rfl) rfl rfl, rfl⟩
  · cases h

theorem SlotInv.touch {f : Nat} (inv : SlotInv slots st out) (h : st.touch f = some st') :
    SlotInv slots st' out ∧ st'.frames = st.frames := by
  obtain ⟨fr, frame, h⟩ := Option.bind_eq_some_iff.mp h
  dsimp only at h
  split at h
  · obtain rfl := Option.some.inj h
    exact ⟨inv.same rfl rfl rfl rfl (State.setPte_present st rfl) rfl rfl, rfl⟩
  · cases h

theorem SlotInv.freePage {f : Nat} (inv : SlotInv slots st out) (h : st.freePage f = some st') :
    SlotInv slots st' out ∧ st'.frames = Function.update st.frames f none := by
  obtain ⟨fr, frame, h⟩ := Option.bind_eq_some_iff.mp h
  have page := inv.page f fr frame
  have fresh : ∀ g, st.next ≤ g → st.next ≤ g ∧ g ≠ f := fun g high =>
    ⟨high, Nat.ne_of_gt (Nat.lt_of_lt_of_le (inv.bound frame) high)⟩
  by_cases load : fr.load = true
  · simp only [load, if_true, State.frameFree] at h
    obtain rfl := Option.some.inj h
    refine ⟨inv.update rfl rfl fresh (fun g listed => .inl (List.mem_of_mem_erase listed))
      (fun _ => inv.nodup.not_mem_erase) (inv.nodup.erase f) (fun _ eq => nomatch eq)
      (fun g gr ne other => ⟨⟨List.mem_erase_of_ne ne, ?_, fun _ => ⟨rfl, rfl, rfl⟩⟩,
        fun _ eq => nomatch eq⟩) fun i set => .inr ?_, rfl⟩
    · have place := (inv.elsewhere g f gr fr ne other frame).1
      exact congrArg Pte.present (State.setPte_ne st _ place)
    · refine inv.owner_ne (fun gr eq isOut => ?_) set
      obtain rfl := Option.some.inj (frame.symm.trans eq)
      rw [isOut.1] at load
      cases load
  · have unloaded : fr.load = false := Bool.eq_false_iff.mpr load
    have absent := inv.unlisted frame unloaded
    simp only [unloaded, State.frameFree, Bool.false_eq_true, if_false] at h
    split at h
    · rename_i has
      obtain ⟨_, rfl⟩ := State.flipSlot_eq h
      -- Mapped files have no slot, so the page was in swap and the bit was its own.
      have isOut : fr.Out := by
        refine ⟨unloaded, ?_⟩
        cases type : fr.type with
        | file => exact absurd type has.1
        | mmap => exact absurd (page.bare type) has.2
        | swap => rfl
      refine ⟨inv.update rfl rfl fresh (fun g listed => .inl listed) (fun _ => absent) inv.nodup
        (fun _ eq => nomatch eq)
        (fun g gr ne other => ⟨⟨Iff.rfl, rfl, fun gout => ⟨?_, rfl, rfl⟩⟩, fun _ eq => nomatch eq⟩)
        fun i set => .inr (inv.owner_flip frame isOut set), rfl⟩
      have apart := (inv.elsewhere g f gr fr ne other frame).2 gout isOut
      exact Function.update_of_ne apart _ _
    · rename_i none
      obtain rfl := Option.some.inj h
      refine ⟨inv.update rfl rfl fresh (fun g listed => .inl listed) (fun _ => absent) inv.nodup
        (fun _ eq => nomatch eq)
        (fun g gr ne other => ⟨⟨Iff.rfl, rfl, fun _ => ⟨rfl, rfl, rfl⟩⟩, fun _ eq => nomatch eq⟩)
        fun i set => .inr (inv.owner_ne (fun gr eq isOut => none ?_) set), rfl⟩
      obtain rfl := Option.some.inj (frame.symm.trans eq)
      have bound := (page.stored isOut).2.1
      exact ⟨by simp [isOut.2], Nat.ne_of_lt (Nat.lt_of_lt_of_le (inv.small.1 ▸ bound) inv.small.2)⟩

end Rules

theorem slotStep_inv {slots : Nat} {s s' : Swapped} {op : SlotOp} (inv : SlotInv slots s.st s.out)
    (placed : SlotPlaced s op) (h : slotStep s op = some s') : SlotInv slots s'.st s'.out := by
  obtain ⟨st', run, rfl⟩ := Option.map_eq_some_iff.mp h
  have unchanged (same : st'.frames = s.st.frames) : recordOut s.st st' s.out = s.out :=
    funext fun f => recordOut_same (congrFun same f)
  cases op with
  | page op =>
    cases op with
    | installFile thread upage type file ofs pageReadBytes writable =>
      simp only [slotRun, step] at run
      split at run
      · rename_i may
        obtain rfl := Option.some.inj run
        have record : ∀ f, recordOut s.st (s.st.installFile ⟨thread, upage, 0, false, type, file,
            ofs, pageReadBytes, writable, noIndex⟩) s.out f = s.out f := by
          intro f
          by_cases new : f = s.st.next
          · refine recordOut_unloaded fun fr frame => ?_
            rw [inv.fresh f (Nat.le_of_eq new.symm)] at frame
            cases frame
          · exact recordOut_same (Function.update_of_ne new _ _)
        rw [show recordOut _ _ _ = s.out from funext record]
        exact inv.installFile rfl may.1 rfl placed
      · cases run
    | installStack thread upage kpage => exact inv.installStack placed run
    | store f i v =>
      obtain ⟨kept, same⟩ := inv.store run
      rw [unchanged same]
      exact kept
    | touch f =>
      obtain ⟨kept, same⟩ := inv.touch run
      rw [unchanged same]
      exact kept
    | evict thread => exact inv.evict run
    | loadBack f kpage => exact inv.loadBack run
  | fault thread upage kpage =>
    obtain ⟨f, _, back⟩ := Option.bind_eq_some_iff.mp run
    exact inv.loadBack back
  | free f =>
    obtain ⟨kept, frames⟩ := inv.freePage run
    have record : recordOut s.st st' s.out = s.out := by
      funext g
      by_cases eq : g = f
      · refine recordOut_kept fun fr fr' _ after => ?_
        rw [frames, eq, Function.update_self] at after
        cases after
      · exact recordOut_same (by rw [frames, Function.update_of_ne eq])
    rw [record]
    exact kept

theorem Boot.slotInv {st : State} (boot : Boot st) (blockSize : UInt32) (out : Nat → Bytes) :
    SlotInv (blockSize.toNat / 8) (st.initSwap blockSize.toNat) out where
  small := by
    have size : blockSize.toNat < 4294967296 := blockSize.toNat_lt
    refine ⟨rfl, ?_⟩
    show blockSize.toNat / 8 ≤ 4294967295
    omega
  fresh f _ := boot.frames f
  table f listed := by
    rw [show (st.initSwap blockSize.toNat).frameTable = [] from boot.frameTable] at listed
    cases listed
  nodup := boot.frameTable ▸ List.nodup_nil
  elsewhere f g fr gr _ frame := by
    rw [show (st.initSwap blockSize.toNat).frames f = none from boot.frames f] at frame
    cases frame
  owner i set := by cases set
  page f fr frame := by
    rw [show (st.initSwap blockSize.toNat).frames f = none from boot.frames f] at frame
    cases frame

/-- No page size of swap is lost or handed out twice, and `page_back` restores a page. -/
structure SlotsOwned (s : Swapped) (blockSize : Nat) : Prop where
  bits : ∀ i, s.st.swapUsed i = true ↔
    ∃ f fr, s.st.frames f = some fr ∧ fr.Out ∧ fr.index = i
  distinct : ∀ f g fr gr, f ≠ g → s.st.frames f = some fr → s.st.frames g = some gr →
    fr.Out → gr.Out → fr.index ≠ gr.index ∧
      (8 * fr.index + 8 ≤ 8 * gr.index ∨ 8 * gr.index + 8 ≤ 8 * fr.index)
  inside : ∀ f fr, s.st.frames f = some fr → fr.Out → 8 * fr.index + 8 ≤ blockSize
  restored : ∀ f fr kpage st', s.st.frames f = some fr → fr.Out →
    s.st.pageBack f fr.thread kpage = some st' →
    st'.frames f = some { fr with kpage := kpage, load := true } ∧
      ∀ i < 4096, st'.mem kpage i = s.out f i

theorem SlotInv.owned {s : Swapped} {blockSize : Nat} (inv : SlotInv (blockSize / 8) s.st s.out) :
    SlotsOwned s blockSize where
  bits i := by
    constructor
    · exact inv.owner i
    · rintro ⟨f, fr, frame, isOut, rfl⟩
      exact ((inv.page f fr frame).stored isOut).1
  distinct f g fr gr ne hf hg fout gout := by
    have apart := (inv.elsewhere f g fr gr ne hf hg).2 fout gout
    exact ⟨apart, by omega⟩
  inside f fr frame isOut := by
    have bound := ((inv.page f fr frame).stored isOut).2.1
    rw [inv.small.1] at bound
    omega
  restored f fr kpage st' frame isOut back := (inv.pageBack frame isOut back).2

/-- From `init_swap` on, as long as pages are mapped where the process has none, the set bits of
`swap_bitmap` are the slots of the pages in swap, and these pages come back as they went. -/
theorem swap_slots_owned {st : State} (boot : Boot st) (blockSize : UInt32) {out : Nat → Bytes}
    {s : Swapped}
    (reach : Reach (Fires slotStep) SlotPlaced (· = ⟨st.initSwap blockSize.toNat, out⟩) s) :
    SlotsOwned s blockSize.toNat := by
  have inv : SlotInv (blockSize.toNat / 8) s.st s.out := by
    refine reach.invariant (P := fun s => SlotInv (blockSize.toNat / 8) s.st s.out) ?_
      fun s op s' h placed hstep => slotStep_inv h placed hstep
    rintro _ rfl
    exact boot.slotInv blockSize out
  exact inv.owned

/-- Two processes have a page of their executables each, one of them writes to its page, and both
pages are evicted: one goes to swap and its slot is set, the other is dropped. -/
theorem swap_slots_owned_evicted : ∃ s : Swapped,
    Reach (Fires slotStep) SlotPlaced (· = ⟨smallMachine.initSwap 32, fun _ _ => 0⟩) s ∧
      SlotsOwned s 32 ∧ s.st.swapUsed 0 = true ∧ s.out 0 0 = 7 := by
  obtain ⟨s, reach, used, out⟩ : ∃ s : Swapped,
      Reach (Fires slotStep) SlotPlaced (· = ⟨smallMachine.initSwap 32, fun _ _ => 0⟩) s ∧
        s.st.swapUsed 0 = true ∧ s.out 0 0 = 7 :=
    Reach.eval [.page (.installFile 0 8 .file 0 0 1 true),
      .page (.installFile 1 8 .file 0 0 1 true),
      .fault 0 8 1, .fault 1 8 2, .page (.store 0 0 7), .page (.evict 0), .page (.evict 1)]
      (by decide)
  exact ⟨s, reach, swap_slots_owned smallMachine_boot 32 reach, used, out⟩

/-- A page of the stack goes to swap and comes back, and its old slot goes to a second page.  A
mapping of a file then covers the address of the first page: the next fault there is for that page,
and clears the bit of the slot that the second page is in. -/
theorem mapping_over_page_frees_slot : ¬∀ (st : State) (blockSize : UInt32) (out : Nat → Bytes)
    (s : Swapped), Boot st → Reach (Fires slotStep) (fun _ _ => True)
      (· = ⟨st.initSwap blockSize.toNat, out⟩) s → SlotsOwned s blockSize.toNat := by
  intro claim
  obtain ⟨s, reach, frame, clear⟩ : ∃ s : Swapped,
      Reach (Fires slotStep) (fun _ _ => True) (· = ⟨smallMachine.initSwap 32, fun _ _ => 0⟩) s ∧
        s.st.frames 1 = some ⟨0, 9, 2, false, .swap, 0, 0, 0, true, 0⟩ ∧
        s.st.swapUsed 0 = false :=
    Reach.eval [.page (.installStack 0 8 1), .page (.evict 0), .fault 0 8 1,
      .page (.installStack 0 9 2), .page (.touch 0), .page (.evict 0),
      .page (.installFile 0 8 .mmap 0 0 1 true), .fault 0 8 2] (by decide)
  have owned := claim smallMachine 32 (fun _ _ => 0) s smallMachine_boot reach
  have used := (owned.bits 0).mpr ⟨1, _, frame, ⟨rfl, rfl⟩, rfl⟩
  rw [clear] at used
  cases used

end Pintos.Vm
