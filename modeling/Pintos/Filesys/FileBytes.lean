import Pintos.Filesys.Contents
import Pintos.Filesys.FileRuns
import Pintos.Lib.CStrings

/-! The files of a device as the byte files that `directory.c` works on: what `inode_read_at` and
`inode_write_at` do to the inode is what `ByteFile.readAt` and `ByteFile.writeAt` say. -/

namespace Pintos.Filesys

open Words Role ByteFiles Results

namespace Files

variable {st st' : Files} {s t : Nat}

section Write

theorem small_extend {fs fs' : Fs} {d d' : InodeDisk} {size offset : Nat} (small : Small d)
    (bound : d'.length ≤ 16513 * 512) (run : extend fs d size offset = .ok (fs', d')) :
    Small d' := by
  rw [extend] at run
  split at run
  next =>
    obtain ⟨sp, ind, din, rfl, sp_small, ind_small, din_small⟩ := fileGrowth_inode run
    exact ⟨by omega, sp_small small.sp, ind_small small.ind, din_small small.din, small.parent⟩
  next =>
    obtain ⟨_, rfl⟩ := Prod.mk.inj (Except.ok.inj run)
    exact small

/-- What a write to the open inode `o` in sector `s` leaves, when it is not denied. -/
structure Written (st st' : Files) (s : Nat) (o : OpenInode) (buffer : Bytes)
    (size offset : Nat) : Prop where
  inv : Inv st'
  others : Others st st' s
  opens : ∃ d, st'.opens s = some { o with data := d } ∧ (Small o.data → Small d)
  length : (st'.inode s).length = max (st.inode s).length (offset + size)
  bytes : ∀ p, offset ≤ p ∧ p < offset + size →
    byteAt st'.fs (st'.inode s) p = buffer (p - offset)
  kept : ∀ p < (st.inode s).length, ¬(offset ≤ p ∧ p < offset + size) →
    byteAt st'.fs (st'.inode s) p = byteAt st.fs (st.inode s) p
  synced : st.fs.free.file.isSome ∧ st.fs.free.Synced →
    st'.fs.free.file.isSome ∧ st'.fs.free.Synced

theorem Inv.written (inv : Inv st) {o o' : OpenInode}
    (isOpen : st.opens s = some o) {buffer : Bytes} {size offset w : Nat} {fs : Fs}
    (scope : InScope st (.writeAt s buffer size offset))
    (careful : Careful st (.writeAt s buffer size offset)) (allowed : o.denyWriteCnt = 0)
    (run : inodeWriteAt st.fs o buffer size offset = .ok (fs, o', w)) :
    Written st { st with fs := fs, opens := Function.update st.opens s (some o') } s o buffer size
      offset := by
  have inv' := inv.writeAt isOpen scope careful run
  have before := inode_of_open isOpen
  rw [inodeWriteAt, if_neg (not_not.mpr allowed)] at run
  obtain ⟨⟨fs₁, d⟩, start, run⟩ := bind_ok run
  obtain ⟨⟨fs₂, w'⟩, chunks, run⟩ := bind_ok run
  obtain ⟨rfl, same⟩ := Prod.mk.inj (Except.ok.inj run)
  obtain ⟨rfl, rfl⟩ := Prod.mk.inj same
  obtain ⟨U₀, n, U, grown, sub, old, cover, bound⟩ := inv.extend isOpen scope careful start
  have blocks : ∀ p < d.length, U (.data (p / 512)) := by
    intro p inside
    apply cover
    simp only [Upto, nextBlock, bytesToSectors]
    omega
  have length := extend_length start
  have fits : offset + size ≤ d.length := by omega
  obtain ⟨fs', run, wrote⟩ := grown.maps.layout.writeChunks buffer blocks (Nat.le_refl size) fits 0
  obtain ⟨rfl, rfl⟩ := Prod.mk.inj (Except.ok.inj (chunks.symm.trans run))
  have all := grown.toGrown.writeChunks blocks chunks
  have now : Function.update st.opens s (some { o with data := d }) s =
    some { o with data := d } := Function.update_self ..
  have after : Files.inode { st with
      fs := fs₂, opens := Function.update st.opens s (some { o with data := d }) } s = d :=
    inode_of_open (o := { o with data := d }) now
  refine ⟨inv', inv.grow_others isOpen all sub rfl rfl,
    ⟨d, now, fun small => small_extend small bound start⟩, ?_, fun p inside => ?_,
    fun p inside outside => ?_, fun synced => ⟨all.open_ ▸ synced.1, all.synced synced.2⟩⟩
  · rw [before, after]
    exact length
  · rw [after, wrote.bytes p (by omega), if_pos inside, Nat.zero_add]
  · rw [before] at inside ⊢
    have block : U₀ (.data (p / 512)) := by
      apply old
      simp only [Upto, bytesToSectors]
      omega
    rw [after, wrote.bytes p (by omega), if_neg outside, grown.byteAt block inside]

end Write

section ByteFile

/-- The bytes of the inode in sector `s`, up to its length. -/
def byteFile (st : Files) (s : Nat) : ByteFile := ⟨byteAt st.fs (st.inode s), (st.inode s).length⟩

/-- The bytes of a live inode are those that `inode_read_at` copies. -/
theorem inodeReadAt_live (inv : Inv st) (live : st.live s = true)
    (size offset : Nat) :
    inodeReadAt st.fs (st.inode s) size offset =
      .ok ((List.range (min size ((st.inode s).length - offset))).map fun i =>
        byteAt st.fs (st.inode s) (offset + i)) := by
  refine inodeReadAt_eq (inv.wellFormed.maps live) (fun p inside => ?_) size offset
  simp only [Upto, nextBlock, bytesToSectors]
  omega

/-- `inode_read_at` of a live inode copies what the byte file has. -/
theorem inodeReadAt_byteFile (inv : Inv st) (live : st.live s = true) (buffer : Bytes)
    (size offset : Nat) :
    inodeReadAt st.fs (st.inode s) size offset =
      .ok ((List.range ((st.byteFile s).readAt buffer size offset).1).map
        ((st.byteFile s).readAt buffer size offset).2) := by
  rw [inodeReadAt_live inv live]
  refine congrArg Except.ok (List.map_congr_left fun i hi => ?_)
  have small := List.mem_range.mp hi
  exact (if_pos small).symm

/-- A write that starts in the file, or at its end, is that of the byte file. -/
theorem Written.byteFile {o : OpenInode} {buffer : Bytes} {size offset : Nat}
    (h : Written st st' s o buffer size offset) (place : offset ≤ (st.inode s).length) :
    (st'.byteFile s).length = ((st.byteFile s).writeAt buffer size offset).length ∧
      ∀ p < (st'.byteFile s).length,
        (st'.byteFile s).bytes p = ((st.byteFile s).writeAt buffer size offset).bytes p := by
  refine ⟨h.length, fun p inside => ?_⟩
  have inside : p < max (st.inode s).length (offset + size) := h.length ▸ inside
  show byteAt st'.fs (st'.inode s) p = if offset ≤ p ∧ p < offset + size then buffer (p - offset)
    else if (st.inode s).length ≤ p ∧ p < offset then 0 else byteAt st.fs (st.inode s) p
  by_cases here : offset ≤ p ∧ p < offset + size
  · rw [if_pos here]
    exact h.bytes p here
  · rw [if_neg here, if_neg (by omega)]
    exact h.kept p (by omega) here

/-- The byte files of the other inodes stay. -/
theorem Others.byteFile (h : Others st st' s) (ne : t ≠ s) (live : st.live t = true) :
    (st'.byteFile t).length = (st.byteFile t).length ∧
      ∀ p < (st.byteFile t).length, (st'.byteFile t).bytes p = (st.byteFile t).bytes p :=
  ⟨congrArg InodeDisk.length (h.inode ne live), fun _ inside => h.byteAt ne live inside⟩

end ByteFile

end Files

end Pintos.Filesys
