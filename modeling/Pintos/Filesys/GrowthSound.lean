import Pintos.Filesys.Growth

/-! What a growth does to the block map as `byte_to_sector` shows it.  In the single-indirect range
the map stays sound.  In the double-indirect range it does exactly for the growths that need no
second-level index but the one of their first new block. -/

namespace Pintos.Filesys

open Words Role

section Single

variable {fs : Fs} {ino : InodeDisk}

/-- The blocks below the length map to distinct used sectors, and the single-level index is used
and none of them. -/
structure SingleSound (fs : Fs) (ino : InodeDisk) : Prop where
  mapped : ∀ p < ino.length, ∃ s, byteToSector fs ino p = .ok s ∧ fs.free.Used s
  distinct : ∀ p q, p < ino.length → q < ino.length →
    byteToSector fs ino p = byteToSector fs ino q → p / 512 = q / 512
  index : 512 < ino.length →
    fs.free.Used ino.ind ∧ ∀ p < ino.length, byteToSector fs ino p ≠ .ok ino.ind

theorem upto_block {p length : Nat} (inside : p < length) :
    Upto (bytesToSectors length) (.data (p / 512)) := by
  simp only [Upto, bytesToSectors]
  omega

theorem SingleSound.maps (h : SingleSound fs ino) (range : ino.length ≤ 129 * 512) :
    Maps fs ino (Upto (bytesToSectors ino.length)) := by
  -- Every mapped block is the block of a byte of the file.
  have sector : ∀ b, b < bytesToSectors ino.length → 512 * b < ino.length ∧ b < 129 ∧
      byteToSector fs ino (512 * b) = .ok (sectorAt fs ino (.data b)) := by
    intro b hb
    have inside : 512 * b < ino.length := by
      unfold bytesToSectors at hb
      omega
    have eq := byteToSector_single fs inside (by omega)
    rw [Nat.mul_div_cancel_left b (by omega)] at eq
    exact ⟨inside, by omega, eq⟩
  have long : 1 < bytesToSectors ino.length → 512 < ino.length := by
    unfold bytesToSectors
    omega
  have short : bytesToSectors ino.length ≤ 129 := by
    unfold bytesToSectors
    omega
  refine ⟨fun r R k hr slot => ?_, fun r hr => ?_, fun r r' hr hr' eq => ?_⟩
  · cases r with
    | data b =>
      by_cases zero : b = 0
      · simp [Role.slot, zero] at slot
      · rw [slot_single (by omega) (sector b hr).2.1] at slot
        obtain ⟨rfl, rfl⟩ := Prod.mk.inj (Option.some.inj slot)
        have low := (sector b hr).2.1
        exact ⟨Nat.lt_of_le_of_lt (Nat.pos_of_ne_zero zero) hr, by omega⟩
    | ind | din => cases slot
    | second i =>
      simp only [Upto] at hr
      omega
  · cases r with
    | data b =>
      obtain ⟨inside, _, eq⟩ := sector b hr
      obtain ⟨s, found, used⟩ := h.mapped _ inside
      obtain rfl := Except.ok.inj (eq.symm.trans found)
      exact used
    | ind => exact (h.index (long hr)).1
    | din | second i =>
      simp only [Upto] at hr
      omega
  · have apart : ∀ b, b < bytesToSectors ino.length → 1 < bytesToSectors ino.length →
        sectorAt fs ino (.data b) ≠ sectorAt fs ino .ind := by
      intro b hb many same
      obtain ⟨inside, _, eq⟩ := sector b hb
      exact (h.index (long many)).2 _ inside (eq.trans (congrArg Except.ok same))
    cases r with
    | data b =>
      cases r' with
      | data b' =>
        obtain ⟨inside, _, at_b⟩ := sector b hr
        obtain ⟨inside', _, at_b'⟩ := sector b' hr'
        have same := h.distinct _ _ inside inside' (by rw [at_b, at_b', eq])
        rw [Nat.mul_div_cancel_left b (by omega), Nat.mul_div_cancel_left b' (by omega)] at same
        rw [same]
      | ind => exact absurd eq (apart b hr hr')
      | din | second i =>
        simp only [Upto] at hr'
        omega
    | ind =>
      cases r' with
      | data b' => exact absurd eq.symm (apart b' hr' hr)
      | ind => rfl
      | din | second i =>
        simp only [Upto] at hr'
        omega
    | din | second i =>
      simp only [Upto] at hr
      omega

theorem Maps.singleSound (h : Maps fs ino (Upto (bytesToSectors ino.length))) :
    SingleSound fs ino := by
  have sector : ∀ p < ino.length, byteToSector fs ino p = .ok (sectorAt fs ino (.data (p / 512))) :=
    fun p inside => h.byteToSector_eq inside (upto_block inside)
  refine ⟨fun p inside => ⟨_, sector p inside, h.used _ (upto_block inside)⟩,
    fun p q hp hq eq => ?_, fun long => ?_⟩
  · rw [sector p hp, sector q hq] at eq
    have same := h.distinct _ _ (upto_block hp) (upto_block hq) (Except.ok.inj eq)
    injection same
  · have many : Upto (bytesToSectors ino.length) .ind := by
      simp only [Upto, bytesToSectors]
      omega
    refine ⟨h.used .ind many, fun p hp eq => ?_⟩
    rw [sector p hp] at eq
    cases h.distinct _ .ind (upto_block hp) many (Except.ok.inj eq)

/-- A device of eight sectors, three of them in use. -/
def smallFs : Fs where
  data := fun _ _ => 0
  free := {
    size := 8
    used := fun s => decide (s < 3)
    file := some fun s => decide (s < 3)
    writeFails := fun _ => none
    writes := 0
    small := by decide }
  memsets := []

end Single

section Double

variable {fs fs' : Fs} {ino ino' : InodeDisk}

/-- After a growth from `fs` and `ino`, the blocks of the double-indirect range are reached through
second-level indexes that were allocated for this inode, and have distinct used sectors that are no
index; the blocks from before have their sectors. -/
structure DoubleSound (fs : Fs) (ino : InodeDisk) (fs' : Fs) (ino' : InodeDisk) : Prop where
  reached : ∀ p < ino'.length, 129 ≤ p / 512 → ∃ t s,
    fs'.index ino'.din ((p / 512 - 129) / 128) = .ok t ∧ fs'.free.Used t ∧
    (fs.free.Free t ∨ 129 + 128 * ((p / 512 - 129) / 128) < bytesToSectors ino.length ∧
      fs.index ino.din ((p / 512 - 129) / 128) = .ok t) ∧
    fs'.index t ((p / 512 - 129) % 128) = .ok s ∧ byteToSector fs' ino' p = .ok s ∧
    fs'.free.Used s ∧
    ∀ R, R.IsIndex → Upto (bytesToSectors ino'.length) R → sectorAt fs' ino' R ≠ s
  distinct : ∀ p q, p < ino'.length → q < ino'.length → 129 ≤ p / 512 → 129 ≤ q / 512 →
    byteToSector fs' ino' p = byteToSector fs' ino' q → p / 512 = q / 512
  old : ∀ p < ino.length, byteToSector fs' ino' p = byteToSector fs ino p

theorem Grown.doubleSound {n : Nat} {U : Role → Prop}
    (grown : Grown fs ino (Upto (bytesToSectors ino.length)) n fs' ino' U)
    (wf : Maps fs ino (Upto (bytesToSectors ino.length))) (longer : ino.length ≤ ino'.length)
    (mapped : ∀ r, Upto (bytesToSectors ino'.length) r → U r) : DoubleSound fs ino fs' ino' := by
  have sector : ∀ p < ino'.length,
      byteToSector fs' ino' p = .ok (sectorAt fs' ino' (.data (p / 512))) :=
    fun p inside => grown.maps.byteToSector_eq inside (mapped _ (upto_block inside))
  refine ⟨fun p inside double => ?_, fun p q hp hq _ _ eq => ?_, fun p inside => ?_⟩
  · have block := upto_block inside
    have slot := slot_double double
    have table := block.closed slot
    have bound := (grown.maps.closed _ _ _ (mapped _ table) rfl).2
    refine ⟨_, _, fs'.index_of_lt _ bound, grown.maps.used _ (mapped _ table), ?_, ?_,
      sector p inside,
      grown.maps.used _ (mapped _ block), fun R index hR eq => ?_⟩
    · by_cases before : Upto (bytesToSectors ino.length) (.second ((p / 512 - 129) / 128))
      · right
        refine ⟨before, ?_⟩
        rw [fs.index_of_lt _ bound]
        exact congrArg Except.ok (grown.old _ before).2.symm
      · exact .inl (grown.new _ (mapped _ table) before)
    · rw [fs'.index_of_lt _ (Nat.mod_lt _ (by omega)), sectorAt_slot fs' ino' slot]
      rfl
    · obtain rfl := grown.maps.distinct _ _ (mapped R hR) (mapped _ block) eq
      exact index
  · rw [sector p hp, sector q hq] at eq
    have same := grown.maps.distinct _ _ (mapped _ (upto_block hp)) (mapped _ (upto_block hq))
      (Except.ok.inj eq)
    injection same
  · rw [sector p (by omega), wf.byteToSector_eq inside (upto_block inside),
      (grown.old _ (upto_block inside)).2]

end Double

end Pintos.Filesys
