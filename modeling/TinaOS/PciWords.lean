import TinaOS.Pci

/-!
# Words of the configuration space

A register of a function is a little-endian dword, so its configuration space is a run of bytes.
The driver reads the two bytes from an even offset on.
-/

namespace TinaOS.Pci

/-- The byte of a function at an offset. -/
def configByte (cfg : ConfigSpace) (bus : BitVec 8) (slot : BitVec 5) (func : BitVec 3)
    (offset : BitVec 8) : BitVec 8 :=
  (cfg bus slot func (offset.extractLsb' 2 6)).extractLsb' (8 * (offset.toNat % 4)) 8

/-- The word of a function at an offset, its low byte first. -/
def configWord (cfg : ConfigSpace) (bus : BitVec 8) (slot : BitVec 5) (func : BitVec 3)
    (offset : BitVec 8) : BitVec 16 :=
  configByte cfg bus slot func (offset + 1) ++ configByte cfg bus slot func offset

/-- The offset with its lowest bit cleared. -/
def evenOffset (offset : BitVec 8) : BitVec 8 := offset &&& 0xFE

variable {cfg : ConfigSpace} {bus slot func offset : BitVec 8}

theorem shift_offset : ∀ offset : BitVec 8, ((offset.setWidth 32 &&& 2) * 8 : BitVec 32) =
    BitVec.ofNat 32 (8 * ((evenOffset offset).toNat % 4)) := by decide

theorem register_evenOffset : ∀ offset : BitVec 8,
    (evenOffset offset).extractLsb' 2 6 = offset.extractLsb' 2 6 ∧
    (evenOffset offset + 1).extractLsb' 2 6 = offset.extractLsb' 2 6 ∧
    (evenOffset offset + 1).toNat % 4 = (evenOffset offset).toNat % 4 + 1 := by decide

/-- The two even offsets of a register, and the halves at which they start. -/
theorem evenOffset_cases : ∀ offset : BitVec 8,
    (evenOffset offset = offset.extractLsb' 2 6 ++ 0#2 ∧ (evenOffset offset).toNat % 4 = 0) ∨
    (evenOffset offset = offset.extractLsb' 2 6 ++ 2#2 ∧ (evenOffset offset).toNat % 4 = 2) := by
  decide

theorem setWidth_ushiftRight_ofNat (x : BitVec 32) {k : ℕ} (hk : k < 2 ^ 32) :
    (x >>> BitVec.ofNat 32 k).setWidth 16 = x.extractLsb' k 16 := by
  have hnat : (BitVec.ofNat 32 k).toNat = k := by rw [BitVec.toNat_ofNat, Nat.mod_eq_of_lt hk]
  rw [BitVec.ushiftRight_eq', hnat, BitVec.setWidth_ushiftRight_eq_extractLsb]

theorem pciConfigReadWord_half (cfg : ConfigSpace) (hs : slot.toNat < 2 ^ 5)
    (hf : func.toNat < 2 ^ 3) (latched : BitVec 32) :
    (pciConfigReadWord (hostBridge cfg) bus slot func offset latched).1 =
      (cfg bus (slot.setWidth 5) (func.setWidth 3) (offset.extractLsb' 2 6)).extractLsb'
        (8 * ((evenOffset offset).toNat % 4)) 16 := by
  rw [pciConfigReadWord_hostBridge cfg hs hf, setWidth_and_mask, shift_offset,
    setWidth_ushiftRight_ofNat _ (by omega)]

theorem configWord_evenOffset (slot : BitVec 5) (func : BitVec 3) :
    configWord cfg bus slot func (evenOffset offset) =
      (cfg bus slot func (offset.extractLsb' 2 6)).extractLsb'
        (8 * ((evenOffset offset).toNat % 4)) 16 := by
  obtain ⟨hlow, hhigh, hmod⟩ := register_evenOffset offset
  rw [configWord, configByte, configByte, hlow, hhigh, hmod, Nat.mul_add]
  exact BitVec.extractLsb'_append_extractLsb'_eq_extractLsb' rfl

theorem pciConfigReadWord_configWord (cfg : ConfigSpace) (hs : slot.toNat < 2 ^ 5)
    (hf : func.toNat < 2 ^ 3) (latched : BitVec 32) :
    (pciConfigReadWord (hostBridge cfg) bus slot func offset latched).1 =
      configWord cfg bus (slot.setWidth 5) (func.setWidth 3) (evenOffset offset) := by
  rw [configWord_evenOffset, pciConfigReadWord_half cfg hs hf]

/-- The space whose words at even offsets are those of `w`. -/
def spaceOf (w : BitVec 8 → BitVec 5 → BitVec 3 → BitVec 8 → BitVec 16) : ConfigSpace :=
  fun bus slot func register =>
    w bus slot func (register ++ 2#2) ++ w bus slot func (register ++ 0#2)

theorem configWord_spaceOf (w : BitVec 8 → BitVec 5 → BitVec 3 → BitVec 8 → BitVec 16)
    (slot : BitVec 5) (func : BitVec 3) : configWord (spaceOf w) bus slot func (evenOffset offset) =
      w bus slot func (evenOffset offset) := by
  rw [configWord_evenOffset, spaceOf]
  rcases evenOffset_cases offset with ⟨hoffset, hmod⟩ | ⟨hoffset, hmod⟩
  · rw [hmod, ← hoffset]
    exact BitVec.extractLsb'_append_eq_right
  · rw [hmod, ← hoffset]
    exact BitVec.extractLsb'_append_eq_left

theorem setWidth_inj {w : ℕ} {x y : BitVec 8} (hx : x.toNat < 2 ^ w) (hy : y.toNat < 2 ^ w)
    (h : x.setWidth w = y.setWidth w) : x = y := by
  apply BitVec.eq_of_toNat_eq
  have hnat := congrArg BitVec.toNat h
  rwa [BitVec.toNat_setWidth, BitVec.toNat_setWidth, Nat.mod_eq_of_lt hx,
    Nat.mod_eq_of_lt hy] at hnat

/-- The driver reads the word at the even offset of the function that it names, whatever was
latched before. Words at different places are read independently, and the two ids are the halves of
one register. -/
theorem pciConfigReadWord_word (cfg : ConfigSpace) (bus slot func offset : BitVec 8)
    (hs : slot.toNat < 32) (hf : func.toNat < 8) :
    (∀ latched, (pciConfigReadWord (hostBridge cfg) bus slot func offset latched).1 =
      configWord cfg bus (slot.setWidth 5) (func.setWidth 3) (evenOffset offset)) ∧
    (∀ bus' slot' func' offset' : BitVec 8, slot'.toNat < 32 → func'.toNat < 8 →
      (bus, slot, func, evenOffset offset) ≠ (bus', slot', func', evenOffset offset') →
      ∀ v v', ∃ cfg', ∀ latched latched',
        (pciConfigReadWord (hostBridge cfg') bus slot func offset latched).1 = v ∧
        (pciConfigReadWord (hostBridge cfg') bus' slot' func' offset' latched').1 = v') ∧
    ∀ latched latched',
      (pciGetDevice (hostBridge cfg) (bus.setWidth 16) (slot.setWidth 16) (func.setWidth 16)
          latched).1 ++ (pciGetVendor (hostBridge cfg) bus slot func latched').1 =
        cfg bus (slot.setWidth 5) (func.setWidth 3) 0 := by
  refine ⟨pciConfigReadWord_configWord cfg hs hf, ?_, ?_⟩
  · intro bus' slot' func' offset' hs' hf' hne v v'
    refine ⟨spaceOf fun b s f o =>
      if b = bus ∧ s = slot.setWidth 5 ∧ f = func.setWidth 3 ∧ o = evenOffset offset then v else v',
      fun latched latched' => ?_⟩
    rw [pciConfigReadWord_configWord _ hs hf, pciConfigReadWord_configWord _ hs' hf',
      configWord_spaceOf, configWord_spaceOf]
    refine ⟨if_pos ⟨rfl, rfl, rfl, rfl⟩, if_neg ?_⟩
    rintro ⟨rfl, hslot, hfunc, hoffset⟩
    apply hne
    rw [setWidth_inj hs' hs hslot, setWidth_inj hf' hf hfunc, hoffset]
  · intro latched latched'
    have hdevice : (pciGetDevice (hostBridge cfg) (bus.setWidth 16) (slot.setWidth 16)
        (func.setWidth 16) latched).1 =
          (cfg bus (slot.setWidth 5) (func.setWidth 3) 0).extractLsb' 16 16 := by
      rw [pciGetDevice, pciCheckDevice]
      simp only [BitVec.setWidth_setWidth_of_le, Nat.reduceLeDiff, BitVec.setWidth_eq]
      exact pciConfigReadWord_half cfg hs hf latched
    have hvendor : (pciGetVendor (hostBridge cfg) bus slot func latched').1 =
        (cfg bus (slot.setWidth 5) (func.setWidth 3) 0).extractLsb' 0 16 :=
      pciConfigReadWord_half cfg hs hf latched'
    rw [hdevice, hvendor]
    exact ByteMemory.append_halves (w := 16) (cfg bus (slot.setWidth 5) (func.setWidth 3) 0)

/-- The second function of a device on the last slot of the last bus. -/
theorem pciConfigReadWord_word_last : (pciConfigReadWord (hostBridge fun _ _ _ _ => 0x12345678)
    255 31 1 7 0).1 = configWord (fun _ _ _ _ => 0x12345678) 255 31 1 6 :=
  (pciConfigReadWord_word (fun _ _ _ _ => 0x12345678) 255 31 1 7 (by decide) (by decide)).1 0

end TinaOS.Pci
