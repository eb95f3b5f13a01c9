import Pic18Boot.Verify.HexFile
import Pic18Boot.Verify.PowerLoss
import Pic18Boot.Verify.Message
import Pic18Boot.Verify.Signature

/-! # The image in flash

What a flashing session puts below the metadata, as `signature_valid` reads it back: erased flash
holds the empty image (`ImageInv.start`), and the programming of a record extends the image held
(`ImageInv.first`, `ImageInv.next`). -/

namespace Pic18Boot
open NorFlash

variable {L : Layout} {s : Nvm} {addr n : Nat} {f g : Nat → UInt8}
  {img data : List UInt8} {buf : Nat → UInt8}

/-! ## Programming the image -/

/-- Flash holds the image, as `signature_valid` reads it. -/
def Holds (f : Nat → UInt8) (img : List UInt8) : Prop :=
  ∀ k b, img[k]? = some b → originalHead f k = b

/-- What happens above the image does not concern it. -/
theorem Holds.frame (H : Holds f img) (hlen : img.length ≤ addr) (haddr : 8 ≤ addr)
    (hg : ∀ a < addr, g a = f a) : Holds g img := by
  intro k b hk
  have hlt := (List.getElem?_eq_some_iff.mp hk).1
  rw [← H k b hk]
  unfold originalHead
  split
  · exact hg _ (by omega)
  · split
    · rfl
    · exact hg k (by omega)

/-- What is hashed of the image. -/
theorem Holds.toList (H : Holds f img) : Buf.toList (originalHead f) img.length = img :=
  Buf.toList_eq_of_getElem? rfl fun k hk => by
    rw [List.getElem?_eq_getElem hk, H k _ (List.getElem?_eq_getElem hk)]

/-- Flash holds the image and is erased from there up to the bootloader. -/
structure ImageInv (L : Layout) (img : List UInt8) (f : Nat → UInt8) : Prop where
  held : Holds f img
  erased : ∀ a, img.length ≤ a → 8 ≤ a ∨ img = [] ∧ 4 ≤ a → a < L.btldOffset → f a = blank

theorem ImageInv.start (hs : s.Idle) :
    ImageInv L [] (eraseFlash L.mem L.btldOffset s).flash where
  held _ _ h := absurd h nofun
  erased a _ ha hlt :=
    eraseFlash_erased L.aligned (Nat.le_of_lt L.btld_lt) L.mem_le hs (by omega) hlt

/-- The record at address 0: its first four bytes are held at 4..7. -/
theorem ImageInv.first (H : ImageInv L [] f) (h4 : 4 ≤ data.length)
    (hff : ∀ k b, 4 ≤ k → k < 8 → data[k]? = some b → b = 0xFF)
    (hend : data.length < L.signatOffset) (hbuf : ∀ k b, data[k]? = some b → buf k = b) :
    ImageInv L data (program f (program (writeMask L.mem 4 buf 4)
      (writeMask L.mem 8 (fun k => buf (8 + k)) (data.length - 8)))) := by
  have hsig := L.signatOffset_eq
  have hge := L.signatOffset_ge
  have hlt := L.btld_lt
  have hmem := L.mem_le
  -- what is programmed at each address below the metadata
  have hmask : ∀ a < L.btldOffset, 4 ≤ a → program f (program (writeMask L.mem 4 buf 4)
      (writeMask L.mem 8 (fun k => buf (8 + k)) (data.length - 8))) a =
      if a < 8 then buf (a - 4) else if a < data.length then buf a else blank := by
    intro a ha h4
    have hfa : f a = blank := H.erased a (Nat.zero_le a) (.inr ⟨rfl, h4⟩) ha
    rw [program_blank hfa, program_apply, writeMask_eq (by omega) (by omega),
      writeMask_eq (by omega) (by omega)]
    by_cases h8 : a < 8
    · rw [if_pos (by omega), if_neg (by omega), if_pos h8]
      exact and_blank _
    · rw [if_neg (by omega), if_neg h8, blank_and]
      by_cases hd : a < data.length
      · rw [if_pos (by omega), if_pos hd, Nat.add_sub_cancel' (by omega)]
      · rw [if_neg (by omega), if_neg hd]
  constructor
  · intro k b hk
    have hkl := (List.getElem?_eq_some_iff.mp hk).1
    unfold originalHead
    split
    · rw [hmask _ (by omega) (by omega), if_pos (by omega), Nat.add_sub_cancel, hbuf k b hk]
    · split
      · exact (hff k b (by omega) (by omega) hk).symm
      · rw [hmask _ (by omega) (by omega), if_neg (by omega), if_pos hkl, hbuf k b hk]
  · intro a hle ha hlt
    have h8 : 8 ≤ a := by
      rcases ha with h8 | ⟨hnil, -⟩
      · exact h8
      · simp [hnil] at h4
    rw [hmask a hlt (by omega), if_neg (by omega), if_neg (by omega)]

/-- A later record. -/
theorem ImageInv.next (H : ImageInv L img f) (h4 : 4 ≤ img.length) (h8 : 8 ≤ addr)
    (hle : img.length ≤ addr) (hend : addr + data.length < L.signatOffset)
    (hbuf : ∀ k b, data[k]? = some b → buf k = b) :
    ImageInv L (extendImage img (addr, data))
      (program f (writeMask L.mem addr buf data.length)) := by
  have hsig := L.signatOffset_eq
  have hlt := L.btld_lt
  have hmem := L.mem_le
  have hfree : ∀ a, addr ≤ a → a < L.btldOffset → f a = blank := fun a ha hlt =>
    H.erased a (by omega) (.inl (by omega)) hlt
  have hmask : ∀ a, program f (writeMask L.mem addr buf data.length) a =
      if addr ≤ a ∧ a < addr + data.length then buf (a - addr) else f a := by
    intro a
    rw [program_apply, writeMask_eq (by omega) (by omega)]
    split
    · next ha => rw [hfree a ha.1 (by omega), blank_and]
    · exact and_blank _
  have hlen : (img ++ List.replicate (addr - img.length) 0xFF).length = addr := by simp; omega
  constructor
  · intro k b hk
    rw [extendImage, List.getElem?_append, hlen] at hk
    split at hk
    · next hka =>
      rw [List.getElem?_append] at hk
      split at hk
      · exact H.held.frame hle h8 (fun a ha => by rw [hmask, if_neg (by omega)]) k b hk
      · -- the gap: erased flash, and what the hash has at 4..7
        next hki =>
        rw [List.getElem?_replicate] at hk
        split at hk
        case isFalse => cases hk
        cases hk
        by_cases hk8 : k < 8
        · rw [originalHead, if_neg (by omega), if_pos hk8]
        · rw [originalHead_user (by omega), hmask, if_neg (by omega)]
          exact H.erased k (by omega) (.inl (by omega)) (by omega)
    · next hka =>
      dsimp only at hk
      have hkl := (List.getElem?_eq_some_iff.mp hk).1
      rw [originalHead_user (by omega), hmask, if_pos ⟨by omega, by omega⟩, hbuf _ b hk]
  · intro a ha ha8 hlt
    rw [length_extendImage hle, recEnd] at ha
    dsimp only at ha
    rw [hmask, if_neg (by omega)]
    refine H.erased a (by omega) (.inl (by omega)) hlt

/-! ## Programming the metadata -/

/-- A write to erased bytes above the image leaves the image and the bytes. -/
theorem Holds.metadata (buf : Nat → UInt8) (n : Nat) (H : Holds f img) (hlen : img.length ≤ addr)
    (haddr : 8 ≤ addr) (hend : addr + n ≤ L.btldOffset) (hfree : ∀ k < n, f (addr + k) = blank) :
    let g := program f (writeMask L.mem addr buf n)
    Holds g img ∧ (∀ k < n, g (addr + k) = buf k) ∧
      ∀ a, a < addr ∨ addr + n ≤ a → g a = f a := by
  intro g
  have hlt := L.btld_lt
  have hmem := L.mem_le
  have hout : ∀ a, a < addr ∨ addr + n ≤ a → g a = f a := fun a ha => by
    have hmask : writeMask L.mem addr buf n a = blank := by
      rw [writeMask_eq (by omega) (by omega), if_neg (by omega)]
    exact program_spared hmask
  refine ⟨H.frame hlen haddr fun a ha => hout a (.inl ha), fun k hk => ?_, hout⟩
  have hk' : g (addr + k) = writeMask L.mem addr buf n (addr + k) := program_blank (hfree k hk)
  rw [hk', writeMask_eq (by omega) (by omega), if_pos ⟨by omega, by omega⟩, Nat.add_sub_cancel_left]

end Pic18Boot
