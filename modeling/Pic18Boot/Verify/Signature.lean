import Pic18Boot.Model.Signature
import Pic18Boot.Verify.WriteFlash

/-! # What the boot decision covers

The chunks `signature_valid` feeds to the hash are one byte string (`signatureHash_eq`), for any
hash that takes its input byte by byte. For a stored size of at least 64 it is the image with its
first eight bytes as they stood in the HEX file (`hashedBytes_eq`). -/

namespace Pic18Boot

variable {σ : Type*} {update : σ → (Nat → UInt8) → Nat → σ} {byte : σ → UInt8 → σ} {ctx : σ}
  {L : Layout} {s t : Nvm} {addr siz a : Nat} {flread : Nat → UInt8} {f g : Nat → UInt8}

/-- A counted loop over a buffer reads its bytes in order. -/
theorem foldl_toList {p : Nat → UInt8} {n : Nat} :
    (Buf.toList p n).foldl byte ctx = Nat.fold n (fun i _ ctx => byte ctx (p i)) ctx := by
  induction n with
  | zero => rfl
  | succ n ih => rw [Buf.toList_succ, List.foldl_append, ih, Nat.fold_succ]; rfl

theorem uint24Sub_of_le {x y : Nat} (h : y ≤ x) (hx : x < 2 ^ 24) : uint24Sub x y = x - y := by
  unfold uint24Sub
  omega

/-- The bytes of flash at `siz` consecutive values of the table pointer. -/
def flashBytes (f : Nat → UInt8) (addr siz : Nat) : List UInt8 :=
  Buf.toList (fun k => f ((addr + k) % 2 ^ 22)) siz

theorem readFlash_toList {n : Nat} {buf : Nat → UInt8} :
    Buf.toList (readFlash addr buf n s).1 n = flashBytes s.flash addr n := by
  rw [readFlash_buf]
  exact Buf.toList_congr fun k hk => if_pos hk

theorem flashBytes_add {m n : Nat} (h : f = g) (haddr : a % 2 ^ 22 = (addr + m) % 2 ^ 22) :
    flashBytes f addr m ++ flashBytes g a n = flashBytes f addr (m + n) := by
  rw [flashBytes, flashBytes, flashBytes, Buf.toList_add, h]
  congr 1
  refine Buf.toList_congr fun k _ => ?_
  rw [show (a + k) % 2 ^ 22 = (addr + (m + k)) % 2 ^ 22 by omega]

theorem storedSize_read : codeSize (readFlash L.codeSizeOffset (fun _ => 0) codeSizeBytes s).1 =
    storedSize L s.flash := by
  have hlt := L.signatOffset_lt
  have hcode := L.codeSizeOffset_eq
  have hsig := L.signatOffset_eq
  have hd : ∀ k < 3, (readFlash L.codeSizeOffset (fun _ => 0) codeSizeBytes s).1 k =
      s.flash (L.codeSizeOffset + k) := by
    intro k hk
    rw [readFlash_buf]
    simp only [codeSizeBytes, if_pos hk]
    rw [Nat.mod_eq_of_lt (by omega)]
  rw [storedSize, codeSize, codeSize, hd 0 (by decide), hd 1 (by decide), hd 2 (by decide)]

theorem originalHead_goto {k : Nat} (h : k < 4) : originalHead f k = f (k + 4) := if_pos h

theorem originalHead_user {k : Nat} (h : 8 ≤ k) : originalHead f k = f k := by
  rw [originalHead, if_neg (by omega), if_neg (by omega)]

theorem originalHead_congr (h : ∀ k < 64, f k = g k) :
    Buf.toList (originalHead f) 64 = Buf.toList (originalHead g) 64 := by
  refine Buf.toList_congr fun k hk => ?_
  unfold originalHead
  split
  · exact h _ (by omega)
  · split
    · rfl
    · exact h k hk

section
variable (hbyte : ∀ ctx buf n, update ctx buf n = (Buf.toList buf n).foldl byte ctx)
include hbyte

/-- The loop feeds the next `siz` bytes of flash. -/
theorem signatureLoop_eq : (signatureLoop update ctx flread siz addr s).1 =
      (flashBytes s.flash addr siz).foldl byte ctx ∧
    (signatureLoop update ctx flread siz addr s).2.flash = s.flash := by
  fun_induction signatureLoop update ctx flread siz addr s with
  | case1 ctx flread siz addr s hsiz r ih =>
    obtain ⟨hfed, hflash⟩ := ih
    have hr : r.2.flash = s.flash := flash_readFlash
    refine ⟨?_, hflash.trans hr⟩
    rw [hfed, hbyte, ← List.foldl_append, readFlash_toList,
      flashBytes_add hr.symm (by omega), Nat.add_sub_cancel' hsiz]
  | case2 ctx flread siz addr s _ _ r =>
    refine ⟨?_, flash_readFlash⟩
    rw [hbyte, readFlash_toList]
  | case3 ctx flread siz addr s _ hzero =>
    obtain rfl := Decidable.not_not.mp hzero
    exact ⟨rfl, rfl⟩

/-- **What is hashed**, for every stored size. -/
theorem signatureHash_eq (ctx : σ) (L : Layout) (s : Nvm) : (signatureHash update ctx L s).1 =
      (Buf.toList (originalHead s.flash) 64 ++
        flashBytes s.flash 64 (uint24Sub (storedSize L s.flash) 64)).foldl byte ctx ∧
    (signatureHash update ctx L s).2.flash = s.flash := by
  -- the two reads enter only through the bytes they return and the flash they leave
  suffices H : ∀ d r : (Nat → UInt8) × Nvm, codeSize d.1 = storedSize L s.flash →
      (∀ k < 64, r.1 k = s.flash k) → r.2.flash = s.flash →
      ∀ x, x = signatureLoop update (update ctx (originalHead r.1) 64) (originalHead r.1)
        (uint24Sub (codeSize d.1) 64) 64 r.2 →
      x.1 = (Buf.toList (originalHead s.flash) 64 ++
        flashBytes s.flash 64 (uint24Sub (storedSize L s.flash) 64)).foldl byte ctx ∧
      x.2.flash = s.flash by
    have hd : (readFlash L.codeSizeOffset (fun _ => 0) codeSizeBytes s).2.flash = s.flash :=
      flash_readFlash
    rw [signatureHash]
    refine H (readFlash L.codeSizeOffset (fun _ => 0) codeSizeBytes s)
      (readFlash 0 (fun _ => 0) 64 (readFlash L.codeSizeOffset (fun _ => 0) codeSizeBytes s).2)
      storedSize_read (fun k hk => ?_) (flash_readFlash.trans hd) _ rfl
    rw [readFlash_buf]
    simp only [if_pos hk, Nat.zero_add, hd]
    rw [Nat.mod_eq_of_lt (by omega)]
  rintro d r hsiz hhead hr x rfl
  rw [(signatureLoop_eq hbyte).1, (signatureLoop_eq hbyte).2, hbyte, hsiz, ← List.foldl_append, hr,
    originalHead_congr hhead]
  exact ⟨rfl, rfl⟩

end

/-- A size `signature_valid` does not wrap on, with the image below the metadata. -/
def Sized (L : Layout) (f : Nat → UInt8) : Prop :=
  64 ≤ storedSize L f ∧ storedSize L f ≤ L.signatOffset

theorem foldl_collect {bytes l : List UInt8} :
    l.foldl (fun bytes b => bytes ++ [b]) bytes = bytes ++ l := by
  induction l generalizing bytes with
  | nil => simp
  | cons b l ih => rw [List.foldl_cons, ih, List.append_assoc, List.singleton_append]

/-- What is hashed, as a byte string. -/
theorem hashedBytes_feed : hashedBytes L s = Buf.toList (originalHead s.flash) 64 ++
    flashBytes s.flash 64 (uint24Sub (storedSize L s.flash) 64) := by
  have hbyte : ∀ (bytes : List UInt8) data len, collect bytes data len =
      (Buf.toList data len).foldl (fun bytes b => bytes ++ [b]) bytes := fun _ _ _ =>
    foldl_collect.symm
  have hfed := (signatureHash_eq hbyte [] L s).1
  rw [foldl_collect, List.nil_append] at hfed
  rw [hashedBytes, ← hfed]
  -- by cases, or the kernel would evaluate the loop
  cases signatureHash collect [] L s
  rfl

/-- **The image**: bytes 0..3 as they are at 4..7, four erased bytes, and flash from 8 on. -/
theorem hashedBytes_eq (h : Sized L s.flash) :
    hashedBytes L s = Buf.toList (originalHead s.flash) (storedSize L s.flash) := by
  obtain ⟨hge, hle⟩ := h
  have hlt := L.signatOffset_lt
  obtain ⟨n, hn⟩ := Nat.exists_eq_add_of_le hge
  rw [hashedBytes_feed, uint24Sub_of_le hge (by omega), hn, Nat.add_sub_cancel_left, Buf.toList_add,
    List.append_cancel_left_eq]
  refine Buf.toList_congr fun k hk => ?_
  rw [originalHead_user (by omega), Nat.mod_eq_of_lt (by omega)]

/-- The verdict is on the digest of the hashed bytes and the stored signature. -/
theorem signatureValid_eq {uECCVerify : List UInt8 → List UInt8 → List UInt8 → Bool} :
    (signatureValid uECCVerify L s).1 =
      uECCVerify ecPubKey (sha256 (hashedBytes L s)) (storedSignat L s.flash) := by
  have hbyte : ∀ ctx buf n, sha256Update ctx buf n =
      (Buf.toList buf n).foldl sha256UpdateByte ctx := fun _ _ _ => foldl_toList.symm
  obtain ⟨hfed, hflash⟩ := signatureHash_eq hbyte sha256Init L s
  have hsig : Buf.toList (readFlash L.signatOffset (fun _ => 0) signatSize
      (signatureHash sha256Update sha256Init L s).2).1 signatSize = storedSignat L s.flash := by
    have hlt := L.signatOffset_lt
    rw [readFlash_toList, hflash]
    refine Buf.toList_congr fun k hk => ?_
    simp only [signatSize] at hk
    rw [Nat.mod_eq_of_lt (by omega)]
  rw [signatureValid]
  dsimp only
  rw [hsig, hfed, sha256, hashedBytes_feed]

/-- The image is what flash holds from 4 on. -/
theorem hashedBytes_inj (hs : Sized L s.flash) (ht : Sized L t.flash)
    (hsize : storedSize L s.flash = storedSize L t.flash) :
    hashedBytes L s = hashedBytes L t ↔
      ∀ a, 4 ≤ a → a < storedSize L s.flash → s.flash a = t.flash a := by
  have hge := hs.1
  rw [hashedBytes_eq hs, hashedBytes_eq ht, ← hsize, Buf.toList_eq_iff]
  constructor
  · intro h a ha hlt
    by_cases hlow : a < 8
    · have hk := h (a - 4) (by omega)
      rwa [originalHead_goto (by omega), originalHead_goto (by omega), Nat.sub_add_cancel ha] at hk
    · have hk := h a hlt
      rwa [originalHead_user (by omega), originalHead_user (by omega)] at hk
  · intro h k hk
    unfold originalHead
    split
    · exact h _ (by omega) (by omega)
    · split
      · rfl
      · exact h k (by omega) hk

/-- **What the boot decision covers.** With equal stored sizes between 64 and the metadata, the
hashed byte strings are equal exactly when flash agrees from 4 up to the size, and then equal stored
signatures get equal verdicts; with different sizes in that range the strings differ. -/
theorem boot_decision_covers (uECCVerify : List UInt8 → List UInt8 → List UInt8 → Bool) (L : Layout)
    (s t : Nvm) (hs : 64 ≤ storedSize L s.flash ∧ storedSize L s.flash ≤ L.signatOffset)
    (ht : 64 ≤ storedSize L t.flash ∧ storedSize L t.flash ≤ L.signatOffset) :
    (storedSize L s.flash = storedSize L t.flash →
      (hashedBytes L s = hashedBytes L t ↔
        ∀ a, 4 ≤ a → a < storedSize L s.flash → s.flash a = t.flash a) ∧
      ((∀ a, 4 ≤ a → a < storedSize L s.flash → s.flash a = t.flash a) →
        storedSignat L s.flash = storedSignat L t.flash →
        (signatureValid uECCVerify L s).1 = (signatureValid uECCVerify L t).1)) ∧
    (storedSize L s.flash ≠ storedSize L t.flash → hashedBytes L s ≠ hashedBytes L t) := by
  refine ⟨fun hsize => ?_, fun hne heq => hne ?_⟩
  · have hiff := hashedBytes_inj hs ht hsize
    refine ⟨hiff, fun hagree hsig => ?_⟩
    rw [signatureValid_eq, signatureValid_eq, hiff.mpr hagree, hsig]
  · have hlen := congrArg List.length heq
    rwa [hashedBytes_eq hs, hashedBytes_eq ht, Buf.length_toList, Buf.length_toList] at hlen

/-- Flash with the size 64 in the metadata of the repository's build. -/
def sizedFlash (a : Nat) : UInt8 :=
  if a = 0xFFF then 64 else if a = 0xFFD ∨ a = 0xFFE then 0 else vectorFlash a

/-- Another reset vector, and the same image. -/
theorem sizedFlash_covers : hashedBytes pic18f25k22 (.powerUp sizedFlash) =
    hashedBytes pic18f25k22 (.powerUp (Function.update sizedFlash 0 0)) := by
  refine ((boot_decision_covers (fun _ _ _ => true) pic18f25k22 (.powerUp sizedFlash)
    (.powerUp (Function.update sizedFlash 0 0)) (by decide) (by decide)).1 rfl).1.mpr ?_
  intro a ha _
  exact (Function.update_of_ne (by omega) ..).symm

/-! ## Small images -/

/-- The first `siz` bytes of the HEX image, as flash holds them. -/
def relocatedImage (f : Nat → UInt8) (siz : Nat) : List UInt8 :=
  Buf.toList (fun k => f (4 + k)) 4 ++ List.replicate 4 0xFF ++
    Buf.toList (fun k => f (8 + k)) (siz - 8)

theorem length_relocatedImage (h : 8 ≤ siz) : (relocatedImage f siz).length = siz := by
  simp only [relocatedImage, List.length_append, Buf.length_toList, List.length_replicate]
  omega

theorem relocatedImage_eq (h : 8 ≤ siz) :
    Buf.toList (originalHead f) siz = relocatedImage f siz := by
  obtain ⟨n, rfl⟩ := Nat.exists_eq_add_of_le h
  have hgoto : Buf.toList (originalHead f) 4 = Buf.toList (fun k => f (4 + k)) 4 :=
    Buf.toList_congr fun k hk => by rw [originalHead_goto hk, Nat.add_comm]
  have herased : Buf.toList (fun k => originalHead f (4 + k)) 4 = List.replicate 4 0xFF := rfl
  have huser : Buf.toList (fun k => originalHead f (4 + 4 + k)) n =
      Buf.toList (fun k => f (8 + k)) n :=
    Buf.toList_congr fun k _ => originalHead_user (Nat.le_add_right 8 k)
  rw [relocatedImage, Nat.add_sub_cancel_left, show 8 + n = 4 + 4 + n by rfl, Buf.toList_add,
    Buf.toList_add, hgoto, herased, huser]

/-- For a size below one chunk the subtraction wraps. -/
theorem length_hashedBytes_small (h : storedSize L s.flash < 64) :
    (hashedBytes L s).length = storedSize L s.flash + 2 ^ 24 := by
  rw [hashedBytes_feed, List.length_append, Buf.length_toList, flashBytes, Buf.length_toList,
    uint24Sub]
  omega

/-- **What is hashed is the stored image**, exactly for the sizes of at least one chunk; the digest
verified is then the digest of the image. -/
theorem hashed_image_iff (uECCVerify : List UInt8 → List UInt8 → List UInt8 → Bool) (L : Layout)
    (s : Nvm) (h8 : 8 ≤ storedSize L s.flash) (hle : storedSize L s.flash ≤ L.signatOffset) :
    (hashedBytes L s = relocatedImage s.flash (storedSize L s.flash) ↔ 64 ≤ storedSize L s.flash) ∧
      (64 ≤ storedSize L s.flash → (signatureValid uECCVerify L s).1 =
        uECCVerify ecPubKey (sha256 (relocatedImage s.flash (storedSize L s.flash)))
          (storedSignat L s.flash)) := by
  have hlarge : 64 ≤ storedSize L s.flash →
      hashedBytes L s = relocatedImage s.flash (storedSize L s.flash) := by
    intro h64
    rw [hashedBytes_eq ⟨h64, hle⟩, relocatedImage_eq h8]
  refine ⟨⟨fun heq => ?_, hlarge⟩, fun h64 => by rw [signatureValid_eq, hlarge h64]⟩
  apply Nat.le_of_not_lt
  intro hlt
  have hlen := congrArg List.length heq
  rw [length_hashedBytes_small hlt, length_relocatedImage h8] at hlen
  omega

theorem sizedFlash_hashes : hashedBytes pic18f25k22 (.powerUp sizedFlash) =
    relocatedImage sizedFlash (storedSize pic18f25k22 sizedFlash) :=
  (hashed_image_iff (fun _ _ _ => true) pic18f25k22 (.powerUp sizedFlash) (by decide)
    (by decide)).1.mpr (by decide)

/-- An image of eight bytes, the smallest with a `GOTO`. -/
theorem smallFlash_hashes : storedSize pic18f25k22 (Function.update sizedFlash 0xFFF 8) = 8 ∧
    hashedBytes pic18f25k22 (.powerUp (Function.update sizedFlash 0xFFF 8)) ≠
      relocatedImage (Function.update sizedFlash 0xFFF 8) 8 := by
  have hsize : storedSize pic18f25k22 (Function.update sizedFlash 0xFFF 8) = 8 := by decide
  have hlt : storedSize pic18f25k22 (Function.update sizedFlash 0xFFF 8) < 64 := by
    rw [hsize]
    decide
  refine ⟨hsize, fun heq => ?_⟩
  have hlen := congrArg List.length heq
  rw [length_hashedBytes_small (s := .powerUp (Function.update sizedFlash 0xFFF 8)) hlt,
    length_relocatedImage (Nat.le_refl 8)] at hlen
  change storedSize pic18f25k22 (Function.update sizedFlash 0xFFF 8) + 2 ^ 24 = 8 at hlen
  rw [hsize] at hlen
  exact absurd hlen (by decide)

end Pic18Boot
