import Pic18Boot.Theory.Partial
import Pic18Boot.Verify.Ecdsa

/-! # The builds of the verifier

`uECC_verify` returns on every input in the build that ships (`uECCVerify_shipped_returns`) and in
the one at `uECC_OPTIMIZATION_LEVEL` 0. Where the reduction of the shipped build drops no
carry in a run, both give the same answer (`uECCVerify_answers`). -/

namespace Pic18Boot

open Partial

variable {f g : Vli → Option Vli} {u1 u2 pub sum v w x y z x1 y1 z1 x2 y2 rx ry point : Vli}
variable {mod bits : Vli} {k n hashSize : Nat} {b : Bool} {Q : Point}
variable {publicKey messageHash signature : List UInt8}

/-! ### Every call returns -/

theorem length_vliModAdd (hv : v.length = n) (hw : w.length = n) (hm : mod.length = n) :
    (vliModAdd v w mod).length = n := by
  have hadd : (vliAdd v w).1.length = n := (length_vliAdd (hv.trans hw.symm)).trans hv
  rw [vliModAdd]
  split
  · exact (length_vliSub (hadd.trans hm.symm)).trans hadd
  · exact hadd

theorem length_vliModSub (hv : v.length = n) (hw : w.length = n) (hm : mod.length = n) :
    (vliModSub v w mod).length = n := by
  have hsub : (vliSub v w).1.length = n := (length_vliSub (hv.trans hw.symm)).trans hv
  rw [vliModSub]
  split
  · exact (length_vliAdd (hsub.trans hm.symm)).trans hsub
  · exact hsub

theorem vliModMultFast_yields (hf : Returns f) (hv : v.length = 8) (hw : w.length = 8) :
    Yields (vliModMultFast (curveWith f) v w) (·.length = 8) :=
  hf (value_vliMult (n := 8) hv hw (by decide) (by decide)).1

theorem vliModInv_yields (hv : v.length = 8) (hm : mod.length = 8)
    (hodd : word.value mod % 2 = 1) (h1 : 1 < word.value mod) :
    Yields (vliModInv v mod) (·.length = 8) := by
  obtain ⟨w, hw, hlen, -⟩ := vliModInv_spec hv hm (by decide) hodd h1
  exact ⟨w, hw, hlen⟩

/-- Three numbers of eight words. -/
def Sized3 (p : Vli × Vli × Vli) : Prop := p.1.length = 8 ∧ p.2.1.length = 8 ∧ p.2.2.length = 8

theorem doubleJacobianSecp256k1_yields (hf : Returns f) (hx : x1.length = 8) (hy : y1.length = 8)
    (hz : z1.length = 8) : Yields (doubleJacobianSecp256k1 (curveWith f) x1 y1 z1) Sized3 := by
  have hp := length_secp256k1P
  rw [doubleJacobianSecp256k1]
  split
  · exact .some ⟨hx, hy, hz⟩
  · refine (vliModMultFast_yields hf hy hy).bind fun t5 h5 => ?_
    refine (vliModMultFast_yields hf hx h5).bind fun t4 h4 => ?_
    refine (vliModMultFast_yields hf hx hx).bind fun xx hxx => ?_
    refine (vliModMultFast_yields hf h5 h5).bind fun t5' h5' => ?_
    refine (vliModMultFast_yields hf hy hz).bind fun zz hzz => ?_
    have h3 := length_vliModAdd (length_vliModAdd hxx hxx hp) hxx hp
    have hhalf := (modInvUpdate_eq h3 hp (by decide)).1
    rw [← half_eq_modInvUpdate h3] at hhalf
    refine (vliModMultFast_yields hf hhalf hhalf).bind fun b2 hb2 => ?_
    have hx3 := length_vliModSub (length_vliModSub hb2 h4 hp) h4 hp
    refine (vliModMultFast_yields hf hhalf (length_vliModSub h4 hx3 hp)).bind fun yb hyb => ?_
    exact .some ⟨hx3, length_vliModSub hyb h5' hp, hzz⟩

theorem applyZ_yields (hf : Returns f) (hx : x1.length = 8) (hy : y1.length = 8)
    (hz : z.length = 8) :
    Yields (applyZ (curveWith f) x1 y1 z) fun p => p.1.length = 8 ∧ p.2.length = 8 := by
  refine (vliModMultFast_yields hf hz hz).bind fun t1 h1 => ?_
  refine (vliModMultFast_yields hf hx h1).bind fun xx hxx => ?_
  refine (vliModMultFast_yields hf h1 hz).bind fun t1' h1' => ?_
  exact (vliModMultFast_yields hf hy h1').bind fun yy hyy => .some ⟨hxx, hyy⟩

theorem xyczAdd_yields (hf : Returns f) (hx1 : x1.length = 8) (hy1 : y1.length = 8)
    (hx2 : x2.length = 8) (hy2 : y2.length = 8) : Yields (xyczAdd (curveWith f) x1 y1 x2 y2)
      fun p => p.2.2.1.length = 8 ∧ p.2.2.2.length = 8 := by
  have hp := length_secp256k1P
  have hdx := length_vliModSub hx2 hx1 hp
  have hdy := length_vliModSub hy2 hy1 hp
  refine (vliModMultFast_yields hf hdx hdx).bind fun a ha => ?_
  refine (vliModMultFast_yields hf hx1 ha).bind fun b hb => ?_
  refine (vliModMultFast_yields hf hx2 ha).bind fun c hc => ?_
  refine (vliModMultFast_yields hf hdy hdy).bind fun d hd => ?_
  have hx3 := length_vliModSub (length_vliModSub hd hb hp) hc hp
  refine (vliModMultFast_yields hf hy1 (length_vliModSub hc hb hp)).bind fun e he => ?_
  refine (vliModMultFast_yields hf hdy (length_vliModSub hb hx3 hp)).bind fun k hk => ?_
  exact .some ⟨hx3, length_vliModSub hk he hp⟩

theorem addPoint_yields (hf : Returns f) (hpoint : point.length = 16) (hx : rx.length = 8)
    (hy : ry.length = 8) (hz : z.length = 8) :
    Yields (addPoint (curveWith f) point rx ry z) Sized3 := by
  have htake : (point.take 8).length = 8 := by rw [List.length_take]; omega
  have hdrop : (point.drop 8).length = 8 := by rw [List.length_drop]; omega
  refine (applyZ_yields hf htake hdrop hz).bind fun t ht => ?_
  refine (xyczAdd_yields hf ht.1 ht.2 hx hy).bind fun s hs => ?_
  refine (vliModMultFast_yields hf hz (length_vliModSub hx ht.1 length_secp256k1P)).bind
    fun zz hzz => ?_
  exact .some ⟨hs.1, hs.2, hzz⟩

theorem shamirPoint_length {b1 b2 : Bool} (hpub : pub.length = 16) (hsum : sum.length = 16)
    (h : shamirPoint secp256k1G pub sum b1 b2 = some point) : point.length = 16 := by
  cases b1 <;> cases b2 <;> cases h
  · exact hpub
  · rfl
  · exact hsum

theorem shamirLoop_yields (hf : Returns f) (hpub : pub.length = 16) (hsum : sum.length = 16)
    (hx : rx.length = 8) (hy : ry.length = 8) (hz : z.length = 8) :
    Yields (shamirLoop (curveWith f) u1 u2 pub sum k rx ry z) Sized3 := by
  induction k generalizing rx ry z with
  | zero => exact .some ⟨hx, hy, hz⟩
  | succ k ih =>
    rw [shamirLoop_succ]
    refine (doubleJacobianSecp256k1_yields hf hx hy hz).bind fun d hd => ?_
    cases hpoint : shamirPoint (curveWith f).G pub sum (vliTestBit u1 k) (vliTestBit u2 k) with
    | none => exact ih hd.1 hd.2.1 hd.2.2
    | some point =>
      refine (addPoint_yields hf (shamirPoint_length hpub hsum hpoint) hd.1 hd.2.1 hd.2.2).bind
        fun s hs => ?_
      exact ih hs.1 hs.2.1 hs.2.2

theorem modInv_field_yields (hv : v.length = 8) :
    Yields (vliModInv v secp256k1P) (·.length = 8) :=
  vliModInv_yields hv length_secp256k1P (by rw [value_secp256k1P]; decide)
    (by rw [value_secp256k1P]; decide)

theorem shamirSum_yields (hf : Returns f) (hpub : pub.length = 16) :
    Yields (shamirSum (curveWith f) pub) (·.length = 16) := by
  have htake : (pub.take 8).length = 8 := by rw [List.length_take]; omega
  have hdrop : (pub.drop 8).length = 8 := by rw [List.length_drop]; omega
  have hg : (secp256k1G.take 8).length = 8 ∧ (secp256k1G.drop 8).length = 8 := ⟨rfl, rfl⟩
  refine (xyczAdd_yields hf hg.1 hg.2 htake hdrop).bind fun s hs => ?_
  refine (modInv_field_yields (length_vliModSub htake hg.1 length_secp256k1P)).bind fun w hw => ?_
  refine (applyZ_yields hf hs.1 hs.2 hw).bind fun a ha => .some ?_
  rw [List.length_append, ha.1, ha.2]

theorem shamirX_yields (hf : Returns f) (hpub : pub.length = 16)
    (hpos : 0 < max (word.value u1).size (word.value u2).size) :
    Yields (shamirX (curveWith f) u1 u2 pub) (·.length = 8) := by
  refine (shamirSum_yields hf hpub).bind fun sum hsum => ?_
  simp only [smax_eq, G_curveWith, numWords_curveWith]
  generalize hk : max (word.value u1).size (word.value u2).size - 1 = k
  -- one of the highest bits is set, so there is a point to start from
  have hstart : ∃ point, shamirPoint secp256k1G pub sum (vliTestBit u1 k) (vliTestBit u2 k) =
      some point := by
    obtain ⟨P, hP⟩ := DoubleAndAdd.exists_select (g := ()) (q := ()) (s := ()) hpos
    rw [hk, ← vliTestBit_eq, ← vliTestBit_eq] at hP
    revert hP
    cases vliTestBit u1 k <;> cases vliTestBit u2 k <;>
      simp [DoubleAndAdd.select, shamirPoint]
  obtain ⟨point, hpoint⟩ := hstart
  have hlen := shamirPoint_length hpub hsum hpoint
  rw [hpoint, Option.getD_some]
  refine (shamirLoop_yields hf hpub hsum (by rw [List.length_take]; omega)
    (by rw [List.length_drop]; omega) rfl).bind fun l hl => ?_
  refine (modInv_field_yields hl.2.2).bind fun w hw => ?_
  exact (applyZ_yields hf hl.1 hl.2.1 hw).bind fun a ha => .some ha.1

theorem length_publicPoint (h : publicKey.length = 64) :
    (publicPoint curveSecp256k1 publicKey).length = 16 := by
  obtain ⟨⟨hxlen, -⟩, hylen, -⟩ := halves_eq h
  exact List.length_append.trans (congrArg₂ _ hxlen hylen)

/-- **The verifier returns**, whatever the key, the hash and the signature are. -/
theorem uECCVerify_returns (hf : Returns f) (hkey : publicKey.length = 64)
    (hhash : hashSize ≤ messageHash.length) (hsig : signature.length = 64) :
    ∃ b, uECCVerify publicKey messageHash hashSize signature (curveWith f) = some b := by
  by_cases hrange : InRange signature
  swap
  · exact ⟨false, uECCVerify_of_not_inRange hsig hrange⟩
  rw [uECCVerify_of_inRange hsig hrange]
  obtain ⟨⟨hrlen, hr⟩, hslen, hs⟩ := halves_eq hsig
  rw [← signatureR] at hr
  rw [← signatureS] at hs
  obtain ⟨⟨hr0, hrn⟩, hs0, hsn⟩ := hrange
  obtain ⟨z, hz, hzlen, -⟩ := vliModInv_spec hslen length_secp256k1N (by decide)
    (by rw [value_secp256k1N]; decide) (by rw [value_secp256k1N]; decide)
  obtain ⟨-, hzval⟩ := value_modInv_order hslen (hs ▸ hs0.ne') (hs ▸ hsn) hz
  obtain ⟨helen, heval⟩ := bits2int_eq (f := f) hhash
  obtain ⟨-, hu1⟩ := value_scalar helen hzlen hzval
  obtain ⟨-, hu2⟩ := value_scalar hrlen hzlen hzval
  rw [heval, hs, ← Ecdsa.u₁] at hu1
  rw [hr, hs, ← Ecdsa.u₂] at hu2
  have hpub := length_publicPoint hkey
  have hpos := size_scalars_pos (e := digest messageHash hashSize) hr0.ne' hrn hs0.ne' hsn
  rw [← hu1, ← hu2] at hpos
  obtain ⟨rx, hrx, -⟩ := shamirX_yields hf hpub hpos
  rw [hz, Option.bind_some, hrx, Option.bind_some]
  exact ⟨_, rfl⟩

theorem uECCVerify_shipped_returns (hkey : publicKey.length = 64)
    (hhash : hashSize ≤ messageHash.length) (hsig : signature.length = 64) :
    ∃ b, uECCVerify publicKey messageHash hashSize signature curveSecp256k1 = some b :=
  uECCVerify_returns returns_shipped hkey hhash hsig

/-! ### Two reductions, one of which extends the other -/

section Refines
variable (hfg : ∀ product, Refines (f product) (g product))
include hfg

theorem vliModMultFast_refines :
    Refines (vliModMultFast (curveWith f) v w) (vliModMultFast (curveWith g) v w) := hfg _

theorem vliModSquareFast_refines :
    Refines (vliModSquareFast (curveWith f) v) (vliModSquareFast (curveWith g) v) := hfg _

theorem doubleJacobianSecp256k1_refines :
    Refines (doubleJacobianSecp256k1 (curveWith f) x1 y1 z1)
      (doubleJacobianSecp256k1 (curveWith g) x1 y1 z1) := by
  refine .ite (.refl _) ?_
  refine (vliModSquareFast_refines hfg).bind fun _ => ?_
  refine (vliModMultFast_refines hfg).bind fun _ => ?_
  refine (vliModSquareFast_refines hfg).bind fun _ => ?_
  refine (vliModSquareFast_refines hfg).bind fun _ => ?_
  refine (vliModMultFast_refines hfg).bind fun _ => ?_
  refine (vliModSquareFast_refines hfg).bind fun _ => ?_
  exact (vliModMultFast_refines hfg).bind fun _ => .refl _

theorem applyZ_refines :
    Refines (applyZ (curveWith f) x1 y1 z) (applyZ (curveWith g) x1 y1 z) := by
  refine (vliModSquareFast_refines hfg).bind fun _ => ?_
  refine (vliModMultFast_refines hfg).bind fun _ => ?_
  refine (vliModMultFast_refines hfg).bind fun _ => ?_
  exact (vliModMultFast_refines hfg).bind fun _ => .refl _

theorem xyczAdd_refines :
    Refines (xyczAdd (curveWith f) x1 y1 x2 y2) (xyczAdd (curveWith g) x1 y1 x2 y2) := by
  refine (vliModSquareFast_refines hfg).bind fun _ => ?_
  refine (vliModMultFast_refines hfg).bind fun _ => ?_
  refine (vliModMultFast_refines hfg).bind fun _ => ?_
  refine (vliModSquareFast_refines hfg).bind fun _ => ?_
  refine (vliModMultFast_refines hfg).bind fun _ => ?_
  exact (vliModMultFast_refines hfg).bind fun _ => .refl _

theorem addPoint_refines :
    Refines (addPoint (curveWith f) point rx ry z) (addPoint (curveWith g) point rx ry z) := by
  refine (applyZ_refines hfg).bind fun _ => ?_
  refine (xyczAdd_refines hfg).bind fun _ => ?_
  exact (vliModMultFast_refines hfg).bind fun _ => .refl _

theorem shamirLoop_refines : Refines (shamirLoop (curveWith f) u1 u2 pub sum k rx ry z)
    (shamirLoop (curveWith g) u1 u2 pub sum k rx ry z) := by
  induction k generalizing rx ry z with
  | zero => exact .refl _
  | succ k ih =>
    rw [shamirLoop_succ, shamirLoop_succ]
    refine (doubleJacobianSecp256k1_refines hfg).bind fun d => ?_
    rw [G_curveWith, G_curveWith]
    cases shamirPoint secp256k1G pub sum (vliTestBit u1 k) (vliTestBit u2 k) with
    | none => exact ih
    | some point => exact (addPoint_refines hfg).bind fun _ => ih

theorem shamirX_refines : Refines (shamirX (curveWith f) u1 u2 pub)
    (shamirX (curveWith g) u1 u2 pub) := by
  have hsum : Refines (shamirSum (curveWith f) pub) (shamirSum (curveWith g) pub) :=
    (xyczAdd_refines hfg).bind fun _ => .bind (.refl _) fun _ => (applyZ_refines hfg).bind
      fun _ => .refl _
  refine hsum.bind fun _ => ?_
  refine (shamirLoop_refines hfg).bind fun _ => .bind (.refl _) fun _ => ?_
  exact (applyZ_refines hfg).bind fun _ => .refl _

theorem uECCVerify_refines (hsig : signature.length = 64) :
    Refines (uECCVerify publicKey messageHash hashSize signature (curveWith f))
      (uECCVerify publicKey messageHash hashSize signature (curveWith g)) := by
  by_cases hrange : InRange signature
  · rw [uECCVerify_of_inRange hsig hrange, uECCVerify_of_inRange hsig hrange]
    exact .bind (.refl _) fun _ => (shamirX_refines hfg).bind fun _ => .refl _
  · rw [uECCVerify_of_not_inRange hsig hrange, uECCVerify_of_not_inRange hsig hrange]
    exact .refl _

end Refines

/-- **The shipped build** returns what the guarded run returns, if that returns. -/
theorem uECCVerify_shipped (hsig : signature.length = 64)
    (h : uECCVerify publicKey messageHash hashSize signature (curveWith guarded) = some b) :
    uECCVerify publicKey messageHash hashSize signature curveSecp256k1 = some b :=
  uECCVerify_refines (g := curveSecp256k1.mmodFast) (fun _ _ => guarded_shipped) hsig b h

/-- What the builds answer to a signature: the plain one whether `p` holds, and the shipped one the
same unless a product of the run loses a carry, where it answers something. -/
def Answers (publicKey messageHash : List UInt8) (hashSize : Nat) (signature : List UInt8)
    (p : Prop) : Prop :=
  (∃ b, uECCVerify publicKey messageHash hashSize signature (curveWith plain) = some b ∧
    (b = true ↔ p)) ∧
  (∃ b, uECCVerify publicKey messageHash hashSize signature curveSecp256k1 = some b) ∧
  (uECCVerify publicKey messageHash hashSize signature (curveWith guarded) = none ∨
    uECCVerify publicKey messageHash hashSize signature curveSecp256k1 =
      uECCVerify publicKey messageHash hashSize signature (curveWith plain))

/-- **Both builds verify signatures**: they accept the valid ones whose run is regular. -/
theorem uECCVerify_answers (hkey : IsPoint (publicPoint curveSecp256k1 publicKey) Q)
    (hne : Q ≠ generator) (hneg : Q ≠ -generator) (hlen : publicKey.length = 64)
    (hhash : hashSize ≤ messageHash.length) (hsig : signature.length = 64) :
    Answers publicKey messageHash hashSize signature
      (Ecdsa.Valid orderN xCoordinate generator Q (digest messageHash hashSize)
          (signatureR signature) (signatureS signature) ∧
        RegularRun Q (digest messageHash hashSize) (signatureR signature)
          (signatureS signature)) := by
  obtain ⟨b, hb⟩ := uECCVerify_returns returns_plain hlen hhash hsig
  have hiff := uECCVerify_iff reduces_plain hkey hne hneg hhash hsig hb
  refine ⟨⟨b, hb, hiff⟩, uECCVerify_shipped_returns hlen hhash hsig, ?_⟩
  cases hc : uECCVerify publicKey messageHash hashSize signature (curveWith guarded) with
  | none => exact .inl rfl
  | some c =>
    have hbc : c = b := Bool.eq_iff_iff.mpr
      ((uECCVerify_iff reduces_guarded hkey hne hneg hhash hsig hc).trans hiff.symm)
    exact .inr ((uECCVerify_shipped hsig hc).trans (hbc ▸ hb.symm))

end Pic18Boot
