import Abacus.Double.Exact
import Abacus.Proofs.Double.Rounding

/-!
# The words of doubles

A double is kept as a word of a sign, an exponent field and a mantissa field. On the finite
doubles packing and unpacking are inverse to each other; beyond the greatest exponent packing
gives an infinity.

* `ofPoint sign m e`: the double at a point of the grid.
* `value`: the signed value of the exact parts (`Exact`) that a finite double has.
* The fields are those of `binary64`: a mantissa below `2 ^ 52` with the exponent field zero is the
  mantissa itself, any other has its leading bit left out.

The words themselves are opened in this module and nowhere else. Elsewhere doubles are points with
signs, and are packed and unpacked by the lemmas here.

Results:
* `exact_ofPoint`, `exists_ofPoint`: the finite doubles are the canonical points of the grid with
  exponents up to 971, each with both signs.
* `ofPoint_overflow`: every other point is packed as an infinity.
-/

namespace Abacus.Double

open Float.Model Float.Model.UnpackedFloat

/-! ## Fields -/

section Fields

variable (sign : Sign) (E : BitVec 11) (M : BitVec 52) (b : BitVec Format.binary64.numBits)

/-- The word with these fields. -/
def word : BitVec Format.binary64.numBits := packComponents Format.binary64 sign E M

theorem toNat_word :
    (word sign E M).toNat = sign.toBitVec.toNat * 2 ^ 63 + E.toNat * 2 ^ 52 + M.toNat := by
  have h : (word sign E M).toNat =
      ((sign.toBitVec.toNat <<< 11 ||| E.toNat) <<< 52) ||| M.toNat := by
    rw [word, packComponents, BitVec.toNat_append, BitVec.toNat_append]
  rw [h, ← Nat.shiftLeft_add_eq_or_of_lt E.isLt, ← Nat.shiftLeft_add_eq_or_of_lt M.isLt]
  simp only [Nat.shiftLeft_eq]
  omega

theorem toNat_unpackSign : (@unpackSign Format.binary64 b).toNat = b.toNat / 2 ^ 63 := by
  have hb : b.toNat < 2 ^ 64 := b.isLt
  have h : (@unpackSign Format.binary64 b).toNat = (b.extractLsb 63 63).toNat := rfl
  rw [h, BitVec.extractLsb_toNat, Nat.shiftRight_eq_div_pow]
  omega

theorem toNat_unpackExponent :
    (@unpackExponent Format.binary64 b).toNat = b.toNat / 2 ^ 52 % 2 ^ 11 := by
  simp [unpackExponent, Nat.shiftRight_eq_div_pow]

theorem toNat_unpackMantissa :
    (@unpackMantissa Format.binary64 b).toNat = b.toNat % 2 ^ 52 := by
  simp [unpackMantissa]

theorem ofBitVec_unpackSign_word :
    Sign.ofBitVec (@unpackSign Format.binary64 (word sign E M)) = sign := by
  have hE : E.toNat < 2 ^ 11 := E.isLt
  have hM : M.toNat < 2 ^ 52 := M.isLt
  have h : @unpackSign Format.binary64 (word sign E M) = sign.toBitVec := by
    apply BitVec.eq_of_toNat_eq
    rw [toNat_unpackSign, toNat_word]
    omega
  rw [h]
  cases sign <;> rfl

/-- Every word is the word with its fields. -/
theorem exists_word : ∃ sign E M, b = word sign E M := by
  have hs : ∀ s : BitVec 1, (Sign.ofBitVec s).toBitVec = s := by decide
  refine ⟨.ofBitVec (@unpackSign Format.binary64 b),
    @unpackExponent Format.binary64 b, @unpackMantissa Format.binary64 b, ?_⟩
  apply BitVec.eq_of_toNat_eq
  rw [toNat_word, hs, toNat_unpackSign, toNat_unpackExponent, toNat_unpackMantissa]
  omega

end Fields

/-! ## Unpacking -/

section Unpack

theorem finite_congr {sign : Sign} {m m' : Nat} {e e' : Int} {h : 0 < m} {h' : 0 < m'}
    (hm : m = m') (he : e = e') :
    UnpackedFloat.finite sign m e h = UnpackedFloat.finite sign m' e' h' := by
  subst hm he
  rfl

/-- What a word stands for, by its exponent field and its mantissa field. -/
theorem unpack_eq (b : BitVec Format.binary64.numBits) {E : BitVec 11} {M : BitVec 52}
    (hE : @unpackExponent Format.binary64 b = E) (hM : @unpackMantissa Format.binary64 b = M) :
    UnpackedFloat.unpack Format.binary64 b =
      if E = -1#11 then
        if M = 0#52 then .infinity (.ofBitVec (@unpackSign Format.binary64 b)) else .notANumber
      else if E = 0#11 then unpacked (.ofBitVec (@unpackSign Format.binary64 b)) M.toNat (-1074)
      else unpacked (.ofBitVec (@unpackSign Format.binary64 b)) (2 ^ 52 + M.toNat)
        (E.toNat - 1075) := by
  subst hE hM
  have hm : (1#1 ++ @unpackMantissa Format.binary64 b).toNat =
      2 ^ 52 + (@unpackMantissa Format.binary64 b).toNat := by
    rw [BitVec.toNat_append, ← Nat.shiftLeft_add_eq_or_of_lt (BitVec.isLt _)]
    rfl
  unfold UnpackedFloat.unpack unpacked
  by_cases h₁ : @unpackExponent Format.binary64 b = -1#11
  · rw [if_pos h₁, if_pos h₁]
  rw [if_neg h₁, if_neg h₁]
  by_cases h₀ : @unpackExponent Format.binary64 b = 0#11
  · rw [if_pos h₀, if_pos h₀]
    by_cases hz : @unpackMantissa Format.binary64 b = 0#52
    · have hz' : (@unpackMantissa Format.binary64 b).toNat = 0 := congrArg BitVec.toNat hz
      rw [dif_pos hz, dif_pos hz']
    · have hz' : (@unpackMantissa Format.binary64 b).toNat ≠ 0 :=
        fun h => hz (BitVec.eq_of_toNat_eq h)
      have he : ((@unpackExponent Format.binary64 b).toNat : Int) -
          (Format.binary64.exponentBias + (52 : Nat)) + 1 = -1074 := by
        rw [h₀]
        rfl
      rw [dif_neg hz, dif_neg hz']
      exact finite_congr rfl he
  · rw [if_neg h₀, if_neg h₀, dif_neg (by omega)]
    exact finite_congr hm rfl

variable (sign : Sign) (E : BitVec 11) (M : BitVec 52)

/-- What the fields of a word stand for. -/
theorem unpack_word :
    UnpackedFloat.unpack Format.binary64 (word sign E M) =
      if E = -1#11 then if M = 0#52 then .infinity sign else .notANumber
      else if E = 0#11 then unpacked sign M.toNat (-1074)
      else unpacked sign (2 ^ 52 + M.toNat) (E.toNat - 1075) := by
  have hE : @unpackExponent Format.binary64 (word sign E M) = E :=
    unpackExponent_packComponents
  have hM : @unpackMantissa Format.binary64 (word sign E M) = M :=
    unpackMantissa_packComponents
  rw [unpack_eq _ hE hM, ofBitVec_unpackSign_word]

end Unpack

/-! ## Packing -/

section Pack

variable (sign : Sign) {m : Nat} {e : Int}

theorem pack_eq (hm : m ≠ 0) :
    UnpackedFloat.pack Format.binary64 (unpacked sign m e) =
      if 2 ^ 11 ≤ (e + 1075).toNat + 1 then word sign (-1#11) 0#52
      else if m.log2 + 1 = 53 then
        word sign (BitVec.ofNat 11 (e + 1075).toNat) (BitVec.ofNat 52 m)
      else word sign 0#11 (BitVec.ofNat 52 m) := by
  have hbias : e + 1075 = e + (Format.binary64.exponentBias : Int) +
      (Format.binary64.mantissaBitsWithoutImplicit : Int) := by
    rw [Int.add_assoc]
    rfl
  rw [unpacked, dif_neg hm, hbias]
  rfl

theorem pack_subnormal (hm : m < 2 ^ 52) :
    UnpackedFloat.pack Format.binary64 (unpacked sign m (-1074)) =
      word sign 0#11 (BitVec.ofNat 52 m) := by
  by_cases h0 : m = 0
  · subst h0
    rfl
  · have hlog : m.log2 < 52 := (Nat.log2_lt h0).mpr hm
    rw [pack_eq sign h0, if_neg (by decide), if_neg (by omega)]

theorem pack_normal (hge : 2 ^ 52 ≤ m) (hlt : m < 2 ^ 53) (he : -1074 ≤ e) (he' : e ≤ 971) :
    UnpackedFloat.pack Format.binary64 (unpacked sign m e) =
      word sign (BitVec.ofNat 11 (e + 1075).toNat) (BitVec.ofNat 52 m) := by
  have h0 : m ≠ 0 := by omega
  have hlog : m.log2 < 53 := (Nat.log2_lt h0).mpr hlt
  have hlog' : 52 ≤ m.log2 := (Nat.le_log2 h0).mpr hge
  rw [pack_eq sign h0, if_neg (by omega), if_pos (by omega)]

theorem pack_overflow (hm : m ≠ 0) (he : 971 < e) :
    UnpackedFloat.pack Format.binary64 (unpacked sign m e) = word sign (-1#11) 0#52 := by
  rw [pack_eq sign hm, if_pos (by omega)]

/-- Nothing is lost when a point is packed. -/
theorem unpack_pack (h : Canonical m e) (he : e ≤ 971) :
    UnpackedFloat.unpack Format.binary64 (UnpackedFloat.pack Format.binary64 (unpacked sign m e)) =
      unpacked sign m e := by
  have hlt := h.lt
  by_cases hm : m < 2 ^ 52
  · have he : e = -1074 := h.full.resolve_left (by omega)
    rw [he, pack_subnormal sign hm, unpack_word, if_neg (by decide), if_pos rfl,
      BitVec.toNat_ofNat, Nat.mod_eq_of_lt hm]
  · have hleast := h.least
    have hE : (BitVec.ofNat 11 (e + 1075).toNat).toNat = (e + 1075).toNat := by
      rw [BitVec.toNat_ofNat]
      omega
    have hM : 2 ^ 52 + (BitVec.ofNat 52 m).toNat = m := by
      rw [BitVec.toNat_ofNat]
      omega
    have h₀ : BitVec.ofNat 11 (e + 1075).toNat ≠ 0#11 := by
      intro h
      rw [h] at hE
      change 0 = _ at hE
      omega
    have h₁ : BitVec.ofNat 11 (e + 1075).toNat ≠ -1#11 := by
      intro h
      rw [h] at hE
      change 2047 = _ at hE
      omega
    rw [pack_normal sign (by omega) hlt hleast he, unpack_word, if_neg h₁, if_neg h₀,
      hE, hM]
    congr 1
    omega

end Pack

/-! ## Doubles -/

/-- The double at a point of the grid. -/
def ofPoint (sign : Sign) (m : Nat) (e : Int) : Float := .ofModel (.pack (unpacked sign m e))

theorem unpack_ofPoint {m : Nat} {e : Int} (sign : Sign) (h : Canonical m e) (he : e ≤ 971) :
    (ofPoint sign m e).toModel.unpack = unpacked sign m e :=
  unpack_pack sign h he

theorem ofPoint_eq {m : Nat} {e : Int} {sign : Sign} {x : Float}
    (h : UnpackedFloat.pack Format.binary64 (unpacked sign m e) = x.toModel.toBits.toBitVec) :
    x = ofPoint sign m e := by
  obtain ⟨⟨bits, valid⟩⟩ := x
  unfold ofPoint Float.Model.pack
  congr 2
  rw [h]

theorem infinity_eq : infinity = .ofModel (.pack (.infinity .positive)) := by
  with_unfolding_all rfl

theorem ofPoint_overflow {m : Nat} {e : Int} (h : Canonical m e) (he : 971 < e) :
    ofPoint .positive m e = infinity := by
  have hm : m ≠ 0 := by
    have := h.full
    omega
  rw [infinity_eq]
  unfold ofPoint Float.Model.pack
  congr 2
  rw [pack_overflow _ hm he]
  rfl

/-- Every finite double stands on the grid. -/
theorem exists_ofPoint {x : Float} {v : Exact} (hx : Exact.of? x = some v) :
    ∃ sign m e, Canonical m e ∧ e ≤ 971 ∧ x = ofPoint sign m e := by
  obtain ⟨sign, E, M, hb⟩ := exists_word x.toModel.toBits.toBitVec
  have hunpack : x.toModel.unpack = UnpackedFloat.unpack Format.binary64 (word sign E M) := by
    rw [← hb]
    rfl
  have hM : M.toNat < 2 ^ 52 := M.isLt
  have hE : E.toNat < 2 ^ 11 := E.isLt
  rw [unpack_word] at hunpack
  unfold Exact.of? at hx
  rw [hunpack] at hx
  by_cases h₁ : E = -1#11
  · rw [if_pos h₁] at hx
    by_cases hz : M = 0#52
    · rw [if_pos hz] at hx
      cases hx
    · rw [if_neg hz] at hx
      cases hx
  by_cases h₀ : E = 0#11
  · refine ⟨sign, M.toNat, -1074, ⟨by omega, le_rfl, .inr rfl⟩, by decide, ofPoint_eq ?_⟩
    rw [pack_subnormal sign hM, hb, h₀, BitVec.ofNat_toNat, BitVec.setWidth_eq]
  · have hpos : E.toNat ≠ 0 := fun h => h₀ (BitVec.eq_of_toNat_eq h)
    have hmax : E.toNat ≠ 2047 := fun h => h₁ (BitVec.eq_of_toNat_eq h)
    refine ⟨sign, 2 ^ 52 + M.toNat, E.toNat - 1075, ⟨by omega, by omega, .inl (by omega)⟩,
      by omega, ofPoint_eq ?_⟩
    have hM' : BitVec.ofNat 52 (2 ^ 52 + M.toNat) = M := by
      apply BitVec.eq_of_toNat_eq
      rw [BitVec.toNat_ofNat]
      omega
    rw [pack_normal sign (by omega) (by omega) (by omega) (by omega), Int.sub_add_cancel,
      Int.toNat_natCast, BitVec.ofNat_toNat, BitVec.setWidth_eq, hM', hb]

/-! ## Values -/

/-- The signed value. -/
def value (v : Exact) : ℚ :=
  if v.negative then -point v.mantissa v.exponent else point v.mantissa v.exponent

/-- The exact value of the double at a point. -/
theorem exact_ofPoint {m : Nat} {e : Int} (sign : Sign) (h : Canonical m e) (he : e ≤ 971) :
    Exact.of? (ofPoint sign m e) = some ⟨sign == .negative, m, if m = 0 then 0 else e⟩ := by
  unfold Exact.of?
  rw [unpack_ofPoint sign h he]
  by_cases hm : m = 0
  · subst hm
    rfl
  · rw [unpacked, dif_neg hm, if_neg hm]

/-- The exponent of zero makes no difference. -/
theorem point_exact (m : Nat) (e : Int) : point m (if m = 0 then 0 else e) = point m e := by
  by_cases hm : m = 0
  · rw [if_pos hm, hm, point_zero, point_zero]
  · rw [if_neg hm]

end Abacus.Double
