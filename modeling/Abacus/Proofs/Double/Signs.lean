import Abacus.Proofs.Double.Rounds

/-!
# Kinds and signs of doubles

A double is finite, infinite or not a number. The minus sign in front of a double turns its sign
and nothing else.

* `isFinite_ofPoint`, `unsigned_ofPoint`: the kind and the sign of the double at a point.
* `neg_ofPoint`: the negative of the double at a point is the double at the point with the other
  sign.
-/

namespace Abacus.Double

open Float.Model Float.Model.UnpackedFloat

theorem isNaN_nan : nan.isNaN = true := by decide +kernel

theorem isInf_nan : nan.isInf = false := by decide +kernel

/-- A finite double is neither infinite nor not a number. -/
theorem apart_of_isFinite {x : Float} (h : x.isFinite = true) :
    x.isNaN = false ∧ x.isInf = false := by
  unfold Float.isFinite Float.Model.isFinite at h
  unfold Float.isNaN Float.Model.isNaN Float.isInf Float.Model.isInf
  cases hx : x.toModel.unpack with
  | notANumber | infinity =>
    rw [hx] at h
    cases h
  | zero | finite => exact ⟨rfl, rfl⟩

variable {m : Nat} {e : Int}

theorem isFinite_ofPoint (sign : Sign) (h : Canonical m e) (he : e ≤ 971) :
    (ofPoint sign m e).isFinite = true := by
  unfold Float.isFinite Float.Model.isFinite
  rw [unpack_ofPoint sign h he]
  unfold unpacked
  by_cases hm : m = 0
  · rw [dif_pos hm]
    rfl
  · rw [dif_neg hm]
    rfl

theorem unsigned_ofPoint (h : Canonical m e) (he : e ≤ 971) : Unsigned (ofPoint .positive m e) := by
  intro v hv
  rw [exact_ofPoint .positive h he] at hv
  cases hv
  rfl

theorem neg_unpacked (sign : Sign) (m : Nat) (e : Int) :
    (unpacked sign m e).neg = unpacked (-sign) m e := by
  unfold unpacked
  by_cases hm : m = 0
  · rw [dif_pos hm, dif_pos hm]
    rfl
  · rw [dif_neg hm, dif_neg hm]
    rfl

theorem neg_ofPoint (sign : Sign) (h : Canonical m e) (he : e ≤ 971) :
    -ofPoint sign m e = ofPoint (-sign) m e := by
  have hneg : -ofPoint sign m e = .ofModel (.pack (ofPoint sign m e).toModel.unpack.neg) := rfl
  rw [hneg, unpack_ofPoint sign h he, neg_unpacked]
  rfl

end Abacus.Double
