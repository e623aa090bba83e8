import Mathlib.Data.Rat.Floor
import Mathlib.Algebra.Order.Field.Power
import Abacus.Proofs.Evaluation.Application
import Abacus.Proofs.History.Atomicity

/-!
# Powers are exact

`pow` gives the rational power of its arguments without its fraction, whatever their signs and sizes
are, unless the power would grow with an exponent beyond the bound (`power_eq`). A formula that
calls it has this value, or raises what it raises (`eval_power`).
-/
namespace Abacus

def towardZero (q : ℚ) : Int := if 0 ≤ q then ⌊q⌋ else ⌈q⌉

theorem towardZero_intCast (n : Int) : towardZero n = n := by
  unfold towardZero
  split
  · exact Int.floor_intCast n
  · exact Int.ceil_intCast n

theorem towardZero_of_abs_lt_one {q : ℚ} (hq : |q| < 1) : towardZero q = 0 := by
  obtain ⟨hlower, hupper⟩ := abs_lt.mp hq
  unfold towardZero
  split
  · next hnonneg => exact Int.floor_eq_zero_iff.mpr ⟨hnonneg, hupper⟩
  · next hneg =>
    refine Int.ceil_eq_zero_iff.mpr ⟨hlower, ?_⟩
    exact (not_le.mp hneg).le

namespace Standard

variable {b e : Int}

/-- The power grows with an exponent beyond the bound. -/
def Excessive (b e : Int) : Prop := 2 ≤ |b| ∧ maxExponent < e

theorem base_cases (b : Int) : b = 0 ∨ b = 1 ∨ b = -1 ∨ 2 ≤ |b| := by
  rw [Int.abs_eq_natAbs]
  omega

theorem power_of_large (hb : 2 ≤ |b|) :
    power b e = if e < 0 then .ok 0
      else if e > maxExponent then do throw (.powerTooLarge (← decimal e) maxExponent)
      else .ok (b ^ e.toNat) := by
  rw [Int.abs_eq_natAbs] at hb
  rw [power, if_neg (by omega), if_neg (by omega), if_neg (by omega)]
  rfl

/-- What is not refused is the power without its fraction. -/
theorem power_eq (h : ¬ Excessive b e) : power b e = .ok (towardZero ((b : ℚ) ^ e)) := by
  rcases base_cases b with rfl | rfl | rfl | hb
  · by_cases he : e = 0
    · subst he
      rw [zpow_zero]
      exact congrArg Except.ok (towardZero_intCast 1).symm
    · have hzero : power 0 e = .ok 0 := congrArg Except.ok (if_neg he)
      rw [hzero, Int.cast_zero, zero_zpow e he]
      exact congrArg Except.ok (towardZero_intCast 0).symm
  · rw [Int.cast_one, one_zpow]
    exact congrArg Except.ok (towardZero_intCast 1).symm
  · have hcast : ((-1 : Int) : ℚ) = -1 := by rw [Int.cast_neg, Int.cast_one]
    rw [hcast]
    rcases Int.even_or_odd e with he | he
    · have hone : power (-1) e = .ok 1 := congrArg Except.ok (if_pos (Int.even_iff.mp he))
      rw [hone, he.neg_one_zpow]
      exact congrArg Except.ok (towardZero_intCast 1).symm
    · have hne : e % 2 ≠ 0 := by
        rw [Int.odd_iff.mp he]
        exact one_ne_zero
      have hminus : power (-1) e = .ok (-1) := congrArg Except.ok (if_neg hne)
      rw [hminus, he.neg_one_zpow, ← hcast, towardZero_intCast]
  · rw [power_of_large hb]
    rcases lt_or_ge e 0 with he | he
    · have hone : 1 < |(b : ℚ)| := by
        rw [← Int.cast_abs]
        exact_mod_cast hb
      rw [if_pos he, towardZero_of_abs_lt_one]
      rw [abs_zpow]
      exact zpow_lt_one_of_neg₀ hone he
    · obtain ⟨n, rfl⟩ := Int.eq_ofNat_of_zero_le he
      rw [if_neg (Int.not_lt.mpr he), if_neg fun hlarge => h ⟨hb, hlarge⟩, zpow_natCast,
        ← Int.cast_pow, towardZero_intCast, Int.toNat_natCast]

/-- What is refused is named in the message, as far as it can be shown. -/
theorem power_of_excessive (h : Excessive b e) :
    (Showable e → power b e = .error (.powerTooLarge (toString e) maxExponent)) ∧
      (¬ Showable e → power b e = .error .numeralTooLong) := by
  obtain ⟨hb, he⟩ := h
  have hnonneg : ¬ e < 0 := Int.not_lt.mpr ((Int.natCast_nonneg maxExponent).trans he.le)
  rw [power_of_large hb, if_neg hnonneg, if_pos he]
  constructor
  · intro hshow
    rw [decimal_of_showable hshow]
    rfl
  · intro hlong
    rw [decimal_of_not_showable hlong]
    rfl

theorem exists_power_error_iff : (∃ f, power b e = .error f) ↔ Excessive b e := by
  by_cases h : Excessive b e
  · refine iff_of_true ?_ h
    by_cases hshow : Showable e
    · exact ⟨_, (power_of_excessive h).1 hshow⟩
    · exact ⟨_, (power_of_excessive h).2 hshow⟩
  · rw [power_eq h]
    exact iff_of_false nofun h

theorem power_natCast {n : Nat} (h : ¬ Excessive b n) : power b n = .ok (b ^ n) := by
  rw [power_eq h, zpow_natCast, ← Int.cast_pow, towardZero_intCast]

/-- A power that is not refused is the product of two powers. -/
theorem power_add {m n v : Int} (hm : 0 ≤ m) (hn : 0 ≤ n) (h : power b (m + n) = .ok v) :
    ∃ p q, power b m = .ok p ∧ power b n = .ok q ∧ v = p * q := by
  obtain ⟨m, rfl⟩ := Int.eq_ofNat_of_zero_le hm
  obtain ⟨n, rfl⟩ := Int.eq_ofNat_of_zero_le hn
  have hsum : ¬ Excessive b (m + n : Nat) := by
    rw [← exists_power_error_iff, Int.natCast_add, h]
    exact nofun
  have hle : ∀ k : Nat, k ≤ m + n → ¬ Excessive b k :=
    fun k hk hex => hsum ⟨hex.1, hex.2.trans_le (Int.ofNat_le.mpr hk)⟩
  rw [← Int.natCast_add, power_natCast hsum] at h
  exact ⟨_, _, power_natCast (hle m (Nat.le_add_right m n)),
    power_natCast (hle n (Nat.le_add_left n m)), (Except.ok.inj h).symm.trans (pow_add b m n)⟩

end Standard

open Standard

def Symbols.HasPower {φ : Type} (s : Symbols φ) : Prop :=
  s.value? "pow" = none ∧ s.routine? "pow" = some Standard.pow.routine

namespace Calculator

variable {φ ε : Type} {c : Calculator φ ε}

theorem hasPower_install {names : Option (List String)} (h : (c.install names).1 = .ok ())
    (hpow : "pow" ∈ Standard.selected names) : (c.install names).2.symbols.HasPower := by
  rcases c.symbols.install_cases (Standard.selected names) with ⟨e, he⟩ | hok
  · rw [install_of_error he] at h
    cases h
  · rw [install_of_ok hok]
    exact Symbols.putFunctions_of_mem (f := .pow) (Standard.mem_filterMap_ofName?.mpr hpow) _

theorem hasPower_set (hc : c.symbols.HasPower) {name : Datum} (hname : name ≠ .text "pow")
    (value : Datum) : (c.set name value).2.symbols.HasPower := by
  rcases c.symbols.setVariable_cases name value with ⟨e, he⟩ | ⟨x, n, -, rfl, -, hok⟩
  · rw [set, he]
    exact hc
  · have hx : x ≠ "pow" := fun hx => hname (congrArg Datum.text hx)
    rw [set, hok]
    change (c.symbols.putVariable x n).HasPower
    rw [Symbols.HasPower, Symbols.value?_putVariable, Symbols.routine?_putVariable, if_neg hx,
      if_neg hx]
    exact hc

end Calculator

namespace Formula

variable {φ ε : Type} {h : Host φ ε} {c c₁ c₂ : Calculator φ ε} {b e : Int}

theorem eval_pow (hc : c.symbols.HasPower) {s t : String}
    (hs : c.eval h (.text s) = (.ok ⟨.value b, none⟩, c₁))
    (ht : c₁.eval h (.text t) = (.ok ⟨.value e, none⟩, c₂)) :
    c.eval h (.text ("pow(" ++ s ++ "," ++ t ++ ")")) =
      ((power b e).map fun v => ⟨.value v, none⟩, c₂) := by
  have htext : "pow(" ++ s ++ "," ++ t ++ ")" = applied "pow" [s, t] := by
    rw [← String.toList_inj]
    simp [applied]
  rw [htext]
  exact eval_apply (x := ⟨"pow", rfl⟩) hc.1 hc.2 (.cons hs (.cons ht (.nil c₂))) rfl

theorem eval_pow_variables (hc : c.symbols.HasPower) {x y : Identifier}
    (hx : c.symbols.value? x.name = some b) (hy : c.symbols.value? y.name = some e) :
    c.eval h (.text ("pow(" ++ x.name ++ ", " ++ y.name ++ ")")) =
      ((power b e).map fun v => ⟨.value v, none⟩, c) := by
  have hbase : c.eval h (.text ("" ++ x.name ++ "")) = (.ok ⟨.value b, none⟩, c) :=
    eval_variable h hx nofun nofun
  have hexponent : c.eval h (.text (" " ++ y.name ++ "")) = (.ok ⟨.value e, none⟩, c) :=
    eval_variable h hy (by simp [isBlank]) nofun
  have htext : "pow(" ++ x.name ++ ", " ++ y.name ++ ")" =
      "pow(" ++ ("" ++ x.name ++ "") ++ "," ++ (" " ++ y.name ++ "") ++ ")" := by
    rw [← String.toList_inj]
    simp
  rw [htext]
  exact eval_pow hc hbase hexponent

end Formula

/-- `pow` is refused if and only if the base is neither zero, one nor minus one and the exponent is
beyond the bound, and the fault names the exponent if it can be shown. Otherwise its value is the
rational power without its fraction, so that exponents are added where powers are multiplied. On a
calculator where `pow` has been installed, and not bound to anything else since, a formula that
calls it has this value or raises this fault, whatever texts the arguments are. -/
theorem eval_power {φ ε : Type} (h : Host φ ε) :
    (∀ b e : Int,
      ((∃ f, power b e = .error f) ↔ Excessive b e) ∧
      (Excessive b e →
        (Showable e → power b e = .error (.powerTooLarge (toString e) maxExponent)) ∧
        (¬ Showable e → power b e = .error .numeralTooLong)) ∧
      (b = 0 → power b e = .ok (if e = 0 then 1 else 0)) ∧
      (b ≠ 0 → ¬ Excessive b e → power b e = .ok (towardZero ((b : ℚ) ^ e)))) ∧
    (∀ b m n v : Int, 0 ≤ m → 0 ≤ n → power b (m + n) = .ok v →
      ∃ p q, power b m = .ok p ∧ power b n = .ok q ∧ v = p * q) ∧
    (∀ (c : Calculator φ ε) (names : Option (List String)), (c.install names).1 = .ok () →
      "pow" ∈ Standard.selected names → (c.install names).2.symbols.HasPower) ∧
    ∀ c : Calculator φ ε, c.symbols.HasPower →
      (∀ name value, name ≠ .text "pow" → (c.set name value).2.symbols.HasPower) ∧
      (∀ s t b e c₁ c₂, c.eval h (.text s) = (.ok ⟨.value b, none⟩, c₁) →
        c₁.eval h (.text t) = (.ok ⟨.value e, none⟩, c₂) →
          c.eval h (.text ("pow(" ++ s ++ "," ++ t ++ ")")) =
            ((power b e).map fun v => ⟨.value v, none⟩, c₂)) ∧
      ∀ (x y : Formula.Identifier) (b e : Int), c.symbols.value? x.name = some b →
        c.symbols.value? y.name = some e →
          c.eval h (.text ("pow(" ++ x.name ++ ", " ++ y.name ++ ")")) =
            ((power b e).map fun v => ⟨.value v, none⟩, c) := by
  refine ⟨fun b e => ⟨exists_power_error_iff, power_of_excessive, ?_, fun _ => power_eq⟩,
    fun b m n v => power_add, fun c names => Calculator.hasPower_install, fun c hc => ?_⟩
  · rintro rfl
    rfl
  · exact ⟨fun name value hname => Calculator.hasPower_set hc hname value,
      fun s t b e c₁ c₂ => Formula.eval_pow hc, fun x y b e => Formula.eval_pow_variables hc⟩

/-- An exponent that is too long to be shown is not named. -/
theorem power_unshowable :
    ¬ ((∃ text, power 2 (Nat.pow 10 digitLimit : Nat) =
        .error (.powerTooLarge text maxExponent)) ↔
      Excessive 2 (Nat.pow 10 digitLimit : Nat)) := by
  intro hiff
  have hlarge : ∀ k, 4 ≤ k → maxExponent < Nat.pow 10 k := fun k hk =>
    Nat.lt_of_lt_of_le (by decide : maxExponent < Nat.pow 10 4)
      (Nat.pow_le_pow_right (by decide) hk)
  have hexcessive : Excessive 2 (Nat.pow 10 digitLimit : Nat) :=
    ⟨by decide, Int.ofNat_lt.mpr (hlarge digitLimit (by decide))⟩
  obtain ⟨text, htext⟩ := hiff.mpr hexcessive
  cases htext.symm.trans ((power_of_excessive hexcessive).2 not_showable_pow)

end Abacus
