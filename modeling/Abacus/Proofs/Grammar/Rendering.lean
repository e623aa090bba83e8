import Mathlib.Data.Nat.Size
import Abacus.Proofs.Evaluation.Naming

/-!
# Integers that are written and read back

An integer is written as a minus, if it is negative, and its absolute value in one of the bases,
with a large or small marker, any leading zeros, and each digit that is a letter large or small. A
calculator evaluates every such text to the integer that was written (`eval_rendering`), as long as
a decimal numeral does not have too many digits. The values that calculators show are written in
this way.
-/
namespace Abacus

theorem Base.one_lt_radix (b : Base) : 1 < b.radix := by
  cases b <;> decide

def inCase (large : Bool) (c : Char) : Char := if large then c.toUpper else c

/-- The digits of every base lie among the sixteen that `Nat.digitChar` gives, and their case does
not matter. -/
theorem Base.inCase_digitChar (b : Base) {d : Nat} (hd : d < b.radix) (large : Bool) :
    b.isDigit (inCase large d.digitChar) ∧ digitValue (inCase large d.digitChar) = d := by
  have hall : ∀ d < b.radix, ∀ large, b.isDigit (inCase large d.digitChar) ∧
      digitValue (inCase large d.digitChar) = d := by
    cases b <;> decide
  exact hall d hd large

theorem Base.toDigits_cases (b : Base) (n : Nat) :
    (n < b.radix ∧ Nat.toDigits b.radix n = [n.digitChar]) ∨
      (n / b.radix < n ∧ n % b.radix < b.radix ∧
        Nat.toDigits b.radix n =
          Nat.toDigits b.radix (n / b.radix) ++ [(n % b.radix).digitChar]) := by
  have hb := b.one_lt_radix
  rcases Nat.lt_or_ge n b.radix with hn | hn
  · exact .inl ⟨hn, Nat.toDigits_of_lt_base hn⟩
  · exact .inr ⟨Nat.div_lt_self (by omega) hb, Nat.mod_lt n (by omega),
      Nat.toDigits_of_base_le hb hn⟩

theorem Base.exists_of_mem_toDigits (b : Base) {n : Nat} {c : Char}
    (hc : c ∈ Nat.toDigits b.radix n) : ∃ d < b.radix, c = d.digitChar := by
  induction n using Nat.strongRecOn with
  | ind n ih =>
    rcases b.toDigits_cases n with ⟨hn, hdigits⟩ | ⟨hdiv, hmod, hdigits⟩
    · rw [hdigits] at hc
      exact ⟨n, hn, List.mem_singleton.mp hc⟩
    · rw [hdigits] at hc
      rcases List.mem_append.mp hc with hc | hc
      · exact ih _ hdiv hc
      · exact ⟨n % b.radix, hmod, List.mem_singleton.mp hc⟩

theorem Base.ofDigits_toDigits (b : Base) (n : Nat) :
    ofDigits b.radix (Nat.toDigits b.radix n) = n := by
  have hdigit : ∀ d < b.radix, digitValue d.digitChar = d :=
    fun d hd => (b.inCase_digitChar hd false).2
  induction n using Nat.strongRecOn with
  | ind n ih =>
    rcases b.toDigits_cases n with ⟨hn, hdigits⟩ | ⟨hdiv, hmod, hdigits⟩
    · simp [hdigits, ofDigits, hdigit n hn]
    · calc ofDigits b.radix (Nat.toDigits b.radix n)
          = ofDigits b.radix (Nat.toDigits b.radix (n / b.radix)) * b.radix +
              digitValue (n % b.radix).digitChar := by simp [hdigits, ofDigits]
        _ = n / b.radix * b.radix + n % b.radix := by rw [ih _ hdiv, hdigit _ hmod]
        _ = n := Nat.div_add_mod' n b.radix

theorem ofDigits_zeros (radix k : Nat) (digits : List Char) :
    ofDigits radix (List.replicate k '0' ++ digits) = ofDigits radix digits := by
  induction k with
  | zero => rfl
  | succ k ih =>
    rw [List.replicate_succ, List.cons_append, ← ih]
    simp [ofDigits, digitValue]

theorem ofDigits_congr (radix : Nat) {ds es : List Char}
    (h : ds.map digitValue = es.map digitValue) : ofDigits radix ds = ofDigits radix es := by
  rw [ofDigits_eq_natOfDigits, ofDigits_eq_natOfDigits, List.map_reverse, List.map_reverse, h]

/-- How an absolute value is written: its base, the case of the marker's letter, the number of
leading zeros, and the case of the digit at each place behind them, if it is a letter. -/
structure Style where
  base : Base
  largeMarker : Bool := false
  zeros : Nat := 0
  large : Nat → Bool := fun _ => false

def Base.marker (large : Bool) : Base → List Char
  | decimal => []
  | hexadecimal => ['0', inCase large 'x']
  | binary => ['0', inCase large 'b']

theorem Base.marker_mem (b : Base) (large : Bool) : b.marker large ∈ b.markers := by
  cases b <;> cases large <;> decide

namespace Style

def digits (k : Style) (n : Nat) : List Char :=
  List.replicate k.zeros '0' ++
    (Nat.toDigits k.base.radix n).mapIdx fun i c => inCase (k.large i) c

def numeral (k : Style) (n : Nat) : List Char := k.base.marker k.largeMarker ++ k.digits n

def text (k : Style) (v : Int) : String :=
  (if v < 0 then "-" else "") ++ String.ofList (k.numeral v.natAbs)

theorem isDigit_of_mem (k : Style) {n : Nat} {c : Char} (hc : c ∈ k.digits n) :
    k.base.isDigit c := by
  rcases List.mem_append.mp hc with hc | hc
  · obtain rfl := List.eq_of_mem_replicate hc
    cases k.base <;> rfl
  · obtain ⟨i, hi, rfl⟩ := List.mem_mapIdx.mp hc
    obtain ⟨d, hd, he⟩ := k.base.exists_of_mem_toDigits (List.getElem_mem hi)
    rw [he]
    exact (k.base.inCase_digitChar hd _).1

theorem ofDigits_digits (k : Style) (n : Nat) : ofDigits k.base.radix (k.digits n) = n := by
  have hvalues : ((Nat.toDigits k.base.radix n).mapIdx fun i c => inCase (k.large i) c).map
      digitValue = (Nat.toDigits k.base.radix n).map digitValue := by
    refine List.ext_getElem (by simp) fun i hi hi' => ?_
    rw [List.length_map] at hi'
    obtain ⟨d, hd, he⟩ := k.base.exists_of_mem_toDigits (List.getElem_mem hi')
    rw [List.getElem_map, List.getElem_mapIdx, List.getElem_map, he,
      (k.base.inCase_digitChar hd _).2]
    exact (k.base.inCase_digitChar hd false).2.symm
  rw [digits, ofDigits_zeros, ofDigits_congr _ hvalues, k.base.ofDigits_toDigits]

def literal (k : Style) (n : Nat) : Literal where
  base := k.base
  marker := k.base.marker k.largeMarker
  digits := k.digits n
  marker_mem := k.base.marker_mem k.largeMarker
  digits_ne_nil := by
    refine List.append_ne_nil_of_right_ne_nil _ fun h => ?_
    exact Nat.toDigits_ne_nil (List.mapIdx_eq_nil_iff.mp h)
  isDigit_of_mem _ hc := k.isDigit_of_mem hc

theorem value_literal (k : Style) (n : Nat) : (k.literal n).value = n := by
  rw [Literal.value, ← ofDigits_eq_natOfDigits]
  exact k.ofDigits_digits n

/-- Decimal without leading zeros: the texts of integers in messages and results. -/
def plain : Style := { base := .decimal }

theorem digits_plain (n : Nat) : plain.digits n = Nat.toDigits 10 n := by
  change (Nat.toDigits 10 n).mapIdx (fun _ c => c) = _
  refine List.ext_getElem List.length_mapIdx fun i _ _ => ?_
  exact List.getElem_mapIdx

theorem text_plain (v : Int) : plain.text v = toString v := by
  have hnumeral : ∀ n : Nat, String.ofList (plain.numeral n) = n.repr := by
    intro n
    rw [Nat.repr_eq_ofList_toDigits, ← digits_plain]
    rfl
  cases v with
  | ofNat n =>
    rw [text, hnumeral, if_neg (by simp)]
    exact String.empty_append
  | negSucc n =>
    rw [text, hnumeral, if_pos (Int.negSucc_lt_zero n)]
    rfl

end Style

namespace Formula

variable {φ ε : Type}

theorem eval_signed (h : Host φ ε) (c : Calculator φ ε) {l : Literal} (hl : ¬ l.TooLong)
    (negative : Prop) [Decidable negative] :
    c.eval h (.text ((if negative then "-" else "") ++ String.ofList l.spelling)) =
      (.ok ⟨.value (if negative then -(l.value : Int) else l.value), none⟩, c) := by
  have hword (i : Nat) (s : State φ) (hs : s.Awaits) :
      (tokens i l.spelling).foldl (Evaluation.advance h) ⟨.reading s, [], c⟩ =
        ⟨.reading { s with phase := .primary l.value }, [], c⟩ := by
    rw [tokens_literal, List.foldl_cons, List.foldl_nil,
      Evaluation.advance_of_next h [] (State.read_literal hs hl i)]
  by_cases hn : negative
  · have hevaluation : evaluation h ('-' :: l.spelling) c =
        ⟨.reading ⟨.primary l.value, { negate := true }, []⟩, [], c⟩ := by
      rw [evaluation, tokens_cons_mark (by decide) (by decide)]
      exact hword 1 ⟨.operand, { negate := true }, []⟩ (.inl rfl)
    simp only [Calculator.eval, evaluate, if_pos hn, String.toList_append, String.toList_ofList]
    change (((evaluation h ('-' :: l.spelling) c).finish _).toOutcome,
      (evaluation h ('-' :: l.spelling) c).calculator) = _
    rw [hevaluation]
    change (Ending.toOutcome (.value (({} : RunningSum).add (-l.value))), c) = _
    rw [RunningSum.initial_add]
    rfl
  · have hevaluation : evaluation h l.spelling c =
        ⟨.reading ⟨.primary l.value, {}, []⟩, [], c⟩ := hword 0 {} (.inl rfl)
    simp only [Calculator.eval, evaluate, if_neg hn, String.empty_append, String.toList_ofList,
      hevaluation]
    change (Ending.toOutcome (.value (({} : RunningSum).add l.value)), c) = _
    rw [RunningSum.initial_add]
    rfl

theorem eval_style (h : Host φ ε) (c : Calculator φ ε) (k : Style) (v : Int)
    (hk : k.base = .decimal → (k.digits v.natAbs).length ≤ digitLimit) :
    c.eval h (.text (k.text v)) = (.ok ⟨.value v, none⟩, c) := by
  have hshort : ¬ (k.literal v.natAbs).TooLong := fun hlong =>
    Nat.not_lt.mpr (hk hlong.1) hlong.2
  have hv : (if v < 0 then -(v.natAbs : Int) else v.natAbs) = v := by
    omega
  have heval := eval_signed h c hshort (v < 0)
  rwa [k.value_literal, hv] at heval

theorem length_toDigits_iff {n : Nat} :
    (Nat.toDigits 10 n).length ≤ digitLimit ↔ n < 10 ^ digitLimit :=
  Nat.length_toDigits_le_iff (b := 10) (k := digitLimit) (by decide) (by decide)

/-- Numbers of 8192 bits have fewer decimal digits than may be shown. -/
theorem length_toDigits_of_size {n : Nat} (hn : n.size ≤ 8192) :
    (Nat.toDigits 10 n).length ≤ digitLimit := by
  rw [length_toDigits_iff]
  have hlt : n < 2 ^ (3 * digitLimit) :=
    Nat.size_le.mp (Nat.le_trans hn (by decide))
  calc n < 2 ^ (3 * digitLimit) := hlt
    _ = (2 ^ 3) ^ digitLimit := Nat.pow_mul 2 3 digitLimit
    _ ≤ 10 ^ digitLimit := Nat.pow_le_pow_left (by decide) digitLimit

/-- Every text of an integer, in any base, case and number of leading zeros, evaluates to the
integer in every calculator, unless it has too many decimal digits. In particular a value of at most
8192 bits that an evaluation has given can be shown, and what is shown evaluates to it. -/
theorem eval_rendering (h : Host φ ε) (c : Calculator φ ε) :
    (∀ (k : Style) (v : Int),
        (k.base = .decimal → (k.digits v.natAbs).length ≤ digitLimit) →
          c.eval h (.text (k.text v)) = (.ok ⟨.value v, none⟩, c)) ∧
      ∀ {φ' ε' : Type} (h' : Host φ' ε') (c' : Calculator φ' ε') (t : String) (o : Outcome)
        (v : Int), (c'.eval h' (.text t)).1 = .ok o → o.value? = some v → v.natAbs.size ≤ 8192 →
          decimal v = .ok o.describe ∧
            c.eval h (.text o.describe) = (.ok ⟨.value v, none⟩, c) := by
  refine ⟨eval_style h c, fun {_ _} _ _ _ o v _ hv hsize => ?_⟩
  have hlength := length_toDigits_of_size hsize
  have hdescribe : o.describe = toString v := by
    obtain ⟨_ | _, p⟩ := o
    · exact congrArg toString (Option.some.inj hv)
    · cases hv
  have hdecimal : decimal v = .ok (toString v) := by
    rw [decimal, Nat.pow_eq, if_pos (length_toDigits_iff.mp hlength)]
  rw [hdescribe, ← Style.text_plain]
  refine ⟨Style.text_plain v ▸ hdecimal, eval_style h c .plain v fun _ => ?_⟩
  rwa [Style.digits_plain]

/-- A negative number in hexadecimal, and a product that is shown. -/
theorem eval_rendering_adder :
    adder.eval (Script.host 1) (.text "-0X00Af") = (.ok ⟨.value (-175), none⟩, adder) ∧
      (adder.eval (Script.host 1) (.text "2 * f(-4,1)")).1 = .ok ⟨.value (-6), none⟩ ∧
      decimal (-6) = .ok (Outcome.describe ⟨.value (-6), none⟩) ∧
      adder.eval (Script.host 1) (.text "-6") = (.ok ⟨.value (-6), none⟩, adder) := by
  have hproduct : (adder.eval (Script.host 1) (.text "2 * f(-4,1)")).1 =
      .ok ⟨.value (-6), none⟩ := rfl
  refine ⟨?_, hproduct, ?_⟩
  · let k : Style := ⟨.hexadecimal, true, 2, fun i => i == 0⟩
    have htext : k.text (-175) = "-0X00Af" := by decide
    rw [← htext]
    exact (eval_rendering (Script.host 1) adder).1 k (-175) nofun
  · exact (eval_rendering (Script.host 1) adder).2 (Script.host 1) adder "2 * f(-4,1)" _ (-6)
      hproduct rfl (by decide)

end Formula

end Abacus
