import Mathlib.Algebra.Order.Ring.Abs
import Mathlib.Tactic.Linarith
import Mathlib.Tactic.Ring
import Abacus.Proofs.Grammar.Course
import Abacus.Proofs.Grammar.ReadBack
import Abacus.Script

/-!
# Division cuts off the fraction

Quotient and remainder are characterised without reference to how they are computed: there is only
one way to write an integer as a multiple of a divisor and a rest of its own sign that is smaller
than the divisor (`Truncates.unique`). This is what `/` and `%` evaluate to, for variables of any
size and sign (`eval_division`).
-/
namespace Abacus

/-- `a` is `q` times `b`, up to a rest `r` that is smaller than `b` and has the sign of `a`. -/
structure Truncates (a b q r : Int) : Prop where
  eq : a = q * b + r
  lt : |r| < |b|
  sign : r = 0 ∨ r.sign = a.sign

namespace Truncates

variable {a b q r q' r' : Int}

theorem tdiv_tmod (a : Int) (hb : b ≠ 0) : Truncates a b (a.tdiv b) (a.tmod b) where
  eq := (Int.tdiv_mul_add_tmod a b).symm
  lt := by
    rw [Int.abs_eq_natAbs, Int.abs_eq_natAbs, Int.natAbs_tmod, Int.ofNat_lt]
    exact Nat.mod_lt _ (Int.natAbs_pos.mpr hb)
  sign := by
    rw [← Int.dvd_iff_tmod_eq_zero, Int.sign_tmod]
    by_cases hdvd : b ∣ a
    · exact .inl hdvd
    · exact .inr (if_neg hdvd)

theorem ne_zero (h : Truncates a b q r) : b ≠ 0 := by
  rintro rfl
  exact absurd h.lt (not_lt.mpr (abs_nonneg r))

theorem neg_left (h : Truncates a b q r) : Truncates (-a) b (-q) (-r) where
  eq := by
    rw [h.eq]
    ring
  lt := (abs_neg r).symm ▸ h.lt
  sign := by
    rw [Int.sign_neg, Int.sign_neg, neg_inj, neg_eq_zero]
    exact h.sign

theorem neg_right (h : Truncates a b q r) : Truncates a (-b) (-q) r where
  eq := by
    rw [neg_mul_neg]
    exact h.eq
  lt := (abs_neg b).symm ▸ h.lt
  sign := h.sign

theorem nonneg (h : Truncates a b q r) (ha : 0 ≤ a) : 0 ≤ r := by
  rcases h.sign with rfl | hsign
  · exact le_rfl
  · exact Int.sign_nonneg_iff.mp (hsign ▸ Int.sign_nonneg_iff.mpr ha)

theorem unique_of_nonneg (ha : 0 ≤ a) (h : Truncates a b q r) (h' : Truncates a b q' r') :
    q' = q ∧ r' = r := by
  have hmul : (q - q') * b = r' - r := by
    have heq := h.eq.symm.trans h'.eq
    linarith
  have hlt : |r' - r| < |b| :=
    abs_sub_lt_of_nonneg_of_lt (h'.nonneg ha) ((le_abs_self r').trans_lt h'.lt)
      (h.nonneg ha) ((le_abs_self r).trans_lt h.lt)
  have hrest : r' - r = 0 :=
    Int.eq_zero_of_abs_lt_dvd ((abs_dvd b _).mpr (hmul ▸ Dvd.intro_left _ rfl)) hlt
  rw [hrest] at hmul
  rcases mul_eq_zero.mp hmul with hq | hb
  · exact ⟨(sub_eq_zero.mp hq).symm, sub_eq_zero.mp hrest⟩
  · exact absurd hb h.ne_zero

/-- There is no other quotient, and no other rest. -/
theorem unique (h : Truncates a b q r) (h' : Truncates a b q' r') : q' = q ∧ r' = r := by
  rcases Int.le_total 0 a with ha | ha
  · exact unique_of_nonneg ha h h'
  · obtain ⟨hq, hr⟩ := unique_of_nonneg (Int.neg_nonneg_of_nonpos ha) h.neg_left h'.neg_left
    exact ⟨neg_inj.mp hq, neg_inj.mp hr⟩

end Truncates

namespace Formula

variable {φ ε : Type}

section walk

variable {h : Host φ ε} {x : Identifier} {j : Journal φ ε} {a b v : Int}

def Signed.named (x : Identifier) (pos : Nat) : Signed := .operand (.atom (.name x pos))

theorem Signed.run_named (pos : Nat) (hx : j.calculator.symbols.value? x.name = some v) :
    ((named x pos).walk h).run j = (.ok v, j) := by
  rw [named, Signed.walk, Operand.walk, Walk.run_bind, Atom.run_name, hx]
  rfl

theorem Term.run_mul {m : Term} {u : Signed} (op : Factor) (pos : Nat)
    (hm : (m.walk h).run j = (.ok a, j)) (hu : (u.walk h).run j = (.ok b, j)) :
    ((Term.mul m op pos u).walk h).run j =
      (match op.apply a b with
        | some p => .ok p
        | none => .error (.failure ⟨.divideByZero, pos⟩), j) := by
  rw [Term.walk, Walk.run_bind, hm]
  dsimp only
  rw [Walk.run_bind, hu]
  cases op with
  | times => rfl
  | quotient | remainder =>
    unfold Factor.walk Factor.apply
    by_cases hb : b = 0
    · simp only [if_pos hb]
      rfl
    · simp only [if_neg hb, cutQuotient_eq_tdiv, cutRemainder_eq_tmod]
      rfl

end walk

section spelled

variable {i : Nat} {cs : List Char} {xs : List Lexeme}

theorem Spelled.name (x : Identifier) (h : Spelled (i + x.name.toList.length) cs xs) :
    Spelled i (x.name.toList ++ cs) (⟨.word x.name.toList, i⟩ :: xs) :=
  .token (.word x.name.toList) h

theorem Spelled.spaced (t : Token) {ch : Char} (ht : t.spelling = [ch])
    (h : Spelled (i + 3) cs xs) : Spelled i (' ' :: ch :: ' ' :: cs) (⟨t, i + 1⟩ :: xs) := by
  have hmark : Spelled (i + 1) (t.spelling ++ ' ' :: cs) (⟨t, i + 1⟩ :: xs) := by
    refine .token t ?_
    rw [ht]
    exact .blank rfl h
  rw [ht] at hmark
  exact .blank rfl hmark

end spelled

theorem eval_of_spells (h : Host φ ε) (c : Calculator φ ε) {e : Expression} {s : String}
    (he : e.Spells s.toList) :
    c.eval h (.text s) = ((e.outcome h c).1.toOutcome, (e.outcome h c).2.calculator) := by
  rw [← e.evaluation_eq_outcome h c (Expression.spells_iff.mp he)]
  rfl

def Term.ofNames (x : Identifier) (op : Factor) (y : Identifier) (i : Nat) : Term :=
  .mul (.signed (.named x i)) op (i + x.name.toList.length + 1)
    (.named y (i + x.name.toList.length + 3))

section names

variable {h : Host φ ε} {c : Calculator φ ε} {x y : Identifier} {a b : Int}

theorem Term.spelled_ofNames (x y : Identifier) (op : Factor) {ch : Char}
    (hop : (Token.factor op).spelling = [ch]) {i : Nat} {cs : List Char} {xs : List Lexeme}
    (h : Spelled (i + x.name.toList.length + 3 + y.name.toList.length) cs xs) :
    Spelled i (x.name.toList ++ ' ' :: ch :: ' ' :: (y.name.toList ++ cs))
      ((ofNames x op y i).lexemes ++ xs) := .name x (.spaced _ hop (.name y h))

theorem Term.run_ofNames (op : Factor) (i : Nat) {j : Journal φ ε}
    (hx : j.calculator.symbols.value? x.name = some a)
    (hy : j.calculator.symbols.value? y.name = some b) :
    ((ofNames x op y i).walk h).run j =
      (match op.apply a b with
        | some p => .ok p
        | none => .error (.failure ⟨.divideByZero, i + x.name.toList.length + 1⟩), j) :=
  run_mul op _ (Signed.run_named _ hx) (Signed.run_named _ hy)

theorem eval_ofNames (op : Factor) {ch : Char} {s : String}
    (hop : (Token.factor op).spelling = [ch])
    (hs : s.toList = x.name.toList ++ ' ' :: ch :: ' ' :: y.name.toList)
    (hx : c.symbols.value? x.name = some a) (hy : c.symbols.value? y.name = some b) :
    c.eval h (.text s) =
      (.ok (match op.apply a b with
        | some p => ⟨.value p, none⟩
        | none => ⟨.failure .divideByZero, some (x.name.length + 1 : Nat)⟩), c) := by
  have hspells : (Expression.term (.ofNames x op y 0)).Spells s.toList := by
    have hspelled := Term.spelled_ofNames x y op hop (i := 0) (.nil _)
    rwa [List.append_nil, List.append_nil, ← hs] at hspelled
  rw [eval_of_spells h c hspells, Expression.outcome, Expression.walk,
    Term.run_ofNames op 0 (j := { calculator := c }) hx hy, Nat.zero_add, String.length_toList]
  cases op.apply a b <;> rfl

/-- The quotient of two names times the second one, and the remainder added. -/
def Expression.recomposed (x y : Identifier) (i : Nat) : Expression :=
  let product := i + x.name.toList.length + 3 + y.name.toList.length
  let sum := product + 3 + y.name.toList.length
  .add (.term (.mul (.ofNames x .quotient y i) .times (product + 1) (.named y (product + 3))))
    false (sum + 1) (.ofNames x .remainder y (sum + 3))

theorem Expression.spells_recomposed (x y : Identifier) :
    (recomposed x y 0).Spells (x.name ++ " / " ++ y.name ++ " * " ++ y.name ++ " + " ++ x.name ++
      " % " ++ y.name).toList := by
  have hspelled : Spelled 0 (x.name.toList ++ ' ' :: '/' :: ' ' :: (y.name.toList ++
      ' ' :: '*' :: ' ' :: (y.name.toList ++ ' ' :: '+' :: ' ' :: (x.name.toList ++
        ' ' :: '%' :: ' ' :: (y.name.toList ++ []))))) (recomposed x y 0).lexemes := by
    refine Term.spelled_ofNames x y .quotient rfl ?_
    refine .spaced (.factor .times) rfl (.name y ?_)
    refine .spaced (.sign false) rfl ?_
    exact Term.spelled_ofNames x y .remainder rfl (.nil _)
  rw [List.append_nil] at hspelled
  simpa [Spells] using hspelled

theorem eval_recomposed (hx : c.symbols.value? x.name = some a)
    (hy : c.symbols.value? y.name = some b) (hb : b ≠ 0) :
    c.eval h (.text (x.name ++ " / " ++ y.name ++ " * " ++ y.name ++ " + " ++ x.name ++ " % " ++
      y.name)) = (.ok ⟨.value a, none⟩, c) := by
  let j : Journal φ ε := { calculator := c }
  have hquotient : ((Term.ofNames x .quotient y 0).walk h).run j = (.ok (a.tdiv b), j) := by
    rw [Term.run_ofNames .quotient 0 hx hy, Factor.apply, if_neg hb, cutQuotient_eq_tdiv]
  have hproduct := fun p q => Term.run_mul .times p hquotient (Signed.run_named (h := h) q hy)
  have hremainder : ∀ i, ((Term.ofNames x .remainder y i).walk h).run j =
      (.ok (a.tmod b), j) := by
    intro i
    rw [Term.run_ofNames .remainder i hx hy, Factor.apply, if_neg hb, cutRemainder_eq_tmod]
  rw [eval_of_spells h c (Expression.spells_recomposed x y), Expression.outcome,
    Expression.recomposed, Expression.walk, Expression.walk, Walk.run_bind, hproduct]
  dsimp only [Factor.apply]
  rw [Walk.run_bind, hremainder]
  change (Except.ok (Outcome.mk (.value (a.tdiv b * b + a.tmod b)) none), c) = _
  rw [Int.tdiv_mul_add_tmod]

end names

/-- With `a` and `b` for the variables `x` and `y`, their quotient is evaluated to `q` and their
remainder to `r`, and both together give `a` back. -/
def Divides (h : Host φ ε) (x y : Identifier) (a b q r : Int) : Prop :=
  ∀ c : Calculator φ ε, c.symbols.value? x.name = some a → c.symbols.value? y.name = some b →
    c.eval h (.text (x.name ++ " / " ++ y.name)) = (.ok ⟨.value q, none⟩, c) ∧
      c.eval h (.text (x.name ++ " % " ++ y.name)) = (.ok ⟨.value r, none⟩, c) ∧
      c.eval h (.text (x.name ++ " / " ++ y.name ++ " * " ++ y.name ++ " + " ++ x.name ++ " % " ++
        y.name)) = (.ok ⟨.value a, none⟩, c)

theorem divides_of_truncates {a b q r : Int} (ht : Truncates a b q r) (h : Host φ ε)
    (x y : Identifier) : Divides h x y a b q r := by
  intro c hx hy
  obtain ⟨rfl, rfl⟩ := (Truncates.tdiv_tmod a ht.ne_zero).unique ht
  refine ⟨?_, ?_, eval_recomposed hx hy ht.ne_zero⟩
  · rw [eval_ofNames .quotient rfl (by simp) hx hy, Factor.apply, if_neg ht.ne_zero,
      cutQuotient_eq_tdiv]
  · rw [eval_ofNames .remainder rfl (by simp) hx hy, Factor.apply, if_neg ht.ne_zero,
      cutRemainder_eq_tmod]

/-- Variables of any size are divided exactly. Quotient and remainder are the only ones by which the
dividend is a multiple of the divisor and a smaller rest of its own sign. They are therefore negated
with the dividend, and with the divisor only the quotient is. Where the divisor is zero nothing is
divided, and the evaluation fails at the operator. -/
theorem eval_division (h : Host φ ε) (x y : Identifier) (a b : Int) :
    (b ≠ 0 → ∃ q r, Truncates a b q r ∧ (∀ q' r', Truncates a b q' r' → q' = q ∧ r' = r) ∧
        Divides h x y a b q r ∧ Divides h x y (-a) b (-q) (-r) ∧ Divides h x y a (-b) (-q) r) ∧
      (∀ op ∈ [Factor.quotient, .remainder], op.apply a 0 = none) ∧
      ∀ c : Calculator φ ε, c.symbols.value? x.name = some a → c.symbols.value? y.name = some 0 →
        ∀ text ∈ [x.name ++ " / " ++ y.name, x.name ++ " % " ++ y.name],
          c.eval h (.text text) =
            (.ok ⟨.failure .divideByZero, some (x.name.length + 1 : Nat)⟩, c) := by
  have hzero : ∀ op ∈ [Factor.quotient, .remainder], op.apply a 0 = none := by
    simp [Factor.apply]
  refine ⟨fun hb => ?_, hzero, fun c hx hy => ?_⟩
  · have ht := Truncates.tdiv_tmod a hb
    exact ⟨_, _, ht, fun _ _ => ht.unique, divides_of_truncates ht h x y,
      divides_of_truncates ht.neg_left h x y, divides_of_truncates ht.neg_right h x y⟩
  · rw [List.forall_mem_cons, List.forall_mem_singleton]
    constructor
    · rw [eval_ofNames .quotient rfl (by simp) hx hy, hzero _ (by simp)]
    · rw [eval_ofNames .remainder rfl (by simp) hx hy, hzero _ (by simp)]

def dividing : Calculator Script.Handle Script.Log where
  symbols := (({} : Symbols Script.Handle).putVariable "a" (-7)).putVariable "b" 2
  env := []

theorem eval_dividing :
    (2 : Int) ≠ 0 ∧
      dividing.eval (Script.host 1) (.text "a / b") = (.ok ⟨.value (-3), none⟩, dividing) ∧
      dividing.eval (Script.host 1) (.text "a % b") = (.ok ⟨.value (-1), none⟩, dividing) := by
  have hb : (2 : Int) ≠ 0 := by decide
  obtain ⟨q, r, -, hunique, hdivides, -⟩ :=
    (eval_division (Script.host 1) ⟨"a", rfl⟩ ⟨"b", rfl⟩ (-7) 2).1 hb
  obtain ⟨rfl, rfl⟩ := hunique (-3) (-1) ⟨by decide, by decide, .inr rfl⟩
  obtain ⟨hquotient, hremainder, -⟩ := hdivides dividing rfl rfl
  exact ⟨hb, hquotient, hremainder⟩

end Formula

end Abacus
