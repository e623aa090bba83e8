import Mathlib.Data.Nat.Size
import Abacus.Proofs.Grammar.Integer
import Abacus.Proofs.Grammar.Soundness

/-!
# How large values can become

Without `pow`, a formula of `n` characters has a value of at most `b * n` bits, where `b` is 4 or
the length of the longest variable (`natAbs_lt_of_eval`). A product has as many bits as its factors
together, and a sum needs one bit more than its summands, which is what its sign is for. A digit
has 4 bits at most, and a call of any standard function but `pow` is no larger than its arguments.
-/
namespace Abacus

/-- The value has at most `b` bits for each of `n` characters. -/
def Within (b n : Nat) (v : Int) : Prop := v.natAbs < 2 ^ (b * n)

namespace Within

variable {b m n : Nat} {v w : Int}

theorem mono (hv : Within b m v) (hmn : m ≤ n) : Within b n v :=
  Nat.lt_of_lt_of_le hv (Nat.pow_le_pow_right (by decide) (Nat.mul_le_mul_left b hmn))

theorem of_natAbs_le (hv : Within b n v) (hw : w.natAbs ≤ v.natAbs) : Within b n w :=
  Nat.lt_of_le_of_lt hw hv

theorem zero : Within b n 0 := Nat.two_pow_pos (b * n)

theorem ite {p : Prop} [Decidable p] (hv : Within b n v) (hw : Within b n w) :
    Within b n (if p then v else w) := by
  split
  · exact hv
  · exact hw

theorem lesser (hv : Within b n v) (hw : Within b n w) : Within b n (Standard.lesser v w) :=
  hv.ite hw

theorem greater (hv : Within b n v) (hw : Within b n w) : Within b n (Standard.greater v w) :=
  hv.ite hw

theorem neg (hv : Within b n v) : Within b n (-v) :=
  hv.of_natAbs_le (Int.natAbs_neg v).le

theorem tdiv (hv : Within b n v) (w : Int) : Within b n (v.tdiv w) := by
  refine hv.of_natAbs_le ?_
  rw [Int.natAbs_tdiv]
  exact Nat.div_le_self _ _

theorem tmod (hv : Within b n v) (w : Int) : Within b n (v.tmod w) := by
  refine hv.of_natAbs_le ?_
  rw [Int.natAbs_tmod]
  exact Nat.mod_le _ _

theorem mul (hv : Within b m v) (hw : Within b n w) : Within b (m + n) (v * w) := by
  unfold Within
  rw [Int.natAbs_mul, Nat.mul_add, Nat.pow_add]
  exact Nat.mul_lt_mul'' hv hw

theorem add (hb : 0 < b) (hv : Within b m v) (hw : Within b n w) :
    Within b (m + 1 + n) (v + w) := by
  have hm : 0 < 2 ^ (b * m) := Nat.two_pow_pos _
  have hn : 0 < 2 ^ (b * n) := Nat.two_pow_pos _
  calc (v + w).natAbs
      ≤ v.natAbs + w.natAbs := Int.natAbs_add_le v w
    _ < 2 ^ (b * m) + 2 ^ (b * n) := Nat.add_lt_add hv hw
    _ ≤ 2 ^ (b * m) * 2 ^ (b * n) + 2 ^ (b * m) * 2 ^ (b * n) :=
        Nat.add_le_add (Nat.le_mul_of_pos_right _ hn) (Nat.le_mul_of_pos_left _ hm)
    _ = 2 ^ (b * m + b * n + 1) := by rw [Nat.pow_succ, Nat.pow_add, Nat.mul_two]
    _ ≤ 2 ^ (b * (m + 1 + n)) := by
        refine Nat.pow_le_pow_right (by decide) ?_
        rw [Nat.mul_add, Nat.mul_add, Nat.mul_one]
        omega

end Within

/-- Apart from `pow`, a standard function gives nothing larger than its arguments, or 1. -/
theorem Standard.within_apply {f : Standard} (hf : f ≠ .pow) {b n : Nat} (hb : 0 < b) (hn : 0 < n)
    {args : List Int} (hargs : ∀ a ∈ args, Within b n a) {v : Int} (hv : f.apply args = .ok v) :
    Within b n v := by
  have harg (i : Nat) : Within b n (args.getD i 0) := by
    rw [List.getD_eq_getElem?_getD]
    cases hi : args[i]? with
    | none => exact Within.zero
    | some a => exact hargs a (List.mem_of_getElem? hi)
  cases f with
  | abs =>
    obtain rfl := Except.ok.inj hv
    exact (harg 0).neg.ite (harg 0)
  | sign =>
    obtain rfl := Except.ok.inj hv
    have hone : (args.getD 0 0).sign.natAbs ≤ 1 := by
      rcases Int.sign_trichotomy (args.getD 0 0) with h | h | h <;> rw [h] <;> decide
    exact Nat.lt_of_le_of_lt hone (Nat.one_lt_two_pow (Nat.mul_pos hb hn).ne')
  | min =>
    obtain rfl := Except.ok.inj hv
    exact (harg 0).lesser (harg 1)
  | max =>
    obtain rfl := Except.ok.inj hv
    exact (harg 0).greater (harg 1)
  | clamp =>
    obtain rfl := Except.ok.inj hv
    exact (harg 1).greater ((harg 0).lesser (harg 2))
  | pow => exact absurd rfl hf

theorem digitValue_lt {b : Base} {c : Char} (hc : b.isDigit c) : digitValue c < 16 :=
  Base.of_isDigit (P := fun c => digitValue c < 16) (by decide) hc

/-- Each digit, in any base, has four bits at most. -/
theorem Literal.within_value (l : Literal) {b : Nat} (hb : 4 ≤ b) :
    Within b l.spelling.length l.value := by
  have hradix : l.base.radix ≤ 16 := by
    cases l.base <;> decide
  have hdigits : ∀ d ∈ l.digits.reverse.map digitValue, d < 16 := by
    intro d hd
    obtain ⟨c, hc, rfl⟩ := List.mem_map.mp hd
    exact digitValue_lt (l.isDigit_of_mem c (List.mem_reverse.mp hc))
  have hlength : (l.digits.reverse.map digitValue).length ≤ l.spelling.length := by
    simp [spelling]
  calc l.value
      ≤ Nat.ofDigits 16 (l.digits.reverse.map digitValue) := Nat.ofDigits_monotone _ hradix
    _ < 16 ^ (l.digits.reverse.map digitValue).length :=
        Nat.ofDigits_lt_base_pow_length (by decide) hdigits
    _ ≤ (2 ^ 4) ^ l.spelling.length := Nat.pow_le_pow_right (by decide) hlength
    _ = 2 ^ (4 * l.spelling.length) := (Nat.pow_mul 2 4 _).symm
    _ ≤ 2 ^ (b * l.spelling.length) :=
        Nat.pow_le_pow_right (by decide) (Nat.mul_le_mul_right _ hb)

/-- Variables have `b` bits at most, and functions are standard functions other than `pow`. -/
structure Symbols.Modest {φ : Type} (s : Symbols φ) (b : Nat) : Prop where
  four_le : 4 ≤ b
  value_lt : ∀ {x v}, s.value? x = some v → v.natAbs < 2 ^ b
  routine_eq : ∀ {x f}, s.routine? x = some f → ∃ g : Standard, g ≠ .pow ∧ f = g.routine

/-- The bits of the largest variable, or of a hexadecimal digit if that is larger. -/
def Symbols.bits {φ : Type} (s : Symbols φ) : Nat :=
  (4 :: s.values.toList.map fun x => x.2.natAbs.size).max (List.cons_ne_nil _ _)

theorem Symbols.modest_bits {φ : Type} {s : Symbols φ}
    (hs : ∀ x f, s.routine? x = some f → ∃ g : Standard, g ≠ .pow ∧ f = g.routine) :
    s.Modest s.bits where
  four_le := List.le_max_of_mem List.mem_cons_self
  value_lt {x v} hv := by
    have hmem : (x, v) ∈ s.values.toList :=
      Std.ExtTreeMap.mem_toList_iff_getElem?_eq_some.mpr hv
    refine Nat.size_le.mp (List.le_max_of_mem (List.mem_cons_of_mem 4 ?_))
    exact List.mem_map_of_mem (f := fun x : String × Int => x.2.natAbs.size) hmem
  routine_eq hf := hs _ _ hf

namespace Formula

def width (xs : List Lexeme) : Nat := (xs.map fun x => x.token.spelling.length).sum

@[simp] theorem width_nil : width [] = 0 := rfl

@[simp] theorem width_cons (x : Lexeme) (xs : List Lexeme) :
    width (x :: xs) = x.token.spelling.length + width xs := rfl

@[simp] theorem width_append (xs ys : List Lexeme) : width (xs ++ ys) = width xs + width ys := by
  simp [width]

theorem Spelled.width_le {i : Nat} {text : List Char} {xs : List Lexeme}
    (h : Spelled i text xs) : width xs ≤ text.length := by
  induction h with
  | nil => rfl
  | blank _ _ ih =>
    rw [List.length_cons]
    omega
  | token t _ ih =>
    rw [width_cons, List.length_append]
    exact Nat.add_le_add_left ih _

variable {φ ε : Type}

theorem Journal.Calls.within {h : Host φ ε} {c : Calculator φ ε} {b n : Nat}
    (hs : c.symbols.Modest b) {x : Identifier} {j₀ j j' : Journal φ ε} {y : Call φ} {v : Int}
    (hj₀ : j₀.calculator = c) (hf : j₀.IsFunction x y.routine) (hj : j.calculator = c)
    (hcall : j.Calls h y v j') (hn : 0 < n) (hargs : ∀ a ∈ y.args, Within b n a) :
    Within b n v ∧ j'.calculator = c := by
  have hroutine := hf.routine?_eq
  have hrun := hcall.run_eq
  rw [hj₀] at hroutine
  obtain ⟨g, hg, he⟩ := hs.routine_eq hroutine
  rw [he, hj] at hrun
  obtain ⟨hv, hc⟩ := Prod.mk.inj hrun
  have hb : 0 < b := Nat.lt_of_lt_of_le (by decide) hs.four_le
  exact ⟨Standard.within_apply hg hb hn hargs hv, hc.symm⟩

theorem Expression.width_add (e : Expression) (minus : Bool) (pos : Nat) (m : Term) :
    width (Expression.add e minus pos m).lexemes = width e.lexemes + 1 + width m.lexemes := by
  simp [lexemes, Token.spelling, Nat.add_assoc]

theorem Term.width_mul (m : Term) (op : Factor) (pos : Nat) (u : Signed) :
    width (Term.mul m op pos u).lexemes = width m.lexemes + (1 + width u.lexemes) := by
  cases op <;> simp [lexemes, Token.spelling]

theorem Atom.width_le_group (opening : Nat) (e : Expression) (closing : Nat) :
    width e.lexemes ≤ width (Atom.group opening e closing).lexemes := by
  rw [lexemes, width_cons, width_append]
  omega

theorem Operand.width_call (callee : Atom) (opening closing : Nat) (args : Arguments) :
    width (Operand.call callee opening args closing).lexemes =
      width callee.lexemes + (1 + (width args.lexemes + 1)) := by
  simp [lexemes, Token.spelling]

theorem Arguments.width_more (args : Arguments) (comma : Nat) (e : Expression) :
    width (Arguments.more args comma e).lexemes = width args.lexemes + (1 + width e.lexemes) := by
  simp [lexemes, Token.spelling]

section within

variable {h : Host φ ε} {c : Calculator φ ε} {b : Nat}

/-- A variable has the bits of one character, and its name has at least one. -/
theorem Identifier.within_value (hs : c.symbols.Modest b) (x : Identifier) {v : Int}
    (hv : c.symbols.value? x.name = some v) : Within b x.name.toList.length v := by
  have hbits : Within b 1 v := by
    unfold Within
    rw [Nat.mul_one]
    exact hs.value_lt hv
  exact hbits.mono (List.length_pos_iff.mpr x.toList_ne_nil)

mutual

/-- The value of an expression is bounded by its characters, and the calculator stays. -/
theorem Expression.within (hs : c.symbols.Modest b) (e : Expression) {v : Int}
    {j j' : Journal φ ε} (hj : j.calculator = c) (he : e.Evaluates h j v j') :
    Within b (width e.lexemes) v ∧ j'.calculator = c := by
  cases e with
  | term m =>
    cases he with
    | term hm => exact m.within hs hj hm
  | add e minus pos m =>
    have hb : 0 < b := Nat.lt_of_lt_of_le (by decide) hs.four_le
    rw [Expression.width_add]
    cases he with
    | plus _ he hm =>
      obtain ⟨ha, hj₁⟩ := e.within hs hj he
      obtain ⟨hm, hj₂⟩ := m.within hs hj₁ hm
      exact ⟨ha.add hb hm, hj₂⟩
    | minus _ he hm =>
      obtain ⟨ha, hj₁⟩ := e.within hs hj he
      obtain ⟨hm, hj₂⟩ := m.within hs hj₁ hm
      exact ⟨ha.add hb hm.neg, hj₂⟩

theorem Term.within (hs : c.symbols.Modest b) (m : Term) {v : Int}
    {j j' : Journal φ ε} (hj : j.calculator = c) (hm : m.Evaluates h j v j') :
    Within b (width m.lexemes) v ∧ j'.calculator = c := by
  cases m with
  | signed u =>
    cases hm with
    | signed hu => exact u.within hs hj hu
  | mul m op pos u =>
    rw [Term.width_mul]
    cases hm with
    | times _ hm hu =>
      obtain ⟨ha, hj₁⟩ := m.within hs hj hm
      obtain ⟨hu, hj₂⟩ := u.within hs hj₁ hu
      exact ⟨ha.mul (hu.mono (Nat.le_add_left _ 1)), hj₂⟩
    | quotient _ hm hu _ =>
      obtain ⟨ha, hj₁⟩ := m.within hs hj hm
      obtain ⟨-, hj₂⟩ := u.within hs hj₁ hu
      exact ⟨(ha.mono (Nat.le_add_right _ _)).tdiv _, hj₂⟩
    | remainder _ hm hu _ =>
      obtain ⟨ha, hj₁⟩ := m.within hs hj hm
      obtain ⟨-, hj₂⟩ := u.within hs hj₁ hu
      exact ⟨(ha.mono (Nat.le_add_right _ _)).tmod _, hj₂⟩

theorem Signed.within (hs : c.symbols.Modest b) (u : Signed) {v : Int}
    {j j' : Journal φ ε} (hj : j.calculator = c) (hu : u.Evaluates h j v j') :
    Within b (width u.lexemes) v ∧ j'.calculator = c := by
  cases u with
  | operand o =>
    cases hu with
    | operand ho => exact o.within hs hj ho
  | sign minus pos u =>
    have hwidth : width u.lexemes ≤ width (Signed.sign minus pos u).lexemes :=
      Nat.le_add_left _ _
    cases hu with
    | plus _ hu =>
      obtain ⟨hv, hj'⟩ := u.within hs hj hu
      exact ⟨hv.mono hwidth, hj'⟩
    | minus _ hu =>
      obtain ⟨hv, hj'⟩ := u.within hs hj hu
      exact ⟨(hv.mono hwidth).neg, hj'⟩

theorem Operand.within (hs : c.symbols.Modest b) (o : Operand) {v : Int}
    {j j' : Journal φ ε} (hj : j.calculator = c) (ho : o.Evaluates h j v j') :
    Within b (width o.lexemes) v ∧ j'.calculator = c := by
  cases o with
  | atom a =>
    cases a with
    | group opening e closing =>
      cases ho with
      | group _ _ he =>
        obtain ⟨hv, hj'⟩ := e.within hs hj he
        exact ⟨hv.mono (Atom.width_le_group opening e closing), hj'⟩
    | literal l pos =>
      cases ho with
      | literal _ _ => exact ⟨l.within_value hs.four_le, hj⟩
    | name x pos =>
      cases ho with
      | name _ hv =>
        rw [hj] at hv
        exact ⟨x.within_value hs hv, hj⟩
  | nullary callee opening closing =>
    cases ho with
    | nullary pos _ _ hf harity hcall =>
      refine hcall.within hs hj hf hj ?_ nofun
      rw [Operand.lexemes, width_append]
      exact Nat.lt_of_lt_of_le (by decide) (Nat.le_add_left 2 _)
  | call callee opening args closing =>
    rw [Operand.width_call]
    cases ho with
    | call pos _ _ hf harity hargs hcall =>
      obtain ⟨hvs, hj₁⟩ := args.within hs hj hargs
      exact hcall.within hs hj hf hj₁ (by omega) fun a ha => (hvs a ha).mono (by omega)

theorem Arguments.within (hs : c.symbols.Modest b) (args : Arguments) {vs : List Int}
    {j j' : Journal φ ε} (hj : j.calculator = c) (ha : args.Evaluates h j vs j') :
    (∀ v ∈ vs, Within b (width args.lexemes) v) ∧ j'.calculator = c := by
  cases args with
  | one e =>
    cases ha with
    | one he =>
      obtain ⟨hv, hj'⟩ := e.within hs hj he
      exact ⟨List.forall_mem_singleton.mpr hv, hj'⟩
  | more args comma e =>
    rw [Arguments.width_more]
    cases ha with
    | more _ hargs he =>
      obtain ⟨hvs, hj₁⟩ := args.within hs hj hargs
      obtain ⟨hv, hj₂⟩ := e.within hs hj₁ he
      refine ⟨List.forall_mem_append.mpr ⟨fun w hw => (hvs w hw).mono (by omega), ?_⟩, hj₂⟩
      exact List.forall_mem_singleton.mpr (hv.mono (by omega))

end

end within

/-- If the functions of a calculator are standard functions other than `pow`, under any names, each
character of a text contributes no more bits to its value than the largest variable has, or 4. -/
theorem natAbs_lt_of_eval (h : Host φ ε) (c : Calculator φ ε)
    (hc : ∀ x f, c.symbols.routine? x = some f →
      ∃ g ∈ [Standard.abs, .sign, .min, .max, .clamp], f = g.routine)
    (t : String) (v : Int) (p : Option Int)
    (hv : (c.eval h (.text t)).1 = .ok ⟨.value v, p⟩) :
    v.natAbs < 2 ^ (c.symbols.bits * t.length) := by
  have hmodest : c.symbols.Modest c.symbols.bits := by
    refine Symbols.modest_bits fun x f hf => ?_
    obtain ⟨g, hg, rfl⟩ := hc x f hf
    have hpow : ∀ g ∈ [Standard.abs, .sign, .min, .max, .clamp], g ≠ .pow := by decide
    exact ⟨g, hpow g hg, rfl⟩
  have hvalue : (evaluate h t.toList c).1 = .value v := Ending.eq_value_of_toOutcome hv
  obtain ⟨e, he, hwalk⟩ := exists_walk_of_value h hvalue
  have hwidth : width e.lexemes ≤ t.length := by
    rw [← String.length_toList]
    exact (Expression.spells_iff.mpr he).width_le
  exact (e.within hmodest rfl (e.evaluates_of_walk h hwalk)).1.mono hwidth

def renamed : Calculator Empty Unit where
  symbols := (({} : Symbols Empty).putVariable "a" (-300)).putFunction "most" Standard.max.routine
  env := ()

theorem natAbs_lt_of_eval_renamed :
    (∀ x f, renamed.symbols.routine? x = some f →
        ∃ g ∈ [Standard.abs, .sign, .min, .max, .clamp], f = g.routine) ∧
      (renamed.eval ⟨nofun⟩ (.text "most(a, 0xFf) * a")).1 = .ok ⟨.value (-76500), none⟩ ∧
      renamed.symbols.bits = 9 ∧ Int.natAbs (-76500) < 2 ^ (9 * 17) := by
  have hfunctions : ∀ x f, renamed.symbols.routine? x = some f →
      ∃ g ∈ [Standard.abs, .sign, .min, .max, .clamp], f = g.routine := by
    intro x f hf
    rw [renamed, Symbols.routine?_putFunction] at hf
    split at hf
    · exact ⟨.max, by decide, (Option.some.inj hf).symm⟩
    · rw [Symbols.routine?_putVariable] at hf
      split at hf
      · cases hf
      · have hempty : ({} : Symbols Empty).routine? x = none := Std.ExtTreeMap.getElem?_empty
        cases hempty.symm.trans hf
  have hvalue : (renamed.eval ⟨nofun⟩ (.text "most(a, 0xFf) * a")).1 =
      .ok ⟨.value (-76500), none⟩ := rfl
  have hbits : renamed.symbols.bits = 9 := by decide
  refine ⟨hfunctions, hvalue, hbits, ?_⟩
  have hlt := natAbs_lt_of_eval ⟨nofun⟩ renamed hfunctions "most(a, 0xFf) * a" (-76500) none hvalue
  rw [hbits] at hlt
  exact hlt

end Formula

end Abacus
