import Abacus.Proofs.Grammar.ReadBack
import Abacus.Proofs.Grammar.Rejection

/-!
# What a value attests

`Expression.Evaluates` relates a derivation to its value by rules, one for each way in which a
part of a formula can have a value. There is no rule for a group, a literal or a variable that is
called, for a name that is no variable and is not called, for a call with a wrong number of
arguments, and for a division by zero. A text that is evaluated to a value is derivable, by one
tree only, and that tree has the value by the rules.
-/
namespace Abacus.Formula

variable {φ ε : Type}

def Arguments.count : Arguments → Nat
  | .one _ => 1
  | .more args _ _ => args.count + 1

structure Journal.IsFunction (j : Journal φ ε) (x : Identifier) (f : Routine φ) : Prop where
  value?_eq : j.calculator.symbols.value? x.name = none
  routine?_eq : j.calculator.symbols.routine? x.name = some f

/-- The journal behind a call, which has been run and has given the value `v`. -/
structure Journal.Calls (h : Host φ ε) (j : Journal φ ε) (y : Call φ) (v : Int)
    (j' : Journal φ ε) : Prop where
  calls_eq : j'.calls = y :: j.calls
  run_eq : y.routine.code.run h y.args j.calculator = (.ok v, j'.calculator)

section rules

variable (h : Host φ ε)

mutual

/-- From the first journal, the expression has the value and leaves the second journal. -/
inductive Expression.Evaluates : Expression → Journal φ ε → Int → Journal φ ε → Prop
  | term {m : Term} {v : Int} {j j' : Journal φ ε} (hm : Term.Evaluates m j v j') :
      Expression.Evaluates (.term m) j v j'
  | plus {e : Expression} {m : Term} {a b : Int} {j j₁ j₂ : Journal φ ε} (pos : Nat)
      (he : Expression.Evaluates e j a j₁) (hm : Term.Evaluates m j₁ b j₂) :
      Expression.Evaluates (.add e false pos m) j (a + b) j₂
  | minus {e : Expression} {m : Term} {a b : Int} {j j₁ j₂ : Journal φ ε} (pos : Nat)
      (he : Expression.Evaluates e j a j₁) (hm : Term.Evaluates m j₁ b j₂) :
      Expression.Evaluates (.add e true pos m) j (a - b) j₂

inductive Term.Evaluates : Term → Journal φ ε → Int → Journal φ ε → Prop
  | signed {u : Signed} {v : Int} {j j' : Journal φ ε} (hu : Signed.Evaluates u j v j') :
      Term.Evaluates (.signed u) j v j'
  | times {m : Term} {u : Signed} {a b : Int} {j j₁ j₂ : Journal φ ε} (pos : Nat)
      (hm : Term.Evaluates m j a j₁) (hu : Signed.Evaluates u j₁ b j₂) :
      Term.Evaluates (.mul m .times pos u) j (a * b) j₂
  | quotient {m : Term} {u : Signed} {a b : Int} {j j₁ j₂ : Journal φ ε} (pos : Nat)
      (hm : Term.Evaluates m j a j₁) (hu : Signed.Evaluates u j₁ b j₂) (hb : b ≠ 0) :
      Term.Evaluates (.mul m .quotient pos u) j (a.tdiv b) j₂
  | remainder {m : Term} {u : Signed} {a b : Int} {j j₁ j₂ : Journal φ ε} (pos : Nat)
      (hm : Term.Evaluates m j a j₁) (hu : Signed.Evaluates u j₁ b j₂) (hb : b ≠ 0) :
      Term.Evaluates (.mul m .remainder pos u) j (a.tmod b) j₂

inductive Signed.Evaluates : Signed → Journal φ ε → Int → Journal φ ε → Prop
  | operand {o : Operand} {v : Int} {j j' : Journal φ ε} (ho : Operand.Evaluates o j v j') :
      Signed.Evaluates (.operand o) j v j'
  | plus {u : Signed} {v : Int} {j j' : Journal φ ε} (pos : Nat)
      (hu : Signed.Evaluates u j v j') : Signed.Evaluates (.sign false pos u) j v j'
  | minus {u : Signed} {v : Int} {j j' : Journal φ ε} (pos : Nat)
      (hu : Signed.Evaluates u j v j') : Signed.Evaluates (.sign true pos u) j (-v) j'

/-- Only a name is ever called. -/
inductive Operand.Evaluates : Operand → Journal φ ε → Int → Journal φ ε → Prop
  | group {e : Expression} {v : Int} {j j' : Journal φ ε} (opening closing : Nat)
      (he : Expression.Evaluates e j v j') :
      Operand.Evaluates (.atom (.group opening e closing)) j v j'
  | literal {l : Literal} {j : Journal φ ε} (pos : Nat) (hl : ¬ l.TooLong) :
      Operand.Evaluates (.atom (.literal l pos)) j l.value j
  | name {x : Identifier} {v : Int} {j : Journal φ ε} (pos : Nat)
      (hv : j.calculator.symbols.value? x.name = some v) :
      Operand.Evaluates (.atom (.name x pos)) j v j
  | nullary {x : Identifier} {f : Routine φ} {v : Int} {j j' : Journal φ ε}
      (pos opening closing : Nat) (hf : j.IsFunction x f) (harity : f.arity = 0)
      (hcall : j.Calls h ⟨f, [], pos, closing⟩ v j') :
      Operand.Evaluates (.nullary (.name x pos) opening closing) j v j'
  | call {x : Identifier} {f : Routine φ} {args : Arguments} {vs : List Int} {v : Int}
      {j j₁ j₂ : Journal φ ε} (pos opening closing : Nat) (hf : j.IsFunction x f)
      (harity : f.arity = args.count) (hargs : Arguments.Evaluates args j vs j₁)
      (hcall : j₁.Calls h ⟨f, vs, pos, closing⟩ v j₂) :
      Operand.Evaluates (.call (.name x pos) opening args closing) j v j₂

inductive Arguments.Evaluates : Arguments → Journal φ ε → List Int → Journal φ ε → Prop
  | one {e : Expression} {v : Int} {j j' : Journal φ ε} (he : Expression.Evaluates e j v j') :
      Arguments.Evaluates (.one e) j [v] j'
  | more {args : Arguments} {e : Expression} {vs : List Int} {v : Int} {j j₁ j₂ : Journal φ ε}
      (comma : Nat) (hargs : Arguments.Evaluates args j vs j₁)
      (he : Expression.Evaluates e j₁ v j₂) :
      Arguments.Evaluates (.more args comma e) j (vs ++ [v]) j₂

end

end rules

theorem Arguments.length_of_evaluates {h : Host φ ε} (args : Arguments) {vs : List Int}
    {j j' : Journal φ ε} (ha : args.Evaluates h j vs j') : vs.length = args.count := by
  cases args with
  | one e =>
    cases ha with
    | one he => rfl
  | more args comma e =>
    cases ha with
    | more comma hargs he =>
      rw [List.length_append, args.length_of_evaluates hargs]
      rfl

theorem Walk.calls_of_run {h : Host φ ε} {y : Call φ} {v : Int} {j j' : Journal φ ε}
    (hy : (call h y).run j = (.ok v, j')) :
    y.args.length = y.routine.arity ∧ j.Calls h y v j' := by
  by_cases ha : y.args.length = y.routine.arity
  · refine ⟨ha, ?_⟩
    rw [run_call h ha, y.run_eq_code_run h ha] at hy
    rcases hr : y.routine.code.run h y.args j.calculator with ⟨_ | n, c⟩
    · rw [hr] at hy
      cases hy
    · rw [hr] at hy
      cases hy
      exact ⟨rfl, hr⟩
  · rw [call, if_neg ha] at hy
    cases hy

/-- What is called is a function and no variable. -/
theorem Atom.name_of_function {h : Host φ ε} {a : Atom} {opening : Nat} {f : Routine φ × Nat}
    {sense : Sense} {j j₁ j₂ : Journal φ ε} (ha : (a.walk h).run j = (.ok sense, j₁))
    (hf : (Walk.function opening sense).run j₁ = (.ok f, j₂)) :
    ∃ x, a = .name x f.2 ∧ j.IsFunction x f.1 ∧ j₂ = j := by
  cases a with
  | group opening e closing =>
    obtain ⟨v, j₃, -, hpure⟩ := Walk.exists_of_run_bind ha
    obtain ⟨rfl, -⟩ := Walk.eq_of_run_pure hpure
    cases hf
  | literal l pos =>
    obtain ⟨v, j₃, -, hpure⟩ := Walk.exists_of_run_bind ha
    obtain ⟨rfl, -⟩ := Walk.eq_of_run_pure hpure
    cases hf
  | name x pos =>
    rw [Atom.run_name] at ha
    cases hv : j.calculator.symbols.value? x.name with
    | some v =>
      rw [hv] at ha
      cases ha
      cases hf
    | none =>
      rw [hv] at ha
      cases ha
      rw [Walk.run_function_name] at hf
      cases hr : j.calculator.symbols.routine? x.name with
      | none =>
        rw [hr] at hf
        cases hf
      | some g =>
        rw [hr] at hf
        cases hf
        exact ⟨x, rfl, ⟨hv, hr⟩, rfl⟩

mutual

theorem Expression.evaluates_of_walk (h : Host φ ε) (e : Expression) {v : Int}
    {j j' : Journal φ ε} (hw : (e.walk h).run j = (.ok v, j')) : e.Evaluates h j v j' := by
  cases e with
  | term m => exact .term (m.evaluates_of_walk h hw)
  | add e minus pos m =>
    obtain ⟨a, j₁, ha, hw⟩ := Walk.exists_of_run_bind hw
    obtain ⟨b, j₂, hb, hw⟩ := Walk.exists_of_run_bind hw
    obtain ⟨rfl, rfl⟩ := Walk.eq_of_run_pure hw
    cases minus with
    | false => exact .plus pos (e.evaluates_of_walk h ha) (m.evaluates_of_walk h hb)
    | true => exact .minus pos (e.evaluates_of_walk h ha) (m.evaluates_of_walk h hb)

theorem Term.evaluates_of_walk (h : Host φ ε) (m : Term) {v : Int} {j j' : Journal φ ε}
    (hw : (m.walk h).run j = (.ok v, j')) : m.Evaluates h j v j' := by
  cases m with
  | signed u => exact .signed (u.evaluates_of_walk h hw)
  | mul m op pos u =>
    obtain ⟨a, j₁, ha, hw⟩ := Walk.exists_of_run_bind hw
    obtain ⟨b, j₂, hb, hw⟩ := Walk.exists_of_run_bind hw
    have hm := m.evaluates_of_walk h ha
    have hu := u.evaluates_of_walk h hb
    cases op with
    | times =>
      obtain ⟨rfl, rfl⟩ := Walk.eq_of_run_pure hw
      exact .times pos hm hu
    | quotient =>
      by_cases hzero : b = 0
      · rw [Factor.walk, if_pos hzero] at hw
        cases hw
      · rw [Factor.walk, if_neg hzero] at hw
        obtain ⟨rfl, rfl⟩ := Walk.eq_of_run_pure hw
        exact .quotient pos hm hu hzero
    | remainder =>
      by_cases hzero : b = 0
      · rw [Factor.walk, if_pos hzero] at hw
        cases hw
      · rw [Factor.walk, if_neg hzero] at hw
        obtain ⟨rfl, rfl⟩ := Walk.eq_of_run_pure hw
        exact .remainder pos hm hu hzero

theorem Signed.evaluates_of_walk (h : Host φ ε) (u : Signed) {v : Int} {j j' : Journal φ ε}
    (hw : (u.walk h).run j = (.ok v, j')) : u.Evaluates h j v j' := by
  cases u with
  | operand o => exact .operand (o.evaluates_of_walk h hw)
  | sign minus pos u =>
    obtain ⟨a, j₁, ha, hw⟩ := Walk.exists_of_run_bind hw
    obtain ⟨rfl, rfl⟩ := Walk.eq_of_run_pure hw
    cases minus with
    | false => exact .plus pos (u.evaluates_of_walk h ha)
    | true => exact .minus pos (u.evaluates_of_walk h ha)

theorem Operand.evaluates_of_walk (h : Host φ ε) (o : Operand) {v : Int} {j j' : Journal φ ε}
    (hw : (o.walk h).run j = (.ok v, j')) : o.Evaluates h j v j' := by
  cases o with
  | atom a =>
    obtain ⟨sense, j₁, hs, hv⟩ := Walk.exists_of_run_bind hw
    cases a with
    | group opening e closing =>
      obtain ⟨n, j₂, hn, hpure⟩ := Walk.exists_of_run_bind hs
      obtain ⟨rfl, rfl⟩ := Walk.eq_of_run_pure hpure
      obtain ⟨rfl, rfl⟩ := Walk.eq_of_run_pure hv
      exact .group opening closing (e.evaluates_of_walk h hn)
    | literal l pos =>
      obtain ⟨n, j₂, hn, hpure⟩ := Walk.exists_of_run_bind hs
      obtain ⟨rfl, rfl⟩ := Walk.eq_of_run_pure hpure
      obtain ⟨rfl, rfl⟩ := Walk.eq_of_run_pure hv
      by_cases hl : l.TooLong
      · rw [Walk.literal, if_pos hl] at hn
        cases hn
      · rw [Walk.literal, if_neg hl] at hn
        obtain ⟨rfl, rfl⟩ := Walk.eq_of_run_pure hn
        exact .literal pos hl
    | name x pos =>
      rw [Atom.run_name] at hs
      cases hx : j.calculator.symbols.value? x.name with
      | some n =>
        rw [hx] at hs
        cases hs
        obtain ⟨rfl, rfl⟩ := Walk.eq_of_run_pure hv
        exact .name pos hx
      | none =>
        rw [hx] at hs
        cases hs
        rw [Walk.run_value_name] at hv
        cases hv
  | nullary callee opening closing =>
    obtain ⟨sense, j₁, hs, hcont⟩ := Walk.exists_of_run_bind hw
    obtain ⟨⟨f, pos⟩, j₂, hf, hcall⟩ := Walk.exists_of_run_bind hcont
    obtain ⟨x, rfl, hx, rfl⟩ := Atom.name_of_function hs hf
    obtain ⟨harity, hcall⟩ := Walk.calls_of_run hcall
    exact .nullary pos opening closing hx harity.symm hcall
  | call callee opening args closing =>
    obtain ⟨sense, j₁, hs, hcont⟩ := Walk.exists_of_run_bind hw
    obtain ⟨⟨f, pos⟩, j₂, hf, hrest⟩ := Walk.exists_of_run_bind hcont
    obtain ⟨x, rfl, hx, rfl⟩ := Atom.name_of_function hs hf
    obtain ⟨vs, j₃, hvs, hcall⟩ := Walk.exists_of_run_bind hrest
    obtain ⟨harity, hcall⟩ := Walk.calls_of_run hcall
    have hargs := args.evaluates_of_walk h hvs
    have hcount : f.arity = args.count := by
      rw [← args.length_of_evaluates hargs]
      exact harity.symm
    exact .call pos opening closing hx hcount hargs hcall

theorem Arguments.evaluates_of_walk (h : Host φ ε) (args : Arguments) {vs : List Int}
    {j j' : Journal φ ε} (hw : (args.walk h).run j = (.ok vs, j')) :
    args.Evaluates h j vs j' := by
  cases args with
  | one e =>
    obtain ⟨v, j₁, hv, hw⟩ := Walk.exists_of_run_bind hw
    obtain ⟨rfl, rfl⟩ := Walk.eq_of_run_pure hw
    exact .one (e.evaluates_of_walk h hv)
  | more args comma e =>
    obtain ⟨vs, j₁, hvs, hw⟩ := Walk.exists_of_run_bind hw
    obtain ⟨v, j₂, hv, hw⟩ := Walk.exists_of_run_bind hw
    obtain ⟨rfl, rfl⟩ := Walk.eq_of_run_pure hw
    exact .more comma (args.evaluates_of_walk h hvs) (e.evaluates_of_walk h hv)

end

/-- A text that is evaluated to a value is derivable by exactly one tree. By the rules, that tree
has the value, with the calls that the evaluation has made and the calculator that it has left. -/
theorem evaluates_of_eval (h : Host φ ε) (c : Calculator φ ε) (s : String) (n : Int)
    (p : Option Int) (hn : (c.eval h (.text s)).1 = .ok ⟨.value n, p⟩) :
    ∃ e : Expression, e.Spells s.toList ∧ (∀ e' : Expression, e'.Spells s.toList → e' = e) ∧
      e.Evaluates h { calculator := c } n
        ⟨(evaluation h s.toList c).calls, (c.eval h (.text s)).2⟩ := by
  have hvalue : (evaluate h s.toList c).1 = .value n := Ending.eq_value_of_toOutcome hn
  obtain ⟨e, he, hwalk⟩ := exists_walk_of_value h hvalue
  have hspells : e.Spells s.toList := Expression.spells_iff.mpr he
  exact ⟨e, hspells, fun e' he' => Expression.eq_of_spells he' hspells, e.evaluates_of_walk h hwalk⟩

def largest : Calculator Empty Unit where
  symbols := (({} : Symbols Empty).putVariable "a" 5).putFunction "max" Standard.max.routine
  env := ()

theorem evaluates_of_eval_largest :
    (largest.eval ⟨nofun⟩ (.text "max(a, -7) %\t0b11")).1 = .ok ⟨.value 2, none⟩ ∧
      ∃ e : Expression, e.Spells "max(a, -7) %\t0b11".toList ∧
        (∀ e' : Expression, e'.Spells "max(a, -7) %\t0b11".toList → e' = e) ∧
        e.Evaluates ⟨nofun⟩ { calculator := largest } 2
          ⟨(evaluation ⟨nofun⟩ "max(a, -7) %\t0b11".toList largest).calls,
            (largest.eval ⟨nofun⟩ (.text "max(a, -7) %\t0b11")).2⟩ :=
  ⟨rfl, evaluates_of_eval ⟨nofun⟩ largest "max(a, -7) %\t0b11" 2 none rfl⟩

end Abacus.Formula
