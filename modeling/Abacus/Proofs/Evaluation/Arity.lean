import Mathlib.Tactic.SplitIfs
import Abacus.Proofs.Evaluation.Calls
import Abacus.Proofs.Evaluation.Preservation

/-!
# The arguments of calls

A call that is made has as many arguments as its routine takes, even if the name has come to denote
something else since the call was opened. A wrong number of arguments is met where the argument
list is closed, and is a failure of the formula; the routine itself, which checks the number once
more, never sees it. A fault therefore comes from the code of a routine, or from a numeral.
-/
namespace Abacus

variable {φ ε : Type}

theorem Host.Preserves.afterCalls {h : Host φ ε} {P : Calculator φ ε → Prop} (hP : h.Preserves P)
    {c : Calculator φ ε} (hc : P c) (calls : List (Formula.Call φ)) :
    P (Formula.afterCalls h c calls) := by
  induction calls with
  | nil => exact hc
  | cons y calls ih => exact hP.routine y.routine y.args (some y.pos) ih

theorem decimal_ne_evaluation (n : Int) (e : EvaluationError) :
    decimal n ≠ .error (.evaluation e) := by
  unfold decimal
  intro h
  split at h <;> cases h

theorem Standard.power_ne_evaluation (base exponent : Int) (e : EvaluationError) :
    power base exponent ≠ .error (.evaluation e) := by
  have hdecimal := decimal_ne_evaluation exponent e
  unfold power
  generalize decimal exponent = r at hdecimal
  intro h
  split_ifs at h
  cases r with
  | error f => exact hdecimal (congrArg Except.error (Except.error.inj h))
  | ok text => cases h

/-- Standard functions never raise the failure of a formula. -/
theorem Standard.apply_ne_evaluation (f : Standard) (args : List Int) (e : EvaluationError) :
    f.apply args ≠ .error (.evaluation e) := by
  unfold apply
  cases f with
  | pow => exact power_ne_evaluation _ _ e
  | _ =>
    intro h
    cases h

theorem Callable.eq_of_answer_evaluation {g : Callable φ} {r : Except Fault Datum}
    {e : EvaluationError} (h : g.answer r = .error (.evaluation e)) :
    r = .error (.evaluation e) := by
  cases r with
  | error f => exact congrArg Except.error (Except.error.inj h)
  | ok d => cases d <;> cases h

/-- Code raises the failure of a formula only if it is a callable that does. -/
theorem Code.exists_invoke_of_run {h : Host φ ε} {code : Code φ} {args : List Int}
    {c c' : Calculator φ ε} {e : EvaluationError}
    (hrun : code.run h args c = (.error (.evaluation e), c')) :
    ∃ g, code = .callable g ∧ h.invoke g.handle args c = (.error (.evaluation e), c') := by
  cases code with
  | standard f => exact absurd (congrArg Prod.fst hrun) (f.apply_ne_evaluation args e)
  | callable g =>
    refine ⟨g, rfl, ?_⟩
    change h.run g args c = _ at hrun
    rw [h.run_eq, Prod.mk.injEq] at hrun
    obtain ⟨hanswer, hcalculator⟩ := hrun
    exact Prod.ext (g.eq_of_answer_evaluation hanswer) hcalculator

namespace Formula

/-- The evaluation of a text makes the call `y`, in the calculator `c₁`. -/
def Makes (h : Host φ ε) (c : Calculator φ ε) (text : List Char) (y : Call φ)
    (c₁ : Calculator φ ε) : Prop :=
  ∃ later earlier, (evaluation h text c).calls = later ++ y :: earlier ∧
    c₁ = afterCalls h c earlier

/-- The evaluation of a text comes, in the calculator `c₁`, to the end of the argument list of `y`,
which may have any length. -/
def Closes (h : Host φ ε) (c : Calculator φ ε) (text : List Char) (y : Call φ)
    (c₁ : Calculator φ ε) : Prop :=
  ∃ before x behind s calls, tokens 0 text = before ++ x :: behind ∧
    before.foldl (Evaluation.advance h) { calculator := c } = ⟨.reading s, calls, c₁⟩ ∧
    x.token = .closing ∧ s.closed? x = some y

section invariant

variable {h : Host φ ε} {P : Calculator φ ε → Prop} {Q : Routine φ → Prop}

/-- The calculator satisfies `P`, and the routines of all calls, open or made, satisfy `Q`. -/
structure Evaluation.Regular (P : Calculator φ ε → Prop) (Q : Routine φ → Prop)
    (e : Evaluation φ ε) : Prop where
  calculator : P e.calculator
  runs : ∀ s, e.status = .reading s → s.Runs Q
  calls : ∀ y ∈ e.calls, Q y.routine

theorem State.runs_of_resume {s s' : State φ} {r : Except Fault Int} (hs : s.Runs Q)
    (hr : s.resume r = .reading s') : s'.Runs Q := by
  unfold resume at hr
  split at hr
  · cases hr
  · split at hr
    · next hreceive =>
      cases hr
      exact runs_of_receive hreceive hs
    · cases hr

theorem Evaluation.Regular.advance (hP : h.Preserves P)
    (hQ : ∀ c, P c → ∀ x f, c.symbols.routine? x = some f → Q f) {e : Evaluation φ ε}
    (he : e.Regular P Q) (x : Lexeme) : (e.advance h x).Regular P Q := by
  obtain ⟨status, calls, c⟩ := e
  cases status with
  | ended r => exact he
  | reading s =>
    have hfair := State.fair_read (hQ c he.calculator) (he.runs s rfl) x
    simp only [Evaluation.advance]
    generalize s.read c.symbols x = r at hfair ⊢
    cases hfair with
    | @next s' hs =>
      refine ⟨he.calculator, fun s'' hs'' => ?_, he.calls⟩
      cases hs''
      exact hs
    | @call y s' _ hy hs =>
      exact ⟨hP.routine y.routine y.args (some y.pos) he.calculator,
        fun s'' hs'' => State.runs_of_resume hs hs'', List.forall_mem_cons.mpr ⟨hy, he.calls⟩⟩
    | failure e =>
      refine ⟨he.calculator, fun s' hs' => ?_, he.calls⟩
      cases hs'
    | tooLong =>
      refine ⟨he.calculator, fun s' hs' => ?_, he.calls⟩
      cases hs'

theorem Evaluation.Regular.foldl (hP : h.Preserves P)
    (hQ : ∀ c, P c → ∀ x f, c.symbols.routine? x = some f → Q f) (xs : List Lexeme)
    {e : Evaluation φ ε} (he : e.Regular P Q) :
    (xs.foldl (Evaluation.advance h) e).Regular P Q := by
  induction xs generalizing e with
  | nil => exact he
  | cons x xs ih => exact ih (he.advance hP hQ x)

/-- What holds of the calculator whatever the host does, and what follows for the routines that are
bound, hold of every call that is made. -/
theorem Makes.regular (hP : h.Preserves P)
    (hQ : ∀ c, P c → ∀ x f, c.symbols.routine? x = some f → Q f) {c c₁ : Calculator φ ε}
    (hc : P c) {text : List Char} {y : Call φ} (hy : Makes h c text y c₁) :
    P c₁ ∧ Q y.routine := by
  obtain ⟨later, earlier, hcalls, rfl⟩ := hy
  have hstart : ({ calculator := c } : Evaluation φ ε).Regular P Q := by
    refine ⟨hc, fun s hs => ?_, List.forall_mem_nil _⟩
    cases hs
    exact List.forall_mem_nil _
  have hregular := hstart.foldl hP hQ (tokens 0 text)
  have hmem : y ∈ (evaluation h text c).calls :=
    hcalls ▸ List.mem_append_right later List.mem_cons_self
  exact ⟨hP.afterCalls hc earlier, hregular.calls y hmem⟩

end invariant

variable {h : Host φ ε} {c c' c₁ : Calculator φ ε} {t : String}

/-- A call is made if and only if its argument list is closed with the right length. -/
theorem makes_iff {text : List Char} {y : Call φ} :
    Makes h c text y c₁ ↔ Closes h c text y c₁ ∧ y.args.length = y.routine.arity := by
  constructor
  · rintro ⟨later, earlier, hcalls, rfl⟩
    obtain ⟨before, x, behind, s, s', htokens, hbefore, hread⟩ :=
      Evaluation.exists_of_calls_foldl hcalls
    obtain ⟨hx, hclosed, harity⟩ := State.of_read_call hread
    exact ⟨⟨before, x, behind, s, earlier, htokens, hbefore, hx, hclosed⟩, harity⟩
  · rintro ⟨⟨before, x, behind, s, calls, htokens, hbefore, hx, hclosed⟩, harity⟩
    obtain ⟨outer, around, hread⟩ := State.read_of_closed? hx hclosed c₁.symbols
    rw [State.close, if_pos harity] at hread
    have hcalls : ((⟨.reading s, calls, c₁⟩ : Evaluation φ ε).advance h x).calls = y :: calls := by
      simp only [Evaluation.advance, hread]
    obtain ⟨later, hlater⟩ := Evaluation.calls_suffix_foldl h
      ((⟨.reading s, calls, c₁⟩ : Evaluation φ ε).advance h x) behind
    refine ⟨later, calls, ?_, ?_⟩
    · rw [evaluation, htokens, List.foldl_append, hbefore, List.foldl_cons, ← hlater, hcalls]
    · have haccounted := Evaluation.accounted_foldl h c before
      rw [hbefore] at haccounted
      exact haccounted.calculator

/-- An argument list of the wrong length ends the evaluation where it is closed, with a failure at
the name in front of it. -/
theorem Closes.eval_eq {y : Call φ} (hy : Closes h c t.toList y c₁)
    (harity : ¬ y.args.length = y.routine.arity) :
    c.eval h (.text t) = (.ok ⟨.failure .argumentMismatch, some y.pos⟩, c₁) := by
  obtain ⟨before, x, behind, s, calls, htokens, hbefore, hx, hclosed⟩ := hy
  obtain ⟨outer, around, hread⟩ := State.read_of_closed? hx hclosed c₁.symbols
  rw [State.close, if_neg harity] at hread
  have hended : (⟨.reading s, calls, c₁⟩ : Evaluation φ ε).advance h x =
      ⟨.ended (.failure ⟨.argumentMismatch, y.pos⟩), calls, c₁⟩ := by
    simp only [Evaluation.advance, hread, Step.fail]
  exact eval_of_ended (evaluation_of_ended htokens hbefore hended rfl)

theorem State.finish_ne_fault (symbols : Symbols φ) (n : Nat) (s : State φ) (f : Fault) :
    s.finish symbols n ≠ .fault f := by
  obtain ⟨phase, sum, enclosures⟩ := s
  intro hs
  unfold finish at hs
  cases phase with
  | primary v =>
    simp only at hs
    split at hs
    · split at hs <;> cases hs
    · cases hs
  | product p =>
    simp only at hs
    split at hs <;> cases hs
  | _ => cases hs

theorem Ending.eq_fault_of_toOutcome {r : Ending} {f : Fault} (hr : r.toOutcome = .error f) :
    r = .fault f := by
  cases r with
  | fault g => exact congrArg Ending.fault (Except.error.inj hr)
  | _ => cases hr

theorem Evaluation.status_of_finish_fault {e : Evaluation φ ε} {n : Nat} {f : Fault}
    (he : e.finish n = .fault f) : e.status = .ended (.fault f) := by
  obtain ⟨status, calls, c⟩ := e
  cases status with
  | ended r => exact congrArg Status.ended he
  | reading s => exact absurd he (s.finish_ne_fault c.symbols n f)

theorem Makes.run_eq_code_run {text : List Char} {y : Call φ} (hy : Makes h c text y c₁)
    (c₂ : Calculator φ ε) : y.run h c₂ = y.routine.code.run h y.args c₂ :=
  y.run_eq_code_run h (makes_iff.mp hy).2 c₂

/-- A fault comes from a numeral, or from the code of the routine that is called last. -/
theorem fault_of_eval {f : Fault} (hf : c.eval h (.text t) = (.error f, c')) :
    f = .numeralTooLong ∨
      ∃ y c₁, Makes h c t.toList y c₁ ∧ y.routine.code.run h y.args c₁ = (.error f, c') := by
  have haccounted : (evaluation h t.toList c).Accounted h c := Evaluation.accounted_foldl h c _
  simp only [Calculator.eval, evaluate, Prod.mk.injEq] at hf
  obtain ⟨hending, hcalculator⟩ := hf
  have hstatus := Evaluation.status_of_finish_fault (Ending.eq_fault_of_toOutcome hending)
  rcases haccounted.fault f hstatus with hlong | ⟨y, earlier, hcalls, hrun⟩
  · exact .inl hlong
  · have hy : Makes h c t.toList y (afterCalls h c earlier) := ⟨[], earlier, hcalls, rfl⟩
    rw [hcalculator, hy.run_eq_code_run] at hrun
    exact .inr ⟨y, _, hy, hrun⟩

/-- A failure that an evaluation raises instead of answering with it was raised by a callable. -/
theorem exists_invoke_of_eval {e : EvaluationError}
    (he : c.eval h (.text t) = (.error (.evaluation e), c')) :
    ∃ y c₁ g, Makes h c t.toList y c₁ ∧ y.routine.code = .callable g ∧
      h.invoke g.handle y.args c₁ = (.error (.evaluation e), c') := by
  rcases fault_of_eval he with hlong | ⟨y, c₁, hy, hrun⟩
  · cases hlong
  · obtain ⟨g, hg, hinvoke⟩ := Code.exists_invoke_of_run hrun
    exact ⟨y, c₁, g, hy, hg, hinvoke⟩

end Formula

end Abacus
