import Mathlib.Data.List.Induction
import Abacus.Proofs.Evaluation.Fairness

/-!
# The calls of an evaluation

An evaluation makes a call where it reads the parenthesis that closes an argument list of the right
length, in the calculator as the calls before have left it. The list of its calls therefore
determines the calculator at each of them, and in the end.
-/
namespace Abacus.Formula

variable {φ ε : Type}

/-- The calculator that the calls in a list leave, the latest call first. -/
def afterCalls (h : Host φ ε) (c : Calculator φ ε) (calls : List (Call φ)) : Calculator φ ε :=
  calls.foldr (fun y c => (y.run h c).2) c

namespace State

variable {symbols : Symbols φ} {s s' : State φ} {x : Lexeme} {y : Call φ}

/-- The call whose argument list ends where `x` closes the innermost parenthesis, whatever the
number of its arguments. -/
def closed? (x : Lexeme) (s : State φ) : Option (Call φ) :=
  match s.phase, s.enclosures with
  | .arguments, .call f pos args _ :: _ => some ⟨f, args, pos, x.pos⟩
  | .primary v, .call f pos args _ :: _ =>
    (s.sum.multiply v).toOption.map fun p => ⟨f, args ++ [s.sum.add p], pos, x.pos⟩
  | .product p, .call f pos args _ :: _ => some ⟨f, args ++ [s.sum.add p], pos, x.pos⟩
  | _, _ => none

theorem closing_of_closed? (h : s.closed? x = some y) : y.closing = x.pos := by
  unfold closed? at h
  split at h
  · exact Option.some.inj h ▸ rfl
  · obtain ⟨p, -, rfl⟩ := Option.map_eq_some_iff.mp h
    rfl
  · exact Option.some.inj h ▸ rfl
  · cases h

theorem eq_of_close {z : Call φ} {outer : RunningSum} {around : List (Enclosure φ)}
    (h : close z outer around = .call y s') : z = y ∧ y.args.length = y.routine.arity := by
  unfold close at h
  split at h
  · next harity =>
    obtain ⟨rfl, -⟩ := Step.call.inj h
    exact ⟨rfl, harity⟩
  · cases h

theorem readOperand_ne_call : s.readOperand symbols x ≠ .call y s' := by
  obtain ⟨t, pos⟩ := x
  intro h
  cases t with
  | word w =>
    simp only [readOperand, readWord] at h
    split at h
    · split at h <;> cases h
    · split at h <;> cases h
  | _ => cases h

theorem of_readOperator_call {p : Int} (h : s.readOperator x p = .call y s') :
    x.token = .closing ∧ y.args.length = y.routine.arity ∧
      ∃ f pos args outer around, s.enclosures = .call f pos args outer :: around ∧
        y = ⟨f, args ++ [s.sum.add p], pos, x.pos⟩ := by
  unfold readOperator at h
  split at h
  · cases h
  · cases h
  · cases h
  · next f pos args outer around hx he =>
    obtain ⟨rfl, harity⟩ := eq_of_close h
    exact ⟨hx, harity, f, pos, args, outer, around, he, rfl⟩
  · cases h
  · cases h

/-- A token that completes a call closes its argument list, which is of the right length. -/
theorem of_read_call (h : s.read symbols x = .call y s') :
    x.token = .closing ∧ s.closed? x = some y ∧ y.args.length = y.routine.arity := by
  obtain ⟨phase, sum, enclosures⟩ := s
  cases phase with
  | arguments =>
    simp only [read] at h
    split at h
    · next hx =>
      obtain ⟨rfl, harity⟩ := eq_of_close h
      exact ⟨hx, rfl, harity⟩
    · exact absurd h readOperand_ne_call
  | operand => exact absurd h readOperand_ne_call
  | name n at' =>
    simp only [read] at h
    split at h <;> cases h
  | primary v =>
    simp only [read] at h
    split at h
    · cases h
    · split at h
      · next p hm =>
        obtain ⟨hx, harity, f, pos, args, outer, around, he, rfl⟩ := of_readOperator_call h
        obtain rfl : enclosures = _ := he
        refine ⟨hx, ?_, harity⟩
        simp only [closed?, hm, Except.toOption, Option.map_some]
      · cases h
  | product p =>
    obtain ⟨hx, harity, f, pos, args, outer, around, he, rfl⟩ := of_readOperator_call h
    obtain rfl : enclosures = _ := he
    exact ⟨hx, rfl, harity⟩

theorem read_of_closed? (hx : x.token = .closing) (hy : s.closed? x = some y)
    (symbols : Symbols φ) : ∃ outer around, s.read symbols x = close y outer around := by
  obtain ⟨phase, sum, enclosures⟩ := s
  obtain ⟨t, at'⟩ := x
  obtain rfl : t = .closing := hx
  unfold closed? at hy
  split at hy
  · next hphase henclosures =>
    obtain rfl : phase = _ := hphase
    obtain rfl : enclosures = _ := henclosures
    obtain rfl := Option.some.inj hy
    exact ⟨_, _, rfl⟩
  · next hphase henclosures =>
    obtain rfl : phase = _ := hphase
    obtain rfl : enclosures = _ := henclosures
    obtain ⟨p, hp, rfl⟩ := Option.map_eq_some_iff.mp hy
    cases hm : sum.multiply _ with
    | error e =>
      rw [hm] at hp
      cases hp
    | ok q =>
      rw [hm] at hp
      obtain rfl : q = p := Option.some.inj hp
      simp only [read, hm, reduceCtorEq, if_false]
      exact ⟨_, _, rfl⟩
  · next hphase henclosures =>
    obtain rfl : phase = _ := hphase
    obtain rfl : enclosures = _ := henclosures
    obtain rfl := Option.some.inj hy
    exact ⟨_, _, rfl⟩
  · cases hy

end State

namespace Evaluation

variable {h : Host φ ε}

/-- A token completes a call, or it changes neither the calls nor the calculator. -/
theorem advance_cases (h : Host φ ε) (e : Evaluation φ ε) (x : Lexeme) :
    ((e.advance h x).calls = e.calls ∧ (e.advance h x).calculator = e.calculator) ∨
      ∃ s y s', e.status = .reading s ∧ s.read e.calculator.symbols x = .call y s' ∧
        e.advance h x =
          ⟨s'.resume (y.run h e.calculator).1, y :: e.calls, (y.run h e.calculator).2⟩ := by
  obtain ⟨status, calls, c⟩ := e
  cases status with
  | ended r => exact .inl ⟨rfl, rfl⟩
  | reading s =>
    simp only [advance]
    cases hs : s.read c.symbols x with
    | next s' => exact .inl ⟨rfl, rfl⟩
    | stop r => exact .inl ⟨rfl, rfl⟩
    | call y s' => exact .inr ⟨s, y, s', rfl, hs, rfl⟩

/-- The calculator is as the calls have left it. A fault that has ended the evaluation comes from a
numeral or from the last call. -/
structure Accounted (h : Host φ ε) (c : Calculator φ ε) (e : Evaluation φ ε) : Prop where
  calculator : e.calculator = afterCalls h c e.calls
  fault : ∀ f, e.status = .ended (.fault f) → f = .numeralTooLong ∨
    ∃ y earlier, e.calls = y :: earlier ∧
      y.run h (afterCalls h c earlier) = (.error f, e.calculator)

theorem eq_error_of_resume {s : State φ} {r : Except Fault Int} {f : Fault}
    (hr : s.resume r = .ended (.fault f)) : r = .error f := by
  unfold State.resume at hr
  split at hr
  · cases hr
    rfl
  · split at hr <;> cases hr

theorem Accounted.advance {c : Calculator φ ε} {e : Evaluation φ ε} (he : e.Accounted h c)
    (x : Lexeme) : (e.advance h x).Accounted h c := by
  obtain ⟨status, calls, c'⟩ := e
  cases status with
  | ended r => exact he
  | reading s =>
    simp only [Evaluation.advance]
    cases hread : s.read c'.symbols x with
    | next s' =>
      refine ⟨he.calculator, fun f hf => ?_⟩
      cases hf
    | stop r =>
      refine ⟨he.calculator, fun f hf => .inl ?_⟩
      cases hf
      exact State.fault_of_read hread
    | call y s' =>
      obtain rfl : c' = afterCalls h c calls := he.calculator
      refine ⟨rfl, fun f hf => .inr ⟨y, calls, rfl, ?_⟩⟩
      exact Prod.ext (eq_error_of_resume hf) rfl

theorem accounted_foldl (h : Host φ ε) (c : Calculator φ ε) (xs : List Lexeme) :
    (xs.foldl (advance h) { calculator := c }).Accounted h c := by
  have hstart : ({ calculator := c } : Evaluation φ ε).Accounted h c := by
    refine ⟨rfl, fun f hf => ?_⟩
    cases hf
  generalize ({ calculator := c } : Evaluation φ ε) = e at hstart
  induction xs generalizing e with
  | nil => exact hstart
  | cons x xs ih => exact ih _ (hstart.advance x)

theorem calls_suffix_foldl (h : Host φ ε) (e : Evaluation φ ε) (xs : List Lexeme) :
    e.calls <:+ (xs.foldl (advance h) e).calls := by
  induction xs generalizing e with
  | nil => exact List.suffix_rfl
  | cons x xs ih =>
    refine List.IsSuffix.trans ?_ (ih (e.advance h x))
    rcases e.advance_cases h x with ⟨hcalls, -⟩ | ⟨s, y, s', -, -, hadvance⟩
    · exact hcalls ▸ List.suffix_rfl
    · rw [hadvance]
      exact List.suffix_cons y e.calls

theorem exists_of_calls_foldl {c : Calculator φ ε} {xs : List Lexeme}
    {later earlier : List (Call φ)} {y : Call φ}
    (hcalls : (xs.foldl (advance h) { calculator := c }).calls = later ++ y :: earlier) :
    ∃ before x behind s s', xs = before ++ x :: behind ∧
      before.foldl (advance h) { calculator := c } =
        ⟨.reading s, earlier, afterCalls h c earlier⟩ ∧
      s.read (afterCalls h c earlier).symbols x = .call y s' := by
  -- The list begins with the latest call, so the tokens are taken off from the end.
  induction xs using List.reverseRecOn generalizing later with
  | nil => exact absurd hcalls.symm (List.append_ne_nil_of_right_ne_nil _ (List.cons_ne_nil _ _))
  | append_singleton xs x ih =>
    rw [List.foldl_append] at hcalls
    let e := xs.foldl (advance h) { calculator := c }
    have hlater : ∀ later', e.calls = later' ++ y :: earlier →
        ∃ before x' behind s s', xs ++ [x] = before ++ x' :: behind ∧
          before.foldl (advance h) { calculator := c } =
            ⟨.reading s, earlier, afterCalls h c earlier⟩ ∧
          s.read (afterCalls h c earlier).symbols x' = .call y s' := by
      intro later' h'
      obtain ⟨before, x', behind, s, s', hxs, hbefore, hread⟩ := ih h'
      refine ⟨before, x', behind ++ [x], s, s', ?_, hbefore, hread⟩
      rw [hxs, List.append_assoc, List.cons_append]
    rcases e.advance_cases h x with ⟨hsame, -⟩ | ⟨s, z, s', hs, hread, hadvance⟩
    · exact hlater later (hsame.symm.trans hcalls)
    · have hz : z :: e.calls = later ++ y :: earlier := by
        rw [← hcalls]
        exact (congrArg calls hadvance).symm
      rcases List.cons_eq_append_iff.mp hz with ⟨-, heq⟩ | ⟨later', -, h'⟩
      · obtain ⟨rfl, rfl⟩ := List.cons.inj heq
        have hcalculator : e.calculator = afterCalls h c e.calls :=
          (accounted_foldl h c xs).calculator
        refine ⟨xs, x, [], s, s', rfl, ?_, hcalculator ▸ hread⟩
        rw [← hcalculator, ← hs]
      · exact hlater later' h'

end Evaluation

/-- Nothing behind a token that ends the evaluation matters. -/
theorem evaluation_of_ended {h : Host φ ε} {c : Calculator φ ε} {text : List Char}
    {before behind : List Lexeme} {x : Lexeme} {e e' : Evaluation φ ε} {r : Ending}
    (htokens : tokens 0 text = before ++ x :: behind)
    (hbefore : before.foldl (Evaluation.advance h) { calculator := c } = e)
    (hx : e.advance h x = e') (he' : e'.status = .ended r) : evaluation h text c = e' := by
  rw [evaluation, htokens, List.foldl_append, hbefore, List.foldl_cons, hx]
  exact Evaluation.foldl_of_ended h he' behind

theorem eval_of_ended {h : Host φ ε} {c c' : Calculator φ ε} {t : String} {r : Ending}
    {calls : List (Call φ)} (he : evaluation h t.toList c = ⟨.ended r, calls, c'⟩) :
    c.eval h (.text t) = (r.toOutcome, c') := by
  simp only [Calculator.eval, evaluate, he, Evaluation.finish]

end Abacus.Formula
