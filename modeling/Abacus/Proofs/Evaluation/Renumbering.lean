import Abacus.Proofs.Evaluation.Fairness

/-!
# Positions are only reported

An evaluation never looks at the positions of its tokens: with other positions in their places it
takes the same course, and reports the other ones (`Evaluation.foldl_renumber`).
-/
namespace Abacus.Formula

variable {φ ε : Type}

section renumber

variable (σ : Nat → Nat)

def Lexeme.renumber (x : Lexeme) : Lexeme := { x with pos := σ x.pos }

def Failure.renumber (e : Failure) : Failure := { e with pos := σ e.pos }

def Ending.renumber : Ending → Ending
  | .value n => .value n
  | .failure e => .failure (e.renumber σ)
  | .fault e => .fault e

def RunningSum.renumber (r : RunningSum) : RunningSum :=
  { r with product := r.product.map fun q => (q.1, q.2.1, σ q.2.2) }

def Enclosure.renumber : Enclosure φ → Enclosure φ
  | .group outer => .group (outer.renumber σ)
  | .call f pos args outer => .call f (σ pos) args (outer.renumber σ)

def Phase.renumber : Phase → Phase
  | .arguments => .arguments
  | .operand => .operand
  | .name x pos => .name x (σ pos)
  | .primary v => .primary v
  | .product p => .product p

def State.renumber (s : State φ) : State φ :=
  ⟨s.phase.renumber σ, s.sum.renumber σ, s.enclosures.map (Enclosure.renumber σ)⟩

def Call.renumber (y : Call φ) : Call φ := { y with pos := σ y.pos, closing := σ y.closing }

def Step.renumber : Step φ → Step φ
  | .next s => .next (s.renumber σ)
  | .call y s => .call (y.renumber σ) (s.renumber σ)
  | .stop r => .stop (r.renumber σ)

def Status.renumber : Status φ → Status φ
  | .reading s => .reading (s.renumber σ)
  | .ended r => .ended (r.renumber σ)

def Evaluation.renumber (e : Evaluation φ ε) : Evaluation φ ε :=
  ⟨e.status.renumber σ, e.calls.map (Call.renumber σ), e.calculator⟩

end renumber

variable {σ : Nat → Nat}

theorem RunningSum.multiply_renumber (r : RunningSum) (v : Int) :
    (r.renumber σ).multiply v = (r.multiply v).mapError (Failure.renumber σ) := by
  obtain ⟨total, subtract, product, negate⟩ := r
  cases product with
  | none => rfl
  | some q =>
    obtain ⟨a, op, pos⟩ := q
    cases negate with
    | false =>
      simp only [RunningSum.renumber, RunningSum.multiply, Option.map_some, Bool.false_eq_true,
        if_false]
      cases op.apply a v <;> rfl
    | true =>
      simp only [RunningSum.renumber, RunningSum.multiply, Option.map_some, if_true]
      cases op.apply a (-v) <;> rfl

namespace State

theorem close_renumber (y : Call φ) (outer : RunningSum) (around : List (Enclosure φ)) :
    close (y.renumber σ) (outer.renumber σ) (around.map (Enclosure.renumber σ)) =
      (close y outer around).renumber σ := by
  by_cases hy : y.args.length = y.routine.arity
  · have hy' : (y.renumber σ).args.length = (y.renumber σ).routine.arity := hy
    rw [close, if_pos hy', close, if_pos hy]
    rfl
  · have hy' : ¬ (y.renumber σ).args.length = (y.renumber σ).routine.arity := hy
    rw [close, if_neg hy', close, if_neg hy]
    rfl

theorem readWord_renumber (symbols : Symbols φ) (w : List Char) (pos : Nat) (s : State φ) :
    (s.renumber σ).readWord symbols w (σ pos) = (s.readWord symbols w pos).renumber σ := by
  unfold readWord
  by_cases hd : w.head?.any Char.isDigit
  · rw [if_pos hd, if_pos hd]
    cases Numeral.read w <;> rfl
  · rw [if_neg hd, if_neg hd]
    simp only
    cases symbols.value? (String.ofList w) <;> rfl

theorem readOperand_renumber (symbols : Symbols φ) (x : Lexeme) (s : State φ) :
    (s.renumber σ).readOperand symbols (x.renumber σ) =
      (s.readOperand symbols x).renumber σ := by
  obtain ⟨t, pos⟩ := x
  cases t with
  | word w => exact s.readWord_renumber symbols w pos
  | _ => rfl

theorem readOperator_renumber (x : Lexeme) (p : Int) (s : State φ) :
    (s.renumber σ).readOperator (x.renumber σ) p = (s.readOperator x p).renumber σ := by
  obtain ⟨phase, sum, enclosures⟩ := s
  obtain ⟨t, pos⟩ := x
  cases t with
  | closing =>
    cases enclosures with
    | nil => rfl
    | cons e around =>
      cases e with
      | group outer => rfl
      | call f at' args outer =>
        exact close_renumber ⟨f, args ++ [sum.add p], at', pos⟩ outer around
  | comma =>
    cases enclosures with
    | nil => rfl
    | cons e around => cases e <;> rfl
  | _ => cases enclosures <;> rfl

theorem read_renumber (symbols : Symbols φ) (x : Lexeme) (s : State φ) :
    (s.renumber σ).read symbols (x.renumber σ) = (s.read symbols x).renumber σ := by
  obtain ⟨phase, sum, enclosures⟩ := s
  cases phase with
  | arguments =>
    obtain ⟨t, pos⟩ := x
    cases t with
    | closing =>
      cases enclosures with
      | nil => rfl
      | cons e around =>
        cases e with
        | group outer => rfl
        | call f at' args outer => exact close_renumber ⟨f, args, at', pos⟩ outer around
    | word w => exact readWord_renumber symbols w pos ⟨.arguments, sum, enclosures⟩
    | _ => rfl
  | operand => exact readOperand_renumber symbols x ⟨.operand, sum, enclosures⟩
  | name n at' =>
    obtain ⟨t, pos⟩ := x
    cases t with
    | opening =>
      simp only [read, renumber, Phase.renumber, Lexeme.renumber]
      cases symbols.routine? n <;> rfl
    | _ => rfl
  | primary v =>
    by_cases hx : x.token = .opening
    · have hx' : (x.renumber σ).token = .opening := hx
      simp only [read, renumber, Phase.renumber, if_pos hx, if_pos hx']
      rfl
    · have hx' : ¬ (x.renumber σ).token = .opening := hx
      simp only [read, renumber, Phase.renumber, if_neg hx, if_neg hx',
        RunningSum.multiply_renumber]
      cases sum.multiply v with
      | error e => rfl
      | ok p => exact readOperator_renumber x p ⟨.primary v, sum, enclosures⟩
  | product p => exact readOperator_renumber x p ⟨.product p, sum, enclosures⟩

theorem finish_renumber (symbols : Symbols φ) (n : Nat) (s : State φ) :
    (s.renumber σ).finish symbols (σ n) = (s.finish symbols n).renumber σ := by
  obtain ⟨phase, sum, enclosures⟩ := s
  cases phase with
  | primary v =>
    simp only [finish, renumber, Phase.renumber, RunningSum.multiply_renumber]
    cases sum.multiply v with
    | error e => rfl
    | ok p => cases enclosures <;> rfl
  | product p => cases enclosures <;> rfl
  | _ => rfl

theorem resume_renumber (s : State φ) (r : Except Fault Int) :
    (s.renumber σ).resume r = (s.resume r).renumber σ := by
  cases r with
  | error e => rfl
  | ok v =>
    simp only [resume, receive, renumber, RunningSum.multiply_renumber]
    cases s.sum.multiply v <;> rfl

end State

namespace Evaluation

theorem advance_renumber (h : Host φ ε) (e : Evaluation φ ε) (x : Lexeme) :
    (e.renumber σ).advance h (x.renumber σ) = (e.advance h x).renumber σ := by
  obtain ⟨status, calls, c⟩ := e
  cases status with
  | ended r => rfl
  | reading s =>
    simp only [renumber, Status.renumber, advance, State.read_renumber]
    cases hs : s.read c.symbols x with
    | next s' => rfl
    | stop r => rfl
    | call y s' =>
      have hy := State.arity_of_read hs
      have hrun : (y.renumber σ).run h c = y.run h c := by
        rw [y.run_eq_code_run h hy, (y.renumber σ).run_eq_code_run h hy]
        rfl
      simp only [Step.renumber, hrun, State.resume_renumber, List.map_cons]
      rfl

/-- An evaluation of tokens that have other positions is the same with these positions. -/
theorem foldl_renumber (h : Host φ ε) (xs : List Lexeme) (e : Evaluation φ ε) :
    (xs.map (Lexeme.renumber σ)).foldl (advance h) (e.renumber σ) =
      (xs.foldl (advance h) e).renumber σ := by
  induction xs generalizing e with
  | nil => rfl
  | cons x xs ih =>
    rw [List.map_cons, List.foldl_cons, advance_renumber, ih, List.foldl_cons]

theorem finish_renumber (n : Nat) (e : Evaluation φ ε) :
    (e.renumber σ).finish (σ n) = (e.finish n).renumber σ := by
  obtain ⟨status, calls, c⟩ := e
  cases status with
  | ended r => rfl
  | reading s => exact s.finish_renumber c.symbols n

end Evaluation

end Abacus.Formula
