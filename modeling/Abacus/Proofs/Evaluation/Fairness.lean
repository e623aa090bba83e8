import Abacus.Calculator

/-!
# What reading a token can lead to

`Step.Fair` lists the effects that a token can have. Calls are made of bound routines, with as many
arguments as the routine takes, and an evaluation that ends before its text does ends with a
failure, or with a fault if a numeral is too long.
-/
namespace Abacus.Formula

variable {φ ε : Type}

def Enclosure.Runs (P : Routine φ → Prop) : Enclosure φ → Prop
  | .group _ => True
  | .call f _ _ _ => P f

def State.Runs (P : Routine φ → Prop) (s : State φ) : Prop := ∀ e ∈ s.enclosures, e.Runs P

/-- The effect of a token while all routines in use are of the given kind. -/
inductive Step.Fair (P : Routine φ → Prop) : Step φ → Prop
  | next {s : State φ} (hs : s.Runs P) : Fair P (.next s)
  | call {y : Call φ} {s : State φ} (harity : y.args.length = y.routine.arity)
      (hy : P y.routine) (hs : s.Runs P) : Fair P (.call y s)
  | failure (e : Failure) : Fair P (.stop (.failure e))
  | tooLong : Fair P (.stop (.fault .numeralTooLong))

theorem Ending.eq_value_of_toOutcome {r : Ending} {n : Int} {p : Option Int}
    (h : r.toOutcome = .ok ⟨.value n, p⟩) : r = .value n := by
  cases r with
  | value m =>
    cases h
    rfl
  | failure f => cases h
  | fault f => cases h

theorem Call.run_eq_code_run (h : Host φ ε) (y : Call φ) (hy : y.args.length = y.routine.arity)
    (c : Calculator φ ε) : y.run h c = y.routine.code.run h y.args c := if_pos hy

namespace State

variable {P : Routine φ → Prop} {symbols : Symbols φ}

theorem fair_close {y : Call φ} {outer : RunningSum} {around : List (Enclosure φ)}
    (hy : P y.routine) (hs : ∀ e ∈ around, e.Runs P) : (close y outer around).Fair P := by
  unfold close
  split
  · next harity => exact .call harity hy hs
  · exact .failure _

theorem fair_readOperand {s : State φ} (hs : s.Runs P) (x : Lexeme) :
    (s.readOperand symbols x).Fair P := by
  obtain ⟨t, pos⟩ := x
  cases t with
  | word w =>
    simp only [readOperand, readWord]
    split
    · split
      · exact .next hs
      · exact .failure _
      · exact .tooLong
    · split <;> exact .next hs
  | sign minus => exact .next hs
  | opening => exact .next (List.forall_mem_cons.mpr ⟨trivial, hs⟩)
  | _ => exact .failure _

theorem fair_readOperator {s : State φ} (hs : s.Runs P) (x : Lexeme) (p : Int) :
    (s.readOperator x p).Fair P := by
  obtain ⟨phase, sum, enclosures⟩ := s
  unfold readOperator
  split
  · exact .next hs
  · exact .next hs
  · next he =>
    obtain rfl : enclosures = _ := he
    obtain ⟨hf, haround⟩ := List.forall_mem_cons.mp hs
    exact .next (List.forall_mem_cons.mpr ⟨hf, haround⟩)
  · next he =>
    obtain rfl : enclosures = _ := he
    obtain ⟨hf, haround⟩ := List.forall_mem_cons.mp hs
    exact fair_close hf haround
  · next he =>
    obtain rfl : enclosures = _ := he
    exact .next (List.forall_mem_cons.mp hs).2
  · exact .failure _

theorem fair_read (hsymbols : ∀ x f, symbols.routine? x = some f → P f) {s : State φ}
    (hs : s.Runs P) (x : Lexeme) : (s.read symbols x).Fair P := by
  obtain ⟨phase, sum, enclosures⟩ := s
  cases phase with
  | arguments =>
    simp only [read]
    split
    · obtain ⟨hf, haround⟩ := List.forall_mem_cons.mp hs
      exact fair_close hf haround
    · exact fair_readOperand hs x
  | operand => exact fair_readOperand hs x
  | name n pos =>
    simp only [read]
    split
    · next hf => exact .next (List.forall_mem_cons.mpr ⟨hsymbols n _ hf, hs⟩)
    · exact .failure _
    · exact .failure _
  | primary v =>
    simp only [read]
    split
    · exact .failure _
    · split
      · exact fair_readOperator hs x _
      · exact .failure _
  | product p => exact fair_readOperator hs x p

theorem fair_read_true (symbols : Symbols φ) (s : State φ) (x : Lexeme) :
    (s.read symbols x).Fair fun _ => True := by
  refine fair_read (fun _ _ _ => trivial) ?_ x
  intro e _
  cases e <;> trivial

theorem arity_of_read {x : Lexeme} {s s' : State φ} {y : Call φ}
    (h : s.read symbols x = .call y s') : y.args.length = y.routine.arity := by
  have hfair := fair_read_true symbols s x
  rw [h] at hfair
  cases hfair with
  | call harity _ _ => exact harity

theorem stop_ne_value {x : Lexeme} {s : State φ} {n : Int} :
    s.read symbols x ≠ .stop (.value n) := by
  intro h
  have hfair := fair_read_true symbols s x
  rw [h] at hfair
  cases hfair

/-- Reading itself raises one fault only. -/
theorem fault_of_read {x : Lexeme} {s : State φ} {f : Fault}
    (h : s.read symbols x = .stop (.fault f)) : f = .numeralTooLong := by
  have hfair := fair_read_true symbols s x
  rw [h] at hfair
  cases hfair
  rfl

theorem receive_cases (s : State φ) (v : Int) :
    (∃ p, s.sum.multiply v = .ok p ∧ s.receive v = .ok { s with phase := .product p }) ∨
      ∃ e, s.sum.multiply v = .error e ∧ s.receive v = .error e := by
  unfold receive
  cases s.sum.multiply v with
  | ok p => exact .inl ⟨p, rfl, rfl⟩
  | error e => exact .inr ⟨e, rfl, rfl⟩

theorem runs_of_receive {s s' : State φ} {v : Int} (h : s.receive v = .ok s') (hs : s.Runs P) :
    s'.Runs P := by
  rcases s.receive_cases v with ⟨p, -, hok⟩ | ⟨e, -, herror⟩
  · obtain rfl := Except.ok.inj (hok.symm.trans h)
    exact hs
  · cases herror.symm.trans h

end State

namespace Evaluation

theorem foldl_of_ended (h : Host φ ε) {e : Evaluation φ ε} {r : Ending}
    (he : e.status = .ended r) (xs : List Lexeme) : xs.foldl (advance h) e = e := by
  induction xs with
  | nil => rfl
  | cons x xs ih =>
    have hx : e.advance h x = e := by
      simp only [advance, he]
    rw [List.foldl_cons, hx, ih]

theorem status_ne_value_of_advance {h : Host φ ε} {e : Evaluation φ ε} {x : Lexeme} {n : Int}
    (he : e.status ≠ .ended (.value n)) : (e.advance h x).status ≠ .ended (.value n) := by
  obtain ⟨status, calls, c⟩ := e
  cases status with
  | ended r => exact he
  | reading s =>
    simp only [advance]
    cases hs : s.read c.symbols x with
    | next s' =>
      intro hr
      cases hr
    | stop r =>
      intro hr
      obtain rfl : r = .value n := by injection hr
      exact State.stop_ne_value hs
    | call y s' =>
      intro hr
      simp only [State.resume] at hr
      split at hr
      · cases hr
      · split at hr <;> cases hr

theorem status_foldl_ne_value (h : Host φ ε) (n : Int) (xs : List Lexeme) {e : Evaluation φ ε}
    (he : e.status ≠ .ended (.value n)) :
    (xs.foldl (advance h) e).status ≠ .ended (.value n) := by
  induction xs generalizing e with
  | nil => exact he
  | cons x xs ih => exact ih (status_ne_value_of_advance he)

end Evaluation

end Abacus.Formula
