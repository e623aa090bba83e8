import Abacus.Proofs.Evaluation.Fairness
import Abacus.Proofs.Evaluation.Preservation

/-!
# Pure functions

Where all functions that are bound are pure, the symbols stay as they are, and the course of an
evaluation depends on nothing else of the calculator.
-/
namespace Abacus

variable {φ ε : Type}

/-- With these symbols, what the routine gives or raises is determined by the arguments, and it
leaves the symbols alone. -/
def Routine.Pure (h : Host φ ε) (s : Symbols φ) (f : Routine φ) : Prop :=
  ∀ args, ∃ r, ∀ env, (f.code.run h args ⟨s, env⟩).1 = r ∧
    (f.code.run h args ⟨s, env⟩).2.symbols = s

/-- With these symbols, what each callable that is bound gives or raises is determined by the
arguments, and it leaves the symbols alone. -/
def Symbols.Pure (h : Host φ ε) (s : Symbols φ) : Prop :=
  ∀ x (f : Callable φ) n, s.routine? x = some (f.routine n) → ∀ args, ∃ r, ∀ env,
    (h.invoke f.handle args ⟨s, env⟩).1 = r ∧ (h.invoke f.handle args ⟨s, env⟩).2.symbols = s

theorem Symbols.Pure.routine {h : Host φ ε} {s : Symbols φ} (hs : s.Pure h) {x : String}
    {f : Routine φ} (hf : s.routine? x = some f) : f.Pure h s := by
  intro args
  obtain ⟨code, n, harity⟩ := f
  cases code with
  | standard f => exact ⟨f.apply args, fun env => ⟨rfl, rfl⟩⟩
  | callable f =>
    obtain ⟨r, hr⟩ := hs x f n hf args
    refine ⟨f.answer r, fun env => ?_⟩
    obtain ⟨hresult, hsymbols⟩ := hr env
    change (h.run f args ⟨s, env⟩).1 = _ ∧ (h.run f args ⟨s, env⟩).2.symbols = s
    rw [h.run_eq, hresult]
    exact ⟨rfl, hsymbols⟩

namespace Formula

/-- Two evaluations that stand at the same point, with the same symbols and pure functions. -/
structure Evaluation.Alike (h : Host φ ε) (s : Symbols φ) (e e' : Evaluation φ ε) : Prop where
  status_eq : e.status = e'.status
  left : e.calculator.symbols = s
  right : e'.calculator.symbols = s
  runs : ∀ st, e.status = .reading st → st.Runs (Routine.Pure h s)

namespace Evaluation

variable {h : Host φ ε} {s : Symbols φ} {e e' : Evaluation φ ε}

theorem alike_reading {st : State φ} (hst : st.Runs (Routine.Pure h s)) {c c' : Calculator φ ε}
    {calls calls' : List (Call φ)} (hc : c.symbols = s) (hc' : c'.symbols = s) :
    Alike h s ⟨.reading st, calls, c⟩ ⟨.reading st, calls', c'⟩ := by
  refine ⟨rfl, hc, hc', ?_⟩
  rintro _ ⟨⟩
  exact hst

theorem Alike.advance (hs : s.Pure h) (ha : Alike h s e e') (x : Lexeme) :
    Alike h s (e.advance h x) (e'.advance h x) := by
  obtain ⟨status, calls, c⟩ := e
  obtain ⟨status', calls', c'⟩ := e'
  obtain ⟨rfl, hleft, hright, hruns⟩ := ha
  obtain ⟨symbols, env⟩ := c
  obtain ⟨symbols', env'⟩ := c'
  obtain rfl : symbols = s := hleft
  obtain rfl : symbols' = symbols := hright
  cases status with
  | ended r => exact ⟨rfl, rfl, rfl, hruns⟩
  | reading st =>
    have hfair := State.fair_read (fun _ _ hf => hs.routine hf) (hruns st rfl) x
    simp only [Evaluation.advance]
    cases hread : st.read symbols' x with
    | next st' =>
      rw [hread] at hfair
      cases hfair with
      | next hst' =>
        refine ⟨rfl, rfl, rfl, ?_⟩
        rintro _ ⟨⟩
        exact hst'
    | stop r =>
      refine ⟨rfl, rfl, rfl, ?_⟩
      rintro _ ⟨⟩
    | call y st' =>
      rw [hread] at hfair
      cases hfair with
      | call harity hy hst' =>
        obtain ⟨r, hr⟩ := hy y.args
        have hresult : ∀ env, (y.run h ⟨symbols', env⟩).1 = r := fun env => by
          rw [y.run_eq_code_run h harity]
          exact (hr env).1
        have hsymbols : ∀ env, (y.run h ⟨symbols', env⟩).2.symbols = symbols' := fun env => by
          rw [y.run_eq_code_run h harity]
          exact (hr env).2
        refine ⟨?_, hsymbols env, hsymbols env', ?_⟩
        · simp only [hresult]
        · intro st'' hst''
          simp only [State.resume] at hst''
          split at hst''
          · cases hst''
          · split at hst''
            · next hreceive =>
              cases hst''
              exact State.runs_of_receive hreceive hst'
            · cases hst''

theorem Alike.foldl (hs : s.Pure h) (ha : Alike h s e e') (xs : List Lexeme) :
    Alike h s (xs.foldl (Evaluation.advance h) e) (xs.foldl (Evaluation.advance h) e') := by
  induction xs generalizing e e' with
  | nil => exact ha
  | cons x xs ih => exact ih (ha.advance hs x)

theorem Alike.finish_eq (ha : Alike h s e e') (n : Nat) : e.finish n = e'.finish n := by
  simp only [finish, ha.status_eq, ha.left, ha.right]

end Evaluation

end Formula

end Abacus
