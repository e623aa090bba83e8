import Abacus.Proofs.History.Namespace
import Abacus.Proofs.History.Program

/-!
# Operations on the namespace

An operation succeeds or leaves the calculator as it is. One that succeeds is an operation on the
one map that the two tables represent, with an answer that the map determines.
-/
namespace Abacus

variable {φ ε : Type}

theorem bind_throw_ne_ok {α β : Type} (r : Except Fault α) (f : α → Fault) (b : β) :
    (do throw (f (← r)) : Except Fault β) ≠ .ok b := by
  intro h
  cases r <;> cases h

theorem eq_text_of_checkName {d : Datum} {x : String} (h : checkName d = .ok x) :
    d = .text x ∧ isName x := by
  cases d with
  | text s =>
    by_cases hs : isName s
    · rw [checkName, if_pos hs] at h
      obtain rfl := Except.ok.inj h
      exact ⟨rfl, hs⟩
    · rw [checkName, if_neg hs] at h
      cases h
  | _ => exact absurd h (bind_throw_ne_ok _ _ x)

theorem checkName_text_iff {x : String} : checkName (.text x) = .ok x ↔ isName x := by
  constructor
  · intro hx
    exact (eq_text_of_checkName hx).2
  · intro hx
    exact if_pos hx

theorem eq_int_of_checkValue {name d : Datum} {n : Int} (h : checkValue name d = .ok n) :
    d = .int n := by
  cases d with
  | int m => exact congrArg Datum.int (Except.ok.inj h)
  | _ => exact absurd h (bind_throw_ne_ok _ _ n)

namespace Symbols

theorem setVariable_cases (s : Symbols φ) (name value : Datum) :
    (∃ e, s.setVariable name value = .error e) ∨
      ∃ x n, isName x ∧ name = .text x ∧ value = .int n ∧
        s.setVariable name value = .ok (s.value? x, s.putVariable x n) := by
  unfold setVariable
  cases hx : checkName name with
  | error e => exact .inl ⟨e, rfl⟩
  | ok x =>
    cases hn : checkValue name value with
    | error e => exact .inl ⟨e, rfl⟩
    | ok n =>
      obtain ⟨hname, hx⟩ := eq_text_of_checkName hx
      exact .inr ⟨x, n, hx, hname, eq_int_of_checkValue hn, rfl⟩

theorem setVariable_text (s : Symbols φ) {x : String} (hx : isName x) (n : Int) :
    s.setVariable (.text x) (.int n) = .ok (s.value? x, s.putVariable x n) := by
  rw [setVariable, checkName_text_iff.mpr hx]
  rfl

end Symbols

theorem Offer.toRoutine_cases (offer : Offer φ) (arity : Option Int) (limit : Int) :
    (∃ e, offer.toRoutine arity limit = .error e) ∨
      ∃ f, offer.resolve arity = .ok f ∧ 0 ≤ f.arity ∧ f.arity ≤ limit ∧
        offer.toRoutine arity limit = .ok f := by
  unfold Offer.toRoutine
  cases hf : offer.resolve arity with
  | error e => exact .inl ⟨e, rfl⟩
  | ok f =>
    by_cases harity : 0 ≤ f.arity ∧ f.arity ≤ limit
    · exact .inr ⟨f, rfl, harity.1, harity.2, if_pos harity⟩
    · refine .inl ?_
      change ∃ e, (if 0 ≤ f.arity ∧ f.arity ≤ limit then pure f
        else do throw (.binding (.arityOutOfRange (← decimal f.arity) (← decimal limit))) :
          Except Fault (Routine φ)) = .error e
      rw [if_neg harity]
      cases decimal f.arity with
      | error e => exact ⟨e, rfl⟩
      | ok _ => cases decimal limit <;> exact ⟨_, rfl⟩

namespace Symbols

theorem setFunction_cases (s : Symbols φ) (name : Datum) (offer : Offer φ) (arity : Option Int) :
    (∃ e, s.setFunction name offer arity = .error e) ∨
      ∃ x f, isName x ∧ name = .text x ∧ offer.resolve arity = .ok f ∧ 0 ≤ f.arity ∧
        f.arity ≤ s.limit ∧ s.setFunction name offer arity = .ok (s.putFunction x f) := by
  unfold setFunction
  cases hx : checkName name with
  | error e => exact .inl ⟨e, rfl⟩
  | ok x =>
    obtain ⟨hname, hx⟩ := eq_text_of_checkName hx
    rcases offer.toRoutine_cases arity s.limit with ⟨e, he⟩ | ⟨f, hf, hlow, hhigh, hok⟩
    · rw [he]
      exact .inl ⟨e, rfl⟩
    · rw [hok]
      exact .inr ⟨x, f, hx, hname, hf, hlow, hhigh, rfl⟩

theorem install_cases (s : Symbols φ) (names : List String) :
    (∃ e, s.install names = .error e) ∨
      s.install names = .ok ((names.filterMap Standard.ofName?).foldl
        (fun s f => s.putFunction f.name f.routine) s) := by
  unfold install
  simp only
  split
  · exact .inl ⟨_, rfl⟩
  · split
    · refine .inl ?_
      cases decimal s.limit <;> exact ⟨_, rfl⟩
    · exact .inr rfl

end Symbols

namespace Operation

/-- The operation on the map from names to what they denote: to bind a name is to overwrite what it
denoted, and to unbind it is to erase it. -/
def apply (o : Operation φ) (m : Meanings φ) : Meanings φ :=
  match o with
  | bindVariable (.text x) (.int n) => m.insert x (.value n)
  | set (.text x) (.int n) => m.insert x (.value n)
  | bindFunction (.text x) offer arity =>
    match offer.resolve arity with
    | .ok f => m.insert x (.routine f)
    | .error _ => m
  | install names =>
    ((Standard.selected names).filterMap Standard.ofName?).foldl
      (fun m f => m.insert f.name (.routine f.routine)) m
  | unbind x => m.erase x
  | _ => m

def reply (o : Operation φ) (m : Meanings φ) : Reply :=
  match o with
  | set (.text x) _ => .previous (m.value? x)
  | unbind x => .found (m.contains x)
  | _ => .done

end Operation

namespace Symbols

variable {s : Symbols φ} {m : Meanings φ}

theorem Represents.putFunctions (h : s.Represents m) (fs : List Standard) :
    (fs.foldl (fun s f => s.putFunction f.name f.routine) s).Represents
      (fs.foldl (fun m f => m.insert f.name (.routine f.routine)) m) := by
  induction fs generalizing s m with
  | nil => exact h
  | cons f fs ih => exact ih (h.putFunction f.name f.routine)

theorem limit_putFunctions (s : Symbols φ) (fs : List Standard) :
    (fs.foldl (fun s f => s.putFunction f.name f.routine) s).limit = s.limit := by
  induction fs generalizing s with
  | nil => rfl
  | cons f fs ih => exact ih _

theorem limit_remove (s : Symbols φ) (x : String) : (s.remove x).2.limit = s.limit := by
  unfold remove
  split
  · rfl
  · split <;> rfl

end Symbols

/-- An operation fails and leaves the calculator as it is, or it is the operation on the map. -/
theorem Operation.perform_cases (o : Operation φ) (c : Calculator φ ε) {m : Meanings φ}
    (hm : c.symbols.Represents m) :
    (∃ e, o.perform c = (.error e, c)) ∨
      ∃ s, o.perform c = (.ok (o.reply m), { c with symbols := s }) ∧
        s.limit = c.symbols.limit ∧ s.Represents (o.apply m) := by
  cases o with
  | bindVariable name value =>
    simp only [perform, Calculator.set]
    rcases c.symbols.setVariable_cases name value with ⟨e, he⟩ | ⟨x, n, -, rfl, rfl, hok⟩
    · rw [he]
      exact .inl ⟨e, rfl⟩
    · rw [hok]
      exact .inr ⟨_, rfl, rfl, hm.putVariable x n⟩
  | set name value =>
    simp only [perform, Calculator.set]
    rcases c.symbols.setVariable_cases name value with ⟨e, he⟩ | ⟨x, n, -, rfl, rfl, hok⟩
    · rw [he]
      exact .inl ⟨e, rfl⟩
    · rw [hok, hm.value?_eq]
      exact .inr ⟨_, rfl, rfl, hm.putVariable x n⟩
  | bindFunction name offer arity =>
    simp only [perform, Calculator.bindFunction]
    rcases c.symbols.setFunction_cases name offer arity with
      ⟨e, he⟩ | ⟨x, f, -, rfl, hf, -, -, hok⟩
    · rw [he]
      exact .inl ⟨e, rfl⟩
    · rw [hok]
      refine .inr ⟨_, rfl, rfl, ?_⟩
      simp only [apply, hf]
      exact hm.putFunction x f
  | install names =>
    simp only [perform, Calculator.install]
    rcases c.symbols.install_cases (Standard.selected names) with ⟨e, he⟩ | hok
    · rw [he]
      exact .inl ⟨e, rfl⟩
    · rw [hok]
      exact .inr ⟨_, rfl, c.symbols.limit_putFunctions _, hm.putFunctions _⟩
  | unbind x =>
    obtain ⟨hfound, hremove⟩ := hm.remove x
    refine .inr ⟨(c.symbols.remove x).2, ?_, c.symbols.limit_remove x, hremove⟩
    simp only [perform, Calculator.unbind, reply, hfound]

end Abacus
