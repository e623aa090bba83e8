import Mathlib.Data.List.Induction
import Abacus.Proofs.Evaluation.Fairness

/-!
# How far an evaluation comes

An evaluation comes to the tokens of its text one after the other, until one of them ends it. A
token ends it by itself, or by what the call gives that the token completes.
-/
namespace Abacus.Formula

variable {φ ε : Type}

/-- Behind the tokens `xs` an evaluation is under way, in the state `s`, and has left the calculator
as `c₁`. -/
def Stands (h : Host φ ε) (c : Calculator φ ε) (xs : List Lexeme) (s : State φ)
    (c₁ : Calculator φ ε) : Prop :=
  ∃ calls, xs.foldl (Evaluation.advance h) { calculator := c } = ⟨.reading s, calls, c₁⟩

/-- The evaluation of a text comes to its token `x`, in the state `s` and the calculator `c₁`. -/
def Comes (h : Host φ ε) (c : Calculator φ ε) (text : List Char) (x : Lexeme) (s : State φ)
    (c₁ : Calculator φ ε) : Prop :=
  ∃ before behind, tokens 0 text = before ++ x :: behind ∧ Stands h c before s c₁

inductive State.Leads (h : Host φ ε) (c₁ : Calculator φ ε) (s : State φ) (x : Lexeme) :
    Status φ → Prop
  | next {s' : State φ} (hread : s.read c₁.symbols x = .next s') : Leads h c₁ s x (.reading s')
  | stop {r : Ending} (hread : s.read c₁.symbols x = .stop r) : Leads h c₁ s x (.ended r)
  | call {y : Call φ} {s' s'' : State φ} {v : Int} (hread : s.read c₁.symbols x = .call y s')
      (hrun : (y.run h c₁).1 = .ok v) (hreceive : s'.receive v = .ok s'') :
      Leads h c₁ s x (.reading s'')
  | failure {y : Call φ} {s' : State φ} {v : Int} {e : Failure}
      (hread : s.read c₁.symbols x = .call y s') (hrun : (y.run h c₁).1 = .ok v)
      (hreceive : s'.receive v = .error e) : Leads h c₁ s x (.ended (.failure e))
  | fault {y : Call φ} {s' : State φ} {f : Fault} (hread : s.read c₁.symbols x = .call y s')
      (hrun : (y.run h c₁).1 = .error f) : Leads h c₁ s x (.ended (.fault f))

namespace Evaluation

variable {h : Host φ ε} {c c₁ : Calculator φ ε} {s : State φ}

theorem leads_advance (h : Host φ ε) (s : State φ) (calls : List (Call φ)) (c₁ : Calculator φ ε)
    (x : Lexeme) :
    s.Leads h c₁ x ((⟨.reading s, calls, c₁⟩ : Evaluation φ ε).advance h x).status := by
  simp only [advance]
  cases hread : s.read c₁.symbols x with
  | next s' => exact .next hread
  | stop r => exact .stop hread
  | call y s' =>
    simp only [State.resume]
    cases hrun : (y.run h c₁).1 with
    | error f => exact .fault hread hrun
    | ok v =>
      cases hreceive : s'.receive v with
      | error e =>
        simp only [hreceive]
        exact .failure hread hrun hreceive
      | ok s'' =>
        simp only [hreceive]
        exact .call hread hrun hreceive

/-- An evaluation that has ended was ended by one of the tokens. -/
theorem exists_of_ended {xs : List Lexeme} {r : Ending}
    (hr : (xs.foldl (advance h) { calculator := c }).status = .ended r) :
    ∃ before x behind s calls c₁, xs = before ++ x :: behind ∧
      before.foldl (advance h) { calculator := c } = ⟨.reading s, calls, c₁⟩ ∧
      xs.foldl (advance h) { calculator := c } =
        (⟨.reading s, calls, c₁⟩ : Evaluation φ ε).advance h x := by
  induction xs using List.reverseRecOn with
  | nil => cases hr
  | append_singleton xs x ih =>
    rw [List.foldl_append] at hr ⊢
    rcases he : xs.foldl (advance h) { calculator := c } with ⟨status, calls, c₁⟩
    cases status with
    | reading s => exact ⟨xs, x, [], s, calls, c₁, rfl, he, rfl⟩
    | ended r' =>
      rw [he] at hr
      obtain ⟨before, x', behind, s, calls', c₂, hxs, hbefore, hend⟩ := ih (by rw [he]; exact hr)
      refine ⟨before, x', behind ++ [x], s, calls', c₂, ?_, hbefore, ?_⟩
      · rw [hxs, List.append_assoc, List.cons_append]
      · rw [← hend, he]
        rfl

end Evaluation

section stands

variable {h : Host φ ε} {c c₁ : Calculator φ ε} {s : State φ} {xs : List Lexeme} {x : Lexeme}

theorem stands_nil (h : Host φ ε) (c : Calculator φ ε) : Stands h c [] {} c := ⟨[], rfl⟩

/-- An evaluation that is under way behind a token was under way before it. -/
theorem Stands.exists_of_concat (hs : Stands h c (xs ++ [x]) s c₁) :
    ∃ s₀ c₀, Stands h c xs s₀ c₀ ∧ s₀.Leads h c₀ x (.reading s) ∧
      ∀ s', s₀.read c₀.symbols x = .next s' → c₁ = c₀ := by
  obtain ⟨calls, hs⟩ := hs
  rw [List.foldl_append, List.foldl_cons, List.foldl_nil] at hs
  rcases he : xs.foldl (Evaluation.advance h) { calculator := c } with ⟨status, calls₀, c₀⟩
  rw [he] at hs
  cases status with
  | ended r => cases hs
  | reading s₀ =>
    have hleads := Evaluation.leads_advance h s₀ calls₀ c₀ x
    rw [hs] at hleads
    refine ⟨s₀, c₀, ⟨calls₀, he⟩, hleads, fun s' hread => ?_⟩
    simp only [Evaluation.advance, hread] at hs
    exact (congrArg Evaluation.calculator hs).symm

/-- An evaluation ends where a token ends it, or where its text ends. -/
theorem evaluation_cases (h : Host φ ε) (c : Calculator φ ε) (text : List Char) :
    (∃ s, Stands h c (tokens 0 text) s (evaluate h text c).2 ∧
      (evaluate h text c).1 = s.finish (evaluate h text c).2.symbols text.length) ∨
    ∃ before x behind s c₁, tokens 0 text = before ++ x :: behind ∧ Stands h c before s c₁ ∧
      s.Leads h c₁ x (.ended (evaluate h text c).1) := by
  unfold evaluate evaluation
  rcases he : (tokens 0 text).foldl (Evaluation.advance h) { calculator := c } with
    ⟨status, calls, c₁⟩
  cases status with
  | reading s => exact .inl ⟨s, ⟨calls, he⟩, rfl⟩
  | ended r =>
    obtain ⟨before, x, behind, s, calls', c₂, htokens, hbefore, hend⟩ :=
      Evaluation.exists_of_ended (r := r) (by rw [he])
    have hleads := Evaluation.leads_advance h s calls' c₂ x
    rw [← hend, he] at hleads
    exact .inr ⟨before, x, behind, s, c₂, htokens, ⟨calls', hbefore⟩, hleads⟩

end stands

end Abacus.Formula
