import Abacus.Proofs.Descent.Agreement
import Abacus.Proofs.Descent.Locality
import Abacus.Proofs.Evaluation.Openings

/-!
# Every evaluation ends

More fuel changes nothing once a rule has a result (`refines_run`), so a rule has one result, with
any fuel beyond what it needs (`exists_result`). The five rules of the grammar raise or pass over at
least one character, a formula is evaluated with as much fuel as its text asks for, and an
evaluation makes at most one call for each opening parenthesis (`descent_ends`).
-/
namespace Abacus.Formula

variable {φ ε α β : Type}

namespace Descent

def Refines (x y : Descent φ ε α) : Prop := ∀ d p, x.on d = some p → y.on d = some p

namespace Refines

variable {x y : Descent φ ε α}

theorem refl (x : Descent φ ε α) : x.Refines x := fun _ _ h => h

theorem bind {f g : α → Descent φ ε β} (hx : x.Refines y) (hf : ∀ a, (f a).Refines (g a)) :
    Refines (x >>= f) (y >>= g) := by
  rintro d ⟨r, d₂⟩ h
  rcases on_bind_cases h with ⟨a, d₁, h₁, h₂⟩ | ⟨e, rfl, h₁⟩
  · rw [on_bind, hx d _ h₁]
    exact hf a d₁ _ h₂
  · rw [on_bind, hx d _ h₁]

theorem behind (x : Descent φ ε α) {f g : α → Descent φ ε β} (hf : ∀ a, (f a).Refines (g a)) :
    Refines (x >>= f) (x >>= g) := (refl x).bind hf

theorem ite {p : Prop} [Decidable p] {x' y' : Descent φ ε α} (hx : x.Refines y)
    (hx' : x'.Refines y') : Refines (if p then x else x') (if p then y else y') := by
  split
  · exact hx
  · exact hx'

end Refines

end Descent

namespace Rule

open Descent

variable {h : Host φ ε} {enter enter' : ∀ {β : Type}, Rule β → Descent φ ε β}

theorem refines_body (henter : ∀ {β : Type} (r : Rule β), (enter r).Refines (enter' r))
    (r : Rule α) : (r.body h enter).Refines (r.body h enter') := by
  cases r with
  | sum =>
    rw [body, body]
    exact (henter product).bind fun v => henter (sumFrom v)
  | sumFrom v =>
    rw [body, body]
    refine .behind _ fun _ => .ite (.behind _ fun sign? => ?_) (.refl _)
    cases sign? with
    | none => exact .refl _
    | some sign => exact (henter product).bind fun w => henter (sumFrom _)
  | product =>
    rw [body, body]
    exact (henter (signed false)).bind fun v => henter (productFrom v)
  | productFrom v =>
    rw [body, body]
    refine .behind _ fun _ => .ite (.behind _ fun pos => .behind _ fun mark? => ?_) (.refl _)
    cases mark? with
    | none => exact .refl _
    | some mark =>
      refine (henter (signed false)).bind fun w => ?_
      cases (Factor.ofMark mark).apply v w with
      | none => exact .refl _
      | some p => exact henter (productFrom p)
  | signed negate =>
    rw [body, body]
    refine .behind _ fun _ => .ite (.behind _ fun sign? => ?_) (.refl _)
    cases sign? with
    | none => exact (henter operand).bind fun v => .refl _
    | some sign => exact henter (signed _)
  | operand =>
    rw [body, body]
    refine (henter primary).bind fun v => .behind _ ?_
    rintro (_ | ⟨name, pos⟩)
    · exact .refl _
    · refine .behind _ fun _ => .behind _ fun s => .behind _ fun _ => .ite ?_ (.refl _)
      cases s.routine? name with
      | none => exact .refl _
      | some f => exact (henter arguments).bind fun args => .refl _
  | arguments =>
    rw [body, body]
    refine .behind _ fun _ => .ite (.behind _ fun _ => .ite (.refl _) ?_) (.refl _)
    exact henter (argumentsFrom [])
  | argumentsFrom args =>
    rw [body, body]
    refine (henter sum).bind fun v => .behind _ fun _ => .ite (.behind _ fun _ => ?_) (.refl _)
    exact .ite (henter (argumentsFrom _)) (.refl _)
  | primary =>
    rw [body, body]
    refine .behind _ fun _ => .ite (.behind _ fun pos => .behind _ fun c => ?_) (.refl _)
    refine .behind _ fun _ => .ite ((henter sum).bind fun v => .refl _) (.refl _)

/-- More fuel changes nothing where there is a result. -/
theorem refines_run (h : Host φ ε) {m n : Nat} (hmn : m ≤ n) (r : Rule α) :
    (r.run h m).Refines (r.run h n) := by
  induction m generalizing n α with
  | zero => exact fun _ _ hon => nomatch hon
  | succ m ih =>
    have hn : 0 < n := Nat.lt_of_lt_of_le m.succ_pos hmn
    obtain ⟨n, rfl⟩ := Nat.exists_eq_add_one_of_ne_zero hn.ne'
    exact refines_body (fun r => ih (Nat.le_of_succ_le_succ hmn) r) r

/-- A rule ends with one result, whatever the fuel beyond what it needs, and passes over what it has
to pass over if it returns. -/
theorem exists_result (h : Host φ ε) (r : Rule α) (d : Desk φ ε) :
    ∃ res d₁, (∀ n, r.need d.cursor < n → (r.run h n).on d = some (res, d₁)) ∧
      d.cursor.Onward d₁.cursor ∧ ∀ v, res = .ok v → d.cursor.pos + r.gain ≤ d₁.cursor.pos := by
  obtain ⟨res, d₁, hon, honward, hgain⟩ :=
    suffices_run h (r.need d.cursor + 1) r d (Nat.lt_succ_self _)
  exact ⟨res, d₁, fun n hn => refines_run h hn r d _ hon, honward, hgain⟩

end Rule

theorem refines_formula (h : Host φ ε) {m n : Nat} (hmn : m ≤ n) :
    (formula h m).Refines (formula h n) :=
  (Rule.refines_run h hmn .sum).bind fun _ => .refl _

/-- Each of the five rules of the grammar, wherever it is entered in a text, raises or passes over
at least one character, and has one result, with any fuel beyond what it needs; so have the rules
for what comes behind a first operand or argument. The evaluation of a text therefore ends, with the
result of the descent. Each call that it makes has an opening parenthesis of its own in the text,
behind the name that is called. -/
theorem descent_ends (h : Host φ ε) :
    (∀ negate, ∀ r ∈ [Rule.sum, .product, .signed negate, .operand, .primary], ∀ d : Desk φ ε,
        d.cursor.pos ≤ d.cursor.text.length →
          ∃ res d₁, (∀ n, r.need d.cursor < n → (r.run h n).on d = some (res, d₁)) ∧
            d₁.cursor.text = d.cursor.text ∧ ∀ v, res = .ok v →
              d.cursor.pos < d₁.cursor.pos ∧ d₁.cursor.pos ≤ d.cursor.text.length) ∧
      (∀ {α : Type} (r : Rule α) (d : Desk φ ε), ∃ res d₁, ∀ n, r.need d.cursor < n →
        (r.run h n).on d = some (res, d₁)) ∧
      ∀ (c : Calculator φ ε) (t : String),
        (∃ res d, (∀ n, fuelFor t.toList ≤ n →
            (formula h n).on { cursor := ⟨t.toList, 0⟩, calculator := c } = some (res, d)) ∧
          c.eval h (.text t) = ((Ending.ofResult res).toOutcome, d.calculator) ∧
          (evaluation h t.toList c).calls = d.calls) ∧
        (evaluation h t.toList c).calls.length ≤ t.toList.count '(' ∧
        (∀ y ∈ (evaluation h t.toList c).calls,
          t.toList[openingAt t.toList y.pos]? = some '(') ∧
        ((evaluation h t.toList c).calls.map fun y => openingAt t.toList y.pos).Nodup := by
  refine ⟨fun negate r hr d hd => ?_, fun r d => ?_, fun c t => ⟨?_, ?_⟩⟩
  · obtain ⟨res, d₁, hon, honward, hgain⟩ := r.exists_result h d
    refine ⟨res, d₁, hon, honward.text, fun v hv => ⟨?_, honward.text ▸ honward.pos_le hd⟩⟩
    have hgains : ∀ r ∈ [Rule.sum, .product, .signed negate, .operand, .primary], r.gain = 1 := by
      simp [Rule.gain]
    have hlt := hgain v hv
    rwa [hgains r hr] at hlt
  · obtain ⟨res, d₁, hon, -, -⟩ := r.exists_result h d
    exact ⟨res, d₁, hon⟩
  · obtain ⟨res, d, hd, -, -⟩ := exists_descend h t.toList c
    obtain ⟨heval, hcalls⟩ := evaluation_of_formula hd
    refine ⟨res, d, fun n hn => refines_formula h hn _ _ hd, ?_, hcalls⟩
    simp only [Calculator.eval, heval]
  · obtain ⟨hopening, hnodup⟩ := calls_openings h t.toList c
    exact ⟨length_calls_le h t.toList c, hopening, hnodup⟩

end Abacus.Formula
