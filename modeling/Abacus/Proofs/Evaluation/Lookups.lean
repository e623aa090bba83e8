import Abacus.Proofs.Grammar.Accord

/-!
# Names that are looked up

A name is looked up among the variables where it is read, and among the functions where the next
token shows whether it is called. Nothing else of the symbols has an effect (`answer_congr`), and
only proper names are ever looked up (`Stands.isName_of_mem_lookups`).
-/
namespace Abacus.Formula

variable {φ ε : Type}

def namesOf : Option Lexeme → List String
  | some ⟨.word w, _⟩ => if w.head?.any Char.isDigit then [] else [String.ofList w]
  | _ => []

theorem mem_namesOf {next : Option Lexeme} {n : String} :
    n ∈ namesOf next ↔ ∃ w pos, next = some ⟨.word w, pos⟩ ∧ ¬ w.head?.any Char.isDigit ∧
      n = String.ofList w := by
  constructor
  · intro hn
    unfold namesOf at hn
    split at hn
    · next w pos =>
      split at hn
      · cases hn
      · next hdigit => exact ⟨w, pos, rfl, hdigit, List.mem_singleton.mp hn⟩
    · cases hn
  · rintro ⟨w, pos, rfl, hdigit, rfl⟩
    rw [namesOf, if_neg hdigit]
    exact List.mem_singleton_self _

namespace State

def answer (symbols : Symbols φ) (stop : Nat) (s : State φ) : Option Lexeme → Step φ
  | some x => s.read symbols x
  | none => .stop (s.finish symbols stop)

/-- The names that are looked up when this token comes next, or the end of the text. -/
def lookups (next : Option Lexeme) (s : State φ) : List String :=
  match s.phase with
  | .name n _ => [n]
  | .arguments => namesOf next
  | .operand => namesOf next
  | .primary _ => []
  | .product _ => []

variable {symbols symbols' : Symbols φ}

theorem readOperand_congr {x : Lexeme} (s : State φ)
    (h : ∀ n ∈ namesOf (some x), symbols'.value? n = symbols.value? n) :
    s.readOperand symbols' x = s.readOperand symbols x := by
  obtain ⟨t, pos⟩ := x
  cases t with
  | word w =>
    simp only [readOperand, readWord]
    by_cases hdigit : w.head?.any Char.isDigit
    · rw [if_pos hdigit, if_pos hdigit]
    · rw [if_neg hdigit, if_neg hdigit, h _ (mem_namesOf.mpr ⟨w, pos, rfl, hdigit, rfl⟩)]
  | _ => rfl

/-- Tables that agree on the names that are looked up have the same effect. -/
theorem answer_congr (stop : Nat) (s : State φ) (next : Option Lexeme)
    (h : ∀ n ∈ s.lookups next,
      symbols'.value? n = symbols.value? n ∧ symbols'.routine? n = symbols.routine? n) :
    s.answer symbols' stop next = s.answer symbols stop next := by
  obtain ⟨phase, sum, enclosures⟩ := s
  cases phase with
  | arguments =>
    cases next with
    | none => rfl
    | some x =>
      have hoperand := readOperand_congr ⟨.arguments, sum, enclosures⟩ fun n hn => (h n hn).1
      simp only [answer, read, hoperand]
  | operand =>
    cases next with
    | none => rfl
    | some x => exact readOperand_congr ⟨.operand, sum, enclosures⟩ fun n hn => (h n hn).1
  | name n pos =>
    have hroutine := (h n (List.mem_singleton_self n)).2
    cases next with
    | none => simp only [answer, finish, uncalled, hroutine]
    | some x => simp only [answer, read, uncalled, hroutine]
  | primary v => cases next <;> rfl
  | product p => cases next <;> rfl

end State

/-- Only proper names are looked up. -/
theorem Stands.isName_of_mem_lookups {h : Host φ ε} {c c₁ : Calculator φ ε} {text : List Char}
    {before behind : List Lexeme} {s : State φ} (hs : Stands h c before s c₁)
    (htokens : tokens 0 text = before ++ behind) {n : String}
    (hn : n ∈ s.lookups behind.head?) : isName n := by
  have hproper : ∀ x ∈ before ++ behind, x.token.Proper := by
    intro x hx
    rw [← htokens] at hx
    exact proper_of_mem_tokens hx
  obtain ⟨d, -, hd⟩ := hs.exists_draft fun x hx => hproper x (List.mem_append_left _ hx)
  have hword : n ∈ namesOf behind.head? → isName n := by
    intro hn
    obtain ⟨w, pos, hhead, hdigit, rfl⟩ := mem_namesOf.mp hn
    obtain ⟨behind, rfl⟩ := List.head?_eq_some_iff.mp hhead
    exact isName_ofList (hproper _ (List.mem_append_right _ List.mem_cons_self)) hdigit
  cases hd with
  | arguments hr hes => exact hword hn
  | operand hr hes => exact hword hn
  | @name r sum frames es x pos hr hes hleaves hvalue =>
    rw [List.mem_singleton.mp hn]
    exact x.isName
  | value hr hes ha => cases hn
  | term m p hes => cases hn

end Abacus.Formula
