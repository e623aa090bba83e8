import Abacus.Proofs.Evaluation.Arity
import Abacus.Proofs.Evaluation.Arrival
import Abacus.Proofs.Evaluation.Words
import Abacus.Proofs.Grammar.Spelling

/-!
# Formulas without functions

Where no function is bound, an evaluation calls nothing and leaves the calculator as it is. It
answers every text with an outcome, unless it comes to a numeral that is too long to be read: that
is the one way in which it raises a fault (`eval_of_variables`).
-/
namespace Abacus

namespace Outcome

/-- The value and the kind of failure, of which there is exactly one, give the outcome back. -/
theorem ofParts?_parts (o : Outcome) :
    ofParts? o.value? (o.kind?.map ErrorKind.label) o.position = some o := by
  obtain ⟨verdict, position⟩ := o
  cases verdict with
  | value n => rfl
  | failure k => cases k <;> rfl

theorem value?_eq_none_iff (o : Outcome) : o.value? = none ↔ o.kind? ≠ none := by
  obtain ⟨verdict, position⟩ := o
  cases verdict <;> simp [value?, kind?]

end Outcome

theorem Literal.exists_of_read_tooLong {w : List Char} (hw : ∀ c ∈ w, c.isAlphanum)
    (h : Numeral.read w = .tooLong) : ∃ l : Literal, l.spelling = w ∧ l.TooLong := by
  cases hl : ofWord? w with
  | none => cases (read_eq_malformed hw hl).symm.trans h
  | some l =>
    obtain rfl := spelling_of_ofWord? hl
    refine ⟨l, rfl, ?_⟩
    by_contra hshort
    rw [l.read_spelling, if_neg hshort] at h
    cases h

namespace Formula

variable {φ ε : Type}

theorem tokens_literal (l : Literal) (i : Nat) :
    tokens i l.spelling = [⟨.word l.spelling, i⟩] :=
  tokens_word l.spelling_ne_nil (fun _ hc => l.isAlphanum_of_mem_spelling hc) i

namespace State

variable {symbols : Symbols φ} {s : State φ} {x : Lexeme}

theorem readOperand_fault {f : Fault} (h : s.readOperand symbols x = .stop (.fault f)) :
    ∃ w, x.token = .word w ∧ Numeral.read w = .tooLong := by
  obtain ⟨t, pos⟩ := x
  cases t with
  | word w =>
    simp only [readOperand, readWord] at h
    split at h
    · split at h
      · cases h
      · cases h
      · next hread => exact ⟨w, rfl, hread⟩
    · split at h <;> cases h
  | _ => cases h

theorem readOperator_ne_fault {p : Int} {f : Fault} :
    s.readOperator x p ≠ .stop (.fault f) := by
  intro h
  unfold readOperator close at h
  split at h
  · cases h
  · cases h
  · cases h
  · split at h <;> cases h
  · cases h
  · cases h

/-- The one fault of reading is met at a numeral where an operand is due. -/
theorem of_read_fault {f : Fault} (h : s.read symbols x = .stop (.fault f)) :
    s.Awaits ∧ ∃ w, x.token = .word w ∧ Numeral.read w = .tooLong := by
  obtain ⟨phase, sum, enclosures⟩ := s
  cases phase with
  | arguments =>
    simp only [read] at h
    split at h
    · unfold close at h
      split at h <;> cases h
    · exact ⟨.inr rfl, readOperand_fault h⟩
  | operand => exact ⟨.inl rfl, readOperand_fault h⟩
  | name n pos =>
    simp only [read] at h
    split at h <;> cases h
  | primary v =>
    simp only [read] at h
    split at h
    · cases h
    · split at h
      · exact absurd h readOperator_ne_fault
      · cases h
  | product p => exact absurd h readOperator_ne_fault

theorem read_tooLong (hs : s.Awaits) {l : Literal} (hl : l.TooLong) (pos : Nat) :
    s.read symbols ⟨.word l.spelling, pos⟩ = .stop (.fault .numeralTooLong) := by
  rw [hs.read_word, readWord_literal, if_pos hl]

end State

/-- The evaluation of a text comes, where an operand is due, to a numeral that is too long. -/
def ComesTooLong (h : Host φ ε) (c : Calculator φ ε) (text : List Char) : Prop :=
  ∃ (l : Literal) (pos : Nat) (s : State φ) (c₁ : Calculator φ ε),
    l.TooLong ∧ s.Awaits ∧ Comes h c text ⟨.word l.spelling, pos⟩ s c₁

theorem eval_of_comesTooLong {h : Host φ ε} {c : Calculator φ ε} {t : String}
    (ht : ComesTooLong h c t.toList) : (c.eval h (.text t)).1 = .error .numeralTooLong := by
  obtain ⟨l, pos, s, c₁, hl, hs, before, behind, htokens, calls, hbefore⟩ := ht
  have hended : (⟨.reading s, calls, c₁⟩ : Evaluation φ ε).advance h ⟨.word l.spelling, pos⟩ =
      ⟨.ended (.fault .numeralTooLong), calls, c₁⟩ := by
    simp only [Evaluation.advance, State.read_tooLong hs hl]
  rw [eval_of_ended (evaluation_of_ended htokens hbefore hended rfl)]
  rfl

structure Evaluation.Silent (c : Calculator φ ε) (e : Evaluation φ ε) : Prop where
  calculator_eq : e.calculator = c
  calls_eq : e.calls = []
  runs : ∀ s, e.status = .reading s → s.Runs fun _ => False

theorem Evaluation.silent_ended (c : Calculator φ ε) (r : Ending) :
    (⟨.ended r, [], c⟩ : Evaluation φ ε).Silent c := by
  refine ⟨rfl, rfl, ?_⟩
  rintro _ ⟨⟩

section silent

variable {h : Host φ ε} {c : Calculator φ ε} (hc : ∀ x, c.symbols.routine? x = none)

include hc

theorem State.fair_of_variables {s : State φ} (hs : s.Runs fun _ => False) (x : Lexeme) :
    (s.read c.symbols x).Fair fun _ => False := by
  refine State.fair_read (fun y f hf => ?_) hs x
  rw [hc y] at hf
  cases hf

theorem Evaluation.Silent.advance {e : Evaluation φ ε} (he : e.Silent c) (x : Lexeme) :
    (e.advance h x).Silent c := by
  obtain ⟨status, calls, c'⟩ := e
  obtain ⟨rfl, rfl, hruns⟩ := he
  cases status with
  | ended r => exact silent_ended c' r
  | reading s =>
    have hfair := State.fair_of_variables hc (hruns s rfl) x
    simp only [Evaluation.advance]
    generalize s.read c'.symbols x = r at hfair ⊢
    cases hfair with
    | next hs =>
      refine ⟨rfl, rfl, ?_⟩
      rintro _ ⟨⟩
      exact hs
    | call harity hy hs => exact hy.elim
    | failure e => exact silent_ended c' _
    | tooLong => exact silent_ended c' _

theorem Evaluation.silent_foldl (xs : List Lexeme) :
    (xs.foldl (Evaluation.advance h) { calculator := c }).Silent c := by
  have hstart : ({ calculator := c } : Evaluation φ ε).Silent c := by
    refine ⟨rfl, rfl, ?_⟩
    rintro _ ⟨⟩ e he
    cases he
  generalize ({ calculator := c } : Evaluation φ ε) = e at hstart
  induction xs generalizing e with
  | nil => exact hstart
  | cons x xs ih => exact ih _ (hstart.advance hc x)

/-- Where no function is bound, a fault comes from a numeral. -/
theorem comesTooLong_of_fault {text : List Char} {f : Fault}
    (hf : (evaluate h text c).1 = .fault f) : ComesTooLong h c text := by
  rcases evaluation_cases h c text with
    ⟨s, -, hfinish⟩ | ⟨before, x, behind, s, c₁, htokens, hs, hleads⟩
  · exact absurd (hfinish.symm.trans hf) (s.finish_ne_fault _ _ f)
  · rw [hf] at hleads
    have hsilent := Evaluation.silent_foldl (h := h) hc before
    obtain ⟨calls, hbefore⟩ := hs
    rw [hbefore] at hsilent
    obtain rfl : c₁ = c := hsilent.calculator_eq
    have hfair := State.fair_of_variables hc (hsilent.runs s rfl) x
    cases hleads with
    | stop hread =>
      obtain ⟨hawaits, w, hw, htooLong⟩ := State.of_read_fault hread
      obtain ⟨t, pos⟩ := x
      obtain rfl : t = .word w := hw
      have hproper : (Token.word w).Proper :=
        proper_of_mem_tokens (htokens ▸ List.mem_append_right before List.mem_cons_self)
      obtain ⟨l, rfl, hl⟩ := Literal.exists_of_read_tooLong hproper.2 htooLong
      exact ⟨l, pos, s, c₁, hl, hawaits, before, behind, htokens, calls, hbefore⟩
    | fault hread hrun =>
      rw [hread] at hfair
      cases hfair with
      | call harity hy hs => exact hy.elim

end silent

/-- With variables only, an evaluation makes no call, leaves the calculator as it is, and answers
with an outcome that is put together from exactly one of a value and a kind of failure. It raises a
fault if and only if it comes to a numeral that is too long, and no other fault than that. -/
theorem eval_of_variables (h : Host φ ε) (limit : Int) (values : Std.ExtTreeMap String Int)
    (env : ε) (t : String) :
    let c : Calculator φ ε := ⟨{ limit, values }, env⟩
    (evaluation h t.toList c).calls = [] ∧
      ((∃ o : Outcome, c.eval h (.text t) = (.ok o, c) ∧ (o.value? = none ↔ o.kind? ≠ none) ∧
          Outcome.ofParts? o.value? (o.kind?.map ErrorKind.label) o.position = some o) ∨
        c.eval h (.text t) = (.error .numeralTooLong, c)) ∧
      ((∃ f, (c.eval h (.text t)).1 = .error f) ↔ ComesTooLong h c t.toList) := by
  intro c
  have hc : ∀ x, c.symbols.routine? x = none := fun _ => rfl
  have hsilent : (evaluation h t.toList c).Silent c := Evaluation.silent_foldl hc _
  have heval : c.eval h (.text t) = ((evaluate h t.toList c).1.toOutcome, c) := by
    refine Prod.ext rfl ?_
    exact hsilent.calculator_eq
  refine ⟨hsilent.calls_eq, ?_, fun ⟨f, hf⟩ => ?_, fun ht => ⟨_, eval_of_comesTooLong ht⟩⟩
  · cases hr : (c.eval h (.text t)).1 with
    | ok o =>
      rw [heval] at hr ⊢
      exact .inl ⟨o, Prod.ext hr rfl, o.value?_eq_none_iff, o.ofParts?_parts⟩
    | error f =>
      have hfault := Ending.eq_fault_of_toOutcome hr
      have hlong := eval_of_comesTooLong (comesTooLong_of_fault hc hfault)
      exact .inr (Prod.ext hlong (by rw [heval]))
  · exact comesTooLong_of_fault hc (Ending.eq_fault_of_toOutcome hf)

theorem eval_of_tooLong (h : Host φ ε) (c : Calculator φ ε) {l : Literal} (hl : l.TooLong) :
    (c.eval h (.text (String.ofList l.spelling))).1 = .error .numeralTooLong := by
  refine eval_of_comesTooLong ⟨l, 0, {}, c, hl, .inl rfl, [], [], ?_, stands_nil h c⟩
  rw [String.toList_ofList]
  exact tokens_literal l 0

def zeros (n : Nat) : Literal where
  base := .decimal
  marker := []
  digits := List.replicate (n + 1) '0'
  marker_mem := List.mem_singleton_self []
  digits_ne_nil := nofun
  isDigit_of_mem _ hc := List.eq_of_mem_replicate hc ▸ rfl

theorem tooLong_zeros {n : Nat} (hn : digitLimit ≤ n) : (zeros n).TooLong := by
  refine ⟨rfl, ?_⟩
  rw [zeros, List.length_replicate]
  omega

/-- A numeral of more zeros than may be read has no outcome, although nothing is bound. -/
theorem eval_zeros :
    ¬ ∃ o : Outcome, ((Calculator.mk ({} : Symbols Empty) ()).eval ⟨nofun⟩
      (.text (String.ofList (zeros digitLimit).spelling))).1 = .ok o := by
  rintro ⟨o, ho⟩
  rw [eval_of_tooLong _ _ (tooLong_zeros (Nat.le_refl digitLimit))] at ho
  cases ho

end Formula

end Abacus
