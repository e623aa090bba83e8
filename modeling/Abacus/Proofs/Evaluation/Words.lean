import Abacus.Formula.State
import Abacus.Proofs.Grammar.Tree

/-!
# Words where an operand is due

A literal is read as its number, unless it is too long to be read, and a name as the value of its
variable. A name that is no variable is kept until it is called.
-/
namespace Abacus.Formula.State

variable {φ : Type}

def Awaits (s : State φ) : Prop := s.phase = .operand ∨ s.phase = .arguments

theorem Awaits.read_word {s : State φ} (hs : s.Awaits) (symbols : Symbols φ) (w : List Char)
    (pos : Nat) : s.read symbols ⟨.word w, pos⟩ = s.readWord symbols w pos := by
  obtain ⟨phase, sum, enclosures⟩ := s
  rcases hs with rfl | rfl <;> rfl

theorem readWord_literal (symbols : Symbols φ) (l : Literal) (pos : Nat) (s : State φ) :
    s.readWord symbols l.spelling pos =
      if l.TooLong then .stop (.fault .numeralTooLong)
      else .next { s with phase := .primary l.value } := by
  rw [readWord, if_pos l.isDigit_head_spelling, l.read_spelling]
  by_cases hl : l.TooLong
  · rw [if_pos hl, if_pos hl]
  · rw [if_neg hl, if_neg hl]

theorem readWord_variable {symbols : Symbols φ} {x : Identifier} {v : Int}
    (hv : symbols.value? x.name = some v) (pos : Nat) (s : State φ) :
    s.readWord symbols x.name.toList pos = .next { s with phase := .primary v } := by
  rw [readWord, if_neg x.not_isDigit_head, String.ofList_toList]
  simp only [hv]

theorem readWord_name {symbols : Symbols φ} {x : Identifier}
    (hx : symbols.value? x.name = none) (pos : Nat) (s : State φ) :
    s.readWord symbols x.name.toList pos = .next { s with phase := .name x.name pos } := by
  rw [readWord, if_neg x.not_isDigit_head, String.ofList_toList]
  simp only [hx]

end Abacus.Formula.State
