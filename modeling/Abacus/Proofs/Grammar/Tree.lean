import Abacus.Formula.Token
import Abacus.Proofs.Grammar.Literal

/-!
# The grammar of formulas

    expression = term (("+" | "-") term)*
    term       = signed (("*" | "/" | "%") signed)*
    signed     = ("+" | "-")* operand
    operand    = atom ("(" arguments? ")")?
    arguments  = expression ("," expression)*
    atom       = "(" expression ")" | integer | identifier

A derivation is a tree with the tokens of the formula at its leaves, each mark with its position.
A chain of operators is kept as the chain before the last operator, that operator, and its right
operand. `Expression.Spells e text` states that the text, apart from blanks between the tokens, is
derivable by the tree `e`; it does not speak of the tokenizer.
-/
namespace Abacus.Formula

structure Identifier where
  name : String
  isName : isName name

namespace Identifier

theorem exists_cons (x : Identifier) :
    ∃ c cs, x.name.toList = c :: cs ∧ c.isAlpha ∧ ∀ d ∈ cs, d.isAlphanum := by
  have h := x.isName
  unfold Abacus.isName at h
  split at h
  · cases h
  · next c cs hcs =>
    rw [Bool.and_eq_true, List.all_eq_true] at h
    exact ⟨c, cs, hcs, h⟩

theorem toList_ne_nil (x : Identifier) : x.name.toList ≠ [] := by
  obtain ⟨c, cs, hx, -⟩ := x.exists_cons
  rw [hx]
  exact List.cons_ne_nil c cs

theorem isAlphanum_of_mem (x : Identifier) : ∀ c ∈ x.name.toList, c.isAlphanum := by
  obtain ⟨c, cs, hx, hc, hcs⟩ := x.exists_cons
  rw [hx]
  exact List.forall_mem_cons.mpr ⟨by simp [Char.isAlphanum, hc], hcs⟩

theorem not_isDigit_head (x : Identifier) : ¬ x.name.toList.head?.any Char.isDigit := by
  obtain ⟨c, cs, hx, hc, -⟩ := x.exists_cons
  rw [hx]
  intro hd
  have hd : c.isDigit := hd
  unfold Char.isAlpha Char.isUpper Char.isLower at hc
  unfold Char.isDigit at hd
  simp only [Bool.or_eq_true, Bool.and_eq_true, decide_eq_true_eq, UInt32.le_iff_toNat_le,
    ge_iff_le] at hc hd
  have h9 : '9'.val.toNat = 57 := rfl
  have hA : 'A'.val.toNat = 65 := rfl
  have ha : 'a'.val.toNat = 97 := rfl
  omega

end Identifier

mutual

inductive Expression
  | term (m : Term)
  | add (e : Expression) (minus : Bool) (pos : Nat) (m : Term)

inductive Term
  | signed (u : Signed)
  | mul (m : Term) (op : Factor) (pos : Nat) (u : Signed)

inductive Signed
  | operand (o : Operand)
  | sign (minus : Bool) (pos : Nat) (u : Signed)

inductive Operand
  | atom (a : Atom)
  | nullary (callee : Atom) (opening closing : Nat)
  | call (callee : Atom) (opening : Nat) (args : Arguments) (closing : Nat)

inductive Arguments
  | one (e : Expression)
  | more (args : Arguments) (comma : Nat) (e : Expression)

inductive Atom
  | group (opening : Nat) (e : Expression) (closing : Nat)
  | literal (l : Literal) (pos : Nat)
  | name (x : Identifier) (pos : Nat)

end

mutual

def Expression.lexemes : Expression → List Lexeme
  | .term m => m.lexemes
  | .add e minus pos m => e.lexemes ++ ⟨.sign minus, pos⟩ :: m.lexemes

def Term.lexemes : Term → List Lexeme
  | .signed u => u.lexemes
  | .mul m op pos u => m.lexemes ++ ⟨.factor op, pos⟩ :: u.lexemes

def Signed.lexemes : Signed → List Lexeme
  | .operand o => o.lexemes
  | .sign minus pos u => ⟨.sign minus, pos⟩ :: u.lexemes

def Operand.lexemes : Operand → List Lexeme
  | .atom a => a.lexemes
  | .nullary callee opening closing =>
    callee.lexemes ++ [⟨.opening, opening⟩, ⟨.closing, closing⟩]
  | .call callee opening args closing =>
    callee.lexemes ++ ⟨.opening, opening⟩ :: (args.lexemes ++ [⟨.closing, closing⟩])

def Arguments.lexemes : Arguments → List Lexeme
  | .one e => e.lexemes
  | .more args comma e => args.lexemes ++ ⟨.comma, comma⟩ :: e.lexemes

def Atom.lexemes : Atom → List Lexeme
  | .group opening e closing => ⟨.opening, opening⟩ :: (e.lexemes ++ [⟨.closing, closing⟩])
  | .literal l pos => [⟨.word l.spelling, pos⟩]
  | .name x pos => [⟨.word x.name.toList, pos⟩]

end

def Token.spelling : Token → List Char
  | .word cs => cs
  | .sign minus => [if minus then '-' else '+']
  | .factor .times => ['*']
  | .factor .quotient => ['/']
  | .factor .remainder => ['%']
  | .opening => ['(']
  | .closing => [')']
  | .comma => [',']
  | .stray c => [c]

/-- The text that begins at position `i` consists of these tokens, each at its position, with
nothing but blanks around them. -/
inductive Spelled : Nat → List Char → List Lexeme → Prop
  | nil (i : Nat) : Spelled i [] []
  | blank {i : Nat} {c : Char} {cs : List Char} {xs : List Lexeme} (hc : isBlank c)
      (h : Spelled (i + 1) cs xs) : Spelled i (c :: cs) xs
  | token {i : Nat} (t : Token) {cs : List Char} {xs : List Lexeme}
      (h : Spelled (i + t.spelling.length) cs xs) : Spelled i (t.spelling ++ cs) (⟨t, i⟩ :: xs)

def Expression.Spells (e : Expression) (text : List Char) : Prop := Spelled 0 text e.lexemes

end Abacus.Formula
