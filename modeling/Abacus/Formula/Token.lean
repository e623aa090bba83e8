import Abacus.Text.Alphabet

/-!
# Tokens

A formula is cut into words, the longest runs of letters and digits, and single marks. Each token
comes with its position. The cut is made from the right: a letter or digit joins the word that
begins next to it.
-/
namespace Abacus.Formula

inductive Factor
  | times
  | quotient
  | remainder
  deriving DecidableEq

inductive Token
  | word (cs : List Char)
  /-- A plus or a minus, before an operand or between two. -/
  | sign (minus : Bool)
  | factor (op : Factor)
  | opening
  | closing
  | comma
  /-- A character that has no place in a formula. -/
  | stray (c : Char)
  deriving DecidableEq

def Token.ofMark (c : Char) : Token :=
  match c with
  | '+' => .sign false
  | '-' => .sign true
  | '*' => .factor .times
  | '/' => .factor .quotient
  | '%' => .factor .remainder
  | '(' => .opening
  | ')' => .closing
  | ',' => .comma
  | c => .stray c

structure Lexeme where
  token : Token
  pos : Nat
  deriving DecidableEq

/-- Puts a letter or digit that stands at `i` in front of the tokens behind it. -/
def join (i : Nat) (c : Char) : List Lexeme → List Lexeme
  | ⟨.word w, j⟩ :: xs =>
    if j = i + 1 then ⟨.word (c :: w), i⟩ :: xs else ⟨.word [c], i⟩ :: ⟨.word w, j⟩ :: xs
  | xs => ⟨.word [c], i⟩ :: xs

def tokens (i : Nat) : List Char → List Lexeme
  | [] => []
  | c :: cs =>
    if isBlank c then tokens (i + 1) cs
    else if c.isAlphanum then join i c (tokens (i + 1) cs)
    else ⟨.ofMark c, i⟩ :: tokens (i + 1) cs

end Abacus.Formula
