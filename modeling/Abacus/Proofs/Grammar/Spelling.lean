import Mathlib.Data.List.Chain
import Abacus.Proofs.Grammar.Tree

/-!
# Tokens and spelling

The tokens of a text spell it, and they are the only tokens that do so, as long as every word is a
run of letters and digits and no two words are neighbours. Positions grow from left to right. Texts
can be cut into tokens piece by piece wherever no two letters or digits meet.
-/
namespace Abacus.Formula

/-- A token as it can stand in a text: a word is a run of letters and digits, and a mark is none of
the known ones only if it is no blank, letter, digit or known mark. -/
def Token.Proper : Token → Prop
  | .word cs => cs ≠ [] ∧ ∀ c ∈ cs, c.isAlphanum
  | .stray c => isBlank c = false ∧ c.isAlphanum = false ∧ ofMark c = .stray c
  | _ => True

def Token.IsWord : Token → Prop
  | .word _ => True
  | _ => False

def Separate (xs : List Lexeme) : Prop :=
  xs.IsChain fun x y => ¬ (x.token.IsWord ∧ y.token.IsWord)

theorem spelling_ofMark {c : Char} : (Token.ofMark c).spelling = [c] := by
  unfold Token.ofMark
  split <;> rfl

theorem proper_ofMark {c : Char} (hb : isBlank c = false) (ha : c.isAlphanum = false) :
    (Token.ofMark c).Proper := by
  by_cases hs : Token.ofMark c = .stray c
  · rw [hs]
    exact ⟨hb, ha, hs⟩
  · unfold Token.ofMark at hs ⊢
    split at hs <;> trivial

theorem not_isWord_ofMark (c : Char) : ¬ (Token.ofMark c).IsWord := by
  unfold Token.ofMark
  split <;> exact id

theorem Token.mark_of_proper {t : Token} (ht : t.Proper) (hw : ¬ t.IsWord) :
    ∃ c, t.spelling = [c] ∧ isBlank c = false ∧ c.isAlphanum = false ∧ ofMark c = t := by
  cases t with
  | word cs => exact absurd trivial hw
  | sign minus => cases minus <;> exact ⟨_, rfl, by decide, by decide, rfl⟩
  | factor op => cases op <;> exact ⟨_, rfl, by decide, by decide, rfl⟩
  | opening => exact ⟨_, rfl, by decide, by decide, rfl⟩
  | closing => exact ⟨_, rfl, by decide, by decide, rfl⟩
  | comma => exact ⟨_, rfl, by decide, by decide, rfl⟩
  | stray c => exact ⟨c, rfl, ht.1, ht.2.1, ht.2.2⟩

theorem isBlank_eq_false_of_isAlphanum {c : Char} (h : c.isAlphanum) : isBlank c = false := by
  rw [isBlank, Bool.or_eq_false_iff, beq_eq_false_iff_ne, beq_eq_false_iff_ne]
  constructor <;> (rintro rfl; exact absurd h (by decide))

section tokens

variable {i : Nat} {c : Char} {cs : List Char}

theorem tokens_cons_blank (h : isBlank c) : tokens i (c :: cs) = tokens (i + 1) cs := by
  rw [tokens, if_pos h]

theorem tokens_cons_alphanum (h : c.isAlphanum) :
    tokens i (c :: cs) = join i c (tokens (i + 1) cs) := by
  rw [tokens, if_neg (by simp [isBlank_eq_false_of_isAlphanum h]), if_pos h]

theorem tokens_cons_mark (hb : isBlank c = false) (ha : c.isAlphanum = false) :
    tokens i (c :: cs) = ⟨.ofMark c, i⟩ :: tokens (i + 1) cs := by
  rw [tokens, if_neg (by simp [hb]), if_neg (by simp [ha])]

end tokens

/-- What `join` does: it lengthens the word that begins next to it, or begins a word. -/
theorem join_cases (i : Nat) (c : Char) (xs : List Lexeme) :
    (∃ w ys, xs = ⟨.word w, i + 1⟩ :: ys ∧ join i c xs = ⟨.word (c :: w), i⟩ :: ys) ∨
      (∀ w ys, xs ≠ ⟨.word w, i + 1⟩ :: ys) ∧ join i c xs = ⟨.word [c], i⟩ :: xs := by
  match xs with
  | [] => exact .inr ⟨by simp, rfl⟩
  | ⟨t, j⟩ :: ys =>
    by_cases hw : ∃ w, t = .word w
    · obtain ⟨w, rfl⟩ := hw
      by_cases hj : j = i + 1
      · subst hj
        exact .inl ⟨w, ys, rfl, if_pos rfl⟩
      · exact .inr ⟨by simp [hj], if_neg hj⟩
    · refine .inr ⟨fun w zs he => hw ⟨w, by simp_all⟩, ?_⟩
      cases t <;> first | rfl | exact absurd ⟨_, rfl⟩ hw

theorem Spelled.le_pos {i : Nat} {cs : List Char} {xs : List Lexeme} (h : Spelled i cs xs) :
    ∀ x ∈ xs, i ≤ x.pos := by
  induction h with
  | nil => simp
  | blank _ _ ih => exact fun x hx => Nat.le_of_succ_le (ih x hx)
  | token t _ ih =>
    intro x hx
    rcases List.mem_cons.mp hx with rfl | hx
    · exact Nat.le_refl _
    · exact Nat.le_trans (Nat.le_add_right _ _) (ih x hx)

theorem Spelled.tail {i : Nat} {t : Token} {cs : List Char} {xs : List Lexeme}
    (h : Spelled i cs (⟨t, i⟩ :: xs)) :
    ∃ ds, cs = t.spelling ++ ds ∧ Spelled (i + t.spelling.length) ds xs := by
  cases h with
  | blank _ h => exact absurd (h.le_pos _ List.mem_cons_self) (Nat.not_succ_le_self i)
  | token _ h => exact ⟨_, rfl, h⟩

theorem spelled_tokens (i : Nat) (cs : List Char) : Spelled i cs (tokens i cs) := by
  induction cs generalizing i with
  | nil => exact .nil i
  | cons c cs ih =>
    by_cases hb : isBlank c
    · rw [tokens_cons_blank hb]
      exact .blank hb (ih (i + 1))
    · by_cases ha : c.isAlphanum
      · rw [tokens_cons_alphanum ha]
        rcases join_cases i c (tokens (i + 1) cs) with ⟨w, ys, hxs, hj⟩ | ⟨_, hj⟩
        · obtain ⟨ds, rfl, hds⟩ := Spelled.tail (hxs ▸ ih (i + 1))
          rw [hj]
          have hlen : i + (Token.word (c :: w)).spelling.length =
              i + 1 + (Token.word w).spelling.length := by
            simp only [Token.spelling, List.length_cons]
            omega
          have hrest : Spelled (i + (Token.word (c :: w)).spelling.length) ds ys := by
            rwa [hlen]
          exact Spelled.token (.word (c :: w)) hrest
        · rw [hj]
          exact Spelled.token (.word [c]) (ih (i + 1))
      · rw [tokens_cons_mark (by simpa using hb) (by simpa using ha)]
        have hrest : Spelled (i + (Token.ofMark c).spelling.length) cs (tokens (i + 1) cs) := by
          rw [spelling_ofMark]
          exact ih (i + 1)
        have h := Spelled.token (.ofMark c) hrest
        rwa [spelling_ofMark] at h

theorem proper_of_mem_tokens {i : Nat} {cs : List Char} {x : Lexeme} (hx : x ∈ tokens i cs) :
    x.token.Proper := by
  induction cs generalizing i x with
  | nil => cases hx
  | cons c cs ih =>
    by_cases hb : isBlank c
    · rw [tokens_cons_blank hb] at hx
      exact ih hx
    · by_cases ha : c.isAlphanum
      · rw [tokens_cons_alphanum ha] at hx
        rcases join_cases i c (tokens (i + 1) cs) with ⟨w, ys, hxs, hj⟩ | ⟨_, hj⟩
        · rw [hj] at hx
          rcases List.mem_cons.mp hx with rfl | hx
          · have hw : (Token.word w).Proper := ih (hxs ▸ List.mem_cons_self)
            exact ⟨List.cons_ne_nil c w, List.forall_mem_cons.mpr ⟨ha, hw.2⟩⟩
          · exact ih (hxs ▸ List.mem_cons_of_mem _ hx)
        · rw [hj] at hx
          rcases List.mem_cons.mp hx with rfl | hx
          · exact ⟨List.cons_ne_nil c [], List.forall_mem_cons.mpr ⟨ha, by simp⟩⟩
          · exact ih hx
      · rw [tokens_cons_mark (by simpa using hb) (by simpa using ha)] at hx
        rcases List.mem_cons.mp hx with rfl | hx
        · exact proper_ofMark (by simpa using hb) (by simpa using ha)
        · exact ih hx

/-- A run of letters and digits becomes one word, if no word begins where it ends. -/
theorem tokens_word_append {i : Nat} {w cs : List Char} (hne : w ≠ [])
    (hw : ∀ c ∈ w, c.isAlphanum)
    (hcs : ∀ v ys, tokens (i + w.length) cs ≠ ⟨.word v, i + w.length⟩ :: ys) :
    tokens i (w ++ cs) = ⟨.word w, i⟩ :: tokens (i + w.length) cs := by
  induction w generalizing i with
  | nil => exact absurd rfl hne
  | cons c w ih =>
    rw [List.cons_append, tokens_cons_alphanum (hw c List.mem_cons_self)]
    have hlen : i + (c :: w).length = i + 1 + w.length := by simp only [List.length_cons]; omega
    rw [hlen] at hcs ⊢
    cases w with
    | nil =>
      rcases join_cases i c (tokens (i + 1) cs) with ⟨v, ys, hxs, _⟩ | ⟨_, hj⟩
      · exact absurd hxs (hcs v ys)
      · exact hj
    | cons d w =>
      rw [ih (List.cons_ne_nil d w) (fun x hx => hw x (List.mem_cons_of_mem c hx)) hcs]
      exact if_pos rfl

theorem tokens_word {w : List Char} (hne : w ≠ []) (hw : ∀ c ∈ w, c.isAlphanum) (i : Nat) :
    tokens i w = [⟨.word w, i⟩] := by
  have hend : ∀ v ys, tokens (i + w.length) [] ≠ ⟨.word v, i + w.length⟩ :: ys := nofun
  have h := tokens_word_append hne hw hend
  rwa [List.append_nil] at h

/-- The tokens that spell a text are its tokens, if they can stand in a text and no two words are
neighbours. -/
theorem Spelled.tokens_eq {i : Nat} {cs : List Char} {xs : List Lexeme} (h : Spelled i cs xs)
    (hp : ∀ x ∈ xs, x.token.Proper) (hs : Separate xs) : tokens i cs = xs := by
  induction h with
  | nil => rfl
  | blank hc _ ih =>
    rw [tokens_cons_blank hc]
    exact ih hp hs
  | @token i t cs xs _ ih =>
    have htail := ih (fun x hx => hp x (List.mem_cons_of_mem _ hx)) hs.tail
    have ht : t.Proper := hp _ List.mem_cons_self
    by_cases hw : t.IsWord
    · cases t with
      | word w =>
        have hcs : ∀ v ys, tokens (i + w.length) cs ≠ ⟨.word v, i + w.length⟩ :: ys := by
          intro v ys he
          rw [show tokens (i + w.length) cs = xs from htail] at he
          subst he
          exact (List.isChain_cons_cons.mp hs).1 ⟨trivial, trivial⟩
        exact (tokens_word_append ht.1 ht.2 hcs).trans (congrArg _ htail)
      | _ => exact absurd hw id
    · obtain ⟨c, hc, hb, ha, rfl⟩ := t.mark_of_proper ht hw
      rw [hc] at htail ⊢
      exact (tokens_cons_mark hb ha).trans (congrArg _ htail)

end Abacus.Formula
