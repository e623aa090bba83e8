import Abacus.Proofs.Evaluation.Cutting

/-!
# Tokens in their places

A token stands in its text at its position and cuts it: the tokens before it are those of the text
before it, and the tokens behind it are those of the text behind it (`exists_cut`). A word is cut
out as far as letters and digits reach, on both sides.
-/
namespace Abacus.Formula

/-- The text `cs`, which begins at position `i`, consists of `as`, the token `x` and `bs`. -/
structure Cut (i : Nat) (cs : List Char) (xs : List Lexeme) (x : Lexeme) (ys : List Lexeme)
    (as bs : List Char) : Prop where
  text_eq : cs = as ++ (x.token.spelling ++ bs)
  pos_eq : x.pos = i + as.length
  before_eq : tokens i as = xs
  behind_eq : tokens (x.pos + x.token.spelling.length) bs = ys
  before_word : x.token.IsWord → ∀ c ∈ as.getLast?, c.isAlphanum = false
  behind_word : x.token.IsWord → ∀ c ∈ bs.head?, c.isAlphanum = false

namespace Cut

variable {i : Nat} {c : Char} {cs as bs : List Char} {xs ys : List Lexeme} {x : Lexeme}

theorem cons (h : Cut (i + 1) cs xs x ys as bs) {zs : List Lexeme} (hzs : tokens i (c :: as) = zs)
    (hword : x.token.IsWord → as = [] → c.isAlphanum = false) :
    Cut i (c :: cs) zs x ys (c :: as) bs := by
  refine ⟨by rw [h.text_eq, List.cons_append], ?_, hzs, h.behind_eq, ?_, h.behind_word⟩
  · rw [h.pos_eq, List.length_cons]
    omega
  · intro hx d hd
    cases as with
    | nil =>
      obtain rfl : c = d := Option.some.inj hd
      exact hword hx rfl
    | cons a as =>
      rw [List.getLast?_cons_cons] at hd
      exact h.before_word hx d hd

theorem head {t : Token} (hcs : cs = t.spelling ++ bs)
    (hys : tokens (i + t.spelling.length) bs = ys)
    (hword : t.IsWord → ∀ d ∈ bs.head?, d.isAlphanum = false) :
    Cut i cs [] ⟨t, i⟩ ys [] bs where
  text_eq := hcs
  pos_eq := rfl
  before_eq := rfl
  behind_eq := hys
  before_word _ _ hd := by cases hd
  behind_word := hword

end Cut

/-- Where no word begins, no letter or digit stands. -/
theorem isAlphanum_head_eq_false {i : Nat} {cs : List Char}
    (h : ∀ w ys, tokens i cs ≠ ⟨.word w, i⟩ :: ys) : ∀ d ∈ cs.head?, d.isAlphanum = false := by
  intro d hd
  cases cs with
  | nil => cases hd
  | cons c cs =>
    obtain rfl : c = d := Option.some.inj hd
    by_contra hc
    have ha : c.isAlphanum := Bool.not_eq_false _ ▸ hc
    rw [tokens_cons_alphanum ha] at h
    rcases join_cases i c (tokens (i + 1) cs) with ⟨w, ys, -, hj⟩ | ⟨-, hj⟩
    · exact h _ _ hj
    · exact h _ _ hj

/-- With a letter or digit in front of a text, each token still cuts it. -/
theorem exists_cut_alphanum {i : Nat} {c : Char} (ha : c.isAlphanum) {cs : List Char}
    {ys : List Lexeme}
    (hcs : ∀ xs x, tokens (i + 1) cs = xs ++ x :: ys → ∃ as bs, Cut (i + 1) cs xs x ys as bs)
    {xs : List Lexeme} {x : Lexeme} (h : tokens i (c :: cs) = xs ++ x :: ys) :
    ∃ as bs, Cut i (c :: cs) xs x ys as bs := by
  rw [tokens_cons_alphanum ha] at h
  rcases join_cases i c (tokens (i + 1) cs) with ⟨w, zs, hzs, hj⟩ | ⟨hno, hj⟩
  · -- The letter or digit lengthens the word that begins behind it.
    rw [hj] at h
    cases xs with
    | nil =>
      obtain ⟨rfl, rfl⟩ := List.cons.inj h
      obtain ⟨as, bs, hcut⟩ := hcs [] _ hzs
      obtain rfl : as = [] := by
        have hpos : i + 1 = i + 1 + as.length := hcut.pos_eq
        apply List.length_eq_zero_iff.mp
        omega
      have hlen : i + (Token.word (c :: w)).spelling.length =
          i + 1 + (Token.word w).spelling.length := by
        simp only [Token.spelling, List.length_cons]
        omega
      refine ⟨[], bs, Cut.head ?_ ?_ hcut.behind_word⟩
      · rw [hcut.text_eq]
        rfl
      · rw [hlen]
        exact hcut.behind_eq
    | cons y xs =>
      obtain ⟨rfl, rfl⟩ := List.cons.inj h
      obtain ⟨as, bs, hcut⟩ := hcs (⟨.word w, i + 1⟩ :: xs) _ hzs
      refine ⟨c :: as, bs, hcut.cons ?_ fun _ has => ?_⟩
      · rw [tokens_cons_alphanum ha, hcut.before_eq]
        exact if_pos rfl
      · have hbefore := hcut.before_eq
        rw [has] at hbefore
        cases hbefore
  · -- The letter or digit is a word of its own.
    rw [hj] at h
    cases xs with
    | nil =>
      obtain ⟨rfl, rfl⟩ := List.cons.inj h
      exact ⟨[], cs, Cut.head rfl rfl fun _ => isAlphanum_head_eq_false hno⟩
    | cons y xs =>
      obtain ⟨rfl, hrest⟩ := List.cons.inj h
      obtain ⟨as, bs, hcut⟩ := hcs xs x hrest
      refine ⟨c :: as, bs, hcut.cons ?_ fun hx has => ?_⟩
      · rw [tokens_cons_alphanum ha, hcut.before_eq]
        rcases join_cases i c xs with ⟨w, zs, rfl, -⟩ | ⟨-, hj'⟩
        · exact absurd hrest (hno w _)
        · exact hj'
      · obtain ⟨t, pos⟩ := x
        have hpos := hcut.pos_eq
        have hnil := hcut.before_eq
        rw [has] at hpos hnil
        obtain rfl : pos = i + 1 := hpos
        obtain rfl : xs = [] := hnil.symm
        cases t with
        | word w => exact absurd hrest (hno w ys)
        | _ => exact absurd hx id

/-- Each token of a text cuts it. -/
theorem exists_cut {i : Nat} {cs : List Char} {xs ys : List Lexeme} {x : Lexeme}
    (h : tokens i cs = xs ++ x :: ys) : ∃ as bs, Cut i cs xs x ys as bs := by
  induction cs generalizing i xs x with
  | nil => exact absurd h.symm (List.append_ne_nil_of_right_ne_nil _ (List.cons_ne_nil _ _))
  | cons c cs ih =>
    by_cases hb : isBlank c
    · rw [tokens_cons_blank hb] at h
      obtain ⟨as, bs, hcut⟩ := ih h
      refine ⟨c :: as, bs, hcut.cons ?_ fun _ _ => ?_⟩
      · rw [tokens_cons_blank hb, hcut.before_eq]
      · by_contra hc
        rw [isBlank_eq_false_of_isAlphanum (Bool.not_eq_false _ ▸ hc)] at hb
        cases hb
    · by_cases ha : c.isAlphanum
      · exact exists_cut_alphanum ha (fun _ _ => ih) h
      · have hb' : isBlank c = false := Bool.not_eq_true _ ▸ hb
        have ha' : c.isAlphanum = false := Bool.not_eq_true _ ▸ ha
        rw [tokens_cons_mark hb' ha'] at h
        cases xs with
        | nil =>
          obtain ⟨rfl, rfl⟩ := List.cons.inj h
          refine ⟨[], cs, Cut.head ?_ ?_ fun hword => absurd hword (not_isWord_ofMark c)⟩
          · rw [spelling_ofMark]
            rfl
          · rw [spelling_ofMark]
            rfl
        | cons y xs =>
          obtain ⟨rfl, hrest⟩ := List.cons.inj h
          obtain ⟨as, bs, hcut⟩ := ih hrest
          refine ⟨c :: as, bs, hcut.cons ?_ fun _ _ => ha'⟩
          rw [tokens_cons_mark hb' ha', hcut.before_eq]

end Abacus.Formula
