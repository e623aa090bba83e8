import Abacus.Proofs.Evaluation.Renumbering
import Abacus.Proofs.Grammar.Spelling

/-!
# Tokens of texts that are put together

Where no two letters or digits meet, the tokens of two texts side by side are those of the one and
behind them those of the other, in their new places.
-/
namespace Abacus.Formula

theorem tokens_add (i k : Nat) (cs : List Char) :
    tokens (i + k) cs = (tokens i cs).map (Lexeme.renumber (· + k)) := by
  have hjoin : ∀ i c xs, join (i + k) c (xs.map (Lexeme.renumber (· + k))) =
      (join i c xs).map (Lexeme.renumber (· + k)) := by
    intro i c xs
    rcases join_cases i c xs with ⟨w, ys, rfl, hj⟩ | ⟨hxs, hj⟩
    · rw [hj]
      have hpos : i + 1 + k = i + k + 1 := by omega
      exact if_pos hpos
    · rw [hj]
      rcases join_cases (i + k) c (xs.map (Lexeme.renumber (· + k))) with
        ⟨w, ys, hmap, -⟩ | ⟨-, hj'⟩
      · obtain ⟨x, xs, rfl, hx, -⟩ := List.map_eq_cons_iff.mp hmap
        obtain ⟨t, j⟩ := x
        obtain ⟨rfl, hj'⟩ := Lexeme.mk.inj hx
        have hpos : j = i + 1 := by
          have hadd : j + k = i + k + 1 := hj'
          omega
        subst hpos
        exact absurd rfl (hxs w xs)
      · exact hj'
  induction cs generalizing i with
  | nil => rfl
  | cons c cs ih =>
    have hpos : i + k + 1 = i + 1 + k := by omega
    by_cases hb : isBlank c
    · rw [tokens_cons_blank hb, tokens_cons_blank hb, hpos, ih]
    · have hb' : isBlank c = false := Bool.not_eq_true _ ▸ hb
      by_cases ha : c.isAlphanum
      · rw [tokens_cons_alphanum ha, tokens_cons_alphanum ha, hpos, ih, hjoin]
      · have ha' : c.isAlphanum = false := Bool.not_eq_true _ ▸ ha
        rw [tokens_cons_mark hb' ha', tokens_cons_mark hb' ha', hpos, ih]
        rfl

theorem le_pos_of_mem_tokens {i : Nat} {cs : List Char} {x : Lexeme} (hx : x ∈ tokens i cs) :
    i ≤ x.pos := (spelled_tokens i cs).le_pos x hx

theorem Token.spelling_ne_nil {t : Token} (ht : t.Proper) : t.spelling ≠ [] := by
  by_cases hw : t.IsWord
  · cases t with
    | word w => exact ht.1
    | _ => exact absurd hw id
  · obtain ⟨c, hc, -⟩ := t.mark_of_proper ht hw
    rw [hc]
    exact List.cons_ne_nil c []

theorem Spelled.pos_lt {i : Nat} {cs : List Char} {xs : List Lexeme} (h : Spelled i cs xs)
    (hp : ∀ x ∈ xs, x.token.Proper) : ∀ x ∈ xs, x.pos < i + cs.length := by
  induction h with
  | nil => exact List.forall_mem_nil _
  | blank _ _ ih =>
    intro x hx
    have hpos := ih hp x hx
    rw [List.length_cons]
    omega
  | @token i t cs xs _ ih =>
    intro x hx
    rw [List.length_append]
    rcases List.mem_cons.mp hx with rfl | hx
    · have hpos : 0 < t.spelling.length :=
        List.length_pos_iff.mpr (Token.spelling_ne_nil (hp _ List.mem_cons_self))
      change i < _
      omega
    · have hpos := ih (fun y hy => hp y (List.mem_cons_of_mem _ hy)) x hx
      omega

theorem pos_lt_of_mem_tokens {i : Nat} {cs : List Char} {x : Lexeme} (hx : x ∈ tokens i cs) :
    x.pos < i + cs.length :=
  (spelled_tokens i cs).pos_lt (fun _ hy => proper_of_mem_tokens hy) x hx

theorem Spelled.pairwise {i : Nat} {cs : List Char} {xs : List Lexeme} (h : Spelled i cs xs)
    (hp : ∀ x ∈ xs, x.token.Proper) : xs.Pairwise fun x y => x.pos < y.pos := by
  induction h with
  | nil => exact .nil
  | blank _ _ ih => exact ih hp
  | @token i t cs xs hrest ih =>
    refine .cons (fun y hy => ?_) (ih fun y hy => hp y (List.mem_cons_of_mem _ hy))
    have hlength : 0 < t.spelling.length :=
      List.length_pos_iff.mpr (Token.spelling_ne_nil (hp _ List.mem_cons_self))
    have hle := hrest.le_pos y hy
    change i < y.pos
    omega

theorem pairwise_tokens (i : Nat) (cs : List Char) :
    (tokens i cs).Pairwise fun x y => x.pos < y.pos :=
  (spelled_tokens i cs).pairwise fun _ hx => proper_of_mem_tokens hx

theorem isAlphanum_head_of_tokens {i : Nat} {cs : List Char} {w : List Char} {xs : List Lexeme}
    (h : tokens i cs = ⟨.word w, i⟩ :: xs) : ∃ c ∈ cs.head?, c.isAlphanum := by
  cases cs with
  | nil => cases h
  | cons c cs =>
    by_cases ha : c.isAlphanum
    · exact ⟨c, rfl, ha⟩
    · exfalso
      by_cases hb : isBlank c
      · rw [tokens_cons_blank hb] at h
        have hpos := le_pos_of_mem_tokens (h ▸ List.mem_cons_self : _ ∈ tokens (i + 1) cs)
        exact Nat.not_succ_le_self i hpos
      · rw [tokens_cons_mark (Bool.not_eq_true _ ▸ hb) (Bool.not_eq_true _ ▸ ha)] at h
        have hmark := not_isWord_ofMark c
        rw [(Lexeme.mk.inj (List.cons.inj h).1).1] at hmark
        exact hmark trivial

theorem join_append {i : Nat} {c : Char} {xs : List Lexeme} (hxs : xs ≠ []) (ys : List Lexeme) :
    join i c (xs ++ ys) = join i c xs ++ ys := by
  obtain ⟨⟨t, j⟩, xs, rfl⟩ := List.exists_cons_of_ne_nil hxs
  cases t with
  | word w =>
    by_cases hj : j = i + 1
    · have hjoin : ∀ zs, join i c (⟨.word w, j⟩ :: zs) = ⟨.word (c :: w), i⟩ :: zs :=
        fun zs => if_pos hj
      rw [List.cons_append, hjoin, hjoin, List.cons_append]
    · have hjoin : ∀ zs, join i c (⟨.word w, j⟩ :: zs) = ⟨.word [c], i⟩ :: ⟨.word w, j⟩ :: zs :=
        fun zs => if_neg hj
      rw [List.cons_append, hjoin, hjoin, List.cons_append, List.cons_append]
  | _ => rfl

/-- The tokens of two texts of which no two letters or digits meet. -/
theorem tokens_append {i : Nat} {cs ds : List Char}
    (h : ∀ c ∈ cs.getLast?, ∀ d ∈ ds.head?, ¬ (c.isAlphanum ∧ d.isAlphanum)) :
    tokens i (cs ++ ds) = tokens i cs ++ tokens (i + cs.length) ds := by
  induction cs generalizing i with
  | nil => rfl
  | cons c cs ih =>
    have hlen : i + (c :: cs).length = i + 1 + cs.length := by
      rw [List.length_cons]
      omega
    have hlast : ∀ c ∈ cs.getLast?, ∀ d ∈ ds.head?, ¬ (c.isAlphanum ∧ d.isAlphanum) := by
      intro e he
      refine h e ?_
      rw [List.getLast?_cons, Option.mem_def.mp he]
      rfl
    rw [hlen, List.cons_append]
    by_cases hb : isBlank c
    · rw [tokens_cons_blank hb, tokens_cons_blank hb, ih hlast]
    · have hb' : isBlank c = false := Bool.not_eq_true _ ▸ hb
      by_cases ha : c.isAlphanum
      · rw [tokens_cons_alphanum ha, tokens_cons_alphanum ha, ih hlast]
        by_cases hcs : tokens (i + 1) cs = []
        · -- Whatever follows is no word next to the letter or digit.
          have hnext : ∀ w ys, tokens (i + 1 + cs.length) ds ≠ ⟨.word w, i + 1⟩ :: ys := by
            intro w ys he
            have hpos := le_pos_of_mem_tokens (he ▸ List.mem_cons_self : _ ∈ tokens _ ds)
            obtain rfl : cs = [] := by
              refine List.length_eq_zero_iff.mp ?_
              have hle : i + 1 + cs.length ≤ i + 1 := hpos
              omega
            obtain ⟨d, hd, hda⟩ := isAlphanum_head_of_tokens he
            exact h c rfl d hd ⟨ha, hda⟩
          rw [hcs, List.nil_append]
          rcases join_cases i c (tokens (i + 1 + cs.length) ds) with ⟨w, ys, he, -⟩ | ⟨-, hj⟩
          · exact absurd he (hnext w ys)
          · exact hj
        · exact join_append hcs _
      · have ha' : c.isAlphanum = false := Bool.not_eq_true _ ▸ ha
        rw [tokens_cons_mark hb' ha', tokens_cons_mark hb' ha', ih hlast, List.cons_append]

/-- A mark cuts the text in which it stands. -/
theorem tokens_append_mark {c : Char} (hb : isBlank c = false) (ha : c.isAlphanum = false)
    (i : Nat) (cs ds : List Char) :
    tokens i (cs ++ c :: ds) =
      tokens i cs ++ ⟨.ofMark c, i + cs.length⟩ :: tokens (i + cs.length + 1) ds := by
  rw [tokens_append, tokens_cons_mark hb ha]
  rintro e - d ⟨⟩ ⟨-, hd⟩
  rw [ha] at hd
  cases hd

theorem Spelled.exists_append {i : Nat} {cs : List Char} {xs : List Lexeme}
    (h : Spelled i cs xs) {x : Lexeme} (hx : x ∈ xs) :
    ∃ as bs, cs = as ++ (x.token.spelling ++ bs) ∧ x.pos = i + as.length := by
  induction h with
  | nil => cases hx
  | @blank i c cs xs _ _ ih =>
    obtain ⟨as, bs, rfl, hpos⟩ := ih hx
    refine ⟨c :: as, bs, rfl, ?_⟩
    rw [hpos, List.length_cons]
    omega
  | @token i t cs xs _ ih =>
    rcases List.mem_cons.mp hx with rfl | hx
    · exact ⟨[], cs, rfl, rfl⟩
    · obtain ⟨as, bs, rfl, hpos⟩ := ih hx
      refine ⟨t.spelling ++ as, bs, (List.append_assoc _ _ _).symm, ?_⟩
      rw [hpos, List.length_append, Nat.add_assoc]

/-- A mark among the tokens of a text cuts the text. -/
theorem tokens_eq_append_mark {c : Char} (hb : isBlank c = false) (ha : c.isAlphanum = false)
    {cs : List Char} {xs ys : List Lexeme} {p : Nat}
    (h : tokens 0 cs = xs ++ ⟨.ofMark c, p⟩ :: ys) :
    ∃ as bs, cs = as ++ c :: bs ∧ as.length = p ∧ tokens 0 as = xs := by
  have hmem : (⟨.ofMark c, p⟩ : Lexeme) ∈ tokens 0 cs := by
    rw [h]
    exact List.mem_append_right _ List.mem_cons_self
  obtain ⟨as, bs, hcs, hpos⟩ := (spelled_tokens 0 cs).exists_append hmem
  rw [spelling_ofMark] at hcs
  obtain rfl : p = as.length := hpos.trans (Nat.zero_add _)
  refine ⟨as, bs, hcs, rfl, ?_⟩
  -- The mark is no token of what stands before it or behind it.
  have hbefore : (⟨.ofMark c, as.length⟩ : Lexeme) ∉ tokens 0 as := by
    intro hx
    have hlt := pos_lt_of_mem_tokens hx
    rw [Nat.zero_add] at hlt
    exact Nat.lt_irrefl _ hlt
  have hbehind : (⟨.ofMark c, as.length⟩ : Lexeme) ∉ tokens (as.length + 1) bs := by
    intro hx
    exact Nat.not_succ_le_self _ (le_pos_of_mem_tokens hx)
  have hcut : tokens 0 cs = tokens 0 as ++ ⟨.ofMark c, as.length⟩ :: tokens (as.length + 1) bs := by
    rw [hcs]
    exact (tokens_append_mark hb ha 0 as bs).trans (by rw [Nat.zero_add])
  exact ((List.append_cons_inj_of_notMem hbefore hbehind).mp (hcut.symm.trans h)).1

/-- The tokens up to a mark depend on nothing behind it. -/
theorem tokens_of_take_eq {c : Char} (hb : isBlank c = false) (ha : c.isAlphanum = false)
    {cs ds : List Char} {xs ys : List Lexeme} {p : Nat}
    (h : tokens 0 cs = xs ++ ⟨.ofMark c, p⟩ :: ys) (hds : ds.take (p + 1) = cs.take (p + 1)) :
    cs[p]? = some c ∧ ∃ zs, tokens 0 ds = xs ++ ⟨.ofMark c, p⟩ :: zs := by
  obtain ⟨as, bs, rfl, rfl, rfl⟩ := tokens_eq_append_mark hb ha h
  have htake : (as ++ c :: bs).take (as.length + 1) = as ++ [c] := by
    rw [List.append_cons]
    exact List.take_left' (by simp)
  refine ⟨by simp, ?_⟩
  obtain ⟨zs, hzs⟩ : ∃ zs, ds = as ++ c :: zs := by
    refine ⟨ds.drop (as.length + 1), ?_⟩
    conv_lhs => rw [← List.take_append_drop (as.length + 1) ds, hds, htake]
    simp
  refine ⟨tokens (as.length + 1) zs, ?_⟩
  rw [hzs]
  exact (tokens_append_mark hb ha 0 as zs).trans (by rw [Nat.zero_add])

theorem tokens_identifier (i : Nat) (x : Identifier) :
    tokens i x.name.toList = [⟨.word x.name.toList, i⟩] :=
  tokens_word x.toList_ne_nil x.isAlphanum_of_mem i

end Abacus.Formula
